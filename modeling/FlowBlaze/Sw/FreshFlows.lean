import FlowBlaze.Sw.Instances
/-!
# How a flow starts

A flow that is not in the table gets a place of the pool, and starts with
what that place holds. A place is either one that no flow ever had, or
one that was given back. This file follows both through any run of calls:
registers and the destroy flag are always those of a new instance, and
the state is the initial state of the table in a place given back, and 0
in one never used.
-/

namespace FlowBlaze

namespace Sw

open Common

/-- A call on the instance of a flow. All but a lookup need the flow to
have one. -/
inductive FlowCall
  | lookup (fk : FlowKey)
  | evaluate (fk : FlowKey) (env : Env) (conditions : Fin maxConditions → XfsmCondition)
    (nbConditions : ℕ)
  | execute (fk : FlowKey) (env : Env) (row : XfsmTableEntry)
  | setState (fk : FlowKey) (state : State)
  | destroy (fk : FlowKey)

/-- The flow a call is on. -/
def FlowCall.key : FlowCall → FlowKey
  | .lookup fk => fk
  | .evaluate fk _ _ _ => fk
  | .execute fk _ _ => fk
  | .setState fk _ => fk
  | .destroy fk => fk

namespace Instances

variable {H : SlotMap FlowKey}

/-- A call. -/
def flowCall (defaultState : State) (I : Instances H) : FlowCall → Option (Instances H)
  | .lookup fk => some (I.lookupInstance fk).1
  | .evaluate fk env conditions nbConditions =>
    (H.lookup I.instancesHmap fk).bind fun place => I.evaluate place env conditions nbConditions
  | .execute fk env row =>
    (H.lookup I.instancesHmap fk).bind fun place =>
      (xfsmExecuteActions env.pktFields row.actions (I.start place env)).map (I.finish place)
  | .setState fk state => (H.lookup I.instancesHmap fk).map fun place => I.setState place state
  | .destroy fk =>
    (H.lookup I.instancesHmap fk).map fun place => I.destroyInstance defaultState place

/-- **A run of calls** on flows, from a new table. -/
def flowCalls (H : SlotMap FlowKey) (defaultState : State) (cs : List FlowCall) :
    Option (Instances H) :=
  cs.foldlM (flowCall defaultState) (create H)

end Instances

/-! ## What a call does to the pool -/

section Pool

variable {H : SlotMap FlowKey} {I J : Instances H} {defaultState : State} {fk : FlowKey}
  {place p : ℕ}

/-- Each flow's key is written in its instance. -/
def Instances.Keyed (I : Instances H) : Prop :=
  ∀ fk p, H.lookup I.instancesHmap fk = some p → (I.instancesPool p).flowKey = fk

/-- A change of one flow's instance that leaves its key alone. -/
structure Instances.Touches (I J : Instances H) (fk : FlowKey) (place : ℕ) : Prop where
  live : H.lookup I.instancesHmap fk = some place
  hmap : J.instancesHmap = I.instancesHmap
  count : J.nbInstances = I.nbInstances
  others : ∀ p, p ≠ place → J.instancesPool p = I.instancesPool p
  flowKey : (J.instancesPool place).flowKey = (I.instancesPool place).flowKey

theorem touches_setInstance {instance' : XfsmInstance}
    (h : H.lookup I.instancesHmap fk = some place)
    (hkey : instance'.flowKey = (I.instancesPool place).flowKey) :
    I.Touches (I.setInstance place instance') fk place where
  live := h
  hmap := rfl
  count := rfl
  others _p hp := Function.update_of_ne hp _ _
  flowKey := (congrArg XfsmInstance.flowKey (Function.update_self place _ _)).trans hkey

/-- **What a call on a flow does**: it looks the flow up, changes its
instance, or destroys it. -/
theorem flowCall_cases {c : FlowCall} (h : I.flowCall defaultState c = some J) :
    (∃ fk, c = .lookup fk ∧ J = (I.lookupInstance fk).1) ∨
    (∃ place, I.Touches J c.key place ∧ ∀ k, c ≠ .destroy k) ∨
    ∃ fk place, c = .destroy fk ∧ H.lookup I.instancesHmap fk = some place ∧
      J = I.destroyInstance defaultState place := by
  cases c with
  | lookup fk =>
    cases h
    exact .inl ⟨fk, rfl, rfl⟩
  | evaluate fk env conditions nbConditions =>
    obtain ⟨place, hplace, h⟩ := Option.bind_eq_some_iff.mp h
    obtain ⟨results, -, rfl⟩ := Option.map_eq_some_iff.mp h
    exact .inr (.inl ⟨place, touches_setInstance hplace rfl, fun k hk => by cases hk⟩)
  | execute fk env row =>
    obtain ⟨place, hplace, h⟩ := Option.bind_eq_some_iff.mp h
    obtain ⟨X, -, rfl⟩ := Option.map_eq_some_iff.mp h
    exact .inr (.inl ⟨place, touches_setInstance hplace rfl, fun k hk => by cases hk⟩)
  | setState fk state =>
    obtain ⟨place, hplace, rfl⟩ := Option.map_eq_some_iff.mp h
    exact .inr (.inl ⟨place, touches_setInstance hplace rfl, fun k hk => by cases hk⟩)
  | destroy fk =>
    obtain ⟨place, hplace, rfl⟩ := Option.map_eq_some_iff.mp h
    exact .inr (.inr ⟨fk, place, rfl, hplace, rfl⟩)

/-- Destroying a flow's instance takes the flow out. -/
theorem destroyInstance_of_keyed (hI : I.Keyed) (h : H.lookup I.instancesHmap fk = some place) :
    H.lookup (I.destroyInstance defaultState place).instancesHmap =
        Function.update (H.lookup I.instancesHmap) fk none ∧
      (I.destroyInstance defaultState place).instancesPool =
        Function.update I.instancesPool place (initInstance defaultState) := by
  have hkey : (I.instancesPool place).flowKey = fk := hI fk place h
  rcases @destroyInstance_cases H I defaultState place with ⟨hnone, -⟩ | ⟨-, hlookup, hpool, -⟩
  · rw [hkey, h] at hnone
    cases hnone
  · rw [hkey] at hlookup
    exact ⟨hlookup, hpool⟩

theorem keyed_create : (Instances.create H).Keyed := by
  intro fk p h
  rw [show H.lookup (Instances.create H).instancesHmap fk = none from H.lookup_create _ _] at h
  cases h

/-- A lookup keeps the keys written. -/
theorem Instances.Keyed.lookupInstance (hI : I.Keyed) (fk : FlowKey) :
    (I.lookupInstance fk).1.Keyed := by
  intro k p hk
  cases hfk : H.lookup I.instancesHmap fk with
  | some place =>
    rw [lookupInstance_of_mem hfk] at hk ⊢
    exact hI k p hk
  | none =>
    rcases lookupInstance_cases hfk with ⟨-, -, hlookup, hpool, -⟩ |
      ⟨place, -, hfree, hlookup, hpool, -⟩
    · rw [hlookup] at hk
      rw [hpool]
      exact hI k p hk
    · rw [hlookup] at hk
      rw [hpool]
      by_cases hkfk : k = fk
      · rw [hkfk, Function.update_self] at hk
        cases hk
        rw [Function.update_self]
        exact hkfk.symm
      · rw [Function.update_of_ne hkfk] at hk
        have hp : p ≠ place := fun hp => hfree ⟨k, hp ▸ hk⟩
        rw [Function.update_of_ne hp]
        exact hI k p hk

theorem Instances.Keyed.touches (hI : I.Keyed) (h : I.Touches J fk place) : J.Keyed := by
  intro k p hk
  rw [h.hmap] at hk
  by_cases hp : p = place
  · rw [hp, h.flowKey]
    exact hI k place (hp ▸ hk)
  · rw [h.others p hp]
    exact hI k p hk

theorem Instances.Keyed.destroyInstance (hI : I.Keyed)
    (h : H.lookup I.instancesHmap fk = some place) :
    (I.destroyInstance defaultState place).Keyed := by
  obtain ⟨hlookup, hpool⟩ := @destroyInstance_of_keyed H I defaultState fk place hI h
  intro k p hk
  rw [hlookup] at hk
  rw [hpool]
  by_cases hkfk : k = fk
  · rw [hkfk, Function.update_self] at hk
    cases hk
  · rw [Function.update_of_ne hkfk] at hk
    have hp : p ≠ place := fun hp => hkfk (H.lookup_inj (hp ▸ hk) h)
    rw [Function.update_of_ne hp]
    exact hI k p hk

/-- **A call keeps the keys written.** -/
theorem Instances.Keyed.flowCall (hI : I.Keyed) {c : FlowCall}
    (h : I.flowCall defaultState c = some J) : J.Keyed := by
  rcases flowCall_cases h with ⟨fk, -, rfl⟩ | ⟨place, htouches, -⟩ |
    ⟨fk, place, -, hplace, rfl⟩
  · exact hI.lookupInstance fk
  · exact hI.touches htouches
  · exact hI.destroyInstance hplace

/-! ## Free places -/

/-- What the free places hold: the contents of a new instance, in the
state of the table where the place was given back and in state 0
elsewhere. -/
structure Instances.FreePlaces (I : Instances H) (defaultState : State) (back : ℕ → Prop) :
    Prop where
  registers : ∀ p, ¬H.Taken I.instancesHmap p → (I.instancesPool p).registers = fun _ => 0
  destroy : ∀ p, ¬H.Taken I.instancesHmap p → (I.instancesPool p).destroy = false
  given : ∀ p, ¬H.Taken I.instancesHmap p → back p →
    (I.instancesPool p).currentState = defaultState
  unused : ∀ p, ¬H.Taken I.instancesHmap p → ¬back p → (I.instancesPool p).currentState = 0

theorem freePlaces_create : (Instances.create H).FreePlaces defaultState fun _ => False where
  registers _ _ := rfl
  destroy _ _ := rfl
  given _ _ h := h.elim
  unused _ _ _ := rfl

/-- What the free places hold is kept where no place is freed and the free
ones are left alone. -/
theorem Instances.FreePlaces.mono {back : ℕ → Prop} (hI : I.FreePlaces defaultState back)
    (hfree : ∀ p, ¬H.Taken J.instancesHmap p →
      ¬H.Taken I.instancesHmap p ∧ J.instancesPool p = I.instancesPool p) :
    J.FreePlaces defaultState back where
  registers p hp := by
    obtain ⟨hpI, heq⟩ := hfree p hp
    rw [heq]
    exact hI.registers p hpI
  destroy p hp := by
    obtain ⟨hpI, heq⟩ := hfree p hp
    rw [heq]
    exact hI.destroy p hpI
  given p hp hback := by
    obtain ⟨hpI, heq⟩ := hfree p hp
    rw [heq]
    exact hI.given p hpI hback
  unused p hp hback := by
    obtain ⟨hpI, heq⟩ := hfree p hp
    rw [heq]
    exact hI.unused p hpI hback

/-- A lookup takes a place or leaves all as it was. -/
theorem lookupInstance_free (I : Instances H) (fk : FlowKey) (p : ℕ)
    (hp : ¬H.Taken (I.lookupInstance fk).1.instancesHmap p) :
    ¬H.Taken I.instancesHmap p ∧
      (I.lookupInstance fk).1.instancesPool p = I.instancesPool p := by
  cases hfk : H.lookup I.instancesHmap fk with
  | some place =>
    rw [lookupInstance_of_mem hfk] at hp ⊢
    exact ⟨hp, rfl⟩
  | none =>
    rcases lookupInstance_cases hfk with ⟨-, -, hlookup, hpool, -⟩ |
      ⟨place, -, -, hlookup, hpool, -⟩
    · rw [hpool]
      exact ⟨fun ⟨k, hk⟩ => hp ⟨k, (hlookup k).trans hk⟩, rfl⟩
    · have hne : p ≠ place := by
        rintro rfl
        exact hp ⟨fk, by rw [hlookup, Function.update_self]⟩
      refine ⟨?_, by rw [hpool, Function.update_of_ne hne]⟩
      rintro ⟨k, hk⟩
      refine hp ⟨k, ?_⟩
      rw [hlookup, Function.update_of_ne ?_, hk]
      rintro rfl
      rw [hfk] at hk
      cases hk

theorem Instances.Touches.free (h : I.Touches J fk place) (p : ℕ)
    (hp : ¬H.Taken J.instancesHmap p) :
    ¬H.Taken I.instancesHmap p ∧ J.instancesPool p = I.instancesPool p := by
  have hpI : ¬H.Taken I.instancesHmap p := by
    rw [← h.hmap]
    exact hp
  refine ⟨hpI, h.others p ?_⟩
  rintro rfl
  exact hpI ⟨fk, h.live⟩

/-- Destroying an instance gives one place back. -/
theorem Instances.FreePlaces.destroyInstance {back : ℕ → Prop}
    (hI : I.FreePlaces defaultState back) (hkeyed : I.Keyed)
    (h : H.lookup I.instancesHmap fk = some place) :
    (I.destroyInstance defaultState place).FreePlaces defaultState
      fun p => back p ∨ p = place := by
  obtain ⟨hlookup, hpool⟩ := @destroyInstance_of_keyed H I defaultState fk place hkeyed h
  have hself : (I.destroyInstance defaultState place).instancesPool place =
      initInstance defaultState := by rw [hpool, Function.update_self]
  have hother : ∀ p, p ≠ place →
      ¬H.Taken (I.destroyInstance defaultState place).instancesHmap p →
      ¬H.Taken I.instancesHmap p ∧
        (I.destroyInstance defaultState place).instancesPool p = I.instancesPool p := by
    intro p hne hp
    refine ⟨?_, by rw [hpool, Function.update_of_ne hne]⟩
    rintro ⟨k, hk⟩
    refine hp ⟨k, ?_⟩
    rw [hlookup, Function.update_of_ne ?_, hk]
    rintro rfl
    exact hne (Option.some.inj (hk.symm.trans h))
  -- each part of the invariant, for the place given back and for the others
  constructor
  · intro p hp
    by_cases hne : p = place
    · rw [hne, hself]
      rfl
    · rw [(hother p hne hp).2]
      exact hI.registers p (hother p hne hp).1
  · intro p hp
    by_cases hne : p = place
    · rw [hne, hself]
      rfl
    · rw [(hother p hne hp).2]
      exact hI.destroy p (hother p hne hp).1
  · intro p hp hback
    by_cases hne : p = place
    · rw [hne, hself]
      rfl
    · rw [(hother p hne hp).2]
      exact hI.given p (hother p hne hp).1 (hback.resolve_right hne)
  · intro p hp hback
    have hne : p ≠ place := fun hne => hback (.inr hne)
    rw [(hother p hne hp).2]
    exact hI.unused p (hother p hne hp).1 fun hb => hback (.inl hb)

end Pool

/-! ## Runs -/

section Runs

variable {H : SlotMap FlowKey} {defaultState : State} {cs : List FlowCall} {I : Instances H}

/-- **A place was given back** in a run: a call of it destroyed the flow
that had it. -/
def GivenBack (H : SlotMap FlowKey) (defaultState : State) (cs : List FlowCall) (p : ℕ) : Prop :=
  ∃ before fk after I, cs = before ++ .destroy fk :: after ∧
    Instances.flowCalls H defaultState before = some I ∧ H.lookup I.instancesHmap fk = some p

/-- **A new flow starts fresh**: whatever instance a lookup of an absent
key returns is in the initial state, with registers zero, not to be
destroyed, and with its key written. -/
def StartsFresh (I : Instances H) (initialState : State) : Prop :=
  ∀ fk, H.lookup I.instancesHmap fk = none → ∀ p, (I.lookupInstance fk).2 = some p →
    ((I.lookupInstance fk).1.instancesPool p).currentState = initialState ∧
    ((I.lookupInstance fk).1.instancesPool p).registers = (fun _ => 0) ∧
    ((I.lookupInstance fk).1.instancesPool p).destroy = false ∧
    ((I.lookupInstance fk).1.instancesPool p).flowKey = fk

theorem flowCalls_snoc (cs : List FlowCall) (c : FlowCall) :
    Instances.flowCalls H defaultState (cs ++ [c]) =
      (Instances.flowCalls H defaultState cs).bind fun I => I.flowCall defaultState c := by
  unfold Instances.flowCalls
  rw [List.foldlM_append]
  cases List.foldlM (Instances.flowCall defaultState) (Instances.create H) cs with
  | none => rfl
  | some I => exact bind_pure (I.flowCall defaultState c)

theorem not_givenBack_nil (p : ℕ) : ¬GivenBack H defaultState [] p := by
  rintro ⟨before, fk, after, I, hcs, -⟩
  cases before <;> cases hcs

theorem givenBack_snoc (h : Instances.flowCalls H defaultState cs = some I) (c : FlowCall)
    (p : ℕ) :
    GivenBack H defaultState (cs ++ [c]) p ↔
      GivenBack H defaultState cs p ∨
        ∃ fk, c = .destroy fk ∧ H.lookup I.instancesHmap fk = some p := by
  constructor
  · rintro ⟨before, fk, after, J, hcs, hbefore, hp⟩
    rcases List.eq_nil_or_concat after with rfl | ⟨after', e, rfl⟩
    · obtain ⟨rfl, hc⟩ := List.append_inj' hcs rfl
      cases hc
      rw [h] at hbefore
      cases hbefore
      exact .inr ⟨fk, rfl, hp⟩
    · have hcs' : cs ++ [c] = (before ++ .destroy fk :: after') ++ [e] := by
        rw [hcs, List.concat_eq_append, List.append_assoc, List.cons_append]
      exact .inl ⟨before, fk, after', J, (List.append_inj' hcs' rfl).1, hbefore, hp⟩
  · rintro (⟨before, fk, after, J, hcs, hbefore, hp⟩ | ⟨fk, rfl, hp⟩)
    · refine ⟨before, fk, after ++ [c], J, ?_, hbefore, hp⟩
      rw [hcs, List.append_assoc, List.cons_append]
    · exact ⟨cs, fk, [], I, rfl, h, hp⟩

/-- **The keys and the free places, after any run.** -/
theorem flowCalls_invariant (h : Instances.flowCalls H defaultState cs = some I) :
    I.Keyed ∧ I.FreePlaces defaultState (GivenBack H defaultState cs) := by
  induction cs using List.reverseRecOn generalizing I with
  | nil =>
    cases h
    refine ⟨keyed_create, ?_⟩
    rw [show GivenBack H defaultState [] = fun _ => False from
      funext fun p => propext (iff_false_intro (not_givenBack_nil p))]
    exact freePlaces_create
  | append_singleton cs c ih =>
    rw [flowCalls_snoc] at h
    obtain ⟨J, hJ, hc⟩ := Option.bind_eq_some_iff.mp h
    obtain ⟨hkeyed, hfree⟩ := ih hJ
    refine ⟨hkeyed.flowCall hc, ?_⟩
    rw [show GivenBack H defaultState (cs ++ [c]) = _ from
      funext fun p => propext (givenBack_snoc hJ c p)]
    -- only destroying an instance gives a place back
    rcases flowCall_cases hc with ⟨fk, rfl, rfl⟩ | ⟨place, htouches, hnot⟩ |
      ⟨fk, place, rfl, hplace, rfl⟩
    · have hback : (fun p => GivenBack H defaultState cs p ∨
          ∃ k, FlowCall.lookup fk = .destroy k ∧ H.lookup J.instancesHmap k = some p) =
          GivenBack H defaultState cs :=
        funext fun p => propext (or_iff_left fun ⟨_, hk, _⟩ => by cases hk)
      rw [hback]
      exact hfree.mono (lookupInstance_free J fk)
    · have hback : (fun p => GivenBack H defaultState cs p ∨
          ∃ k, c = .destroy k ∧ H.lookup J.instancesHmap k = some p) =
          GivenBack H defaultState cs :=
        funext fun p => propext (or_iff_left fun ⟨k, hk, _⟩ => hnot k hk)
      rw [hback]
      exact hfree.mono htouches.free
    · have hback : (fun p => GivenBack H defaultState cs p ∨
          ∃ k, FlowCall.destroy fk = .destroy k ∧ H.lookup J.instancesHmap k = some p) =
          fun p => GivenBack H defaultState cs p ∨ p = place := by
        refine funext fun p => propext (or_congr_right ⟨?_, ?_⟩)
        · rintro ⟨k, hk, hp⟩
          cases hk
          exact Option.some.inj (hp.symm.trans hplace)
        · rintro rfl
          exact ⟨fk, rfl, hplace⟩
      rw [hback]
      exact hfree.destroyInstance hkeyed hplace

/-- **What an absent flow is handed.** A free place, with its key written
over what the place held. -/
theorem lookupInstance_new {fk : FlowKey} {p : ℕ} (hfk : H.lookup I.instancesHmap fk = none)
    (hp : (I.lookupInstance fk).2 = some p) :
    ¬H.Taken I.instancesHmap p ∧
      (I.lookupInstance fk).1.instancesPool p = { I.instancesPool p with flowKey := fk } := by
  rcases lookupInstance_cases hfk with ⟨hnone, -⟩ | ⟨place, hplace, hfree, -, hpool, -⟩
  · rw [hnone] at hp
    cases hp
  · rw [hplace] at hp
    cases hp
    exact ⟨hfree, by rw [hpool, Function.update_self]⟩

/-- An absent flow is handed the place the hash gives its key, while the
counter allows. -/
theorem lookupInstance_absent {fk : FlowKey} (hfk : H.lookup I.instancesHmap fk = none) :
    (I.lookupInstance fk).2 =
      if I.nbInstances ≠ maxInstances - 1 then (H.add I.instancesHmap fk).2 else none := by
  unfold Instances.lookupInstance Instances.insertInstance
  rw [hfk]
  by_cases hnb : I.nbInstances ≠ maxInstances - 1
  · rw [if_pos hnb, if_pos hnb]
    cases hadd : H.add I.instancesHmap fk with
    | mk hmap result => cases result <;> rfl
  · rw [if_neg hnb, if_neg hnb]

/-- **After any run, a new flow starts fresh exactly if the initial state
is 0 or every place a new key can be handed was given back.** -/
theorem startsFresh_iff (h : Instances.flowCalls H defaultState cs = some I) :
    StartsFresh I defaultState ↔
      defaultState = 0 ∨ ∀ fk p, H.lookup I.instancesHmap fk = none →
        I.nbInstances ≠ maxInstances - 1 → (H.add I.instancesHmap fk).2 = some p →
          GivenBack H defaultState cs p := by
  obtain ⟨-, hfree⟩ := flowCalls_invariant h
  constructor
  · intro hfresh
    refine or_iff_not_imp_left.mpr fun hstate fk p hfk hnb hadd => by_contra fun hback => ?_
    have hp : (I.lookupInstance fk).2 = some p := by
      rw [lookupInstance_absent hfk, if_pos hnb, hadd]
    obtain ⟨hfreep, heq⟩ := lookupInstance_new hfk hp
    have hcurrent := (hfresh fk hfk p hp).1
    rw [heq] at hcurrent
    exact hstate (hcurrent.symm.trans (hfree.unused p hfreep hback))
  · intro hback fk hfk p hp
    obtain ⟨hfreep, heq⟩ := lookupInstance_new hfk hp
    rw [lookupInstance_absent hfk] at hp
    rw [heq]
    refine ⟨?_, hfree.registers p hfreep, hfree.destroy p hfreep, rfl⟩
    by_cases hgiven : GivenBack H defaultState cs p
    · exact hfree.given p hfreep hgiven
    · rcases hback with hstate | hback
      · rw [hstate]
        exact hfree.unused p hfreep hgiven
      · by_cases hnb : I.nbInstances ≠ maxInstances - 1
        · rw [if_pos hnb] at hp
          exact absurd (hback fk p hfk hnb hp) hgiven
        · rw [if_neg hnb] at hp
          cases hp

/-- Two flows come, and the first one moves on and goes. -/
def goneAgain : List FlowCall :=
  [.lookup fun _ => 1, .lookup fun _ => 2, .setState (fun _ => 1) 7, .destroy fun _ => 1]

/-- The table then, with initial state 1. -/
def afterGone : Instances (listSlotMap FlowKey) :=
  ((Instances.flowCalls (listSlotMap FlowKey) 1 goneAgain).getD (Instances.create _))

theorem flowCalls_goneAgain :
    Instances.flowCalls (listSlotMap FlowKey) 1 goneAgain = some afterGone := rfl

/-- A further flow gets the place of the first one. -/
theorem add_afterGone {fk : FlowKey} {p : ℕ}
    (hfk : (listSlotMap FlowKey).lookup afterGone.instancesHmap fk = none)
    (hadd : ((listSlotMap FlowKey).add afterGone.instancesHmap fk).2 = some p) : p = 0 := by
  rcases ListMap.add_cases afterGone.instancesHmap fk with ⟨q, hq, -⟩ | ⟨-, hslot, -⟩
  · exact absurd (hfk.symm.trans hq) (Option.some_ne_none q).symm
  · have hfree : ListMap.freeSlot (afterGone.instancesHmap.entries.map Prod.snd) = 0 := by
      decide +kernel
    rw [hfree] at hslot
    exact Option.some.inj (hadd.symm.trans hslot)

/-- **It starts in the initial state.** -/
theorem startsFresh_afterGone : StartsFresh afterGone 1 := by
  refine (startsFresh_iff flowCalls_goneAgain).mpr (.inr fun fk p hfk _ hadd => ?_)
  rw [add_afterGone hfk hadd]
  exact ⟨[.lookup fun _ => 1, .lookup fun _ => 2, .setState (fun _ => 1) 7], fun _ => 1, [], _,
    rfl, rfl, rfl⟩

/-- **The first flow of a table with initial state 1** starts in state 0. -/
theorem not_startsFresh : ¬StartsFresh (Instances.create (listSlotMap FlowKey)) 1 := by
  intro h
  have hstate := (h (fun _ => 1) rfl 0 rfl).1
  cases hstate

end Runs

end Sw

end FlowBlaze

import FlowBlaze.Common.HashTables
/-!
# A multi-way table with a stash

A multi-way table loses entries to collisions; a stash beside it keeps
them until they can go back. An operation is not atomic: it is issued,
and carried out later, and between the two it is *pending*. This file
is that system as a transition relation, over any hash functions and any
stash: what may be issued and when, what carrying it out does, and the
one event that loses an entry, an eviction from a full stash.

`WF` is the invariant. `Step.wf` keeps it, `Step.present` says that no
entry disappears silently, and `Step.means` that the system as a whole
is a map.
-/

namespace FlowBlaze

namespace Common

variable {I A S K V : Type}

/-- The operation issued and not carried out: an insertion from outside,
an insertion of an entry taken off the stash, or a removal. -/
inductive Pending (K V : Type)
  | insert (k : K) (v : V)
  | move (k : K) (v : V)
  | remove (k : K)

/-- The key an operation is about. -/
def Pending.key : Pending K V → K
  | .insert k _ => k
  | .move k _ => k
  | .remove k => k

/-- What a step shows to the outside. -/
inductive Event (K V : Type)
  | internal
  | insert (k : K) (v : V)
  | remove (k : K)
  | evict (k : K) (v : V)

/-- The tables, the seats of the stash and the pending operation. -/
structure StashedTable (I A S K V : Type) where
  table : Tables I A K V
  seats : S → Option (K × V)
  pending : Option (Pending K V)

namespace StashedTable

/-- The stash holds the entry. -/
def Seated (s : StashedTable I A S K V) (k : K) (v : V) : Prop := ∃ j, s.seats j = some (k, v)

/-- The entry is to be stored. -/
def Stores (s : StashedTable I A S K V) (k : K) (v : V) : Prop :=
  s.pending = some (.insert k v) ∨ s.pending = some (.move k v)

/-- Nothing is left to carry out: no operation is pending, or a removal
of a key the tables do not hold. -/
def Idle (s : StashedTable I A S K V) : Prop :=
  s.pending = none ∨ ∃ k, s.pending = some (.remove k) ∧ ¬ s.table.Has k

variable [DecidableEq I] [DecidableEq A] [DecidableEq S]

/-- **The steps.** Operations are issued when nothing is left to carry
out. An insertion may be issued for a key that is not in the stash. A
removal may take its key out of the stash, and no other. -/
inductive Step (addr : I → K → A) (s : StashedTable I A S K V) :
    Event K V → StashedTable I A S K V → Prop
  /-- Nothing is issued. -/
  | rest : s.Idle → Step addr s .internal { s with pending := none }
  /-- An insertion is issued from outside. -/
  | insert {k v} : s.Idle → (∀ w, ¬ s.Seated k w) →
      Step addr s (.insert k v) { s with pending := some (.insert k v) }
  /-- A removal is issued from outside. -/
  | remove {k seats} : s.Idle →
      (∀ j, seats j = s.seats j ∨ (seats j = none ∧ ∃ v, s.seats j = some (k, v))) →
      Step addr s (.remove k) { s with seats := seats, pending := some (.remove k) }
  /-- An entry is taken off the stash. -/
  | move {k v seats} : s.Idle → s.Seated k v →
      (∀ j k' v', seats j = some (k', v') ↔ s.seats j = some (k', v') ∧ k' ≠ k) →
      Step addr s .internal { s with seats := seats, pending := some (.move k v) }
  /-- A removal is carried out. -/
  | erase {i k v} : s.pending = some (.remove k) → s.table i (addr i k) = some (k, v) →
      Step addr s .internal
        { s with table := s.table.write i (addr i k) none, pending := none }
  /-- An insertion is carried out in a cell that was free or held the key. -/
  | store {i k v} : s.Stores k v → s.table.OnlyAt i (addr i k) k →
      (s.table i (addr i k) = none ∨ ∃ w, s.table i (addr i k) = some (k, w)) →
      Step addr s .internal
        { s with table := s.table.write i (addr i k) (some (k, v)), pending := none }
  /-- An insertion kicks another entry into a free seat of the stash. -/
  | kick {i j k v k' v'} : s.Stores k v → s.table.OnlyAt i (addr i k) k →
      s.table i (addr i k) = some (k', v') → k' ≠ k → s.seats j = none →
      Step addr s .internal
        { table := s.table.write i (addr i k) (some (k, v))
          seats := Function.update s.seats j (some (k', v'))
          pending := none }
  /-- An insertion kicks another entry out, and the stash is full. -/
  | evict {i k v k' v'} : s.Stores k v → s.table.OnlyAt i (addr i k) k →
      s.table i (addr i k) = some (k', v') → k' ≠ k → (∀ j, s.seats j ≠ none) →
      Step addr s (.evict k' v')
        { s with table := s.table.write i (addr i k) (some (k, v)), pending := none }

/-! ## The invariant -/

/-- **Where a key can be.** Every entry of the tables is at home, the
stash holds each key once and none that the tables hold, and a key about
to be stored is not in the stash; when it comes from the stash, it is
not in the tables either. -/
structure WF (addr : I → K → A) (s : StashedTable I A S K V) : Prop where
  placed : Tables.Placed addr s.table
  apart : ∀ {k v}, s.Seated k v → ¬ s.table.Has k
  distinct : ∀ {j j' k v v'}, s.seats j = some (k, v) → s.seats j' = some (k, v') → j = j'
  storing : ∀ {k v}, s.Stores k v → ∀ w, ¬ s.Seated k w
  moving : ∀ {k v}, s.pending = some (.move k v) → ¬ s.table.Has k

variable {addr : I → K → A} {s s' : StashedTable I A S K V} {e : Event K V} {k : K} {v : V}

omit [DecidableEq I] [DecidableEq A] [DecidableEq S] in
/-- Dropping seats and changing the pending operation keeps the
invariant, when what is pending next is not in the stash. -/
private theorem WF.of_seats (h : WF addr s) {seats : S → Option (K × V)}
    {pending : Option (Pending K V)}
    (hsub : ∀ {j k v}, seats j = some (k, v) → s.seats j = some (k, v))
    (hstore : ∀ {k v}, pending = some (.insert k v) ∨ pending = some (.move k v) →
      ∀ j w, seats j ≠ some (k, w))
    (hmove : ∀ {k v}, pending = some (.move k v) → ¬ s.table.Has k) :
    WF addr { s with seats := seats, pending := pending } where
  placed := h.placed
  apart := fun ⟨j, hj⟩ => h.apart ⟨j, hsub hj⟩
  distinct hj hj' := h.distinct (hsub hj) (hsub hj')
  storing hs _ := fun ⟨j, hj⟩ => hstore hs j _ hj
  moving := hmove

omit [DecidableEq S] in
/-- Carrying an insertion out keeps the stash and the tables apart. -/
private theorem WF.apart_store (h : WF addr s) (hst : s.Stores k v) {i : I}
    (hat : s.table.OnlyAt i (addr i k) k) {k' : K} {w : V} (hs : s.Seated k' w) :
    ¬ (s.table.write i (addr i k) (some (k, v))).Has k' := by
  rintro ⟨w', hw'⟩
  rcases (Tables.maps_store hat).1 hw' with ⟨rfl, -⟩ | ⟨-, j, b, hjb, -⟩
  · exact h.storing hst w hs
  · exact h.apart hs ⟨w', j, b, hjb⟩

omit [DecidableEq S] in
/-- The entry kicked out of a cell is nowhere in the tables afterwards. -/
private theorem WF.not_has_kicked (h : WF addr s) {i : I} {k' : K} {v' : V}
    (hat : s.table.OnlyAt i (addr i k) k) (hcell : s.table i (addr i k) = some (k', v'))
    (hne : k' ≠ k) : ¬ (s.table.write i (addr i k) (some (k, v))).Has k' := by
  rintro ⟨w, hw⟩
  rcases (Tables.maps_store hat).1 hw with ⟨rfl, -⟩ | ⟨-, j, b, hjb, hout⟩
  · exact hne rfl
  · exact hout (h.placed.onlyAt hcell hjb)

/-- **Every step keeps the invariant.** -/
theorem Step.wf (hs : Step addr s e s') (h : WF addr s) : WF addr s' := by
  cases hs with
  | rest hidle =>
    refine h.of_seats (fun hj => hj) ?_ ?_
    · rintro k v (hp | hp) <;> cases hp
    · intro k v hp
      cases hp
  | @insert k v hidle hno =>
    refine h.of_seats (fun hj => hj) ?_ ?_
    · rintro k' v' (hp | hp)
      · cases hp
        exact fun j w hj => hno w ⟨j, hj⟩
      · cases hp
    · intro k' v' hp
      cases hp
  | @remove k seats hidle hsub =>
    refine h.of_seats ?_ ?_ ?_
    · intro j k' v' hj
      rcases hsub j with heq | ⟨hnone, -⟩
      · rwa [heq] at hj
      · rw [hnone] at hj
        cases hj
    · rintro k' v' (hp | hp) <;> cases hp
    · intro k' v' hp
      cases hp
  | @move k v seats hidle hseat hforget =>
    refine h.of_seats (fun hj => ((hforget _ _ _).1 hj).1) ?_ ?_
    · rintro k' v' (hp | hp)
      · cases hp
      · cases hp
        exact fun j w hj => ((hforget _ _ _).1 hj).2 rfl
    · intro k' v' hp
      cases hp
      exact h.apart hseat
  | @erase i k v hpend hcell =>
    refine ⟨h.placed.erase, ?_, h.distinct, ?_, ?_⟩
    · rintro k' w hseat ⟨w', hw'⟩
      exact h.apart hseat ⟨w', ((h.placed.maps_erase hcell).1 hw').2⟩
    · rintro k' w (hp | hp) <;> cases hp
    · intro k' w hp
      cases hp
  | @store i k v hst hat hcell =>
    refine ⟨h.placed.store hat, fun hseat => h.apart_store hst hat hseat, h.distinct, ?_, ?_⟩
    · rintro k' w (hp | hp) <;> cases hp
    · intro k' w hp
      cases hp
  | @kick i j k v k' v' hst hat hcell hne hfree =>
    -- the kicked key was in the tables, so the stash does not hold it
    have hnew : ∀ w, ¬ s.Seated k' w := fun w hseat => h.apart hseat ⟨v', i, _, hcell⟩
    refine ⟨h.placed.store hat, ?_, ?_, ?_, ?_⟩
    · rintro k'' w ⟨j', hj'⟩
      simp only [Function.update_apply] at hj'
      split at hj'
      · cases hj'
        exact h.not_has_kicked hat hcell hne
      · exact h.apart_store hst hat ⟨j', hj'⟩
    · intro j₁ j₂ k'' w w' h₁ h₂
      simp only [Function.update_apply] at h₁ h₂
      split at h₁ <;> split at h₂
      · rename_i e₁ e₂
        rw [e₁, e₂]
      · cases h₁
        exact absurd ⟨j₂, h₂⟩ (hnew _)
      · cases h₂
        exact absurd ⟨j₁, h₁⟩ (hnew _)
      · exact h.distinct h₁ h₂
    · rintro k'' w (hp | hp) <;> cases hp
    · intro k'' w hp
      cases hp
  | @evict i k v k' v' hst hat hcell hne hfull =>
    refine ⟨h.placed.store hat, fun hseat => h.apart_store hst hat hseat, h.distinct, ?_, ?_⟩
    · rintro k'' w (hp | hp) <;> cases hp
    · intro k'' w hp
      cases hp

/-! ## No entry disappears silently -/

/-- The entry is somewhere: in the tables, in the stash, or pending. -/
def Present (s : StashedTable I A S K V) (k : K) (v : V) : Prop :=
  s.table.Maps k v ∨ s.Seated k v ∨ s.Stores k v

omit [DecidableEq S] in
/-- An entry of the tables survives a store for another key, unless it
was the one in the cell. -/
private theorem maps_store_of_ne {i : I} {k' : K} {v' : V}
    (hat : s.table.OnlyAt i (addr i k) k) (hne : k' ≠ k)
    (hout : s.table i (addr i k) ≠ some (k', v')) (hm : s.table.Maps k' v') :
    (s.table.write i (addr i k) (some (k, v))).Maps k' v' := by
  obtain ⟨j, b, hjb⟩ := hm
  refine (Tables.maps_store hat).2 (Or.inr ⟨hne, j, b, hjb, ?_⟩)
  rintro ⟨rfl, rfl⟩
  exact hout hjb

omit [DecidableEq I] [DecidableEq A] [DecidableEq S] in
/-- What an idle system holds is in the tables or in the stash. -/
theorem Present.of_idle (hidle : s.Idle) (hp : s.Present k v) :
    s.table.Maps k v ∨ s.Seated k v := by
  rcases hp with hp | hp | hp
  · exact Or.inl hp
  · exact Or.inr hp
  · rcases hidle with hn | ⟨k', hn, -⟩ <;> rcases hp with hp | hp <;> rw [hn] at hp <;> cases hp

omit [DecidableEq I] [DecidableEq A] [DecidableEq S] in
/-- What a system holds that stores a key: that key with its value, or
an entry of another key. -/
private theorem Present.of_stores (h : WF addr s) {k' : K} {v' : V} (hst : s.Stores k v)
    (hext : ∀ w, s.pending ≠ some (.insert k' w)) (hp : s.Present k' v') :
    (k' = k ∧ v' = v) ∨ (k' ≠ k ∧ (s.table.Maps k' v' ∨ s.Seated k' v')) := by
  by_cases hk : k' = k
  · subst hk
    have hmove : s.pending = some (.move k' v) := by
      rcases hst with hst | hst
      · exact absurd hst (hext v)
      · exact hst
    rcases hp with hp | hp | hp | hp
    · exact absurd ⟨v', hp⟩ (h.moving hmove)
    · exact absurd hp (h.storing hst v')
    · exact absurd hp (hext v')
    · rw [hmove] at hp
      cases hp
      exact Or.inl ⟨rfl, rfl⟩
  · rcases hp with hp | hp | hp
    · exact Or.inr ⟨hk, Or.inl hp⟩
    · exact Or.inr ⟨hk, Or.inr hp⟩
    · rcases hst with hst | hst <;> rcases hp with hp | hp <;> rw [hst] at hp <;> cases hp <;>
        exact absurd rfl hk

/-- **No entry disappears silently.** It stays, or a removal of its key
is issued, or an operation on its key issued before is carried out, or
it is evicted. -/
theorem Step.present (hs : Step addr s e s') (h : WF addr s) (hp : s.Present k v) :
    s'.Present k v ∨ e = .remove k ∨ e = .evict k v ∨
      s.pending = some (.remove k) ∨ ∃ w, s.pending = some (.insert k w) := by
  by_cases hext : ∃ w, s.pending = some (.insert k w)
  · exact Or.inr (Or.inr (Or.inr (Or.inr hext)))
  have hext' : ∀ w, s.pending ≠ some (.insert k w) := fun w hw => hext ⟨w, hw⟩
  cases hs with
  | rest hidle =>
    rcases hp.of_idle hidle with hm | hm
    · exact Or.inl (Or.inl hm)
    · exact Or.inl (Or.inr (Or.inl hm))
  | insert hidle hno =>
    rcases hp.of_idle hidle with hm | hm
    · exact Or.inl (Or.inl hm)
    · exact Or.inl (Or.inr (Or.inl hm))
  | @remove k' seats hidle hsub =>
    rcases hp.of_idle hidle with hm | ⟨j, hj⟩
    · exact Or.inl (Or.inl hm)
    · rcases hsub j with heq | ⟨-, w, hw⟩
      · exact Or.inl (Or.inr (Or.inl ⟨j, heq.trans hj⟩))
      · rw [hj] at hw
        cases hw
        exact Or.inr (Or.inl rfl)
  | @move k' v' seats hidle hseat hforget =>
    rcases hp.of_idle hidle with hm | ⟨j, hj⟩
    · exact Or.inl (Or.inl hm)
    · by_cases hk : k = k'
      · -- the entry taken off is the only one of its key
        subst hk
        obtain ⟨j', hj'⟩ := hseat
        have hjj : j = j' := h.distinct hj hj'
        subst hjj
        rw [hj] at hj'
        cases hj'
        exact Or.inl (Or.inr (Or.inr (Or.inr rfl)))
      · exact Or.inl (Or.inr (Or.inl ⟨j, (hforget _ _ _).2 ⟨hj, hk⟩⟩))
  | @erase i k' v' hpend hcell =>
    by_cases hk : k = k'
    · subst hk
      exact Or.inr (Or.inr (Or.inr (Or.inl hpend)))
    · rcases hp with hm | hm | hm | hm
      · exact Or.inl (Or.inl ((h.placed.maps_erase hcell).2 ⟨hk, hm⟩))
      · exact Or.inl (Or.inr (Or.inl hm))
      · rw [hpend] at hm
        cases hm
      · rw [hpend] at hm
        cases hm
  | @store i k' v' hst hat hcell =>
    rcases Present.of_stores h hst hext' hp with ⟨rfl, rfl⟩ | ⟨hk, hm | hm⟩
    · exact Or.inl (Or.inl ⟨i, _, Tables.write_self _⟩)
    · refine Or.inl (Or.inl (maps_store_of_ne hat hk ?_ hm))
      rcases hcell with hc | ⟨w, hc⟩ <;> rw [hc]
      · simp
      · intro heq
        cases heq
        exact hk rfl
    · exact Or.inl (Or.inr (Or.inl hm))
  | @kick i j k' v' kk kv hst hat hcell hne hfree =>
    rcases Present.of_stores h hst hext' hp with ⟨rfl, rfl⟩ | ⟨hk, hm | ⟨j', hj'⟩⟩
    · exact Or.inl (Or.inl ⟨i, _, Tables.write_self _⟩)
    · by_cases hkk : s.table i (addr i k') = some (k, v)
      · rw [hcell] at hkk
        cases hkk
        exact Or.inl (Or.inr (Or.inl ⟨j, Function.update_self ..⟩))
      · exact Or.inl (Or.inl (maps_store_of_ne hat hk hkk hm))
    · refine Or.inl (Or.inr (Or.inl ⟨j', ?_⟩))
      show Function.update s.seats j _ j' = _
      rw [Function.update_of_ne, hj']
      rintro rfl
      rw [hfree] at hj'
      cases hj'
  | @evict i k' v' kk kv hst hat hcell hne hfull =>
    rcases Present.of_stores h hst hext' hp with ⟨rfl, rfl⟩ | ⟨hk, hm | hm⟩
    · exact Or.inl (Or.inl ⟨i, _, Tables.write_self _⟩)
    · by_cases hkk : s.table i (addr i k') = some (k, v)
      · rw [hcell] at hkk
        cases hkk
        exact Or.inr (Or.inr (Or.inl rfl))
      · exact Or.inl (Or.inl (maps_store_of_ne hat hk hkk hm))
    · exact Or.inl (Or.inr (Or.inl hm))

/-! ## The system as a map -/

/-- The system maps the key to the value: the pending operation decides
for its key, the tables and the stash for the others. -/
def Means (s : StashedTable I A S K V) (k : K) (v : V) : Prop :=
  s.Stores k v ∨
    ((∀ op, s.pending = some op → op.key ≠ k) ∧ (s.table.Maps k v ∨ s.Seated k v))

/-- A key about to be removed is not in the stash any more. -/
def Forgotten (s : StashedTable I A S K V) : Prop :=
  ∀ {k}, s.pending = some (.remove k) → ∀ w, ¬ s.Seated k w

/-- What an event makes of a map. -/
def after (e : Event K V) (m : K → V → Prop) (k : K) (v : V) : Prop :=
  match e with
  | .insert k₀ v₀ => (k = k₀ ∧ v = v₀) ∨ (k ≠ k₀ ∧ m k v)
  | .remove k₀ => k ≠ k₀ ∧ m k v
  | .internal => m k v
  | .evict _ _ => m k v

omit [DecidableEq I] [DecidableEq A] [DecidableEq S] in
theorem means_of_none (hn : s.pending = none) :
    s.Means k v ↔ s.table.Maps k v ∨ s.Seated k v := by
  unfold Means Stores
  simp [hn]

omit [DecidableEq I] [DecidableEq A] [DecidableEq S] in
theorem means_of_stores {k₀ : K} {v₀ : V} (hst : s.Stores k₀ v₀) :
    s.Means k v ↔ (k = k₀ ∧ v = v₀) ∨ (k ≠ k₀ ∧ (s.table.Maps k v ∨ s.Seated k v)) := by
  unfold Means
  rcases hst with hst | hst <;>
    simp [Stores, hst, Pending.key, eq_comm]

omit [DecidableEq I] [DecidableEq A] [DecidableEq S] in
theorem means_of_remove {k₀ : K} (hp : s.pending = some (.remove k₀)) :
    s.Means k v ↔ k ≠ k₀ ∧ (s.table.Maps k v ∨ s.Seated k v) := by
  unfold Means
  simp [Stores, hp, Pending.key, eq_comm]

omit [DecidableEq I] [DecidableEq A] [DecidableEq S] in
/-- For a key no operation is pending on, the system means what it holds. -/
theorem means_of_ne (h : ∀ op, s.pending = some op → op.key ≠ k) :
    s.Means k v ↔ s.table.Maps k v ∨ s.Seated k v := by
  unfold Means
  constructor
  · rintro ((hst | hst) | ⟨-, hm⟩)
    · exact absurd rfl (h _ hst)
    · exact absurd rfl (h _ hst)
    · exact hm
  · exact fun hm => Or.inr ⟨h, hm⟩

omit [DecidableEq I] [DecidableEq A] [DecidableEq S] in
/-- An idle system means what it holds. -/
theorem means_of_idle (hidle : s.Idle) (hf : s.Forgotten) :
    s.Means k v ↔ s.table.Maps k v ∨ s.Seated k v := by
  rcases hidle with hn | ⟨k₀, hp, hno⟩
  · exact means_of_none hn
  · rw [means_of_remove hp]
    constructor
    · exact And.right
    · intro h
      refine ⟨?_, h⟩
      rintro rfl
      rcases h with h | h
      · exact hno ⟨v, h⟩
      · exact hf hp v h

/-- **The system is a map.** A step that evicts nothing does to the map
what its event says. -/
theorem Step.means (hs : Step addr s e s') (h : WF addr s) (hf : s.Forgotten)
    (hev : ∀ k v, e ≠ .evict k v) : s'.Means k v ↔ after e s.Means k v := by
  cases hs with
  | rest hidle =>
    rw [means_of_none rfl]
    exact (means_of_idle hidle hf).symm
  | insert hidle hno =>
    rw [means_of_stores (Or.inl rfl)]
    simp only [after, means_of_idle hidle hf]
    exact Iff.rfl
  | @remove k₀ seats hidle hsub =>
    rw [means_of_remove rfl]
    simp only [after, means_of_idle hidle hf]
    refine and_congr_right fun hne => or_congr_right ⟨?_, ?_⟩
    · rintro ⟨j, hj⟩
      rcases hsub j with heq | ⟨hnone, -⟩
      · exact ⟨j, heq.symm.trans hj⟩
      · exact absurd (hnone.symm.trans hj) (by simp)
    · rintro ⟨j, hj⟩
      rcases hsub j with heq | ⟨-, w, hw⟩
      · exact ⟨j, heq.trans hj⟩
      · rw [hj] at hw
        cases hw
        exact absurd rfl hne
  | @move k₀ v₀ seats hidle hseat hforget =>
    rw [means_of_stores (Or.inr rfl)]
    simp only [after, means_of_idle hidle hf]
    constructor
    · rintro (⟨rfl, rfl⟩ | ⟨-, hm | ⟨j, hj⟩⟩)
      · exact Or.inr hseat
      · exact Or.inl hm
      · exact Or.inr ⟨j, ((hforget _ _ _).1 hj).1⟩
    · intro hm
      by_cases hk : k = k₀
      · subst hk
        rcases hm with hm | ⟨j, hj⟩
        · exact absurd ⟨v, hm⟩ (h.apart hseat)
        · obtain ⟨j', hj'⟩ := hseat
          have hjj : j = j' := h.distinct hj hj'
          subst hjj
          rw [hj] at hj'
          cases hj'
          exact Or.inl ⟨rfl, rfl⟩
      · rcases hm with hm | ⟨j, hj⟩
        · exact Or.inr ⟨hk, Or.inl hm⟩
        · exact Or.inr ⟨hk, Or.inr ⟨j, (hforget _ _ _).2 ⟨hj, hk⟩⟩⟩
  | @erase i k₀ v₀ hpend hcell =>
    rw [means_of_none rfl]
    simp only [after, means_of_remove hpend, h.placed.maps_erase hcell]
    constructor
    · rintro (⟨hne, hm⟩ | hm)
      · exact ⟨hne, Or.inl hm⟩
      · refine ⟨?_, Or.inr hm⟩
        rintro rfl
        exact hf hpend v hm
    · rintro ⟨hne, hm | hm⟩
      · exact Or.inl ⟨hne, hm⟩
      · exact Or.inr hm
  | @store i k₀ v₀ hst hat hcell =>
    rw [means_of_none rfl]
    simp only [after, means_of_stores hst, Tables.maps_store hat]
    constructor
    · rintro ((hm | ⟨hne, j, b, hjb, -⟩) | hm)
      · exact Or.inl hm
      · exact Or.inr ⟨hne, Or.inl ⟨j, b, hjb⟩⟩
      · refine Or.inr ⟨?_, Or.inr hm⟩
        rintro rfl
        exact h.storing hst v hm
    · rintro (hm | ⟨hne, ⟨j, b, hjb⟩ | hm⟩)
      · exact Or.inl (Or.inl hm)
      · refine Or.inl (Or.inr ⟨hne, j, b, hjb, ?_⟩)
        rintro ⟨rfl, rfl⟩
        rcases hcell with hc | ⟨w, hc⟩ <;> rw [hc] at hjb <;> cases hjb
        exact hne rfl
      · exact Or.inr hm
  | @kick i j k₀ v₀ kk kv hst hat hcell hne hfree =>
    rw [means_of_none rfl]
    simp only [after, means_of_stores hst, Tables.maps_store hat]
    constructor
    · rintro ((hm | ⟨hk, j', b, hjb, -⟩) | ⟨j', hj'⟩)
      · exact Or.inl hm
      · exact Or.inr ⟨hk, Or.inl ⟨j', b, hjb⟩⟩
      · simp only [Function.update_apply] at hj'
        split at hj'
        · cases hj'
          exact Or.inr ⟨hne, Or.inl ⟨i, _, hcell⟩⟩
        · refine Or.inr ⟨?_, Or.inr ⟨j', hj'⟩⟩
          rintro rfl
          exact h.storing hst v ⟨j', hj'⟩
    · rintro (hm | ⟨hk, ⟨j', b, hjb⟩ | ⟨j', hj'⟩⟩)
      · exact Or.inl (Or.inl hm)
      · by_cases hout : j' = i ∧ b = addr i k₀
        · obtain ⟨rfl, rfl⟩ := hout
          rw [hcell] at hjb
          cases hjb
          exact Or.inr ⟨j, Function.update_self ..⟩
        · exact Or.inl (Or.inr ⟨hk, j', b, hjb, hout⟩)
      · refine Or.inr ⟨j', ?_⟩
        show Function.update s.seats j _ j' = _
        rw [Function.update_of_ne, hj']
        rintro rfl
        rw [hfree] at hj'
        cases hj'
  | evict hst hat hcell hne hfull => exact absurd rfl (hev _ _)

end StashedTable

end Common

end FlowBlaze

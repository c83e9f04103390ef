import FlowBlaze.Xl.TableRowFactory
import Mathlib.Data.List.Induction
import Mathlib.Data.List.Nodup
import Mathlib.Data.List.Forall2
/-!
# The rows a stage compiles to

What the walk of a state block leaves, block by block, as one expression:
the rows of its condition statements, then the rows made up for events
without any, then those made up for a state without any. Row objects,
references and hash maps are gone from it.
-/

namespace FlowBlaze

namespace Xl

open Common

variable {κ : Type}

/-! ## References -/

section Refs

variable {α β : Type} {p : α → Bool} {n : ℕ} {x : α} {xs : List α}

/-- The places, from `n` on, of the elements that satisfy `p`. -/
def refsWhere (p : α → Bool) : ℕ → List α → List ℕ
  | _, [] => []
  | n, x :: xs => if p x then n :: refsWhere p (n + 1) xs else refsWhere p (n + 1) xs

theorem refsWhere_snoc :
    refsWhere p n (xs ++ [x]) =
      if p x then refsWhere p n xs ++ [n + xs.length] else refsWhere p n xs := by
  induction xs generalizing n with
  | nil => simp [refsWhere]
  | cons y xs ih =>
    rw [List.cons_append, refsWhere, refsWhere, ih, List.length_cons,
      show n + 1 + xs.length = n + (xs.length + 1) by omega]
    cases p y <;> cases p x <;> rfl

theorem refsWhere_eq_nil : refsWhere p n xs = [] ↔ ∀ x ∈ xs, p x = false := by
  induction xs generalizing n with
  | nil => simp [refsWhere]
  | cons y xs ih =>
    rw [refsWhere]
    cases hy : p y with
    | true => simp [hy]
    | false => simpa [hy] using ih

/-- Changing the last element in place. -/
theorem modify_concat (f : α → α) (l : List α) (x : α) :
    (l ++ [x]).modify l.length f = l ++ [f x] := by
  induction l with
  | nil => rfl
  | cons y l ih => rw [List.cons_append, List.length_cons, List.modify_succ_cons, ih]; rfl

/-- Changing an element in the middle. -/
theorem modify_middle (f : α → α) (l m : List α) (x : α) :
    (l ++ x :: m).modify l.length f = l ++ f x :: m := by
  induction l with
  | nil => rfl
  | cons y l ih => rw [List.cons_append, List.length_cons, List.modify_succ_cons, ih]; rfl

/-- **Changing the referenced elements** of a part of the store. -/
theorem foldl_modify_refsWhere (key : α → β) (p : β → Bool) (f : α → α) (old rows extra : List α) :
    (refsWhere p old.length (rows.map key)).foldl (fun l i => l.modify i f)
        (old ++ rows ++ extra) =
      old ++ rows.map (fun r => if p (key r) then f r else r) ++ extra := by
  induction rows generalizing old with
  | nil => rfl
  | cons r rows ih =>
    have hstep := fun s => ih (old ++ [s])
    simp only [List.length_append, List.length_singleton, List.append_assoc,
      List.singleton_append] at hstep
    rw [List.map_cons, refsWhere]
    cases hr : p (key r) with
    | true =>
      simp only [if_true, List.foldl_cons, List.append_assoc, List.cons_append, modify_middle,
        List.map_cons, hr]
      exact hstep (f r)
    | false =>
      simp only [Bool.false_eq_true, if_false, List.append_assoc, List.cons_append,
        List.map_cons, hr]
      exact hstep r

end Refs

/-! ## A state block, so far -/

section Walked

variable (old : List (TableRow κ)) (s : State) (acts : List Action) (bs : List (EventStatement κ))

/-- The rows of condition statements, before any action is put in front. -/
def rawRows : List (TableRow κ) :=
  bs.flatMap fun b => b.conditionStatements.map fun c =>
    ⟨c.conditions, c.actions, s, b.event, s, .stage255⟩

/-- The events met, in order. -/
def eventKeys : List Event :=
  bs.foldl (fun ks b => if b.event ∈ ks then ks else ks ++ [b.event]) []

/-- The actions met under an event, outside any condition. -/
def eventActions (e : Event) : List Action :=
  (bs.filter fun b => b.event == e).flatMap EventStatement.actions

/-- **What the factory holds** inside a state block, after these actions
and event statements. -/
def walked (current : Option ℕ) : TableRowFactory κ where
  objects := old ++ rawRows s bs
  tableRows := List.range (old ++ rawRows s bs).length
  current := current
  eventRows := .ofFn (eventKeys bs) fun e =>
    ⟨refsWhere (· == e) old.length ((rawRows s bs).map TableRow.event), eventActions bs e⟩
  stateRows := .ofFn [s] fun _ =>
    ⟨refsWhere (fun _ => true) old.length ((rawRows s bs).map TableRow.event), acts⟩

variable {old s acts bs} {current : Option ℕ} {e : Event} {A : List Action}
  {cs : List (ConditionStatement κ)}

theorem rawRows_snoc (b : EventStatement κ) :
    rawRows s (bs ++ [b]) = rawRows s bs ++ b.conditionStatements.map fun c =>
      ⟨c.conditions, c.actions, s, b.event, s, .stage255⟩ := by
  unfold rawRows
  rw [List.flatMap_append, List.flatMap_singleton]

theorem eventKeys_snoc (b : EventStatement κ) :
    eventKeys (bs ++ [b]) =
      if b.event ∈ eventKeys bs then eventKeys bs else eventKeys bs ++ [b.event] := by
  unfold eventKeys
  rw [List.foldl_append]
  rfl

theorem eventActions_snoc (b : EventStatement κ) :
    eventActions (bs ++ [b]) e =
      if b.event = e then eventActions bs e ++ b.actions else eventActions bs e := by
  unfold eventActions
  rw [List.filter_append, List.flatMap_append]
  by_cases h : b.event = e <;> simp [h]

theorem mem_eventKeys : e ∈ eventKeys bs ↔ ∃ b ∈ bs, b.event = e := by
  induction bs using List.reverseRecOn with
  | nil => simp [eventKeys]
  | append_singleton bs b ih =>
    rw [eventKeys_snoc]
    by_cases h : b.event ∈ eventKeys bs
    · rw [if_pos h, ih]
      constructor
      · rintro ⟨c, hc, rfl⟩
        exact ⟨c, List.mem_append_left _ hc, rfl⟩
      · rintro ⟨c, hc, rfl⟩
        rcases List.mem_append.mp hc with hc | hc
        · exact ⟨c, hc, rfl⟩
        · rw [List.mem_singleton] at hc
          exact hc ▸ ih.mp (hc ▸ h)
    · rw [if_neg h, List.mem_append, ih, List.mem_singleton]
      constructor
      · rintro (⟨c, hc, rfl⟩ | rfl)
        · exact ⟨c, List.mem_append_left _ hc, rfl⟩
        · exact ⟨b, List.mem_append_right _ (List.mem_singleton_self b), rfl⟩
      · rintro ⟨c, hc, rfl⟩
        rcases List.mem_append.mp hc with hc | hc
        · exact Or.inl ⟨c, hc, rfl⟩
        · rw [List.mem_singleton] at hc
          exact Or.inr (by rw [hc])

theorem nodup_eventKeys : (eventKeys bs).Nodup := by
  induction bs using List.reverseRecOn with
  | nil => exact List.nodup_nil
  | append_singleton bs b ih =>
    rw [eventKeys_snoc]
    split
    · exact ih
    · next h =>
      refine List.nodup_append.mpr ⟨ih, List.nodup_singleton _, fun f hf g hg heq => ?_⟩
      rw [List.mem_singleton] at hg
      exact h (hg ▸ heq ▸ hf)

/-- Nothing is known of an event not met. -/
theorem of_not_mem_eventKeys (h : e ∉ eventKeys bs) :
    eventActions bs e = [] ∧ ∀ f ∈ (rawRows s bs).map TableRow.event, (f == e) = false := by
  have hne : ∀ b ∈ bs, b.event ≠ e := fun b hb hbe => h (mem_eventKeys.mpr ⟨b, hb, hbe⟩)
  constructor
  · unfold eventActions
    rw [List.filter_eq_nil_iff.mpr fun b hb => by simpa using hne b hb]
    rfl
  · intro f hf
    unfold rawRows at hf
    simp only [List.map_flatMap, List.map_map, List.mem_flatMap, List.mem_map] at hf
    obtain ⟨b, hb, c, -, rfl⟩ := hf
    exact beq_eq_false_iff_ne.mpr (hne b hb)

/-- The row of a condition statement under the last event statement. -/
theorem rawRows_condition (c : ConditionStatement κ) :
    rawRows s (bs ++ [⟨e, A, cs ++ [c]⟩]) =
      rawRows s (bs ++ [⟨e, A, cs⟩]) ++ [⟨c.conditions, c.actions, s, e, s, .stage255⟩] := by
  rw [rawRows_snoc, rawRows_snoc, List.map_append, List.append_assoc]
  rfl

/-- Condition statements do not change what is known of events. -/
theorem eventKeys_condition (cs' : List (ConditionStatement κ)) :
    eventKeys (bs ++ [⟨e, A, cs⟩]) = eventKeys (bs ++ [⟨e, A, cs'⟩]) := by
  rw [eventKeys_snoc, eventKeys_snoc]

theorem eventActions_condition (cs' : List (ConditionStatement κ)) (f : Event) :
    eventActions (bs ++ [⟨e, A, cs⟩]) f = eventActions (bs ++ [⟨e, A, cs'⟩]) f := by
  rw [eventActions_snoc, eventActions_snoc]

/-- The last event statement's event is known. -/
theorem mem_eventKeys_last : e ∈ eventKeys (bs ++ [⟨e, A, cs⟩]) :=
  mem_eventKeys.mpr ⟨_, List.mem_append_right _ (List.mem_singleton_self _), rfl⟩

/-! ## The steps of the factory -/

/-- The factory between two state blocks. -/
def settled (old : List (TableRow κ)) (current : Option ℕ) : TableRowFactory κ :=
  ⟨old, List.range old.length, current, [], []⟩

theorem addState_settled :
    (settled old current).addState s = walked old s [] [] current := by
  unfold TableRowFactory.addState settled walked
  simp [LinkedHashMap.containsKey, LinkedHashMap.put, rawRows, eventKeys, LinkedHashMap.ofFn,
    refsWhere]

theorem addActionToStateBlock_walked (a : Action) :
    (walked old s acts bs current).addActionToStateBlock a s =
      some (walked old s (acts ++ [a]) bs current) := by
  unfold TableRowFactory.addActionToStateBlock walked
  simp only [LinkedHashMap.containsKey_ofFn, List.mem_singleton, decide_true, if_true,
    LinkedHashMap.modify_ofFn]
  simp [LinkedHashMap.ofFn, StateEventActions.addAction]

theorem addEvent_walked :
    (walked old s acts bs current).addEvent e =
      walked old s acts (bs ++ [⟨e, [], []⟩]) current := by
  have hrows : rawRows s (bs ++ [⟨e, [], []⟩]) = rawRows s bs := by
    rw [rawRows_snoc, List.map_nil, List.append_nil]
  have hacts : ∀ f, eventActions (bs ++ [⟨e, [], []⟩]) f = eventActions bs f := by
    intro f
    rw [eventActions_snoc, List.append_nil, ite_self]
  unfold TableRowFactory.addEvent walked
  simp only [LinkedHashMap.containsKey_ofFn, hrows, hacts]
  by_cases h : e ∈ eventKeys bs
  · simp only [h, decide_true, if_true, eventKeys_snoc]
  · obtain ⟨hnil, hnone⟩ := of_not_mem_eventKeys (s := s) h
    simp only [h, decide_false, Bool.false_eq_true, if_false, eventKeys_snoc,
      LinkedHashMap.put_ofFn h]
    congr 2
    funext f
    split
    · next hf => rw [hf, hnil, refsWhere_eq_nil.mpr hnone]
    · rfl

theorem addActionToEventBlock_walked (a : Action) :
    (walked old s acts (bs ++ [⟨e, A, cs⟩]) current).addActionToEventBlock a e =
      some (walked old s acts (bs ++ [⟨e, A ++ [a], cs⟩]) current) := by
  have hmem : e ∈ eventKeys (bs ++ [⟨e, A, cs⟩]) := mem_eventKeys_last
  unfold TableRowFactory.addActionToEventBlock walked
  simp only [LinkedHashMap.containsKey_ofFn, hmem, decide_true, if_true,
    LinkedHashMap.modify_ofFn]
  simp only [rawRows_snoc, eventKeys_snoc, eventActions_snoc]
  congr 3
  funext f
  by_cases hf : e = f
  · subst hf
    simp [StateEventActions.addAction]
  · simp [hf, Ne.symm hf]

/-- Where the row of the next condition statement goes. -/
def nextRef (old : List (TableRow κ)) (s : State) (bs : List (EventStatement κ)) : ℕ :=
  old.length + (rawRows s bs).length

/-- The row made last, after these event statements. -/
def lastRef (old : List (TableRow κ)) (s : State) (bs : List (EventStatement κ))
    (current : Option ℕ) : Option ℕ :=
  match (rawRows s bs).length with
  | 0 => current
  | n + 1 => some (old.length + n)

/-- The row of a condition statement is the one made last. -/
theorem lastRef_condition (c : ConditionStatement κ) (current : Option ℕ) :
    lastRef old s (bs ++ [⟨e, A, cs ++ [c]⟩]) current =
      some (nextRef old s (bs ++ [⟨e, A, cs⟩])) := by
  unfold lastRef
  rw [rawRows_condition, List.length_append, List.length_singleton]
  rfl

/-- An event statement without conditions makes no row. -/
theorem lastRef_event (current : Option ℕ) :
    lastRef old s (bs ++ [⟨e, A, []⟩]) current = lastRef old s bs current := by
  unfold lastRef
  rw [rawRows_snoc, List.map_nil, List.append_nil]

/-- **A new row** for a condition statement. -/
theorem createNewTableRow_walked :
    (walked old s acts (bs ++ [⟨e, A, cs⟩]) current).createNewTableRow e s =
      walked old s acts (bs ++ [⟨e, A, cs ++ [⟨[], []⟩]⟩])
        (some (nextRef old s (bs ++ [⟨e, A, cs⟩]))) := by
  have hmem : e ∈ eventKeys (bs ++ [⟨e, A, cs⟩]) := mem_eventKeys_last
  have hrows : rawRows s (bs ++ [⟨e, A, cs ++ [(⟨[], []⟩ : ConditionStatement κ)]⟩]) =
      rawRows s (bs ++ [⟨e, A, cs⟩]) ++ [.new s e .stage255] := rawRows_condition _
  have hkeys : eventKeys (bs ++ [⟨e, A, cs ++ [(⟨[], []⟩ : ConditionStatement κ)]⟩]) =
      eventKeys (bs ++ [⟨e, A, cs⟩]) :=
    eventKeys_condition cs
  have hacts : ∀ f, eventActions (bs ++ [⟨e, A, cs ++ [(⟨[], []⟩ : ConditionStatement κ)]⟩]) f =
      eventActions (bs ++ [⟨e, A, cs⟩]) f := eventActions_condition cs
  unfold TableRowFactory.createNewTableRow TableRowFactory.addTableRow TableRowFactory.addEvent
    TableRowFactory.addState walked
  simp only [LinkedHashMap.containsKey_ofFn, hmem, decide_true, if_true, List.mem_singleton,
    LinkedHashMap.modify_ofFn]
  simp only [hrows, hkeys, hacts, List.map_append, List.map_singleton, refsWhere_snoc,
    List.length_append, List.length_map, List.length_singleton]
  rw [TableRowFactory.mk.injEq]
  refine ⟨by rw [List.append_assoc], ?_, rfl, ?_, ?_⟩
  · rw [← Nat.add_assoc, List.range_succ]
  · refine congrArg _ (funext fun f => ?_)
    by_cases hf : e = f
    · subst hf
      simp [StateEventActions.addRow, TableRow.new]
    · simp [hf, Ne.symm hf, TableRow.new]
  · simp [LinkedHashMap.ofFn, StateEventActions.addRow]

/-- Changing the row of the last condition statement. -/
theorem modify_walked (f : TableRow κ → TableRow κ) (c c' : ConditionStatement κ)
    (hf : f ⟨c.conditions, c.actions, s, e, s, .stage255⟩ =
      ⟨c'.conditions, c'.actions, s, e, s, .stage255⟩) :
    { walked old s acts (bs ++ [⟨e, A, cs ++ [c]⟩]) current with
      objects := (old ++ rawRows s (bs ++ [(⟨e, A, cs ++ [c]⟩ : EventStatement κ)])).modify
        (nextRef old s (bs ++ [⟨e, A, cs⟩])) f } =
      walked old s acts (bs ++ [⟨e, A, cs ++ [c']⟩]) current := by
  have hkeys : eventKeys (bs ++ [⟨e, A, cs ++ [c]⟩]) = eventKeys (bs ++ [⟨e, A, cs ++ [c']⟩]) :=
    eventKeys_condition _
  have hacts : ∀ f, eventActions (bs ++ [⟨e, A, cs ++ [c]⟩]) f =
      eventActions (bs ++ [⟨e, A, cs ++ [c']⟩]) f := eventActions_condition _
  unfold walked
  simp only [rawRows_condition, hkeys, hacts, List.map_append, List.map_singleton,
    List.length_append, List.length_singleton]
  rw [TableRowFactory.mk.injEq]
  refine ⟨?_, rfl, rfl, rfl, rfl⟩
  unfold nextRef
  rw [← List.append_assoc, ← List.length_append, modify_concat, hf, List.append_assoc]

theorem addConditionResult_walked (C : List κ) (B : List Action) (k : κ) :
    (walked old s acts (bs ++ [⟨e, A, cs ++ [⟨C, B⟩]⟩])
        (some (nextRef old s (bs ++ [⟨e, A, cs⟩])))).addConditionResult k =
      some (walked old s acts (bs ++ [⟨e, A, cs ++ [⟨C ++ [k], B⟩]⟩])
        (some (nextRef old s (bs ++ [⟨e, A, cs⟩])))) :=
  congrArg some (modify_walked
    (fun row => { row with conditionResults := row.conditionResults ++ [k] }) ⟨C, B⟩
    ⟨C ++ [k], B⟩ rfl)

theorem addActionToCurrentTableRow_walked (C : List κ) (B : List Action) (a : Action) :
    (walked old s acts (bs ++ [⟨e, A, cs ++ [⟨C, B⟩]⟩])
        (some (nextRef old s (bs ++ [⟨e, A, cs⟩])))).addActionToCurrentTableRow a =
      some (walked old s acts (bs ++ [⟨e, A, cs ++ [⟨C, B ++ [a]⟩]⟩])
        (some (nextRef old s (bs ++ [⟨e, A, cs⟩])))) :=
  congrArg some (modify_walked
    (fun row => { row with actions := row.actions ++ [a] }) ⟨C, B⟩ ⟨C, B ++ [a]⟩ rfl)

end Walked

/-! ## The walk of a state block -/

/-- A relation each step extends holds after the loop. -/
theorem foldlM_of_step {σ α : Type} (step : σ → α → Option σ) (R : List α → σ → Prop)
    (hstep : ∀ done x a, R done x → ∃ y, step x a = some y ∧ R (done ++ [a]) y) (l : List α)
    {x : σ} (hx : R [] x) : ∃ y, l.foldlM step x = some y ∧ R l y := by
  induction l using List.reverseRecOn with
  | nil => exact ⟨x, rfl, hx⟩
  | append_singleton l a ih =>
    obtain ⟨y, hy, hR⟩ := ih
    obtain ⟨z, hz, hR'⟩ := hstep l y a hR
    refine ⟨z, ?_, hR'⟩
    rw [List.foldlM_append, hy]
    simp [List.foldlM_cons, hz]

/-- A list that maps to a list maps member by member. -/
theorem mapM_eq_some_iff {α β : Type} {f : α → Option β} {xs : List α} {ys : List β} :
    xs.mapM f = some ys ↔ List.Forall₂ (fun x y => f x = some y) xs ys := by
  constructor
  · intro h
    induction xs generalizing ys with
    | nil =>
      cases h
      exact .nil
    | cons x xs ih =>
      rw [List.mapM_cons, Option.bind_eq_bind, Option.bind_eq_some_iff] at h
      obtain ⟨y, hy, h⟩ := h
      rw [Option.bind_eq_bind, Option.bind_eq_some_iff] at h
      obtain ⟨ys, hys, h⟩ := h
      cases h
      exact .cons hy (ih hys)
  · intro h
    induction h with
    | nil => rfl
    | cons hy _ ih =>
      rw [List.mapM_cons, hy, ih]
      rfl

section Walk

variable {stageName : String} {orders : Orders} {stage : Option Stage} {old : List (TableRow κ)}
  {s : State} {acts : List Action} {bs : List (EventStatement κ)}

/-- The last event entered, if any in this block. -/
def lastEvent (before : Option Event) (bs : List (EventStatement κ)) : Option Event :=
  (bs.getLast?.map EventStatement.event).or before

theorem lastEvent_snoc (before : Option Event) (b : EventStatement κ) :
    lastEvent before (bs ++ [b]) = some b.event := by
  unfold lastEvent
  rw [List.getLast?_concat]
  rfl

/-- Inside the last condition statement. -/
def inCondition (stage : Option Stage) (old : List (TableRow κ)) (s : State) (acts : List Action)
    (bs : List (EventStatement κ)) (e : Event) (A : List Action) (cs : List (ConditionStatement κ))
    (c : ConditionStatement κ) : CompilerStateMachine κ :=
  ⟨.inConditionBlock, some e, some s, stage, walked old s acts (bs ++ [⟨e, A, cs ++ [c]⟩])
    (some (nextRef old s (bs ++ [⟨e, A, cs⟩])))⟩

variable {e : Event} {A : List Action} {cs : List (ConditionStatement κ)}

theorem exitCondition_walked (C : List κ) (B : List Action) (k : κ) :
    exitCondition (inCondition stage old s acts bs e A cs ⟨C, B⟩) k =
      some (inCondition stage old s acts bs e A cs ⟨C ++ [k], B⟩) := by
  unfold exitCondition inCondition
  simp only [addConditionResult_walked, Option.map_some]

theorem addAction_inCondition (C : List κ) (B : List Action) (a : Action) :
    (inCondition stage old s acts bs e A cs ⟨C, B⟩).addAction a =
      some (inCondition stage old s acts bs e A cs ⟨C, B ++ [a]⟩) := by
  unfold CompilerStateMachine.addAction inCondition
  simp only [addActionToCurrentTableRow_walked, Option.map_some]

/-- **A condition statement** adds its row. -/
theorem walkCondition_walked (current : Option ℕ) (c : ConditionStatement κ) :
    walkCondition stageName orders
        ⟨.inEventBlock, some e, some s, stage, walked old s acts (bs ++ [⟨e, A, cs⟩]) current⟩ c =
      some ⟨.inEventBlock, some e, some s, stage, walked old s acts (bs ++ [⟨e, A, cs ++ [c]⟩])
        (some (nextRef old s (bs ++ [⟨e, A, cs⟩])))⟩ := by
  have hinside : CompilerStateMachine.goInsideBlock
      ⟨.inEventBlock, some e, some s, stage, walked old s acts (bs ++ [⟨e, A, cs⟩]) current⟩
        stageName = some (inCondition stage old s acts bs e A cs ⟨[], []⟩) := by
    unfold CompilerStateMachine.goInsideBlock inCondition
    simp only [Option.bind_some, Option.map_some, createNewTableRow_walked]
  obtain ⟨_, hconditions, rfl⟩ := foldlM_of_step exitCondition
    (fun C M => M = inCondition stage old s acts bs e A cs ⟨C, []⟩)
    (fun C _ k hM => ⟨_, hM ▸ exitCondition_walked C [] k, rfl⟩) c.conditions rfl
  obtain ⟨_, hactions, rfl⟩ := foldlM_of_step CompilerStateMachine.addAction
    (fun B M => M = inCondition stage old s acts bs e A cs ⟨c.conditions, B⟩)
    (fun B _ a hM => ⟨_, hM ▸ addAction_inCondition c.conditions B a, rfl⟩) c.actions rfl
  unfold walkCondition
  simp only [hinside, Option.bind_eq_bind, Option.bind_some, hconditions, hactions]
  rfl

theorem addAction_inEvent (current : Option ℕ) (a : Action) :
    CompilerStateMachine.addAction
        ⟨.inEventBlock, some e, some s, stage, walked old s acts (bs ++ [⟨e, A, []⟩]) current⟩ a =
      some ⟨.inEventBlock, some e, some s, stage,
        walked old s acts (bs ++ [⟨e, A ++ [a], []⟩]) current⟩ := by
  unfold CompilerStateMachine.addAction
  simp only [Option.bind_some, addActionToEventBlock_walked, Option.map_some]

/-- An event statement with a row of its own. -/
def EventStatement.makesRow (b : EventStatement κ) : Bool := !b.conditionStatements.isEmpty

/-- **An event statement** adds its rows and its actions. -/
theorem walkEvent_walked (before : Option Event) (current : Option ℕ) (b : EventStatement κ) :
    walkEvent stageName orders ⟨.inStateBlock, before, some s, stage,
        walked old s acts bs (lastRef old s bs current)⟩ b =
      some ⟨.inStateBlock, some b.event, some s, stage,
        walked old s acts (bs ++ [b]) (lastRef old s (bs ++ [b]) current)⟩ := by
  have hinside : CompilerStateMachine.goInsideBlock
      ⟨.inStateBlock, some b.event, some s, stage,
        walked old s acts bs (lastRef old s bs current)⟩ stageName =
      some ⟨.inEventBlock, some b.event, some s, stage,
        walked old s acts (bs ++ [⟨b.event, [], []⟩]) (lastRef old s bs current)⟩ := by
    unfold CompilerStateMachine.goInsideBlock
    simp only [Option.map_some, addEvent_walked]
  obtain ⟨_, hactions, rfl⟩ := foldlM_of_step CompilerStateMachine.addAction
    (fun A M => M = ⟨.inEventBlock, some b.event, some s, stage,
      walked old s acts (bs ++ [⟨b.event, A, []⟩]) (lastRef old s bs current)⟩)
    (fun A _ a hM => ⟨_, hM ▸ addAction_inEvent _ a, rfl⟩) b.actions rfl
  obtain ⟨_, hconditions, rfl⟩ := foldlM_of_step (walkCondition stageName orders)
    (fun cs M => M = ⟨.inEventBlock, some b.event, some s, stage,
      walked old s acts (bs ++ [⟨b.event, b.actions, cs⟩])
        (lastRef old s (bs ++ [⟨b.event, b.actions, cs⟩]) current)⟩)
    (fun cs _ c hM => ⟨_, hM ▸ walkCondition_walked _ c, by rw [lastRef_condition]⟩)
    b.conditionStatements rfl
  rw [lastRef_event] at hconditions
  unfold walkEvent
  simp only [hinside, Option.bind_eq_bind, Option.bind_some, hactions, hconditions]
  rfl

theorem addAction_inState (before : Option Event) (current : Option ℕ) (a : Action) :
    CompilerStateMachine.addAction
        ⟨.inStateBlock, before, some s, stage, walked old s acts bs current⟩ a =
      some ⟨.inStateBlock, before, some s, stage,
        walked old s (acts ++ [a]) bs current⟩ := by
  unfold CompilerStateMachine.addAction
  simp only [Option.bind_some, addActionToStateBlock_walked, Option.map_some]

/-- A state statement, up to its close. -/
def walkBlock (stageName : String) (orders : Orders) (M : CompilerStateMachine κ)
    (S : StateStatement κ) : Option (CompilerStateMachine κ) := do
  let M ← { M with currentState := some S.state }.goInsideBlock stageName
  let M ← S.actions.foldlM CompilerStateMachine.addAction M
  S.eventStatements.foldlM (walkEvent stageName orders) M

theorem walkState_eq (M : CompilerStateMachine κ) (S : StateStatement κ) :
    walkState stageName orders M S =
      (walkBlock stageName orders M S).bind (·.goOutsideBlock orders) := by
  unfold walkState walkBlock
  simp only [Option.bind_eq_bind, Option.bind_assoc]

/-- **A state block**, up to its close. -/
theorem walkBlock_walked (before : Option Event) (current : Option ℕ) (last : Option State)
    (S : StateStatement κ) :
    walkBlock stageName orders ⟨.inStageBlock, before, last, stage, settled old current⟩ S =
      some ⟨.inStateBlock, lastEvent before S.eventStatements, some S.state, stage,
        walked old S.state S.actions S.eventStatements
          (lastRef old S.state S.eventStatements current)⟩ := by
  have hinside : CompilerStateMachine.goInsideBlock
      ⟨.inStageBlock, before, some S.state, stage, settled old current⟩ stageName =
      some ⟨.inStateBlock, before, some S.state, stage,
        walked old S.state [] [] current⟩ := by
    unfold CompilerStateMachine.goInsideBlock
    simp only [Option.map_some, addState_settled]
  obtain ⟨_, hactions, rfl⟩ := foldlM_of_step CompilerStateMachine.addAction
    (fun acts M => M = ⟨.inStateBlock, before, some S.state, stage,
      walked old S.state acts [] current⟩)
    (fun acts _ a hM => ⟨_, hM ▸ addAction_inState before current a, rfl⟩) S.actions rfl
  obtain ⟨_, hevents, rfl⟩ := foldlM_of_step (walkEvent stageName orders)
    (fun bs M => M = ⟨.inStateBlock, lastEvent before bs, some S.state, stage,
      walked old S.state S.actions bs (lastRef old S.state bs current)⟩)
    (fun bs _ b hM => ⟨_, hM ▸ walkEvent_walked _ current b, by rw [lastEvent_snoc]⟩)
    S.eventStatements rfl
  have hnil : lastEvent before ([] : List (EventStatement κ)) = before := rfl
  have hnone : lastRef old S.state [] current = current := rfl
  simp only [hnil, hnone] at hevents
  unfold walkBlock
  simp only [hinside, Option.bind_eq_bind, Option.bind_some, hactions, hevents]

theorem walkState_walked (before : Option Event) (current : Option ℕ) (last : Option State)
    (S : StateStatement κ) :
    ∃ current', walkState stageName orders
        ⟨.inStageBlock, before, last, stage, settled old current⟩ S =
      CompilerStateMachine.goOutsideBlock
        ⟨.inStateBlock, lastEvent before S.eventStatements, some S.state, stage,
          walked old S.state S.actions S.eventStatements current'⟩ orders :=
  ⟨lastRef old S.state S.eventStatements current, by
    rw [walkState_eq, walkBlock_walked, Option.bind_some]⟩

end Walk

/-! ## Closing a state block -/

section Close

variable (old rows extra : List (TableRow κ)) (F : TableRowFactory κ) (s : State)
  (before : Option Event)

/-- The actions put in front of a row's own. -/
def TableRow.prefixed (A : List Action) (r : TableRow κ) : TableRow κ :=
  { r with actions := A ++ r.actions }

/-- A row made up for an event. -/
def TableRow.default (s : State) (A : List Action) (e : Event) : TableRow κ :=
  ⟨[], A, s, e, s, .stage255⟩

/-- The factory with this store, which holds the rows of the stage in
order. -/
def stored : TableRowFactory κ :=
  { F with
    objects := old ++ rows ++ extra
    tableRows := List.range (old ++ rows ++ extra).length }

variable {old rows extra F s before} {A : List Action} {e last : Event}

/-- A new row goes to the end of the store. -/
theorem addTableRow_stored (r : TableRow κ) :
    (stored old rows extra F).addTableRow r = stored old rows (extra ++ [r]) F := by
  unfold TableRowFactory.addTableRow stored
  rw [← List.append_assoc]
  simp only [List.length_append, List.length_singleton, List.range_succ]

/-- Actions go in front of the rows that satisfy `p`. -/
theorem finalizeRows_stored (p : Event → Bool) :
    (stored old rows extra F).finalizeRows
        ⟨refsWhere p old.length (rows.map TableRow.event), A⟩ =
      stored old (rows.map fun r => if p r.event then r.prefixed A else r) extra F := by
  have hstore := foldl_modify_refsWhere TableRow.event p (TableRow.prefixed A) old rows extra
  unfold TableRowFactory.finalizeRows stored
  rw [TableRowFactory.mk.injEq]
  refine ⟨hstore, ?_, rfl, rfl, rfl⟩
  simp only [List.length_append, List.length_map]

/-- Actions go in front of the row at the end. -/
theorem finalizeRows_last (r : TableRow κ) :
    (stored old rows (extra ++ [r]) F).finalizeRows
        ⟨[(old ++ rows ++ extra).length], A⟩ =
      stored old rows (extra ++ [r.prefixed A]) F := by
  unfold TableRowFactory.finalizeRows stored
  rw [TableRowFactory.mk.injEq]
  refine ⟨?_, by simp only [List.length_append, List.length_singleton], rfl, rfl, rfl⟩
  rw [List.foldl_cons, List.foldl_nil, ← List.append_assoc, ← List.append_assoc, modify_concat]
  rfl

/-- A row made up for an event, with its actions. -/
theorem madeUp_stored (s : State) (e : Event) :
    ((stored old rows extra F).addTableRow (.new s e .stage255)).finalizeRows
        ⟨[(old ++ rows ++ extra).length], A⟩ =
      stored old rows (extra ++ [.default s A e]) F := by
  rw [addTableRow_stored, finalizeRows_last]
  unfold TableRow.prefixed TableRow.new TableRow.default
  rw [List.append_nil]

/-- Whether no row has an event. -/
def noRow (rows : List (TableRow κ)) (e : Event) : Bool := rows.all fun r => r.event != e

theorem noRow_iff : noRow rows e = true ↔ ∀ f ∈ rows.map TableRow.event, (f == e) = false := by
  unfold noRow
  rw [List.all_eq_true]
  simp [bne]

/-- **One event**: its actions go in front of its rows, or a row is made
up for it, of the last event entered. -/
theorem finalizeEventRow_stored (e : Event) :
    TableRowFactory.finalizeEventRow (some s) (some last) (stored old rows extra F)
        ⟨refsWhere (· == e) old.length (rows.map TableRow.event), A⟩ =
      some (stored old (rows.map fun r => if r.event == e then r.prefixed A else r)
        (extra ++ if noRow rows e then [.default s A last] else []) F) := by
  unfold TableRowFactory.finalizeEventRow
  cases hno : noRow rows e with
  | true =>
    have hnone := noRow_iff.mp hno
    have hsame : (rows.map fun r => if r.event == e then r.prefixed A else r) = rows := by
      refine (List.map_congr_left fun r hr => ?_).trans (List.map_id rows)
      rw [hnone r.event (List.mem_map_of_mem hr)]
      rfl
    rw [refsWhere_eq_nil.mpr hnone, hsame]
    exact congrArg some (madeUp_stored s last)
  | false =>
    have hsome : refsWhere (· == e) old.length (rows.map TableRow.event) ≠ [] := fun hnil => by
      rw [noRow_iff.mpr (refsWhere_eq_nil.mp hnil)] at hno
      cases hno
    rw [List.isEmpty_eq_false_iff.mpr hsome, if_neg Bool.false_ne_true, finalizeRows_stored]
    simp only [Bool.false_eq_true, if_false, List.append_nil]

/-- **All events**, in the order the map is walked. -/
theorem finalizeEventRows_stored (acts : Event → List Action) {ks : List Event} (hks : ks.Nodup) :
    (ks.map fun e => (⟨refsWhere (· == e) old.length (rows.map TableRow.event), acts e⟩ :
        StateEventActions)).foldlM
        (TableRowFactory.finalizeEventRow (some s) (some last)) (stored old rows extra F) =
      some (stored old
        (rows.map fun r => if r.event ∈ ks then r.prefixed (acts r.event) else r)
        (extra ++ (ks.filter (noRow rows)).map fun e => .default s (acts e) last) F) := by
  induction ks generalizing rows extra with
  | nil => simp
  | cons e ks ih =>
    obtain ⟨he, hks⟩ := List.nodup_cons.mp hks
    have hevents : (rows.map fun r => if r.event == e then r.prefixed (acts e) else r).map
        TableRow.event = rows.map TableRow.event := by
      rw [List.map_map]
      refine List.map_congr_left fun r _ => ?_
      simp only [Function.comp_apply]
      split <;> rfl
    have hno : noRow (rows.map fun r => if r.event == e then r.prefixed (acts e) else r) =
        noRow rows := by
      funext f
      rw [Bool.eq_iff_iff, noRow_iff, noRow_iff, hevents]
    -- the event in front leaves the events of the rows, on which the others depend
    have hrest := @ih (rows.map fun r => if r.event == e then r.prefixed (acts e) else r)
      (extra ++ if noRow rows e then [.default s (acts e) last] else []) hks
    rw [hevents, hno] at hrest
    rw [List.map_cons, List.foldlM_cons, finalizeEventRow_stored]
    refine hrest.trans (congrArg some ?_)
    have hrows : (rows.map fun r => if r.event == e then r.prefixed (acts e) else r).map
        (fun r => if r.event ∈ ks then r.prefixed (acts r.event) else r) =
        rows.map fun r => if r.event ∈ e :: ks then r.prefixed (acts r.event) else r := by
      rw [List.map_map]
      refine List.map_congr_left fun r _ => ?_
      simp only [Function.comp_apply, List.mem_cons]
      by_cases hre : r.event = e
      · have hnot : ¬ (r.prefixed (acts e)).event ∈ ks := by
          rw [show (r.prefixed (acts e)).event = r.event from rfl, hre]
          exact he
        simp only [hre, beq_self_eq_true, if_true, true_or, hnot, if_false]
      · simp only [beq_eq_false_iff_ne.mpr hre, Bool.false_eq_true, if_false, hre, false_or]
    have hextra : extra ++ (if noRow rows e then [TableRow.default s (acts e) last] else []) ++
        (ks.filter (noRow rows)).map (fun e => .default s (acts e) last) =
        extra ++ ((e :: ks).filter (noRow rows)).map fun e => .default s (acts e) last := by
      rw [List.append_assoc, List.filter_cons]
      cases noRow rows e <;> rfl
    rw [hrows, hextra]

/-- **The state**: its actions go in front of all its rows, or a row is
made up for every event. -/
theorem finalizeStateRow_stored (acts : List Action) :
    TableRowFactory.finalizeStateRow (some s) (stored old rows extra F)
        ⟨refsWhere (fun _ => true) old.length (rows.map TableRow.event), acts⟩ =
      some (if rows = [] then
          stored old [] (extra ++ Event.getEvents.map (.default s acts)) F
        else stored old (rows.map (.prefixed acts)) extra F) := by
  unfold TableRowFactory.finalizeStateRow
  by_cases hrows : rows = []
  · subst hrows
    -- the two rows made up for the events are the last of the store
    have hsplit : ∀ l, stored old [] (extra ++ l) F = stored (old ++ extra) l [] F := by
      intro l
      unfold stored
      simp only [List.append_nil, List.append_assoc]
    have hlast : ∀ r r' : TableRow κ, (stored old [] (extra ++ [r] ++ [r']) F).finalizeRows
        ⟨[(old ++ [] ++ extra).length, (old ++ [] ++ (extra ++ [r])).length], acts⟩ =
        stored old [] (extra ++ ([r.prefixed acts] ++ [r'.prefixed acts])) F := by
      intro r r'
      have hrefs : [(old ++ [] ++ extra).length, (old ++ [] ++ (extra ++ [r])).length] =
          refsWhere (fun _ => true) (old ++ extra).length ([r, r'].map TableRow.event) := by
        simp [refsWhere, Nat.add_assoc]
      rw [List.append_assoc, hsplit, hsplit, hrefs]
      exact finalizeRows_stored fun _ => true
    rw [if_pos rfl]
    refine congrArg some ?_
    rw [show Event.getEvents = [.xtraPktRcvd, .xtraTimeout] from rfl]
    simp only [List.foldl_cons, List.foldl_nil, addTableRow_stored]
    refine (hlast _ _).trans ?_
    unfold TableRow.prefixed TableRow.new TableRow.default
    simp only [List.append_nil, List.map_cons, List.map_nil, List.singleton_append]
  · have hrefs : refsWhere (fun _ => true) old.length (rows.map TableRow.event) ≠ [] := by
      rw [Ne, refsWhere_eq_nil]
      intro hall
      obtain ⟨r, hr⟩ := List.exists_mem_of_ne_nil rows hrows
      exact absurd (hall _ (List.mem_map_of_mem hr)) (by decide)
    rw [List.isEmpty_eq_false_iff.mpr hrefs, if_neg Bool.false_ne_true, if_neg hrows,
      finalizeRows_stored]
    rfl

/-! ## Transitions -/

/-- The state a transition goes to. -/
def Action.target : Action → Option State
  | .stateTransition op0 => some op0
  | _ => none

/-- Whether an action leaves the row. -/
def Action.isTransition : Action → Bool
  | .stateTransition _ => true
  | .stageTransition _ => true
  | _ => false

/-- Actions without a transition to a stage. -/
def NoStage (acts : List Action) : Prop := ∀ stage, Action.stageTransition stage ∉ acts

/-- The actions that stay in the row. -/
def keptActions (acts : List Action) : List Action := acts.filter fun a => !a.isTransition

/-- The target of the last transition, or the row's own state. -/
def targetState (s : State) (acts : List Action) : State :=
  ((acts.filterMap Action.target).getLast?).getD s

/-- What `processSetNext` makes of a row. -/
def TableRow.settle (r : TableRow κ) : Option (TableRow κ) := r.processActions [] r.actions

theorem processActions_eq {acts kept : List Action} {r r' : TableRow κ} (hstage : NoStage acts)
    (h : r.processActions kept acts = some r') :
    r' = { r with
      actions := kept ++ keptActions acts
      nextState := targetState r.nextState acts } := by
  induction acts generalizing r kept with
  | nil =>
    cases h
    simp [keptActions, targetState]
  | cons a acts ih =>
    have hrest : NoStage acts := fun stage hmem => hstage stage (List.mem_cons_of_mem _ hmem)
    cases a with
    | stateTransition t =>
      obtain ⟨r₁, hr₁, h⟩ := Option.bind_eq_some_iff.mp h
      unfold TableRow.setNextState at hr₁
      split at hr₁
      · cases hr₁
      · cases hr₁
        rw [ih hrest h]
        simp [keptActions, targetState, Action.isTransition, Action.target, List.getLast?_cons]
    | stageTransition stage => exact absurd List.mem_cons_self (hstage stage)
    | sequentializable action =>
      rw [ih hrest h]
      simp [keptActions, targetState, Action.isTransition, Action.target]
    | sequentialActions actions =>
      rw [ih hrest h]
      simp [keptActions, targetState, Action.isTransition, Action.target]

/-- A row without transitions stays as it is. -/
theorem processActions_of_no_transition {acts kept : List Action} {r : TableRow κ}
    (h : ∀ a ∈ acts, a.isTransition = false) :
    r.processActions kept acts = some { r with actions := kept ++ acts } := by
  induction acts generalizing kept with
  | nil => rw [List.append_nil]; rfl
  | cons a acts ih =>
    have hrest := @ih (kept ++ [a]) fun b hb => h b (List.mem_cons_of_mem _ hb)
    rw [List.append_assoc, List.singleton_append] at hrest
    have ha := h a List.mem_cons_self
    cases a with
    | stateTransition t => cases ha
    | stageTransition stage => cases ha
    | sequentializable action => exact hrest
    | sequentialActions actions => exact hrest

/-- A row that went through `processSetNext` and goes to no other stage. -/
structure Settled (r : TableRow κ) : Prop where
  settle : r.settle = some r
  stage : r.nextStage = .stage255

/-- A row before its transitions are taken out. -/
structure Unsettled (r : TableRow κ) : Prop where
  stage : r.nextStage = .stage255
  next : r.nextState = r.state
  noStage : NoStage r.actions

/-- **A row, settled.** -/
theorem Unsettled.settle_eq {r r' : TableRow κ} (hr : Unsettled r) (h : r.settle = some r') :
    r' = { r with
      actions := keptActions r.actions
      nextState := targetState r.state r.actions } := by
  rw [processActions_eq hr.noStage h, hr.next, List.nil_append]

theorem Unsettled.settled {r r' : TableRow κ} (hr : Unsettled r) (h : r.settle = some r') :
    Settled r' := by
  rw [hr.settle_eq h]
  refine ⟨processActions_of_no_transition fun a ha => ?_, hr.stage⟩
  have hkeep := (List.mem_filter.mp ha).2
  simpa using hkeep

/-- The loop of `processSetNext`, from a row on. -/
theorem foldlM_settle (refs : List ℕ) (done todo : List (TableRow κ)) :
    (List.range' done.length todo.length).foldlM (fun (F : TableRowFactory κ) ref =>
        (F.objects[ref]?).bind fun row =>
          (row.processActions [] row.actions).map fun row =>
            { F with objects := F.objects.set ref row })
        { F with objects := done ++ todo, tableRows := refs } =
      (todo.mapM TableRow.settle).map fun ys =>
        { F with objects := done ++ ys, tableRows := refs } := by
  induction todo generalizing done with
  | nil => rfl
  | cons r todo ih =>
    have hget : (done ++ r :: todo)[done.length]? = some r := by simp
    rw [List.length_cons, List.range'_succ, List.foldlM_cons]
    simp only [hget, Option.bind_some]
    rw [List.mapM_cons]
    cases hr : r.processActions [] r.actions with
    | none =>
      have hsettle : r.settle = none := hr
      rw [hsettle]
      rfl
    | some r' =>
      have hsettle : r.settle = some r' := hr
      have hset : (done ++ r :: todo).set done.length r' = done ++ [r'] ++ todo := by simp
      have hrest := ih (done ++ [r'])
      rw [List.length_append, List.length_singleton] at hrest
      rw [hsettle]
      simp only [Option.map_some, Option.bind_eq_bind, Option.bind_some, hset]
      rw [hrest]
      cases todo.mapM TableRow.settle with
      | none => rfl
      | some ys => simp

/-- `processSetNext` settles the rows one by one. -/
theorem processSetNext_eq (xs : List (TableRow κ)) :
    TableRowFactory.processSetNext
        { F with objects := xs, tableRows := List.range xs.length } =
      (xs.mapM TableRow.settle).map fun ys =>
        { F with objects := ys, tableRows := List.range xs.length } := by
  have hloop := foldlM_settle (F := F) (List.range xs.length) [] xs
  rw [List.length_nil, ← List.range_eq_range'] at hloop
  exact hloop

/-- Rows that are settled already stay. -/
theorem mapM_settle_settled {xs : List (TableRow κ)} (h : ∀ r ∈ xs, Settled r) :
    xs.mapM TableRow.settle = some xs := by
  induction xs with
  | nil => rfl
  | cons r xs ih =>
    rw [List.mapM_cons, (h r List.mem_cons_self).settle,
      ih fun r' hr' => h r' (List.mem_cons_of_mem _ hr')]
    rfl

/-- No row is deleted. -/
theorem deleteEmptyTableRows_eq {xs : List (TableRow κ)} (name : String)
    (h : ∀ r ∈ xs, r.nextStage = .stage255) :
    TableRowFactory.deleteEmptyTableRows
        { F with objects := xs, tableRows := List.range xs.length } (some (.declared name)) =
      { F with objects := xs, tableRows := List.range xs.length } := by
  unfold TableRowFactory.deleteEmptyTableRows
  simp only
  rw [List.filter_eq_self.mpr]
  intro ref _
  cases hr : xs[ref]? with
  | none => rfl
  | some r =>
    rw [Option.all_some]
    unfold TableRow.isEmpty
    rw [h r (List.mem_of_getElem? hr)]
    simp

end Close

/-! ## The rows of a block -/

section Block

variable (order : HashOrder Event) (S : StateStatement κ)

/-- The rows made up for events without rows, all of the last event. -/
def eventDefaults : List (TableRow κ) :=
  match lastEvent none S.eventStatements with
  | none => []
  | some last =>
    ((order.run (eventKeys S.eventStatements)).filter
      (noRow (rawRows S.state S.eventStatements))).map fun e =>
        .default S.state (eventActions S.eventStatements e) last

/-- The rows made up for a state without rows. -/
def stateDefaults : List (TableRow κ) :=
  if rawRows S.state S.eventStatements = [] then
    Event.getEvents.map (.default S.state S.actions)
  else []

/-- **The rows of a state block**, before their transitions are taken out. -/
def blockRows : List (TableRow κ) :=
  (rawRows S.state S.eventStatements).map (fun r =>
      (r.prefixed (eventActions S.eventStatements r.event)).prefixed S.actions) ++
    (eventDefaults order S ++ stateDefaults S)

/-- The values of a map given by a function. -/
theorem values_ofFn {K : Type} [DecidableEq K] (order : HashOrder K) (ks : List K)
    (f : K → StateEventActions) :
    TableRowFactory.values order (.ofFn ks f) = (order.run ks).map f := by
  unfold TableRowFactory.values
  rw [LinkedHashMap.keySet_ofFn]
  have hmem : ∀ k ∈ order.run ks, k ∈ ks := fun k hk => (order.perm ks).mem_iff.mp hk
  generalize order.run ks = ks' at hmem ⊢
  induction ks' with
  | nil => rfl
  | cons k ks' ih =>
    rw [List.filterMap_cons, LinkedHashMap.get_ofFn (hmem k List.mem_cons_self),
      ih fun l hl => hmem l (List.mem_cons_of_mem _ hl)]
    rfl

variable {order S} {old : List (TableRow κ)} {current : Option ℕ} {before : Option Event}
  {last : Option State}

/-- The events of a block come from its event statements. -/
theorem event_mem_eventKeys {bs : List (EventStatement κ)} {s : State} {r : TableRow κ}
    (hr : r ∈ rawRows s bs) : r.event ∈ eventKeys bs := by
  unfold rawRows at hr
  obtain ⟨b, hb, hr⟩ := List.mem_flatMap.mp hr
  obtain ⟨c, -, rfl⟩ := List.mem_map.mp hr
  exact mem_eventKeys.mpr ⟨b, hb, rfl⟩

/-- Walking the events of the map. -/
theorem finalizeEventRows_walked :
    (TableRowFactory.values order
        (walked old S.state S.actions S.eventStatements current).eventRows).foldlM
        (TableRowFactory.finalizeEventRow (some S.state) (lastEvent before S.eventStatements))
        (walked old S.state S.actions S.eventStatements current) =
      some (stored old
        ((rawRows S.state S.eventStatements).map fun r =>
          r.prefixed (eventActions S.eventStatements r.event))
        (eventDefaults order S) (walked old S.state S.actions S.eventStatements current)) := by
  have hstart : walked old S.state S.actions S.eventStatements current =
      stored old (rawRows S.state S.eventStatements) []
        (walked old S.state S.actions S.eventStatements current) := by
    unfold stored walked
    simp only [List.append_nil]
  have hvalues : TableRowFactory.values order
      (walked old S.state S.actions S.eventStatements current).eventRows = _ :=
    values_ofFn order _ _
  have hrows : ((rawRows S.state S.eventStatements).map fun r =>
      if r.event ∈ order.run (eventKeys S.eventStatements)
      then r.prefixed (eventActions S.eventStatements r.event) else r) =
      (rawRows S.state S.eventStatements).map fun r =>
        r.prefixed (eventActions S.eventStatements r.event) := by
    refine List.map_congr_left fun r hr => if_pos ?_
    exact (order.perm _).mem_iff.mpr (event_mem_eventKeys hr)
  -- only a block with event statements has events in the map
  rw [hvalues]
  cases hbs : S.eventStatements.getLast? with
  | none =>
    have hnil : S.eventStatements = [] := List.getLast?_eq_none_iff.mp hbs
    have hrun : order.run (eventKeys S.eventStatements) = [] := by
      rw [hnil]
      exact List.perm_nil.mp (order.perm _)
    have hdefaults : eventDefaults order S = [] := by
      unfold eventDefaults
      rw [hnil]
      rfl
    have hraw : rawRows S.state S.eventStatements = [] := by
      rw [hnil]
      rfl
    rw [hrun, hdefaults, hraw]
    rw [hraw] at hstart
    exact congrArg some hstart
  | some b =>
    have hlast : ∀ before, lastEvent before S.eventStatements = some b.event := by
      intro before
      unfold lastEvent
      rw [hbs]
      rfl
    have hkeys : (order.run (eventKeys S.eventStatements)).Nodup :=
      (order.perm _).nodup_iff.mpr nodup_eventKeys
    unfold eventDefaults
    rw [hlast before, hlast none, ← hrows, hstart]
    exact finalizeEventRows_stored _ hkeys

/-- Rows of a block go to no other stage before they are settled. -/
theorem unsettled_of_mem_blockRows (hacts : NoStage S.actions)
    (hevents : ∀ b ∈ S.eventStatements, NoStage b.actions ∧
      ∀ c ∈ b.conditionStatements, NoStage c.actions) {r : TableRow κ}
    (hr : r ∈ blockRows order S) : Unsettled r := by
  have happend : ∀ {a b : List Action}, NoStage a → NoStage b → NoStage (a ++ b) :=
    fun ha hb stage hmem => (List.mem_append.mp hmem).elim (ha stage) (hb stage)
  have hkey : ∀ e, NoStage (eventActions S.eventStatements e) := by
    intro e stage hmem
    obtain ⟨b, hb, hmem⟩ := List.mem_flatMap.mp hmem
    exact (hevents b (List.mem_of_mem_filter hb)).1 stage hmem
  unfold blockRows at hr
  rcases List.mem_append.mp hr with hr | hr
  · obtain ⟨r, hraw, rfl⟩ := List.mem_map.mp hr
    obtain ⟨b, hb, hraw⟩ := List.mem_flatMap.mp hraw
    obtain ⟨c, hc, rfl⟩ := List.mem_map.mp hraw
    exact ⟨rfl, rfl, happend hacts (happend (hkey _) ((hevents b hb).2 c hc))⟩
  · rcases List.mem_append.mp hr with hr | hr
    · unfold eventDefaults at hr
      split at hr
      · cases hr
      · obtain ⟨e, -, rfl⟩ := List.mem_map.mp hr
        exact ⟨rfl, rfl, hkey e⟩
    · unfold stateDefaults at hr
      split at hr
      · obtain ⟨e, -, rfl⟩ := List.mem_map.mp hr
        exact ⟨rfl, rfl, hacts⟩
      · cases hr

/-- The state's own actions, and the rows made up for a state without
rows. -/
theorem finalizeStateRows_walked (order' : HashOrder State) :
    (TableRowFactory.values order'
        (walked old S.state S.actions S.eventStatements current).stateRows).foldlM
        (TableRowFactory.finalizeStateRow (some S.state))
        (stored old
          ((rawRows S.state S.eventStatements).map fun r =>
            r.prefixed (eventActions S.eventStatements r.event))
          (eventDefaults order S) (walked old S.state S.actions S.eventStatements current)) =
      some { walked old S.state S.actions S.eventStatements current with
        objects := old ++ blockRows order S
        tableRows := List.range (old ++ blockRows order S).length } := by
  have hvalues : TableRowFactory.values order'
      (walked old S.state S.actions S.eventStatements current).stateRows = _ :=
    values_ofFn order' _ _
  have hrun : order'.run [S.state] = [S.state] := List.perm_singleton.mp (order'.perm _)
  have hevents : ((rawRows S.state S.eventStatements).map fun r =>
      r.prefixed (eventActions S.eventStatements r.event)).map TableRow.event =
      (rawRows S.state S.eventStatements).map TableRow.event := by
    rw [List.map_map]
    rfl
  rw [hvalues, hrun, List.map_singleton, List.foldlM_cons, ← hevents, finalizeStateRow_stored]
  refine congrArg some ?_
  unfold stored blockRows stateDefaults
  by_cases hraw : rawRows S.state S.eventStatements = []
  · simp [hraw]
  · simp [hraw, Function.comp_def]

/-- **A state block closes**: its rows are settled, one by one, and join
those of the stage. -/
theorem finalizeTableRows_walked {orders : Orders} (name : String)
    (hold : ∀ r ∈ old, Settled r) (hnew : ∀ r ∈ blockRows orders.event S, Unsettled r) :
    (walked old S.state S.actions S.eventStatements current).finalizeTableRows orders.event
        orders.state (some S.state) (lastEvent before S.eventStatements)
        (some (.declared name)) =
      ((blockRows orders.event S).mapM TableRow.settle).map fun rows =>
        settled (old ++ rows) current := by
  unfold TableRowFactory.finalizeTableRows
  rw [finalizeEventRows_walked, Option.bind_eq_bind, Option.bind_some]
  refine (congrArg (Option.bind · _) (finalizeStateRows_walked orders.state)).trans ?_
  rw [Option.bind_some]
  have hset := processSetNext_eq (F := settled old current) (old ++ blockRows orders.event S)
  refine (congrArg (fun o : Option (TableRowFactory κ) => o.bind fun F =>
    some (F.deleteEmptyTableRows (some (.declared name)))) hset).trans ?_
  rw [List.mapM_append, mapM_settle_settled hold, Option.bind_eq_bind, Option.bind_some]
  cases hsettle : (blockRows orders.event S).mapM TableRow.settle with
  | none => rfl
  | some rows =>
    have hall := mapM_eq_some_iff.mp hsettle
    have hstages : ∀ r ∈ old ++ rows, r.nextStage = .stage255 := by
      intro r hr
      rcases List.mem_append.mp hr with hr | hr
      · exact (hold r hr).stage
      · obtain ⟨i, hi, rfl⟩ := List.getElem_of_mem hr
        have hi' : i < (blockRows orders.event S).length := hall.length_eq ▸ hi
        exact ((hnew _ (List.getElem_mem hi')).settled (hall.get hi' hi)).stage
    have hlength : (old ++ blockRows orders.event S).length = (old ++ rows).length := by
      rw [List.length_append, List.length_append, hall.length_eq]
    rw [hlength]
    exact congrArg some (deleteEmptyTableRows_eq name hstages)

/-! ## The rows of a stage -/

/-- A block of a stage without setNextStage. -/
def StateStatement.NoStage (S : StateStatement κ) : Prop :=
  Xl.NoStage S.actions ∧ ∀ b ∈ S.eventStatements, Xl.NoStage b.actions ∧
    ∀ c ∈ b.conditionStatements, Xl.NoStage c.actions

/-- **Walking a state block** adds its rows, settled, to those of the
stage. -/
theorem walkState_settled (name : String) (orders : Orders) (before : Option Event)
    (last : Option State) (current : Option ℕ) (hS : S.NoStage) (hold : ∀ r ∈ old, Settled r) :
    ∃ current', walkState name orders
        ⟨.inStageBlock, before, last, some (.declared name), settled old current⟩ S =
      ((blockRows orders.event S).mapM TableRow.settle).map fun rows =>
        ⟨.inStageBlock, lastEvent before S.eventStatements, some S.state, some (.declared name),
          settled (old ++ rows) current'⟩ := by
  refine (walkState_walked before current last S).imp fun current' hwalk => hwalk.trans ?_
  have hclose : (walked old S.state S.actions S.eventStatements current').finalizeTableRows
      orders.event orders.state (some S.state) (lastEvent before S.eventStatements)
      (some (.declared name)) = _ :=
    finalizeTableRows_walked name hold fun r hr => unsettled_of_mem_blockRows hS.1 hS.2 hr
  unfold CompilerStateMachine.goOutsideBlock
  simp only [hclose, Option.map_map]
  rfl

/-- The rows the stage takes. -/
theorem getTableRows_settled :
    (settled old current).getTableRowsAndClear.1 = old := by
  unfold TableRowFactory.getTableRowsAndClear settled
  induction old using List.reverseRecOn with
  | nil => rfl
  | append_singleton old r ih =>
    simp only at ih ⊢
    rw [List.length_append, List.length_singleton, List.range_succ, List.filterMap_append]
    have hbefore : (List.range old.length).filterMap ((old ++ [r])[·]?) =
        (List.range old.length).filterMap (old[·]?) := by
      refine List.filterMap_congr fun i hi => ?_
      rw [List.getElem?_append_left (List.mem_range.mp hi)]
    rw [hbefore, ih]
    simp

/-- The settled rows of numbered blocks. -/
def blocksRows (orders : ℕ → Orders) (blocks : List (StateStatement κ × ℕ)) :
    Option (List (List (TableRow κ))) :=
  blocks.mapM fun block => (blockRows (orders block.2).event block.1).mapM TableRow.settle

/-- Walking the blocks of a stage. -/
theorem walkStates_settled {name : String} {orders : ℕ → Orders}
    {blocks : List (StateStatement κ × ℕ)} (hblocks : ∀ block ∈ blocks, block.1.NoStage)
    (hold : ∀ r ∈ old, Settled r) :
    (walkStates name orders
        ⟨.inStageBlock, before, last, some (.declared name), settled old current⟩ blocks).map
        (fun M => M.rows.getTableRowsAndClear.1) =
      (blocksRows orders blocks).map fun rows => old ++ rows.flatten := by
  unfold walkStates blocksRows
  induction blocks generalizing old before last current with
  | nil => simp [getTableRows_settled]
  | cons block blocks ih =>
    obtain ⟨hS, hblocks⟩ := List.forall_mem_cons.mp hblocks
    rw [List.foldlM_cons, List.mapM_cons]
    -- a block leaves settled rows only, behind those before it
    obtain ⟨current', hwalk⟩ := walkState_settled name (orders block.2) before last current hS hold
    rw [hwalk]
    cases hrows : (blockRows (orders block.2).event block.1).mapM TableRow.settle with
    | none => rfl
    | some rows =>
      have hall := mapM_eq_some_iff.mp hrows
      have hold' : ∀ r ∈ old ++ rows, Settled r := by
        intro r hr
        rcases List.mem_append.mp hr with hr | hr
        · exact hold r hr
        · obtain ⟨i, hi, rfl⟩ := List.getElem_of_mem hr
          have hi' : i < (blockRows (orders block.2).event block.1).length := hall.length_eq ▸ hi
          exact (unsettled_of_mem_blockRows hS.1 hS.2 (List.getElem_mem hi')).settled
            (hall.get hi' hi)
      rw [Option.map_some, Option.bind_eq_bind, Option.bind_some, ih hblocks hold']
      cases blocks.mapM fun block =>
          (blockRows (orders block.2).event block.1).mapM TableRow.settle with
      | none => rfl
      | some rest => simp

/-- **The rows of a stage** are those of its blocks, one after the other. -/
theorem compileStage_eq {name : String} {orders : ℕ → Orders} {blocks : List (StateStatement κ)}
    (hblocks : ∀ S ∈ blocks, S.NoStage) :
    compileStage name orders blocks = (blocksRows orders blocks.zipIdx).map List.flatten := by
  have hnumbered : ∀ block ∈ blocks.zipIdx, block.1.NoStage := fun block hblock =>
    hblocks _ (List.fst_mem_of_mem_zipIdx hblock)
  have hwalk : (walkStates name orders ⟨.inStageBlock, none, none, some (.declared name),
      settled [] none⟩ blocks.zipIdx).map (fun M => M.rows.getTableRowsAndClear.1) = _ :=
    walkStates_settled hnumbered fun r hr => by cases hr
  simp only [List.nil_append] at hwalk
  rw [← hwalk, Option.map_eq_bind]
  rfl

end Block

end Xl

end FlowBlaze

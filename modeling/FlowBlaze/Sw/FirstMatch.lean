import FlowBlaze.Sw.TableSpec
/-!
# Looking a row up

A lookup should return the first row of the current state whose condition
results are met, one condition after the other. The row is returned from
inside the comparison, at its last condition: a table without conditions
never gets there, and finds no row at all.
-/

namespace FlowBlaze

namespace Sw

open Common

section FirstMatch

variable {H : SlotMap State} {ε : Type} (E : Entries H ε) (rowResults : ε → Results) (n : ℕ)
  (s : State) (results : Results)

/-- A row asks for nothing else than what the conditions came to. -/
def Meets (row results : Results) (n : ℕ) : Prop :=
  ∀ i : Fin maxConditions, i.val < n → row i = .xfsmDontCare ∨ row i = results i

/-- **The first row that is met**, or none where no row is. -/
def FirstMet (rows : List ε) : Option ε → Prop
  | some row => ∃ before after, rows = before ++ row :: after ∧
      (∀ r ∈ before, ¬Meets (rowResults r) results n) ∧ Meets (rowResults row) results n
  | none => ∀ row ∈ rows, ¬Meets (rowResults row) results n

/-- **A lookup returns the first row of the state that is met**, and `NULL`
where there is none. -/
def LooksUpFirst : Prop :=
  ∃ found, xfsmTableLookup E rowResults n s results = some found ∧
    FirstMet rowResults n results ((bucket E s).getD []) found

variable {E rowResults n s results} {rows : List ε} {found : Option ε}

theorem agrees_iff {row : Results} : agrees n row results = true ↔ Meets row results n :=
  decide_eq_true_iff

/-- Searching a list is one way to find the first row. -/
theorem firstMet_find? :
    FirstMet rowResults n results rows
      (rows.find? fun row => agrees n (rowResults row) results) := by
  cases h : rows.find? fun row => agrees n (rowResults row) results with
  | none =>
    intro row hrow hmeets
    exact List.find?_eq_none.mp h row hrow (agrees_iff.mpr hmeets)
  | some row =>
    obtain ⟨hrow, before, after, hrows, hbefore⟩ := List.find?_eq_some_iff_append.mp h
    refine ⟨before, after, hrows, fun r hr hmeets => ?_, agrees_iff.mp hrow⟩
    have hnot := hbefore r hr
    rw [agrees_iff.mpr hmeets] at hnot
    cases hnot

/-- **Without conditions every row is met**, so the first row is the first
that is met. -/
theorem firstMet_none_zero_iff : FirstMet rowResults 0 results rows none ↔ rows = [] := by
  constructor
  · intro h
    by_contra hne
    obtain ⟨row, hrow⟩ := List.exists_mem_of_ne_nil _ hne
    exact h row hrow fun i hi => absurd hi (Nat.not_lt_zero _)
  · rintro rfl row hrow
    cases hrow

/-- **When a lookup returns the first row that is met.** -/
theorem looksUpFirst_iff (hn : n ≤ maxConditions) :
    LooksUpFirst E rowResults n s results ↔ 0 < n ∨ (bucket E s).getD [] = [] := by
  unfold LooksUpFirst
  rw [xfsmTableLookup_eq_find? hn]
  rcases Nat.eq_zero_or_pos n with rfl | hpos
  · have hnone : ((bucket E s).getD []).find?
        (fun row => decide (0 < 0) && agrees 0 (rowResults row) results) = none :=
      List.find?_eq_none.mpr fun row _ h => by cases h
    rw [hnone]
    constructor
    · rintro ⟨found, hfound, hfirst⟩
      cases hfound
      exact .inr (firstMet_none_zero_iff.mp hfirst)
    · rintro (h | h)
      · exact absurd h (Nat.lt_irrefl 0)
      · exact ⟨none, rfl, firstMet_none_zero_iff.mpr h⟩
  · refine iff_of_true ⟨_, rfl, ?_⟩ (.inl hpos)
    rw [decide_eq_true hpos]
    exact firstMet_find?

end FirstMatch

/-! ## Two rows of the first state -/

/-- The table of two rows of state 0, of which the second asks for nothing. -/
def twoRows (first : Results) : Entries (listSlotMap State) Results :=
  fillPool (listSlotMap State) [first, fun _ => .xfsmDontCare]
    ⟨(listSlotMap State).create maxEntriesForeachState, fun _ => ⟨0, []⟩⟩ [⟨0, [0, 1]⟩]

/-- **The first row is passed over** where its condition came to something
else, and the second is returned. -/
theorem looksUpFirst_twoRows :
    bucket (twoRows fun _ => .xfsmFalse) 0 =
        some [fun _ => .xfsmFalse, fun _ => .xfsmDontCare] ∧
      LooksUpFirst (twoRows fun _ => .xfsmFalse) id 1 0 fun _ => .xfsmTrue :=
  ⟨rfl, (looksUpFirst_iff (by decide)).mpr (.inl Nat.one_pos)⟩

/-- **Without conditions no row is found**, not even in a table that was
made of two. -/
theorem not_looksUpFirst :
    createEntries (listSlotMap State) [fun _ => XfsmResult.xfsmDontCare, fun _ => .xfsmDontCare]
        (fun _ : Results => 0) = some (twoRows fun _ => .xfsmDontCare) ∧
      xfsmTableLookup (twoRows fun _ => .xfsmDontCare) id 0 0 (fun _ => .xfsmTrue) = some none ∧
      ¬LooksUpFirst (twoRows fun _ => .xfsmDontCare) id 0 0 fun _ => .xfsmTrue := by
  refine ⟨rfl, rfl, ?_⟩
  rintro ⟨found, hfound, hfirst⟩
  cases hfound
  exact hfirst (fun _ => .xfsmDontCare) List.mem_cons_self fun i hi => absurd hi (Nat.not_lt_zero _)

end Sw

end FlowBlaze

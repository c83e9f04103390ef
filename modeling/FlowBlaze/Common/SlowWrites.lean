import Mathlib.Data.Nat.Notation
import Mathlib.Logic.Function.Basic
/-!
# A table whose writes take time

A write occupies the table for a number of cycles; while it does, further
writes are dropped. Where the writes come no closer than that, none is
dropped, and at rest the table is what writes at once would have made of it
(`run_of_settled`).
-/

namespace FlowBlaze

namespace Common

/-- A write under way: the cycles it still takes, its place and its entry. -/
structure PendingWrite (ι ε : Type*) where
  left : ℕ
  place : ι
  entry : ε

/-- The table. -/
structure SlowTable (ι ε : Type*) where
  entries : ι → Option ε
  writing : Option (PendingWrite ι ε)

variable {ι ε : Type*} [DecidableEq ι] (cycles : ℕ)

namespace SlowTable

variable (s : SlowTable ι ε) (write : Option (ι × ε))

/-- The write that occupies the table in a cycle: the one under way, or one
that begins. -/
def current : Option (PendingWrite ι ε) :=
  match s.writing with
  | some p => some p
  | none => write.map fun w => ⟨cycles, w.1, w.2⟩

/-- **A cycle.** In the last one of a write its entry is there. -/
def next : SlowTable ι ε :=
  match s.current cycles write with
  | none => s
  | some p =>
    if p.left ≤ 1 then ⟨Function.update s.entries p.place (some p.entry), none⟩
    else ⟨s.entries, some { p with left := p.left - 1 }⟩

/-- The entry of a place, where it is not being written. -/
def shown (i : ι) : Option ε :=
  match s.current cycles write with
  | some p => if i = p.place then none else s.entries i
  | none => s.entries i

end SlowTable

/-- The entries that writes at once make. -/
def writtenAtOnce (entries : ι → Option ε) (writes : ℕ → Option (ι × ε)) : ℕ → ι → Option ε
  | 0 => entries
  | t + 1 =>
    match writes t with
    | some w => Function.update (writtenAtOnce entries writes t) w.1 (some w.2)
    | none => writtenAtOnce entries writes t

/-- An entry after a write, if there is one. -/
def writtenEntry (write : Option (ι × ε)) (i : ι) (entry : Option ε) : Option ε :=
  match write with
  | some w => if i = w.1 then some w.2 else entry
  | none => entry

/-- Place by place. -/
theorem writtenAtOnce_succ (entries : ι → Option ε) (writes : ℕ → Option (ι × ε)) (t : ℕ) (i : ι) :
    writtenAtOnce entries writes (t + 1) i =
      writtenEntry (writes t) i (writtenAtOnce entries writes t i) := by
  unfold writtenEntry
  rw [writtenAtOnce]
  cases writes t with
  | none => rfl
  | some w => exact Function.update_apply _ _ _ _

/-- **Before a cycle no two writes are closer** than a number of cycles. -/
def FarApart (writes : ℕ → Option (ι × ε)) (n : ℕ) : Prop :=
  ∀ s t, s < t → t < n → writes s ≠ none → writes t ≠ none → s + cycles ≤ t

/-- **And the last of them is over.** -/
structure Settled (writes : ℕ → Option (ι × ε)) (n : ℕ) : Prop where
  apart : FarApart cycles writes n
  rest : ∀ s < n, writes s ≠ none → s + cycles ≤ n

variable {cycles} {writes : ℕ → Option (ι × ε)} {run : ℕ → SlowTable ι ε} {t : ℕ}

/-- **A run is at rest or in a write**: the entries are those of all writes,
or of all but the one under way. -/
theorem rest_or_writing (hcycles : 0 < cycles) (hstart : (run 0).writing = none)
    (hrun : ∀ t, run (t + 1) = (run t).next cycles (writes t)) (hfar : FarApart cycles writes t) :
    ((run t).writing = none ∧ (run t).entries = writtenAtOnce (run 0).entries writes t ∧
        ∀ s < t, writes s ≠ none → s + cycles ≤ t) ∨
      ∃ s w, s < t ∧ t < s + cycles ∧ writes s = some w ∧
        (run t).writing = some ⟨s + cycles - t, w.1, w.2⟩ ∧
        Function.update (run t).entries w.1 (some w.2) =
          writtenAtOnce (run 0).entries writes t := by
  induction t with
  | zero => exact .inl ⟨hstart, rfl, fun s hs => absurd hs (Nat.not_lt_zero s)⟩
  | succ t ih =>
    rw [hrun t]
    have hbefore : FarApart cycles writes t := fun r s hrs hst =>
      hfar r s hrs (Nat.lt_succ_of_lt hst)
    obtain ⟨hidle, hentries, hpast⟩ | ⟨s, w, hst, hts, hw, hwriting, hentries⟩ := ih hbefore
    · cases hnow : writes t with
      | none =>
        left
        have hnext : (run t).next cycles none = run t := by
          unfold SlowTable.next SlowTable.current
          rw [hidle]
          rfl
        rw [hnext, writtenAtOnce, hnow]
        refine ⟨hidle, hentries, fun s hs hne => ?_⟩
        rcases Nat.lt_succ_iff_lt_or_eq.mp hs with hlt | rfl
        · exact Nat.le_succ_of_le (hpast s hlt hne)
        · exact absurd hnow hne
      | some w =>
        have hcurrent : (run t).current cycles (some w) = some ⟨cycles, w.1, w.2⟩ := by
          unfold SlowTable.current
          rw [hidle]
          rfl
        have hall : Function.update (run t).entries w.1 (some w.2) =
            writtenAtOnce (run 0).entries writes (t + 1) := by
          rw [writtenAtOnce, hnow, hentries]
        rcases Nat.lt_or_ge 1 cycles with hmore | hone
        · right
          refine ⟨t, w, Nat.lt_succ_self t, by omega, hnow, ?_⟩
          unfold SlowTable.next
          rw [hcurrent]
          dsimp only
          rw [if_neg (by omega), show t + cycles - (t + 1) = cycles - 1 by omega]
          exact ⟨rfl, hall⟩
        · left
          unfold SlowTable.next
          rw [hcurrent]
          dsimp only
          rw [if_pos hone]
          refine ⟨rfl, hall, fun s hs hne => ?_⟩
          rcases Nat.lt_succ_iff_lt_or_eq.mp hs with hlt | rfl
          · exact Nat.le_succ_of_le (hpast s hlt hne)
          · omega
    · -- nothing else is written before the write is over
      have hnow : writes t = none := by
        by_contra hne
        have := hfar s t hst (Nat.lt_succ_self t) (by rw [hw]; exact Option.some_ne_none w) hne
        omega
      have hcurrent : (run t).current cycles none = some ⟨s + cycles - t, w.1, w.2⟩ := by
        unfold SlowTable.current
        rw [hwriting]
      rw [hnow, writtenAtOnce, hnow]
      unfold SlowTable.next
      rw [hcurrent]
      dsimp only
      by_cases hlast : s + cycles - t ≤ 1
      · left
        rw [if_pos hlast]
        refine ⟨rfl, hentries, fun r hr hne => ?_⟩
        rcases Nat.lt_trichotomy r s with hrs | rfl | hsr
        · have := hfar r s hrs (Nat.lt_succ_of_lt hst) hne (by rw [hw]; exact Option.some_ne_none w)
          omega
        · omega
        · rcases Nat.lt_succ_iff_lt_or_eq.mp hr with hlt | rfl
          · have := hfar s r hsr hr (by rw [hw]; exact Option.some_ne_none w) hne
            omega
          · exact absurd hnow hne
      · right
        rw [if_neg hlast]
        exact ⟨s, w, by omega, by omega, hw, by rw [Nat.sub_sub], hentries⟩

omit [DecidableEq ι] in
/-- Without a write the table stays at rest. -/
theorem Settled.succ (h : Settled cycles writes t) (hnone : writes t = none) :
    Settled cycles writes (t + 1) := by
  refine ⟨fun r s hrs hs hr hne => ?_, fun s hs hne => ?_⟩
  · rcases Nat.lt_succ_iff_lt_or_eq.mp hs with hlt | rfl
    · exact h.apart r s hrs hlt hr hne
    · exact absurd hnone hne
  · rcases Nat.lt_succ_iff_lt_or_eq.mp hs with hlt | rfl
    · exact Nat.le_succ_of_le (h.rest s hlt hne)
    · exact absurd hnone hne

/-- **At rest** all writes are there. -/
theorem run_of_settled (hcycles : 0 < cycles) (hstart : (run 0).writing = none)
    (hrun : ∀ t, run (t + 1) = (run t).next cycles (writes t)) (h : Settled cycles writes t) :
    (run t).writing = none ∧ (run t).entries = writtenAtOnce (run 0).entries writes t := by
  obtain ⟨hidle, hentries, -⟩ | ⟨s, w, hst, hts, hw, -⟩ :=
    rest_or_writing hcycles hstart hrun h.apart
  · exact ⟨hidle, hentries⟩
  · have := h.rest s hst (by rw [hw]; exact Option.some_ne_none w)
    omega

end Common

end FlowBlaze

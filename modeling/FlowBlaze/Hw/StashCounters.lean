import FlowBlaze.Hw.Stash
/-!
# The counters of the stash

One variable and three registers count what the seats do. A seat is taken
only if it was free and freed only if it was taken, so that what an edge adds
to the variable and takes from it is what it adds to the taken seats, also
where one removal frees several seats while an insertion takes another.
-/

namespace FlowBlaze

namespace Hw

namespace StashReg

/-- How many seats are taken. -/
def occupied (s : StashReg) : ℕ := seats.countP fun i => (s.stash i).occupied

/-- How many seats a cycle frees. -/
def freedBy (s : StashReg) (p : StashIn) : ℕ := if p.remove then seats.countP (s.asked p) else 0

/-- How many insertions a cycle turns away: one, if it finds no free seat. -/
def refusedBy (s : StashReg) (p : StashIn) : ℕ := if p.insert && s.freeSeat.isNone then 1 else 0

/-- How many seats a cycle takes. -/
def takenBy (s : StashReg) (p : StashIn) : ℕ := if p.insert && s.freeSeat.isSome then 1 else 0

/-- Some cycles, one after the other. -/
def run (s : StashReg) (ps : List StashIn) : StashReg := ps.foldl next s

/-- What the cycles count together. -/
def total (count : StashReg → StashIn → ℕ) : StashReg → List StashIn → ℕ
  | _, [] => 0
  | s, p :: ps => count s p + total count (s.next p) ps

section Edges

variable {s : StashReg} {p : StashIn} {i : Fin 8}

/-! ## One edge -/

/-- Seats counted twice over alike. -/
theorem countP_add_countP {α : Type} {l : List α} {P Q R S : α → Bool}
    (h : ∀ a, (P a).toNat + (Q a).toNat = (R a).toNat + (S a).toNat) :
    l.countP P + l.countP Q = l.countP R + l.countP S := by
  induction l with
  | nil => rfl
  | cons a l ih =>
    have ha := h a
    simp only [List.countP_cons]
    cases hP : P a <;> cases hQ : Q a <;> cases hR : R a <;> cases hS : S a <;>
      simp only [hP, hQ, hR, hS, Bool.toNat_true, Bool.toNat_false] at ha ⊢ <;> omega

/-- The seat that an insertion takes was free. -/
theorem occupied_of_freeSeat (h : s.freeSeat = some i) : (s.stash i).occupied = false := by
  have hfree := List.find?_some h
  rwa [Bool.not_eq_true'] at hfree

/-- At most one seat is taken. -/
theorem countP_freeSeat (s : StashReg) (p : StashIn) :
    seats.countP (fun i => p.insert && s.freeSeat == some i) = s.takenBy p := by
  unfold takenBy
  cases hinsert : p.insert with
  | false => exact congrFun List.countP_false seats
  | true =>
    cases hfree : s.freeSeat with
    | none => exact List.countP_eq_zero.mpr fun i _ => by simp
    | some j =>
      have hone : seats.count j = 1 :=
        List.count_eq_one_of_mem (List.nodup_finRange 8) (mem_seats j)
      rw [List.count_eq_countP] at hone
      refine (List.countP_congr fun i _ => ?_).trans hone
      rw [Bool.true_and, beq_iff_eq, beq_iff_eq, Option.some.injEq, eq_comm]

/-- **The seats after an edge**: as many as before and those taken, without
those freed. -/
theorem occupied_next (hreset : p.reset = false) :
    (s.next p).occupied + s.freedBy p = s.occupied + s.takenBy p := by
  have hfreed : s.freedBy p = seats.countP fun i => p.remove && s.asked p i := by
    unfold freedBy
    cases p.remove with
    | false => exact (congrFun List.countP_false seats).symm
    | true => rfl
  rw [hfreed, ← countP_freeSeat]
  refine countP_add_countP fun i => ?_
  have hnext : ((s.next p).stash i).occupied = (s.nextSeat p i).occupied := by
    unfold next
    dsimp only
    rw [if_neg (by rw [hreset]; exact Bool.false_ne_true)]
  rw [hnext]
  unfold nextSeat
  by_cases hasked : s.asked p i = true
  · have htaken : (s.stash i).occupied = true := ((Bool.and_eq_true _ _).mp hasked).2
    have hnot : (s.freeSeat == some i) = false := by
      rw [beq_eq_false_iff_ne]
      intro hfree
      rw [occupied_of_freeSeat hfree] at htaken
      cases htaken
    rw [if_pos hasked, hasked, htaken, hnot]
    cases p.remove <;> cases p.insert <;> rfl
  · rw [if_neg hasked, Bool.eq_false_iff.mpr hasked]
    by_cases htake : (p.insert && s.freeSeat == some i) = true
    · have hfree := occupied_of_freeSeat (beq_iff_eq.mp ((Bool.and_eq_true _ _).mp htake).2)
      rw [if_pos htake, htake, hfree]
      cases p.remove <;> rfl
    · rw [if_neg htake, Bool.eq_false_iff.mpr htake]
      cases p.remove <;> rfl

theorem occupied_le (s : StashReg) : s.occupied ≤ 8 := List.countP_le_length

/-- **The counters are right**, of the seats and of what has been freed and
refused. -/
structure Truthful (s : StashReg) (freed refused : ℕ) : Prop where
  entryCounter : s.entryCounter = BitVec.ofNat 32 s.occupied
  numEntry : s.numEntry = BitVec.ofNat 32 s.occupied
  totNumEntry : s.intTotNumEntry = BitVec.ofNat 32 (s.occupied + freed)
  evictedEntry : s.intEvictedEntry = BitVec.ofNat 32 refused

theorem truthful_reset (s : StashReg) (hreset : p.reset = true) : (s.next p).Truthful 0 0 := by
  have hnone : (s.next p).occupied = 0 := by
    refine List.countP_eq_zero.mpr fun i _ => ?_
    unfold next
    dsimp only
    rw [if_pos hreset]
    exact Bool.false_ne_true
  refine ⟨?_, ?_, ?_, if_pos hreset⟩ <;> rw [hnone] <;> exact if_pos hreset

/-- **One edge** keeps them right. -/
theorem Truthful.next {freed refused : ℕ} (h : s.Truthful freed refused)
    (hreset : p.reset = false) :
    (s.next p).Truthful (freed + s.freedBy p) (refused + s.refusedBy p) := by
  have hnot : ¬p.reset = true := Bool.eq_false_iff.mp hreset
  have hcount := occupied_next (s := s) hreset
  have hcounter : s.nextEntryCounter p = BitVec.ofNat 32 (s.next p).occupied := by
    have htaken : (if p.insert && s.freeSeat.isSome then (1 : BitVec 32) else 0) =
        BitVec.ofNat 32 (s.takenBy p) := by
      unfold takenBy
      split_ifs <;> rfl
    have hfreed : (if p.remove then BitVec.ofNat 32 (seats.countP (s.asked p)) else 0) =
        BitVec.ofNat 32 (s.freedBy p) := by
      unfold freedBy
      split_ifs <;> rfl
    unfold nextEntryCounter
    rw [htaken, hfreed, h.entryCounter, ← BitVec.ofNat_add, ← hcount, BitVec.ofNat_add,
      BitVec.add_sub_cancel]
  refine ⟨(if_neg hnot).trans hcounter, (if_neg hnot).trans hcounter, (if_neg hnot).trans ?_,
    (if_neg hnot).trans ?_⟩
  · have hsum : (s.next p).occupied + (freed + s.freedBy p) =
        s.occupied + freed + s.takenBy p := by omega
    rw [hsum, BitVec.ofNat_add, ← h.totNumEntry]
    unfold takenBy
    split_ifs
    · rfl
    · exact (BitVec.add_zero _).symm
  · rw [BitVec.ofNat_add, ← h.evictedEntry]
    unfold refusedBy
    split_ifs
    · rfl
    · exact (BitVec.add_zero _).symm

end Edges

/-! ## Runs -/

section Runs

variable {s : StashReg} {p : StashIn} {ps : List StashIn}

/-- **Any run** keeps them right. -/
theorem Truthful.run {freed refused : ℕ} (h : s.Truthful freed refused)
    (hreset : ∀ p ∈ ps, p.reset = false) :
    (s.run ps).Truthful (freed + total freedBy s ps) (refused + total refusedBy s ps) := by
  induction ps generalizing s freed refused with
  | nil => exact h
  | cons p ps ih =>
    obtain ⟨hp, hps⟩ := List.forall_mem_cons.mp hreset
    have hrun := ih (h.next hp) hps
    rw [Nat.add_assoc, Nat.add_assoc] at hrun
    exact hrun

/-- **The counters of the stash are truthful** after every edge of a run that
a reset begins: `num_entry` is the number of seats taken, `tot_num_entry`
without the seats freed is `num_entry`, `evicted_entry` the number of
insertions that found no free seat, and `num_present` what `num_entry` was
one edge before. -/
theorem counters_truthful (s : StashReg) (hreset : p.reset = true)
    (hps : ∀ p ∈ ps, p.reset = false) :
    ((s.next p).run ps).numEntry.toNat = ((s.next p).run ps).occupied ∧
      ((s.next p).run ps).intTotNumEntry - BitVec.ofNat 32 (total freedBy (s.next p) ps) =
        ((s.next p).run ps).numEntry ∧
      ((s.next p).run ps).intEvictedEntry =
        BitVec.ofNat 32 (total refusedBy (s.next p) ps) ∧
      ∀ earlier last, ps = earlier ++ [last] →
        ((s.next p).run ps).numPresent = ((s.next p).run earlier).numEntry := by
  have h := (truthful_reset s hreset).run hps
  rw [Nat.zero_add, Nat.zero_add] at h
  refine ⟨?_, ?_, h.evictedEntry, ?_⟩
  · have hle := occupied_le ((s.next p).run ps)
    rw [h.numEntry, BitVec.toNat_ofNat, Nat.mod_eq_of_lt (by omega)]
  · rw [h.totNumEntry, h.numEntry, BitVec.ofNat_add, BitVec.add_sub_cancel]
  · rintro earlier last rfl
    have hearlier := (truthful_reset s hreset).run fun q hq =>
      hps q (List.mem_append_left _ hq)
    have hlast := hps last (List.mem_append_right _ List.mem_cons_self)
    have hrun : (s.next p).run (earlier ++ [last]) = ((s.next p).run earlier).next last :=
      List.foldl_concat ..
    rw [hrun, hearlier.numEntry]
    exact if_neg (Bool.eq_false_iff.mp hlast)

/-- A reset. -/
def clear : StashIn := ⟨true, false, false, false, false, 0, 0, 0⟩

/-- Two insertions of one key, and a removal of both while another key comes
in. -/
def twice : List StashIn :=
  [⟨false, true, false, false, false, 5, 0, 1⟩, ⟨false, true, false, false, false, 5, 0, 2⟩,
    ⟨false, true, false, true, false, 6, 5, 3⟩]

/-- Seats and registers before the reset. -/
def unset : StashReg := ⟨fun _ => ⟨true, 0, 0⟩, 7, 7, 7, 7, 7, 7, true, 7⟩

theorem counters_truthful_twice :
    ((unset.next clear).run twice).occupied = 1 ∧
      ((unset.next clear).run twice).numEntry.toNat = ((unset.next clear).run twice).occupied ∧
      ((unset.next clear).run twice).intTotNumEntry -
          BitVec.ofNat 32 (total freedBy (unset.next clear) twice) =
        ((unset.next clear).run twice).numEntry := by
  have h := @counters_truthful clear twice unset rfl (by decide)
  exact ⟨by decide, h.1, h.2.1⟩

end Runs

end StashReg

end Hw

end FlowBlaze

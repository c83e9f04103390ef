import Mathlib.Data.Nat.Notation
/-!
# The bytes of a bit vector

The bytes of a vector from the least significant one on, what a
concatenation and a slice do to them, and loops that assign them one by
one.
-/

namespace FlowBlaze

namespace Common

variable {w v k m i j n : ℕ}

/-- A byte of a vector. -/
def byteOf (x : BitVec w) (i : ℕ) : BitVec 8 := x.extractLsb' (8 * i) 8

/-- A vector with another byte in one place. -/
def setByte (x : BitVec w) (i : ℕ) (b : BitVec 8) : BitVec w :=
  (x &&& ~~~((BitVec.allOnes 8).setWidth w <<< (8 * i))) ||| (b.setWidth w <<< (8 * i))

/-- A loop that assigns bytes. -/
def assignBytes (x : BitVec w) (places : List ℕ) (g : ℕ → BitVec 8) : BitVec w :=
  places.foldl (fun x i => setByte x i (g i)) x

theorem getLsbD_byteOf (x : BitVec w) (hj : j < 8) :
    (byteOf x i).getLsbD j = x.getLsbD (8 * i + j) := by
  unfold byteOf
  rw [BitVec.getLsbD_extractLsb', decide_eq_true hj, Bool.true_and]

/-- **The bytes of a concatenation** are those of its lower part first. -/
theorem byteOf_append (x : BitVec w) (y : BitVec v) (hv : v = 8 * k) :
    byteOf (x ++ y) i = if i < k then byteOf y i else byteOf x (i - k) := by
  refine BitVec.eq_of_getLsbD_eq fun j hj => ?_
  rw [getLsbD_byteOf _ hj, BitVec.getLsbD_append]
  by_cases hi : i < k
  · rw [if_pos hi, if_pos (by omega), getLsbD_byteOf _ hj]
  · rw [if_neg hi, if_neg (by omega), getLsbD_byteOf _ hj]
    exact congrArg x.getLsbD (by omega)

/-- **The bytes of a slice.** -/
theorem byteOf_extractLsb' (x : BitVec w) (hv : v = 8 * k) (hi : 8 * i + 8 ≤ m) :
    byteOf (x.extractLsb' v m) i = byteOf x (k + i) := by
  refine BitVec.eq_of_getLsbD_eq fun j hj => ?_
  rw [getLsbD_byteOf _ hj, BitVec.getLsbD_extractLsb', decide_eq_true (by omega), Bool.true_and,
    getLsbD_byteOf _ hj]
  exact congrArg x.getLsbD (by omega)

/-- **Slices put together**, at a boundary between bytes. -/
theorem byteOf_slices (x : BitVec w) (y : BitVec v) {s t p q l : ℕ} (hs : s = 8 * p)
    (ht : t = 8 * q) (hl : l = 8 * k) (hi : 8 * i + 8 ≤ m + l) :
    byteOf (x.extractLsb' s m ++ y.extractLsb' t l) i =
      if i < k then byteOf y (q + i) else byteOf x (p + (i - k)) := by
  rw [byteOf_append _ _ hl]
  by_cases hik : i < k
  · rw [if_pos hik, if_pos hik, byteOf_extractLsb' _ ht (by omega)]
  · rw [if_neg hik, if_neg hik, byteOf_extractLsb' _ hs (by omega)]

/-- **The bytes once one is set.** -/
theorem byteOf_setByte (x : BitVec w) (b : BitVec 8) (hi : 8 * i + 8 ≤ w) :
    byteOf (setByte x i b) j = if j = i then b else byteOf x j := by
  refine BitVec.eq_of_getLsbD_eq fun n hn => ?_
  rw [getLsbD_byteOf _ hn]
  unfold setByte
  simp only [BitVec.getLsbD_or, BitVec.getLsbD_and, BitVec.getLsbD_not, BitVec.getLsbD_shiftLeft,
    BitVec.getLsbD_setWidth, BitVec.getLsbD_allOnes]
  by_cases hj : j = i
  · rw [if_pos hj, hj]
    have hlow : 8 * i + n - 8 * i = n := by omega
    simp [hlow, hn, show 8 * i + n < w by omega, show n < w by omega,
      show ¬8 * i + n < 8 * i by omega]
  · rw [if_neg hj, getLsbD_byteOf _ hn]
    rcases Nat.lt_or_ge (8 * j + n) (8 * i) with hlt | hge
    · simp only [hlt, decide_true, Bool.not_true, Bool.and_false, Bool.false_and, Bool.not_false,
        Bool.or_false]
      by_cases hw : 8 * j + n < w
      · simp [hw]
      · have hx : x.getLsbD (8 * j + n) = false := BitVec.getLsbD_of_ge x _ (Nat.le_of_not_lt hw)
        simp [hx]
    · have hout : ¬8 * j + n - 8 * i < 8 := by omega
      have hb : b.getLsbD (8 * j + n - 8 * i) = false := BitVec.getLsbD_of_ge b _ (by omega)
      by_cases hw : 8 * j + n < w
      · simp [hw, hout, hb]
      · have hx : x.getLsbD (8 * j + n) = false := BitVec.getLsbD_of_ge x _ (Nat.le_of_not_lt hw)
        simp [hw, hx]

/-- **The bytes after a loop.** -/
theorem byteOf_assignBytes (x : BitVec w) (g : ℕ → BitVec 8) {places : List ℕ}
    (h : ∀ i ∈ places, 8 * i + 8 ≤ w) :
    byteOf (assignBytes x places g) j = if j ∈ places then g j else byteOf x j := by
  induction places generalizing x with
  | nil => rw [if_neg List.not_mem_nil]; rfl
  | cons i places ih =>
    have hrest := ih (setByte x i (g i)) fun k hk => h k (List.mem_cons_of_mem _ hk)
    refine hrest.trans ?_
    rw [byteOf_setByte _ _ (h i List.mem_cons_self)]
    by_cases hmem : j ∈ places
    · rw [if_pos hmem, if_pos (List.mem_cons_of_mem _ hmem)]
    · rw [if_neg hmem]
      by_cases hji : j = i
      · rw [if_pos hji, if_pos (hji ▸ List.mem_cons_self), hji]
      · rw [if_neg hji, if_neg fun h => (List.mem_cons.mp h).elim hji hmem]

end Common

end FlowBlaze

import FlowBlaze.Hw.AddField
import FlowBlaze.Hw.ModifySpec
/-!
# The bytes of a beat with a field in it

A branch is right about a beat if the bytes before the field stay, those of
the field stand at its place, and the others come after it: the last ones
of the beat before first, which are carried. The loops miss places near the
beginning of a beat, and two bytes that are split are followed by one byte
too many.
-/

namespace FlowBlaze

namespace Hw

open Common

/-- **A byte of a beat** with the field at a place: the place is that of the
field's first byte, from the beginning of the beat. -/
def inserted (r : ℤ) (n : ℕ) (tdata : BitVec 256) (field carry : BitVec 32) (i : ℕ) : BitVec 8 :=
  if i < r then byteOf tdata i
  else if i < r + n then byteOf field (i - r).toNat
  else if n ≤ i then byteOf tdata (i - n)
  else byteOf carry (4 + i - n)

/-- **Places that a branch is right about**, for each number of bytes. -/
def Inserts (n : ℕ) (r : ℤ) : Prop :=
  n = 1 ∨ (n = 2 ∧ r ≠ 1 ∧ r ≠ -1) ∨ (n = 4 ∧ (r < 1 ∨ 3 < r))

variable {r : ℤ} {index n i j : ℕ} {tdata : BitVec 256} {field carry : BitVec 32} {size : BitVec 2}

/-- A byte before the field stays. -/
theorem inserted_before (h : i < r) : inserted r n tdata field carry i = byteOf tdata i := if_pos h

/-- A byte of the field. -/
theorem inserted_within (h : r ≤ i) (hlt : i < r + n) (hj : (i : ℤ) = r + j) :
    inserted r n tdata field carry i = byteOf field j := by
  unfold inserted
  rw [if_neg (by omega), if_pos hlt]
  exact congrArg (byteOf field) (by omega)

/-- A byte behind it, of the same beat. -/
theorem inserted_behind (h : r + n ≤ i) (hi : i = n + j) :
    inserted r n tdata field carry i = byteOf tdata j := by
  unfold inserted
  rw [if_neg (by omega), if_neg (by omega), if_pos (by omega)]
  exact congrArg (byteOf tdata) (by omega)

/-- A byte behind it, of the beat before. -/
theorem inserted_carried (h : r + n ≤ i) (hi : i < n) (hj : 4 + i = n + j) :
    inserted r n tdata field carry i = byteOf carry j := by
  unfold inserted
  rw [if_neg (by omega), if_neg (by omega), if_neg (by omega)]
  exact congrArg (byteOf carry) (by omega)

/-! ## The branches -/

/-- **A loop over the upper bytes** inserts a field that begins in them. -/
theorem byteOf_addLoop {low : List ℕ} {g : ℕ → BitVec 8} (hlow : ∀ k ∈ low, k < 32)
    (hn : n ≤ index) (hindex : index < 32) (hi : i < 32)
    (hbefore : ∀ k < index, g k = byteOf tdata k)
    (hwithin : ∀ k < n, g (index + k) = byteOf field k)
    (hbehind : ∀ k, index + n ≤ k → g k = byteOf tdata (k - n)) :
    byteOf (assignBytes (assignBytes tdata low (byteOf tdata)) (List.range' n (32 - n)) g) i =
      inserted index n tdata field carry i := by
  have hrange : ∀ k ∈ List.range' n (32 - n), 8 * k + 8 ≤ 256 := fun k hk => by
    have := (List.mem_range'_1.mp hk).2
    omega
  rw [byteOf_assignBytes _ _ hrange, byteOf_assignBytes _ _ fun k hk => by
    have := hlow k hk
    omega]
  by_cases hmem : i ∈ List.range' n (32 - n)
  · rw [if_pos hmem]
    rcases Nat.lt_or_ge i index with hlt | hge
    · rw [hbefore i hlt, inserted_before (by omega)]
    obtain ⟨k, rfl⟩ := Nat.exists_eq_add_of_le hge
    rcases Nat.lt_or_ge k n with hlt | hge
    · rw [hwithin k hlt, inserted_within (j := k) (by omega) (by omega) (by omega)]
    · rw [hbehind _ (by omega), inserted_behind (j := index + k - n) (by omega) (by omega)]
  · have hlt : i < n := by
      by_contra hge
      exact hmem (List.mem_range'_1.mpr (by omega))
    rw [if_neg hmem, ite_self, inserted_before (by omega)]

/-- A field at the beginning of the beat. -/
theorem byteOf_addFirst {l m : ℕ} (hl : l = 8 * n) (hm : m + l = 256) (hi : i < 32) :
    byteOf (tdata.extractLsb' 0 m ++ field.extractLsb' 0 l) i =
      inserted 0 n tdata field carry i := by
  rw [byteOf_slices (p := 0) (q := 0) tdata field rfl rfl hl (by omega)]
  by_cases h : i < n
  · rw [if_pos h, inserted_within (j := 0 + i) (by omega) (by omega) (by omega)]
  · rw [if_neg h, inserted_behind (j := 0 + (i - n)) (by omega) (by omega)]

/-- A field that goes on past the end of the beat, or up to it. -/
theorem byteOf_addLast {l m : ℕ} (k : ℕ) (hl : l = 8 * k) (hm : m + l = 256)
    (hk : k + n ≥ 32) (hi : i < 32) :
    byteOf (field.extractLsb' 0 m ++ tdata.extractLsb' 0 l) i =
      inserted k n tdata field carry i := by
  rw [byteOf_slices (p := 0) (q := 0) field tdata rfl rfl hl (by omega)]
  by_cases h : i < k
  · rw [if_pos h, Nat.zero_add, inserted_before (by omega)]
  · rw [if_neg h, inserted_within (j := 0 + (i - k)) (by omega) (by omega) (by omega)]

/-- **A field that began in the beat before**, with `p` bytes there: so many
are carried, and moved up behind the rest of the field. -/
theorem byteOf_addSplit {l m s t u : ℕ} (p k : ℕ) (hl : l = 8 * p) (ht : t = 8 * p)
    (hs : s = 8 * (4 - p)) (hu : u = 8 * k) (hm : m + (l + u) = 256) (hn : n = p + k) (hp : p ≤ 4)
    (hi : i < 32) :
    byteOf (tdata.extractLsb' 0 m ++ (carry.extractLsb' s l ++ field.extractLsb' t u)) i =
      inserted (-(p : ℤ)) n tdata field carry i := by
  rw [byteOf_append _ _ (k := n) (by omega)]
  by_cases hin : i < n
  · rw [if_pos hin, byteOf_slices carry field hs ht hu (by omega)]
    by_cases hk : i < k
    · rw [if_pos hk, inserted_within (j := p + i) (by omega) (by omega) (by omega)]
    · rw [if_neg hk, inserted_carried (j := 4 - p + (i - k)) (by omega) hin (by omega)]
  · rw [if_neg hin, byteOf_extractLsb' (k := 0) _ rfl (by omega),
      inserted_behind (j := 0 + (i - n)) (by omega) (by omega)]

/-- **A beat behind the field** is moved up by as many bytes. -/
theorem byteOf_addShift {l m s : ℕ} (hl : l = 8 * n) (hs : s = 8 * (4 - n)) (hm : m + l = 256)
    (hn : n ≤ 4) (hr : r ≤ -n) (hi : i < 32) :
    byteOf (tdata.extractLsb' 0 m ++ carry.extractLsb' s l) i =
      inserted r n tdata field carry i := by
  rw [byteOf_slices (p := 0) tdata carry rfl hs hl (by omega)]
  by_cases h : i < n
  · rw [if_pos h, inserted_carried (j := 4 - n + i) (by omega) h (by omega)]
  · rw [if_neg h, inserted_behind (j := 0 + (i - n)) (by omega) (by omega)]

/-- One byte. -/
theorem byteOf_addByte (hindex : 0 ≤ r → r < 32 → (index : ℤ) = r) (hi : i < 32) :
    byteOf (addByte r index tdata field carry) i = inserted r 1 tdata field carry i := by
  unfold addByte
  split_ifs with hbefore hzero hlast hloop
  · rw [inserted_before (by omega)]
  · subst hzero
    exact byteOf_addFirst rfl rfl hi
  · subst hlast
    exact byteOf_addLast 31 rfl rfl (by omega) hi
  · obtain rfl := hindex (by omega) (by omega)
    refine byteOf_addLoop (by decide) (by omega) (by omega) hi (fun k hk => if_pos hk)
      (fun k hk => ?_) fun k hk => ?_
    · obtain rfl : k = 0 := by omega
      simp
    · rw [if_neg (by omega), if_neg (by omega)]
  · exact byteOf_addShift rfl rfl rfl (by omega) (by omega) hi

/-- Two bytes. -/
theorem byteOf_addTwo (hindex : 0 ≤ r → r < 32 → (index : ℤ) = r) (hone : r ≠ 1)
    (hsplit : r ≠ -1) (hi : i < 32) :
    byteOf (addTwo r index tdata field carry) i = inserted r 2 tdata field carry i := by
  unfold addTwo
  split_ifs with hbefore hzero hend hlast hloop
  · rw [inserted_before (by omega)]
  · subst hzero
    exact byteOf_addFirst rfl rfl hi
  · subst hend
    exact byteOf_addLast 30 rfl rfl (by omega) hi
  · subst hlast
    exact byteOf_addLast 31 rfl rfl (by omega) hi
  · obtain rfl := hindex (by omega) (by omega)
    refine byteOf_addLoop (by decide) (by omega) (by omega) hi (fun k hk => if_pos hk)
      (fun k hk => ?_) fun k hk => ?_
    · interval_cases k <;> simp
    · rw [if_neg (by omega), if_neg (by omega), if_neg (by omega)]
  · exact byteOf_addShift rfl rfl rfl (by omega) (by omega) hi

/-- Four bytes, all in one beat but for the last places. -/
theorem byteOf_addFour_loop (hindex : 4 ≤ index ∧ index ≤ 27) (hi : i < 32) :
    byteOf (addFour index index tdata field carry) i = inserted index 4 tdata field carry i := by
  unfold addFour
  rw [if_neg (by omega), if_neg (by omega), if_neg (by omega), if_neg (by omega),
    if_neg (by omega), if_neg (by omega), if_neg (by omega), if_neg (by omega),
    if_neg (by omega), if_pos (by omega)]
  refine byteOf_addLoop (by decide) (by omega) (by omega) hi (fun k hk => if_pos hk)
    (fun k hk => ?_) fun k hk => ?_
  · interval_cases k <;> simp
  · rw [if_neg (by omega), if_neg (by omega), if_neg (by omega), if_neg (by omega),
      if_neg (by omega)]

/-- Four bytes at either end of the beat, or in two beats. -/
theorem byteOf_addFour_ends (hr : r = 0 ∨ 28 ≤ r ∧ r ≤ 31 ∨ -3 ≤ r ∧ r ≤ -1) (hi : i < 32) :
    byteOf (addFour r index tdata field carry) i = inserted r 4 tdata field carry i := by
  have hwhole : field.extractLsb' 0 32 = field := BitVec.extractLsb'_eq_self
  have hcases : r = 0 ∨ r = 28 ∨ r = 29 ∨ r = 30 ∨ r = 31 ∨ r = -1 ∨ r = -2 ∨ r = -3 := by omega
  rcases hcases with rfl | rfl | rfl | rfl | rfl | rfl | rfl | rfl
  · have h : _ = inserted 0 4 tdata field carry i :=
      byteOf_addFirst (l := 32) (m := 224) rfl rfl hi
    rw [hwhole] at h
    exact h
  · have h : _ = inserted 28 4 tdata field carry i :=
      byteOf_addLast (l := 224) (m := 32) 28 rfl rfl (by omega) hi
    rw [hwhole] at h
    exact h
  · exact byteOf_addLast 29 rfl rfl (by omega) hi
  · exact byteOf_addLast 30 rfl rfl (by omega) hi
  · exact byteOf_addLast 31 rfl rfl (by omega) hi
  · exact byteOf_addSplit 1 3 rfl rfl rfl rfl rfl rfl (by omega) hi
  · exact byteOf_addSplit 2 2 rfl rfl rfl rfl rfl rfl (by omega) hi
  · exact byteOf_addSplit 3 1 rfl rfl rfl rfl rfl rfl (by omega) hi

/-- Four bytes. -/
theorem byteOf_addFour (hindex : 0 ≤ r → r < 32 → (index : ℤ) = r) (hplace : r < 1 ∨ 3 < r)
    (hi : i < 32) :
    byteOf (addFour r index tdata field carry) i = inserted r 4 tdata field carry i := by
  rcases lt_or_ge 31 r with hbefore | hle
  · rw [inserted_before (by omega)]
    unfold addFour
    rw [if_pos hbefore]
  rcases le_or_gt r (-4) with hbehind | hgt
  · have hcarry : carry.extractLsb' 0 32 = carry := BitVec.extractLsb'_eq_self
    have h : _ = inserted r 4 tdata field carry i :=
      byteOf_addShift (l := 32) (m := 224) rfl rfl rfl (by omega) hbehind hi
    rw [hcarry] at h
    unfold addFour
    rw [if_neg (by omega), if_neg (by omega), if_neg (by omega), if_neg (by omega),
      if_neg (by omega), if_neg (by omega), if_neg (by omega), if_neg (by omega),
      if_neg (by omega), if_neg (by omega)]
    exact h
  by_cases hloop : 4 ≤ r ∧ r ≤ 27
  · obtain rfl := hindex (by omega) (by omega)
    exact byteOf_addFour_loop (by omega) hi
  · exact byteOf_addFour_ends (by omega) hi

/-- **A place that a branch is right about** has the field in it, and every
other byte in its order. -/
theorem byteOf_addData (hplace : Inserts (sizeBytes size) r)
    (hindex : 0 ≤ r → r < 32 → (index : ℤ) = r) (hi : i < 32) :
    byteOf (addData size r index tdata field carry) i =
      inserted r (sizeBytes size) tdata field carry i := by
  unfold Inserts at hplace
  rcases sizeBytes_cases size with ⟨rfl, hn⟩ | ⟨rfl, hn⟩ | ⟨rfl, hn⟩ | ⟨rfl, hn⟩ <;>
    rw [hn] at hplace ⊢
  · exact byteOf_addByte hindex hi
  · exact byteOf_addTwo hindex (by omega) (by omega) hi
  · exact byteOf_addFour hindex (by omega) hi
  · omega

end Hw

end FlowBlaze

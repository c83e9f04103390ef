import FlowBlaze.Sw.FlowIdentity
/-!
# The two directions of a flow — `biflow`

A bidirectional key is one of pairs of fields, a source and a
destination in each, and putting every pair in order is to give both
directions of a flow one key. Each pair is put in order on its own, so
packets get one key also where only some of the pairs are exchanged.
-/

namespace FlowBlaze

namespace Sw

open FlowKey

section Directions

variable (lookupKey : LookupKey) (M₁ M₂ : Mem) (fields₁ fields₂ : PktFields)

/-- A field of the first packet has the value of a field of the second. -/
def AgreeAt (i j : ℕ) : Prop :=
  ∃ v, readsOf M₁ fields₁ lookupKey i = some v ∧ readsOf M₂ fields₂ lookupKey j = some v

/-- A pair of fields is the same in both packets. -/
def PairSame (pair : ℕ) : Prop :=
  AgreeAt lookupKey M₁ M₂ fields₁ fields₂ (2 * pair) (2 * pair) ∧
    AgreeAt lookupKey M₁ M₂ fields₁ fields₂ (2 * pair + 1) (2 * pair + 1)

/-- The two fields of a pair are exchanged. -/
def PairExchanged (pair : ℕ) : Prop :=
  AgreeAt lookupKey M₁ M₂ fields₁ fields₂ (2 * pair) (2 * pair + 1) ∧
    AgreeAt lookupKey M₁ M₂ fields₁ fields₂ (2 * pair + 1) (2 * pair)

/-- **One key for the two directions and nothing else**: the packets get the
same key if they agree on all fields, or one is the other with the fields
of every pair exchanged. -/
def IdentifiesDirections (key : FlowKey) : Prop :=
  ∃ key₁ key₂, keyExtract M₁ fields₁ lookupKey key = some key₁ ∧
    keyExtract M₂ fields₂ lookupKey key = some key₂ ∧
    (key₁ = key₂ ↔
      (∀ i < lookupKey.size, AgreeAt lookupKey M₁ M₂ fields₁ fields₂ i i) ∨
        ∀ pair < lookupKey.biflowNo, PairExchanged lookupKey M₁ M₂ fields₁ fields₂ pair)

/-- **Only some of the pairs are exchanged**: each pair is the same or
exchanged, and there is one that is not the same, and one that is not
exchanged. -/
structure Mixed : Prop where
  pairs : ∀ pair < lookupKey.biflowNo, PairSame lookupKey M₁ M₂ fields₁ fields₂ pair ∨
    PairExchanged lookupKey M₁ M₂ fields₁ fields₂ pair
  notSame : ∃ pair < lookupKey.biflowNo, ¬PairSame lookupKey M₁ M₂ fields₁ fields₂ pair
  notExchanged : ∃ pair < lookupKey.biflowNo, ¬PairExchanged lookupKey M₁ M₂ fields₁ fields₂ pair

variable {lookupKey M₁ M₂ fields₁ fields₂}

/-- The fields of all pairs are all the fields. -/
theorem same_iff_pairs (hsize : lookupKey.size = 2 * lookupKey.biflowNo) :
    (∀ i < lookupKey.size, AgreeAt lookupKey M₁ M₂ fields₁ fields₂ i i) ↔
      ∀ pair < lookupKey.biflowNo, PairSame lookupKey M₁ M₂ fields₁ fields₂ pair := by
  constructor
  · exact fun h pair hpair => ⟨h _ (by omega), h _ (by omega)⟩
  · intro h i hi
    obtain ⟨hfirst, hsecond⟩ := h (i / 2) (by omega)
    rcases Nat.mod_two_eq_zero_or_one i with heven | hodd
    · rwa [show 2 * (i / 2) = i by omega] at hfirst
    · rwa [show 2 * (i / 2) + 1 = i by omega] at hsecond

variable {M : Mem} {fields : PktFields} {key : FlowKey} {n : ℕ}

/-- The value of a short field of a packet. -/
theorem reads_of_present (hroom : n ≤ lookupKeySize)
    (hlen : ∀ i : Fin lookupKeySize, i.val < n → (lookupKey.fld i).len ≤ 4)
    (hpresent : ∀ i : Fin lookupKeySize, i.val < n → Present M fields (lookupKey.fld i)) :
    ∀ i < n, ∃ v, readsOf M fields lookupKey i = some v ∧ v.toNat < 2 ^ 32 := by
  intro i hi
  obtain ⟨v, hv, hlt⟩ := getHdrValue_of_present (hpresent ⟨i, hi.trans_le hroom⟩ hi)
    (hlen ⟨i, hi.trans_le hroom⟩ hi)
  exact ⟨v, readsOf_eq (i := ⟨i, hi.trans_le hroom⟩) hv, hlt⟩

/-- A word of such a field holds its value. -/
theorem written_of_lt {reads : ℕ → Option Word64} {v : Word64} {w : Fin 8} (hw : w.val < n)
    (h : reads w = some v) : written (firstReads reads n) key w = lowerHalf v := by
  unfold written
  rw [wordOf_of_lt hw h]
  rfl

/-- The words past the fields: the first is cleared, the others are left. -/
theorem written_of_ge {reads : ℕ → Option Word64} {w : Fin 8} (hw : n ≤ w.val) (hn : 0 < n)
    (h : ∀ i < n, ∃ v, reads i = some v ∧ v.toNat < 2 ^ 32) :
    written (firstReads reads n) key w = if w.val = n then 0 else key w := by
  unfold written
  by_cases heq : w.val = n
  · obtain ⟨m, rfl⟩ := Nat.exists_eq_succ_of_ne_zero (Nat.ne_of_gt hn)
    obtain ⟨v, hv, hlt⟩ := h m (Nat.lt_succ_self m)
    rw [heq, wordOf_self hv, if_pos rfl]
    exact upperHalf_eq_zero hlt
  · rw [wordOf_of_gt (by omega), if_neg heq]
    rfl

/-- Words are the same when the values are. -/
theorem agreeAt_iff {reads reads' : ℕ → Option Word64} {i j : Fin 8}
    (h : ∀ i < n, ∃ v, reads i = some v ∧ v.toNat < 2 ^ 32)
    (h' : ∀ i < n, ∃ v, reads' i = some v ∧ v.toNat < 2 ^ 32) (hi : i.val < n) (hj : j.val < n) :
    written (firstReads reads n) key i = written (firstReads reads' n) key j ↔
      ∃ v, reads i = some v ∧ reads' j = some v := by
  obtain ⟨v, hv, hlt⟩ := h i hi
  obtain ⟨v', hv', hlt'⟩ := h' j hj
  rw [written_of_lt hi hv, written_of_lt hj hv']
  constructor
  · intro heq
    exact ⟨v, hv, by rw [hv', lowerHalf_inj hlt hlt' heq]⟩
  · rintro ⟨u, hu, hu'⟩
    rw [hv] at hu
    rw [hv'] at hu'
    cases hu
    cases hu'
    rfl

/-- **Pairs decide**: two packets have one key if each pair is the same or
exchanged. -/
theorem ordered_written_iff (hsize : lookupKey.size = 2 * lookupKey.biflowNo)
    (hpos : 0 < lookupKey.biflowNo) (hroom : lookupKey.biflowNo ≤ 3)
    (h₁ : ∀ i < lookupKey.size, ∃ v, readsOf M₁ fields₁ lookupKey i = some v ∧ v.toNat < 2 ^ 32)
    (h₂ : ∀ i < lookupKey.size, ∃ v, readsOf M₂ fields₂ lookupKey i = some v ∧
      v.toNat < 2 ^ 32) :
    ordered lookupKey.biflowNo
        (written (firstReads (readsOf M₁ fields₁ lookupKey) lookupKey.size) key) =
      ordered lookupKey.biflowNo
        (written (firstReads (readsOf M₂ fields₂ lookupKey) lookupKey.size) key) ↔
      ∀ pair < lookupKey.biflowNo, PairSame lookupKey M₁ M₂ fields₁ fields₂ pair ∨
        PairExchanged lookupKey M₁ M₂ fields₁ fields₂ pair := by
  rw [ordered_eq_iff]
  constructor
  · rintro ⟨-, hpairs⟩ pair hpair
    have hcase := hpairs ⟨2 * pair, by omega⟩ ⟨2 * pair + 1, by omega⟩ (by simp only; omega)
      (by simp only; omega) rfl
    rwa [agreeAt_iff h₁ h₂ (by simp only; omega) (by simp only; omega),
      agreeAt_iff h₁ h₂ (by simp only; omega) (by simp only; omega),
      agreeAt_iff h₁ h₂ (by simp only; omega) (by simp only; omega),
      agreeAt_iff h₁ h₂ (by simp only; omega) (by simp only; omega)] at hcase
  · intro hpairs
    refine ⟨fun w hw => ?_, fun i j hi heven hj => ?_⟩
    · rw [written_of_ge (by omega) (by omega) h₁, written_of_ge (by omega) (by omega) h₂]
    · have hcase := hpairs (i.val / 2) hi
      unfold PairSame PairExchanged AgreeAt at hcase
      rw [show 2 * (i.val / 2) = i.val by omega, show i.val + 1 = j.val by omega] at hcase
      rwa [agreeAt_iff h₁ h₂ (by omega) (by omega), agreeAt_iff h₁ h₂ (by omega) (by omega),
        agreeAt_iff h₁ h₂ (by omega) (by omega), agreeAt_iff h₁ h₂ (by omega) (by omega)]

/-- **When the keys of two packets identify the directions.** -/
theorem identifiesDirections_iff (hsize : lookupKey.size = 2 * lookupKey.biflowNo)
    (hpos : 1 ≤ lookupKey.biflowNo) (hroom : lookupKey.size ≤ 8)
    (hlen : ∀ i : Fin lookupKeySize, i.val < lookupKey.size → (lookupKey.fld i).len ≤ 4)
    (hpresent₁ : AllPresent lookupKey M₁ fields₁) (hpresent₂ : AllPresent lookupKey M₂ fields₂)
    (key : FlowKey) :
    IdentifiesDirections lookupKey M₁ M₂ fields₁ fields₂ key ↔
      lookupKey.biflowNo ≤ 3 ∧ ¬Mixed lookupKey M₁ M₂ fields₁ fields₂ := by
  have hreads₁ := reads_of_present hroom hlen hpresent₁
  have hreads₂ := reads_of_present hroom hlen hpresent₂
  have hvalues : ∀ {M : Mem} {fields : PktFields}, AllPresent lookupKey M fields →
      ∀ i : Fin lookupKeySize, i.val < lookupKey.size →
        ∃ v, getHdrValue M fields (lookupKey.fld i) = some (some v) := by
    intro M fields hpresent i hi
    obtain ⟨v, hv, -⟩ := getHdrValue_of_present (hpresent i hi) (hlen i hi)
    exact ⟨v, hv⟩
  unfold IdentifiesDirections
  by_cases hthree : lookupKey.biflowNo ≤ 3
  · rw [keyExtract_of_values (by omega) (by omega) (hvalues hpresent₁),
      keyExtract_of_values (by omega) (by omega) (hvalues hpresent₂)]
    have hkeys := @ordered_written_iff _ _ _ _ _ key hsize hpos hthree hreads₁ hreads₂
    constructor
    · rintro ⟨_, _, hkey₁, hkey₂, hiff⟩
      cases hkey₁
      cases hkey₂
      refine ⟨hthree, fun hmixed => ?_⟩
      rw [hkeys, same_iff_pairs hsize] at hiff
      obtain ⟨pair, hpair, hsame⟩ := hmixed.notSame
      obtain ⟨pair', hpair', hexchanged⟩ := hmixed.notExchanged
      rcases hiff.mp hmixed.pairs with hall | hall
      · exact hsame (hall pair hpair)
      · exact hexchanged (hall pair' hpair')
    · rintro ⟨-, hmixed⟩
      refine ⟨_, _, rfl, rfl, ?_⟩
      rw [hkeys, same_iff_pairs hsize]
      constructor
      · intro hpairs
        by_contra hneither
        rw [not_or] at hneither
        obtain ⟨hsame, hexchanged⟩ := hneither
        simp only [not_forall] at hsame hexchanged
        obtain ⟨pair, hpair, hsame⟩ := hsame
        obtain ⟨pair', hpair', hexchanged⟩ := hexchanged
        exact hmixed ⟨hpairs, ⟨pair, hpair, hsame⟩, pair', hpair', hexchanged⟩
      · rintro (hall | hall) pair hpair
        · exact .inl (hall pair hpair)
        · exact .inr (hall pair hpair)
  · -- the last of eight fields is stored past the key
    refine iff_of_false ?_ fun h => hthree h.1
    rintro ⟨key₁, -, hkey, -⟩
    have hfull : lookupKey.size = lookupKeySize := by
      unfold lookupKeySize
      omega
    have hnull := (keyExtract_eq_some_iff.mp hkey).1.room hfull
    obtain ⟨ptr, hptr, -⟩ := hpresent₁ 7 (by rw [hfull]; decide)
    rw [hnull] at hptr
    cases hptr

end Directions

/-! ## Two packets -/

/-- A key of both addresses and both ports of a segment, as two pairs. -/
def connectionKey : LookupKey :=
  ⟨4, fun i => [.ipv4Src, .ipv4Dst, .tcpSport, .tcpDport].getD i.val .ipv4Src, 2⟩

/-- A key of both addresses, as one pair. -/
def hostsKey : LookupKey := ⟨2, fun i => if i.val = 0 then .ipv4Src else .ipv4Dst, 1⟩

/-- A TCP segment between two hosts, from one port to another. -/
def segment (src dst sport dport : Byte) : Mem :=
  ⟨1, ⟨0, ⟨List.replicate 12 0 ++
    [8, 0, 0x45, 0, 0, 40, 0, 0, 0, 0, 64, ipprotoTcp, 0, 0, 10, 0, 0, src, 10, 0, 0, dst, 0,
      sport, 0, dport] ++ List.replicate 16 0, 0, 0⟩⟩⟩

/-- The header pointers of a segment. -/
def segmentFields (src dst sport dport : Byte) : PktFields :=
  (segment src dst sport dport).packet.overlay .null .tcp

/-- Two hosts have one key for both directions. -/
theorem identifiesDirections_hosts :
    IdentifiesDirections hostsKey (segment 1 2 3 4) (segment 2 1 4 3) (segmentFields 1 2 3 4)
      (segmentFields 2 1 4 3) fun _ => 0 := by
  have hfirst : ∀ i : Fin lookupKeySize, i.val < hostsKey.size → i = 0 ∨ i = 1 := by decide
  refine (identifiesDirections_iff rfl (by decide) (by decide) (by decide) (fun i hi => ?_)
    (fun i hi => ?_) _).mpr ⟨by decide, fun hmixed => ?_⟩
  · rcases hfirst i hi with rfl | rfl
    · exact ⟨.data 0 26, rfl, by decide⟩
    · exact ⟨.data 0 30, rfl, by decide⟩
  · rcases hfirst i hi with rfl | rfl
    · exact ⟨.data 0 26, rfl, by decide⟩
    · exact ⟨.data 0 30, rfl, by decide⟩
  · obtain ⟨pair, hpair, hsame⟩ := hmixed.notSame
    obtain ⟨pair', hpair', hexchanged⟩ := hmixed.notExchanged
    obtain rfl : pair = 0 := Nat.lt_one_iff.mp hpair
    obtain rfl : pair' = 0 := Nat.lt_one_iff.mp hpair'
    exact (hmixed.pairs 0 (by decide)).elim hsame hexchanged

/-- **One key for packets of two connections**: only the addresses are
exchanged. -/
theorem not_identifiesDirections :
    ¬IdentifiesDirections connectionKey (segment 1 2 3 4) (segment 2 1 3 4)
      (segmentFields 1 2 3 4) (segmentFields 2 1 3 4) fun _ => 0 := by
  rintro ⟨key₁, key₂, hkey₁, hkey₂, hiff⟩
  have hsame : keyExtract (segment 1 2 3 4) (segmentFields 1 2 3 4) connectionKey (fun _ => 0) =
      keyExtract (segment 2 1 3 4) (segmentFields 2 1 3 4) connectionKey (fun _ => 0) := by
    decide +kernel
  rw [hsame, hkey₂] at hkey₁
  rcases hiff.mp (Option.some.inj hkey₁).symm with hagree | hexchanged
  · obtain ⟨v, hv, hv'⟩ := hagree 0 (by decide)
    rw [← hv'] at hv
    revert hv
    decide +kernel
  · obtain ⟨v, hv, hv'⟩ := (hexchanged 1 (by decide)).1
    rw [← hv'] at hv
    revert hv
    decide +kernel

end Sw

end FlowBlaze

import FlowBlaze.Sw.FlowKey
/-!
# Which packets have one key

A flow is the packets with one key, so the key is to hold all of its
fields. Each is stored as 64 bits at a step of 32, and the upper half of
a field is overwritten by the field behind it. That loses nothing of a
field of four bytes or less, and the upper half of a timestamp unless
the last field is a timestamp too. An Ethernet address has no value at
all.
-/

namespace FlowBlaze

namespace Sw

open FlowKey

/-- A packet that has come in after others, with the header pointers that
the parser then leaves. -/
def Arrives (M : Mem) (fields : PktFields) : Prop :=
  ∃ ps, M.packet.number = List.length ps ∧
    parseRun (ps ++ [(M.inPort, M.packet.mbuf)]) = some fields

/-- A field is present: it has a pointer, and its bytes are there. -/
def Present (M : Mem) (fields : PktFields) (f : HdrField) : Prop :=
  ∃ ptr, fields f = some ptr ∧ ∀ i < f.len, (M.byte ptr i).isSome = true

/-- All the fields of a key are present. -/
def AllPresent (lookupKey : LookupKey) (M : Mem) (fields : PktFields) : Prop :=
  ∀ i : Fin lookupKeySize, i.val < lookupKey.size → Present M fields (lookupKey.fld i)

/-- A field has one value in two packets. -/
def SameValue (f : HdrField) (M₁ M₂ : Mem) (fields₁ fields₂ : PktFields) : Prop :=
  ∃ v, getHdrValue M₁ fields₁ f = some (some v) ∧ getHdrValue M₂ fields₂ f = some (some v)

/-- **Different flows have different keys.** -/
def KeysDistinguish (lookupKey : LookupKey) : Prop :=
  ∀ M₁ fields₁ M₂ fields₂, Arrives M₁ fields₁ → Arrives M₂ fields₂ →
    AllPresent lookupKey M₁ fields₁ → AllPresent lookupKey M₂ fields₂ →
      ∃ key₁ key₂, keyExtract M₁ fields₁ lookupKey (fun _ => 0) = some key₁ ∧
        keyExtract M₂ fields₂ lookupKey (fun _ => 0) = some key₂ ∧
        (key₁ = key₂ → ∀ i : Fin lookupKeySize, i.val < lookupKey.size →
          SameValue (lookupKey.fld i) M₁ M₂ fields₁ fields₂)

/-- **A field that the key keeps**: one of four bytes or less, or the
timestamp, if that is the last field as well. -/
def LookupKey.Keeps (lookupKey : LookupKey) (i : Fin lookupKeySize) : Prop :=
  (lookupKey.fld i).len ≤ 4 ∨ lookupKey.fld i = .xfsmTimestamp ∧
    ∀ j : Fin lookupKeySize, j.val + 1 = lookupKey.size → lookupKey.fld j = .xfsmTimestamp

/-! ## The words of a key -/

section Words

variable {reads reads' : ℕ → Option Word64} {vals vals' : ℕ → Word64} {n w : ℕ} {v v' : Word64}

theorem lowerHalf_inj (hv : v.toNat < 2 ^ 32) (hv' : v'.toNat < 2 ^ 32)
    (h : lowerHalf v = lowerHalf v') : v = v' := by
  have hval := congrArg BitVec.toNat h
  unfold lowerHalf at hval
  rw [BitVec.toNat_setWidth, BitVec.toNat_setWidth, Nat.mod_eq_of_lt hv, Nat.mod_eq_of_lt hv']
    at hval
  exact BitVec.eq_of_toNat_eq hval

/-- Two halves make a word. -/
theorem eq_of_halves (hlower : lowerHalf v = lowerHalf v') (hupper : upperHalf v = upperHalf v') :
    v = v' := by
  have hlow := congrArg BitVec.toNat hlower
  have hup := congrArg BitVec.toNat hupper
  unfold lowerHalf at hlow
  unfold upperHalf at hup
  simp only [BitVec.toNat_setWidth, BitVec.toNat_ushiftRight, Nat.shiftRight_eq_div_pow]
    at hlow hup
  refine BitVec.eq_of_toNat_eq ?_
  have hv := v.isLt
  have hv' := v'.isLt
  omega

/-- A field of four bytes has no upper half. -/
theorem upperHalf_eq_zero (hv : v.toNat < 2 ^ 32) : upperHalf v = 0 := by
  refine BitVec.eq_of_toNat_eq ?_
  unfold upperHalf
  rw [BitVec.toNat_setWidth, BitVec.toNat_ushiftRight, Nat.shiftRight_eq_div_pow,
    Nat.div_eq_of_lt hv]
  rfl

theorem wordOf_of_lt (hw : w < n) (h : reads w = some v) :
    wordOf (firstReads reads n) w = some (lowerHalf v) := by
  have hread : firstReads reads n w = some v := (if_pos hw).trans h
  cases w with
  | zero => exact congrArg (Option.map lowerHalf) hread
  | succ w =>
    simp only [wordOf, hread]
    rfl

theorem wordOf_self (h : reads n = some v) :
    wordOf (firstReads reads (n + 1)) (n + 1) = some (upperHalf v) := by
  have hread : firstReads reads (n + 1) n = some v := (if_pos (Nat.lt_succ_self n)).trans h
  have hpast : firstReads reads (n + 1) (n + 1) = none := if_neg (Nat.lt_irrefl _)
  simp only [wordOf, hread, hpast]
  rfl

theorem wordOf_of_gt (hw : n < w) : wordOf (firstReads reads n) w = none := by
  cases w with
  | zero => exact absurd hw (Nat.not_lt_zero n)
  | succ w =>
    have hpast : firstReads reads n (w + 1) = none := if_neg (by omega)
    have hlast : firstReads reads n w = none := if_neg (by omega)
    simp only [wordOf, hpast, hlast]
    rfl

/-- **When two packets leave the same words**: the lower halves of all
fields and the upper half of the last are the same. -/
theorem written_eq_iff {key : FlowKey} (hn : n ≤ 7) (h : ∀ i < n, reads i = some (vals i))
    (h' : ∀ i < n, reads' i = some (vals' i)) :
    written (firstReads reads n) key = written (firstReads reads' n) key ↔
      (∀ i < n, lowerHalf (vals i) = lowerHalf (vals' i)) ∧
        ∀ i, i + 1 = n → upperHalf (vals i) = upperHalf (vals' i) := by
  constructor
  · intro heq
    refine ⟨fun i hi => ?_, fun i hi => ?_⟩
    · have hword := congrFun heq ⟨i, by omega⟩
      unfold written at hword
      rwa [wordOf_of_lt hi (h i hi), wordOf_of_lt hi (h' i hi)] at hword
    · subst hi
      have hword := congrFun heq ⟨i + 1, by omega⟩
      unfold written at hword
      rwa [wordOf_self (h i (Nat.lt_succ_self i)), wordOf_self (h' i (Nat.lt_succ_self i))]
        at hword
  · rintro ⟨hlower, hupper⟩
    funext w
    unfold written
    refine congrArg (fun x => Option.getD x (key w)) ?_
    rcases Nat.lt_trichotomy w.val n with hlt | heq | hgt
    · rw [wordOf_of_lt hlt (h _ hlt), wordOf_of_lt hlt (h' _ hlt), hlower _ hlt]
    · rw [heq]
      cases n with
      | zero => rfl
      | succ i =>
        rw [wordOf_self (h i (Nat.lt_succ_self i)), wordOf_self (h' i (Nat.lt_succ_self i)),
          hupper i rfl]
    · rw [wordOf_of_gt hgt, wordOf_of_gt hgt]

end Words

/-! ## Present fields -/

section Present

variable {M : Mem} {fields : PktFields} {f : HdrField} {ptr : Ptr} {v : Word64}

/-- What is known of the pointers when a packet arrives. -/
theorem overlay_of_arrives (h : Arrives M fields) : ∃ before b, M.packet.branch = some b ∧
    fields = M.packet.overlay before b ∧
    ∀ f ptr, before f = some ptr → f = .xfsmInPort ∨ ptr.Before M.packet.number := by
  obtain ⟨ps, hnumber, hrun⟩ := h
  rw [parseRun_snoc, ← hnumber] at hrun
  obtain ⟨before, hbefore, hrun⟩ := Option.bind_eq_some_iff.mp hrun
  obtain ⟨b, hb, rfl⟩ := Option.map_eq_some_iff.mp hrun
  refine ⟨before, b, hb, rfl, fun f ptr hptr => ?_⟩
  rw [hnumber]
  exact before_of_parseRun hbefore hptr

theorem len_pos (f : HdrField) : 0 < f.len := by
  cases f <;> decide

/-- **The pointer of a present field** was set for this packet. -/
theorem assigned_of_present (h : Arrives M fields) (hf : Present M fields f) :
    ∃ b ptr, M.packet.assigned b f = some (some ptr) ∧ fields f = some ptr := by
  obtain ⟨before, b, -, rfl, hold⟩ := overlay_of_arrives h
  obtain ⟨ptr, hptr, hbytes⟩ := hf
  cases hassigned : M.packet.assigned b f with
  | none =>
    -- a pointer left behind reads nothing
    have hleft : before f = some ptr := by
      unfold Packet.overlay at hptr
      rwa [hassigned] at hptr
    have hbyte := hbytes 0 (len_pos f)
    rcases hold f ptr hleft with rfl | hbefore
    · cases hassigned
    · have hstale : M.byte ptr 0 = none := by
        cases ptr with
        | inPort => exact hbefore.elim
        | data packet off => exact if_neg (Nat.ne_of_lt hbefore)
        | userdata packet off => exact if_neg fun h => Nat.ne_of_lt hbefore h.1
        | timestamp packet => exact if_neg fun h => Nat.ne_of_lt hbefore h.1
      rw [hstale] at hbyte
      cases hbyte
  | some value =>
    have hvalue : value = some ptr := by
      unfold Packet.overlay at hptr
      rwa [hassigned] at hptr
    exact ⟨b, ptr, hassigned.trans (congrArg some hvalue), hptr⟩

/-- The value of a present field. -/
theorem getHdrValue_of_present (hf : Present M fields f) (hlen : f.len ≤ 4) :
    ∃ v, getHdrValue M fields f = some (some v) ∧ v.toNat < 2 ^ 32 := by
  obtain ⟨ptr, hptr, hbytes⟩ := hf
  obtain ⟨n, hn⟩ := Option.isSome_iff_exists.mp (bigEndian_isSome_iff.mpr hbytes)
  have hread := (@toNat_readField M _ ptr hlen).trans hn
  obtain ⟨v, hv, hnat⟩ := Option.map_eq_some_iff.mp hread
  refine ⟨v, ?_, ?_⟩
  · unfold getHdrValue
    rw [hptr]
    exact congrArg (Option.map some) hv
  · rw [hnat]
    exact (bigEndian_lt hn).trans_le (Nat.pow_le_pow_right (by decide) hlen)

theorem getHdrValue_timestamp (h : Arrives M fields) :
    getHdrValue M fields .xfsmTimestamp = some (some M.packet.mbuf.timestamp) := by
  obtain ⟨before, b, -, rfl, -⟩ := overlay_of_arrives h
  exact congrArg (Option.map some) (readField_timestamp M)

/-- Only the timestamp is longer than an Ethernet address. -/
theorem eq_timestamp_of_len (h : ¬f.len ≤ 4) (hmac : f.len ≠ 6) : f = .xfsmTimestamp := by
  cases f <;> first | rfl | exact absurd (by decide) h | exact absurd rfl hmac

/-- The values of the fields of a key, where they have some. -/
def valueOf (M : Mem) (fields : PktFields) (lookupKey : LookupKey) (i : ℕ) : Word64 :=
  (readsOf M fields lookupKey i).getD 0

variable {lookupKey : LookupKey} {n : ℕ}

theorem readsOf_eq {i : Fin lookupKeySize}
    (h : getHdrValue M fields (lookupKey.fld i) = some (some v)) :
    readsOf M fields lookupKey i = some v := by
  unfold readsOf
  rw [dif_pos i.isLt, h]
  rfl

theorem valueOf_eq {i : Fin lookupKeySize}
    (h : getHdrValue M fields (lookupKey.fld i) = some (some v)) :
    valueOf M fields lookupKey i = v := by
  unfold valueOf
  rw [readsOf_eq h]
  rfl

/-- **The key of a packet with all the fields**, in a buffer of zeros or
any other: each field has a value, and they are stored. -/
theorem keyExtract_of_values {key : FlowKey} (hsize : lookupKey.size ≤ 7)
    (hpairs : 2 * lookupKey.biflowNo ≤ 8)
    (h : ∀ i : Fin lookupKeySize, i.val < lookupKey.size →
      ∃ v, getHdrValue M fields (lookupKey.fld i) = some (some v)) :
    keyExtract M fields lookupKey key = some (ordered lookupKey.biflowNo
      (written (firstReads (readsOf M fields lookupKey) lookupKey.size) key)) := by
  refine keyExtract_eq_some_iff.mpr ⟨⟨by unfold lookupKeySize; omega, fun i hi => ?_, ?_⟩,
    hpairs, rfl⟩
  · obtain ⟨v, hv⟩ := h i hi
    rw [hv]
    rfl
  · intro hfull
    unfold lookupKeySize at hfull
    omega

theorem readsOf_of_values
    (h : ∀ i : Fin lookupKeySize, i.val < n →
      ∃ v, getHdrValue M fields (lookupKey.fld i) = some (some v)) (hn : n ≤ lookupKeySize) :
    ∀ i < n, readsOf M fields lookupKey i = some (valueOf M fields lookupKey i) := by
  intro i hi
  obtain ⟨v, hv⟩ := h ⟨i, hi.trans_le hn⟩ hi
  have hread : readsOf M fields lookupKey i = some v := readsOf_eq (i := ⟨i, hi.trans_le hn⟩) hv
  unfold valueOf
  rw [hread]
  rfl

end Present

/-! ## Another time -/

section Retime

variable {M : Mem} {fields : PktFields} {f : HdrField} {ptr : Ptr} {b : Branch}

/-- The same packet with another timestamp. -/
def Mem.retime (M : Mem) (t : Word64) : Mem :=
  { M with packet := { M.packet with mbuf.timestamp := t } }

/-- **It parses as before**: the parser does not look at the time. -/
theorem arrives_retime (t : Word64) (h : Arrives M fields) : Arrives (M.retime t) fields := by
  obtain ⟨ps, hnumber, hrun⟩ := h
  refine ⟨ps, hnumber, ?_⟩
  rw [parseRun_snoc] at hrun ⊢
  exact hrun

theorem byte_retime (t : Word64) (hptr : ∀ n, ptr ≠ .timestamp n) :
    (M.retime t).byte ptr = M.byte ptr := by
  cases ptr with
  | timestamp n => exact absurd rfl (hptr n)
  | _ => rfl

theorem present_retime (t : Word64) (h : Present M fields f) : Present (M.retime t) fields f := by
  obtain ⟨ptr, hptr, hbytes⟩ := h
  refine ⟨ptr, hptr, fun i hi => ?_⟩
  have hbyte := hbytes i hi
  cases ptr with
  | timestamp n =>
    unfold Mem.byte at hbyte ⊢
    simp only at hbyte ⊢
    by_cases hin : n = M.packet.number ∧ i < 8
    · exact congrArg Option.isSome (if_pos hin)
    · rw [if_neg hin] at hbyte
      cases hbyte
  | _ => exact hbyte

/-- Only the timestamp's own pointer leads there. -/
theorem ne_timestamp_of_assigned (h : M.packet.assigned b f = some (some ptr))
    (hf : f ≠ .xfsmTimestamp) (n : ℕ) : ptr ≠ .timestamp n := by
  rintro rfl
  by_cases hopt : f.optional = true
  · rw [assigned_eq hopt] at h
    obtain ⟨off, -, h⟩ := Option.map_eq_some_iff.mp h
    obtain ⟨n, -, h⟩ := Option.map_eq_some_iff.mp h
    cases h
  · cases f with
    | xfsmTimestamp => exact hf rfl
    | xfsmMetadata0 | xfsmMetadata1 =>
      unfold Packet.assigned at h
      simp only [Option.some.injEq] at h
      split at h <;> cases h
    | xfsmInPort | srcMac | dstMac | ethType | ipv4Dst | ipv4Src | ipv4Proto | ipv4Tos => cases h
    | _ => exact hopt rfl

/-- The other fields keep their values. -/
theorem getHdrValue_retime (t : Word64) (h : Arrives M fields) (hpresent : Present M fields f)
    (hf : f ≠ .xfsmTimestamp) :
    getHdrValue (M.retime t) fields f = getHdrValue M fields f := by
  obtain ⟨b, ptr, hassigned, hptr⟩ := assigned_of_present h hpresent
  unfold getHdrValue
  rw [hptr]
  simp only
  unfold readField
  rw [byte_retime t (ne_timestamp_of_assigned hassigned hf)]

end Retime

/-! ## Where keys tell flows apart -/

section Distinguish

variable {lookupKey : LookupKey} {M : Mem} {fields : PktFields}

/-- A bit of the upper half of a word, the other way. -/
def flipUpper (t : Word64) : Word64 := t ^^^ 1 <<< 32

theorem lowerHalf_flipUpper (t : Word64) : lowerHalf (flipUpper t) = lowerHalf t := by
  unfold lowerHalf flipUpper
  have hzero : BitVec.setWidth 32 (1 <<< 32 : Word64) = 0 := by decide
  rw [BitVec.setWidth_xor, hzero]
  exact BitVec.xor_zero

theorem flipUpper_ne (t : Word64) : flipUpper t ≠ t := by
  intro h
  have hzero := congrArg (t ^^^ ·) h
  unfold flipUpper at hzero
  simp only [← BitVec.xor_assoc, BitVec.xor_self, BitVec.zero_xor] at hzero
  exact absurd hzero (by decide)

/-- No field of the key is an Ethernet address. -/
def LookupKey.Short (lookupKey : LookupKey) : Prop :=
  ∀ i : Fin lookupKeySize, i.val < lookupKey.size →
    (lookupKey.fld i).len ≤ 4 ∨ lookupKey.fld i = .xfsmTimestamp

/-- Then all its fields have values, in a packet that has them. -/
theorem getHdrValue_of_short (hshort : lookupKey.Short) (h : Arrives M fields)
    (hpresent : AllPresent lookupKey M fields) (i : Fin lookupKeySize)
    (hi : i.val < lookupKey.size) :
    ∃ v, getHdrValue M fields (lookupKey.fld i) = some (some v) := by
  rcases hshort i hi with hlen | htime
  · obtain ⟨v, hv, -⟩ := getHdrValue_of_present (hpresent i hi) hlen
    exact ⟨v, hv⟩
  · rw [htime]
    exact ⟨_, getHdrValue_timestamp h⟩

/-- **A key that keeps its fields tells flows apart.** -/
theorem keysDistinguish_of_keeps (hsize : lookupKey.size ≤ 7) (hbiflow : lookupKey.biflowNo = 0)
    (hkeeps : ∀ i : Fin lookupKeySize, i.val < lookupKey.size → lookupKey.Keeps i) :
    KeysDistinguish lookupKey := by
  intro M₁ fields₁ M₂ fields₂ h₁ h₂ hpresent₁ hpresent₂
  have hshort : lookupKey.Short := fun i hi => (hkeeps i hi).imp_right And.left
  have hvalues₁ := getHdrValue_of_short hshort h₁ hpresent₁
  have hvalues₂ := getHdrValue_of_short hshort h₂ hpresent₂
  have hpairs : 2 * lookupKey.biflowNo ≤ 8 := by omega
  have hroom : lookupKey.size ≤ lookupKeySize := Nat.le_succ_of_le hsize
  refine ⟨_, _, keyExtract_of_values hsize hpairs hvalues₁,
    keyExtract_of_values hsize hpairs hvalues₂, fun heq i hi => ?_⟩
  rw [hbiflow] at heq
  obtain ⟨hlower, hupper⟩ := (written_eq_iff hsize (readsOf_of_values hvalues₁ hroom)
    (readsOf_of_values hvalues₂ hroom)).mp heq
  rcases hkeeps i hi with hlen | ⟨htime, hlast⟩
  · obtain ⟨v₁, hv₁, hlt₁⟩ := getHdrValue_of_present (hpresent₁ i hi) hlen
    obtain ⟨v₂, hv₂, hlt₂⟩ := getHdrValue_of_present (hpresent₂ i hi) hlen
    have hhalf := hlower i hi
    rw [valueOf_eq hv₁, valueOf_eq hv₂] at hhalf
    exact ⟨v₁, hv₁, by rw [hv₂, lowerHalf_inj hlt₁ hlt₂ hhalf]⟩
  · -- the last field is the timestamp, with both halves
    obtain ⟨last, hlastval⟩ : ∃ last : Fin lookupKeySize, last.val + 1 = lookupKey.size :=
      ⟨⟨lookupKey.size - 1, by omega⟩, by simp only; omega⟩
    have htimes : ∀ M fields, Arrives M fields →
        valueOf M fields lookupKey last = M.packet.mbuf.timestamp := by
      intro M fields h
      refine valueOf_eq ?_
      rw [hlast last hlastval]
      exact getHdrValue_timestamp h
    have hlow := hlower last (by omega)
    have hup := hupper last hlastval
    rw [htimes _ _ h₁, htimes _ _ h₂] at hlow hup
    rw [htime]
    exact ⟨_, getHdrValue_timestamp h₁, by
      rw [getHdrValue_timestamp h₂, eq_of_halves hlow hup]⟩

/-- **A timestamp loses its upper half** in a key whose last field is
another: the key is the same at another time. -/
theorem keyExtract_retime (hsize : lookupKey.size ≤ 7) (hpairs : 2 * lookupKey.biflowNo ≤ 8)
    (hshort : lookupKey.Short) (h : Arrives M fields) (hpresent : AllPresent lookupKey M fields)
    (hlast : ∀ j : Fin lookupKeySize, j.val + 1 = lookupKey.size →
      lookupKey.fld j ≠ .xfsmTimestamp) (key : FlowKey) :
    keyExtract (M.retime (flipUpper M.packet.mbuf.timestamp)) fields lookupKey key =
      keyExtract M fields lookupKey key := by
  have h' := arrives_retime (flipUpper M.packet.mbuf.timestamp) h
  have hpresent' : AllPresent lookupKey (M.retime (flipUpper M.packet.mbuf.timestamp)) fields :=
    fun i hi => present_retime _ (hpresent i hi)
  have hvalues := getHdrValue_of_short hshort h hpresent
  have hvalues' := getHdrValue_of_short hshort h' hpresent'
  have hroom : lookupKey.size ≤ lookupKeySize := Nat.le_succ_of_le hsize
  have hother : ∀ i : Fin lookupKeySize, i.val < lookupKey.size →
      lookupKey.fld i ≠ .xfsmTimestamp →
      valueOf (M.retime (flipUpper M.packet.mbuf.timestamp)) fields lookupKey i =
        valueOf M fields lookupKey i := by
    intro i hi htime
    obtain ⟨v, hv⟩ := hvalues i hi
    rw [valueOf_eq hv, valueOf_eq ((getHdrValue_retime _ h (hpresent i hi) htime).trans hv)]
  rw [keyExtract_of_values hsize hpairs hvalues, keyExtract_of_values hsize hpairs hvalues']
  refine congrArg (fun key => some (ordered lookupKey.biflowNo key)) ((written_eq_iff hsize
    (readsOf_of_values hvalues' hroom) (readsOf_of_values hvalues hroom)).mpr
      ⟨fun w hw => ?_, fun w hw => ?_⟩)
  · by_cases htime : lookupKey.fld ⟨w, hw.trans_le hroom⟩ = .xfsmTimestamp
    · have hv := getHdrValue_timestamp h
      have hv' := getHdrValue_timestamp h'
      rw [← htime] at hv hv'
      have heq : lowerHalf (valueOf (M.retime (flipUpper M.packet.mbuf.timestamp)) fields
          lookupKey w) = lowerHalf (flipUpper M.packet.mbuf.timestamp) :=
        congrArg lowerHalf (valueOf_eq (i := ⟨w, hw.trans_le hroom⟩) hv')
      rw [heq, lowerHalf_flipUpper]
      exact congrArg lowerHalf (valueOf_eq (i := ⟨w, hw.trans_le hroom⟩) hv).symm
    · exact congrArg lowerHalf (hother ⟨w, hw.trans_le hroom⟩ hw htime)
  · exact congrArg upperHalf (hother ⟨w, by omega⟩ (by simp only; omega)
      (hlast ⟨w, by omega⟩ hw))

/-- **Only a key that keeps its fields does**, if any packet has them
all. -/
theorem keeps_of_keysDistinguish (hsize : lookupKey.size ≤ 7) (hbiflow : lookupKey.biflowNo = 0)
    (h : KeysDistinguish lookupKey) (harrives : Arrives M fields)
    (hpresent : AllPresent lookupKey M fields) (i : Fin lookupKeySize)
    (hi : i.val < lookupKey.size) : lookupKey.Keeps i := by
  -- every field can be read, so none is an Ethernet address
  have hshort : lookupKey.Short := by
    intro j hj
    by_cases hlen : (lookupKey.fld j).len ≤ 4
    · exact .inl hlen
    · refine .inr (eq_timestamp_of_len hlen fun hmac => ?_)
      obtain ⟨key, -, hkey, -⟩ := h M fields M fields harrives harrives hpresent hpresent
      have hread := (keyExtract_eq_some_iff.mp hkey).1.readable j hj
      obtain ⟨ptr, hptr, -⟩ := hpresent j hj
      unfold getHdrValue at hread
      rw [hptr] at hread
      simp only [readField_eq_none hmac] at hread
      cases hread
  refine (hshort i hi).imp_right fun htime => ⟨htime, fun j hj => ?_⟩
  by_contra hlast
  have hpairs : 2 * lookupKey.biflowNo ≤ 8 := by omega
  have harrives' := arrives_retime (flipUpper M.packet.mbuf.timestamp) harrives
  obtain ⟨key₁, key₂, hkey₁, hkey₂, hsame⟩ := h M fields _ fields harrives harrives' hpresent
    fun i hi => present_retime _ (hpresent i hi)
  rw [keyExtract_retime hsize hpairs hshort harrives hpresent (fun k hk => ?_), hkey₁] at hkey₂
  · obtain ⟨v, hv, hv'⟩ := hsame (Option.some.inj hkey₂) i hi
    rw [htime] at hv hv'
    rw [getHdrValue_timestamp harrives] at hv
    rw [getHdrValue_timestamp harrives', ← hv] at hv'
    exact flipUpper_ne _ (Option.some.inj (Option.some.inj hv'))
  · obtain rfl : k = j := Fin.ext (by omega)
    exact hlast

/-- **When different flows have different keys.** -/
theorem keysDistinguish_iff (hsize : lookupKey.size ≤ 7) (hbiflow : lookupKey.biflowNo = 0) :
    KeysDistinguish lookupKey ↔
      (¬∃ M fields, Arrives M fields ∧ AllPresent lookupKey M fields) ∨
        ∀ i : Fin lookupKeySize, i.val < lookupKey.size → lookupKey.Keeps i := by
  constructor
  · intro h
    by_cases hany : ∃ M fields, Arrives M fields ∧ AllPresent lookupKey M fields
    · obtain ⟨M, fields, harrives, hpresent⟩ := hany
      exact .inr (keeps_of_keysDistinguish hsize hbiflow h harrives hpresent)
    · exact .inl hany
  · rintro (hnone | hkeeps)
    · intro M₁ fields₁ _ _ h₁ _ hpresent₁
      exact absurd ⟨M₁, fields₁, h₁, hpresent₁⟩ hnone
    · exact keysDistinguish_of_keeps hsize hbiflow hkeeps

/-- A key of both addresses of a packet. -/
def addressKey : LookupKey := ⟨2, fun i => if i.val = 0 then .ipv4Src else .ipv4Dst, 0⟩

/-- It tells flows apart. -/
theorem keysDistinguish_address : KeysDistinguish addressKey :=
  (keysDistinguish_iff (by decide) rfl).mpr (.inr (by unfold LookupKey.Keeps; decide))

/-- A key of the time and the type of a packet. -/
def timeTypeKey : LookupKey := ⟨2, fun i => if i.val = 0 then .xfsmTimestamp else .ethType, 0⟩

/-- **Packets at two times have one key**: the type is stored over the upper
half of the time. -/
theorem not_keysDistinguish : ¬KeysDistinguish timeTypeKey := by
  intro h
  let M : Mem := ⟨1, ⟨0, ⟨ipv4Frame ipprotoTcp (List.replicate 20 0), 0, 0⟩⟩⟩
  have harrives : Arrives M (M.packet.overlay .null .tcp) := by
    refine ⟨[], rfl, ?_⟩
    rw [parseRun_snoc]
    rfl
  have hpresent : AllPresent timeTypeKey M (M.packet.overlay .null .tcp) := by
    intro i hi
    have hcases : i = 0 ∨ i = 1 := by
      revert i
      decide
    rcases hcases with rfl | rfl
    · exact ⟨.timestamp 0, rfl, by decide⟩
    · exact ⟨.data 0 12, rfl, by decide⟩
  have hkeeps := keeps_of_keysDistinguish (by decide) rfl h harrives hpresent 0 (by decide)
  revert hkeeps
  unfold LookupKey.Keeps
  decide

end Distinguish

end Sw

end FlowBlaze

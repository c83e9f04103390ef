import FlowBlaze.Sw.Actions
import FlowBlaze.Sw.FieldBytes
/-!
# Writing a field, and reading it back

`XFSM_SETFIELD` turns the value's bytes round as the length of the field
asks and copies them over the field; `get_hdr_value` turns them back. For
fields of one, two and four bytes the value comes back, and no other byte
is written. A field of six bytes is written right and has no value when it
is read.
-/

namespace FlowBlaze

namespace Sw

/-! ## Bytes of a word -/

section Words

variable {w : Word64} {b : Byte} {i j n : ℕ}

/-- **A byte written into a word**, and the others. -/
theorem hostByte_setHostByte (hi : i < 8) (hj : j < 8) :
    hostByte (setHostByte w i b) j = if j = i then b else hostByte w j := by
  have hmask : (0xff : Word64) = (BitVec.allOnes 8).setWidth 64 := rfl
  unfold hostByte setHostByte
  rw [hmask]
  refine BitVec.eq_of_getLsbD_eq fun k hk => ?_
  simp only [BitVec.getLsbD_extractLsb', BitVec.getLsbD_or, BitVec.getLsbD_and,
    BitVec.getLsbD_not, BitVec.getLsbD_shiftLeft, BitVec.getLsbD_setWidth,
    BitVec.getLsbD_allOnes, hk, decide_true, Bool.true_and]
  by_cases hji : j = i
  · subst hji
    rw [if_pos rfl, Nat.add_sub_cancel_left]
    have hlt : ¬8 * j + k < 8 * j := by omega
    have hbit : 8 * j + k < 64 := by omega
    have hk64 : k < 64 := by omega
    simp [hlt, hbit, hk64, hk]
  · rw [if_neg hji]
    have hbit : 8 * j + k < 64 := by omega
    by_cases hlt : 8 * j + k < 8 * i
    · simp [hlt, hbit, hk]
    · have hge : ¬8 * j + k - 8 * i < 8 := by omega
      have hb : b.getLsbD (8 * j + k - 8 * i) = false := BitVec.getLsbD_of_ge _ _ (by omega)
      simp [hlt, hbit, hge, hb, hk]

theorem toNat_hostByte (w : Word64) (i : ℕ) :
    (hostByte w i).toNat = w.toNat / 256 ^ i % 256 := by
  unfold hostByte
  rw [BitVec.extractLsb'_toNat, Nat.shiftRight_eq_div_pow, Nat.pow_mul]

/-- **Bytes turned round**: the first `n` of them. -/
theorem hostByte_cpuToBe (hn : n ≤ 8) (hj : j < 8) :
    hostByte (cpuToBe n w) j = if j < n then hostByte w (n - 1 - j) else 0 := by
  have hloop : ∀ m ≤ n, ∀ j < 8,
      hostByte ((List.range m).foldl
        (fun v i => setHostByte v (n - 1 - i) (hostByte w i)) 0) j =
      if j < n ∧ n - 1 - j < m then hostByte w (n - 1 - j) else 0 := by
    intro m
    induction m with
    | zero =>
      intro _ j hj
      rw [if_neg fun h => Nat.not_lt_zero _ h.2]
      unfold hostByte
      exact BitVec.extractLsb'_zero
    | succ m ih =>
      intro hm j hj
      rw [List.range_succ, List.foldl_append, List.foldl_cons, List.foldl_nil,
        hostByte_setHostByte (by omega) hj, ih (by omega) j hj]
      by_cases hjm : j = n - 1 - m
      · have hback : n - 1 - j = m := by omega
        rw [if_pos hjm, if_pos ⟨by omega, by omega⟩, hback]
      · rw [if_neg hjm]
        by_cases hlt : j < n ∧ n - 1 - j < m
        · rw [if_pos hlt, if_pos ⟨hlt.1, by omega⟩]
        · rw [if_neg hlt, if_neg (by omega)]
  unfold cpuToBe
  rw [hloop n le_rfl j hj]
  by_cases hlt : j < n
  · rw [if_pos ⟨hlt, by omega⟩, if_pos hlt]
  · rw [if_neg (fun h => hlt h.1), if_neg hlt]

/-- **The bytes that are copied over a field**: the most significant one
first. -/
theorem hostByte_setfieldValue {f : HdrField} (hlen : f.len = 1 ∨ f.len = 2 ∨ f.len = 4)
    (hi : i < f.len) : hostByte (setfieldValue f w) i = hostByte w (f.len - 1 - i) := by
  unfold setfieldValue
  rcases hlen with hlen | hlen | hlen
  · rw [hlen] at hi ⊢
    have hzero : i = 0 := by omega
    rw [hzero]
    rfl
  · rw [hlen] at hi ⊢
    exact (hostByte_cpuToBe (by decide) (by omega)).trans (if_pos hi)
  · rw [hlen] at hi ⊢
    exact (hostByte_cpuToBe (by decide) (by omega)).trans (if_pos hi)

/-- The number that bytes make when the most significant one comes first. -/
theorem bigEndian_of_hostByte {byte : ℕ → Option Byte}
    (hbyte : ∀ i < n, byte i = some (hostByte w (n - 1 - i))) :
    bigEndian byte n = some (w.toNat % 256 ^ n) := by
  have hloop : ∀ m ≤ n, bigEndian byte m = some (w.toNat / 256 ^ (n - m) % 256 ^ m) := by
    intro m
    induction m with
    | zero =>
      intro _
      rw [bigEndian, Nat.pow_zero, Nat.mod_one]
    | succ m ih =>
      intro hm
      have hindex : n - 1 - m = n - (m + 1) := by omega
      have hdiv : w.toNat / 256 ^ (n - m) = w.toNat / 256 ^ (n - (m + 1)) / 256 := by
        rw [Nat.div_div_eq_div_mul, ← Nat.pow_succ]
        exact congrArg (fun e => w.toNat / 256 ^ e) (by omega)
      rw [bigEndian, ih (by omega), Option.bind_some, hbyte m (by omega), Option.map_some,
        toNat_hostByte, hindex, hdiv, Nat.pow_succ, Nat.mul_comm (256 ^ m), Nat.mod_mul,
        Nat.mul_comm, Nat.add_comm]
  rw [hloop n le_rfl, Nat.sub_self, Nat.pow_zero, Nat.div_one]

end Words

/-! ## Bytes of memory -/

/-- The place of the byte that many bytes past a pointer. -/
def Ptr.place : Ptr → ℕ → Ptr × ℕ
  | .inPort, i => (.inPort, i)
  | .data packet off, i => (.data packet 0, off + i)
  | .userdata packet off, i => (.userdata packet 0, off + i)
  | .timestamp packet, i => (.timestamp packet, i)

section Memory

variable {M M' : Mem} {ptr q : Ptr} {b : Byte} {i j len : ℕ} {v : Word64}

theorem Ptr.place_inj (h : ptr.place i = ptr.place j) : i = j := by
  cases ptr <;> simpa [Ptr.place] using h

/-- A byte that is there can be written. -/
theorem exists_storeByte (b : Byte) (h : (M.byte ptr i).isSome = true) :
    ∃ M', M.storeByte b ptr i = some M' := by
  unfold Mem.byte at h
  unfold Mem.storeByte
  cases ptr with
  | inPort =>
    dsimp only at h ⊢
    split at h
    · next hi => exact ⟨_, if_pos hi⟩
    · cases h
  | data packet off =>
    dsimp only at h ⊢
    split at h
    · next hpacket =>
      have hlt : off + i < M.packet.mbuf.data.length := by
        by_contra hge
        rw [List.getElem?_eq_none (by omega)] at h
        cases h
      exact ⟨_, if_pos ⟨hpacket, hlt⟩⟩
    · cases h
  | userdata packet off =>
    dsimp only at h ⊢
    split at h
    · next hin => exact ⟨_, if_pos hin⟩
    · cases h
  | timestamp packet =>
    dsimp only at h ⊢
    split at h
    · next hin => exact ⟨_, if_pos hin⟩
    · cases h

/-- **What a byte written leaves**: it is there, and the other places are
as they were. -/
theorem byte_storeByte (h : M.storeByte b ptr i = some M') (q : Ptr) (j : ℕ) :
    M'.byte q j = if q.place j = ptr.place i then some b else M.byte q j := by
  unfold Mem.storeByte at h
  cases ptr with
  | inPort =>
    dsimp only at h
    split at h
    · next hi =>
      cases h
      subst hi
      cases q with
      | inPort =>
        by_cases hj : j = 0
        · subst hj
          rfl
        · simp [Mem.byte, Ptr.place, hj]
      | data packet off => rfl
      | userdata packet off => rfl
      | timestamp packet => rfl
    · cases h
  | data packet off =>
    dsimp only at h
    split at h
    · next hin =>
      cases h
      cases q with
      | inPort => rfl
      | data packet' off' =>
        -- two pointers into the packet may overlap
        simp only [Mem.byte, Ptr.place, Prod.mk.injEq, Ptr.data.injEq, and_true]
        by_cases hpacket : packet' = M.packet.number
        · rw [if_pos hpacket, if_pos hpacket, List.getElem?_set]
          by_cases hplace : off + i = off' + j
          · rw [if_pos hplace, if_pos hin.2, if_pos ⟨hpacket.trans hin.1.symm, hplace.symm⟩]
          · rw [if_neg hplace, if_neg fun h => hplace h.2.symm]
        · rw [if_neg hpacket, if_neg hpacket, if_neg fun h => hpacket (h.1.trans hin.1)]
      | userdata packet off => rfl
      | timestamp packet => rfl
    · cases h
  | userdata packet off =>
    dsimp only at h
    split at h
    · next hin =>
      cases h
      cases q with
      | inPort => rfl
      | data packet off => rfl
      | userdata packet' off' =>
        simp only [Mem.byte, Ptr.place, Prod.mk.injEq, Ptr.userdata.injEq, and_true]
        by_cases hread : packet' = M.packet.number ∧ off' + j < 8
        · rw [if_pos hread, if_pos hread, hostByte_setHostByte hin.2 hread.2]
          by_cases hplace : off' + j = off + i
          · rw [if_pos hplace, if_pos ⟨hread.1.trans hin.1.symm, hplace⟩]
          · rw [if_neg hplace, if_neg fun h => hplace h.2]
        · rw [if_neg hread, if_neg hread, if_neg]
          rintro ⟨hpacket, hplace⟩
          exact hread ⟨hpacket.trans hin.1, hplace ▸ hin.2⟩
      | timestamp packet => rfl
    · cases h
  | timestamp packet =>
    dsimp only at h
    split at h
    · next hin =>
      cases h
      cases q with
      | inPort => rfl
      | data packet off => rfl
      | userdata packet off => rfl
      | timestamp packet' =>
        simp only [Mem.byte, Ptr.place, Prod.mk.injEq, Ptr.timestamp.injEq]
        by_cases hread : packet' = M.packet.number ∧ j < 8
        · rw [if_pos hread, if_pos hread, hostByte_setHostByte hin.2 hread.2]
          by_cases hplace : j = i
          · rw [if_pos hplace, if_pos ⟨hread.1.trans hin.1.symm, hplace⟩]
          · rw [if_neg hplace, if_neg fun h => hplace h.2]
        · rw [if_neg hread, if_neg hread, if_neg]
          rintro ⟨hpacket, hplace⟩
          exact hread ⟨hpacket.trans hin.1, hplace ▸ hin.2⟩
    · cases h

/-- **What `rte_memcpy` leaves** of bytes that are there: each is written,
and nothing else. -/
theorem copy_spec (v : Word64) (hpresent : ∀ i < len, (M.byte ptr i).isSome = true) :
    ∃ M', M.copy ptr v len = some M' ∧ (∀ i < len, M'.byte ptr i = some (hostByte v i)) ∧
      ∀ q j, (∀ i < len, q.place j ≠ ptr.place i) → M'.byte q j = M.byte q j := by
  induction len with
  | zero => exact ⟨M, rfl, fun i hi => absurd hi (Nat.not_lt_zero i), fun _ _ _ => rfl⟩
  | succ len ih =>
    obtain ⟨M₁, hcopy, hwritten, hframe⟩ := ih fun i hi => hpresent i (Nat.lt_succ_of_lt hi)
    have hlast : (M₁.byte ptr len).isSome = true := by
      rw [hframe ptr len fun i hi heq => absurd (Ptr.place_inj heq) (by omega)]
      exact hpresent len (Nat.lt_succ_self len)
    obtain ⟨M₂, hstore⟩ := exists_storeByte (hostByte v len) hlast
    refine ⟨M₂, ?_, fun i hi => ?_, fun q j hout => ?_⟩
    · unfold Mem.copy at hcopy ⊢
      rw [List.range_succ, List.foldlM_append, hcopy]
      simp only [List.foldlM_cons, List.foldlM_nil, Option.bind_eq_bind, Option.bind_some, hstore]
      rfl
    · rw [byte_storeByte hstore]
      by_cases hi' : i = len
      · rw [hi', if_pos rfl]
      · rw [if_neg fun heq => hi' (Ptr.place_inj heq), hwritten i (by omega)]
    · rw [byte_storeByte hstore, if_neg (hout len (Nat.lt_succ_self len)),
        hframe q j fun i hi => hout i (Nat.lt_succ_of_lt hi)]

end Memory

/-! ## The action -/

/-- `XFSM_SETFIELD` on a field, whose number is its first operand. -/
structure SetsField (act : XfsmAction) (f : HdrField) : Prop where
  type : act.type = .xfsmSetfield
  type1 : act.type1 = .xfsmHdrField
  value1 : act.value1.toNat = f.number

/-- **A field is read back as it was written**: as the value that its bytes
have room for, with every byte outside the field as it was. -/
def ReadsBack (fields : PktFields) (X : Exec) (act : XfsmAction) (f : HdrField) (ptr : Ptr)
    (v : Word64) : Prop :=
  ∃ Z, Exec.step fields X act = some Z ∧
    getHdrValue Z.mem fields f = some (some (BitVec.ofNat 64 (v.toNat % 2 ^ (8 * f.len)))) ∧
    ∀ q j, (∀ i < f.len, q.place j ≠ ptr.place i) → Z.mem.byte q j = X.mem.byte q j

section Action

variable {fields : PktFields} {X Y : Exec} {act : XfsmAction} {f : HdrField} {ptr : Ptr}

/-- Fetching the operands writes no memory, and leaves the field's number in
the first one. -/
theorem fetch_of_setsField (hsets : SetsField act f) (hfetch : X.fetch fields act = some Y) :
    Y.mem = X.mem ∧ Y.reg1.toNat = f.number := by
  obtain ⟨reg1, hreg1, hfetch⟩ := Option.bind_eq_some_iff.mp hfetch
  obtain ⟨reg2, -, hfetch⟩ := Option.bind_eq_some_iff.mp hfetch
  obtain ⟨reg3, -, hfetch⟩ := Option.bind_eq_some_iff.mp hfetch
  cases hfetch
  unfold Exec.operand1 at hreg1
  rw [if_pos ⟨hsets.type1, hsets.type⟩] at hreg1
  cases hreg1
  exact ⟨rfl, hsets.value1⟩

/-- **What the action does** to a field that is there. -/
theorem step_of_setsField (hsets : SetsField act f) (hptr : fields f = some ptr)
    (hpresent : ∀ i < f.len, (X.mem.byte ptr i).isSome = true)
    (hfetch : X.fetch fields act = some Y) :
    ∃ Z, Exec.step fields X act = some Z ∧
      (∀ i < f.len, Z.mem.byte ptr i = some (hostByte (setfieldValue f Y.reg3) i)) ∧
      ∀ q j, (∀ i < f.len, q.place j ≠ ptr.place i) → Z.mem.byte q j = X.mem.byte q j := by
  obtain ⟨hmem, hreg1⟩ := fetch_of_setsField hsets hfetch
  rw [← hmem] at hpresent ⊢
  obtain ⟨M, hcopy, hwritten, hframe⟩ := copy_spec (setfieldValue f Y.reg3) hpresent
  refine ⟨{ Y with mem := M, events := Y.events ++ fields.touch f }, ?_, hwritten, hframe⟩
  unfold Exec.step
  rw [hfetch, Option.bind_some]
  unfold Exec.perform
  rw [hsets.type]
  dsimp only
  unfold Exec.setfield
  rw [hreg1, HdrField.ofNumber_number, Option.bind_some, hptr]
  dsimp only
  rw [hcopy]
  rfl

/-- **When a field is read back as it was written**: unless it has six
bytes. -/
theorem readsBack_iff (hsets : SetsField act f) (hptr : fields f = some ptr)
    (hpresent : ∀ i < f.len, (X.mem.byte ptr i).isSome = true)
    (hlen : f.len = 1 ∨ f.len = 2 ∨ f.len = 4 ∨ f.len = 6) {v : Word64}
    (hfetch : X.fetch fields act = some Y) (hv : Y.reg3 = v) :
    ReadsBack fields X act f ptr v ↔ f.len ≠ 6 := by
  obtain ⟨Z, hstep, hwritten, hframe⟩ := step_of_setsField hsets hptr hpresent hfetch
  constructor
  · rintro ⟨Z', hstep', hread, -⟩ hsix
    rw [hstep] at hstep'
    cases hstep'
    unfold getHdrValue at hread
    rw [hptr] at hread
    dsimp only at hread
    rw [readField_eq_none hsix] at hread
    cases hread
  · intro hsix
    have hlen' : f.len = 1 ∨ f.len = 2 ∨ f.len = 4 := by omega
    refine ⟨Z, hstep, ?_, hframe⟩
    have hbytes : bigEndian (Z.mem.byte ptr) f.len = some (v.toNat % 256 ^ f.len) :=
      bigEndian_of_hostByte fun i hi => by
        rw [hwritten i hi, hostByte_setfieldValue hlen' hi, hv]
    rw [← toNat_readField (by omega)] at hbytes
    obtain ⟨value, hvalue, hnat⟩ := Option.map_eq_some_iff.mp hbytes
    unfold getHdrValue
    rw [hptr]
    dsimp only
    rw [hvalue, Option.map_some, Nat.pow_mul, ← hnat, BitVec.ofNat_toNat, BitVec.setWidth_eq]

end Action

/-- `setField(f, v)`. -/
def setFieldTo (f : HdrField) (v : Word64) : XfsmAction :=
  ⟨.xfsmSetfield, .xfsmSum, .xfsmHdrField, BitVec.ofNat 64 f.number, .xfsmConstant, 0,
    .xfsmConstant, v, 0, .xfsmRegister⟩

/-- The start of the actions on a packet of twenty bytes, all of them seven. -/
def sevens : Exec :=
  ⟨fun _ => 0, fun _ => 0, false, ⟨0, ⟨0, ⟨List.replicate 20 7, 0, 0⟩⟩⟩, 0, 0, 0, []⟩

/-- The EtherType, set to more than it has room for, **is read back** as
the sixteen bits that fit. -/
theorem readsBack_ethType :
    ReadsBack (PktFields.null.set .ethType (some (.data 0 12))) sevens
      (setFieldTo .ethType 0x50800) .ethType (.data 0 12) 0x50800 :=
  (readsBack_iff (Y := { sevens with reg1 := 2, reg2 := 0, reg3 := 0x50800 }) ⟨rfl, rfl, rfl⟩ rfl
    (by decide) (.inr (.inl rfl)) rfl rfl).mpr (by decide)

/-- **The destination address** is written and has no value then. -/
theorem not_readsBack :
    (∀ i < HdrField.dstMac.len, (sevens.mem.byte (.data 0 0) i).isSome = true) ∧
      ¬ReadsBack (PktFields.null.set .dstMac (some (.data 0 0))) sevens
        (setFieldTo .dstMac 0x010203040506) .dstMac (.data 0 0) 0x010203040506 := by
  refine ⟨by decide, ?_⟩
  rintro ⟨Z, -, hread, -⟩
  have hnone : readField Z.mem .dstMac (.data 0 0) = none := readField_eq_none rfl _
  have hread : (readField Z.mem .dstMac (.data 0 0)).map some =
      some (some (BitVec.ofNat 64 (0x010203040506 % 2 ^ 48))) := hread
  rw [hnone] at hread
  cases hread

end Sw

end FlowBlaze

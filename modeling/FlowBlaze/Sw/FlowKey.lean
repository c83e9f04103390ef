import FlowBlaze.Common.IndexSizes
import FlowBlaze.Sw.FieldBytes
import Mathlib.Data.Fintype.Basic
/-!
# Flow keys — `key_extract` and `biflow`

The worker has one buffer of eight words for flow keys. A stage writes
the fields of its lookup key there, each as a 64-bit word at the place of
its number, so that the upper half lands in the next word; a field the
packet lacks is skipped. Some pairs of words are then put in order. A
store, read or swap outside the eight words has no result.
-/

namespace FlowBlaze

namespace Sw

/-- `LOOKUP_KEY_SIZE`. -/
abbrev lookupKeySize : ℕ := 8

/-- `lookup_key_t`. -/
structure LookupKey where
  size : ℕ
  fld : Fin lookupKeySize → HdrField
  biflowNo : ℕ

/-- `flow_key_t`. -/
abbrev FlowKey := Fin 8 → BitVec 32

namespace FlowKey

/-- A word of the key. -/
def word (key : FlowKey) (i : ℕ) : Option (BitVec 32) :=
  if h : i < 8 then some (key ⟨i, h⟩) else none

/-- Store a word of 32 bits. -/
def store (key : FlowKey) (i : ℕ) (v : BitVec 32) : Option FlowKey :=
  if i < 8 then some fun j => if j.val = i then v else key j else none

/-- The lower half of a 64-bit word, which comes first. -/
def lowerHalf (v : Word64) : BitVec 32 := v.setWidth 32

/-- Its upper half. -/
def upperHalf (v : Word64) : BitVec 32 := (v >>> 32).setWidth 32

/-- Store a word of 64 bits. -/
def store64 (key : FlowKey) (i : ℕ) (v : Word64) : Option FlowKey := do
  let key ← key.store i (lowerHalf v)
  key.store (i + 1) (upperHalf v)

end FlowKey

/-- The loop body of `biflow`. -/
def swapPair (key : FlowKey) (i : ℕ) : Option FlowKey := do
  let a ← key.word i
  let b ← key.word (i + 1)
  if b < a then (← key.store i b).store (i + 1) a else return key

/-- `biflow`. -/
def biflow (key : FlowKey) (lookupFlds : LookupKey) : Option FlowKey :=
  (List.range lookupFlds.biflowNo).foldlM (fun key pair => swapPair key (2 * pair)) key

/-- The loop body of `key_extract`. -/
def extractField (M : Mem) (fields : PktFields) (lookupKey : LookupKey) (key : FlowKey) (i : ℕ) :
    Option FlowKey :=
  if h : i < lookupKeySize then
    (getHdrValue M fields (lookupKey.fld ⟨i, h⟩)).bind fun value =>
      match value with
      | none => some key
      | some v => key.store64 i v
  else none

/-- `key_extract`. It always returns true. -/
def keyExtract (M : Mem) (fields : PktFields) (lookupKey : LookupKey) (key : FlowKey) :
    Option FlowKey := do
  let key ← (List.range lookupKey.size).foldlM (extractField M fields lookupKey) key
  if 0 < lookupKey.biflowNo then biflow key lookupKey else return key

/-! ## What the loops leave -/

section Words

open FlowKey

/-- What fields put into a word: the lower half of the field of its
number, or else the upper half of the field before. -/
def wordOf (reads : ℕ → Option Word64) : ℕ → Option (BitVec 32)
  | 0 => (reads 0).map lowerHalf
  | w + 1 => ((reads (w + 1)).map lowerHalf).or ((reads w).map upperHalf)

/-- The key, after these fields. -/
def written (reads : ℕ → Option Word64) (key : FlowKey) : FlowKey :=
  fun w => (wordOf reads w).getD (key w)

/-- The first of the fields. -/
def firstReads (reads : ℕ → Option Word64) (n : ℕ) : ℕ → Option Word64 :=
  fun i => if i < n then reads i else none

/-- A word of the key, once its pair is in order. -/
def orderedPair (key : FlowKey) (w : Fin 8) : BitVec 32 :=
  let a := key ⟨2 * (w.val / 2), by omega⟩
  let b := key ⟨2 * (w.val / 2) + 1, by omega⟩
  if w.val % 2 = 0 then (if b < a then b else a) else (if b < a then a else b)

/-- The key with its first pairs of words in order. -/
def ordered (pairs : ℕ) (key : FlowKey) : FlowKey :=
  fun w => if w.val / 2 < pairs then orderedPair key w else key w

variable {reads : ℕ → Option Word64} {n : ℕ} {key key' : FlowKey} {v : Word64}

theorem store64_eq_some_iff :
    key.store64 n v = some key' ↔ n + 1 < 8 ∧ key' = fun j =>
      if j.val = n + 1 then upperHalf v else if j.val = n then lowerHalf v else key j := by
  unfold FlowKey.store64 FlowKey.store
  by_cases h : n + 1 < 8
  · rw [if_pos (by omega), Option.bind_eq_bind, Option.bind_some, if_pos h]
    refine ⟨fun heq => ⟨h, (Option.some.inj heq).symm⟩, fun heq => congrArg some heq.2.symm⟩
  · refine ⟨fun heq => ?_, fun heq => absurd heq.1 h⟩
    obtain ⟨mid, -, heq⟩ := Option.bind_eq_some_iff.mp heq
    rw [if_neg h] at heq
    cases heq

theorem firstReads_zero : firstReads reads 0 = fun _ => none := by
  funext i
  exact if_neg (Nat.not_lt_zero i)

theorem firstReads_succ_of_none (h : reads n = none) :
    firstReads reads (n + 1) = firstReads reads n := by
  funext i
  unfold firstReads
  by_cases hi : i = n
  · rw [hi, if_neg (Nat.lt_irrefl n), if_pos (Nat.lt_succ_self n), h]
  · by_cases hlt : i < n
    · rw [if_pos hlt, if_pos (Nat.lt_succ_of_lt hlt)]
    · rw [if_neg hlt, if_neg (by omega)]

theorem firstReads_succ_of_ne {i : ℕ} (hi : i ≠ n) :
    firstReads reads (n + 1) i = firstReads reads n i := by
  unfold firstReads
  by_cases hlt : i < n
  · rw [if_pos hlt, if_pos (Nat.lt_succ_of_lt hlt)]
  · rw [if_neg hlt, if_neg (by omega)]

/-- One more field. -/
theorem written_succ (h : reads n = some v) :
    written (firstReads reads (n + 1)) key = fun j =>
      if j.val = n + 1 then upperHalf v else if j.val = n then lowerHalf v
      else written (firstReads reads n) key j := by
  have hself : firstReads reads (n + 1) n = some v := by
    unfold firstReads
    rw [if_pos (Nat.lt_succ_self n), h]
  funext j
  unfold written
  by_cases hnext : j.val = n + 1
  · have hpast : firstReads reads (n + 1) (n + 1) = none := if_neg (Nat.lt_irrefl _)
    rw [if_pos hnext, hnext]
    simp only [wordOf, hpast, hself]
    rfl
  · rw [if_neg hnext]
    by_cases hj : j.val = n
    · rw [if_pos hj, hj]
      cases n with
      | zero =>
        simp only [wordOf, hself]
        rfl
      | succ m =>
        simp only [wordOf, hself]
        rfl
    · rw [if_neg hj]
      obtain ⟨w, hw⟩ := j
      cases w with
      | zero =>
        unfold wordOf
        rw [firstReads_succ_of_ne hj]
      | succ w =>
        have hw' : w ≠ n := fun heq => hnext (congrArg Nat.succ heq)
        simp only [wordOf, firstReads_succ_of_ne hj, firstReads_succ_of_ne hw']

end Words

/-! ## Extraction -/

section Extract

variable {M : Mem} {fields : PktFields} {lookupKey : LookupKey} {key key' : FlowKey} {n : ℕ}

/-- What is read for the fields of a key; a field that is absent, or can
not be read, gives nothing. -/
def readsOf (M : Mem) (fields : PktFields) (lookupKey : LookupKey) (i : ℕ) : Option Word64 :=
  if h : i < lookupKeySize then (getHdrValue M fields (lookupKey.fld ⟨i, h⟩)).join else none

/-- **The first fields of a key can be extracted**: the key has them, each
can be read, and the last has no upper half to store. -/
structure Extractable (M : Mem) (fields : PktFields) (lookupKey : LookupKey) (n : ℕ) : Prop where
  size : n ≤ lookupKeySize
  readable : ∀ i : Fin lookupKeySize, i.val < n →
    (getHdrValue M fields (lookupKey.fld i)).isSome = true
  room : n = lookupKeySize → fields (lookupKey.fld 7) = none

theorem getHdrValue_eq_some_none {f : HdrField} :
    getHdrValue M fields f = some none ↔ fields f = none := by
  unfold getHdrValue
  cases fields f with
  | none => exact iff_of_true rfl rfl
  | some ptr =>
    refine iff_of_false (fun h => ?_) (fun h => by cases h)
    obtain ⟨v, -, h⟩ := Option.map_eq_some_iff.mp h
    cases h

/-- One more field. -/
theorem extractable_succ : Extractable M fields lookupKey (n + 1) ↔
    Extractable M fields lookupKey n ∧ ∃ h : n < lookupKeySize,
      (getHdrValue M fields (lookupKey.fld ⟨n, h⟩) = some none ∨
        ∃ v, getHdrValue M fields (lookupKey.fld ⟨n, h⟩) = some (some v) ∧ n + 1 < 8) := by
  constructor
  · intro h
    have hn : n < lookupKeySize := h.size
    refine ⟨⟨Nat.le_of_lt hn, fun i hi => h.readable i (Nat.lt_succ_of_lt hi),
      fun hlast => absurd hlast (Nat.ne_of_lt hn)⟩, hn, ?_⟩
    obtain ⟨value, hvalue⟩ := Option.isSome_iff_exists.mp (h.readable ⟨n, hn⟩ (Nat.lt_succ_self n))
    cases value with
    | none => exact .inl hvalue
    | some v =>
      refine .inr ⟨v, hvalue, ?_⟩
      by_contra hlast
      obtain rfl : n = 7 := by
        unfold lookupKeySize at hn
        omega
      have habsent : getHdrValue M fields (lookupKey.fld 7) = some none :=
        getHdrValue_eq_some_none.mpr (h.room rfl)
      cases hvalue.symm.trans habsent
  · rintro ⟨h, hn, hread⟩
    refine ⟨hn, fun i hi => ?_, fun hlast => ?_⟩
    · by_cases hin : i.val = n
      · obtain rfl : i = ⟨n, hn⟩ := Fin.ext hin
        rcases hread with hread | ⟨v, hread, -⟩ <;> rw [hread] <;> rfl
      · exact h.readable i (by omega)
    · obtain rfl : n = 7 := Nat.succ.inj hlast
      rcases hread with hread | ⟨v, -, hlt⟩
      · exact getHdrValue_eq_some_none.mp hread
      · exact absurd hlt (by decide)

theorem readsOf_of_lt {value : Option Word64} (hn : n < lookupKeySize)
    (h : getHdrValue M fields (lookupKey.fld ⟨n, hn⟩) = some value) :
    readsOf M fields lookupKey n = value := by
  unfold readsOf
  rw [dif_pos hn, h]
  rfl

/-- The loop over the fields. -/
theorem foldlM_extractField :
    (List.range n).foldlM (extractField M fields lookupKey) key = some key' ↔
      Extractable M fields lookupKey n ∧
        key' = written (firstReads (readsOf M fields lookupKey) n) key := by
  induction n generalizing key' with
  | zero =>
    have hnothing : written (firstReads (readsOf M fields lookupKey) 0) key = key := by
      rw [firstReads_zero]
      funext ⟨w, hw⟩
      cases w <;> rfl
    rw [hnothing]
    constructor
    · intro h
      cases h
      exact ⟨⟨by decide, fun i hi => absurd hi (Nat.not_lt_zero _),
        fun h => absurd h (by decide)⟩, rfl⟩
    · rintro ⟨-, rfl⟩
      rfl
  | succ n ih =>
    have hstep : ∀ mid, [n].foldlM (extractField M fields lookupKey) mid =
        extractField M fields lookupKey mid n := fun mid => bind_pure _
    rw [List.range_succ, List.foldlM_append, Option.bind_eq_bind, Option.bind_eq_some_iff,
      extractable_succ]
    simp only [hstep, ih]
    unfold extractField
    constructor
    · rintro ⟨mid, ⟨hext, rfl⟩, hlast⟩
      by_cases hn : n < lookupKeySize
      · rw [dif_pos hn] at hlast
        obtain ⟨value, hvalue, hlast⟩ := Option.bind_eq_some_iff.mp hlast
        have hreads := readsOf_of_lt hn hvalue
        cases value with
        | none =>
          -- a null pointer leaves the key
          cases hlast
          exact ⟨⟨hext, hn, .inl hvalue⟩, by rw [firstReads_succ_of_none hreads]⟩
        | some v =>
          obtain ⟨hroom, rfl⟩ := store64_eq_some_iff.mp hlast
          exact ⟨⟨hext, hn, .inr ⟨v, hvalue, hroom⟩⟩, (written_succ hreads).symm⟩
      · rw [dif_neg hn] at hlast
        cases hlast
    · rintro ⟨⟨hext, hn, hvalue⟩, rfl⟩
      refine ⟨_, ⟨hext, rfl⟩, ?_⟩
      rw [dif_pos hn]
      rcases hvalue with hvalue | ⟨v, hvalue, hroom⟩
      · rw [hvalue, Option.bind_some, firstReads_succ_of_none (readsOf_of_lt hn hvalue)]
      · rw [hvalue, Option.bind_some]
        exact store64_eq_some_iff.mpr ⟨hroom, written_succ (readsOf_of_lt hn hvalue)⟩

/-- A pair, put in order. -/
theorem swapPair_eq_some_iff {pair : ℕ} :
    swapPair key (2 * pair) = some key' ↔ 2 * pair + 1 < 8 ∧ key' = fun w =>
      if w.val / 2 = pair then orderedPair key w else key w := by
  unfold swapPair FlowKey.word
  by_cases h : 2 * pair + 1 < 8
  · have hresult : ∀ w : Fin 8, (if w.val / 2 = pair then orderedPair key w else key w) =
        if key ⟨2 * pair + 1, h⟩ < key ⟨2 * pair, by omega⟩ then
          if w.val = 2 * pair + 1 then key ⟨2 * pair, by omega⟩
          else if w.val = 2 * pair then key ⟨2 * pair + 1, h⟩ else key w
        else key w := by
      intro w
      by_cases hw : w.val / 2 = pair
      · subst hw
        rw [if_pos rfl]
        unfold orderedPair
        by_cases heven : w.val % 2 = 0
        · have hval : w.val = 2 * (w.val / 2) := by omega
          have hword : key ⟨2 * (w.val / 2), by omega⟩ = key w := congrArg key (Fin.ext hval.symm)
          have hodd : w.val ≠ 2 * (w.val / 2) + 1 := by omega
          rw [if_pos heven, if_neg hodd, if_pos hval, hword]
        · have hval : w.val = 2 * (w.val / 2) + 1 := by omega
          have hword : key ⟨2 * (w.val / 2) + 1, h⟩ = key w := congrArg key (Fin.ext hval.symm)
          rw [if_neg heven, if_pos hval, hword]
      · have hodd : w.val ≠ 2 * pair + 1 := by omega
        have heven : w.val ≠ 2 * pair := by omega
        rw [if_neg hw, if_neg hodd, if_neg heven, ite_self]
    rw [dif_pos (by omega), dif_pos h, Option.bind_eq_bind, Option.bind_some, Option.bind_eq_bind,
      Option.bind_some]
    simp only [hresult]
    unfold FlowKey.store
    by_cases hlt : key ⟨2 * pair + 1, h⟩ < key ⟨2 * pair, by omega⟩
    · rw [if_pos hlt, if_pos (by omega), Option.bind_some, if_pos h]
      simp only [if_pos hlt, Option.some.injEq, h, true_and]
      exact eq_comm
    · simp only [if_neg hlt, h, true_and]
      exact ⟨fun heq => (Option.some.inj heq).symm, fun heq => congrArg some heq.symm⟩
  · refine iff_of_false (fun heq => ?_) (fun heq => h heq.1)
    obtain ⟨a, -, heq⟩ := Option.bind_eq_some_iff.mp heq
    obtain ⟨b, hb, -⟩ := Option.bind_eq_some_iff.mp heq
    rw [dif_neg h] at hb
    cases hb

/-- The loop over the pairs. -/
theorem biflow_eq_some_iff :
    biflow key lookupKey = some key' ↔
      2 * lookupKey.biflowNo ≤ 8 ∧ key' = ordered lookupKey.biflowNo key := by
  unfold biflow
  generalize lookupKey.biflowNo = n
  induction n generalizing key' with
  | zero =>
    refine ⟨fun h => ⟨by decide, ?_⟩, fun h => congrArg some ?_⟩
    · cases h
      rfl
    · exact h.2.symm
  | succ n ih =>
    have hstep : ∀ mid, [n].foldlM (fun key pair => swapPair key (2 * pair)) mid =
        swapPair mid (2 * n) := fun mid => bind_pure _
    -- the pairs before leave the words of this one
    have hordered : (fun w : Fin 8 => if w.val / 2 = n then orderedPair (ordered n key) w
        else ordered n key w) = ordered (n + 1) key := by
      funext w
      by_cases hw : w.val / 2 = n
      · subst hw
        have hkept : ∀ (v : ℕ) (hv : v < 8), v / 2 = w.val / 2 →
            ordered (w.val / 2) key ⟨v, hv⟩ = key ⟨v, hv⟩ :=
          fun v hv heq => if_neg (by simp only [heq, Nat.lt_irrefl, not_false_eq_true])
        unfold orderedPair
        rw [if_pos rfl, hkept _ _ (by omega), hkept _ _ (by omega)]
        exact (if_pos (Nat.lt_succ_self _)).symm
      · unfold ordered
        rw [if_neg hw]
        by_cases hlt : w.val / 2 < n
        · rw [if_pos hlt, if_pos (by omega)]
        · rw [if_neg hlt, if_neg (by omega)]
    rw [List.range_succ, List.foldlM_append, Option.bind_eq_bind, Option.bind_eq_some_iff]
    simp only [hstep, ih, swapPair_eq_some_iff]
    constructor
    · rintro ⟨mid, ⟨-, rfl⟩, hn, rfl⟩
      exact ⟨by omega, hordered⟩
    · rintro ⟨hn, rfl⟩
      exact ⟨_, ⟨by omega, rfl⟩, by omega, hordered.symm⟩

/-- **What `key_extract` leaves.** -/
theorem keyExtract_eq_some_iff :
    keyExtract M fields lookupKey key = some key' ↔
      Extractable M fields lookupKey lookupKey.size ∧ 2 * lookupKey.biflowNo ≤ 8 ∧
        key' = ordered lookupKey.biflowNo
          (written (firstReads (readsOf M fields lookupKey) lookupKey.size) key) := by
  unfold keyExtract
  rw [Option.bind_eq_bind, Option.bind_eq_some_iff]
  simp only [foldlM_extractField]
  by_cases hpairs : 0 < lookupKey.biflowNo
  · simp only [if_pos hpairs, biflow_eq_some_iff]
    constructor
    · rintro ⟨mid, ⟨hext, rfl⟩, hroom, rfl⟩
      exact ⟨hext, hroom, rfl⟩
    · rintro ⟨hext, hroom, rfl⟩
      exact ⟨_, ⟨hext, rfl⟩, hroom, rfl⟩
  · have hzero : lookupKey.biflowNo = 0 := by omega
    have hordered : ∀ key : FlowKey, ordered 0 key = key := fun key => rfl
    simp only [hzero, hordered]
    constructor
    · rintro ⟨mid, ⟨hext, rfl⟩, h⟩
      exact ⟨hext, by decide, (Option.some.inj h).symm⟩
    · rintro ⟨hext, -, rfl⟩
      exact ⟨_, ⟨hext, rfl⟩, rfl⟩

end Extract

/-! ## Histories -/

/-- A packet, as it is when a stage handles it, and the port it came in
at. -/
structure Visit where
  stage : ℕ
  inPort : Byte
  packet : Packet

/-- What a visit sees. -/
def Visit.mem (v : Visit) : Mem := ⟨v.inPort, v.packet⟩

/-- What the worker keeps that flow keys depend on: the header pointers of
each stage, and the buffer. -/
structure KeyState where
  fields : ℕ → PktFields
  key : FlowKey

/-- Before the first packet. -/
def KeyState.initial : KeyState := ⟨fun _ => PktFields.null, fun _ => 0⟩

/-- `parse_pkt_header` and `key_extract` of a stage. -/
def KeyState.visit (pipeline : ℕ → LookupKey) (σ : KeyState) (v : Visit) : Option KeyState :=
  (parsePktHeader v.mem (σ.fields v.stage)).bind fun fields =>
    (keyExtract v.mem fields (pipeline v.stage) σ.key).map fun key =>
      ⟨Function.update σ.fields v.stage fields, key⟩

/-- A history of packets and stages. -/
def KeyState.run (pipeline : ℕ → LookupKey) (history : List Visit) : Option KeyState :=
  history.foldlM (KeyState.visit pipeline) KeyState.initial

section Histories

variable (pipeline : ℕ → LookupKey) (h₁ h₂ : List Visit) (σ₁ σ₂ : KeyState) (v : Visit)

/-- **The flow key is the same** after both histories. -/
def SameKey : Prop :=
  ∃ τ₁ τ₂, KeyState.run pipeline (h₁ ++ [v]) = some τ₁ ∧
    KeyState.run pipeline (h₂ ++ [v]) = some τ₂ ∧ τ₁.key = τ₂.key

/-- The header pointers a visit reads the key through, if the parser takes
that branch. -/
def Visit.pointers (σ : KeyState) (b : Branch) : PktFields :=
  v.packet.overlay (σ.fields v.stage) b

/-- The pointers of the packet itself: those the branch leaves alone are
`NULL`. -/
def Visit.ownPointers (b : Branch) : PktFields :=
  v.packet.overlay PktFields.null b

/-- **No key field of the packet lands in a word**: neither the one of its
number nor the one before, whose upper half comes next. -/
def Visit.Open (b : Branch) (w : ℕ) : Prop :=
  ∀ i : Fin lookupKeySize, i.val < (pipeline v.stage).size → i.val = w ∨ i.val + 1 = w →
    v.ownPointers b ((pipeline v.stage).fld i) = none

instance (b : Branch) (w : ℕ) : Decidable (v.Open pipeline b w) :=
  inferInstanceAs (Decidable (∀ i : Fin lookupKeySize, i.val < (pipeline v.stage).size →
    i.val = w ∨ i.val + 1 = w → v.ownPointers b ((pipeline v.stage).fld i) = none))

/-- **When the key depends on the packet only.** The branch of the parser
is read off inside the packet, its own key fields can be extracted, the
pointers to key fields that the branch leaves alone are `NULL` before the
visit, and the pairs lie inside the key. The buffers agree at every word
no key field lands in; in a pair that is wholly open they may do so up to
its order. -/
structure KeyDetermined (b : Branch) : Prop where
  branch : v.packet.branch = some b
  extractable :
    Extractable v.mem (v.ownPointers b) (pipeline v.stage) (pipeline v.stage).size
  reset : ∀ σ, σ = σ₁ ∨ σ = σ₂ → ∀ i : Fin lookupKeySize, i.val < (pipeline v.stage).size →
    v.packet.assigned b ((pipeline v.stage).fld i) = none →
      σ.fields v.stage ((pipeline v.stage).fld i) = none
  room : 2 * (pipeline v.stage).biflowNo ≤ 8
  words : ∀ w : Fin 8, (pipeline v.stage).biflowNo ≤ w.val / 2 → v.Open pipeline b w →
    σ₁.key w = σ₂.key w
  pairs : ∀ i j : Fin 8, i.val / 2 < (pipeline v.stage).biflowNo → i.val % 2 = 0 →
    j.val = i.val + 1 →
      (v.Open pipeline b i → v.Open pipeline b j →
        (σ₁.key i = σ₂.key i ∧ σ₁.key j = σ₂.key j) ∨
          (σ₁.key i = σ₂.key j ∧ σ₁.key j = σ₂.key i)) ∧
      (v.Open pipeline b i → ¬v.Open pipeline b j → σ₁.key i = σ₂.key i) ∧
      (¬v.Open pipeline b i → v.Open pipeline b j → σ₁.key j = σ₂.key j)

/-- That, of the states the histories leave. -/
def DependsOnPacket : Prop :=
  ∃ σ₁ σ₂ b, KeyState.run pipeline h₁ = some σ₁ ∧ KeyState.run pipeline h₂ = some σ₂ ∧
    KeyDetermined pipeline σ₁ σ₂ v b

/-- The packet took the same branch whenever it was at this stage before. -/
def KeepsBranch : Prop :=
  ∀ u ∈ h₁ ++ h₂, u.stage = v.stage → u.packet.number = v.packet.number →
    u.packet.branch = v.packet.branch

variable {pipeline h₁ h₂ σ₁ σ₂ v} {σ τ : KeyState} {b : Branch}

/-- The words of a pair, in order. -/
theorem orderedPair_eq {key : FlowKey} {i j : Fin 8} (hi : i.val % 2 = 0)
    (hj : j.val = i.val + 1) :
    orderedPair key i = (if key j < key i then key j else key i) ∧
      orderedPair key j = if key j < key i then key i else key j := by
  have hval : 2 * (i.val / 2) = i.val := by omega
  have hval' : 2 * (j.val / 2) = i.val := by omega
  have hword : ∀ h, key ⟨2 * (i.val / 2), h⟩ = key i := fun h => congrArg key (Fin.ext hval)
  have hnext : ∀ h, key ⟨2 * (i.val / 2) + 1, h⟩ = key j :=
    fun h => congrArg key (Fin.ext (by simp only; omega))
  have hword' : ∀ h, key ⟨2 * (j.val / 2), h⟩ = key i := fun h => congrArg key (Fin.ext hval')
  have hnext' : ∀ h, key ⟨2 * (j.val / 2) + 1, h⟩ = key j :=
    fun h => congrArg key (Fin.ext (by simp only; omega))
  unfold orderedPair
  simp only [hword, hnext, hword', hnext', if_pos hi, if_neg (show ¬ j.val % 2 = 0 by omega)]
  exact ⟨trivial, trivial⟩

/-- Two words in order tell the words up to their order. -/
theorem sorted_eq_iff {a b c d : BitVec 32} :
    ((if b < a then b else a) = (if d < c then d else c) ∧
      (if b < a then a else b) = if d < c then c else d) ↔
      (a = c ∧ b = d) ∨ (a = d ∧ b = c) := by
  constructor
  · rintro ⟨hmin, hmax⟩
    by_cases hlt : b < a <;> by_cases hlt' : d < c
    · rw [if_pos hlt, if_pos hlt'] at hmin hmax
      exact .inl ⟨hmax, hmin⟩
    · rw [if_pos hlt, if_neg hlt'] at hmin hmax
      exact .inr ⟨hmax, hmin⟩
    · rw [if_neg hlt, if_pos hlt'] at hmin hmax
      exact .inr ⟨hmin, hmax⟩
    · rw [if_neg hlt, if_neg hlt'] at hmin hmax
      exact .inl ⟨hmin, hmax⟩
  · rintro (⟨rfl, rfl⟩ | ⟨rfl, rfl⟩)
    · exact ⟨rfl, rfl⟩
    · by_cases hlt : b < a
      · rw [if_pos hlt, if_pos hlt, if_neg (BitVec.lt_asymm hlt), if_neg (BitVec.lt_asymm hlt)]
        exact ⟨rfl, rfl⟩
      · rw [if_neg hlt, if_neg hlt]
        by_cases hgt : a < b
        · rw [if_pos hgt, if_pos hgt]
          exact ⟨rfl, rfl⟩
        · rw [if_neg hgt, if_neg hgt]
          have heq : a = b := by
            refine BitVec.eq_of_toNat_eq ?_
            rw [BitVec.lt_def] at hlt hgt
            omega
          exact ⟨heq, heq.symm⟩

/-- Keys in order are the same when they are up to the order of pairs. -/
theorem ordered_eq_iff {pairs : ℕ} {x y : FlowKey} :
    ordered pairs x = ordered pairs y ↔ (∀ w : Fin 8, pairs ≤ w.val / 2 → x w = y w) ∧
      ∀ i j : Fin 8, i.val / 2 < pairs → i.val % 2 = 0 → j.val = i.val + 1 →
        (x i = y i ∧ x j = y j) ∨ (x i = y j ∧ x j = y i) := by
  unfold ordered
  constructor
  · intro h
    refine ⟨fun w hw => ?_, fun i j hi heven hj => ?_⟩
    · have hword := congrFun h w
      rwa [if_neg (Nat.not_lt.mpr hw), if_neg (Nat.not_lt.mpr hw)] at hword
    · have hwi := congrFun h i
      have hwj := congrFun h j
      have hj' : j.val / 2 < pairs := by omega
      rw [if_pos hi, if_pos hi, (orderedPair_eq heven hj).1, (orderedPair_eq heven hj).1] at hwi
      rw [if_pos hj', if_pos hj', (orderedPair_eq heven hj).2, (orderedPair_eq heven hj).2] at hwj
      exact sorted_eq_iff.mp ⟨hwi, hwj⟩
  · rintro ⟨hwords, hpairs⟩
    funext w
    -- a word of a pair is its smaller or its larger one
    by_cases hw : w.val / 2 < pairs
    · rw [if_pos hw, if_pos hw]
      by_cases heven : w.val % 2 = 0
      · have hsorted := sorted_eq_iff.mpr (hpairs w ⟨w.val + 1, by omega⟩ hw heven rfl)
        rw [(orderedPair_eq (j := ⟨w.val + 1, by omega⟩) heven rfl).1, hsorted.1,
          (orderedPair_eq (j := ⟨w.val + 1, by omega⟩) heven rfl).1]
      · have hval : w.val = (⟨w.val - 1, by omega⟩ : Fin 8).val + 1 := by
          simp only
          omega
        have hprev : (⟨w.val - 1, by omega⟩ : Fin 8).val % 2 = 0 := by
          simp only
          omega
        have hsorted := sorted_eq_iff.mpr (hpairs _ w (by simp only; omega) hprev hval)
        rw [(orderedPair_eq hprev hval).2, hsorted.2, (orderedPair_eq hprev hval).2]
    · rw [if_neg hw, if_neg hw]
      exact hwords w (Nat.not_lt.mp hw)

/-- A visit, by the branch of the parser. -/
theorem visit_eq_some_iff :
    σ.visit pipeline v = some τ ↔ ∃ b, v.packet.branch = some b ∧
      Extractable v.mem (v.pointers σ b) (pipeline v.stage) (pipeline v.stage).size ∧
      2 * (pipeline v.stage).biflowNo ≤ 8 ∧
      τ = ⟨Function.update σ.fields v.stage (v.pointers σ b),
        ordered (pipeline v.stage).biflowNo
          (written (firstReads (readsOf v.mem (v.pointers σ b) (pipeline v.stage))
            (pipeline v.stage).size) σ.key)⟩ := by
  unfold KeyState.visit
  rw [parsePktHeader_eq, Option.bind_map, Option.bind_eq_some_iff]
  refine exists_congr fun b => and_congr_right fun _ => ?_
  rw [Function.comp_apply, Option.map_eq_some_iff]
  simp only [keyExtract_eq_some_iff]
  constructor
  · rintro ⟨key, ⟨hext, hroom, rfl⟩, rfl⟩
    exact ⟨hext, hroom, rfl⟩
  · rintro ⟨hext, hroom, rfl⟩
    exact ⟨_, ⟨hext, hroom, rfl⟩, rfl⟩

theorem run_snoc {history : List Visit} :
    KeyState.run pipeline (history ++ [v]) =
      (KeyState.run pipeline history).bind fun σ => σ.visit pipeline v := by
  unfold KeyState.run
  rw [List.foldlM_append]
  exact congrArg (Option.bind _) (funext fun σ => bind_pure _)

theorem run_of_visit {history : List Visit} (h : KeyState.run pipeline history = some σ)
    (hvisit : σ.visit pipeline v = some τ) :
    KeyState.run pipeline (history ++ [v]) = some τ := by
  rw [run_snoc, h]
  exact hvisit

/-! ## Pointers left by earlier packets -/

/-- The pointers of a stage, after a history: each was set by a visit. -/
theorem into_of_run {history : List Visit} (h : KeyState.run pipeline history = some σ) {s : ℕ}
    {f : HdrField} {ptr : Ptr} (hf : σ.fields s f = some ptr) :
    f = .xfsmInPort ∨ ∃ u ∈ history, u.stage = s ∧ ptr.Into u.packet.number ∧
      ∃ b, u.packet.branch = some b ∧ u.packet.assigned b f = some (some ptr) := by
  induction history using List.reverseRecOn generalizing σ with
  | nil =>
    cases h
    cases hf
  | append_singleton history u ih =>
    rw [run_snoc, Option.bind_eq_some_iff] at h
    obtain ⟨before, hbefore, h⟩ := h
    obtain ⟨b, hb, -, -, rfl⟩ := visit_eq_some_iff.mp h
    -- what this visit leaves alone, an earlier one has set
    have hold : before.fields s f = some ptr → f = .xfsmInPort ∨
        ∃ w ∈ history ++ [u], w.stage = s ∧ ptr.Into w.packet.number ∧
          ∃ b, w.packet.branch = some b ∧ w.packet.assigned b f = some (some ptr) := by
      intro hptr
      refine (ih hbefore hptr).imp_right ?_
      rintro ⟨w, hw, hset⟩
      exact ⟨w, List.mem_append_left _ hw, hset⟩
    simp only at hf
    by_cases hs : s = u.stage
    · rw [hs, Function.update_self] at hf
      unfold Visit.pointers Packet.overlay at hf
      cases hassigned : u.packet.assigned b f with
      | none =>
        rw [hassigned, ← hs] at hf
        exact hold hf
      | some value =>
        rw [hassigned] at hf
        obtain rfl : value = some ptr := hf
        refine (into_of_assigned hassigned).imp_right fun hinto => ?_
        exact ⟨u, List.mem_append_right _ (List.mem_singleton_self u), hs.symm, hinto, b, hb,
          hassigned⟩
    · rw [Function.update_of_ne hs] at hf
      exact hold hf

/-- Whether a branch leaves a pointer alone does not depend on the
packet. -/
theorem assigned_eq_none_of_branch {p q : Packet} {f : HdrField} (h : p.assigned b f = none) :
    q.assigned b f = none := by
  have hsets := h
  rw [assigned_eq (optional_of_assigned h), Option.map_eq_none_iff] at hsets
  rw [assigned_eq (optional_of_assigned h), hsets]
  rfl

/-- **A pointer left alone can not be read**, unless an earlier visit of
the packet took another branch. -/
theorem reset_of_extractable {history : List Visit} (hσ : KeyState.run pipeline history = some σ)
    (hkeeps : ∀ u ∈ history, u.stage = v.stage → u.packet.number = v.packet.number →
      u.packet.branch = v.packet.branch)
    (hb : v.packet.branch = some b)
    (hext : Extractable v.mem (v.pointers σ b) (pipeline v.stage) (pipeline v.stage).size)
    {i : Fin lookupKeySize} (hi : i.val < (pipeline v.stage).size)
    (hassigned : v.packet.assigned b ((pipeline v.stage).fld i) = none) :
    σ.fields v.stage ((pipeline v.stage).fld i) = none := by
  by_contra hne
  obtain ⟨ptr, hptr⟩ := Option.ne_none_iff_exists'.mp hne
  rcases into_of_run hσ hptr with hport | ⟨u, hu, hstage, hinto, b', hb', hset⟩
  · rw [hport] at hassigned
    cases hassigned
  · have hvalue := hext.readable i hi
    have hread : v.pointers σ b ((pipeline v.stage).fld i) = some ptr := by
      unfold Visit.pointers Packet.overlay
      rw [hassigned]
      exact hptr
    unfold getHdrValue at hvalue
    rw [hread] at hvalue
    have hport : ptr ≠ .inPort := by
      rintro rfl
      exact hinto.elim
    have hstale : ¬ptr.Into v.packet.number := by
      intro hinto'
      -- the visit that set the pointer was one of this packet
      have hnumber : u.packet.number = v.packet.number := by
        cases ptr with
        | inPort => exact hinto.elim
        | _ => exact hinto.symm.trans hinto'
      obtain rfl : b' = b :=
        Option.some.inj (hb'.symm.trans ((hkeeps u hu hstage hnumber).trans hb))
      rw [assigned_eq_none_of_branch hassigned] at hset
      cases hset
    have hnone : readField v.mem ((pipeline v.stage).fld i) ptr = none :=
      readField_of_stale _ hport hstale
    simp only [hnone] at hvalue
    cases hvalue

/-! ## The packet's own fields -/

section Own

variable {fields fields' : PktFields} {lookupKey : LookupKey} {n : ℕ} {M : Mem}

theorem extractable_congr
    (h : ∀ i : Fin lookupKeySize, i.val < n → fields (lookupKey.fld i) = fields' (lookupKey.fld i))
    (hext : Extractable M fields lookupKey n) : Extractable M fields' lookupKey n := by
  refine ⟨hext.size, fun i hi => ?_, fun hlast => ?_⟩
  · have hread := hext.readable i hi
    unfold getHdrValue at hread ⊢
    rwa [← h i hi]
  · rw [← h 7 (by rw [hlast]; decide)]
    exact hext.room hlast

theorem firstReads_congr
    (h : ∀ i : Fin lookupKeySize, i.val < n →
      fields (lookupKey.fld i) = fields' (lookupKey.fld i)) :
    firstReads (readsOf M fields lookupKey) n = firstReads (readsOf M fields' lookupKey) n := by
  funext i
  unfold firstReads readsOf
  by_cases hi : i < n
  · rw [if_pos hi, if_pos hi]
    by_cases hsize : i < lookupKeySize
    · rw [dif_pos hsize, dif_pos hsize]
      unfold getHdrValue
      rw [h ⟨i, hsize⟩ hi]
    · rw [dif_neg hsize, dif_neg hsize]
  · rw [if_neg hi, if_neg hi]

/-- Which fields are read. -/
theorem firstReads_eq_none_iff (hext : Extractable M fields lookupKey n) {i : ℕ} :
    firstReads (readsOf M fields lookupKey) n i = none ↔
      ∀ j : Fin lookupKeySize, j.val < n → j.val = i → fields (lookupKey.fld j) = none := by
  unfold firstReads readsOf
  by_cases hi : i < n
  · have hsize : i < lookupKeySize := Nat.lt_of_lt_of_le hi hext.size
    obtain ⟨value, hvalue⟩ := Option.isSome_iff_exists.mp (hext.readable ⟨i, hsize⟩ hi)
    rw [if_pos hi, dif_pos hsize, hvalue, Option.join_some]
    constructor
    · rintro rfl j - hj
      obtain rfl : j = ⟨i, hsize⟩ := Fin.ext hj
      exact getHdrValue_eq_some_none.mp hvalue
    · intro h
      have hnull : getHdrValue M fields (lookupKey.fld ⟨i, hsize⟩) = some none :=
        getHdrValue_eq_some_none.mpr (h ⟨i, hsize⟩ hi rfl)
      exact Option.some.inj (hvalue.symm.trans hnull)
  · rw [if_neg hi]
    exact iff_of_true rfl fun j hj heq => absurd (heq ▸ hj) hi

/-- Which words the fields leave open. -/
theorem wordOf_eq_none_iff (hext : Extractable M fields lookupKey n) {w : ℕ} :
    wordOf (firstReads (readsOf M fields lookupKey) n) w = none ↔
      ∀ i : Fin lookupKeySize, i.val < n → i.val = w ∨ i.val + 1 = w →
        fields (lookupKey.fld i) = none := by
  cases w with
  | zero =>
    unfold wordOf
    rw [Option.map_eq_none_iff, firstReads_eq_none_iff hext]
    refine forall_congr' fun i => forall_congr' fun _ => ?_
    exact ⟨fun h hi => h (hi.resolve_right (Nat.succ_ne_zero _)), fun h hi => h (.inl hi)⟩
  | succ w =>
    unfold wordOf
    rw [Option.or_eq_none_iff, Option.map_eq_none_iff, Option.map_eq_none_iff,
      firstReads_eq_none_iff hext, firstReads_eq_none_iff hext]
    constructor
    · rintro ⟨hself, hbefore⟩ i hi (heq | heq)
      · exact hself i hi heq
      · exact hbefore i hi (Nat.succ.inj heq)
    · intro h
      exact ⟨fun i hi heq => h i hi (.inl heq),
        fun i hi heq => h i hi (.inr (congrArg Nat.succ heq))⟩

/-- A word, given what the fields put there. -/
theorem written_of_none {reads : ℕ → Option Word64} {key : FlowKey} {w : Fin 8}
    (h : wordOf reads w = none) : written reads key w = key w := by
  unfold written
  rw [h]
  rfl

theorem written_congr {reads : ℕ → Option Word64} {key key' : FlowKey} {w : Fin 8}
    (h : wordOf reads w ≠ none) : written reads key w = written reads key' w := by
  obtain ⟨x, hx⟩ := Option.ne_none_iff_exists'.mp h
  unfold written
  rw [hx]
  rfl

end Own

/-- Two pairs that agree up to their order and have one word in common. -/
theorem eq_of_pair {x y y' : BitVec 32} (h : (x = x ∧ y = y') ∨ (x = y' ∧ y = x)) : y = y' := by
  rcases h with ⟨-, h⟩ | ⟨hx, hy⟩
  · exact h
  · exact hy.trans hx

/-- **Two keys with the same fields in order**: what counts are the words
the fields leave open. -/
theorem ordered_written_eq_iff {reads : ℕ → Option Word64} {pairs : ℕ} {x y : FlowKey} :
    ordered pairs (written reads x) = ordered pairs (written reads y) ↔
      (∀ w : Fin 8, pairs ≤ w.val / 2 → wordOf reads w = none → x w = y w) ∧
      ∀ i j : Fin 8, i.val / 2 < pairs → i.val % 2 = 0 → j.val = i.val + 1 →
        (wordOf reads i = none → wordOf reads j = none →
          (x i = y i ∧ x j = y j) ∨ (x i = y j ∧ x j = y i)) ∧
        (wordOf reads i = none → wordOf reads j ≠ none → x i = y i) ∧
        (wordOf reads i ≠ none → wordOf reads j = none → x j = y j) := by
  rw [ordered_eq_iff]
  refine and_congr (forall_congr' fun w => forall_congr' fun _ => ?_)
    (forall_congr' fun i => forall_congr' fun j => forall_congr' fun _ => forall_congr' fun _ =>
      forall_congr' fun _ => ?_)
  · by_cases hw : wordOf reads w = none
    · rw [written_of_none hw, written_of_none hw]
      exact ⟨fun h _ => h, fun h => h hw⟩
    · exact iff_of_true (written_congr hw) fun h => absurd h hw
  -- a pair: which of its two words do the fields leave open?
  · by_cases hi : wordOf reads i = none <;> by_cases hj : wordOf reads j = none
    · rw [written_of_none hi, written_of_none hi, written_of_none hj, written_of_none hj]
      exact ⟨fun h => ⟨fun _ _ => h, fun _ hne => absurd hj hne, fun hne => absurd hi hne⟩,
        fun h => h.1 hi hj⟩
    · rw [written_of_none hi, written_of_none hi, written_congr hj]
      refine ⟨fun h => ⟨fun _ h' => absurd h' hj, fun _ _ => ?_, fun hne => absurd hi hne⟩,
        fun h => .inl ⟨h.2.1 hi hj, rfl⟩⟩
      exact eq_of_pair (h.imp And.symm fun h' => ⟨h'.2, h'.1⟩)
    · rw [written_of_none hj, written_of_none hj, written_congr hi]
      exact ⟨fun h => ⟨fun h' => absurd h' hi, fun h' => absurd h' hi, fun _ _ => eq_of_pair h⟩,
        fun h => .inl ⟨rfl, h.2.2 hi hj⟩⟩
    · exact iff_of_true (.inl ⟨written_congr hi, written_congr hj⟩)
        ⟨fun h => absurd h hi, fun h => absurd h hi, fun _ h => absurd h hj⟩

/-- The pointers of a visit whose stage has no others. -/
theorem pointers_eq_own
    (hreset : ∀ i : Fin lookupKeySize, i.val < (pipeline v.stage).size →
      v.packet.assigned b ((pipeline v.stage).fld i) = none →
        σ.fields v.stage ((pipeline v.stage).fld i) = none)
    (i : Fin lookupKeySize) (hi : i.val < (pipeline v.stage).size) :
    v.pointers σ b ((pipeline v.stage).fld i) = v.ownPointers b ((pipeline v.stage).fld i) := by
  unfold Visit.pointers Visit.ownPointers Packet.overlay
  cases hassigned : v.packet.assigned b ((pipeline v.stage).fld i) with
  | none => exact hreset i hi hassigned
  | some value => rfl

/-- What a visit leaves in the buffer then. -/
theorem visit_of_reset (hb : v.packet.branch = some b)
    (hext : Extractable v.mem (v.ownPointers b) (pipeline v.stage) (pipeline v.stage).size)
    (hroom : 2 * (pipeline v.stage).biflowNo ≤ 8)
    (hreset : ∀ i : Fin lookupKeySize, i.val < (pipeline v.stage).size →
      v.packet.assigned b ((pipeline v.stage).fld i) = none →
        σ.fields v.stage ((pipeline v.stage).fld i) = none) :
    σ.visit pipeline v = some ⟨Function.update σ.fields v.stage (v.pointers σ b),
      ordered (pipeline v.stage).biflowNo
        (written (firstReads (readsOf v.mem (v.ownPointers b) (pipeline v.stage))
          (pipeline v.stage).size) σ.key)⟩ := by
  have hpointers := pointers_eq_own hreset
  refine visit_eq_some_iff.mpr ⟨b, hb, ?_, hroom, ?_⟩
  · exact extractable_congr (fun i hi => (hpointers i hi).symm) hext
  · rw [firstReads_congr hpointers]

/-- When two buffers give one key. -/
theorem ordered_own_eq_iff
    (hext : Extractable v.mem (v.ownPointers b) (pipeline v.stage) (pipeline v.stage).size)
    {x y : FlowKey} :
    ordered (pipeline v.stage).biflowNo (written (firstReads
          (readsOf v.mem (v.ownPointers b) (pipeline v.stage)) (pipeline v.stage).size) x) =
        ordered (pipeline v.stage).biflowNo (written (firstReads
          (readsOf v.mem (v.ownPointers b) (pipeline v.stage)) (pipeline v.stage).size) y) ↔
      (∀ w : Fin 8, (pipeline v.stage).biflowNo ≤ w.val / 2 → v.Open pipeline b w → x w = y w) ∧
      ∀ i j : Fin 8, i.val / 2 < (pipeline v.stage).biflowNo → i.val % 2 = 0 → j.val = i.val + 1 →
        (v.Open pipeline b i → v.Open pipeline b j →
          (x i = y i ∧ x j = y j) ∨ (x i = y j ∧ x j = y i)) ∧
        (v.Open pipeline b i → ¬v.Open pipeline b j → x i = y i) ∧
        (¬v.Open pipeline b i → v.Open pipeline b j → x j = y j) := by
  have hopen : ∀ w : ℕ, wordOf (firstReads (readsOf v.mem (v.ownPointers b) (pipeline v.stage))
      (pipeline v.stage).size) w = none ↔ v.Open pipeline b w := fun w => wordOf_eq_none_iff hext
  rw [ordered_written_eq_iff]
  simp only [ne_eq, hopen]

/-- The condition is enough. -/
theorem DependsOnPacket.same (h : DependsOnPacket pipeline h₁ h₂ v) :
    SameKey pipeline h₁ h₂ v := by
  obtain ⟨σ₁, σ₂, b, hσ₁, hσ₂, h⟩ := h
  have hkey := (ordered_own_eq_iff h.extractable).mpr ⟨h.words, h.pairs⟩
  exact ⟨_, _,
    run_of_visit hσ₁ (visit_of_reset h.branch h.extractable h.room (h.reset σ₁ (.inl rfl))),
    run_of_visit hσ₂ (visit_of_reset h.branch h.extractable h.room (h.reset σ₂ (.inr rfl))), hkey⟩

/-- It is needed, where the packet kept its branch. -/
theorem SameKey.depends (hkeeps : KeepsBranch h₁ h₂ v) (h : SameKey pipeline h₁ h₂ v) :
    DependsOnPacket pipeline h₁ h₂ v := by
  obtain ⟨τ₁, τ₂, hτ₁, hτ₂, hkey⟩ := h
  rw [run_snoc, Option.bind_eq_some_iff] at hτ₁ hτ₂
  obtain ⟨σ₁, hσ₁, hτ₁⟩ := hτ₁
  obtain ⟨σ₂, hσ₂, hτ₂⟩ := hτ₂
  obtain ⟨b, hb, hext₁, hroom, rfl⟩ := visit_eq_some_iff.mp hτ₁
  obtain ⟨b', hb', hext₂, -, rfl⟩ := visit_eq_some_iff.mp hτ₂
  obtain rfl : b = b' := Option.some.inj (hb.symm.trans hb')
  have hreset₁ : ∀ i : Fin lookupKeySize, i.val < (pipeline v.stage).size →
      v.packet.assigned b ((pipeline v.stage).fld i) = none →
        σ₁.fields v.stage ((pipeline v.stage).fld i) = none := fun i hi =>
    reset_of_extractable hσ₁ (fun u hu => hkeeps u (List.mem_append_left _ hu)) hb hext₁ hi
  have hreset₂ : ∀ i : Fin lookupKeySize, i.val < (pipeline v.stage).size →
      v.packet.assigned b ((pipeline v.stage).fld i) = none →
        σ₂.fields v.stage ((pipeline v.stage).fld i) = none := fun i hi =>
    reset_of_extractable hσ₂ (fun u hu => hkeeps u (List.mem_append_right _ hu)) hb hext₂ hi
  -- both keys are then made of the packet's own fields, over the two buffers
  have hext := extractable_congr (pointers_eq_own hreset₁) hext₁
  simp only [firstReads_congr (pointers_eq_own hreset₁),
    firstReads_congr (pointers_eq_own hreset₂)] at hkey
  obtain ⟨hwords, hpairs⟩ := (ordered_own_eq_iff hext).mp hkey
  refine ⟨σ₁, σ₂, b, hσ₁, hσ₂, hb, hext, ?_, hroom, hwords, hpairs⟩
  rintro σ (rfl | rfl)
  · exact hreset₁
  · exact hreset₂

/-- **The flow key of a packet, after any two histories.** The condition
is enough; it is needed too, where the packet took the same branch
whenever it was at the stage before. -/
theorem sameKey_iff :
    (DependsOnPacket pipeline h₁ h₂ v → SameKey pipeline h₁ h₂ v) ∧
      (KeepsBranch h₁ h₂ v →
        (SameKey pipeline h₁ h₂ v ↔ DependsOnPacket pipeline h₁ h₂ v)) :=
  ⟨DependsOnPacket.same, fun hkeeps => ⟨SameKey.depends hkeeps, DependsOnPacket.same⟩⟩

end Histories

/-! ## A word left behind -/

/-- A lookup key of the TCP source port. -/
def tcpSportKey : LookupKey := ⟨1, fun _ => .tcpSport, 0⟩

/-- A packet with that payload, at the first stage. -/
def portVisit (number : ℕ) (proto byte : Byte) : Visit :=
  ⟨0, 1, ⟨number, ⟨ipv4Frame proto (List.replicate 20 byte), 0, 0⟩⟩⟩

/-- After a TCP packet the port of the next is in the key all the same. -/
theorem sameKey_iff_tcp :
    SameKey (fun _ => tcpSportKey) [] [portVisit 0 ipprotoTcp 1] (portVisit 1 ipprotoTcp 2) := by
  refine sameKey_iff.1 ⟨_, _, .tcp, rfl, rfl, rfl, ?_, ?_, by decide, by decide, ?_⟩
  · exact ⟨by decide, by decide, by decide⟩
  · rintro σ (rfl | rfl) i - hnone <;> cases hnone
  · intro i j hi
    exact absurd hi (Nat.not_lt_zero _)

/-- **A TCP packet leaves its port in the key of an ICMP packet.** -/
theorem not_sameKey :
    ¬SameKey (fun _ => tcpSportKey) [] [portVisit 0 ipprotoTcp 1]
      (portVisit 1 ipv4IcmpProto 0) := by
  rintro ⟨τ₁, τ₂, h₁, h₂, hkey⟩
  have hword := congrFun hkey 0
  cases h₁
  cases h₂
  exact absurd hword (by decide)

end Sw

end FlowBlaze

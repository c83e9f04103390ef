import FlowBlaze.Sw.FlowKey
import FlowBlaze.Sw.Loader
/-!
# Accesses to the flow key — `json_to_lookup_key` and `key_extract`

A `lookup_key_t` has room for eight fields and right behind them the
number of pairs, and a `flow_key_t` is eight words. The loader counts
fields in a byte and stores each at its number, and never writes the
number of pairs. This file says which words `key_extract` and `biflow`
access, and when those are words of the key.
-/

namespace FlowBlaze

namespace Sw

open Common Json

/-! ## Lookup keys in memory -/

/-- A `lookup_key_t` in memory: `fld` goes on past its end. -/
structure LookupKeyMemory where
  size : Byte
  fld : ℕ → BitVec 32

namespace LookupKeyMemory

/-- `biflow_no`: the first byte behind the fields. -/
def biflowNo (k : LookupKeyMemory) : Byte := (k.fld lookupKeySize).setWidth 8

/-- The loop body of `json_to_lookup_key`. -/
def addField (k : LookupKeyMemory) (field : Json) : Option LookupKeyMemory :=
  (wordItem headerFields "value" (some field)).map fun f =>
    ⟨k.size + 1, Function.update k.fld k.size.toNat (BitVec.ofNat 32 f.number)⟩

/-- `json_to_lookup_key`, in memory that held `old`. -/
def load (old : LookupKeyMemory) (fields : Option Json) : Option LookupKeyMemory :=
  (children fields).foldlM addField ⟨0, old.fld⟩

/-- The copy that `xfsm_table_create` makes, in front of other members of
the table. -/
def copy (k : LookupKeyMemory) (behind : ℕ → BitVec 32) : LookupKeyMemory :=
  ⟨k.size, fun i => if i ≤ lookupKeySize then k.fld i else behind i⟩

end LookupKeyMemory

/-! ## The words accessed -/

/-- Whether `get_hdr_value` stores a value for the entry of `pkt_fields` of
that number, which may lie past its end. -/
def PktFields.stores (fields : PktFields) (behind : ℕ → Bool) (number : ℕ) : Bool :=
  match HdrField.ofNumber number with
  | some f => (fields f).isSome
  | none => behind number

/-- The words that the loop of `key_extract` stores. -/
def storedWords (stores : ℕ → Bool) (k : LookupKeyMemory) : List ℕ :=
  (List.range k.size.toNat).flatMap fun i =>
    if stores (k.fld i).toNat then [i, i + 1] else []

/-- The words that `biflow` reads and may swap. -/
def swappedWords (k : LookupKeyMemory) : List ℕ :=
  (List.range k.biflowNo.toNat).flatMap fun pair => [2 * pair, 2 * pair + 1]

/-- The words that `key_extract` accesses. -/
def accessedWords (stores : ℕ → Bool) (k : LookupKeyMemory) : List ℕ :=
  storedWords stores k ++ if 0 < k.biflowNo then swappedWords k else []

/-- **Extraction stays inside the key.** -/
def StaysInKey (stores : ℕ → Bool) (k : LookupKeyMemory) : Prop :=
  ∀ w ∈ accessedWords stores k, w < 8

section Words

variable {stores : ℕ → Bool} {k : LookupKeyMemory}

theorem storedWords_lt_iff :
    (∀ w ∈ storedWords stores k, w < 8) ↔
      ∀ i, 7 ≤ i → i < k.size.toNat → stores (k.fld i).toNat = false := by
  unfold storedWords
  simp only [List.mem_flatMap, List.mem_range, forall_exists_index, and_imp]
  constructor
  · intro h i hseven hi
    by_contra hstores
    have hnext := h (i + 1) i hi (by rw [if_pos (Bool.not_eq_false _ ▸ hstores)]; simp)
    omega
  · intro h w i hi hw
    split at hw
    · next hstores =>
      have hlt : i < 7 := by
        by_contra hge
        rw [h i (by omega) hi] at hstores
        cases hstores
      rcases List.mem_cons.mp hw with rfl | hw
      · omega
      · rw [List.mem_singleton.mp hw]
        omega
    · cases hw

theorem swappedWords_lt_iff :
    (∀ w ∈ swappedWords k, w < 8) ↔ k.biflowNo.toNat ≤ 4 := by
  unfold swappedWords
  simp only [List.mem_flatMap, List.mem_range, forall_exists_index, and_imp]
  constructor
  · intro h
    by_contra hmany
    have hlast := h 9 4 (by omega) (by simp)
    omega
  · intro h w pair hpair hw
    rcases List.mem_cons.mp hw with rfl | hw
    · omega
    · rw [List.mem_singleton.mp hw]
      omega

theorem staysInKey_iff_words :
    StaysInKey stores k ↔
      (∀ i, 7 ≤ i → i < k.size.toNat → stores (k.fld i).toNat = false) ∧ k.biflowNo.toNat ≤ 4 := by
  unfold StaysInKey accessedWords
  simp only [List.mem_append, or_imp, forall_and]
  rw [storedWords_lt_iff]
  refine and_congr_right fun _ => ?_
  by_cases hpairs : 0 < k.biflowNo
  · rw [if_pos hpairs]
    exact swappedWords_lt_iff
  · rw [if_neg hpairs]
    refine iff_of_true (fun w hw => by cases hw) ?_
    rw [BitVec.lt_def] at hpairs
    have hzero : (0 : Byte).toNat = 0 := rfl
    omega

end Words

/-! ## The accesses of `keyExtract` -/

section Model

variable {M : Mem} {fields : PktFields} {key : FlowKey}

/-- A lookup key, in memory. -/
def LookupKey.memory (lookupKey : LookupKey) (behind : ℕ → BitVec 32) : LookupKeyMemory :=
  ⟨BitVec.ofNat 8 lookupKey.size, fun i =>
    if h : i < lookupKeySize then BitVec.ofNat 32 (lookupKey.fld ⟨i, h⟩).number
    else if i = lookupKeySize then BitVec.ofNat 32 lookupKey.biflowNo else behind i⟩

theorem number_lt (f : HdrField) : f.number < 28 := by
  cases f <;> decide

/-- **Extraction is defined where it stays inside the key**, if what it
reads of the packet is. -/
theorem keyExtract_isSome_iff {lookupKey : LookupKey} (hsize : lookupKey.size ≤ lookupKeySize)
    (hpairs : lookupKey.biflowNo < 256) (behind : ℕ → BitVec 32) (past : ℕ → Bool)
    (hreadable : ∀ i : Fin lookupKeySize, i.val < lookupKey.size →
      (getHdrValue M fields (lookupKey.fld i)).isSome = true) :
    (keyExtract M fields lookupKey key).isSome = true ↔
      StaysInKey (fields.stores past) (lookupKey.memory behind) := by
  have hcount : (lookupKey.memory behind).size.toNat = lookupKey.size := by
    unfold LookupKey.memory
    rw [BitVec.toNat_ofNat]
    unfold lookupKeySize at hsize
    omega
  have hbiflow : (lookupKey.memory behind).biflowNo.toNat = lookupKey.biflowNo := by
    have hfld : (lookupKey.memory behind).fld lookupKeySize =
        BitVec.ofNat 32 lookupKey.biflowNo := by
      simp [LookupKey.memory]
    unfold LookupKeyMemory.biflowNo
    rw [hfld, BitVec.toNat_setWidth, BitVec.toNat_ofNat]
    omega
  have hstores : ∀ i : Fin lookupKeySize,
      fields.stores past ((lookupKey.memory behind).fld i).toNat =
        (fields (lookupKey.fld i)).isSome := by
    intro i
    have hfld : (lookupKey.memory behind).fld i = BitVec.ofNat 32 (lookupKey.fld i).number :=
      dif_pos i.isLt
    have hnumber := number_lt (lookupKey.fld i)
    unfold PktFields.stores
    rw [hfld, BitVec.toNat_ofNat, Nat.mod_eq_of_lt (by omega), HdrField.ofNumber_number]
  -- only the eighth field can be stored past the key, by its upper half
  rw [staysInKey_iff_words, hcount, hbiflow, Option.isSome_iff_exists]
  simp only [keyExtract_eq_some_iff]
  constructor
  · rintro ⟨key', hext, hroom, -⟩
    refine ⟨fun i hseven hi => ?_, by omega⟩
    obtain rfl : i = 7 := by
      unfold lookupKeySize at hsize
      omega
    refine (hstores 7).trans ?_
    rw [hext.room (by unfold lookupKeySize at hsize ⊢; omega)]
    rfl
  · rintro ⟨hnull, hroom⟩
    refine ⟨_, ⟨hsize, hreadable, fun hfull => ?_⟩, by omega, rfl⟩
    have hlast := hnull 7 (Nat.le_refl 7) (by rw [hfull]; decide)
    exact Option.isNone_iff_eq_none.mp
      (Option.isSome_eq_false_iff.mp ((hstores 7).symm.trans hlast))

end Model

/-! ## What the loader leaves -/

/-- **What fits a key**: the eighth and the ninth field have no value to
store in this packet, if the size gets that far, nor have the entries
that the members behind the copied key name; and the byte behind the
eight fields is four at most. There is the number of the ninth field, or
what the memory held before. -/
structure FitsKey (old : LookupKeyMemory) (behind : ℕ → BitVec 32) (past : ℕ → Bool)
    (fields : PktFields) (flds : List HdrField) : Prop where
  eighth : 7 < flds.length % 2 ^ 8 → ∀ f, lastAt flds 7 = some f → fields f = none
  ninth : 8 < flds.length % 2 ^ 8 → ∀ f, lastAt flds 8 = some f → fields f = none
  behind : ∀ i, 8 < i → i < flds.length % 2 ^ 8 → fields.stores past (behind i).toNat = false
  pairs : ((lastAt flds 8).map HdrField.number).getD old.biflowNo.toNat ≤ 4

section Load

variable {old k : LookupKeyMemory} {flds : List HdrField} {json : Option Json}
  {behind : ℕ → BitVec 32} {past : ℕ → Bool} {fields : PktFields}

theorem lastAt_snoc (f : HdrField) (place : ℕ) :
    lastAt (flds ++ [f]) place =
      if flds.length % 2 ^ 8 = place then some f else lastAt flds place := by
  unfold lastAt
  rw [List.zipIdx_append, List.filter_append, List.zipIdx_singleton, List.filter_singleton,
    Nat.zero_add]
  by_cases hplace : flds.length % 2 ^ 8 = place
  · rw [if_pos hplace, decide_eq_true hplace, cond_true, List.getLast?_concat]
    rfl
  · rw [if_neg hplace, decide_eq_false hplace, cond_false, List.append_nil]

/-- Each place below the count has a field. -/
theorem exists_lastAt {place : ℕ} (h : place < flds.length % 2 ^ 8) :
    ∃ f, lastAt flds place = some f := by
  have hlt : place < flds.length := h.trans_le (Nat.mod_le _ _)
  have hmem : (flds[place], place) ∈ flds.zipIdx.filter fun q => q.2 % 2 ^ 8 = place := by
    refine List.mem_filter.mpr ⟨?_, ?_⟩
    · exact List.mem_zipIdx_iff_getElem?.mpr (List.getElem?_eq_getElem hlt)
    · exact decide_eq_true (Nat.mod_eq_of_lt (by omega))
  obtain ⟨q, hq⟩ := Option.isSome_iff_exists.mp
    (List.getLast?_isSome.mpr (List.ne_nil_of_mem hmem))
  exact ⟨q.1, congrArg (Option.map Prod.fst) hq⟩

/-- What is in memory once these fields were stored. -/
def LookupKeyMemory.after (old : LookupKeyMemory) (flds : List HdrField) : LookupKeyMemory :=
  ⟨BitVec.ofNat 8 flds.length, fun i =>
    ((lastAt flds i).map fun f => BitVec.ofNat 32 f.number).getD (old.fld i)⟩

/-- One more field. -/
theorem addField_after {field : Json} {f : HdrField}
    (h : wordItem headerFields "value" (some field) = some f) :
    (old.after flds).addField field = some (old.after (flds ++ [f])) := by
  unfold LookupKeyMemory.addField LookupKeyMemory.after
  rw [h, Option.map_some, BitVec.toNat_ofNat, List.length_append, List.length_singleton]
  refine congrArg some (congrArg₂ LookupKeyMemory.mk ?_ (funext fun i => ?_))
  · exact (BitVec.ofNat_add ..).symm
  · rw [lastAt_snoc]
    by_cases hi : i = flds.length % 2 ^ 8
    · rw [if_pos hi.symm, hi, Function.update_self]
      rfl
    · rw [if_neg (Ne.symm hi), Function.update_of_ne hi]

/-- **What the loader leaves**, if it accepts the fields. -/
theorem load_eq (h : jsonToLookupKey json = some flds) :
    LookupKeyMemory.load old json = some (old.after flds) := by
  have hrun : ∀ (js : List Json) i stored flds,
      forEach (fun _ field => wordItem headerFields "value" (some field)) i js = some flds →
        js.foldlM LookupKeyMemory.addField (old.after stored) =
          some (old.after (stored ++ flds)) := by
    intro js
    induction js with
    | nil =>
      intro i stored flds h
      cases h
      rw [List.append_nil]
      rfl
    | cons j js ih =>
      intro i stored flds h
      obtain ⟨f, hf, h⟩ := Option.bind_eq_some_iff.mp h
      obtain ⟨rest, hrest, rfl⟩ := Option.map_eq_some_iff.mp h
      rw [List.foldlM_cons, addField_after hf, Option.bind_eq_bind, Option.bind_some,
        ih (i + 1) _ _ hrest, List.append_assoc, List.singleton_append]
  exact hrun _ 0 [] flds h

/-- A stored field, of a number that `pkt_fields` has. -/
theorem stores_ofNat (f : HdrField) :
    fields.stores past (BitVec.ofNat 32 f.number).toNat = (fields f).isSome := by
  have hnumber := number_lt f
  unfold PktFields.stores
  rw [BitVec.toNat_ofNat, Nat.mod_eq_of_lt (by omega), HdrField.ofNumber_number]

/-- What `key_extract` reads for the eighth and the ninth field. -/
theorem stores_copy_after {i : ℕ} (hi : i ≤ lookupKeySize) (hlt : i < flds.length % 2 ^ 8) :
    fields.stores past (((old.after flds).copy behind).fld i).toNat = false ↔
      ∀ f, lastAt flds i = some f → fields f = none := by
  obtain ⟨f, hf⟩ := exists_lastAt hlt
  have hfld : ((old.after flds).copy behind).fld i = BitVec.ofNat 32 f.number := by
    refine (if_pos hi).trans ?_
    simp only [LookupKeyMemory.after, hf]
    rfl
  rw [hfld, stores_ofNat, Option.isSome_eq_false_iff, Option.isNone_iff_eq_none]
  constructor
  · intro hnull g hg
    rw [hf] at hg
    cases hg
    exact hnull
  · exact fun hall => hall f hf

/-- The number of pairs, after loading. -/
theorem biflowNo_after :
    ((old.after flds).copy behind).biflowNo.toNat =
      ((lastAt flds 8).map HdrField.number).getD old.biflowNo.toNat := by
  have hfld : ((old.after flds).copy behind).fld lookupKeySize =
      ((lastAt flds 8).map fun f => BitVec.ofNat 32 f.number).getD (old.fld lookupKeySize) := by
    unfold LookupKeyMemory.copy
    simp only [Nat.le_refl, if_true]
    rfl
  unfold LookupKeyMemory.biflowNo
  rw [hfld]
  cases lastAt flds 8 with
  | none => rfl
  | some f =>
    have hnumber := number_lt f
    simp only [Option.map_some, Option.getD_some, BitVec.toNat_setWidth, BitVec.toNat_ofNat]
    omega

/-- **When extraction stays inside the key**, for every lookup key that the
loader returns. -/
theorem staysInKey_iff (h : jsonToLookupKey json = some flds) (old : LookupKeyMemory)
    (behind : ℕ → BitVec 32) (past : ℕ → Bool) (fields : PktFields) :
    (∃ k, LookupKeyMemory.load old json = some k ∧
      StaysInKey (fields.stores past) (k.copy behind)) ↔
      FitsKey old behind past fields flds := by
  have hsize : ((old.after flds).copy behind).size.toNat = flds.length % 2 ^ 8 :=
    BitVec.toNat_ofNat ..
  rw [load_eq h]
  simp only [Option.some.injEq, exists_eq_left', staysInKey_iff_words, hsize, biflowNo_after]
  constructor
  · rintro ⟨hstores, hpairs⟩
    refine ⟨fun hlt => ?_, fun hlt => ?_, fun i hi hlt => ?_, hpairs⟩
    · exact (stores_copy_after (by decide) hlt).mp (hstores 7 (Nat.le_refl 7) hlt)
    · exact (stores_copy_after (Nat.le_refl _) hlt).mp (hstores 8 (by omega) hlt)
    · have hfld : ((old.after flds).copy behind).fld i = behind i :=
        if_neg (Nat.not_le.mpr hi)
      have hnone := hstores i (by omega) hlt
      rwa [hfld] at hnone
  · intro hfits
    refine ⟨fun i hseven hlt => ?_, hfits.pairs⟩
    rcases Nat.lt_trichotomy i 8 with hi | hi | hi
    · obtain rfl : i = 7 := by omega
      exact (stores_copy_after (by decide) hlt).mpr (hfits.eighth hlt)
    · subst hi
      exact (stores_copy_after (Nat.le_refl _) hlt).mpr (hfits.ninth hlt)
    · have hfld : ((old.after flds).copy behind).fld i = behind i :=
        if_neg (Nat.not_le.mpr hi)
      rw [hfld]
      exact hfits.behind i hi hlt

/-- **The pairs of a loaded table** are those that its lookup key has in
memory. -/
theorem biflowNo_of_jsonToTable {memory : TableMemory} {table : Option Json} {T : LoadedTable}
    (hold : old.biflowNo = memory.biflowNo) (h : jsonToTable memory table = some T) :
    (old.after T.lookupKey).biflowNo = T.biflowNo := by
  unfold jsonToTable at h
  obtain ⟨_, -, h⟩ := Option.bind_eq_some_iff.mp h
  obtain ⟨_, -, h⟩ := Option.bind_eq_some_iff.mp h
  obtain ⟨_, -, h⟩ := Option.bind_eq_some_iff.mp h
  obtain ⟨_, -, h⟩ := Option.bind_eq_some_iff.mp h
  obtain ⟨_, -, h⟩ := Option.bind_eq_some_iff.mp h
  obtain ⟨_, -, h⟩ := Option.bind_eq_some_iff.mp h
  obtain ⟨lookupKey, -, h⟩ := Option.bind_eq_some_iff.mp h
  cases h
  unfold LookupKeyMemory.biflowNo LookupKeyMemory.after
  simp only
  cases lastAt lookupKey lookupKeySize with
  | none => exact hold
  | some f =>
    have hnumber := number_lt f
    refine BitVec.eq_of_toNat_eq ?_
    simp only [Option.map_some, Option.getD_some, BitVec.toNat_setWidth, BitVec.toNat_ofNat]
    omega

end Load

/-! ## Eight fields -/

/-- A flow key of so many fields in the file, all the source address. -/
def sourcesJson (n : ℕ) : Json :=
  .array (List.replicate n (.object [("value", .string "ipv4.src")]))

/-- Memory that holds zeros. -/
def zeroKey : LookupKeyMemory := ⟨0, fun _ => 0⟩

/-- Seven fields fit. -/
theorem staysInKey_seven :
    ∃ k, LookupKeyMemory.load zeroKey (some (sourcesJson 7)) = some k ∧
      StaysInKey (PktFields.stores (PktFields.null.set .ipv4Src (some (.data 0 26)))
        fun _ => false) (k.copy fun _ => 0) := by
  have h : jsonToLookupKey (some (sourcesJson 7)) = some (List.replicate 7 .ipv4Src) := by
    decide +kernel
  refine (staysInKey_iff h _ _ _ _).mpr ⟨?_, ?_, ?_, by decide⟩
  · exact fun hlt => absurd hlt (by decide)
  · exact fun hlt => absurd hlt (by decide)
  · exact fun i hi hlt => absurd (hi.trans hlt) (by decide)

/-- **The eighth field is stored past the key.** -/
theorem not_staysInKey :
    ∃ k, LookupKeyMemory.load zeroKey (some (sourcesJson 8)) = some k ∧
      ¬StaysInKey (PktFields.stores (PktFields.null.set .ipv4Src (some (.data 0 26)))
        fun _ => false) (k.copy fun _ => 0) := by
  have h : jsonToLookupKey (some (sourcesJson 8)) = some (List.replicate 8 .ipv4Src) := by
    decide +kernel
  refine ⟨_, load_eq h, fun hstays => ?_⟩
  have hlast := hstays 8 (by decide +kernel)
  exact absurd hlast (by decide)

end Sw

end FlowBlaze

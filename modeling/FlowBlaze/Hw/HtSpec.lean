import FlowBlaze.Hw.Ht128dp
/-!
# What the tables decide

The control logic sees four rows and a key. Read as a map, its decision
is short: a removal erases the key where it was found, an insertion
stores it in one cell, and the entry of another key is lost only when it
is kicked out. The premises are that the rows were read at the addresses
of the key (`ReadHome`) and that they are written back there
(`WritesHome`); the address ports promise neither.
-/

namespace FlowBlaze

namespace Hw

open Common

/-! ## The control logic -/

namespace HtReg

variable {r : HtReg} {i : Way}

/-- With no operation under way nothing is driven. -/
theorem control_idle (hr : r.removeD = false) (hi : r.insertD = false) (hu : r.updateD = false) :
    r.control = r.controlDefault := by
  simp [control, hr, hi, hu]

/-- A removal that found its key writes one table. -/
theorem control_remove_found (hr : r.removeD = true) (hi : r.insertD = false)
    (hu : r.updateD = false) (hf : ways.find? r.found = some i) :
    r.control = { r.controlDefault with
      countItemNext := r.countItem - 1
      memoryWriteEnable := Function.update r.controlDefault.memoryWriteEnable i true } := by
  simp [control, hr, hi, hu, controlRemove, hf]

/-- A removal that did not find its key drives nothing. -/
theorem control_remove_missing (hr : r.removeD = true) (hi : r.insertD = false)
    (hu : r.updateD = false) (hf : ways.find? r.found = none) : r.control = r.controlDefault := by
  simp [control, hr, hi, hu, controlRemove, hf]

/-- An insertion that found its key in one table writes that table. -/
theorem control_insert_found (hr : r.removeD = false) (hi : r.insertD = true)
    (hf : ways.filter r.found = [i]) : r.control = r.controlDefault.fill i := by
  have hany : ways.any r.found = true := by
    have hmem : i ∈ ways.filter r.found := by rw [hf]; exact List.mem_singleton_self i
    exact List.any_eq_true.2 ⟨i, List.mem_filter.1 hmem⟩
  simp [control, hr, hi, updated, controlUpdate, hf, hany]

/-- An insertion that did not find its key goes on to look for a free row. -/
theorem control_insert_missing (hr : r.removeD = false) (hi : r.insertD = true)
    (hf : ∀ j, r.found j = false) : r.control = r.controlInsert r.controlDefault := by
  have hnil : ways.filter r.found = [] := by
    rw [List.filter_eq_nil_iff]
    intro j _
    simp [hf j]
  have hany : ways.any r.found = false := by simp [hf]
  simp [control, hr, hi, updated, controlUpdate, hnil, hany]

end HtReg

@[simp] theorem HtReg.controlDefault_kicked (r : HtReg) : r.controlDefault.kicked = false := rfl

@[simp] theorem Control.fill_writeEnable (c : Control) (i : Way) :
    (c.fill i).memoryWriteEnable = Function.update c.memoryWriteEnable i true := rfl

@[simp] theorem Control.fill_dinInsert_self (c : Control) (i : Way) :
    (c.fill i).dinInsert i = { c.dinInsert i with upd := true, valid := true } := by
  simp [Control.fill]

@[simp] theorem Control.fill_kicked (c : Control) (i : Way) : (c.fill i).kicked = c.kicked := rfl

@[simp] theorem Control.fill_countItemNext (c : Control) (i : Way) :
    (c.fill i).countItemNext = c.countItemNext := rfl

/-- A list without repetition keeps one element when only that one passes. -/
private theorem filter_eq_singleton {α : Type} [DecidableEq α] {l : List α} {q : α → Bool} {a : α}
    (hn : l.Nodup) (ha : a ∈ l) (hq : q a = true) (hu : ∀ b, q b = true → b = a) :
    l.filter q = [a] := by
  have hcongr : l.filter q = l.filter (· == a) := by
    refine List.filter_congr fun b _ => ?_
    by_cases hb : b = a
    · rw [hb, hq]; simp
    · have hqb : q b = false := by
        cases h : q b with
        | false => rfl
        | true => exact absurd (hu b h) hb
      rw [hqb]; simp [hb]
  rw [hcongr, List.filter_beq, List.count_eq_one_of_mem hn ha]
  rfl

/-! ## The contents after a decision -/

namespace HtReg

variable {r : HtReg} {p : HtIn} {i : Way}

/-- The rows the control logic sees are those of the registered key. -/
def ReadHome (r : HtReg) : Prop := ∀ i, r.doutInsert i = r.htMem i (wayAddr i r.keyD)

/-- A row that is written is written at the address of the registered key. -/
def WritesHome (r : HtReg) (p : HtIn) : Prop :=
  ∀ i, r.control.memoryWriteEnable i = true → r.addrb p i = wayAddr i r.keyD

/-- Without AXI writes the control logic alone enables the RAMs. -/
theorem writeEnable_eq (hwe : p.we = false) (i : Way) :
    r.writeEnable p i = r.control.memoryWriteEnable i := by
  simp [writeEnable, hwe]

/-- **A cycle in which no row is written reads the rows of its key**, and
they are still the same when it decides. -/
theorem readHome_next (hwe : p.we = false) (hq : ∀ i, r.control.memoryWriteEnable i = false)
    (hrd : p.rd = true → ∀ i, p.addr.extractLsb' 0 10 = wayAddr i p.key) :
    (r.next p).ReadHome := by
  have hen : ∀ i, r.writeEnable p i = false := fun i => by rw [writeEnable_eq hwe, hq i]
  have hw : r.writes p = false := by simp [writes, hen]
  have haddr : ∀ i, r.addrb p i = wayAddr i p.key := by
    intro i
    unfold addrb insertKey
    rw [hw, hwe]
    cases hr : p.rd with
    | false => simp
    | true => simpa using hrd hr i
  intro i
  show r.htMem i (r.addrb p i) = (r.next p).htMem i (wayAddr i p.key)
  rw [haddr i]
  simp [next, hen]

/-- A row is written at home when the processor reads no other row. -/
theorem writesHome_of (hwe : p.we = false)
    (hrd : ∀ i, r.control.memoryWriteEnable i = true → p.rd = true →
      p.addr.extractLsb' 0 10 = wayAddr i r.keyD) : r.WritesHome p := by
  intro i hi
  have hw : r.writes p = true := by
    refine List.any_eq_true.2 ⟨i, mem_ways i, ?_⟩
    rw [writeEnable_eq hwe, hi]
  unfold addrb insertKey
  rw [hw, hwe]
  cases hr : p.rd with
  | false => simp
  | true => simpa using hrd i hi hr

/-- The RAMs stay as they are while none is enabled. -/
theorem htMem_next_of_none (hwe : p.we = false)
    (hnone : ∀ i, r.control.memoryWriteEnable i = false) : (r.next p).htMem = r.htMem := by
  funext i a
  simp [next, writeEnable_eq hwe, hnone]

/-- A decision that enables nothing changes nothing. -/
theorem content_next_of_none (hwe : p.we = false)
    (hnone : ∀ i, r.control.memoryWriteEnable i = false) : (r.next p).content = r.content := by
  unfold content
  rw [htMem_next_of_none hwe hnone]

/-- One row of one RAM changes when that RAM alone is enabled. -/
theorem htMem_next_of_one (hwe : p.we = false)
    (hone : r.control.memoryWriteEnable = Function.update (fun _ => false) i true)
    (j : Way) (a : Addr) :
    (r.next p).htMem j a =
      if j = i ∧ a = r.addrb p i then r.control.dinInsert i else r.htMem j a := by
  simp only [next, writeEnable_eq hwe, dinb, hwe, hone]
  by_cases hj : j = i
  · subst hj
    simp
  · simp [hj]

/-- A decision that enables one table writes one cell. -/
theorem content_next_of_one (hwe : p.we = false) (hw : r.WritesHome p)
    (hone : r.control.memoryWriteEnable = Function.update (fun _ => false) i true) :
    (r.next p).content =
      r.content.write i (wayAddr i r.keyD) (r.control.dinInsert i).entry := by
  have hhome : r.addrb p i = wayAddr i r.keyD := hw i (by rw [hone, Function.update_self])
  funext j a
  show ((r.next p).htMem j a).entry = _
  rw [htMem_next_of_one hwe hone, hhome, Tables.write_apply]
  split <;> rfl

/-- What it means that a row read at home holds the key. -/
theorem found_iff (hread : r.ReadHome) :
    r.found i = true ↔ ∃ v, r.content i (wayAddr i r.keyD) = some (r.keyD, v) := by
  unfold found content Row.entry
  rw [hread i]
  cases hv : (r.htMem i (wayAddr i r.keyD)).valid <;> simp

/-- How many rows are valid. -/
def validSlots (r : HtReg) : ℕ :=
  (Finset.univ.filter fun c : Way × Addr => (r.htMem c.1 c.2).valid).card

theorem size_content (r : HtReg) : r.content.size = r.validSlots :=
  Tables.size_eq (q := fun i a => (r.htMem i a).valid) fun i a => by
    unfold content Row.entry
    cases (r.htMem i a).valid <;> rfl

/-- A key none of the rows holds is nowhere. -/
theorem not_has_of_not_found (hread : r.ReadHome) (hp : Tables.Placed wayAddr r.content)
    (hf : ∀ j, r.found j = false) : ¬ r.content.Has r.keyD := by
  rintro ⟨v, hv⟩
  obtain ⟨j, hj⟩ := hp.maps_iff.1 hv
  have := (found_iff hread).2 ⟨v, hj⟩
  rw [hf j] at this
  cases this

/-- A cell whose row was read as free is empty. -/
theorem content_of_free (hread : r.ReadHome) (hf : (r.doutInsert i).valid = false) :
    r.content i (wayAddr i r.keyD) = none := by
  unfold content Row.entry
  rw [← hread i, hf]
  rfl

/-- A cell whose row was read as taken holds what was read. -/
theorem content_of_taken (hread : r.ReadHome) (hf : (r.doutInsert i).valid = true) :
    r.content i (wayAddr i r.keyD) = some ((r.doutInsert i).key, (r.doutInsert i).value) := by
  unfold content Row.entry
  rw [← hread i, hf]
  rfl

/-- Between operations the tables stay as they are. -/
theorem next_idle (hwe : p.we = false) (hrst : p.reset = false) (hr : r.removeD = false)
    (hi : r.insertD = false) (hu : r.updateD = false) :
    (r.next p).content = r.content ∧ (r.next p).countItem = r.countItem ∧
      r.control.kicked = false := by
  have hc := control_idle hr hi hu
  refine ⟨content_next_of_none hwe fun i => ?_, ?_, ?_⟩
  · rw [hc]; rfl
  · simp only [next, hrst, hc]; rfl
  · rw [hc]; rfl

/-- **What a removal does.** It erases a row that holds its key, or none
of the rows of its key does. -/
theorem next_remove_row (hwe : p.we = false) (hrst : p.reset = false) (hw : r.WritesHome p)
    (hread : r.ReadHome) (hr : r.removeD = true) (hi : r.insertD = false)
    (hu : r.updateD = false) :
    r.control.kicked = false ∧
    ((∃ i v, r.control.memoryWriteEnable i = true ∧
        r.content i (wayAddr i r.keyD) = some (r.keyD, v) ∧
        (r.next p).content = r.content.write i (wayAddr i r.keyD) none ∧
        (r.next p).countItem = r.countItem - 1) ∨
      ((∀ i, r.found i = false) ∧ (r.next p).content = r.content ∧
        (r.next p).countItem = r.countItem)) := by
  cases hf : ways.find? r.found with
  | some i =>
    have hc := control_remove_found hr hi hu hf
    refine ⟨by rw [hc]; rfl, Or.inl ?_⟩
    obtain ⟨v, hv⟩ := (found_iff hread).1 (List.find?_some hf)
    refine ⟨i, v, by rw [hc]; simp, hv, ?_, ?_⟩
    · rw [content_next_of_one (i := i) hwe hw (by rw [hc]; rfl), hc]
      rfl
    · simp only [next, hrst, hc]; rfl
  | none =>
    have hc := control_remove_missing hr hi hu hf
    rw [List.find?_eq_none] at hf
    refine ⟨by rw [hc]; rfl, Or.inr ⟨?_, ?_, ?_⟩⟩
    · exact fun j => by simpa using hf j (mem_ways j)
    · exact content_next_of_none hwe fun i => by rw [hc]; rfl
    · simp only [next, hrst, hc]; rfl

/-- **A removal erases its key** from tables in which every entry is in
its place. -/
theorem next_remove (hwe : p.we = false) (hrst : p.reset = false) (hw : r.WritesHome p)
    (hread : r.ReadHome) (hp : Tables.Placed wayAddr r.content)
    (hr : r.removeD = true) (hi : r.insertD = false) (hu : r.updateD = false) :
    r.control.kicked = false ∧
    ((∃ i v, r.control.memoryWriteEnable i = true ∧
        r.content i (wayAddr i r.keyD) = some (r.keyD, v) ∧
        (r.next p).content = r.content.write i (wayAddr i r.keyD) none ∧
        (r.next p).countItem = r.countItem - 1) ∨
      (¬ r.content.Has r.keyD ∧ (r.next p).content = r.content ∧
        (r.next p).countItem = r.countItem)) := by
  obtain ⟨hkick, hrow⟩ := next_remove_row hwe hrst hw hread hr hi hu
  exact ⟨hkick, hrow.imp_right (And.imp_left (not_has_of_not_found hread hp))⟩

/-- **What an insertion does.** It stores the key in one cell, which was
free, held the key before, or gave up the entry that is kicked out. -/
structure Inserted (r r' : HtReg) (i : Way) : Prop where
  writes : r.control.memoryWriteEnable i = true
  content : r'.content = r.content.write i (wayAddr i r.keyD) (some (r.keyD, r.valueD))
  onlyAt : r.content.OnlyAt i (wayAddr i r.keyD) r.keyD
  cell :
    (r.control.kicked = false ∧ r.content i (wayAddr i r.keyD) = none ∧
      r'.countItem = r.countItem + 1) ∨
    (r.control.kicked = false ∧ (∃ v, r.content i (wayAddr i r.keyD) = some (r.keyD, v)) ∧
      r'.countItem = r.countItem) ∨
    (r.control.kicked = true ∧ r'.countItem = r.countItem ∧
      r.content i (wayAddr i r.keyD) = some (r.control.kickedKey, r.control.kickedValue) ∧
      r.control.kickedKey ≠ r.keyD)

/-- **An insertion stores its key.** -/
theorem next_insert (hwe : p.we = false) (hrst : p.reset = false) (hw : r.WritesHome p)
    (hread : r.ReadHome) (hp : Tables.Placed wayAddr r.content)
    (hr : r.removeD = false) (hi : r.insertD = true) :
    ∃ i, Inserted r (r.next p) i := by
  by_cases hex : ∃ i, r.found i = true
  · -- the key is there: its row is written again
    obtain ⟨i, hfi⟩ := hex
    obtain ⟨v, hv⟩ := (found_iff hread).1 hfi
    have huniq : ∀ j, r.found j = true → j = i := by
      intro j hj
      obtain ⟨w, hjw⟩ := (found_iff hread).1 hj
      exact hp.unique hjw hv
    have hc := control_insert_found hr hi
      (filter_eq_singleton (by decide) (mem_ways i) hfi huniq)
    refine ⟨i, by rw [hc]; simp, ?_, hp.onlyAt hv, Or.inr (Or.inl ⟨by rw [hc]; rfl, ⟨v, hv⟩, ?_⟩)⟩
    · rw [content_next_of_one (i := i) hwe hw (by rw [hc]; rfl), hc]
      simp [Row.entry, controlDefault]
    · simp only [next, hrst, hc]; rfl
  · have hnf : ∀ j, r.found j = false := fun j => by
      cases h : r.found j with
      | false => rfl
      | true => exact absurd ⟨j, h⟩ hex
    have hno := not_has_of_not_found hread hp hnf
    have hc := control_insert_missing hr hi hnf
    cases hfree : ways.find? fun i => !(r.doutInsert i).valid with
    | some i =>
      -- a free row takes the key
      have hci : r.control =
          { r.controlDefault.fill i with countItemNext := r.countItem + 1 } := by
        rw [hc, controlInsert, hfree]
      have hval : (r.doutInsert i).valid = false := by simpa using List.find?_some hfree
      refine ⟨i, by rw [hci]; simp, ?_, Tables.onlyAt_of_not_has hno,
        Or.inl ⟨by rw [hci]; rfl, content_of_free hread hval, ?_⟩⟩
      · rw [content_next_of_one (i := i) hwe hw (by rw [hci]; rfl), hci]
        simp [Row.entry, controlDefault]
      · simp only [next, hrst, hci]; rfl
    | none =>
      -- every row is taken: the one of `kickWay` goes
      have hci : r.control =
          { r.controlDefault.fill r.kickWay with
            countCollisionNext := r.countCollision + 1
            kicked := true
            kickedValue := (r.doutInsert r.kickWay).value
            kickedKey := (r.doutInsert r.kickWay).key } := by
        rw [hc, controlInsert, hfree]
      have hval : (r.doutInsert r.kickWay).valid = true := by
        rw [List.find?_eq_none] at hfree
        simpa using hfree r.kickWay (mem_ways _)
      have hcell := content_of_taken hread hval
      refine ⟨r.kickWay, by rw [hci]; simp, ?_, Tables.onlyAt_of_not_has hno,
        Or.inr (Or.inr ⟨by rw [hci], ?_, ?_, ?_⟩)⟩
      · rw [content_next_of_one (i := r.kickWay) hwe hw (by rw [hci]; rfl), hci]
        simp [Row.entry, controlDefault]
      · simp only [next, hrst, hci]; rfl
      · rw [hci]; exact hcell
      · rw [hci]
        intro hk
        rw [show (r.doutInsert r.kickWay).key = r.keyD from hk] at hcell
        exact hno ⟨_, _, _, hcell⟩

/-- The counter follows the number of entries. -/
theorem Inserted.countItem_add {r' : HtReg} (h : Inserted r r' i) :
    r'.countItem + BitVec.ofNat 32 r.content.size =
      r.countItem + BitVec.ofNat 32 r'.content.size := by
  have hsize := Tables.size_write (T := r.content) (i := i) (a := wayAddr i r.keyD)
    (some (r.keyD, r.valueD))
  rw [← h.content] at hsize
  rcases h.cell with ⟨-, hcell, hcnt⟩ | ⟨-, ⟨w, hcell⟩, hcnt⟩ | ⟨-, hcnt, hcell, -⟩ <;>
    rw [hcell] at hsize <;> simp at hsize <;> rw [hcnt, hsize]
  rw [BitVec.ofNat_add, BitVec.add_assoc, BitVec.add_comm 1]
  rfl

/-- **A cycle in which no table is written.** Nothing is driven, no
insertion is under way, and a removal under way has nothing to erase. -/
theorem quiet (hwe : p.we = false) (hrst : p.reset = false)
    (hread : r.insertD = true ∨ r.removeD = true → r.ReadHome)
    (hp : Tables.Placed wayAddr r.content)
    (hone : r.removeD = true → r.insertD = false) (hu : r.updateD = false)
    (hq : ∀ i, r.control.memoryWriteEnable i = false) :
    r.control = r.controlDefault ∧ r.insertD = false ∧
      (r.removeD = true → ¬ r.content.Has r.keyD) := by
  have hw : r.WritesHome p := fun i hi => by rw [hq i] at hi; cases hi
  cases hr : r.removeD with
  | true =>
    have hi := hone hr
    cases hf : ways.find? r.found with
    | some i =>
      have := hq i
      rw [control_remove_found hr hi hu hf] at this
      simp at this
    | none =>
      refine ⟨control_remove_missing hr hi hu hf, hi, fun _ => ?_⟩
      rw [List.find?_eq_none] at hf
      refine not_has_of_not_found (hread (Or.inr hr)) hp fun j => ?_
      simpa using hf j (mem_ways j)
  | false =>
    cases hi : r.insertD with
    | true =>
      obtain ⟨i, hins⟩ := next_insert hwe hrst hw (hread (Or.inl hi)) hp hr hi
      have := hins.writes
      rw [hq i] at this
      cases this
    | false => exact ⟨control_idle hr hi hu, rfl, fun h => by cases h⟩

end HtReg

end Hw

end FlowBlaze

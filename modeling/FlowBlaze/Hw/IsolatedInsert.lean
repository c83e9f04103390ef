import FlowBlaze.Hw.HtSpec
/-!
# An insertion on its own

The two cycles of an insertion that nothing disturbs: no row is being
written when it starts, and the ports ask for nothing else in its first
cycle and for nothing at all in its second. It then reads the four rows
of its key and writes one of them back where it was read, so that the
new content differs from the old in one cell. What that cell held is
nothing, the key itself, or the entry reported as kicked out.
-/

namespace FlowBlaze

namespace Hw

open Common

/-- The ports in the cycle of an insertion. -/
structure InsertPulse (p : HtIn) : Prop where
  insert : p.insert = true
  remove : p.remove = false
  update : p.update = false
  we : p.we = false
  rd : p.rd = false

/-- The ports in a cycle in which nothing is asked for. -/
structure Unasked (p : HtIn) : Prop where
  insert : p.insert = false
  remove : p.remove = false
  update : p.update = false
  we : p.we = false
  rd : p.rd = false

namespace HtReg

variable {r : HtReg} {p q : HtIn} {i : Way} {k : Key} {v : Value}

/-! ## Cycles without a pending write -/

/-- The control logic after the branch of a removal. -/
def afterRemove (r : HtReg) : Control :=
  if r.removeD then r.controlRemove r.controlDefault else r.controlDefault

/-- The control logic after the branch of an update. -/
def afterUpdate (r : HtReg) : Control :=
  if r.updateD || r.insertD then r.controlUpdate r.afterRemove else r.afterRemove

theorem control_eq (r : HtReg) :
    r.control = if !r.updated && r.insertD then r.controlInsert r.afterUpdate else r.afterUpdate :=
  rfl

/-- Filling tables in turn writes all of them, and those enabled before. -/
theorem writeEnable_foldl_fill {l : List Way} {c : Control}
    (hi : i ∈ l ∨ c.memoryWriteEnable i = true) :
    (l.foldl Control.fill c).memoryWriteEnable i = true := by
  induction l generalizing c with
  | nil =>
    rcases hi with hi | hi
    · cases hi
    · exact hi
  | cons j l ih =>
    refine ih (c := c.fill j) ?_
    rcases hi with hi | hi
    · rcases List.mem_cons.mp hi with rfl | hi
      · exact Or.inr (by rw [Control.fill_writeEnable, Function.update_self])
      · exact Or.inl hi
    · exact Or.inr (by rw [Control.fill_writeEnable, Function.update_apply, hi, ite_self])

/-- Storing a key that was not found always writes. -/
theorem exists_writeEnable_controlInsert (r : HtReg) (c : Control) :
    ∃ i, (r.controlInsert c).memoryWriteEnable i = true := by
  unfold controlInsert
  cases ways.find? fun i => !(r.doutInsert i).valid with
  | some i => exact ⟨i, Function.update_self _ _ _⟩
  | none => exact ⟨r.kickWay, Function.update_self _ _ _⟩

/-- A removal that found its key writes. -/
theorem afterRemove_of_quiet (hq : ∀ i, r.afterRemove.memoryWriteEnable i = false) :
    r.afterRemove = r.controlDefault := by
  unfold afterRemove controlRemove at hq ⊢
  cases hr : r.removeD with
  | false => rfl
  | true =>
    rw [hr, if_pos rfl] at hq
    rw [if_pos rfl]
    cases hf : ways.find? r.found with
    | none => rfl
    | some i =>
      have hi := hq i
      simp [hf] at hi

/-- An update that found its key writes. -/
theorem afterUpdate_of_quiet (hq : ∀ i, r.afterUpdate.memoryWriteEnable i = false) :
    r.afterUpdate = r.controlDefault := by
  unfold afterUpdate controlUpdate at hq ⊢
  by_cases hu : (r.updateD || r.insertD) = true
  · rw [if_pos hu] at hq ⊢
    have hnil : ways.filter r.found = [] := by
      refine List.eq_nil_iff_forall_not_mem.mpr fun i hi => ?_
      have := hq i
      rw [writeEnable_foldl_fill (Or.inl hi)] at this
      cases this
    rw [hnil] at hq ⊢
    exact afterRemove_of_quiet hq
  · rw [if_neg hu] at hq ⊢
    exact afterRemove_of_quiet hq

/-- **While no row is written nothing is driven.** -/
theorem control_of_quiet (hq : ∀ i, r.control.memoryWriteEnable i = false) :
    r.control = r.controlDefault := by
  rw [control_eq] at hq ⊢
  by_cases hins : (!r.updated && r.insertD) = true
  · obtain ⟨i, hi⟩ := exists_writeEnable_controlInsert r r.afterUpdate
    have := hq i
    rw [if_pos hins, hi] at this
    cases this
  · rw [if_neg hins] at hq ⊢
    exact afterUpdate_of_quiet hq

/-! ## What an insertion does to the map -/

section Inserted

variable {r' : HtReg}

/-- The table holds the key afterwards. -/
theorem Inserted.stored (h : Inserted r r' i) : r'.content.Maps r.keyD r.valueD := by
  rw [h.content]
  exact (Tables.maps_store h.onlyAt).mpr (Or.inl ⟨rfl, rfl⟩)

/-- The entry of another key was there before. -/
theorem Inserted.maps_before (h : Inserted r r' i) (hk : k ≠ r.keyD) (hm : r'.content.Maps k v) :
    r.content.Maps k v := by
  rw [h.content] at hm
  rcases (Tables.maps_store h.onlyAt).mp hm with ⟨rfl, -⟩ | ⟨-, j, b, hjb, -⟩
  · exact absurd rfl hk
  · exact ⟨j, b, hjb⟩

/-- **The entry of another key stays**, unless it is the one kicked out. -/
theorem Inserted.kept_or_kicked (h : Inserted r r' i) (hk : k ≠ r.keyD)
    (hm : r.content.Maps k v) :
    r'.content.Maps k v ∨
      (r.control.kicked = true ∧ k = r.control.kickedKey ∧ v = r.control.kickedValue) := by
  obtain ⟨j, b, hjb⟩ := hm
  by_cases hcell : j = i ∧ b = wayAddr i r.keyD
  · obtain ⟨rfl, rfl⟩ := hcell
    rcases h.cell with ⟨-, hnone, -⟩ | ⟨-, ⟨w, hown⟩, -⟩ | ⟨hkick, -, hout, -⟩
    · rw [hjb] at hnone
      cases hnone
    · rw [hjb] at hown
      cases hown
      exact absurd rfl hk
    · rw [hjb] at hout
      cases hout
      exact Or.inr ⟨hkick, rfl, rfl⟩
  · rw [h.content]
    exact Or.inl ((Tables.maps_store h.onlyAt).mpr (Or.inr ⟨hk, j, b, hjb, hcell⟩))

/-- **The entry kicked out is missing.** -/
theorem Inserted.kicked_missing (h : Inserted r r' i) (hp : Tables.Placed wayAddr r.content)
    (hkick : r.control.kicked = true) :
    r.control.kickedKey ≠ r.keyD ∧
      r.content.Maps r.control.kickedKey r.control.kickedValue ∧
      ¬ r'.content.Has r.control.kickedKey := by
  rcases h.cell with ⟨hno, -⟩ | ⟨hno, -⟩ | ⟨-, -, hout, hne⟩
  · rw [hkick] at hno
    cases hno
  · rw [hkick] at hno
    cases hno
  · refine ⟨hne, ⟨i, _, hout⟩, ?_⟩
    rintro ⟨w, hw⟩
    rw [h.content] at hw
    rcases (Tables.maps_store h.onlyAt).mp hw with ⟨heq, -⟩ | ⟨-, j, b, hjb, hcell⟩
    · exact hne heq
    · exact hcell (hp.onlyAt hout hjb)

end Inserted

/-! ## The two cycles -/

/-- **An exact insertion**: from one content to another, while the control
logic reports what it kicks out. -/
structure InsertsExactly (r r' : HtReg) (c : Control) (k : Key) (v : Value) : Prop where
  placed : Tables.Placed wayAddr r'.content
  stored : r'.content.Maps k v
  kept : ∀ k' v', k' ≠ k → r.content.Maps k' v' →
    r'.content.Maps k' v' ∨ (c.kicked = true ∧ k' = c.kickedKey ∧ v' = c.kickedValue)
  before : ∀ k' v', k' ≠ k → r'.content.Maps k' v' → r.content.Maps k' v'
  missing : c.kicked = true →
    c.kickedKey ≠ k ∧ r.content.Maps c.kickedKey c.kickedValue ∧ ¬ r'.content.Has c.kickedKey

/-- The rows an undisturbed insertion decides on are those of its key. -/
theorem readHome_of_pulse (hp : InsertPulse p)
    (hq : ∀ i, r.control.memoryWriteEnable i = false) : (r.next p).ReadHome :=
  readHome_next hp.we hq fun hrd => by rw [hp.rd] at hrd; cases hrd

/-- Nor is it written elsewhere. -/
theorem writesHome_of_unasked (hq : Unasked q) : r.WritesHome q :=
  writesHome_of hq.we fun _ _ hrd => by rw [hq.rd] at hrd; cases hrd

/-- **An isolated insertion is exact**, and without a reset the counter
changes by the change in the number of valid rows. -/
theorem isolated_insert_exact (hr : Tables.Placed wayAddr r.content)
    (hquiet : ∀ i, r.control.memoryWriteEnable i = false)
    (hp : InsertPulse p) (hq : Unasked q) :
    InsertsExactly r ((r.next p).next q) (r.next p).control p.key p.value ∧
      (p.reset = false → q.reset = false →
        ((r.next p).next q).countItem + BitVec.ofNat 32 r.validSlots =
          r.countItem + BitVec.ofNat 32 ((r.next p).next q).validSlots) := by
  have hsame : (r.next p).content = r.content := content_next_of_none hp.we hquiet
  -- what is written does not depend on a reset
  obtain ⟨i, hins⟩ := next_insert (r := r.next p) (p := { q with reset := false }) hq.we rfl
    (writesHome_of_unasked ⟨hq.insert, hq.remove, hq.update, hq.we, hq.rd⟩)
    (readHome_of_pulse hp hquiet) (hsame.symm ▸ hr) hp.remove hp.insert
  have hplaced : Tables.Placed wayAddr ((r.next p).next { q with reset := false }).content := by
    rw [hins.content]
    exact (hsame.symm ▸ hr : Tables.Placed wayAddr (r.next p).content).store hins.onlyAt
  refine ⟨⟨hplaced, hins.stored, fun k' v' hk hm => ?_, fun k' v' hk hm => ?_, fun hkick => ?_⟩,
    fun hpr hqr => ?_⟩
  · exact hins.kept_or_kicked hk (hsame.symm ▸ hm)
  · exact hsame ▸ hins.maps_before hk hm
  · exact hsame ▸ hins.kicked_missing (hsame.symm ▸ hr) hkick
  -- only here does a reset matter, which clears the counter
  · have hcount := hins.countItem_add
    have hstart : (r.next p).countItem = r.countItem := by
      simp only [next, hpr, control_of_quiet hquiet]
      rfl
    have hq' : { q with reset := false } = q := by rw [← hqr]
    rw [hq', hsame, hstart, size_content, size_content] at hcount
    exact hcount

/-- One row of each of the tables. -/
def takenRow (i : Way) : Row :=
  ⟨true, true, BitVec.ofNat 126 (10 * (i.val + 1)), collidingKey (i.val + 1)⟩

/-- It is taken, and all others are free. -/
def rowsTaken : HtReg where
  htMem i a := if a = 0 then takenRow i else ⟨false, false, 0, 0⟩
  doutQuery _ := ⟨false, false, 0, 0⟩
  doutInsert _ := ⟨false, false, 0, 0⟩
  searchD := 0
  keyD := 0
  valueD := 0
  updateD := false
  removeD := false
  insertD := false
  countCollision := 0
  countItem := 4
  countSelectKick := 0

theorem content_rowsTaken {a : Addr} (h : rowsTaken.content i a = some (k, v)) :
    a = 0 ∧ k = collidingKey (i.val + 1) := by
  change (if a = 0 then takenRow i else ⟨false, false, 0, 0⟩ : Row).entry = some (k, v) at h
  by_cases ha : a = 0
  · rw [if_pos ha] at h
    cases h
    exact ⟨ha, rfl⟩
  · rw [if_neg ha] at h
    cases h

theorem placed_rowsTaken : Tables.Placed wayAddr rowsTaken.content where
  home {i a k v} h := by
    have hhome : ∀ i : Way, 0 = wayAddr i (collidingKey (i.val + 1)) := by decide +kernel
    obtain ⟨rfl, rfl⟩ := content_rowsTaken h
    exact hhome i
  unique {i a j b k v v'} h h' := by
    have hinj : ∀ i j : Way, collidingKey (i.val + 1) = collidingKey (j.val + 1) → i = j := by
      decide +kernel
    exact hinj i j ((content_rowsTaken h).2.symm.trans (content_rowsTaken h').2)

/-- The ports when nothing is asked for. -/
def unasked : HtIn where
  reset := false
  search := false
  we := false
  rd := false
  inputDin := ⟨false, false, 0, 0⟩
  addr := 0
  remove := false
  insert := false
  update := false
  key := 0
  value := 0
  searchKey := 0
  clearCountCollision := false

/-- One key more for these rows. -/
def insertFifth : HtIn := { unasked with insert := true, key := collidingKey 5, value := 50 }

/-- **It kicks one of them out.** -/
theorem isolated_insert_exact_fifth :
    (rowsTaken.next insertFifth).control.kicked = true ∧
      InsertsExactly rowsTaken ((rowsTaken.next insertFifth).next unasked)
          (rowsTaken.next insertFifth).control (collidingKey 5) 50 ∧
        (insertFifth.reset = false → unasked.reset = false →
          ((rowsTaken.next insertFifth).next unasked).countItem +
              BitVec.ofNat 32 rowsTaken.validSlots =
            rowsTaken.countItem +
              BitVec.ofNat 32 ((rowsTaken.next insertFifth).next unasked).validSlots) :=
  ⟨by decide +kernel, isolated_insert_exact placed_rowsTaken (fun _ => rfl)
    ⟨rfl, rfl, rfl, rfl, rfl⟩ ⟨rfl, rfl, rfl, rfl, rfl⟩⟩

end HtReg

end Hw

end FlowBlaze

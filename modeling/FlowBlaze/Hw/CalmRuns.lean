import FlowBlaze.Hw.CuckooMap
/-!
# Calm runs of the flow table

Where no entry is ever kicked out, the stash stays empty and the background
process never begins. If the processor reads no row either, every cycle acts
on the right rows. Tables that hold one key only never kick an entry out.
-/

namespace FlowBlaze

namespace Hw

open Common

variable {σ : CuckooReg} {ports : ℕ → CuckooIn} {key : Key} {t : ℕ}

/-- **Nothing is kicked out**, and the processor reads no row. -/
structure Calm (σ : CuckooReg) (ports : ℕ → CuckooIn) : Prop where
  unread : ∀ t, (ports t).rd = false
  room : ∀ t, (run σ ports t).ht.control.kicked = false

/-! ## What a run does then -/

/-- An empty stash starts no background move. -/
theorem insertFSM_of_empty (hstash : ∀ i, (σ.st.stash i).occupied = false) (p : CuckooIn) :
    σ.insertFSM p = p.insert := by
  have htop : σ.st.top = none := by
    unfold StashReg.top
    rw [List.getLast?_eq_none_iff, List.filter_eq_nil_iff]
    exact fun i _ => Bool.eq_false_iff.mp (hstash i)
  have hnone : σ.st.notEmpty = false := by
    unfold StashReg.notEmpty
    rw [htop]
    rfl
  unfold CuckooReg.insertFSM CuckooReg.background
  rw [hnone, Bool.and_false, Bool.false_or]

/-- It stays empty while nothing is kicked out. -/
theorem stash_next (hstash : ∀ i, (σ.st.stash i).occupied = false) {p : CuckooIn}
    (hreset : p.reset = false) (hroom : σ.ht.control.kicked = false) (i : Fin 8) :
    ((σ.next p).st.stash i).occupied = false := by
  have hasked : σ.st.asked (σ.stashIn p) i = false := by
    unfold StashReg.asked
    rw [hstash, Bool.and_false]
  have hseat : σ.st.nextSeat (σ.stashIn p) i = σ.st.stash i := by
    unfold StashReg.nextSeat
    rw [hasked, show (σ.stashIn p).insert = false from hroom]
    rfl
  change (if p.reset then (⟨false, 0, 0⟩ : Seat) else σ.st.nextSeat (σ.stashIn p) i).occupied =
    false
  rw [hreset, hseat]
  exact hstash i

/-- **The stash of a calm run is empty**, and no entry is evicted. -/
theorem stash_run (hσ : EmptyTables σ) (hp : MapRun ports) (hc : Calm σ ports) (t : ℕ) :
    (∀ i, ((run σ ports t).st.stash i).occupied = false) ∧
      (run σ ports t).st.intEvictedEntry = 0 := by
  induction t with
  | zero => exact ⟨hσ.stash, hσ.evicted⟩
  | succ t ih =>
    exact ⟨stash_next ih.1 (hp.reset t) (hc.room t),
      (StashReg.evicted_next (hp.reset t) (hc.room t)).trans ih.2⟩

/-- So it holds no key. -/
theorem not_holds_run (hσ : EmptyTables σ) (hp : MapRun ports) (hc : Calm σ ports) (t : ℕ)
    (k : Key) (v : Value) : ¬(run σ ports t).st.Holds k v := by
  rintro ⟨i, hi⟩
  rw [StashReg.entries_eq_none.mpr ((stash_run hσ hp hc t).1 i)] at hi
  cases hi

/-- What the input registers hold was issued in the cycle before. -/
theorem insertD_succ (hσ : EmptyTables σ) (hp : MapRun ports) (hc : Calm σ ports) (t : ℕ) :
    (run σ ports (t + 1)).ht.insertD = (ports t).insert :=
  insertFSM_of_empty (stash_run hσ hp hc t).1 (ports t)

/-- No row is written in the cycle in which an operation is issued. -/
theorem control_of_op (hσ : EmptyTables σ) (hp : MapRun ports) (hc : Calm σ ports)
    (hop : (ports t).insert = true ∨ (ports t).remove = true) (i : Way) :
    (run σ ports t).ht.control.memoryWriteEnable i = false := by
  have hidle : (run σ ports t).ht.insertD = false ∧ (run σ ports t).ht.removeD = false ∧
      (run σ ports t).ht.updateD = false := by
    cases t with
    | zero => exact ⟨hσ.idle.1, hσ.idle.2.1, hσ.idle.2.2.1⟩
    | succ t =>
      -- another operation would be too close
      have hno : ∀ e, e ∈ [Pulse.insert, Pulse.remove] → (ports t).pulse e = false := by
        intro e he
        refine Bool.eq_false_iff.mpr fun hpulse => ?_
        have hfar : ∀ e', (ports (t + 1)).pulse e' = true → False := by
          intro e' hpulse'
          rcases hp.spaced t (t + 1) e e' (by cases e <;> simp) (by cases e' <;> simp) hpulse
            hpulse' with ⟨heq, -⟩ | hlt | hlt <;> omega
        exact hop.elim (hfar .insert) (hfar .remove)
      exact ⟨(insertD_succ hσ hp hc t).trans (hno .insert (by simp)), hno .remove (by simp), rfl⟩
  rw [HtReg.control_idle hidle.2.1 hidle.1 hidle.2.2]
  rfl

/-- **Every cycle of a calm run is clean.** -/
theorem cleanMap_of_calm (hσ : EmptyTables σ) (hp : MapRun ports) (hc : Calm σ ports) (t : ℕ) :
    CleanMap (run σ ports t) (ports t) := by
  have hread : ¬(ports t).rd = true := Bool.eq_false_iff.mp (hc.unread t)
  have hnot := not_holds_run hσ hp hc t
  refine ⟨⟨fun hstart => ⟨fun i => ?_, fun hrd => absurd hrd hread⟩,
    fun _ _ hrd => absurd hrd hread, fun _ k v hkv => absurd hkv (hnot k v),
    fun _ k v hkv => absurd hkv (hnot k v)⟩, fun _ k v hkv => absurd hkv (hnot k v)⟩
  rw [insertFSM_of_empty (stash_run hσ hp hc t).1] at hstart
  exact control_of_op hσ hp hc hstart i

/-- And so is every search. -/
theorem cleanSearch_of_calm (hσ : EmptyTables σ) (hp : MapRun ports) (hc : Calm σ ports) (t : ℕ) :
    CleanSearch (run σ ports t) (ports (t + 1)) := by
  intro hsearch
  refine ⟨fun v => not_holds_run hσ hp hc t _ v, fun hpipe => ?_⟩
  cases t with
  | zero =>
    have hnone : σ.ht.insertD = false := hσ.idle.1
    exact Bool.false_ne_true (hnone.symm.trans hpipe.1)
  | succ t =>
    have hquiet := (hp.quiet (u := t) hsearch (by omega) (by omega)).1
    rw [insertD_succ hσ hp hc, hquiet] at hpipe
    exact Bool.false_ne_true hpipe.1

/-! ## One key -/

/-- **The tables hold one key only**, in the first of the four. -/
structure OneKey (r : HtReg) (key : Key) : Prop where
  others : ∀ i a, i ≠ 0 → (r.htMem i a).valid = false
  first : ∀ a, (r.htMem 0 a).valid = true → (r.htMem 0 a).key = key
  idle : r.removeD = false ∧ r.updateD = false
  readOthers : r.insertD = true → ∀ i, i ≠ 0 → (r.doutInsert i).valid = false
  readFirst : r.insertD = true → (r.doutInsert 0).valid = true → (r.doutInsert 0).key = key
  keyD : r.insertD = true → r.keyD = key

/-- Then the first table is written, or none, and nothing is kicked out. -/
theorem OneKey.control {r : HtReg} (h : OneKey r key) :
    r.control.kicked = false ∧ (∀ i, i ≠ 0 → r.control.memoryWriteEnable i = false) ∧
      (r.control.memoryWriteEnable 0 = true → (r.control.dinInsert 0).key = key) := by
  cases hi : r.insertD with
  | false =>
    rw [HtReg.control_idle h.idle.1 hi h.idle.2]
    exact ⟨rfl, fun _ _ => rfl, fun hwrite => absurd hwrite Bool.false_ne_true⟩
  | true =>
    have hfill : r.control = r.controlDefault.fill 0 ∨ r.control =
        { r.controlDefault.fill 0 with countItemNext := r.countItem + 1 } := by
      have hothers : ∀ i, i ≠ 0 → r.found i = false := fun i hne => by
        unfold HtReg.found
        rw [h.readOthers hi i hne, Bool.and_false]
      cases hvalid : (r.doutInsert 0).valid with
      | true =>
        have hfound : r.found 0 = true := by
          unfold HtReg.found
          rw [h.readFirst hi hvalid, h.keyD hi, hvalid]
          simp
        refine .inl (HtReg.control_insert_found h.idle.1 hi ?_)
        simp [ways, hfound, hothers]
      | false =>
        have hfound : ∀ i, r.found i = false := fun i => by
          by_cases hne : i = 0
          · unfold HtReg.found
            rw [hne, hvalid, Bool.and_false]
          · exact hothers i hne
        rw [HtReg.control_insert_missing h.idle.1 hi hfound]
        refine .inr ?_
        simp [HtReg.controlInsert, ways, hvalid]
    rcases hfill with heq | heq
    all_goals
      rw [heq]
      refine ⟨rfl, fun i hne => Function.update_of_ne hne _ _, fun _ => ?_⟩
      simp [Control.fill, HtReg.controlDefault, h.keyD hi]

/-- It stays so while only that key is inserted. -/
theorem OneKey.next {r : HtReg} (h : OneKey r key) {p : HtIn} (hwe : p.we = false)
    (hremove : p.remove = false) (hupdate : p.update = false)
    (hinsert : p.insert = true → p.key = key) : OneKey (r.next p) key := by
  obtain ⟨-, hothers, hfirst⟩ := h.control
  have hmem : ∀ i a, (r.next p).htMem i a =
      if r.control.memoryWriteEnable i && a == r.addrb p i then r.control.dinInsert i
      else r.htMem i a := by
    intro i a
    change (if r.writeEnable p i && a == r.addrb p i then r.dinb p i else r.htMem i a) = _
    rw [HtReg.writeEnable_eq hwe]
    unfold HtReg.dinb
    rw [hwe]
    rfl
  refine ⟨fun i a hne => ?_, fun a hvalid => ?_, ⟨hremove, hupdate⟩,
    fun _ i hne => h.others i _ hne, fun _ => h.first _, hinsert⟩
  · rw [hmem, hothers i hne]
    exact h.others i a hne
  · rw [hmem] at hvalid ⊢
    cases hwrite : r.control.memoryWriteEnable 0 && a == r.addrb p 0 with
    | true => exact hfirst ((Bool.and_eq_true _ _).mp hwrite).1
    | false =>
      rw [hwrite] at hvalid
      exact h.first a hvalid

/-- **Runs that insert one key only are calm.** -/
theorem calm_of_oneKey (hσ : EmptyTables σ) (hunread : ∀ t, (ports t).rd = false)
    (hreset : ∀ t, (ports t).reset = false) (hwe : ∀ t, (ports t).we = false)
    (hremove : ∀ t, (ports t).remove = false)
    (hinsert : ∀ t, (ports t).insert = true → (ports t).key = key) : Calm σ ports := by
  have hall : ∀ t, OneKey (run σ ports t).ht key ∧
      ∀ i, ((run σ ports t).st.stash i).occupied = false := by
    intro t
    induction t with
    | zero =>
      have hnone : ∀ {q : Prop}, σ.ht.insertD = true → q := fun hi =>
        absurd (hσ.idle.1.symm.trans hi) Bool.false_ne_true
      exact ⟨⟨fun i a _ => hσ.htMem i a,
        fun a hvalid => absurd ((hσ.htMem 0 a).symm.trans hvalid) Bool.false_ne_true,
        ⟨hσ.idle.2.1, hσ.idle.2.2.1⟩, fun hi => hnone hi, fun hi => hnone hi,
        fun hi => hnone hi⟩, hσ.stash⟩
    | succ t ih =>
      refine ⟨ih.1.next (hwe t) (hremove t) rfl fun hstart => ?_,
        stash_next ih.2 (hreset t) ih.1.control.1⟩
      have hput : (ports t).insert = true := (insertFSM_of_empty ih.2 (ports t)).symm.trans hstart
      exact (CuckooReg.keyFSM_of_outside (.inl hput)).trans (hinsert t hput)
  exact ⟨hunread, fun t => (hall t).1.control.1⟩

end Hw

end FlowBlaze

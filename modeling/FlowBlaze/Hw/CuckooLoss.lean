import FlowBlaze.Hw.CuckooRefines
/-!
# No flow entry disappears silently

In a run of clean cycles an entry leaves the flow table only through an
operation on its key or through an eviction that is counted, and
`count_item` is the number of valid rows. Without the condition on the
cycles both fail: a read by the processor in the cycle a row is written
moves the write to the row the processor reads.
-/

namespace FlowBlaze

namespace Hw

open Common

variable {σ : CuckooReg} {ports : ℕ → CuckooIn} {t : ℕ} {k : Key} {v : Value}

/-- The entry is in a valid row, in the insertion pipeline, or in the
stash. -/
def Present (σ : CuckooReg) (k : Key) (v : Value) : Prop :=
  (∃ i a, (σ.ht.htMem i a).valid = true ∧ (σ.ht.htMem i a).key = k ∧
    (σ.ht.htMem i a).value = v) ∨
  (σ.ht.insertD = true ∧ σ.ht.keyD = k ∧ σ.ht.valueD = v) ∨
  ∃ i, (σ.st.stash i).occupied = true ∧ (σ.st.stash i).key = k ∧ (σ.st.stash i).value = v

/-- An operation for the key is issued in this cycle, or was issued in
the last and is carried out in this one. -/
def Issued (ports : ℕ → CuckooIn) (t : ℕ) (k : Key) : Prop :=
  ∃ u, (u = t ∨ u + 1 = t) ∧ ((ports u).insert = true ∨ (ports u).remove = true) ∧
    (ports u).key = k

/-- The entry is kicked while the stash is full, and counted. -/
def Evicted (σ σ' : CuckooReg) (k : Key) (v : Value) : Prop :=
  σ.ht.control.kicked = true ∧ σ.ht.control.kickedKey = k ∧ σ.ht.control.kickedValue = v ∧
    (∀ i, (σ.st.stash i).occupied = true) ∧
    σ'.st.intEvictedEntry = σ.st.intEvictedEntry + 1

/-- **In this cycle no entry disappears silently, and the counter is
right.** -/
def NoSilentLoss (σ : CuckooReg) (ports : ℕ → CuckooIn) (t : ℕ) : Prop :=
  (∀ k v, Present (run σ ports t) k v →
    Present (run σ ports (t + 1)) k v ∨ Issued ports t k ∨
      Evicted (run σ ports t) (run σ ports (t + 1)) k v) ∧
  (run σ ports t).ht.countItem.toNat =
    (Finset.univ.filter fun c : Way × Addr => ((run σ ports t).ht.htMem c.1 c.2).valid).card

/-- The runs in question: no reset, no write by the processor, and
operations from outside at least four cycles apart. -/
structure LossRun (ports : ℕ → CuckooIn) : Prop where
  reset : ∀ t, (ports t).reset = false
  we : ∀ t, (ports t).we = false
  spaced : Spaced ports [.insert, .remove]

/-- In such a run at most one operation is issued in a cycle. -/
theorem LossRun.env (h : LossRun ports) (t : ℕ) : Env (ports t) where
  reset := h.reset t
  we := h.we t
  one := by
    rintro ⟨hi, hr⟩
    rcases h.spaced t t .insert .remove (by simp) (by simp) hi hr with ⟨-, he⟩ | he | he
    · cases he
    · omega
    · omega

/-! ## Presence in the circuit and in the system with a stash -/

theorem HtReg.maps_content {r : HtReg} :
    r.content.Maps k v ↔
      ∃ i a, (r.htMem i a).valid = true ∧ (r.htMem i a).key = k ∧ (r.htMem i a).value = v := by
  refine exists_congr fun i => exists_congr fun a => ?_
  unfold HtReg.content Row.entry
  cases (r.htMem i a).valid <;> simp

namespace CuckooReg

/-- What is present in the circuit is present in its view, and the
other way round. -/
theorem present_view (hs : σ.Sync) : σ.view.Present k v ↔ Present σ k v := by
  have hmaps : σ.view.table.Maps k v ↔ _ := HtReg.maps_content (r := σ.ht) (k := k) (v := v)
  have hseat : σ.view.Seated k v ↔
      ∃ i, (σ.st.stash i).occupied = true ∧ (σ.st.stash i).key = k ∧
        (σ.st.stash i).value = v :=
    exists_congr fun i => StashReg.entries_eq_some
  unfold StashedTable.Present Present
  rw [hmaps, hseat, stores_iff hs]
  exact or_congr_right or_comm

/-- The counter is the number of entries: 4096 fit in 32 bits. -/
theorem Sync.count_toNat (hs : σ.Sync) : σ.ht.countItem.toNat = σ.ht.content.size := by
  have hle := Tables.size_le (T := σ.ht.content)
  simp only [Fintype.card_fin, card_addr] at hle
  rw [hs.count, BitVec.toNat_ofNat]
  exact Nat.mod_eq_of_lt (by omega)

end CuckooReg

/-- **No flow entry disappears silently in a clean run.** -/
theorem no_silent_loss (hσ : EmptyTables σ) (hp : LossRun ports)
    (hc : ∀ t, Clean (run σ ports t) (ports t)) (t : ℕ) : NoSilentLoss σ ports t := by
  have hinv := CuckooReg.Inv.run hσ hp.env hc
  refine ⟨fun k v hkv => ?_, ?_⟩
  · obtain ⟨e, hstep, hshow⟩ :=
      CuckooReg.step_of_clean (hinv t).sync (hinv t).wf (hp.env t) (hc t)
    rw [← CuckooReg.present_view (hinv t).sync] at hkv
    rcases hstep.present (hinv t).wf hkv with hnext | rfl | rfl | hpend
    · exact Or.inl ((CuckooReg.present_view (hinv (t + 1)).sync).1 hnext)
    · obtain ⟨-, hrem, hkey, -⟩ := hshow
      exact Or.inr (Or.inl ⟨t, Or.inl rfl, Or.inr hrem, hkey⟩)
    · obtain ⟨-, -, hk, hkk, hkv, hfull, hev⟩ := hshow
      exact Or.inr (Or.inr ⟨hk, hkk, hkv, hfull, hev⟩)
    · -- the operation carried out was issued in the cycle before
      cases t with
      | zero =>
        have hnone := CuckooReg.pending_of_empty hσ
        rcases hpend with hpend | ⟨w, hpend⟩ <;> rw [show (run σ ports 0).view = σ.view from rfl,
          hnone] at hpend <;> cases hpend
      | succ u =>
        obtain ⟨hop, hkey⟩ := CuckooReg.issued_of_pending (hp.env u) hpend
        exact Or.inr (Or.inl ⟨u, Or.inr rfl, hop, hkey⟩)
  · exact (hinv t).sync.count_toNat.trans (HtReg.size_content _)

/-! ## Two runs -/

/-- One insertion, in the first cycle. -/
def oneInsertion : ℕ → CuckooIn
  | 0 => { CuckooIn.idle with insert := true, key := 1, value := 10 }
  | _ + 1 => CuckooIn.idle

theorem lossRun_oneInsertion : LossRun oneInsertion where
  reset t := by cases t <;> rfl
  we t := by cases t <;> rfl
  spaced t t' e e' he he' h h' := by
    cases t with
    | succ t => cases e <;> cases h
    | zero =>
      cases t' with
      | succ t' => cases e' <;> cases h'
      | zero => cases e <;> cases e' <;> simp_all [CuckooIn.pulse, oneInsertion, CuckooIn.idle]

/-- No cycle of that run reads or writes a wrong row. -/
theorem clean_oneInsertion (t : ℕ) :
    Clean (run CuckooReg.initial oneInsertion t) (oneInsertion t) := by
  cases t with
  | zero =>
    refine ⟨fun _ => ⟨fun i => rfl, fun h => ?_⟩, fun _ _ h => ?_, fun _ k v hkv => ?_,
      fun h => ?_⟩
    · cases h
    · cases h
    · obtain ⟨i, hi⟩ := hkv
      cases hi
    · cases h
  | succ t =>
    refine ⟨fun h => ?_, fun _ _ h => ?_, fun h => ?_, fun h => ?_⟩
    · rcases h with h | h
      · simp [CuckooReg.insertFSM, CuckooReg.background, oneInsertion, CuckooIn.idle] at h
      · cases h
    all_goals cases h

/-- The entry is in the tables two cycles after it was issued, and stays. -/
theorem no_silent_loss_oneInsertion : NoSilentLoss CuckooReg.initial oneInsertion 2 :=
  no_silent_loss CuckooReg.emptyTables_initial lossRun_oneInsertion clean_oneInsertion 2

/-- Two insertions, and a read by the processor in the cycle the second
entry is written. The processor reads the row of the first. -/
def readInWriteCycle : ℕ → CuckooIn
  | 0 => { CuckooIn.idle with insert := true, key := 1, value := 10 }
  | 4 => { CuckooIn.idle with insert := true, key := 2, value := 20 }
  | 5 => { CuckooIn.idle with rd := true, addr := 1 }
  | _ => CuckooIn.idle

/-- When a port is driven in that run. -/
theorem readInWriteCycle_insert {t : ℕ} (h : (readInWriteCycle t).insert = true) :
    t = 0 ∨ t = 4 := by
  unfold readInWriteCycle at h
  split at h
  · exact Or.inl rfl
  · exact Or.inr rfl
  · cases h
  · cases h

/-- That run is one of those in question. -/
theorem lossRun_readInWriteCycle : LossRun readInWriteCycle where
  reset t := by unfold readInWriteCycle; split <;> rfl
  we t := by unfold readInWriteCycle; split <;> rfl
  spaced t t' e e' he he' h h' := by
    have hrem : ∀ u, (readInWriteCycle u).remove = false := fun u => by
      unfold readInWriteCycle; split <;> rfl
    cases e <;> cases e'
    · have ht := readInWriteCycle_insert h
      have ht' := readInWriteCycle_insert h'
      refine Or.imp_left (fun heq => ⟨heq, rfl⟩) ?_
      omega
    all_goals simp_all [CuckooIn.pulse]

/-- The RAMs of that run are written in two cycles, both times in the
first table. -/
private theorem writeEnable_readInWriteCycle {t : ℕ} (ht : t < 6) (i : Way) :
    (run CuckooReg.initial readInWriteCycle t).ht.control.memoryWriteEnable i =
      ((t == 1 || t == 5) && i == 0) := by
  have hall : ∀ (t : Fin 6) (i : Way),
      (run CuckooReg.initial readInWriteCycle t).ht.control.memoryWriteEnable i =
        ((t.val == 1 || t.val == 5) && i == 0) := by
    decide +kernel
  exact hall ⟨t, ht⟩ i

/-- A cycle of that run in which a row is written: it is row 1. -/
private theorem htMem_written {t : ℕ} (ht : t = 1 ∨ t = 5) (i : Way) (a : Addr) :
    (run CuckooReg.initial readInWriteCycle (t + 1)).ht.htMem i a =
      if i = 0 ∧ a = 1
      then (run CuckooReg.initial readInWriteCycle t).ht.control.dinInsert 0
      else (run CuckooReg.initial readInWriteCycle t).ht.htMem i a := by
  have haddr : (run CuckooReg.initial readInWriteCycle t).ht.addrb
      ((run CuckooReg.initial readInWriteCycle t).htIn (readInWriteCycle t)) 0 = 1 := by
    rcases ht with rfl | rfl <;> decide +kernel
  rw [← haddr]
  refine HtReg.htMem_next_of_one (lossRun_readInWriteCycle.we t) ?_ i a
  funext j
  rw [writeEnable_readInWriteCycle (by omega) j]
  by_cases hj : j = 0 <;> rcases ht with rfl | rfl <;> simp [hj]

/-- A cycle of that run in which no row is written. -/
private theorem htMem_kept {t : ℕ} (ht : t = 0 ∨ t = 2 ∨ t = 3 ∨ t = 4) :
    (run CuckooReg.initial readInWriteCycle (t + 1)).ht.htMem =
      (run CuckooReg.initial readInWriteCycle t).ht.htMem :=
  HtReg.htMem_next_of_none (lossRun_readInWriteCycle.we t) fun i => by
    rw [writeEnable_readInWriteCycle (by omega) i]
    rcases ht with rfl | rfl | rfl | rfl <;> rfl

/-- At the end the second entry is all the RAMs hold. -/
private theorem htMem_readInWriteCycle (i : Way) (a : Addr) :
    (run CuckooReg.initial readInWriteCycle 6).ht.htMem i a =
      if i = 0 ∧ a = 1 then ⟨true, true, 20, 2⟩ else ⟨false, false, 0, 0⟩ := by
  have hkept : (run CuckooReg.initial readInWriteCycle 5).ht.htMem =
      (run CuckooReg.initial readInWriteCycle 2).ht.htMem :=
    (htMem_kept (t := 4) (by omega)).trans
      ((htMem_kept (t := 3) (by omega)).trans (htMem_kept (t := 2) (by omega)))
  have hfirst := htMem_written (t := 1) (Or.inl rfl) i a
  rw [htMem_kept (t := 0) (Or.inl rfl)] at hfirst
  rw [htMem_written (t := 5) (Or.inr rfl), hkept, hfirst]
  split <;> rfl

/-- **The first entry disappears silently**: no operation on its key is
issued after the first cycle, and nothing is evicted. -/
theorem not_no_silent_loss :
    ¬ ∀ σ ports, EmptyTables σ → LossRun ports → ∀ t, NoSilentLoss σ ports t := by
  intro hall
  have hkept := (hall _ _ CuckooReg.emptyTables_initial lossRun_readInWriteCycle 5).1 1 10
  have hbefore : Present (run CuckooReg.initial readInWriteCycle 5) 1 10 :=
    Or.inl ⟨0, 1, by decide +kernel⟩
  rcases hkept hbefore with (⟨i, a, hv, hk, -⟩ | h | ⟨j, hj, -⟩) | ⟨u, hu, -, hk⟩ | ⟨hk, -⟩
  · rw [htMem_readInWriteCycle] at hv hk
    split at hk
    · cases hk
    · cases hk
  · have hi : (run CuckooReg.initial readInWriteCycle 6).ht.insertD = false := by decide +kernel
    rw [hi] at h
    cases h.1
  · have hfree : ∀ j, ((run CuckooReg.initial readInWriteCycle 6).st.stash j).occupied = false := by
      decide +kernel
    rw [hfree j] at hj
    cases hj
  · have hu' : u = 5 ∨ u = 4 := by omega
    rcases hu' with rfl | rfl <;> cases hk
  · have hno : (run CuckooReg.initial readInWriteCycle 5).ht.control.kicked = false := by
      decide +kernel
    rw [hno] at hk
    cases hk

end Hw

end FlowBlaze

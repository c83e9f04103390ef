import FlowBlaze.Common.StashedTable
import FlowBlaze.Hw.Cuckoo
import FlowBlaze.Hw.HtSpec
import FlowBlaze.Hw.StashSpec
/-!
# The flow table is a table with a stash

`CuckooReg.view` reads the registers as a `StashedTable`: what the RAMs
hold, what the seats hold, and the operation in the input registers of
the tables. A cycle of the circuit is a step of that system when the
cycle is `Clean`, and `Clean` is what the circuit does not ensure: that
the RAMs are read and written at the address of the key the cycle is
about, and that the stash, which goes by `search_key`, touches no other
key than the one the operation names.
-/

namespace FlowBlaze

namespace Hw

open Common

/-- A cycle nobody resets and in which the processor does not write. At
most one operation is issued. -/
structure Env (p : CuckooIn) : Prop where
  reset : p.reset = false
  we : p.we = false
  one : ¬ (p.insert = true ∧ p.remove = true)

/-- **The cycles in which the circuit acts on the right rows.** -/
structure Clean (σ : CuckooReg) (p : CuckooIn) : Prop where
  /-- An operation starts only while no row is written, and reads the
  rows of its key. -/
  starts : σ.insertFSM p = true ∨ p.remove = true →
    (∀ i, σ.ht.control.memoryWriteEnable i = false) ∧
      (p.rd = true → ∀ i, p.addr.extractLsb' 0 10 = wayAddr i (σ.keyFSM p))
  /-- A row is written at the address of its key. -/
  writes : ∀ i, σ.ht.control.memoryWriteEnable i = true → p.rd = true →
    p.addr.extractLsb' 0 10 = wayAddr i σ.ht.keyD
  /-- An insertion finds its key outside the stash, and the update of
  the stash it causes changes no value. -/
  insert : p.insert = true → ∀ k v, σ.st.Holds k v → k ≠ p.key ∧ (k = p.searchKey → v = 0)
  /-- A removal takes no other key out of the stash. -/
  remove : p.remove = true → ∀ k v, σ.st.Holds k v → k = p.searchKey → k = p.key

namespace CuckooReg

variable {σ : CuckooReg} {p : CuckooIn}

/-- The operation in the input registers of the tables. An insertion
comes from outside when the entity registered one too. -/
def pending (σ : CuckooReg) : Option (Pending Key Value) :=
  if σ.ht.removeD then some (.remove σ.ht.keyD)
  else if σ.ht.insertD then
    if σ.insertD then some (.insert σ.ht.keyD σ.ht.valueD)
    else some (.move σ.ht.keyD σ.ht.valueD)
  else none

/-- The registers as a table with a stash. -/
def view (σ : CuckooReg) : StashedTable Way Addr (Fin 8) Key Value where
  table := σ.ht.content
  seats := σ.st.entries
  pending := σ.pending

/-- **What holds between the registers**: one operation is under way at
a time, the rows it decides on are those of its key, and the counter
counts the entries. -/
structure Sync (σ : CuckooReg) : Prop where
  update : σ.ht.updateD = false
  one : σ.ht.removeD = true → σ.ht.insertD = false
  outside : σ.insertD = true → σ.ht.insertD = true
  read : σ.ht.insertD = true ∨ σ.ht.removeD = true → σ.ht.ReadHome
  count : σ.ht.countItem = BitVec.ofNat 32 σ.ht.content.size

/-! ## The ports -/

@[simp] theorem htIn_we : (σ.htIn p).we = p.we := rfl

@[simp] theorem htIn_reset : (σ.htIn p).reset = p.reset := rfl

/-- Nothing is started when neither input is driven. -/
theorem background_of_not_insertFSM (h : σ.insertFSM p = false) :
    σ.background p = false ∧ p.insert = false := by
  unfold insertFSM at h
  rw [Bool.or_eq_false_iff] at h
  exact h

/-- A background move starts only when nothing else is asked for. -/
theorem of_background (h : σ.background p = true) :
    p.insert = false ∧ p.remove = false ∧ σ.st.notEmpty = true := by
  unfold background at h
  simp only [Bool.and_eq_true, Bool.not_eq_true'] at h
  obtain ⟨⟨⟨⟨⟨⟨⟨-, -⟩, -⟩, hi⟩, -⟩, hr⟩, -⟩, hne⟩ := h
  exact ⟨hi, hr, hne⟩

/-- The tables are given the key from outside when an operation from
outside starts. -/
theorem keyFSM_of_outside (h : p.insert = true ∨ p.remove = true) : σ.keyFSM p = p.key := by
  have hb : σ.background p = false := by
    rw [← Bool.not_eq_true]
    intro hb
    obtain ⟨hi, hr, -⟩ := of_background hb
    rw [hi, hr] at h
    rcases h with h | h <;> cases h
  simp [keyFSM, hb]

/-- A clean cycle writes at home. -/
theorem writesHome (he : Env p) (hc : Clean σ p) : σ.ht.WritesHome (σ.htIn p) :=
  HtReg.writesHome_of he.we hc.writes

/-- **In a clean cycle the operation that starts reads the rows of its
key.** -/
theorem readHome_next (he : Env p) (hc : Clean σ p)
    (hs : σ.insertFSM p = true ∨ p.remove = true) : (σ.next p).ht.ReadHome := by
  obtain ⟨hq, hrd⟩ := hc.starts hs
  exact HtReg.readHome_next (p := σ.htIn p) he.we hq hrd

/-- The operation in the registers after a cycle is the one started. -/
theorem pending_next (he : Env p) :
    (σ.next p).pending =
      if p.remove then some (.remove (σ.keyFSM p))
      else if σ.insertFSM p then
        if p.insert then some (.insert (σ.keyFSM p) (σ.valueFSM p))
        else some (.move (σ.keyFSM p) (σ.valueFSM p))
      else none := by
  have hd : (σ.next p).insertD = p.insert := by simp [next, he.reset]
  unfold pending
  rw [hd]
  rfl

/-- An operation from outside that is pending was issued in the cycle
before. -/
theorem issued_of_pending {k : Key} (he : Env p)
    (hp : (σ.next p).pending = some (.remove k) ∨
      ∃ w, (σ.next p).pending = some (.insert k w)) :
    (p.insert = true ∨ p.remove = true) ∧ p.key = k := by
  rw [pending_next he] at hp
  cases hr : p.remove with
  | true =>
    have hk := keyFSM_of_outside (σ := σ) (Or.inr hr)
    rw [hr] at hp
    simp only [if_true, hk] at hp
    rcases hp with hp | ⟨w, hp⟩ <;> cases hp
    exact ⟨Or.inr rfl, rfl⟩
  | false =>
    rw [hr] at hp
    cases hi : p.insert with
    | true =>
      have hk := keyFSM_of_outside (σ := σ) (Or.inl hi)
      rw [hi] at hp
      simp only [insertFSM, hi, hk, Bool.or_true, if_true, Bool.false_eq_true, if_false] at hp
      rcases hp with hp | ⟨w, hp⟩ <;> cases hp
      exact ⟨Or.inl rfl, rfl⟩
    | false =>
      rw [hi] at hp
      simp only [Bool.false_eq_true, if_false] at hp
      rcases hp with hp | ⟨w, hp⟩ <;> split at hp <;> cases hp

/-- What the tables are about to store is what is registered for an
insertion. -/
theorem stores_iff (hs : σ.Sync) {k : Key} {v : Value} :
    σ.view.Stores k v ↔ σ.ht.insertD = true ∧ σ.ht.keyD = k ∧ σ.ht.valueD = v := by
  unfold StashedTable.Stores view pending
  cases hr : σ.ht.removeD with
  | true => simp [hs.one hr]
  | false => cases σ.ht.insertD <;> cases σ.insertD <;> simp

/-- In empty tables nothing is pending. -/
theorem pending_of_empty (h : EmptyTables σ) : σ.view.pending = none := by
  obtain ⟨hi, hr, -⟩ := h.idle
  simp [view, pending, hi, hr]

/-! ## The counter of items -/

/-- **The counter keeps counting the entries.** -/
theorem count_next (he : Env p) (hc : Clean σ p) (hs : σ.Sync)
    (hp : Tables.Placed wayAddr σ.ht.content) :
    (σ.next p).ht.countItem = BitVec.ofNat 32 (σ.next p).ht.content.size := by
  have hwe : (σ.htIn p).we = false := by rw [htIn_we, he.we]
  have hrst : (σ.htIn p).reset = false := by rw [htIn_reset, he.reset]
  have hw := writesHome he hc
  show (σ.ht.next (σ.htIn p)).countItem =
    BitVec.ofNat 32 (σ.ht.next (σ.htIn p)).content.size
  cases hr : σ.ht.removeD with
  | true =>
    have hi := hs.one hr
    obtain ⟨-, ⟨i, v, -, hcell, hcont, hcnt⟩ | ⟨-, hcont, hcnt⟩⟩ :=
      HtReg.next_remove hwe hrst hw (hs.read (Or.inr hr)) hp hr hi hs.update
    · have hsize := Tables.size_write (T := σ.ht.content) (i := i)
        (a := wayAddr i σ.ht.keyD) none
      rw [hcell] at hsize
      have hone : (σ.ht.content.write i (wayAddr i σ.ht.keyD) none).size + 1 =
          σ.ht.content.size := by simpa using hsize
      rw [hcnt, hcont, hs.count, ← hone, BitVec.ofNat_add]
      exact BitVec.add_sub_cancel _ _
    · rw [hcnt, hcont, hs.count]
  | false =>
    cases hi : σ.ht.insertD with
    | true =>
      obtain ⟨i, hins⟩ :=
        HtReg.next_insert hwe hrst hw (hs.read (Or.inl hi)) hp hr hi
      have hadd := hins.countItem_add
      rw [hs.count, BitVec.add_comm] at hadd
      exact (BitVec.add_right_inj _).mp hadd
    | false =>
      obtain ⟨hcont, hcnt, -⟩ := HtReg.next_idle hwe hrst hr hi hs.update
      rw [hcnt, hcont, hs.count]

/-- **The relations between the registers are kept.** -/
theorem Sync.next (hs : σ.Sync) (he : Env p) (hc : Clean σ p)
    (hp : Tables.Placed wayAddr σ.ht.content) : (σ.next p).Sync where
  update := rfl
  one hr := by
    have hr' : p.remove = true := hr
    show σ.insertFSM p = false
    have hi : p.insert = false := by
      cases h : p.insert with
      | false => rfl
      | true => exact absurd ⟨h, hr'⟩ he.one
    have hb : σ.background p = false := by
      cases h : σ.background p with
      | false => rfl
      | true =>
        have := (of_background h).2.1
        rw [hr'] at this
        cases this
    simp [insertFSM, hi, hb]
  outside h := by
    have hi : p.insert = true := by simpa [CuckooReg.next, he.reset] using h
    show σ.insertFSM p = true
    simp [insertFSM, hi]
  read h := readHome_next he hc h
  count := count_next he hc hs hp

/-! ## The simulation -/

/-- What an event of the system with a stash is in the circuit: which
port was driven, and what `evicted_entry` does. -/
def Shows (σ : CuckooReg) (p : CuckooIn) : Event Key Value → Prop
  | .internal => p.insert = false ∧ p.remove = false ∧
      (σ.next p).st.intEvictedEntry = σ.st.intEvictedEntry
  | .insert k v => p.insert = true ∧ p.remove = false ∧ p.key = k ∧ p.value = v ∧
      (σ.next p).st.intEvictedEntry = σ.st.intEvictedEntry
  | .remove k => p.insert = false ∧ p.remove = true ∧ p.key = k ∧
      (σ.next p).st.intEvictedEntry = σ.st.intEvictedEntry
  | .evict k v => p.insert = false ∧ p.remove = false ∧
      σ.ht.control.kicked = true ∧ σ.ht.control.kickedKey = k ∧ σ.ht.control.kickedValue = v ∧
      (∀ i, (σ.st.stash i).occupied = true) ∧
      (σ.next p).st.intEvictedEntry = σ.st.intEvictedEntry + 1

/-- While no row is written nothing is left to carry out. -/
theorem idle_of_quiet (hi : σ.ht.insertD = false)
    (hr : σ.ht.removeD = true → ¬ σ.ht.content.Has σ.ht.keyD) : σ.view.Idle := by
  unfold StashedTable.Idle view pending
  cases hrd : σ.ht.removeD with
  | true => exact Or.inr ⟨_, rfl, hr hrd⟩
  | false => exact Or.inl (by simp [hi])

/-- **A clean cycle in which no row is written** issues an operation, or
nothing. -/
theorem step_of_quiet (hs : σ.Sync) (hwf : StashedTable.WF wayAddr σ.view) (he : Env p)
    (hc : Clean σ p) (hq : ∀ i, σ.ht.control.memoryWriteEnable i = false) :
    ∃ e, StashedTable.Step wayAddr σ.view e (σ.next p).view ∧ Shows σ p e := by
  have hwe : (σ.htIn p).we = false := by rw [htIn_we, he.we]
  have hrst : (σ.stashIn p).reset = false := he.reset
  obtain ⟨hctl, hi, hmiss⟩ := HtReg.quiet hwe (by rw [htIn_reset, he.reset]) hs.read
    hwf.placed hs.one hs.update hq
  have hidle := idle_of_quiet hi hmiss
  have hcont : (σ.next p).ht.content = σ.ht.content := HtReg.content_next_of_none hwe hq
  have hkick : (σ.stashIn p).insert = false := by
    show σ.ht.control.kicked = false
    rw [hctl]
    rfl
  have hval : (σ.stashIn p).value = 0 := by
    show σ.ht.control.kickedValue = 0
    rw [hctl]
    rfl
  -- what the next view is, once the seats and the operation are known
  have hview : ∀ seats pend, (σ.next p).st.entries = seats → (σ.next p).pending = pend →
      (σ.next p).view = { σ.view with seats := seats, pending := pend } := by
    rintro _ _ rfl rfl
    unfold view
    rw [hcont]
  have hpend := pending_next (σ := σ) he
  cases hb : σ.background p with
  | true =>
    -- the top of the stash moves
    obtain ⟨hins, hrem, hne⟩ := of_background hb
    have hseat : σ.st.Holds σ.st.keyOut σ.st.valueOut := StashReg.holds_out hne
    have hkey : (σ.stashIn p).searchKey = σ.st.keyOut := by simp [stashIn, searchKeyFSM, hb]
    obtain ⟨hent, hev⟩ := StashReg.next_remove (s := σ.st) hrst hkick
      (show (σ.stashIn p).remove = true by simp [stashIn, removeFSM, hb])
    rw [hkey] at hent
    refine ⟨.internal, ?_, hins, hrem, hev⟩
    rw [hview _ (some (.move σ.st.keyOut σ.st.valueOut)) rfl (by
      rw [hpend, hrem]; simp [insertFSM, keyFSM, valueFSM, hb, hins])]
    exact StashedTable.Step.move hidle hseat hent
  | false =>
    have hkeyF : σ.keyFSM p = p.key := by simp [keyFSM, hb]
    have hsearch : (σ.stashIn p).searchKey = p.searchKey := by simp [stashIn, searchKeyFSM, hb]
    have hremF : (σ.stashIn p).remove = p.remove := by simp [stashIn, removeFSM, hb]
    cases hins : p.insert with
    | true =>
      have hrem : p.remove = false := by
        cases h : p.remove with
        | false => rfl
        | true => exact absurd ⟨hins, h⟩ he.one
      obtain ⟨hent, hev⟩ := StashReg.next_keep (s := σ.st) hrst hkick (by rw [hremF, hrem])
        (fun _ i v hv => by
          rw [hval]
          rw [hsearch] at hv
          exact (hc.insert hins _ v ⟨i, hv⟩).2 rfl)
      refine ⟨.insert p.key p.value, ?_, hins, hrem, rfl, rfl, hev⟩
      rw [hview _ (some (.insert p.key p.value)) hent (by
        rw [hpend, hrem]; simp [insertFSM, valueFSM, hb, hins, hkeyF])]
      refine StashedTable.Step.insert hidle fun w hw => ?_
      exact (hc.insert hins _ w hw).1 rfl
    | false =>
      cases hrem : p.remove with
      | true =>
        obtain ⟨hent, hev⟩ := StashReg.next_remove (s := σ.st) hrst hkick (by rw [hremF, hrem])
        rw [hsearch] at hent
        refine ⟨.remove p.key, ?_, hins, hrem, rfl, hev⟩
        rw [hview _ (some (.remove p.key)) rfl (by rw [hpend, hrem]; simp [hkeyF])]
        refine StashedTable.Step.remove hidle fun j => ?_
        cases hj : (σ.next p).st.entries j with
        | some kv =>
          obtain ⟨k, v⟩ := kv
          exact Or.inl (((hent j k v).1 hj).1).symm
        | none =>
          cases hj' : σ.st.entries j with
          | none => exact Or.inl hj'.symm
          | some kv =>
            obtain ⟨k, v⟩ := kv
            refine Or.inr ⟨rfl, ?_⟩
            have hk : k = p.searchKey := by
              by_contra hne
              have := (hent j k v).2 ⟨hj', hne⟩
              rw [show (σ.st.next (σ.stashIn p)).entries j = none from hj] at this
              cases this
            have hkey := hc.remove hrem k v ⟨j, hj'⟩ hk
            exact ⟨v, by rw [← hkey]; exact hj'⟩
      | false =>
        obtain ⟨hent, hev⟩ := StashReg.next_keep (s := σ.st) hrst hkick (by rw [hremF, hrem])
          (fun hu => by
            rw [show (σ.stashIn p).update = p.insert from rfl, hins] at hu
            cases hu)
        refine ⟨.internal, ?_, hins, hrem, hev⟩
        rw [hview _ none hent (by rw [hpend, hrem]; simp [insertFSM, hb, hins])]
        exact StashedTable.Step.rest hidle

/-- **A clean cycle in which a row is written** carries an operation out
and issues none. -/
theorem step_of_write (hs : σ.Sync) (hwf : StashedTable.WF wayAddr σ.view) (he : Env p)
    (hc : Clean σ p) {i₀ : Way} (hen : σ.ht.control.memoryWriteEnable i₀ = true) :
    ∃ e, StashedTable.Step wayAddr σ.view e (σ.next p).view ∧ Shows σ p e := by
  have hwe : (σ.htIn p).we = false := by rw [htIn_we, he.we]
  have hrst : (σ.htIn p).reset = false := by rw [htIn_reset, he.reset]
  have hw := writesHome he hc
  -- nothing starts
  have hstart : ¬ (σ.insertFSM p = true ∨ p.remove = true) := fun h => by
    have := (hc.starts h).1 i₀
    rw [hen] at this
    cases this
  rw [not_or, Bool.not_eq_true, Bool.not_eq_true] at hstart
  obtain ⟨hinsF, hrem⟩ := hstart
  obtain ⟨hb, hins⟩ := background_of_not_insertFSM hinsF
  have hpend : (σ.next p).pending = none := by
    rw [pending_next he, hrem, hinsF]
    rfl
  have hview : ∀ T seats, (σ.next p).ht.content = T → (σ.next p).st.entries = seats →
      (σ.next p).view = ⟨T, seats, none⟩ := by
    rintro _ _ rfl rfl
    unfold view
    rw [hpend]
  have hremF : (σ.stashIn p).remove = false := by simp [stashIn, removeFSM, hb, hrem]
  have hupd : (σ.stashIn p).update = false := hins
  have hkeep : σ.ht.control.kicked = false →
      (σ.next p).st.entries = σ.st.entries ∧
        (σ.next p).st.intEvictedEntry = σ.st.intEvictedEntry := fun hk =>
    StashReg.next_keep he.reset hk hremF fun hu => by rw [hupd] at hu; cases hu
  cases hr : σ.ht.removeD with
  | true =>
    have hi := hs.one hr
    have hpnow : σ.view.pending = some (.remove σ.ht.keyD) := by simp [view, pending, hr]
    obtain ⟨hk, ⟨i, v, -, hcell, hcont, -⟩ | ⟨hno, -, -⟩⟩ :=
      HtReg.next_remove hwe hrst hw (hs.read (Or.inr hr)) hwf.placed hr hi hs.update
    · obtain ⟨hent, hev⟩ := hkeep hk
      refine ⟨.internal, ?_, hins, hrem, hev⟩
      rw [hview _ _ hcont hent]
      exact StashedTable.Step.erase hpnow hcell
    · -- a removal that finds nothing writes nothing
      cases hf : ways.find? σ.ht.found with
      | some i =>
        obtain ⟨v, hv⟩ := (HtReg.found_iff (hs.read (Or.inr hr))).1 (List.find?_some hf)
        exact absurd ⟨v, _, _, hv⟩ hno
      | none =>
        rw [HtReg.control_remove_missing hr hi hs.update hf] at hen
        cases hen
  | false =>
    cases hi : σ.ht.insertD with
    | false =>
      rw [HtReg.control_idle hr hi hs.update] at hen
      cases hen
    | true =>
      have hst : σ.view.Stores σ.ht.keyD σ.ht.valueD := (stores_iff hs).2 ⟨hi, rfl, rfl⟩
      obtain ⟨i, hin⟩ :=
        HtReg.next_insert hwe hrst hw (hs.read (Or.inl hi)) hwf.placed hr hi
      rcases hin.cell with ⟨hk, hcell, -⟩ | ⟨hk, hcell, -⟩ | ⟨hk, -, hcell, hne⟩
      · obtain ⟨hent, hev⟩ := hkeep hk
        refine ⟨.internal, ?_, hins, hrem, hev⟩
        rw [hview _ _ hin.content hent]
        exact StashedTable.Step.store hst hin.onlyAt (Or.inl hcell)
      · obtain ⟨hent, hev⟩ := hkeep hk
        refine ⟨.internal, ?_, hins, hrem, hev⟩
        rw [hview _ _ hin.content hent]
        exact StashedTable.Step.store hst hin.onlyAt (Or.inr hcell)
      · rcases StashReg.next_insert (s := σ.st) (p := σ.stashIn p) he.reset hk hremF hupd with
          ⟨j, hfree, hent, hev⟩ | ⟨hfull, hent, hev⟩
        · refine ⟨.internal, ?_, hins, hrem, hev⟩
          rw [hview _ _ hin.content hent]
          exact StashedTable.Step.kick hst hin.onlyAt hcell hne hfree
        · refine ⟨.evict σ.ht.control.kickedKey σ.ht.control.kickedValue, ?_,
            hins, hrem, hk, rfl, rfl, fun j => ?_, hev⟩
          · rw [hview _ _ hin.content hent]
            exact StashedTable.Step.evict hst hin.onlyAt hcell hne hfull
          · have := hfull j
            rw [ne_eq, StashReg.entries_eq_none, Bool.not_eq_false] at this
            exact this

/-- **A clean cycle is a step.** -/
theorem step_of_clean (hs : σ.Sync) (hwf : StashedTable.WF wayAddr σ.view) (he : Env p)
    (hc : Clean σ p) :
    ∃ e, StashedTable.Step wayAddr σ.view e (σ.next p).view ∧ Shows σ p e := by
  by_cases hen : ∃ i, σ.ht.control.memoryWriteEnable i = true
  · obtain ⟨i, hi⟩ := hen
    exact step_of_write hs hwf he hc hi
  · refine step_of_quiet hs hwf he hc fun i => ?_
    rw [← Bool.not_eq_true]
    exact fun h => hen ⟨i, h⟩

/-! ## Runs -/

/-- What holds of every state of a clean run. -/
structure Inv (σ : CuckooReg) : Prop where
  sync : σ.Sync
  wf : StashedTable.WF wayAddr σ.view

/-- Empty tables satisfy the invariant. -/
theorem Inv.of_empty (h : EmptyTables σ) : σ.Inv := by
  have hcont : ∀ i a, σ.ht.content i a = none := by
    intro i a
    simp [HtReg.content, Row.entry, h.htMem i a]
  have hseat : ∀ j, σ.st.entries j = none := fun j => StashReg.entries_eq_none.2 (h.stash j)
  obtain ⟨hi, hr, hu, hd⟩ := h.idle
  have hpend := pending_of_empty h
  refine ⟨⟨hu, fun _ => hi, fun h => ?_, fun h => ?_, ?_⟩, ?_, ?_, ?_, ?_, ?_⟩
  · rw [hd] at h
    cases h
  · rw [hi, hr] at h
    rcases h with h | h <;> cases h
  · rw [h.countItem, Tables.size_of_empty hcont]
    rfl
  · exact Tables.placed_of_empty hcont
  · rintro k v ⟨j, hj⟩
    rw [show σ.view.seats j = none from hseat j] at hj
    cases hj
  · intro j j' k v v' hj
    rw [show σ.view.seats j = none from hseat j] at hj
    cases hj
  · rintro k v (hst | hst) <;> rw [hpend] at hst <;> cases hst
  · intro k v hst
    rw [hpend] at hst
    cases hst

/-- A clean cycle keeps the invariant. -/
theorem Inv.next (h : σ.Inv) (he : Env p) (hc : Clean σ p) : (σ.next p).Inv := by
  obtain ⟨e, hstep, -⟩ := step_of_clean h.sync h.wf he hc
  exact ⟨h.sync.next he hc h.wf.placed, hstep.wf h.wf⟩

/-- **Every state that clean cycles lead to satisfies the invariant.** -/
theorem Inv.run_of_lt {ports : ℕ → CuckooIn} {t : ℕ} (h : EmptyTables σ)
    (he : ∀ u < t, Env (ports u)) (hc : ∀ u < t, Clean (run σ ports u) (ports u)) :
    (Hw.run σ ports t).Inv := by
  induction t with
  | zero => exact Inv.of_empty h
  | succ t ih =>
    exact (ih (fun u hu => he u (Nat.lt_succ_of_lt hu)) fun u hu =>
      hc u (Nat.lt_succ_of_lt hu)).next (he t (Nat.lt_succ_self t)) (hc t (Nat.lt_succ_self t))

/-- **Every state of a clean run satisfies the invariant.** -/
theorem Inv.run {ports : ℕ → CuckooIn} (h : EmptyTables σ) (he : ∀ t, Env (ports t))
    (hc : ∀ t, Clean (run σ ports t) (ports t)) (t : ℕ) : (Hw.run σ ports t).Inv :=
  Inv.run_of_lt h (fun u _ => he u) fun u _ => hc u

end CuckooReg

end Hw

end FlowBlaze

import FlowBlaze.Hw.CuckooMap
import FlowBlaze.Hw.CuckooLoss
/-!
# Removing a flow

A removal takes two edges: at the first the tables read the rows of the
key and the stash drops its seats, at the second the tables invalidate
one row, and the background process may take an entry off the stash. The
tables go by `key` and the stash by `search_key`. `Removable` is what
the state and the ports have to satisfy for a removal to remove its flow
and no other; `RemovesOnly` says that it does.
-/

namespace FlowBlaze

namespace Hw

open Common

/-- No operation is in flight. -/
structure NoOperation (σ : CuckooReg) : Prop where
  insert : σ.ht.insertD = false
  remove : σ.ht.removeD = false
  update : σ.ht.updateD = false

/-- The ports in the cycle of a removal. -/
structure RemovePulse (p : CuckooIn) : Prop where
  reset : p.reset = false
  we : p.we = false
  rd : p.rd = false
  insert : p.insert = false
  remove : p.remove = true

/-- The ports in a cycle without a command. -/
structure NoCommand (p : CuckooIn) : Prop where
  reset : p.reset = false
  we : p.we = false
  rd : p.rd = false
  insert : p.insert = false
  remove : p.remove = false

/-- **The flow is gone, and every other is as it was.** -/
structure RemovesOnly (σ σ' : CuckooReg) (k : Key) : Prop where
  rows : ∀ i a, ¬ ((σ'.ht.htMem i a).valid = true ∧ (σ'.ht.htMem i a).key = k)
  seats : ∀ i, ¬ ((σ'.st.stash i).occupied = true ∧ (σ'.st.stash i).key = k)
  others : ∀ k' v, k' ≠ k → (Present σ' k' v ↔ Present σ k' v)

/-- The seat shown at the outputs once the seats of a key are free. -/
def StashReg.shownWithout (s : StashReg) (k : Key) : Option (Fin 8) :=
  (seats.filter fun i => (s.stash i).occupied && !((s.stash i).key == k)).getLast?

/-- **The background process takes the seat** in the cycle after a
removal. -/
structure Takes (σ : CuckooReg) (p q : CuckooIn) (i : Fin 8) : Prop where
  enable : q.enable = true
  search : q.search = false
  preInsert : q.preInsert = false
  turn : (σ.st.freeCounter + 1).extractLsb' 0 4 = 0
  shown : σ.st.shownWithout p.searchKey = some i

/-- The key is in one row at most, and at its address. -/
def OneRow (T : Tables Way Addr Key Value) (k : Key) : Prop :=
  ∀ i a v, T i a = some (k, v) → a = wayAddr i k ∧ ∀ j b w, T j b = some (k, w) → j = i

/-- **When a removal removes its flow and no other.** -/
structure Removable (σ : CuckooReg) (p q : CuckooIn) : Prop where
  row : OneRow σ.ht.content p.key
  /-- The stash looks for the key, or gives it away in the next cycle. -/
  seat : ∀ v, σ.st.Holds p.key v →
    p.key = p.searchKey ∨ ∃ i, Takes σ p q i ∧ (σ.st.stash i).key = p.key
  /-- What the stash drops for another key is in the tables too. -/
  searched : p.searchKey ≠ p.key → ∀ v, σ.st.Holds p.searchKey v →
    σ.ht.content.Maps p.searchKey v
  /-- So is what the background process drops besides what it takes. -/
  moved : ∀ i, Takes σ p q i → (σ.st.stash i).key ≠ p.key →
    ∀ v, σ.st.Holds (σ.st.stash i).key v →
      v = (σ.st.stash i).value ∨ σ.ht.content.Maps (σ.st.stash i).key v

/-! ## The tables -/

namespace HtReg

variable {r : HtReg} {p : HtIn} {k : Key} {v : Value}

/-- A removal leaves other keys alone. -/
theorem maps_remove_of_ne (hwe : p.we = false) (hrst : p.reset = false) (hw : r.WritesHome p)
    (hread : r.ReadHome) (hr : r.removeD = true) (hi : r.insertD = false)
    (hu : r.updateD = false) (hk : k ≠ r.keyD) :
    (r.next p).content.Maps k v ↔ r.content.Maps k v := by
  obtain ⟨-, ⟨i, w, -, hcell, hcont, -⟩ | ⟨-, hcont, -⟩⟩ :=
    next_remove_row hwe hrst hw hread hr hi hu
  · rw [hcont, Tables.maps_erase_of_ne hcell hk]
  · rw [hcont]

/-- **A removal removes its key** exactly when it is in one row at most. -/
theorem not_has_remove_iff (hwe : p.we = false) (hrst : p.reset = false) (hw : r.WritesHome p)
    (hread : r.ReadHome) (hr : r.removeD = true) (hi : r.insertD = false)
    (hu : r.updateD = false) :
    ¬ (r.next p).content.Has r.keyD ↔ OneRow r.content r.keyD := by
  obtain ⟨-, ⟨i, w, -, hcell, hcont, -⟩ | ⟨hmiss, hcont, -⟩⟩ :=
    next_remove_row hwe hrst hw hread hr hi hu
  · rw [hcont]
    constructor
    · intro hno
      have honly : ∀ j b u, r.content j b = some (r.keyD, u) → j = i ∧ b = wayAddr i r.keyD := by
        intro j b u hjb
        by_contra hne
        exact hno ⟨u, Tables.maps_write_none.mpr ⟨j, b, hjb, hne⟩⟩
      intro j b u hjb
      obtain ⟨rfl, rfl⟩ := honly j b u hjb
      exact ⟨rfl, fun j' b' u' h => (honly j' b' u' h).1⟩
    · rintro hone ⟨u, hu'⟩
      obtain ⟨j, b, hjb, hne⟩ := Tables.maps_write_none.mp hu'
      obtain ⟨hb, huniq⟩ := hone j b u hjb
      have hij : i = j := huniq i _ w hcell
      subst hij
      exact hne ⟨rfl, hb⟩
  · rw [hcont]
    constructor
    · exact fun hno i a u hia => absurd ⟨u, i, a, hia⟩ hno
    · rintro hone ⟨u, i, a, hia⟩
      obtain ⟨rfl, -⟩ := hone i a u hia
      have hfound := (found_iff hread).mpr ⟨u, hia⟩
      rw [hmiss i] at hfound
      cases hfound

end HtReg

/-! ## The stash -/

namespace StashReg

variable {s : StashReg} {p : StashIn} {k : Key} {v : Value}

/-- The seats after a removal. -/
theorem stash_remove (hrst : p.reset = false) (hins : p.insert = false)
    (hrem : p.remove = true) (hupd : p.update = false) (i : Fin 8) :
    (s.next p).stash i = { s.stash i with
      occupied := (s.stash i).occupied && !((s.stash i).key == p.searchKey) } := by
  have hnext : (s.next p).stash i = s.nextSeat p i := by simp [next, hrst]
  rw [hnext]
  unfold nextSeat asked
  rw [hins, hrem, hupd]
  cases s.stash i with
  | mk occupied value key => cases key == p.searchKey <;> cases occupied <;> rfl

/-- What a removal leaves in the seats. -/
theorem holds_remove (hrst : p.reset = false) (hins : p.insert = false)
    (hrem : p.remove = true) :
    (s.next p).Holds k v ↔ s.Holds k v ∧ k ≠ p.searchKey := by
  obtain ⟨hent, -⟩ := next_remove (s := s) hrst hins hrem
  constructor
  · rintro ⟨i, hi⟩
    obtain ⟨hold, hne⟩ := (hent i k v).mp hi
    exact ⟨⟨i, hold⟩, hne⟩
  · rintro ⟨⟨i, hi⟩, hne⟩
    exact ⟨i, (hent i k v).mpr ⟨hi, hne⟩⟩

/-- The seat shown after a removal. -/
theorem top_remove (hrst : p.reset = false) (hins : p.insert = false)
    (hrem : p.remove = true) (hupd : p.update = false) :
    (s.next p).top = s.shownWithout p.searchKey := by
  unfold top shownWithout
  simp only [stash_remove hrst hins hrem hupd]

/-- A seat shown without a key holds another. -/
theorem holds_of_shownWithout {i : Fin 8} (h : s.shownWithout k = some i) :
    s.Holds (s.stash i).key (s.stash i).value ∧ (s.stash i).key ≠ k := by
  have hmem := (List.mem_filter.mp (List.mem_of_getLast? h)).2
  rw [Bool.and_eq_true, Bool.not_eq_true', beq_eq_false_iff_ne] at hmem
  exact ⟨⟨i, entries_eq_some.mpr ⟨hmem.1, rfl, rfl⟩⟩, hmem.2⟩

end StashReg

/-! ## The two edges -/

section Edges

variable {σ : CuckooReg} {p q : CuckooIn} {k : Key} {v : Value}

/-- While nothing is in flight nothing is driven. -/
theorem NoOperation.control (h : NoOperation σ) : σ.ht.control = σ.ht.controlDefault :=
  HtReg.control_idle h.remove h.insert h.update

/-- A removal from outside keeps the background process from starting. -/
theorem RemovePulse.background (hp : RemovePulse p) : σ.background p = false := by
  rw [← Bool.not_eq_true]
  intro hb
  have := (CuckooReg.of_background hb).2.1
  rw [hp.remove] at this
  cases this

theorem RemovePulse.keyFSM (hp : RemovePulse p) : σ.keyFSM p = p.key :=
  CuckooReg.keyFSM_of_outside (Or.inr hp.remove)

/-- **What the stash is asked in the cycle of a removal.** -/
theorem RemovePulse.stashIn (hp : RemovePulse p) (h : NoOperation σ) :
    σ.stashIn p =
      ⟨false, false, p.search, true, false, σ.ht.control.kickedKey, p.searchKey,
        σ.ht.control.kickedValue⟩ := by
  unfold CuckooReg.stashIn CuckooReg.removeFSM CuckooReg.searchKeyFSM
  rw [hp.background, hp.reset, hp.insert, hp.remove, h.control]
  rfl

/-- After the first edge the tables are about to remove the key. -/
theorem RemovePulse.readHome (hp : RemovePulse p) (h : NoOperation σ) :
    (σ.next p).ht.ReadHome :=
  HtReg.readHome_next (p := σ.htIn p) hp.we (fun i => by rw [h.control]; rfl) fun hrd => by
    rw [show (σ.htIn p).rd = false from hp.rd] at hrd
    cases hrd

theorem RemovePulse.keyD (hp : RemovePulse p) : (σ.next p).ht.keyD = p.key :=
  hp.keyFSM

theorem RemovePulse.insertD (hp : RemovePulse p) : (σ.next p).ht.insertD = false := by
  show (σ.background p || p.insert) = false
  rw [hp.background, hp.insert]
  rfl

/-- The tables themselves are as they were. -/
theorem RemovePulse.content (hp : RemovePulse p) (h : NoOperation σ) :
    (σ.next p).ht.content = σ.ht.content :=
  HtReg.content_next_of_none (p := σ.htIn p) hp.we fun i => by rw [h.control]; rfl

/-- The second edge writes at home. -/
theorem NoCommand.writesHome (hq : NoCommand q) : σ.ht.WritesHome (σ.htIn q) :=
  HtReg.writesHome_of hq.we fun _ _ hrd => by
    rw [show (σ.htIn q).rd = false from hq.rd] at hrd
    cases hrd

/-- **The rows after both edges**: those of the key. -/
theorem rows_iff (h : NoOperation σ) (hp : RemovePulse p) (hq : NoCommand q) :
    ¬ ((σ.next p).next q).ht.content.Has p.key ↔ OneRow σ.ht.content p.key := by
  have hgone := HtReg.not_has_remove_iff (r := (σ.next p).ht) (p := (σ.next p).htIn q) hq.we
    hq.reset hq.writesHome (hp.readHome h) hp.remove hp.insertD rfl
  rw [hp.keyD, hp.content h] at hgone
  exact hgone

/-- And those of the others. -/
theorem maps_others (h : NoOperation σ) (hp : RemovePulse p) (hq : NoCommand q)
    (hk : k ≠ p.key) :
    ((σ.next p).next q).ht.content.Maps k v ↔ σ.ht.content.Maps k v := by
  have hsame := HtReg.maps_remove_of_ne (r := (σ.next p).ht) (p := (σ.next p).htIn q) hq.we
    hq.reset hq.writesHome (hp.readHome h) hp.remove hp.insertD rfl
    (k := k) (v := v) (by rw [hp.keyD]; exact hk)
  rw [hp.content h] at hsame
  exact hsame

/-- No entry is kicked out by a removal. -/
theorem not_kicked (h : NoOperation σ) (hp : RemovePulse p) (hq : NoCommand q) :
    (σ.next p).ht.control.kicked = false :=
  (HtReg.next_remove_row (r := (σ.next p).ht) (p := (σ.next p).htIn q) hq.we hq.reset
    hq.writesHome (hp.readHome h) hp.remove hp.insertD rfl).1

/-- The seats between the edges. -/
theorem stash_between (h : NoOperation σ) (hp : RemovePulse p) (i : Fin 8) :
    (σ.next p).st.stash i = { σ.st.stash i with
      occupied := (σ.st.stash i).occupied && !((σ.st.stash i).key == p.searchKey) } := by
  show (σ.st.next (σ.stashIn p)).stash i = _
  rw [hp.stashIn h]
  exact StashReg.stash_remove rfl rfl rfl rfl i

theorem top_between (h : NoOperation σ) (hp : RemovePulse p) :
    (σ.next p).st.top = σ.st.shownWithout p.searchKey := by
  show (σ.st.next (σ.stashIn p)).top = _
  rw [hp.stashIn h]
  exact StashReg.top_remove rfl rfl rfl rfl

theorem holds_between (h : NoOperation σ) (hp : RemovePulse p) :
    (σ.next p).st.Holds k v ↔ σ.st.Holds k v ∧ k ≠ p.searchKey := by
  show (σ.st.next (σ.stashIn p)).Holds k v ↔ _
  rw [hp.stashIn h]
  exact StashReg.holds_remove rfl rfl rfl

/-- **The background process starts** in the second cycle exactly when it
takes a seat. -/
theorem background_iff (h : NoOperation σ) (hp : RemovePulse p) (hq : NoCommand q) :
    (σ.next p).background q = true ↔ ∃ i, Takes σ p q i := by
  have hins : (σ.next p).insertD = false := by
    show (!p.reset && p.insert) = false
    rw [hp.insert, Bool.and_false]
  have hturn : (σ.next p).st.freeCounter = σ.st.freeCounter + 1 := by
    show (if p.reset then 0 else σ.st.freeCounter + 1) = σ.st.freeCounter + 1
    rw [hp.reset]
    rfl
  unfold CuckooReg.background StashReg.notEmpty
  rw [hq.insert, hq.remove, hins, not_kicked h hp hq, top_between h hp, hturn]
  simp only [Bool.and_eq_true, Bool.not_eq_true', Bool.not_false, and_true, beq_iff_eq,
    Option.isSome_iff_exists]
  constructor
  · rintro ⟨⟨⟨he, hs⟩, hpre⟩, ⟨i, hi⟩, ht⟩
    exact ⟨i, he, hs, hpre, ht, hi⟩
  · rintro ⟨i, he, hs, hpre, ht, hi⟩
    exact ⟨⟨⟨he, hs⟩, hpre⟩, ⟨i, hi⟩, ht⟩

/-- What it takes. -/
theorem out_of_takes (h : NoOperation σ) (hp : RemovePulse p) {i : Fin 8}
    (ht : Takes σ p q i) :
    (σ.next p).st.keyOut = (σ.st.stash i).key ∧
      (σ.next p).st.valueOut = (σ.st.stash i).value := by
  unfold StashReg.keyOut StashReg.valueOut
  rw [top_between h hp, ht.shown]
  simp [stash_between h hp]

/-- It takes one seat. -/
theorem Takes.unique {i j : Fin 8} (hi : Takes σ p q i) (hj : Takes σ p q j) : i = j := by
  have := hi.shown
  rw [hj.shown] at this
  cases this
  rfl

/-- **What is on its way to the tables after both edges.** -/
theorem moving_iff (h : NoOperation σ) (hp : RemovePulse p) (hq : NoCommand q) :
    (((σ.next p).next q).ht.insertD = true ∧ ((σ.next p).next q).ht.keyD = k ∧
        ((σ.next p).next q).ht.valueD = v) ↔
      ∃ i, Takes σ p q i ∧ (σ.st.stash i).key = k ∧ (σ.st.stash i).value = v := by
  show (((σ.next p).background q || q.insert) = true ∧ (σ.next p).keyFSM q = k ∧
    (σ.next p).valueFSM q = v) ↔ _
  rw [hq.insert, Bool.or_false]
  unfold CuckooReg.keyFSM CuckooReg.valueFSM
  constructor
  · rintro ⟨hb, hk, hv⟩
    obtain ⟨i, hi⟩ := (background_iff h hp hq).mp hb
    rw [if_pos hb] at hk hv
    obtain ⟨hkey, hval⟩ := out_of_takes h hp hi
    exact ⟨i, hi, hkey.symm.trans hk, hval.symm.trans hv⟩
  · rintro ⟨i, hi, rfl, rfl⟩
    have hb := (background_iff h hp hq).mpr ⟨i, hi⟩
    obtain ⟨hkey, hval⟩ := out_of_takes h hp hi
    rw [if_pos hb, if_pos hb]
    exact ⟨hb, hkey, hval⟩

/-- **What the stash holds after both edges.** -/
theorem holds_after (h : NoOperation σ) (hp : RemovePulse p) (hq : NoCommand q) :
    ((σ.next p).next q).st.Holds k v ↔
      (σ.st.Holds k v ∧ k ≠ p.searchKey) ∧ ∀ i, Takes σ p q i → k ≠ (σ.st.stash i).key := by
  rw [← holds_between h hp]
  show ((σ.next p).st.next ((σ.next p).stashIn q)).Holds k v ↔ _
  have hkick : ((σ.next p).stashIn q).insert = false := not_kicked h hp hq
  cases hb : (σ.next p).background q with
  | true =>
    obtain ⟨i, hi⟩ := (background_iff h hp hq).mp hb
    have hsearch : ((σ.next p).stashIn q).searchKey = (σ.st.stash i).key := by
      rw [← (out_of_takes h hp hi).1]
      exact if_pos hb
    rw [StashReg.holds_remove hq.reset hkick
      (show ((σ.next p).stashIn q).remove = true by
        simp [CuckooReg.stashIn, CuckooReg.removeFSM, hb]), hsearch]
    refine and_congr_right fun _ => ⟨fun hne j hj => ?_, fun hall => hall i hi⟩
    rw [hj.unique hi]
    exact hne
  | false =>
    obtain ⟨hent, -⟩ := StashReg.next_keep (s := (σ.next p).st) (p := (σ.next p).stashIn q)
      hq.reset hkick
      (by simp [CuckooReg.stashIn, CuckooReg.removeFSM, hb, hq.remove])
      (fun hu => by
        rw [show ((σ.next p).stashIn q).update = q.insert from rfl, hq.insert] at hu
        cases hu)
    unfold StashReg.Holds
    rw [hent]
    refine (and_iff_left fun i hi => ?_).symm
    have := (background_iff h hp hq).mpr ⟨i, hi⟩
    rw [hb] at this
    cases this

/-! ## Both together -/

/-- Presence before the removal. -/
theorem present_before (h : NoOperation σ) :
    Present σ k v ↔ σ.ht.content.Maps k v ∨ σ.st.Holds k v := by
  unfold Present
  rw [← HtReg.maps_content, h.insert]
  have hseat : σ.st.Holds k v ↔ _ := exists_congr fun i => StashReg.entries_eq_some
  rw [hseat]
  simp

/-- And after. -/
theorem present_after (h : NoOperation σ) (hp : RemovePulse p) (hq : NoCommand q)
    (hk : k ≠ p.key) :
    Present ((σ.next p).next q) k v ↔
      σ.ht.content.Maps k v ∨
        (∃ i, Takes σ p q i ∧ (σ.st.stash i).key = k ∧ (σ.st.stash i).value = v) ∨
        ((σ.st.Holds k v ∧ k ≠ p.searchKey) ∧
          ∀ i, Takes σ p q i → k ≠ (σ.st.stash i).key) := by
  rw [← maps_others h hp hq hk, ← moving_iff h hp hq, ← holds_after h hp hq]
  have hseat : ((σ.next p).next q).st.Holds k v ↔ _ :=
    exists_congr fun i => StashReg.entries_eq_some
  rw [hseat, HtReg.maps_content]
  rfl

/-- The key is in no row exactly when the tables do not hold it. -/
theorem rows_iff_not_has : (∀ i a, ¬ ((σ.ht.htMem i a).valid = true ∧
      (σ.ht.htMem i a).key = k)) ↔ ¬ σ.ht.content.Has k := by
  constructor
  · rintro hrows ⟨v, hv⟩
    obtain ⟨i, a, hval, hkey, -⟩ := HtReg.maps_content.mp hv
    exact hrows i a ⟨hval, hkey⟩
  · rintro hno i a ⟨hval, hkey⟩
    exact hno ⟨_, HtReg.maps_content.mpr ⟨i, a, hval, hkey, rfl⟩⟩

/-- And in no seat exactly when the stash does not. -/
theorem seats_iff_not_holds : (∀ i, ¬ ((σ.st.stash i).occupied = true ∧
      (σ.st.stash i).key = k)) ↔ ∀ v, ¬ σ.st.Holds k v := by
  constructor
  · rintro hseats v ⟨i, hi⟩
    obtain ⟨hocc, hkey, -⟩ := StashReg.entries_eq_some.mp hi
    exact hseats i ⟨hocc, hkey⟩
  · rintro hno i ⟨hocc, hkey⟩
    exact hno _ ⟨i, StashReg.entries_eq_some.mpr ⟨hocc, hkey, rfl⟩⟩

/-- **A removal of a removable flow.** -/
theorem removesOnly_of_removable (h : NoOperation σ) (hp : RemovePulse p) (hq : NoCommand q)
    (hr : Removable σ p q) : RemovesOnly σ ((σ.next p).next q) p.key where
  rows := rows_iff_not_has.mpr ((rows_iff h hp hq).mpr hr.row)
  seats := by
    refine seats_iff_not_holds.mpr fun v hv => ?_
    obtain ⟨⟨hold, hne⟩, hnot⟩ := (holds_after h hp hq).mp hv
    rcases hr.seat v hold with heq | ⟨i, hi, hkey⟩
    · exact hne heq
    · exact hnot i hi hkey.symm
  others k' v hk := by
    rw [present_after h hp hq hk, present_before h]
    constructor
    · rintro (hm | ⟨i, hi, rfl, rfl⟩ | ⟨⟨hold, -⟩, -⟩)
      · exact Or.inl hm
      · exact Or.inr (StashReg.holds_of_shownWithout hi.shown).1
      · exact Or.inr hold
    · rintro (hm | hold)
      · exact Or.inl hm
      by_cases hs : k' = p.searchKey
      · subst hs
        exact Or.inl (hr.searched hk v hold)
      by_cases ht : ∃ i, Takes σ p q i ∧ (σ.st.stash i).key = k'
      · obtain ⟨i, hi, rfl⟩ := ht
        rcases hr.moved i hi hk v hold with hv | hm
        · exact Or.inr (Or.inl ⟨i, hi, rfl, hv.symm⟩)
        · exact Or.inl hm
      · exact Or.inr (Or.inr ⟨⟨hold, hs⟩, fun i hi heq => ht ⟨i, hi, heq.symm⟩⟩)

/-- **And only of a removable one.** -/
theorem removable_of_removesOnly (h : NoOperation σ) (hp : RemovePulse p) (hq : NoCommand q)
    (hr : RemovesOnly σ ((σ.next p).next q) p.key) : Removable σ p q where
  row := (rows_iff h hp hq).mp (rows_iff_not_has.mp hr.rows)
  seat v hold := by
    by_contra hne
    rw [not_or, not_exists] at hne
    refine seats_iff_not_holds.mp hr.seats v ((holds_after h hp hq).mpr ⟨⟨hold, hne.1⟩, ?_⟩)
    exact fun i hi heq => hne.2 i ⟨hi, heq.symm⟩
  searched hk v hold := by
    rcases (present_after h hp hq hk).mp
      ((hr.others _ v hk).mpr ((present_before h).mpr (Or.inr hold))) with
      hm | ⟨i, hi, hkey, -⟩ | ⟨⟨-, hne⟩, -⟩
    · exact hm
    · exact absurd hkey (StashReg.holds_of_shownWithout hi.shown).2
    · exact absurd rfl hne
  moved i hi hk v hold := by
    rcases (present_after h hp hq hk).mp
      ((hr.others _ v hk).mpr ((present_before h).mpr (Or.inr hold))) with
      hm | ⟨j, hj, -, hval⟩ | ⟨-, hnot⟩
    · exact Or.inr hm
    · rw [hj.unique hi] at hval
      exact Or.inl hval.symm
    · exact absurd rfl (hnot i hi)

/-- **In a well-formed state** only the stash matters: the key it looks
for is the one removed, or neither is a key it holds. -/
theorem removable_iff_of_wf (hwf : StashedTable.WF wayAddr σ.view) :
    Removable σ p q ↔
      (∀ v, σ.st.Holds p.key v →
        p.key = p.searchKey ∨ ∃ i, Takes σ p q i ∧ (σ.st.stash i).key = p.key) ∧
      (p.searchKey ≠ p.key → ∀ v, ¬ σ.st.Holds p.searchKey v) := by
  constructor
  · intro hr
    exact ⟨hr.seat, fun hne v hold => hwf.apart hold ⟨v, hr.searched hne v hold⟩⟩
  · rintro ⟨hseat, hsearch⟩
    refine ⟨fun i a v hia => ⟨hwf.placed.home hia, fun j b w hjb => hwf.placed.unique hjb hia⟩,
      hseat, fun hne v hold => absurd hold (hsearch hne v), fun i hi _ v hold => Or.inl ?_⟩
    have hdist : σ.st.Distinct := hwf.distinct
    exact hdist.value_unique hold (StashReg.holds_of_shownWithout hi.shown).1

end Edges

/-! ## Runs -/

section Runs

variable {σ : CuckooReg} {ports : ℕ → CuckooIn} {t : ℕ}

/-- **When removing a flow removes that flow only**, in any state of any
run. -/
theorem removes_only_iff (h : NoOperation (run σ ports t)) (hp : RemovePulse (ports t))
    (hq : NoCommand (ports (t + 1))) :
    RemovesOnly (run σ ports t) (run σ ports (t + 2)) (ports t).key ↔
      Removable (run σ ports t) (ports t) (ports (t + 1)) :=
  ⟨removable_of_removesOnly h hp hq, removesOnly_of_removable h hp hq⟩

/-- **In a run of clean cycles every removal removes its flow only.** -/
theorem removesOnly_of_clean (hσ : EmptyTables σ) (henv : ∀ t, Env (ports t))
    (hc : ∀ t, CleanMap (run σ ports t) (ports t)) (h : NoOperation (run σ ports t))
    (hp : RemovePulse (ports t)) (hq : NoCommand (ports (t + 1))) :
    RemovesOnly (run σ ports t) (run σ ports (t + 2)) (ports t).key := by
  have hwf := (CuckooReg.Inv.run hσ henv (fun t => (hc t).toClean) t).wf
  refine removesOnly_of_removable h hp hq ((removable_iff_of_wf hwf).mpr ⟨fun v hold => ?_,
    fun hne v hold => hne ?_⟩)
  · exact Or.inl ((hc t).forgets hp.remove _ v hold rfl)
  · exact (hc t).remove hp.remove _ v hold rfl

/-- The processor fills the rows of these keys, a flow more comes in, and
the one it kicks out is removed, while another key is searched. -/
def removeKicked : ℕ → CuckooIn
  | 0 => { CuckooIn.idle with
      we := true, addr := 0, inputDin := ⟨true, true, 10, collidingKey 1⟩ }
  | 1 => { CuckooIn.idle with
      we := true, addr := 1024, inputDin := ⟨true, true, 20, collidingKey 2⟩ }
  | 2 => { CuckooIn.idle with
      we := true, addr := 2048, inputDin := ⟨true, true, 30, collidingKey 3⟩ }
  | 3 => { CuckooIn.idle with
      we := true, addr := 3072, inputDin := ⟨true, true, 40, collidingKey 4⟩ }
  | 4 => { CuckooIn.idle with insert := true, key := collidingKey 5, value := 50 }
  | 6 => { CuckooIn.idle with
      remove := true, key := collidingKey 4, searchKey := collidingKey 1 }
  | _ => CuckooIn.idle

/-- **It stays in the stash.** -/
theorem not_removes_only :
    ¬ ∀ ports t, NoOperation (run CuckooReg.initial ports t) → RemovePulse (ports t) →
      NoCommand (ports (t + 1)) →
      RemovesOnly (run CuckooReg.initial ports t) (run CuckooReg.initial ports (t + 2))
        (ports t).key := by
  intro hall
  have hidle : NoOperation (run CuckooReg.initial removeKicked 6) := ⟨rfl, rfl, rfl⟩
  have hgone := (hall removeKicked 6 hidle ⟨rfl, rfl, rfl, rfl, rfl⟩
    ⟨rfl, rfl, rfl, rfl, rfl⟩).seats 0
  have hstays : ((run CuckooReg.initial removeKicked 8).st.stash 0).occupied = true ∧
      ((run CuckooReg.initial removeKicked 8).st.stash 0).key = collidingKey 4 := by
    decide +kernel
  exact hgone hstays

/-- Five flows come in, of which one is kicked out into the stash; it is
removed, and searched in the same cycle. -/
def removeStashed : ℕ → CuckooIn
  | 0 => { CuckooIn.idle with insert := true, key := collidingKey 1, value := 10 }
  | 2 => { CuckooIn.idle with insert := true, key := collidingKey 2, value := 20 }
  | 4 => { CuckooIn.idle with insert := true, key := collidingKey 3, value := 30 }
  | 6 => { CuckooIn.idle with insert := true, key := collidingKey 4, value := 40 }
  | 8 => { CuckooIn.idle with insert := true, key := collidingKey 5, value := 50 }
  | 10 => { CuckooIn.idle with
      remove := true, key := collidingKey 2, searchKey := collidingKey 2 }
  | _ => CuckooIn.idle

/-- The cycles before the removal are clean. -/
theorem clean_removeStashed {u : ℕ} (hu : u < 10) :
    Clean (run CuckooReg.initial removeStashed u) (removeStashed u) := by
  have hports : ∀ u < 10, (removeStashed u).enable = false ∧ (removeStashed u).rd = false ∧
      (removeStashed u).remove = false := by decide +kernel
  obtain ⟨henable, hrd, hremove⟩ := hports u hu
  have hstart : ∀ u < 10, (removeStashed u).insert = true →
      (∀ i, (run CuckooReg.initial removeStashed u).ht.control.memoryWriteEnable i = false) ∧
        ∀ i, ((run CuckooReg.initial removeStashed u).st.stash i).occupied = false := by
    decide +kernel
  refine ⟨fun h => ⟨?_, fun hr => ?_⟩, fun _ _ hr => ?_, fun hinsert k v => ?_, fun hr => ?_⟩
  -- the mover is disabled, so the only insertions are those of the ports
  · have hbackground : (run CuckooReg.initial removeStashed u).background (removeStashed u) =
        false := by
      unfold CuckooReg.background
      rw [henable]
      rfl
    unfold CuckooReg.insertFSM at h
    rw [hbackground, Bool.false_or, hremove] at h
    exact (hstart u hu (h.resolve_right Bool.false_ne_true)).1
  · rw [hrd] at hr
    cases hr
  · rw [hrd] at hr
    cases hr
  · rintro ⟨i, hi⟩
    rw [StashReg.entries_eq_none.mpr ((hstart u hu hinsert).2 i)] at hi
    cases hi
  · rw [hremove] at hr
    cases hr

/-- **A flow leaves the stash**, and the others stay. -/
theorem removes_only_iff_stashed :
    (run CuckooReg.initial removeStashed 10).st.Holds (collidingKey 2) 20 ∧
      Present (run CuckooReg.initial removeStashed 10) (collidingKey 5) 50 ∧
      RemovesOnly (run CuckooReg.initial removeStashed 10) (run CuckooReg.initial removeStashed 12)
        (collidingKey 2) := by
  have henv : ∀ u < 10, Env (removeStashed u) := fun u hu => by
    have hports : ∀ u < 10, (removeStashed u).reset = false ∧ (removeStashed u).we = false ∧
        (removeStashed u).remove = false := by decide +kernel
    obtain ⟨hreset, hwe, hremove⟩ := hports u hu
    exact ⟨hreset, hwe, fun h => by rw [hremove] at h; cases h.2⟩
  have hwf := (CuckooReg.Inv.run_of_lt CuckooReg.emptyTables_initial henv
    fun u hu => clean_removeStashed hu).wf
  have hremovable : Removable (run CuckooReg.initial removeStashed 10) (removeStashed 10)
      (removeStashed 11) :=
    (removable_iff_of_wf hwf).mpr ⟨fun _ _ => .inl rfl, fun hne => absurd rfl hne⟩
  refine ⟨⟨0, by decide +kernel⟩, .inl ⟨1, 0, by decide +kernel⟩, ?_⟩
  exact (removes_only_iff ⟨rfl, rfl, rfl⟩ ⟨rfl, rfl, rfl, rfl, rfl⟩ ⟨rfl, rfl, rfl, rfl, rfl⟩).mpr
    hremovable

end Runs

end Hw

end FlowBlaze

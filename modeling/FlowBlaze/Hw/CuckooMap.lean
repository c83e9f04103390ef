import FlowBlaze.Hw.CuckooRefines
/-!
# The flow table is a map

In a run of clean cycles the state of the circuit always means the map
the operations issued so far make: the last insertion or removal of a
key wins, whatever the background process moves in between. A search
answers that map when its key is not in the stash or on its way from
there, since the stash answers one cycle after the tables and the answer
is taken when the tables give theirs.
-/

namespace FlowBlaze

namespace Hw

open Common

variable {σ : CuckooReg} {ports : ℕ → CuckooIn} {t u : ℕ} {k : Key} {v : Value}

/-- An insertion or removal of the key is issued in this cycle. -/
def OpFor (p : CuckooIn) (k : Key) : Prop := (p.insert = true ∨ p.remove = true) ∧ p.key = k

/-- **The last insertion or removal of the key issued before the cycle is
an insertion with the value.** -/
def LastInsert (ports : ℕ → CuckooIn) (t : ℕ) (k : Key) (v : Value) : Prop :=
  ∃ u < t, (ports u).insert = true ∧ (ports u).key = k ∧ (ports u).value = v ∧
    ∀ w, u < w → w < t → ¬ OpFor (ports w) k

/-- **The answer of a search in this cycle is the map's.** -/
def LastWriteWins (σ : CuckooReg) (ports : ℕ → CuckooIn) (t : ℕ) : Prop :=
  (ports t).search = true → ∀ v,
    ((run σ ports (t + 1)).hit = true ∧ (run σ ports (t + 1)).searchValue = v) ↔
      LastInsert ports t (ports t).searchKey v

/-- The runs in question: no reset, no write by the processor, pulses at
least four cycles apart, and the key of a search at the port from the
cycle before its pulse. -/
structure MapRun (ports : ℕ → CuckooIn) : Prop where
  reset : ∀ t, (ports t).reset = false
  we : ∀ t, (ports t).we = false
  spaced : Spaced ports [.insert, .remove, .search]
  first : (ports 0).search = false
  ready : ∀ t, (ports (t + 1)).search = true → (ports t).searchKey = (ports (t + 1)).searchKey

/-- A clean cycle in which a removal also finds its key in the stash. -/
structure CleanMap (σ : CuckooReg) (p : CuckooIn) : Prop extends Clean σ p where
  forgets : p.remove = true → ∀ k v, σ.st.Holds k v → k = p.key → k = p.searchKey

/-- The cycle before a search finds the key neither in the stash nor in
the insertion pipeline. -/
def CleanSearch (σ : CuckooReg) (p' : CuckooIn) : Prop :=
  p'.search = true → (∀ v, ¬ σ.st.Holds p'.searchKey v) ∧
    ¬ (σ.ht.insertD = true ∧ σ.ht.keyD = p'.searchKey)

/-! ## The map the operations make -/

/-- An operation on the key decides. -/
theorem lastInsert_succ_of_op (h : OpFor (ports t) k) :
    LastInsert ports (t + 1) k v ↔ (ports t).insert = true ∧ (ports t).value = v := by
  constructor
  · rintro ⟨u, hu, hi, -, hv, hlast⟩
    by_cases hut : u = t
    · subst hut
      exact ⟨hi, hv⟩
    · exact absurd h (hlast t (by omega) (by omega))
  · rintro ⟨hi, hv⟩
    exact ⟨t, by omega, hi, h.2, hv, fun w hw hw' => by omega⟩

/-- Any other cycle leaves the key as it was. -/
theorem lastInsert_succ_of_not (h : ¬ OpFor (ports t) k) :
    LastInsert ports (t + 1) k v ↔ LastInsert ports t k v := by
  constructor
  · rintro ⟨u, hu, hi, hk, hv, hlast⟩
    have hne : u ≠ t := by
      rintro rfl
      exact h ⟨Or.inl hi, hk⟩
    exact ⟨u, by omega, hi, hk, hv, fun w hw hw' => hlast w hw (by omega)⟩
  · rintro ⟨u, hu, hi, hk, hv, hlast⟩
    refine ⟨u, by omega, hi, hk, hv, fun w hw hw' => ?_⟩
    by_cases hwt : w = t
    · subst hwt
      exact h
    · exact hlast w hw (by omega)

/-! ## The run -/

theorem MapRun.env (h : MapRun ports) (t : ℕ) : Env (ports t) where
  reset := h.reset t
  we := h.we t
  one := by
    rintro ⟨hi, hr⟩
    rcases h.spaced t t .insert .remove (by simp) (by simp) hi hr with ⟨-, he⟩ | he | he
    · cases he
    · omega
    · omega

/-- No operation is issued in the three cycles before a search. -/
theorem MapRun.quiet (h : MapRun ports) (hs : (ports t).search = true) (hu : u < t)
    (hlt : t < u + 4) :
    (ports u).insert = false ∧ (ports u).remove = false ∧ (ports u).search = false := by
  have hno : ∀ e, (ports u).pulse e = false := by
    intro e
    rw [← Bool.not_eq_true]
    intro he
    rcases h.spaced u t e .search (by cases e <;> simp) (by simp) he hs with ⟨ht, -⟩ | ht | ht
      <;> omega
  exact ⟨hno .insert, hno .remove, hno .search⟩

namespace CuckooReg

/-- After a cycle that issues a removal, the stash does not hold its key. -/
theorem forgotten_next (hinv : σ.Inv) {p : CuckooIn} (he : Env p) (hc : CleanMap σ p) :
    (σ.next p).view.Forgotten := by
  intro k hpend w hw
  -- the pending removal was issued in this cycle
  have hrem : p.remove = true := by
    have hp : (σ.next p).pending = some (.remove k) := hpend
    rw [pending_next he] at hp
    cases hr : p.remove with
    | true => rfl
    | false =>
      rw [hr] at hp
      simp only [Bool.false_eq_true, if_false] at hp
      split at hp
      · split at hp <;> cases hp
      · cases hp
  have hkey : p.key = k := (issued_of_pending he (Or.inl hpend)).2
  have hb : σ.background p = false := by
    rw [← Bool.not_eq_true]
    intro hb
    have := (of_background hb).2.1
    rw [hrem] at this
    cases this
  have hq := (hc.starts (Or.inr hrem)).1
  obtain ⟨hctl, -, -⟩ := HtReg.quiet (p := σ.htIn p) he.we he.reset hinv.sync.read
    hinv.wf.placed hinv.sync.one hinv.sync.update hq
  have hkick : (σ.stashIn p).insert = false := by
    show σ.ht.control.kicked = false
    rw [hctl]
    rfl
  obtain ⟨hent, -⟩ := StashReg.next_remove (s := σ.st) (p := σ.stashIn p) he.reset hkick
    (by simp [stashIn, removeFSM, hrem])
  obtain ⟨j, hj⟩ := hw
  obtain ⟨hold, hne⟩ := (hent j k w).1 hj
  have hsearch : (σ.stashIn p).searchKey = p.searchKey := by simp [stashIn, searchKeyFSM, hb]
  rw [hsearch] at hne
  exact hne (hc.forgets hrem k w ⟨j, hold⟩ hkey.symm)

/-- **A clean cycle does to the map what was issued in it.** -/
theorem means_next (hinv : σ.Inv) (hf : σ.view.Forgotten) {p : CuckooIn} (he : Env p)
    (hc : Clean σ p) (hev : (σ.next p).st.intEvictedEntry = σ.st.intEvictedEntry) :
    (σ.next p).view.Means k v ↔
      (OpFor p k ∧ p.insert = true ∧ p.value = v) ∨ (¬ OpFor p k ∧ σ.view.Means k v) := by
  obtain ⟨e, hstep, hshow⟩ := step_of_clean hinv.sync hinv.wf he hc
  have hne : ∀ k v, e ≠ .evict k v := by
    rintro k v rfl
    obtain ⟨-, -, -, -, -, -, hmore⟩ := hshow
    rw [hev] at hmore
    exact absurd hmore (by simp)
  rw [hstep.means hinv.wf hf hne]
  unfold OpFor
  cases e with
  | internal =>
    obtain ⟨hi, hr, -⟩ := hshow
    simp [StashedTable.after, hi, hr]
  | insert k₀ v₀ =>
    obtain ⟨hi, hr, rfl, rfl, -⟩ := hshow
    simp [StashedTable.after, hi, hr, eq_comm]
  | remove k₀ =>
    obtain ⟨hi, hr, rfl, -⟩ := hshow
    simp [StashedTable.after, hi, hr, eq_comm]
  | evict k₀ v₀ => exact absurd rfl (hne _ _)

/-- Empty tables mean the empty map. -/
theorem not_means_of_empty (h : EmptyTables σ) : ¬ σ.view.Means k v := by
  rw [StashedTable.means_of_none (pending_of_empty h)]
  rintro (⟨i, a, hia⟩ | ⟨j, hj⟩)
  · have hnone : σ.ht.content i a = none := by simp [HtReg.content, Row.entry, h.htMem i a]
    rw [show σ.view.table i a = none from hnone] at hia
    cases hia
  · rw [show σ.view.seats j = none from StashReg.entries_eq_none.2 (h.stash j)] at hj
    cases hj

end CuckooReg

/-- **Every state of a clean run means the map of the operations issued.** -/
theorem means_run (hσ : EmptyTables σ) (hp : MapRun ports)
    (hev : ∀ t, (run σ ports t).st.intEvictedEntry = 0)
    (hc : ∀ t, CleanMap (run σ ports t) (ports t)) (t : ℕ) :
    (run σ ports t).view.Forgotten ∧
      ∀ k v, (run σ ports t).view.Means k v ↔ LastInsert ports t k v := by
  have hinv := CuckooReg.Inv.run hσ hp.env fun t => (hc t).toClean
  induction t with
  | zero =>
    refine ⟨?_, fun k v => iff_of_false (CuckooReg.not_means_of_empty hσ) ?_⟩
    · intro k hpend
      rw [show (run σ ports 0).view.pending = none from CuckooReg.pending_of_empty hσ] at hpend
      cases hpend
    · rintro ⟨u, hu, -⟩
      omega
  | succ t ih =>
    refine ⟨CuckooReg.forgotten_next (hinv t) (hp.env t) (hc t), fun k v => ?_⟩
    have hstep := CuckooReg.means_next (k := k) (v := v) (hinv t) ih.1 (hp.env t) (hc t).toClean
      ((hev (t + 1)).trans (hev t).symm)
    refine hstep.trans ?_
    by_cases hop : OpFor (ports t) k
    · rw [lastInsert_succ_of_op hop]
      simp [hop]
    · rw [lastInsert_succ_of_not hop, ← ih.2]
      simp [hop]

/-! ## Searches -/

namespace CuckooReg

variable {p p' : CuckooIn}

/-- **What the tables answer** is what they held at the key's addresses
in the cycle before the search. -/
theorem ht_hit_next (hs : p'.search = true) :
    (σ.next p).ht.hit ((σ.next p).htIn p') = true ↔
      ∃ i w, σ.ht.content i (wayAddr i p.searchKey) = some (p.searchKey, w) := by
  have hans : ∀ i, (σ.next p).ht.answers i = true ↔
      ∃ w, σ.ht.content i (wayAddr i p.searchKey) = some (p.searchKey, w) := by
    intro i
    show ((σ.ht.htMem i (wayAddr i p.searchKey)).key == p.searchKey &&
      (σ.ht.htMem i (wayAddr i p.searchKey)).valid) = true ↔ _
    unfold HtReg.content Row.entry
    cases (σ.ht.htMem i (wayAddr i p.searchKey)).valid <;> simp
  unfold HtReg.hit
  rw [show ((σ.next p).htIn p').search = true from hs, Bool.true_and, List.any_eq_true]
  constructor
  · rintro ⟨i, -, hi⟩
    exact ⟨i, (hans i).1 hi⟩
  · rintro ⟨i, hi⟩
    exact ⟨i, mem_ways i, (hans i).2 hi⟩

/-- The value the tables answer with. -/
theorem ht_output_next (hp : Tables.Placed wayAddr σ.ht.content) (hs : p'.search = true)
    (hm : σ.ht.content.Maps p.searchKey v) :
    (σ.next p).ht.output ((σ.next p).htIn p') = v := by
  unfold HtReg.output
  rw [if_pos (show ((σ.next p).htIn p').search = true from hs)]
  cases hl : (ways.filter (σ.next p).ht.answers).getLast? with
  | none =>
    rw [List.getLast?_eq_none_iff, List.filter_eq_nil_iff] at hl
    obtain ⟨i, hi⟩ := hp.maps_iff.1 hm
    have hhit := (ht_hit_next (σ := σ) (p := p) hs).2 ⟨i, v, hi⟩
    unfold HtReg.hit at hhit
    rw [Bool.and_eq_true, List.any_eq_true] at hhit
    obtain ⟨-, j, hj, hans⟩ := hhit
    exact absurd hans (hl j hj)
  | some i =>
    have hmem := List.mem_of_getLast? hl
    rw [List.mem_filter] at hmem
    have hans : ((σ.ht.htMem i (wayAddr i p.searchKey)).key == p.searchKey &&
        (σ.ht.htMem i (wayAddr i p.searchKey)).valid) = true := hmem.2
    rw [Bool.and_eq_true, beq_iff_eq] at hans
    have hcell : σ.ht.content i (wayAddr i p.searchKey) =
        some (p.searchKey, (σ.ht.htMem i (wayAddr i p.searchKey)).value) := by
      unfold HtReg.content Row.entry
      rw [hans.2, hans.1]
      rfl
    exact hp.value_unique ⟨i, _, hcell⟩ hm

/-- **The answer to a search**, when no search came in the cycle before. -/
theorem answer_next (hp : Tables.Placed wayAddr σ.ht.content) (he : Env p')
    (hno : p.search = false) (hs : p'.search = true) (hk : p.searchKey = p'.searchKey) :
    (((σ.next p).next p').hit = true ∧ ((σ.next p).next p').searchValue = v) ↔
      σ.ht.content.Maps p'.searchKey v := by
  have hst : (σ.next p).st.hit = false := by
    show (!p.reset && p.search && _) = false
    rw [hno, Bool.and_false, Bool.false_and]
  have hhit : ((σ.next p).next p').hit = (σ.next p).ht.hit ((σ.next p).htIn p') := by
    show (!p'.reset && ((σ.next p).st.hit || _)) = _
    rw [he.reset, hst]
    simp
  rw [hhit]
  have hval : (σ.next p).ht.hit ((σ.next p).htIn p') = true →
      ((σ.next p).next p').searchValue = (σ.next p).ht.output ((σ.next p).htIn p') := by
    intro h
    show (if p'.reset then _ else if _ then _ else _) = _
    rw [he.reset, hs, h]
    rfl
  rw [← hk]
  constructor
  · rintro ⟨h, rfl⟩
    obtain ⟨i, w, hi⟩ := (ht_hit_next hs).1 h
    rw [hval h, ht_output_next hp hs ⟨i, _, hi⟩]
    exact ⟨i, _, hi⟩
  · intro hm
    obtain ⟨i, hi⟩ := hp.maps_iff.1 hm
    have h := (ht_hit_next (σ := σ) (p := p) hs).2 ⟨i, v, hi⟩
    exact ⟨h, by rw [hval h, ht_output_next hp hs hm]⟩

end CuckooReg

/-- In the cycle before a search no operation is pending on its key. -/
theorem pending_ne_of_search (hσ : EmptyTables σ) (hp : MapRun ports)
    (hsync : (run σ ports t).Sync) (hs : (ports (t + 1)).search = true)
    (hpipe : ¬ ((run σ ports t).ht.insertD = true ∧
      (run σ ports t).ht.keyD = (ports (t + 1)).searchKey))
    (op : Pending Key Value) (hop : (run σ ports t).view.pending = some op) :
    op.key ≠ (ports (t + 1)).searchKey := by
  intro hkey
  have hstore : ∀ {k v}, (run σ ports t).view.Stores k v → k ≠ (ports (t + 1)).searchKey := by
    rintro k v hst rfl
    obtain ⟨hi, hk, -⟩ := (CuckooReg.stores_iff hsync).1 hst
    exact hpipe ⟨hi, hk⟩
  cases op with
  | insert k v => exact hstore (Or.inl hop) hkey
  | move k v => exact hstore (Or.inr hop) hkey
  | remove k =>
    -- it would have been issued two cycles before the search
    cases t with
    | zero =>
      rw [show (run σ ports 0).view.pending = none from CuckooReg.pending_of_empty hσ] at hop
      cases hop
    | succ u =>
      obtain ⟨hissued, -⟩ := CuckooReg.issued_of_pending (hp.env u) (Or.inl hop)
      obtain ⟨hi, hr, -⟩ := hp.quiet (u := u) hs (by omega) (by omega)
      rw [hi, hr] at hissued
      rcases hissued with h | h <;> cases h

/-- **The cuckoo flow table is a map: the last write wins.** -/
theorem last_write_wins (hσ : EmptyTables σ) (hp : MapRun ports)
    (hev : ∀ t, (run σ ports t).st.intEvictedEntry = 0)
    (hc : ∀ t, CleanMap (run σ ports t) (ports t))
    (hs : ∀ t, CleanSearch (run σ ports t) (ports (t + 1))) (t : ℕ) :
    LastWriteWins σ ports t := by
  intro hsearch v
  cases t with
  | zero =>
    rw [hp.first] at hsearch
    cases hsearch
  | succ u =>
    have hinv := CuckooReg.Inv.run hσ hp.env (fun t => (hc t).toClean) u
    obtain ⟨hfor, hmeans⟩ := means_run hσ hp hev hc u
    obtain ⟨hi, hr, hno⟩ := hp.quiet (u := u) hsearch (by omega) (by omega)
    obtain ⟨hstash, hpipe⟩ := hs u hsearch
    have hanswer := CuckooReg.answer_next (v := v) hinv.wf.placed (hp.env (u + 1)) hno hsearch
      (hp.ready u hsearch)
    have hop : ¬ OpFor (ports u) (ports (u + 1)).searchKey := by
      rintro ⟨h, -⟩
      rw [hi, hr] at h
      rcases h with h | h <;> cases h
    refine hanswer.trans ?_
    rw [lastInsert_succ_of_not hop, ← hmeans]
    rw [StashedTable.means_of_ne (pending_ne_of_search hσ hp hinv.sync hsearch hpipe)]
    exact ⟨Or.inl, fun h => h.resolve_right (hstash v)⟩

/-! ## Two runs -/

/-- An insertion, and five cycles later a search for its key. In one of
the two runs the processor reads another row in the cycle the entry is
written. -/
def insertThenSearch (rd : Bool) (t : ℕ) : CuckooIn :=
  { CuckooIn.idle with
    rd := rd && t == 1
    addr := 2
    insert := t == 0
    key := 1
    value := 10
    search := t == 5
    searchKey := 1 }

/-- Both runs are among those in question. -/
theorem mapRun_insertThenSearch (rd : Bool) : MapRun (insertThenSearch rd) where
  reset _ := rfl
  we _ := rfl
  spaced t t' e e' _ _ h h' := by
    cases e <;> cases e' <;>
      simp only [CuckooIn.pulse, insertThenSearch, CuckooIn.idle, beq_iff_eq,
        Bool.false_eq_true] at h h' <;> subst h <;> subst h' <;> simp
  first := rfl
  ready _ _ := rfl

/-- Only the first cycle starts an operation. -/
private theorem insertFSM_insertThenSearch (rd : Bool) (σ : CuckooReg) (t : ℕ) :
    σ.insertFSM (insertThenSearch rd (t + 1)) = false := by
  simp [CuckooReg.insertFSM, CuckooReg.background, insertThenSearch, CuckooIn.idle]

/-- Neither run kicks an entry out. -/
private theorem kicked_insertThenSearch (rd : Bool) (t : ℕ) :
    (run CuckooReg.initial (insertThenSearch rd) t).ht.control.kicked = false := by
  match t with
  | 0 => rfl
  | 1 => cases rd <;> decide +kernel
  | t + 2 =>
    have hidle : (run CuckooReg.initial (insertThenSearch rd) (t + 2)).ht.insertD = false :=
      insertFSM_insertThenSearch rd (run CuckooReg.initial (insertThenSearch rd) (t + 1)) t
    rw [HtReg.control_idle rfl hidle rfl]
    rfl

theorem evicted_insertThenSearch (rd : Bool) (t : ℕ) :
    (run CuckooReg.initial (insertThenSearch rd) t).st.intEvictedEntry = 0 := by
  induction t with
  | zero => rfl
  | succ t ih =>
    rw [← ih]
    exact StashReg.evicted_next rfl (kicked_insertThenSearch rd t)

/-- Without the read every cycle is clean. -/
theorem cleanMap_insertThenSearch (t : ℕ) :
    CleanMap (run CuckooReg.initial (insertThenSearch false) t) (insertThenSearch false t) := by
  have hrd : (insertThenSearch false t).rd = false := rfl
  have hrem : (insertThenSearch false t).remove = false := rfl
  cases t with
  | zero =>
    refine ⟨⟨fun _ => ⟨fun i => rfl, fun h => ?_⟩, fun _ _ h => ?_, fun _ k v hkv => ?_,
      fun h => ?_⟩, fun h => ?_⟩
    · rw [hrd] at h; cases h
    · rw [hrd] at h; cases h
    · obtain ⟨i, hi⟩ := hkv
      cases hi
    · rw [hrem] at h; cases h
    · rw [hrem] at h; cases h
  | succ t =>
    refine ⟨⟨fun h => ?_, fun _ _ h => ?_, fun h => ?_, fun h => ?_⟩, fun h => ?_⟩
    · rw [insertFSM_insertThenSearch, hrem] at h
      rcases h with h | h <;> cases h
    · rw [hrd] at h; cases h
    · simp [insertThenSearch] at h
    · rw [hrem] at h; cases h
    · rw [hrem] at h; cases h

/-- The key searched is in the tables by then. -/
theorem cleanSearch_insertThenSearch (t : ℕ) :
    CleanSearch (run CuckooReg.initial (insertThenSearch false) t)
      (insertThenSearch false (t + 1)) := by
  intro hs
  have ht : t = 4 := by
    have : t + 1 = 5 := by simpa [insertThenSearch] using hs
    omega
  subst ht
  refine ⟨?_, ?_⟩
  · rintro v ⟨i, hi⟩
    have hfree : ∀ i, ((run CuckooReg.initial (insertThenSearch false) 4).st.stash i).occupied =
        false := by
      decide +kernel
    rw [StashReg.entries_eq_none.2 (hfree i)] at hi
    cases hi
  · rintro ⟨hi, -⟩
    rw [show (run CuckooReg.initial (insertThenSearch false) 4).ht.insertD = false from
      insertFSM_insertThenSearch false (run CuckooReg.initial (insertThenSearch false) 3) 2] at hi
    cases hi

/-- The search finds the entry. -/
theorem last_write_wins_insertThenSearch :
    LastWriteWins CuckooReg.initial (insertThenSearch false) 5 :=
  last_write_wins CuckooReg.emptyTables_initial (mapRun_insertThenSearch false)
    (evicted_insertThenSearch false) cleanMap_insertThenSearch cleanSearch_insertThenSearch 5

/-- **With the read the entry is not found**: it was written to the row
the processor read. -/
theorem not_last_write_wins :
    ¬ ∀ σ ports, EmptyTables σ → MapRun ports →
      (∀ t, (run σ ports t).st.intEvictedEntry = 0) → ∀ t, LastWriteWins σ ports t := by
  intro hall
  have hwins := hall _ _ CuckooReg.emptyTables_initial (mapRun_insertThenSearch true)
    (evicted_insertThenSearch true) 5 rfl 10
  have hlast : LastInsert (insertThenSearch true) 5 1 10 := by
    refine ⟨0, by omega, rfl, rfl, rfl, fun w hw _ hop => ?_⟩
    rcases hop.1 with h | h
    · have h0 : w = 0 := by simpa [insertThenSearch] using h
      omega
    · cases h
  have hhit : (run CuckooReg.initial (insertThenSearch true) 6).hit = true := (hwins.2 hlast).1
  have hmiss : (run CuckooReg.initial (insertThenSearch true) 6).hit = false := by
    decide +kernel
  rw [hmiss] at hhit
  cases hhit

end Hw

end FlowBlaze

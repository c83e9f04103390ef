import FlowBlaze.Common.DataMap
import FlowBlaze.Sw.ActionsSpec
import FlowBlaze.Sw.Release
import FlowBlaze.Sw.TableSpec
import Mathlib.Data.Fintype.Pi
/-!
# The flow cache — `xfsm.c`, `simple-test.c`

With `CACHE_ENABLE` a worker keeps, for each table, the rows it looked up
by condition results and state, and looks a row up only if it is not
there. The key is packed in a buffer that is kept from packet to packet,
of which as many results are written as the program was built for.

The cache is transparent: a row depends on the state and the results of
the table's conditions and on nothing else, so whatever the cache
remembers is what the lookup would answer, for any flow and at any time.
-/

namespace FlowBlaze

namespace Sw

open Common

/-- `cache_key_t`. -/
structure CacheKey where
  results : Results
  state : State
deriving DecidableEq

/-- The key buffer, zeroed. -/
def CacheKey.zero : CacheKey := ⟨fun _ => .xfsmFalse, 0⟩

/-- Pack the cache entry key: the first results are copied, and the
state. -/
def CacheKey.pack (ck : CacheKey) (numCondition : ℕ) (matchInst : XfsmInstance) :
    Option CacheKey :=
  if numCondition ≤ maxConditions then
    some ⟨fun i => if i.val < numCondition then matchInst.results i else ck.results i,
      matchInst.currentState⟩
  else none

variable {H : SlotMap FlowKey} {HE : SlotMap State}

/-- A table with its cache. -/
structure CachedTable (H : SlotMap FlowKey) (HE : SlotMap State)
    (D : DataMap CacheKey XfsmTableEntry) where
  table : XfsmTable H HE
  cache : D.State

section Cached

variable {D : DataMap CacheKey XfsmTableEntry}

/-- `cache_lookup`, and if there is nothing `xfsm_table_lookup` and
`cache_insert`. -/
def cachedLookup (cache : D.State) (ck : CacheKey) (R : Ready H HE) :
    Option (D.State × Option XfsmTableEntry) :=
  match D.lookup cache ck with
  | some row => some (cache, some row)
  | none =>
    R.tableLookup.map fun
      | none => (cache, none)
      | some row => ((D.add cache ck row).1, some row)

/-- A visit with a cache: the packet before the row was looked up, the
visit, and the cache and the key buffer after it. -/
structure CachedVisit (H : SlotMap FlowKey) (HE : SlotMap State)
    (D : DataMap CacheKey XfsmTableEntry) where
  ready : Ready H HE
  visited : Visited H HE
  cache : D.State
  ck : CacheKey

/-- The table a visit leaves, with its cache. -/
def CachedVisit.cachedTable (V : CachedVisit H HE D) : CachedTable H HE D :=
  ⟨V.visited.table, V.cache⟩

/-- **A visit of a stage with a cache.** -/
def CachedTable.visit (C : CachedTable H HE D) (numCondition : ℕ) (M : Mem) (key : FlowKey)
    (ck : CacheKey) : Option (CachedVisit H HE D) := do
  let R ← C.table.prepare M key
  let ck ← ck.pack numCondition R.matchInst
  let (cache, row) ← cachedLookup C.cache ck R
  match row with
  | none => return ⟨R, R.leave M, cache, ck⟩
  | some row => (R.execute M row).map fun V => ⟨R, V, cache, ck⟩

/-- The loop of `simple-test.c`, with a cache: one table, one visit for
each packet. -/
def cachedRun (numCondition : ℕ) (C : CachedTable H HE D) (key : FlowKey) (ck : CacheKey) :
    List Mem → Option (List (CachedVisit H HE D))
  | [] => some []
  | M :: Ms => do
    let V ← C.visit numCondition M key ck
    let Vs ← cachedRun numCondition V.cachedTable V.visited.key V.ck Ms
    return V :: Vs

/-- The same loop without. -/
def plainRun (T : XfsmTable H HE) (key : FlowKey) : List Mem → Option (List (Visited H HE))
  | [] => some []
  | M :: Ms => do
    let V ← T.visit M key
    let Vs ← plainRun V.table V.key Ms
    return V :: Vs

/-! ## What a row depends on -/

/-- **The row a table would look up for a key.** -/
def XfsmTable.rowFor (T : XfsmTable H HE) (ck : CacheKey) : Option XfsmTableEntry :=
  (xfsmTableLookup T.entries XfsmTableEntry.results T.nbConditions ck.state ck.results).getD none

variable {C : CachedTable H HE D} {R : Ready H HE} {ck ck' : CacheKey} {numCondition : ℕ}

/-- **A lookup asks for the row of the key packed.** -/
theorem tableLookup_eq_of_pack (hnum : R.table.nbConditions = numCondition)
    (hpack : ck.pack numCondition R.matchInst = some ck') :
    R.tableLookup = xfsmTableLookup R.table.entries XfsmTableEntry.results R.table.nbConditions
      ck'.state ck'.results := by
  unfold CacheKey.pack at hpack
  split at hpack
  · cases hpack
    refine xfsmTableLookup_congr (fun i hi => ?_) R.matchInst.currentState
    rw [hnum] at hi
    exact (if_pos hi).symm
  · cases hpack

/-- The cache of a table is right: it remembers rows the table would look
up. -/
def CachedTable.Sound (C : CachedTable H HE D) : Prop := D.Remembers C.cache C.table.rowFor

/-- Preparing a visit leaves what rows depend on as it is. -/
theorem rowFor_prepare {T : XfsmTable H HE} {M : Mem} {key : FlowKey}
    (h : T.prepare M key = some R) :
    R.table.rowFor = T.rowFor ∧ R.table.nbConditions = T.nbConditions := by
  obtain ⟨fields, results, -, -, -, -, htable⟩ := prepare_eq_some h
  rw [htable]
  exact ⟨rfl, rfl⟩

/-- And so does executing a row. -/
theorem rowFor_execute {M : Mem} {row : XfsmTableEntry} {V : Visited H HE}
    (h : R.execute M row = some V) :
    V.table.rowFor = R.table.rowFor ∧ V.table.nbConditions = R.table.nbConditions := by
  obtain ⟨X, -, rfl⟩ := Option.map_eq_some_iff.mp h
  split <;> exact ⟨rfl, rfl⟩

/-- **With a right cache, the row is the one the table looks up**, and the
cache stays right. -/
theorem cachedLookup_eq (hC : D.Remembers C.cache R.table.rowFor)
    (hnum : R.table.nbConditions = numCondition)
    (hpack : ck.pack numCondition R.matchInst = some ck') :
    ∃ cache, cachedLookup C.cache ck' R = some (cache, R.table.rowFor ck') ∧
      R.tableLookup = some (R.table.rowFor ck') ∧ D.Remembers cache R.table.rowFor := by
  have hroom : R.table.nbConditions ≤ maxConditions := by
    unfold CacheKey.pack at hpack
    split at hpack
    · omega
    · cases hpack
  obtain ⟨row, hrow⟩ : ∃ row, R.tableLookup = some row := by
    unfold Ready.tableLookup xfsmTableLookup
    cases bucket R.table.entries R.matchInst.currentState with
    | none => exact ⟨none, rfl⟩
    | some rows => exact Option.isSome_iff_exists.mp (scanBucket_isSome hroom rows)
  have hfor : R.table.rowFor ck' = row := by
    unfold XfsmTable.rowFor
    rw [← tableLookup_eq_of_pack hnum hpack, hrow]
    rfl
  refine ⟨(D.readThrough C.cache ck' (R.table.rowFor ck')).1, ?_, by rw [hrow, hfor],
    hC.readThrough ck'⟩
  unfold cachedLookup DataMap.readThrough
  cases hcache : D.lookup C.cache ck' with
  | some r => rw [hC ck' r hcache]
  | none =>
    rw [hrow, hfor]
    cases row <;> rfl

/-- A packet that was prepared has no more conditions than there is room
for. -/
theorem nbConditions_of_prepare {T : XfsmTable H HE} {M : Mem} {key : FlowKey}
    (h : T.prepare M key = some R) : T.nbConditions ≤ maxConditions := by
  obtain ⟨fields, results, -, -, -, hresults, -⟩ := prepare_eq_some h
  exact xfsmEvaluateConditions_room hresults

/-! ## Transparency -/

/-- **A visit with a right cache is a visit without one.** -/
theorem cachedVisit_eq (hC : C.Sound) (hnum : C.table.nbConditions = numCondition) (M : Mem)
    (key : FlowKey) (ck : CacheKey) :
    (C.visit numCondition M key ck).map CachedVisit.visited = C.table.visit M key := by
  unfold CachedTable.visit XfsmTable.visit
  cases hprepare : C.table.prepare M key with
  | none => rfl
  | some R =>
    obtain ⟨hfor, hnb⟩ := rowFor_prepare hprepare
    have hroom := nbConditions_of_prepare hprepare
    obtain ⟨ck', hpack⟩ : ∃ ck', ck.pack numCondition R.matchInst = some ck' :=
      ⟨_, if_pos (hnum ▸ hroom)⟩
    obtain ⟨cache, hlookup, htable, -⟩ := @cachedLookup_eq H HE D C R ck ck' numCondition
      (hfor ▸ hC) (hnb.trans hnum) hpack
    simp only [Option.bind_eq_bind, Option.bind_some, hpack, hlookup, htable]
    cases R.table.rowFor ck' with
    | none => rfl
    | some row =>
      simp only [Option.map_map]
      exact Option.map_id'

/-- **A visit keeps the cache right**, and executes the row the lookup
would return. -/
theorem cachedVisit_sound (hC : C.Sound) (hnum : C.table.nbConditions = numCondition) {M : Mem}
    {key : FlowKey} {ck : CacheKey} {V : CachedVisit H HE D}
    (h : C.visit numCondition M key ck = some V) :
    V.cachedTable.Sound ∧ V.cachedTable.table.nbConditions = numCondition ∧
      V.ready.tableLookup = some V.visited.row := by
  unfold CachedTable.visit at h
  obtain ⟨R, hprepare, h⟩ := Option.bind_eq_some_iff.mp h
  obtain ⟨ck', hpack, h⟩ := Option.bind_eq_some_iff.mp h
  obtain ⟨hfor, hnb⟩ := rowFor_prepare hprepare
  obtain ⟨cache, hlookup, htable, hsound⟩ := @cachedLookup_eq H HE D C R ck ck' numCondition
    (hfor ▸ hC) (hnb.trans hnum) hpack
  simp only [Option.bind_eq_bind, Option.bind_some, hlookup] at h
  cases hrow : R.table.rowFor ck' with
  | none =>
    rw [hrow] at h htable
    cases h
    exact ⟨hsound, hnb.trans hnum, htable⟩
  | some row =>
    rw [hrow] at h htable
    obtain ⟨V', hexecute, rfl⟩ := Option.map_eq_some_iff.mp h
    obtain ⟨hfor', hnb'⟩ := rowFor_execute hexecute
    refine ⟨?_, hnb'.trans (hnb.trans hnum), ?_⟩
    · show D.Remembers cache V'.table.rowFor
      rw [hfor']
      exact hsound
    · obtain ⟨X, -, rfl⟩ := Option.map_eq_some_iff.mp hexecute
      rw [htable]
      split <;> rfl

/-- A run with a right cache is a run without one. -/
theorem cachedRun_eq (hC : C.Sound) (hnum : C.table.nbConditions = numCondition)
    (key : FlowKey) (ck : CacheKey) (Ms : List Mem) :
    (cachedRun numCondition C key ck Ms).map (List.map CachedVisit.visited) =
        plainRun C.table key Ms ∧
      ∀ Vs, cachedRun numCondition C key ck Ms = some Vs →
        ∀ V ∈ Vs, V.ready.tableLookup = some V.visited.row := by
  induction Ms generalizing C key ck with
  | nil =>
    refine ⟨rfl, fun Vs h V hV => ?_⟩
    cases h
    cases hV
  | cons M Ms ih =>
    have hvisit := cachedVisit_eq hC hnum M key ck
    unfold cachedRun plainRun
    rw [← hvisit]
    cases hV : C.visit numCondition M key ck with
    | none => exact ⟨rfl, fun Vs h => by cases h⟩
    | some V =>
      obtain ⟨hsound, hnum', hrow⟩ := cachedVisit_sound hC hnum hV
      obtain ⟨hrest, hrows⟩ := ih hsound hnum' V.visited.key V.ck
      simp only [Option.bind_eq_bind, Option.bind_some, Option.map_some]
      constructor
      · rw [show V.visited.table = V.cachedTable.table from rfl, ← hrest]
        cases cachedRun numCondition V.cachedTable V.visited.key V.ck Ms <;> rfl
      · intro Vs h
        obtain ⟨rest, hrun, h⟩ := Option.bind_eq_some_iff.mp h
        cases h
        exact List.forall_mem_cons.mpr ⟨hrow, hrows rest hrun⟩

/-- **The flow cache is transparent.** Whatever the packets and whichever
insertions fail, a run with a cache makes the visits a run without one
makes: the rows executed, the instances, the registers and what happens
to the packets are the same, and each row is the one the lookup returns
for the instance at that moment. -/
theorem flowCache_transparent (D : DataMap CacheKey XfsmTableEntry) {T : XfsmTable H HE}
    {numCondition : ℕ} (hnum : T.nbConditions = numCondition) (key : FlowKey) (Ms : List Mem) :
    (cachedRun numCondition ⟨T, D.create⟩ key .zero Ms).map (List.map CachedVisit.visited) =
        plainRun T key Ms ∧
      ∀ Vs, cachedRun numCondition ⟨T, D.create⟩ key .zero Ms = some Vs →
        ∀ V ∈ Vs, V.ready.tableLookup = some V.visited.row :=
  cachedRun_eq (C := ⟨T, D.create⟩) (DataMap.remembers_create _) hnum key .zero Ms

/-! ## The pipeline

`flowblaze.c` does the same in each stage, with one key buffer for all. -/

/-- A worker whose tables have caches. -/
structure CachedWorker (H : SlotMap FlowKey) (HE : SlotMap State)
    (D : DataMap CacheKey XfsmTableEntry) where
  tables : ℕ → Option (CachedTable H HE D)
  key : FlowKey
  ck : CacheKey
  received : ℕ

namespace CachedWorker

/-- The worker without its caches. -/
def plain (W : CachedWorker H HE D) : Worker H HE :=
  ⟨fun stage => (W.tables stage).map CachedTable.table, W.key, W.received⟩

/-- The worker after a visit. -/
def after (W : CachedWorker H HE D) (stage : ℕ) (V : CachedVisit H HE D) : CachedWorker H HE D :=
  { W with
    tables := Function.update W.tables stage (some V.cachedTable)
    key := V.visited.key
    ck := V.ck }

/-- The loop over the stages, with caches. -/
def walk (numCondition : ℕ) (rx : Received) : ℕ → CachedWorker H HE D → Packet → ℕ →
    Option (CachedWorker H HE D × List (Visited H HE))
  | 0, _, _, _ => none
  | fuel + 1, W, packet, stage =>
    if stage = nullStage then some (W, [])
    else do
      let C ← W.tables stage
      let V ← C.visit numCondition (rx.mem packet) W.key W.ck
      match V.visited.next with
      | none => return (W.after stage V, [V.visited])
      | some next =>
        let (W', visits) ← walk numCondition rx fuel (W.after stage V) V.visited.mem.packet
          next.toNat
        return (W', V.visited :: visits)

/-- Every cache is right, and every table has as many conditions as the
program was built for. -/
def Sound (W : CachedWorker H HE D) (numCondition : ℕ) : Prop :=
  ∀ stage C, W.tables stage = some C → C.Sound ∧ C.table.nbConditions = numCondition

end CachedWorker

variable {W : CachedWorker H HE D} {stage : ℕ}

theorem tables_after_self (V : CachedVisit H HE D) :
    (W.after stage V).tables stage = some V.cachedTable := by
  show Function.update W.tables stage (some V.cachedTable) stage = _
  rw [Function.update_self]

theorem tables_after_of_ne (V : CachedVisit H HE D) {s : ℕ} (hs : s ≠ stage) :
    (W.after stage V).tables s = W.tables s := by
  show Function.update W.tables stage (some V.cachedTable) s = _
  rw [Function.update_of_ne hs]

theorem plain_after (V : CachedVisit H HE D) :
    (W.after stage V).plain = W.plain.after stage V.visited := by
  have htables : (W.after stage V).plain.tables = (W.plain.after stage V.visited).tables := by
    funext s
    show ((W.after stage V).tables s).map CachedTable.table =
      Function.update W.plain.tables stage (some V.visited.table) s
    by_cases hs : s = stage
    · rw [hs, tables_after_self, Function.update_self]
      rfl
    · rw [tables_after_of_ne V hs, Function.update_of_ne hs]
      rfl
  show Worker.mk (W.after stage V).plain.tables V.visited.key W.received = _
  rw [htables]
  rfl

theorem plain_visit (W : CachedWorker H HE D) (rx : Received) (packet : Packet) (stage : ℕ) :
    W.plain.visit rx packet stage =
      (W.tables stage).bind fun C => C.table.visit (rx.mem packet) W.key := by
  show ((W.tables stage).map CachedTable.table).bind _ = _
  cases W.tables stage <;> rfl

/-- A visit keeps the caches of the pipeline right. -/
theorem CachedWorker.Sound.after (hW : W.Sound numCondition) {V : CachedVisit H HE D}
    (hV : V.cachedTable.Sound) (hnum : V.cachedTable.table.nbConditions = numCondition) :
    (W.after stage V).Sound numCondition := by
  intro s C hC
  by_cases hs : s = stage
  · rw [hs, tables_after_self] at hC
    cases hC
    exact ⟨hV, hnum⟩
  · rw [tables_after_of_ne V hs] at hC
    exact hW s C hC

/-- **Packets go through the pipeline as they do without caches**, and
every cache stays right. -/
theorem cachedWalk_eq (hW : W.Sound numCondition) (rx : Received) (fuel : ℕ) (packet : Packet) :
    (CachedWorker.walk numCondition rx fuel W packet stage).map (fun r => (r.1.plain, r.2)) =
        Worker.walk rx fuel W.plain packet stage ∧
      ∀ W' visits, CachedWorker.walk numCondition rx fuel W packet stage = some (W', visits) →
        W'.Sound numCondition := by
  induction fuel generalizing W packet stage with
  | zero => exact ⟨rfl, fun W' visits h => by cases h⟩
  | succ fuel ih =>
    unfold CachedWorker.walk Worker.walk
    by_cases hstage : stage = nullStage
    · rw [if_pos hstage, if_pos hstage]
      refine ⟨rfl, fun W' visits h => ?_⟩
      cases h
      exact hW
    · rw [if_neg hstage, if_neg hstage]
      rw [plain_visit]
      cases hC : W.tables stage with
      | none => exact ⟨rfl, fun W' visits h => by cases h⟩
      | some C =>
        obtain ⟨hsound, hnum⟩ := hW stage C hC
        simp only [Option.bind_eq_bind, Option.bind_some]
        rw [← cachedVisit_eq hsound hnum (rx.mem packet) W.key W.ck]
        cases hV : C.visit numCondition (rx.mem packet) W.key W.ck with
        | none => exact ⟨rfl, fun W' visits h => by cases h⟩
        | some V =>
          obtain ⟨hsound', hnum', -⟩ := cachedVisit_sound hsound hnum hV
          have hafter : (W.after stage V).Sound numCondition := hW.after hsound' hnum'
          simp only [Option.bind_some, Option.map_some]
          cases V.visited.next with
          | none =>
            refine ⟨?_, fun W' visits h => ?_⟩
            · rw [← plain_after]
              rfl
            · cases h
              exact hafter
          | some next =>
            obtain ⟨hrest, hkept⟩ := @ih (W.after stage V) next.toNat hafter V.visited.mem.packet
            dsimp only
            rw [← plain_after, ← hrest]
            cases hwalk : CachedWorker.walk numCondition rx fuel (W.after stage V)
                V.visited.mem.packet next.toNat with
            | none => exact ⟨rfl, fun W' visits h => by cases h⟩
            | some r =>
              refine ⟨rfl, fun W' visits h => ?_⟩
              cases h
              exact hkept _ _ hwalk

end Cached

/-- A table with one condition. -/
def cachedStage : XfsmTable (listSlotMap FlowKey) (listSlotMap State) :=
  (oneRowTable [sendToFirst]).get (by decide +kernel)

/-- Two packets of one flow, with a cache for one key. -/
theorem flowCache_transparent_twoPackets :
    (cachedRun 1 ⟨cachedStage, (boundedDataMap CacheKey XfsmTableEntry 1).create⟩ (fun _ => 0)
        .zero [tcpReceived.mem ⟨0, tcpReceived.mbuf⟩, tcpReceived.mem ⟨1, tcpReceived.mbuf⟩]).map
          (List.map CachedVisit.visited) =
      plainRun cachedStage (fun _ => 0)
        [tcpReceived.mem ⟨0, tcpReceived.mbuf⟩, tcpReceived.mem ⟨1, tcpReceived.mbuf⟩] ∧
    ((plainRun cachedStage (fun _ => 0)
        [tcpReceived.mem ⟨0, tcpReceived.mbuf⟩, tcpReceived.mem ⟨1, tcpReceived.mbuf⟩]).map
          (List.map fun V => V.row.isSome)) = some [true, true] :=
  ⟨(flowCache_transparent (boundedDataMap CacheKey XfsmTableEntry 1) (by decide +kernel)
      (fun _ => 0) _).1, by decide +kernel⟩

end Sw

end FlowBlaze

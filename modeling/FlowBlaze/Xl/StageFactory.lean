import FlowBlaze.Common.BucketMap
import FlowBlaze.Sw.Worker
import FlowBlaze.Xl.TableRowFactory
import Mathlib.Data.List.Induction
/-!
# Stages — `StageFactory`

A stage gets its label when it is first mentioned, whether it is declared
or only referred to. The program lists the stages as a hash map of their
names walks them. The loader takes a stage's place in the list for its
label and does not read the label, so a row that names a stage leads to
it only where the hash map is walked in the order of first mention.
-/

namespace FlowBlaze

namespace Xl

open Common

variable {κ : Type}

/-- `hashCode` of a string of ASCII characters. -/
def hashCode (s : String) : BitVec 32 :=
  s.toList.foldl (fun h c => 31 * h + BitVec.ofNat 32 c.toNat) 0

/-- `hash` of `HashMap`: the upper half is spread into the lower. -/
def spreadHash (s : String) : ℕ := (hashCode s ^^^ (hashCode s >>> 16)).toNat

/-- What a stage object holds. -/
structure StageBody (κ : Type) where
  table : Option (List (TableRow κ))
  flowKey : Option (List PacketField)
  label : ℕ
deriving DecidableEq

/-- `new Stage(label)`. -/
def StageBody.new (label : ℕ) : StageBody κ := ⟨none, none, label⟩

/-- `StageFactory`. Of the pending stages only the names are used. -/
structure StageFactory (κ : Type) where
  stages : BucketMap String (StageBody κ)
  pendingStages : BucketMap String Unit
  counter : ℕ
  lastDeclaredStage : Option String

namespace StageFactory

variable (F : StageFactory κ)

/-- A new factory. -/
def empty : StageFactory κ := ⟨.empty, .empty, 0, none⟩

/-- A stage that is not there is made. -/
def makeStage (name : String) : StageFactory κ :=
  match F.stages.get name with
  | some _ => F
  | none =>
    { F with
      stages := F.stages.putNew spreadHash name (.new F.counter)
      counter := F.counter + 1 }

/-- `declareStage`. -/
def declareStage (name : String) : StageFactory κ :=
  { F.makeStage name with
    pendingStages := F.pendingStages.remove name
    lastDeclaredStage := some name }

/-- `referenceStage`. -/
def referenceStage (name : String) : StageFactory κ :=
  match F.stages.get name with
  | some _ => F
  | none =>
    { F.makeStage name with pendingStages := F.pendingStages.putNew spreadHash name () }

/-- `checkPendings`. -/
def checkPendings : Except String Unit :=
  match F.pendingStages.keySet spreadHash with
  | [] => .ok ()
  | [name] => .error ("The stage " ++ name ++ " wasn't declared!")
  | names => .error ("The stages " ++ String.intercalate ", " names ++ " weren't declared!")

/-- A stage of the program. -/
def stageOf (name : String) : Except String (StageBody κ) :=
  match F.stages.get name with
  | some body =>
    if body.flowKey.isSome then .ok body
    else .error ("Flowkey unset for the stage '" ++ name ++ "'")
  | none => .error "null"

/-- `getStages`. -/
def getStages : Except String (List (StageBody κ)) := do
  F.checkPendings
  (F.stages.keySet spreadHash).mapM F.stageOf

end StageFactory

/-- What the compiler asks of the factory, in the order of the source:
`Stage name { .. }` declares a stage, `setNextStage(name)` refers to one,
`setFlowKey` is for the stage declared last, and at the end of a stage
its table is set. -/
inductive StageCall (κ : Type)
  | declareStage (name : String)
  | referenceStage (name : String)
  | setFlowKey (fields : List PacketField)
  | setTable (rows : List (TableRow κ))

/-- The stage is known to the factory. -/
def StageFactory.Knows (F : StageFactory κ) : Stage → Bool
  | .stage255 => true
  | .declared name => (F.stages.get name).isSome

/-- A call. Without a stage declared there is a null reference; the stages
of rows are objects of the factory. -/
def StageFactory.call (F : StageFactory κ) : StageCall κ → Option (StageFactory κ)
  | .declareStage name => some (F.declareStage name)
  | .referenceStage name => some (F.referenceStage name)
  | .setFlowKey fields => F.lastDeclaredStage.map fun name =>
    { F with stages := F.stages.modify name fun body => { body with flowKey := some fields } }
  | .setTable rows =>
    if rows.all fun row => F.Knows row.nextStage then
      F.lastDeclaredStage.map fun name =>
        { F with stages := F.stages.modify name fun body => { body with table := some rows } }
    else none

/-- **The stages of a program**, from its calls. -/
def StageFactory.run (calls : List (StageCall κ)) : Option (StageFactory κ) :=
  calls.foldlM StageFactory.call .empty

/-- The stage a call mentions. -/
def StageCall.name : StageCall κ → Option String
  | .declareStage name => some name
  | .referenceStage name => some name
  | _ => none

/-- **The names in the order of first mention.** -/
def firstMentions (calls : List (StageCall κ)) : List String :=
  (calls.filterMap StageCall.name).foldl (fun names n =>
    if n ∈ names then names else names ++ [n]) []

/-! ## The pipeline -/

/-- How `fb_worker_main_loop` loads the stages: one after the other,
whatever their labels. More stages than the array has places are written
past its end. -/
def loadPipeline (stages : List (StageBody κ)) : Option (ℕ → Option (List (TableRow κ))) :=
  if stages.length ≤ Sw.maxStages then some fun k => (stages[k]?).bind StageBody.table else none

/-- **Labels and places agree**: a stage stands at its label, the first
stage mentioned stands first, and a row that names a stage leads to that
stage's table. -/
structure LabelsAgree (F : StageFactory κ) (first : Option String) (stages : List (StageBody κ)) :
    Prop where
  position : ∀ s ∈ stages, stages[s.label]? = some s
  first : ∀ name, first = some name → stages[0]? = F.stages.get name
  enters : ∀ s ∈ stages, ∀ rows, s.table = some rows → ∀ row ∈ rows, ∀ name,
    row.nextStage = .declared name → ∃ pipeline target, loadPipeline stages = some pipeline ∧
      F.stages.get name = some target ∧ pipeline target.label = target.table

/-- Some row names a stage. -/
def NamesStage (stages : List (StageBody κ)) : Prop :=
  ∃ s ∈ stages, ∃ rows, s.table = some rows ∧ ∃ row ∈ rows, ∃ name, row.nextStage = .declared name

/-! ## Numbering -/

section Numbering

variable {F G : StageFactory κ} {names : List String} {calls : List (StageCall κ)}
  {c : StageCall κ} {name : String} {body : StageBody κ}

/-- **The stages of a factory are numbered** in the order of these names. -/
structure StageFactory.Numbered (F : StageFactory κ) (names : List String) : Prop where
  keys : F.stages.keys = names
  nodup : names.Nodup
  labels : F.stages.entries.map (fun e => e.2.label) = List.range names.length
  counter : F.counter = names.length
  capacity : 0 < F.stages.capacity

/-- A name is added to the end, once. -/
def mention (names : List String) (name : String) : List String :=
  if name ∈ names then names else names ++ [name]

theorem StageFactory.Numbered.makeStage (h : F.Numbered names) (name : String) :
    (F.makeStage name).Numbered (mention names name) := by
  unfold StageFactory.makeStage mention
  cases hget : F.stages.get name with
  | some body =>
    have hmem : name ∈ names := by
      rw [← h.keys]
      by_contra habsent
      rw [BucketMap.get_eq_none_iff.mpr habsent] at hget
      cases hget
    rw [if_pos hmem]
    exact h
  | none =>
    have hmem : name ∉ names := by
      rw [← h.keys]
      exact BucketMap.get_eq_none_iff.mp hget
    rw [if_neg hmem]
    refine ⟨?_, ?_, ?_, ?_, BucketMap.capacity_putNew h.capacity⟩
    · exact BucketMap.keys_putNew.trans (by rw [h.keys])
    · exact List.nodup_append.mpr ⟨h.nodup, List.pairwise_singleton _ _, fun a ha b hb => by
        rw [List.mem_singleton.mp hb]
        rintro rfl
        exact hmem ha⟩
    · show (F.stages.putNew spreadHash name (.new F.counter)).entries.map _ = _
      rw [BucketMap.entries_putNew, List.map_append, h.labels, List.length_append,
        List.length_singleton, List.range_succ, h.counter]
      rfl
    · rw [List.length_append, List.length_singleton]
      exact congrArg (· + 1) h.counter

theorem StageFactory.Numbered.modify (h : F.Numbered names) {f : StageBody κ → StageBody κ}
    (hf : ∀ body, (f body).label = body.label) (name : String) :
    StageFactory.Numbered { F with stages := F.stages.modify name f } names where
  keys := (BucketMap.keys_modify f).trans h.keys
  nodup := h.nodup
  labels := (BucketMap.map_modify hf).trans h.labels
  counter := h.counter
  capacity := h.capacity

/-- **A call keeps the stages numbered**, and one that mentions a new
stage adds its name. -/
theorem StageFactory.Numbered.call (h : F.Numbered names) (hc : F.call c = some G) :
    G.Numbered ((c.name.map (mention names)).getD names) := by
  cases c with
  | declareStage name =>
    cases hc
    obtain ⟨hkeys, hnodup, hlabels, hcounter, hcapacity⟩ := h.makeStage name
    exact ⟨hkeys, hnodup, hlabels, hcounter, hcapacity⟩
  | referenceStage name =>
    cases hc
    have hmake := h.makeStage name
    unfold StageFactory.referenceStage
    cases hget : F.stages.get name with
    | some body =>
      unfold StageFactory.makeStage at hmake
      rw [hget] at hmake
      exact hmake
    | none =>
      obtain ⟨hkeys, hnodup, hlabels, hcounter, hcapacity⟩ := hmake
      exact ⟨hkeys, hnodup, hlabels, hcounter, hcapacity⟩
  | setFlowKey fields =>
    obtain ⟨name, -, rfl⟩ := Option.map_eq_some_iff.mp hc
    exact h.modify (f := fun body => { body with flowKey := some fields }) (fun _ => rfl) name
  | setTable rows =>
    simp only [StageFactory.call] at hc
    split at hc
    · obtain ⟨name, -, rfl⟩ := Option.map_eq_some_iff.mp hc
      exact h.modify (f := fun body => { body with table := some rows }) (fun _ => rfl) name
    · cases hc

theorem firstMentions_snoc (calls : List (StageCall κ)) (c : StageCall κ) :
    firstMentions (calls ++ [c]) =
      (c.name.map (mention (firstMentions calls))).getD (firstMentions calls) := by
  unfold firstMentions
  rw [List.filterMap_append, List.foldl_append]
  cases hname : c.name with
  | none => simp [hname]
  | some name => simp [hname, mention]

/-- The last call of a run. -/
theorem run_snoc (h : StageFactory.run (calls ++ [c]) = some F) :
    ∃ G, StageFactory.run calls = some G ∧ G.call c = some F := by
  unfold StageFactory.run at h
  rw [List.foldlM_append] at h
  obtain ⟨G, hG, hc⟩ := Option.bind_eq_some_iff.mp h
  refine ⟨G, hG, ?_⟩
  rw [← hc]
  exact (bind_pure (G.call c)).symm

/-- **Stages are numbered in the order of first mention.** -/
theorem numbered_run (h : StageFactory.run calls = some F) : F.Numbered (firstMentions calls) := by
  induction calls using List.reverseRecOn generalizing F with
  | nil =>
    cases h
    exact ⟨rfl, List.nodup_nil, rfl, rfl, Nat.zero_lt_succ 15⟩
  | append_singleton calls c ih =>
    obtain ⟨G, hG, hc⟩ := run_snoc h
    rw [firstMentions_snoc]
    exact (ih hG).call hc

/-- A stage's label is its number. -/
theorem StageFactory.Numbered.get_iff (h : F.Numbered names) :
    F.stages.get name = some body ↔
      F.stages.entries[body.label]? = some (name, body) := by
  rw [BucketMap.get_eq_some_iff (h.keys ▸ h.nodup)]
  constructor
  · intro hmem
    obtain ⟨i, hi⟩ := List.getElem?_of_mem hmem
    have hlabel := congrArg (fun l => l[i]?) h.labels
    simp only [List.getElem?_map, hi, Option.map_some] at hlabel
    obtain ⟨hlt, hrange⟩ := List.getElem?_eq_some_iff.mp hlabel.symm
    rw [List.getElem_range] at hrange
    rw [← hrange]
    exact hi
  · exact List.mem_of_getElem?

end Numbering

/-! ## The stages that rows name -/

section Rows

variable {F G : StageFactory κ} {calls : List (StageCall κ)} {c : StageCall κ} {s : Stage}

/-- Only stages that the factory knows stand in rows. -/
def StageFactory.Closed (F : StageFactory κ) : Prop :=
  ∀ e ∈ F.stages.entries, ∀ rows, e.2.table = some rows → ∀ row ∈ rows, F.Knows row.nextStage

theorem StageFactory.knows_declared {name : String} :
    F.Knows (.declared name) ↔ name ∈ F.stages.keys := by
  refine Option.isSome_iff_ne_none.trans ?_
  rw [Ne, BucketMap.get_eq_none_iff, not_not]

/-- A stage stays known. -/
theorem StageFactory.knows_mono (h : F.Knows s) (hkeys : ∀ k ∈ F.stages.keys, k ∈ G.stages.keys) :
    G.Knows s := by
  cases s with
  | stage255 => rfl
  | declared name => exact knows_declared.mpr (hkeys name (knows_declared.mp h))

/-- Where every table is an old one or has known stages, rows name known
stages. -/
theorem StageFactory.Closed.mono (h : F.Closed)
    (hkeys : ∀ k ∈ F.stages.keys, k ∈ G.stages.keys)
    (htables : ∀ e ∈ G.stages.entries, ∀ rows, e.2.table = some rows →
      (∃ e' ∈ F.stages.entries, e'.2.table = some rows) ∨ ∀ row ∈ rows, F.Knows row.nextStage) :
    G.Closed := by
  intro e he rows hrows row hrow
  obtain ⟨e', he', hrows'⟩ | hknown := htables e he rows hrows
  · exact knows_mono (h e' he' rows hrows' row hrow) hkeys
  · exact knows_mono (hknown row hrow) hkeys

theorem StageFactory.Closed.makeStage (h : F.Closed) (name : String) :
    (F.makeStage name).Closed := by
  unfold StageFactory.makeStage
  split
  · exact h
  · refine h.mono (fun k hk => ?_) fun e he rows hrows => .inl ?_
    · rw [BucketMap.keys_putNew]
      exact List.mem_append_left _ hk
    · rw [BucketMap.entries_putNew] at he
      obtain he | he := List.mem_append.mp he
      · exact ⟨e, he, hrows⟩
      · rw [List.mem_singleton.mp he] at hrows
        cases hrows

theorem StageFactory.Closed.modify (h : F.Closed) {f : StageBody κ → StageBody κ}
    (hf : ∀ body rows, (f body).table = some rows →
      body.table = some rows ∨ ∀ row ∈ rows, F.Knows row.nextStage) (name : String) :
    StageFactory.Closed { F with stages := F.stages.modify name f } := by
  refine h.mono (fun k hk => ?_) fun e he rows hrows => ?_
  · rw [BucketMap.keys_modify]
    exact hk
  · obtain ⟨e', he', rfl⟩ := List.mem_map.mp he
    split at hrows
    · exact (hf e'.2 rows hrows).imp_left fun hold => ⟨e', he', hold⟩
    · exact .inl ⟨e', he', hrows⟩

/-- **A call keeps the stages of rows known.** -/
theorem StageFactory.Closed.call (h : F.Closed) (hc : F.call c = some G) : G.Closed := by
  cases c with
  | declareStage name =>
    cases hc
    exact h.makeStage name
  | referenceStage name =>
    cases hc
    have hmake := h.makeStage name
    unfold StageFactory.referenceStage
    cases hget : F.stages.get name with
    | some body => exact h
    | none => exact hmake
  | setFlowKey fields =>
    obtain ⟨name, -, rfl⟩ := Option.map_eq_some_iff.mp hc
    exact h.modify (f := fun body => { body with flowKey := some fields }) (fun _ _ => .inl) name
  | setTable rows =>
    simp only [StageFactory.call] at hc
    split at hc
    · rename_i hall
      obtain ⟨name, -, rfl⟩ := Option.map_eq_some_iff.mp hc
      refine h.modify (f := fun body => { body with table := some rows }) (fun _ rows' h => ?_) name
      cases h
      exact .inr (List.all_eq_true.mp hall)
    · cases hc

theorem closed_run (h : StageFactory.run calls = some F) : F.Closed := by
  induction calls using List.reverseRecOn generalizing F with
  | nil =>
    cases h
    exact fun e he => absurd he List.not_mem_nil
  | append_singleton calls c ih =>
    obtain ⟨G, hG, hc⟩ := run_snoc h
    exact (ih hG).call hc

end Rows

/-! ## The program's list -/

section Order

variable {F : StageFactory κ} {names : List String} {calls : List (StageCall κ)}
  {name : String} {body : StageBody κ} {stages : List (StageBody κ)}

/-- A stage of the program is a stage of the factory. -/
theorem StageFactory.stageOf_eq_ok (h : F.stageOf name = .ok body) :
    F.stages.get name = some body := by
  unfold StageFactory.stageOf at h
  cases hget : F.stages.get name with
  | some body' =>
    rw [hget] at h
    dsimp only at h
    split at h
    · cases h
      rfl
    · cases h
  | none =>
    rw [hget] at h
    cases h

/-- **The list of the program**: the stages of the names as the hash map
is walked. -/
theorem StageFactory.map_getStages (h : F.getStages = .ok stages) :
    stages.map some = (F.stages.keySet spreadHash).map F.stages.get := by
  have hmap : (F.stages.keySet spreadHash).mapM F.stageOf = .ok stages := by
    unfold StageFactory.getStages at h
    cases hp : F.checkPendings with
    | error e =>
      rw [hp] at h
      cases h
    | ok u =>
      rw [hp] at h
      exact h
  clear h
  generalize F.stages.keySet spreadHash = walked at hmap ⊢
  induction walked generalizing stages with
  | nil =>
    cases hmap
    rfl
  | cons name walked ih =>
    rw [List.mapM_cons] at hmap
    cases hname : F.stageOf name with
    | error e =>
      rw [hname] at hmap
      cases hmap
    | ok body =>
      rw [hname] at hmap
      cases hrest : walked.mapM F.stageOf with
      | error e =>
        rw [hrest] at hmap
        cases hmap
      | ok rest =>
        rw [hrest] at hmap
        cases hmap
        rw [List.map_cons, List.map_cons, ih hrest, F.stageOf_eq_ok hname]

/-- What stands at a place is the stage of the name that is walked there. -/
theorem StageFactory.getElem?_stages (h : F.getStages = .ok stages) {i : ℕ} :
    stages[i]? = some body ↔
      ∃ name, (F.stages.keySet spreadHash)[i]? = some name ∧ F.stages.get name = some body := by
  have hi := congrArg (fun l => l[i]?) (F.map_getStages h)
  simp only [List.getElem?_map] at hi
  constructor
  · intro hbody
    rw [hbody] at hi
    obtain ⟨name, hname, hget⟩ := Option.map_eq_some_iff.mp hi.symm
    exact ⟨name, hname, hget⟩
  · rintro ⟨name, hname, hget⟩
    rw [hname, Option.map_some, hget] at hi
    obtain ⟨body', hbody', heq⟩ := Option.map_eq_some_iff.mp hi
    cases heq
    exact hbody'

theorem StageFactory.length_stages (h : F.getStages = .ok stages) :
    stages.length = (F.stages.keySet spreadHash).length := by
  have := congrArg List.length (F.map_getStages h)
  rwa [List.length_map, List.length_map] at this

/-- **Places are labels exactly where the hash map is walked in the order
of first mention.** -/
theorem StageFactory.Numbered.position_iff (h : F.Numbered names)
    (hget : F.getStages = .ok stages) :
    (∀ s ∈ stages, stages[s.label]? = some s) ↔ F.stages.keySet spreadHash = names := by
  have hperm : (F.stages.keySet spreadHash).Perm names :=
    h.keys ▸ BucketMap.perm_keySet h.capacity
  have hentry : ∀ {name body}, F.stages.get name = some body → names[body.label]? = some name := by
    intro name body hname
    rw [← h.keys, BucketMap.keys, List.getElem?_map, h.get_iff.mp hname]
    rfl
  constructor
  · intro hpos
    -- a name walked at `i` is the one with label `i`, as no name is walked twice
    have hwalked : ∀ (i : ℕ) (name : String), (F.stages.keySet spreadHash)[i]? = some name →
        names[i]? = some name := by
      intro i name hi
      have hbody : ∃ body, F.stages.get name = some body := by
        have hmap := congrArg (fun l => l[i]?) (F.map_getStages hget)
        simp only [List.getElem?_map, hi, Option.map_some] at hmap
        obtain ⟨body, -, hbody⟩ := Option.map_eq_some_iff.mp hmap
        exact ⟨body, hbody.symm⟩
      obtain ⟨body, hbody⟩ := hbody
      have hplace := (F.getElem?_stages hget).mpr ⟨name, hi, hbody⟩
      obtain ⟨name', hname', hbody'⟩ :=
        (F.getElem?_stages hget).mp (hpos body (List.mem_of_getElem? hplace))
      have hname : names[body.label]? = some name := hentry hbody
      rw [hentry hbody'] at hname
      cases hname
      have hlt := (List.getElem?_eq_some_iff.mp hi).1
      have heq := (List.getElem?_inj hlt (hperm.nodup_iff.mpr h.nodup)).mp (hi.trans hname'.symm)
      rw [heq]
      exact hentry hbody
    refine List.ext_getElem? fun i => ?_
    cases hi : (F.stages.keySet spreadHash)[i]? with
    | some name => exact (hwalked i name hi).symm
    | none =>
      rw [List.getElem?_eq_none_iff, hperm.length_eq] at hi
      exact (List.getElem?_eq_none hi).symm
  · intro hsame s hs
    obtain ⟨i, hi⟩ := List.getElem?_of_mem hs
    obtain ⟨name, -, hname⟩ := (F.getElem?_stages hget).mp hi
    refine (F.getElem?_stages hget).mpr ⟨name, ?_, hname⟩
    rw [hsame]
    exact hentry hname

/-- A stage that a row names is a stage of the program. -/
theorem StageFactory.mem_stages (hcapacity : 0 < F.stages.capacity)
    (hget : F.getStages = .ok stages) (hname : F.stages.get name = some body) : body ∈ stages := by
  have hkey : name ∈ F.stages.keys := by
    by_contra habsent
    rw [BucketMap.get_eq_none_iff.mpr habsent] at hname
    cases hname
  obtain ⟨i, hi⟩ := List.getElem?_of_mem ((@BucketMap.perm_keySet _ _ spreadHash _
    hcapacity).mem_iff.mpr hkey)
  exact List.mem_of_getElem? ((F.getElem?_stages hget).mpr ⟨name, hi, hname⟩)

/-- **Labels and places agree exactly where the buckets of the names rise
in the order of first mention**, and the stages fit where a row names
one. -/
theorem labelsAgree_iff (h : StageFactory.run calls = some F) (hget : F.getStages = .ok stages) :
    LabelsAgree F (firstMentions calls).head? stages ↔
      ((firstMentions calls).Pairwise fun name name' =>
        BucketMap.bucket spreadHash F.stages.capacity name ≤
          BucketMap.bucket spreadHash F.stages.capacity name') ∧
      (NamesStage stages → (firstMentions calls).length ≤ Sw.maxStages) := by
  have hnum := numbered_run h
  have hclosed := closed_run h
  have horder := hnum.position_iff hget
  have hlength : stages.length = (firstMentions calls).length := by
    rw [F.length_stages hget, (BucketMap.perm_keySet hnum.capacity).length_eq, hnum.keys]
  have hsorted := @BucketMap.keySet_eq_iff _ _ spreadHash _ hnum.capacity
  rw [hnum.keys] at hsorted
  rw [← hsorted]
  constructor
  · rintro ⟨hpos, -, henters⟩
    refine ⟨horder.mp hpos, ?_⟩
    rintro ⟨s, hs, rows, hrows, row, hrow, name, hname⟩
    obtain ⟨pipeline, target, hload, -⟩ := henters s hs rows hrows row hrow name hname
    unfold loadPipeline at hload
    split at hload
    · omega
    · cases hload
  · rintro ⟨hsame, hfit⟩
    have hpos := horder.mpr hsame
    refine ⟨hpos, fun name hfirst => ?_, fun s hs rows hrows row hrow name hname => ?_⟩
    · have hplace := congrArg (fun l => l[0]?) (F.map_getStages hget)
      rw [List.head?_eq_getElem?, ← hsame] at hfirst
      simp only [List.getElem?_map, hfirst, Option.map_some] at hplace
      obtain ⟨body, hbody, heq⟩ := Option.map_eq_some_iff.mp hplace
      rw [hbody]
      exact heq
    · have hle := hfit ⟨s, hs, rows, hrows, row, hrow, name, hname⟩
      have hload : loadPipeline stages = some fun k => (stages[k]?).bind StageBody.table :=
        if_pos (by omega)
      have hknown : F.Knows (.declared name) := by
        obtain ⟨i, hi⟩ := List.getElem?_of_mem hs
        obtain ⟨name', -, hname'⟩ := (F.getElem?_stages hget).mp hi
        rw [← hname]
        exact hclosed _ (List.mem_of_getElem? (hnum.get_iff.mp hname')) rows hrows row hrow
      obtain ⟨target, htarget⟩ := Option.isSome_iff_exists.mp hknown
      have hplace := hpos target (F.mem_stages hnum.capacity hget htarget)
      refine ⟨_, target, hload, htarget, ?_⟩
      rw [hplace, Option.bind_some]

/-- The row of a stage whose packets go on to another. -/
def rowInto (name : String) : TableRow Unit := ⟨[], [], 0, .xtraPktRcvd, 0, .declared name⟩

/-- Two stages; packets of the first go on to the second. -/
def twoStages (first second : String) : List (StageCall Unit) :=
  [.declareStage first, .setFlowKey [], .referenceStage second, .setTable [rowInto second],
    .declareStage second, .setFlowKey [], .setTable []]

/-- The factory after them. -/
def twoStagesFactory (first second : String) : StageFactory Unit :=
  ⟨⟨16, [(first, ⟨some [rowInto second], some [], 0⟩), (second, ⟨some [], some [], 1⟩)]⟩,
    .empty, 2, some second⟩

/-- Stages `a` and `b`, in this order, stand at their labels. -/
theorem labelsAgree_ab :
    LabelsAgree (twoStagesFactory "a" "b") (some "a")
      [⟨some [rowInto "b"], some [], 0⟩, ⟨some [], some [], 1⟩] :=
  (@labelsAgree_iff _ _ (twoStages "a" "b") _ (by rfl) (by rfl)).mpr
    ⟨by decide +kernel, fun _ => by decide +kernel⟩

/-- **Stages `b` and `a`, in this order, change places**: packets of `b`
that should go on to `a`, label `1`, enter the table of `b`. -/
theorem not_labelsAgree :
    ¬∀ (calls : List (StageCall Unit)) (F : StageFactory Unit) (stages : List (StageBody Unit)),
      StageFactory.run calls = some F → F.getStages = .ok stages →
      LabelsAgree F (firstMentions calls).head? stages := by
  intro h
  have hagree := h (twoStages "b" "a") (twoStagesFactory "b" "a")
    [⟨some [], some [], 1⟩, ⟨some [rowInto "a"], some [], 0⟩] (by rfl) (by rfl)
  obtain ⟨pipeline, target, hload, htarget, hsame⟩ :=
    hagree.enters ⟨some [rowInto "a"], some [], 0⟩ (by simp) _ rfl _ List.mem_cons_self "a" rfl
  cases hload
  have heq : some (StageBody.mk (some []) (some []) 1) = some target := htarget
  cases heq
  cases hsame

end Order

end Xl

end FlowBlaze

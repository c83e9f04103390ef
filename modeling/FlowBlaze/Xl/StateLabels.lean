import FlowBlaze.Xl.Accepted
import FlowBlaze.Xl.MacroActions
import FlowBlaze.Xl.Transitions
import Mathlib.Data.Finset.Card
/-!
# State labels

The factory hands out labels from a counter that starts at zero, and keeps
255 for `any`. The labels are distinct, and fit the byte they are stored
in, as long as the counter does not reach the label of `any`.
-/

namespace FlowBlaze

namespace Xl

open Common

namespace StateFactory

/-- A call that names a state. -/
inductive StateCall
  | declareState (name : String)
  | referenceState (name : String)

/-- The state that is named. -/
def StateCall.name : StateCall → String
  | .declareState name => name
  | .referenceState name => name

/-- The factory after a call. -/
def call (F : StateFactory) : StateCall → StateFactory
  | .declareState name => (F.declareState name).2
  | .referenceState name => (F.referenceState name).2

/-- The factory after these calls. -/
def calls (F : StateFactory) (cs : List StateCall) : StateFactory := cs.foldl call F

/-- **Labels are unique and fit**: a label has one name, that of 255 is
`any`, and each fits a byte. -/
structure LabelsFit (F : StateFactory) : Prop where
  unique : ∀ name name' label, F.states.get (.ofEq String) name = some label →
    F.states.get (.ofEq String) name' = some label → name = name'
  any : ∀ name, F.states.get (.ofEq String) name = some 255 → name = "any"
  byte : ∀ name label, F.states.get (.ofEq String) name = some label → label < 2 ^ 8

/-- **The states are numbered**: besides `any`, they have the labels below
the counter, each its own. -/
structure Numbered (F : StateFactory) (names : Finset String) : Prop where
  counter : F.counter = (names.erase "any").card
  any : F.states.get (.ofEq String) "any" = some 255
  absent : ∀ name ≠ "any", F.states.get (.ofEq String) name = none ↔ name ∉ names
  below : ∀ name ≠ "any", ∀ label, F.states.get (.ofEq String) name = some label →
    label < F.counter
  unique : ∀ name ≠ "any", ∀ name' ≠ "any", ∀ label,
    F.states.get (.ofEq String) name = some label →
      F.states.get (.ofEq String) name' = some label → name = name'
  used : ∀ label < F.counter, ∃ name ≠ "any", F.states.get (.ofEq String) name = some label

section Numbers

variable {F G : StateFactory} {names : Finset String}

theorem get_new {name : String} (h : name ≠ "any") :
    new.states.get (.ofEq String) name = none :=
  (LinkedHashMap.get_put (m := []) (k := "any") (v := 255)).trans (if_neg h)

theorem numbered_new : Numbered .new ∅ where
  counter := rfl
  any := rfl
  absent name h := iff_of_true (get_new h) (Finset.notMem_empty name)
  below name h label hlabel := by
    rw [get_new h] at hlabel
    cases hlabel
  unique name h name' _ label hlabel := by
    rw [get_new h] at hlabel
    cases hlabel
  used label h := by cases h

/-- **A state that is made** has the next number, if it is new. -/
theorem Numbered.makeState (h : Numbered F names) (name : String) :
    Numbered (F.makeState name).2 (insert name names) := by
  cases hget : F.states.get (.ofEq String) name with
  | some label =>
    rw [makeState_of_get hget]
    by_cases hany : name = "any"
    · refine ⟨?_, h.any, fun other hother => ?_, h.below, h.unique, h.used⟩
      · rw [hany, Finset.erase_insert_eq_erase]
        exact h.counter
      · rw [h.absent other hother, Finset.mem_insert, hany, or_iff_right hother]
    · have hmem : name ∈ names := by
        by_contra hnot
        rw [(h.absent name hany).mpr hnot] at hget
        cases hget
      rwa [Finset.insert_eq_of_mem hmem]
  | none =>
    have hany : name ≠ "any" := fun heq => by
      rw [heq, h.any] at hget
      cases hget
    have hmake : (F.makeState name).2 = { F with
        counter := F.counter + 1
        states := F.states.put (.ofEq String) name F.counter } := by
      unfold StateFactory.makeState
      rw [hget]
    have hother : ∀ other, (F.states.put (.ofEq String) name F.counter).get (.ofEq String) other =
        if other = name then some F.counter else F.states.get (.ofEq String) other :=
      fun other => LinkedHashMap.get_put
    rw [hmake]
    refine ⟨?_, ?_, fun other hne => ?_, fun other hne label hlabel => ?_,
      fun other hne other' hne' label hlabel hlabel' => ?_, fun label hlabel => ?_⟩
    · rw [Finset.erase_insert_of_ne hany, Finset.card_insert_of_notMem, h.counter]
      exact fun hmem => (h.absent name hany).mp hget (Finset.mem_of_mem_erase hmem)
    · rw [hother, if_neg (Ne.symm hany)]
      exact h.any
    · rw [hother, Finset.mem_insert]
      by_cases heq : other = name
      · rw [if_pos heq]
        exact iff_of_false (fun h => by cases h) fun hnot => hnot (.inl heq)
      · rw [if_neg heq, h.absent other hne, or_iff_right heq]
    · rw [hother] at hlabel
      split at hlabel
      · cases hlabel
        exact Nat.lt_succ_self _
      · exact Nat.lt_succ_of_lt (h.below other hne label hlabel)
    · rw [hother] at hlabel hlabel'
      -- the counter is above every label that was given before
      split at hlabel <;> split at hlabel'
      · next heq heq' => exact heq.trans heq'.symm
      · cases hlabel
        exact absurd (h.below other' hne' _ hlabel') (Nat.lt_irrefl _)
      · cases hlabel'
        exact absurd (h.below other hne _ hlabel) (Nat.lt_irrefl _)
      · exact h.unique other hne other' hne' label hlabel hlabel'
    · rcases Nat.lt_succ_iff_lt_or_eq.mp hlabel with hlt | rfl
      · obtain ⟨other, hne, hused⟩ := h.used label hlt
        refine ⟨other, hne, ?_⟩
        rw [hother, if_neg fun heq => ?_, hused]
        rw [heq, hget] at hused
        cases hused
      · exact ⟨name, hany, by rw [hother, if_pos rfl]⟩

theorem Numbered.mention (h : Numbered F names) (mentions : List String) :
    Numbered (F.mention mentions) (names ∪ mentions.toFinset) := by
  induction mentions generalizing F names with
  | nil =>
    rw [List.toFinset_nil, Finset.union_empty]
    exact h
  | cons name mentions ih =>
    rw [List.toFinset_cons, Finset.union_insert, ← Finset.insert_union]
    exact ih (h.makeState name)

/-- **When labels are unique and fit**: the counter has not reached 255. -/
theorem Numbered.labelsFit_iff (h : Numbered F names) : LabelsFit F ↔ F.counter ≤ 255 := by
  constructor
  · intro hfit
    by_contra hgt
    obtain ⟨name, hname, hlabel⟩ := h.used 255 (by omega)
    exact hname (hfit.any name hlabel)
  · intro hle
    have hbelow : ∀ name label, name ≠ "any" →
        F.states.get (.ofEq String) name = some label → label < 255 :=
      fun name label hne hlabel => (h.below name hne label hlabel).trans_le hle
    refine ⟨fun name name' label hlabel hlabel' => ?_, fun name hlabel => ?_,
      fun name label hlabel => ?_⟩
    · by_cases hne : name = "any"
      · by_cases hne' : name' = "any"
        · exact hne.trans hne'.symm
        · rw [hne, h.any] at hlabel
          cases hlabel
          exact absurd (hbelow name' 255 hne' hlabel') (Nat.lt_irrefl _)
      · by_cases hne' : name' = "any"
        · rw [hne', h.any] at hlabel'
          cases hlabel'
          exact absurd (hbelow name 255 hne hlabel) (Nat.lt_irrefl _)
        · exact h.unique name hne name' hne' label hlabel hlabel'
    · by_contra hne
      exact absurd (hbelow name 255 hne hlabel) (Nat.lt_irrefl _)
    · by_cases hne : name = "any"
      · rw [hne, h.any] at hlabel
        cases hlabel
        decide
      · exact (hbelow name label hne hlabel).trans (by decide)

theorem Same.labelsFit_iff (h : Same F G) : F.LabelsFit ↔ G.LabelsFit := by
  constructor <;> intro hfit
  · exact ⟨h.states ▸ hfit.unique, h.states ▸ hfit.any, h.states ▸ hfit.byte⟩
  · exact ⟨h.states ▸ hfit.unique, h.states ▸ hfit.any, h.states ▸ hfit.byte⟩

/-- Either call makes the state. -/
theorem same_calls (cs : List StateCall) : Same (F.calls cs) (F.mention (cs.map (·.name))) := by
  induction cs generalizing F with
  | nil => exact ⟨rfl, rfl⟩
  | cons c cs ih =>
    have hcall : Same (F.call c) (F.makeState c.name).2 := by
      cases c with
      | declareState name => exact ⟨rfl, rfl⟩
      | referenceState name => exact same_referenceState
    have hmention := hcall.mention (cs.map (·.name))
    exact ⟨ih.states.trans hmention.states, ih.counter.trans hmention.counter⟩

/-- **The labels after these mentions** are unique and fit if there are at
most 255 names besides `any`. -/
theorem labelsFit_mention_iff (mentions : List String) :
    (new.mention mentions).LabelsFit ↔ (mentions.toFinset.erase "any").card ≤ 255 := by
  have h := numbered_new.mention mentions
  rw [h.labelsFit_iff, h.counter, Finset.empty_union]

end Numbers

end StateFactory

open StateFactory

/-- The states that a program names, in order. -/
def ProgramContext.mentions (P : ProgramContext) : List String := P.stages.flatMap (·.mentions)

/-- **The labels stay unique and fit**, after any of the calls that the
compiler makes for a program. -/
structure LabelsStayFit (P : ProgramContext) (X : XtraCompiler) : Prop where
  called : ∀ cs : List StateCall, cs.map (·.name) <+: P.mentions → (new.calls cs).LabelsFit
  compiled : X.factories.states.LabelsFit

/-- **When labels stay unique and fit**: the program names at most 255
states besides `any`. -/
theorem labelsStayFit_iff {orders : Orders} {P : ProgramContext} {X : XtraCompiler}
    (hwalk : XtraCompiler.initial.walkProgram orders P = some X) :
    LabelsStayFit P X ↔ (P.mentions.toFinset.erase "any").card ≤ 255 := by
  rw [walkProgram_eq] at hwalk
  obtain ⟨⟨⟨custom, Rs⟩, s⟩, hprogram, hwalk⟩ := Option.bind_eq_some_iff.mp hwalk
  obtain ⟨t, -, rfl⟩ := Option.map_eq_some_iff.mp hwalk
  obtain ⟨s₀, hstages, -, hstates, -, -⟩ := Factories.stages_of_program hprogram
  have hmentioned : s.1.states.Same (new.mention P.mentions) := by
    have h := Factories.mentioned_stages hstages
    unfold Factories.Mentioned at h
    rwa [hstates] at h
  constructor
  · intro h
    exact (labelsFit_mention_iff P.mentions).mp (hmentioned.labelsFit_iff.mp h.compiled)
  · intro hle
    refine ⟨fun cs hcs => ?_, hmentioned.labelsFit_iff.mpr ((labelsFit_mention_iff _).mpr hle)⟩
    rw [(same_calls cs).labelsFit_iff, labelsFit_mention_iff]
    refine (Finset.card_le_card (Finset.erase_subset_erase _ fun name hname => ?_)).trans hle
    rw [List.mem_toFinset] at hname ⊢
    exact hcs.subset hname

/-! ## Many states -/

/-- A name for each number. -/
def stateName (i : ℕ) : String := String.ofList (List.replicate (i + 1) 's')

/-- A state without statements; the first is the initial one. -/
def bareState (i : ℕ) : StateStatementContext := ⟨i == 0, stateName i, [], []⟩

/-- A stage with so many states. -/
def manyStates (n : ℕ) : ProgramContext :=
  .stageProgram [] [⟨"s", [], [.action (.call "setFlowKey" [])], (List.range n).map bareState⟩]

theorem stateName_inj {i j : ℕ} (h : stateName i = stateName j) : i = j := by
  have hlength := congrArg (fun s : String => s.toList.length) h
  simpa [stateName] using hlength

/-- It is none of the reserved ones. -/
theorem stateName_ne_any (i : ℕ) : stateName i ≠ "any" := by
  intro h
  have hhead := congrArg (fun s : String => s.toList.head?) h
  simp [stateName, List.replicate_succ] at hhead

theorem mentions_manyStates (n : ℕ) :
    (manyStates n).mentions = (List.range n).map stateName := by
  have hstates : ((List.range n).map bareState).flatMap (·.mentions) =
      (List.range n).map stateName := by
    rw [List.flatMap_map, List.map_eq_flatMap]
    rfl
  have hstage : (manyStates n).mentions =
      ((List.range n).map bareState).flatMap (·.mentions) ++ [] := rfl
  rw [hstage, List.append_nil, hstates]

theorem card_mentions_manyStates (n : ℕ) :
    ((manyStates n).mentions.toFinset.erase "any").card = n := by
  rw [mentions_manyStates, Finset.erase_eq_of_notMem, List.toFinset_card_of_nodup, List.length_map,
    List.length_range]
  · exact (List.nodup_range).map fun i j => stateName_inj
  · rw [List.mem_toFinset, List.mem_map]
    rintro ⟨i, -, hi⟩
    exact stateName_ne_any i hi

/-- **States without statements** are resolved to blocks without rows of
their own. -/
theorem thread_bareState (F : Factories) (is : List ℕ) (hpendings : F.states.pendingStates = []) :
    ∃ states G, thread Factories.stateStatement F (is.map bareState) = some (states, G) ∧
      G.states.pendingStates = [] ∧ G.stages = F.stages ∧
      states.map (·.1) = is.map (· == 0) ∧ ∀ S ∈ states, S.2.allActions = [] := by
  induction is generalizing F with
  | nil => exact ⟨[], F, rfl, hpendings, rfl, rfl, fun S hS => by cases hS⟩
  | cons i is ih =>
    obtain ⟨states, G, hthread, hG, hstages, hinitial, hactions⟩ :=
      ih { F with states := (F.states.declareState (stateName i)).2 } (by
        have hmake : (F.states.makeState (stateName i)).2.pendingStates = [] := by
          unfold makeState
          split <;> exact hpendings
        exact congrArg (List.filter _) hmake)
    refine ⟨(i == 0, ⟨(F.states.declareState (stateName i)).1, [], []⟩) :: states, G,
      thread_cons.mpr ⟨_, _, states, rfl, hthread, rfl⟩, hG, hstages, ?_, ?_⟩
    · rw [List.map_cons, List.map_cons, hinitial]
    · rw [List.forall_mem_cons]
      exact ⟨rfl, hactions⟩

/-- A block without actions is settled. -/
theorem isSome_settle_of_allActions {orders : Orders} {S : StateStatement ConditionResult}
    (h : S.allActions = []) :
    ((blockRows orders.event S).mapM TableRow.settle).isSome = true := by
  refine mapM_isSome_iff.mpr fun r hr => ?_
  obtain ⟨-, -, hactions⟩ := of_mem_blockRows hr
  rw [h] at hactions
  have hnil : r.actions = [] := List.eq_nil_iff_forall_not_mem.mpr fun a ha => by
    cases hactions a ha
  unfold TableRow.settle
  rw [hnil]
  rfl

/-- Only the first of several states can be the initial one. -/
theorem foldlM_initialAfter {states : List (Bool × StateStatement ConditionResult)}
    {initial : Option State} (h : ∀ S ∈ states, S.1 = false) :
    states.foldlM (fun initial S => XtraCompiler.initialAfter initial S.1 S.2.state) initial =
      some initial := by
  induction states with
  | nil => rfl
  | cons S states ih =>
    rw [List.foldlM_cons, h S List.mem_cons_self]
    exact ih fun S hS => h S (List.mem_cons_of_mem _ hS)

/-- **As many states as one likes** are accepted. -/
theorem compile_manyStates (orders : Orders) (n : ℕ) (hn : 0 < n) :
    (compile orders (manyStates n)).isSome = true := by
  obtain ⟨F, hbody, hpendings, hlast, hget, hnames⟩ : ∃ F : Factories,
      ([.action (.call "setFlowKey" [])] : List BodyElement).foldlM
        (Factories.stageElement · none ·)
        { Factories.initial with stages := Factories.initial.stages.declareStage "s" } = some F ∧
      F.states.pendingStates = [] ∧ F.stages.lastDeclaredStage = some "s" ∧
      F.stages.getStages.toOption.isSome = true ∧ F.stages.stages.keySet spreadHash = ["s"] :=
    ⟨_, rfl, rfl, rfl, rfl, rfl⟩
  obtain ⟨states, G, hthread, hG, hstages, hinitial, hactions⟩ :=
    thread_bareState F (List.range n) hpendings
  have hprogram : Factories.program (.initial, none) (manyStates n) =
      some (([], [⟨"s", [], states, "s", G.conditions.getConditionsAndClear.1⟩]),
        (G.finishStage, none)) := by
    have hstage : Factories.stageStatement (.initial, none)
        ⟨"s", [], [.action (.call "setFlowKey" [])], (List.range n).map bareState⟩ =
        some (⟨"s", [], states, "s", G.conditions.getConditionsAndClear.1⟩,
          (G.finishStage, none)) := by
      unfold Factories.stageStatement
      simp only [thread, Option.bind_some]
      rw [hbody, Option.bind_some, hthread, Option.bind_some, hstages, hlast]
      rfl
    unfold Factories.program manyStates
    simp only [thread, Option.bind_some, hstage, Option.map_some]
  have hfinish : G.finishStage.stages = F.stages := hstages
  refine (compile_isSome_iff hprogram).mpr ⟨⟨rfl, ⟨.inl rfl, trivial⟩, ?_, ?_, ?_, ?_⟩, ?_⟩
  · rw [List.forall_mem_singleton]
    obtain ⟨m, rfl⟩ := Nat.exists_eq_succ_of_ne_zero hn.ne'
    rw [List.range_succ_eq_map, List.map_cons, List.map_map] at hinitial
    obtain ⟨S, rest, rfl, hS, hrest⟩ := List.map_eq_cons_iff.mp hinitial
    have hlater : ∀ S ∈ rest, S.1 = false := fun S hS => by
      obtain ⟨i, -, hi⟩ := List.mem_map.mp (hrest ▸ List.mem_map_of_mem hS)
      exact hi.symm.trans rfl
    unfold ResolvedStage.initial
    simp only [List.foldlM_cons, hS]
    exact congrArg (fun initial : Option (Option State) => initial.join.isSome)
      (foldlM_initialAfter hlater)
  · rw [hfinish]
    exact hget
  · rw [hfinish, hnames]
    exact fun name hname => ⟨_, List.mem_singleton_self _, (List.mem_singleton.mp hname).symm⟩
  · have hnone : G.finishStage.states.pendingStates = [] := hG
    unfold checkPendings
    rw [hnone]
    rfl
  · rw [List.forall_mem_singleton]
    exact mapM_isSome_iff.mpr fun S hS => isSome_settle_of_allActions (hactions S hS)

theorem walkProgram_manyStates (orders : Orders) (n : ℕ) (hn : 0 < n) :
    ∃ X, XtraCompiler.initial.walkProgram orders (manyStates n) = some X ∧
      X.exitProgram.isSome = true := by
  obtain ⟨stages, hstages⟩ := Option.isSome_iff_exists.mp (compile_manyStates orders n hn)
  obtain ⟨X, hwalk, hexit⟩ := Option.bind_eq_some_iff.mp hstages
  exact ⟨X, hwalk, Option.isSome_of_eq_some hexit⟩

/-- Three states have their labels. -/
theorem labelsStayFit_three :
    ∃ X, XtraCompiler.initial.walkProgram keyOrders (manyStates 3) = some X ∧
      LabelsStayFit (manyStates 3) X := by
  obtain ⟨X, hwalk, -⟩ := walkProgram_manyStates keyOrders 3 (by decide)
  refine ⟨X, hwalk, (labelsStayFit_iff hwalk).mpr ?_⟩
  rw [card_mentions_manyStates]
  decide

/-- **256 states** are accepted, and one of them has the label of `any`. -/
theorem not_labelsStayFit :
    ∃ X, XtraCompiler.initial.walkProgram keyOrders (manyStates 256) = some X ∧
      X.exitProgram.isSome = true ∧ ¬LabelsStayFit (manyStates 256) X := by
  obtain ⟨X, hwalk, hexit⟩ := walkProgram_manyStates keyOrders 256 (by decide)
  refine ⟨X, hwalk, hexit, fun hfit => ?_⟩
  have hnames : ((manyStates 256).mentions.map StateCall.referenceState).map (·.name) =
      (manyStates 256).mentions := by
    rw [List.map_map]
    exact List.map_id _
  have hcalled := hfit.called _ ⟨[], (List.append_nil _).trans hnames⟩
  rw [(same_calls _).labelsFit_iff, hnames, labelsFit_mention_iff,
    card_mentions_manyStates] at hcalled
  exact absurd hcalled (by decide)

end Xl

end FlowBlaze

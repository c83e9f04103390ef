import FlowBlaze.Xl.MacroReplay
import FlowBlaze.Xl.UndefinedMacros
/-!
# Macro actions, defined side by side

Macro actions are defined one by one, in the program and in its expansion,
and whole programs follow. Where no macro action that loses actions is
called for a row, the two resolve to the same.
-/

namespace FlowBlaze

namespace Xl

open Common

namespace Factories

variable {rename : String → String} {names : List (Option String)} {lossy : List String}
  {macros : Macros} {pending : List String} {F G : Factories} {name : Option String}
  {ys zs : List Action} {x : Action}

/-! ## Defining a macro action -/

/-- **While a macro action is defined**: the compiler has some actions of
it, and its expansion so far stands for those of the expansion. -/
structure Defining (rename : String → String) (names : List (Option String))
    (lossy : List String) (macros : Macros) (id : String) (body : List BodyElement)
    (F G : Factories) : Prop where
  replays : Replays rename names lossy macros [id] F G
  known : ∃ ys xs, F.macroActions.getMacroAction (some id) = some ys ∧
    G.macroActions.getMacroAction (some (rename id)) = some xs ∧ StandsFor names G body xs ∧
    (id ∉ lossy → ys = xs)

variable {id : String} {body : List BodyElement}

/-- The macro action being defined changes, and no other. -/
theorem Replays.update (h : Replays rename names lossy macros pending F G)
    (hinj : Function.Injective rename) (hname : some (rename id) ∈ names)
    (hnew : id ∉ macros.map Prod.fst) (hpending : ∀ other ∈ pending, other = id)
    {m m' : MacroActionsFactory} (hm : m.getMacroAction (some id) ≠ none)
    (hm' : m'.getMacroAction (some (rename id)) ≠ none)
    (hother : ∀ other, other ≠ some id →
      m.getMacroAction other = F.macroActions.getMacroAction other)
    (hother' : ∀ other, other ≠ some (rename id) →
      m'.getMacroAction other = G.macroActions.getMacroAction other) :
    Replays rename names lossy macros [id] (F.withMacros m) (G.withMacros m') := by
  have hmem : ∀ other, other ≠ id →
      (other ∉ macros.map Prod.fst ++ pending ↔ other ∉ macros.map Prod.fst ++ [id]) := by
    intro other hne
    rw [List.mem_append, List.mem_append, List.mem_singleton]
    have hnot : other ∉ pending := fun hp => hne (hpending other hp)
    simp only [hnot, hne]
  have hself : ¬ id ∉ macros.map Prod.fst ++ [id] :=
    not_not.mpr (List.mem_append_right _ (List.mem_singleton_self id))
  have hnamed : ∀ name, name ∉ names → m'.getMacroAction name = none := by
    intro name hnot
    rw [hother' name fun heq => hnot (heq ▸ hname)]
    exact h.named name hnot
  refine ⟨?_, fun other => ?_, fun other => ?_, hnamed, fun other body hbody => ?_⟩
  · rw [h.eq]
    rfl
  · by_cases hne : other = id
    · subst hne
      exact iff_of_false hm hself
    · exact (hother (some other) fun heq => hne (Option.some.inj heq)).symm ▸
        (h.original other).trans (hmem other hne)
  · by_cases hne : other = id
    · subst hne
      exact iff_of_false hm' hself
    · exact (hother' (some (rename other)) fun heq => hne (hinj (Option.some.inj heq))).symm ▸
        (h.renamed other).trans (hmem other hne)
  · obtain ⟨xs, hxs, hlossy⟩ := h.bodies other body hbody
    refine ⟨xs, hxs.mono (extends_of_registers rfl rfl (fun hs => hs) fun hs => hs) hnamed,
      fun hnot => ?_⟩
    have hne : other ≠ id := by
      rintro rfl
      obtain ⟨e, he, -⟩ := Option.map_eq_some_iff.mp hbody
      have heq : e.1 = other := eq_of_beq
        (List.find?_some (p := fun m : String × List BodyElement => m.1 == other) he)
      exact hnew (heq ▸ List.mem_map_of_mem (List.mem_of_find?_eq_some he))
    exact (hother (some other) fun heq => hne (Option.some.inj heq)).trans (hlossy hnot)

theorem withMacros_self : F.withMacros F.macroActions = F := rfl

/-- **What a body stands for is added**, action by action. -/
theorem StandsFor.foldlM {xs : List Action} (h : StandsFor names G body xs)
    (hget : G.macroActions.getMacroAction name = some zs) (hname : name ∈ names)
    (hnamed : ∀ other, other ∉ names → G.macroActions.getMacroAction other = none) :
    ∃ m, body.foldlM (Factories.macroElement · name ·) G = some (G.withMacros m) ∧
      MacroActionsFactory.getMacroAction m name = some (zs ++ xs) ∧
      ∀ other, other ≠ name →
        MacroActionsFactory.getMacroAction m other = G.macroActions.getMacroAction other := by
  induction body generalizing G zs xs with
  | nil =>
    cases h
    exact ⟨G.macroActions, rfl, by rw [List.append_nil]; exact hget, fun _ _ => rfl⟩
  | cons element body ih =>
    cases h with
    | cons hx hxs =>
      rename_i x xs
      obtain ⟨a, rfl, -, hx⟩ := hx
      obtain ⟨m, hadd, hself, hother⟩ := addToMacro_of_get (x := x) hget
      have hstep : G.macroElement name (.action a) = some (G.withMacros m) := by
        unfold macroElement
        simp only [show G.exitAction a = some (.action x, G) from hx, Option.bind_some, hadd]
      have hnamed' : ∀ other, other ∉ names →
          MacroActionsFactory.getMacroAction m other = none := fun other hnot => by
        rw [hother other fun heq => hnot (heq ▸ hname), hnamed other hnot]
      have hrest : StandsFor names (G.withMacros m) body xs :=
        StandsFor.mono hxs (extends_of_registers rfl rfl (fun hs => hs) fun hs => hs) hnamed'
      obtain ⟨m', hm', hself', hother'⟩ := ih hrest hself hnamed'
      refine ⟨m', ?_, ?_, fun other hne => ?_⟩
      · rw [List.foldlM_cons, hstep]
        exact hm'
      · rw [hself', List.append_assoc]
        rfl
      · rw [hother' other hne]
        exact hother other hne

/-- The actions a macro action may be made of. -/
def Plain (id : String) (a : ActionContext) : Prop :=
  a.callee ≠ some id ∧ a.callee ≠ some "setFlowKey" ∧ a.callee ≠ some "setUpdateKey"

/-- What such an action adds, where it calls no macro action. -/
theorem added_of_plain {a : ActionContext} {added : Added} (ha : Plain id a)
    (hno : NoMacroCall F.macroActions a) (h : F.exitAction a = some (added, G)) :
    ∃ x, added = .action x := by
  cases a with
  | assignment identifier expr =>
    obtain ⟨x, -, h⟩ := Option.map_eq_some_iff.mp h
    cases h
    exact ⟨x, rfl⟩
  | call id' terms =>
    rcases exitCall_cases h with ⟨term, -, -, hx, -⟩ | ⟨_, _, rfl, -⟩ | ⟨rfl, -⟩ |
      ⟨term, -, -, hx, -⟩ | ⟨actions, hreserved, hcalled, -, -⟩ | ⟨args, action, -, -, -, hx, -⟩
    · exact ⟨_, hx⟩
    · exact absurd rfl ha.2.1
    · exact absurd rfl ha.2.2
    · exact ⟨_, hx⟩
    · rw [hno id' rfl hreserved] at hcalled
      cases hcalled
    · exact ⟨_, hx⟩

/-- **An action of a macro action's body**, and its expansion. -/
theorem Defining.element {done : List BodyElement} {a : ActionContext}
    (h : Defining rename names lossy macros id done F G) (hinj : Function.Injective rename)
    (hname : some (rename id) ∈ names) (hnew : id ∉ macros.map Prod.fst) (ha : Plain id a)
    (hlossy : id ∉ lossy → ∀ body, macros.called a = some body → body = [])
    (hfresh : ∀ b ∈ (expandAction macros a).flatMap BodyElement.actions, Fresh names b) :
    Option.Rel (Defining rename names lossy macros id (done ++ expandAction macros a))
      (F.macroElement (some id) (.action a))
      ((expandAction macros a).foldlM (Factories.macroElement · (some (rename id)) ·) G) := by
  obtain ⟨hreplays, ys, xs, hys, hxs, hstands, hexact⟩ := h
  have hpending : ∀ other ∈ [id], a.callee ≠ some other := fun other hmem =>
    List.mem_singleton.mp hmem ▸ ha.1
  unfold expandAction at hfresh ⊢
  cases hcalled : macros.called a with
  | none =>
    rw [hcalled] at hfresh
    have hfresh' : Fresh names a :=
      hfresh a (List.mem_flatMap.mpr ⟨_, List.mem_singleton_self _, List.mem_singleton_self _⟩)
    have hrel := rel_mem (hreplays.exitAction hcalled hpending hfresh')
    rw [Option.getD_none, List.foldlM_cons]
    simp only [List.foldlM_nil, Option.pure_def, Option.bind_eq_bind, Option.bind_fun_some]
    refine rel_bind hrel fun u v huv => ?_
    obtain ⟨⟨hadded, hreplays', hmacros, hmacros', -⟩, hu, hv⟩ := huv
    obtain ⟨added, F'⟩ := u
    obtain ⟨added', G'⟩ := v
    obtain ⟨x, rfl⟩ := added_of_plain ha (hreplays.noMacroCall hcalled hpending) hu
    cases hadded
    obtain ⟨m, hm, hself, hother⟩ := addToMacro_of_get (F := F') (x := x) (hmacros ▸ hys)
    obtain ⟨m', hm', hself', hother'⟩ := addToMacro_of_get (F := G') (x := x) (hmacros' ▸ hxs)
    simp only [hm, hm']
    have hupdate := hreplays'.update hinj hname hnew (fun other hmem => List.mem_singleton.mp hmem)
      (by rw [hself]; exact Option.some_ne_none _) (by rw [hself']; exact Option.some_ne_none _)
      hother hother'
    refine .some ⟨hupdate, ys ++ [x], xs ++ [x], hself, hself', ?_, fun hnot => ?_⟩
    · have hE : Extends G (G'.withMacros m') := (within_exitAction hv).learns.extend.trans
        (extends_of_registers rfl rfl (fun hs => hs) fun hs => hs)
      have hlast : (G'.withMacros m').Resolves a x := (resolves_of_exitAction hv).mono
        (extends_of_registers rfl rfl (fun hs => hs) fun hs => hs)
        (hfresh'.noMacroCall hupdate.named)
      exact List.rel_append (hstands.mono hE hupdate.named)
        (.cons ⟨a, rfl, hfresh', hlast⟩ .nil)
    · rw [hexact hnot]
  | some body =>
    obtain ⟨_, xs', ys', -, -, hexit, hxs', -⟩ := hreplays.called hcalled
    obtain ⟨m', hm', hself', hother'⟩ := hxs'.foldlM hxs hname hreplays.named
    have hupdate := hreplays.update hinj hname hnew (fun other hmem => List.mem_singleton.mp hmem)
      (m := F.macroActions) (by rw [hys]; exact Option.some_ne_none _)
      (by rw [hself']; exact Option.some_ne_none _) (fun _ _ => rfl) hother'
    rw [withMacros_self] at hupdate
    have hE : Extends G (G.withMacros m') :=
      extends_of_registers rfl rfl (fun hs => hs) fun hs => hs
    have hstep : F.macroElement (some id) (.action a) = some F := by
      unfold macroElement
      simp only [hexit, Option.bind_some]
    rw [hstep, Option.getD_some, hm']
    refine .some ⟨hupdate, ys, xs ++ xs', hys, hself',
      List.rel_append (hstands.mono hE hupdate.named) (hxs'.mono hE hupdate.named),
      fun hnot => ?_⟩
    cases hlossy hnot body hcalled
    cases hxs'
    rw [List.append_nil]
    exact hexact hnot

/-- A macro action's body, and its expansion. -/
theorem Defining.elements {done : List BodyElement}
    (h : Defining rename names lossy macros id done F G) (hinj : Function.Injective rename)
    (hname : some (rename id) ∈ names) (hnew : id ∉ macros.map Prod.fst)
    (hplain : ∀ element ∈ body, ∃ a, element = .action a ∧ Plain id a)
    (hlossy : id ∉ lossy → ∀ element ∈ body, ∀ a ∈ element.actions, ∀ body,
      macros.called a = some body → body = [])
    (hfresh : ∀ b ∈ actionsIn [expandBody macros body], Fresh names b) :
    Option.Rel (Defining rename names lossy macros id (done ++ expandBody macros body))
      (body.foldlM (Factories.macroElement · (some id) ·) F)
      ((expandBody macros body).foldlM (Factories.macroElement · (some (rename id)) ·) G) := by
  induction body generalizing F G done with
  | nil =>
    refine .some ?_
    rw [show expandBody macros [] = [] from rfl, List.append_nil]
    exact h
  | cons element body ih =>
    obtain ⟨a, rfl, ha⟩ := hplain element List.mem_cons_self
    have hcons : expandBody macros (.action a :: body) =
        expandAction macros a ++ expandBody macros body := List.flatMap_cons
    rw [actionsIn_singleton, hcons, List.flatMap_append] at hfresh
    rw [hcons, List.foldlM_cons, List.foldlM_append, ← List.append_assoc]
    refine rel_bind (h.element hinj hname hnew ha (fun hnot => ?_) fun b hb => ?_)
      fun F' G' h' => ?_
    · exact hlossy hnot _ List.mem_cons_self a (List.mem_singleton_self a)
    · exact hfresh b (List.mem_append_left _ hb)
    · refine ih h' (fun e he => hplain e (List.mem_cons_of_mem _ he))
        (fun hnot e he => hlossy hnot e (List.mem_cons_of_mem _ he)) fun b hb => ?_
      rw [actionsIn_singleton] at hb
      exact hfresh b (List.mem_append_right _ hb)

/-- A macro action that was defined can be called. -/
theorem Defining.defined (h : Defining rename names lossy macros id body F G) :
    Replays rename names lossy (macros ++ [(id, body)]) [] F G := by
  obtain ⟨hreplays, ys, xs, hys, hxs, hstands, hexact⟩ := h
  have hnames : (macros ++ [(id, body)]).map Prod.fst ++ [] = macros.map Prod.fst ++ [id] := by
    simp
  refine ⟨hreplays.eq, fun other => hnames ▸ hreplays.original other,
    fun other => hnames ▸ hreplays.renamed other, hreplays.named, fun other body' hbody => ?_⟩
  unfold Macros.body at hbody
  rw [List.find?_append] at hbody
  cases hfind : macros.find? fun m => m.1 == other with
  | some e =>
    rw [hfind] at hbody
    exact hreplays.bodies other body' (by unfold Macros.body; rw [hfind]; exact hbody)
  | none =>
    rw [hfind, Option.none_or] at hbody
    obtain ⟨e, he, rfl⟩ := Option.map_eq_some_iff.mp hbody
    have hmem := List.mem_singleton.mp (List.mem_of_find?_eq_some he)
    have hid := eq_of_beq
      (List.find?_some (p := fun m : String × List BodyElement => m.1 == other) he)
    subst hmem
    cases hid
    exact ⟨xs, hstands, fun hnot => by rw [hys, hexact hnot]⟩

/-- **A macro action's definition.** -/
theorem Replays.macroAction (h : Replays rename names lossy macros [] F G)
    (hinj : Function.Injective rename) (hname : some (rename id) ∈ names)
    (hplain : ∀ element ∈ body, ∃ a, element = .action a ∧ Plain id a)
    (hlossy : id ∉ lossy → ∀ element ∈ body, ∀ a ∈ element.actions, ∀ body,
      macros.called a = some body → body = [])
    (hfresh : ∀ b ∈ actionsIn [expandBody macros body], Fresh names b) :
    Option.Rel (Replays rename names lossy (macros ++ [(id, expandBody macros body)]) [])
      (F.macroAction (some id) body)
      (G.macroAction (some (rename id)) (expandBody macros body)) := by
  unfold Factories.macroAction
  by_cases hnew : id ∈ macros.map Prod.fst
  · rw [createMacro_of_ne_none fun hnone => (h.original id).mp hnone (List.mem_append_left _ hnew),
      createMacro_of_ne_none fun hnone => (h.renamed id).mp hnone (List.mem_append_left _ hnew)]
    exact .none
  · have hnot : id ∉ macros.map Prod.fst ++ [] := by rwa [List.append_nil]
    obtain ⟨m, hm, hself, hother⟩ := createMacro_of_none ((h.original id).mpr hnot)
    obtain ⟨m', hm', hself', hother'⟩ := createMacro_of_none ((h.renamed id).mpr hnot)
    rw [hm, hm', Option.bind_some, Option.bind_some]
    have hupdate := h.update hinj hname hnew (fun _ hp => by cases hp)
      (by rw [hself]; exact Option.some_ne_none _) (by rw [hself']; exact Option.some_ne_none _)
      hother hother'
    have hdefining : Defining rename names lossy macros id [] (F.withMacros m) (G.withMacros m') :=
      ⟨hupdate, [], [], hself, hself', .nil, fun _ => rfl⟩
    exact rel_mono (hdefining.elements hinj hname hnew hplain hlossy hfresh) fun _ _ hFG =>
      hFG.defined

/-! ## Definitions -/

/-- A register. -/
theorem Replays.allocateRegister (h : Replays rename names lossy macros [] F G) (global : Bool)
    (name : String) : Option.Rel (Replays rename names lossy macros [])
      (F.allocateRegister global name) (G.allocateRegister global name) := by
  have heq : G.allocateRegister global name =
      (F.allocateRegister global name).map (·.withMacros G.macroActions) := by
    conv_lhs => rw [h.eq]
    unfold Factories.allocateRegister
    split
    · rw [Option.map_map]
      rfl
    · rw [Option.map_map]
      rfl
  rw [heq]
  cases hF : F.allocateRegister global name with
  | none => exact .none
  | some F' =>
    have hwithin := within_allocateRegister hF
    exact .some (h.grow hwithin.learns.extend hwithin.macroActions)

/-- **A definition**, and its expansion. -/
theorem Replays.definition (h : Replays rename names lossy macros [] F G)
    (hinj : Function.Injective rename) (c c' : Option String) {d : Definition}
    (hplain : d.PlainMacro) (hname : (d.expand rename macros).macroName ∈ names)
    (hlossy : d.lossy macros = true → ∀ id, d.macroName = some id → id ∈ lossy)
    (hfresh : ∀ b ∈ actionsIn [(d.expand rename macros).macroBody], Fresh names b) :
    Option.Rel (fun x y => x.1 = y.1 ∧ Replays rename names lossy (macros.define d) [] x.2.1 y.2.1)
      (Factories.definition (F, c) d) (Factories.definition (G, c') (d.expand rename macros)) := by
  cases d with
  | register global identifiers =>
    have hids : ∀ name ∈ identifiers, ∀ F G, Replays rename names lossy macros [] F G →
        Option.Rel (Replays rename names lossy macros []) (F.allocateRegister global name)
          (G.allocateRegister global ((fun n => n) name)) :=
      fun name _ F G hFG => hFG.allocateRegister global name
    have hrel := foldlM_rel hids h
    rw [List.map_id'] at hrel
    exact rel_map hrel fun _ _ hFG => ⟨rfl, hFG⟩
  | customEvent conditions => exact rel_map (h.exitConditions conditions) fun _ _ hxy => hxy
  | macroAction id body =>
    refine rel_map (h.macroAction hinj hname hplain (fun hnot element he a ha body' hbody => ?_)
      hfresh) fun _ _ hFG => ⟨rfl, hFG⟩
    by_contra hne
    refine hnot (hlossy ?_ id rfl)
    refine List.any_eq_true.mpr ⟨element, he, List.any_eq_true.mpr ⟨a, ha, ?_⟩⟩
    rw [hbody]
    cases body' with
    | nil => exact absurd rfl hne
    | cons _ _ => rfl

/-- **The definitions of a stage**, and their expansions. -/
theorem Replays.definitions (hinj : Function.Injective rename) {definitions : List Definition}
    {macros : Macros} {F G : Factories} (h : Replays rename names lossy macros [] F G)
    (c c' : Option String) (hplain : ∀ d ∈ definitions, d.PlainMacro)
    (hnames : ∀ d ∈ expandDefinitions rename macros definitions, d.macroName ∈ names)
    (hlossy : ∀ id ∈ lossyMacros macros definitions, id ∈ lossy)
    (hfresh : ∀ d ∈ expandDefinitions rename macros definitions,
      ∀ b ∈ actionsIn [d.macroBody], Fresh names b) :
    Option.Rel (fun x y => x.1 = y.1 ∧
        Replays rename names lossy (definitions.foldl Macros.define macros) [] x.2.1 y.2.1)
      (thread Factories.definition (F, c) definitions)
      (thread Factories.definition (G, c') (expandDefinitions rename macros definitions)) := by
  induction definitions generalizing macros F G c c' with
  | nil => exact .some ⟨rfl, h⟩
  | cons d definitions ih =>
    unfold lossyMacros at hlossy
    unfold expandDefinitions at hnames hfresh ⊢
    rw [thread, thread]
    refine rel_bind (h.definition hinj c c' (hplain d List.mem_cons_self)
      (hnames _ List.mem_cons_self) (fun hd id hid => ?_) (hfresh _ List.mem_cons_self))
      fun x y hxy => ?_
    · refine hlossy id (List.mem_append_left _ ?_)
      rw [if_pos hd, hid]
      exact List.mem_singleton_self id
    · refine rel_map (ih hxy.2 x.2.2 y.2.2 (fun e he => hplain e (List.mem_cons_of_mem _ he))
        (fun e he => hnames e (List.mem_cons_of_mem _ he))
        (fun id hid => hlossy id (List.mem_append_right _ hid))
        fun e he => hfresh e (List.mem_cons_of_mem _ he)) fun u v huv => ⟨?_, huv.2⟩
      exact congrArg₂ List.cons hxy.1 huv.1

/-! ## Stages -/

/-- An action of a stage's body is for no row. -/
theorem Replays.stageElement (h : Replays rename names lossy macros [] F G)
    (c c' : Option String) {a : ActionContext}
    (hfresh : ∀ b ∈ (expandAction macros a).flatMap BodyElement.actions, Fresh names b) :
    Option.Rel (Replays rename names lossy macros []) (F.stageElement c (.action a))
      ((expandAction macros a).foldlM (Factories.stageElement · c' ·) G) := by
  unfold expandAction at hfresh ⊢
  cases hcalled : macros.called a with
  | none =>
    rw [hcalled] at hfresh
    have hrel := h.exitAction hcalled (fun _ h => by cases h)
      (hfresh a (List.mem_flatMap.mpr ⟨_, List.mem_singleton_self _, List.mem_singleton_self _⟩))
    rw [Option.getD_none, List.foldlM_cons]
    simp only [List.foldlM_nil, Option.pure_def, Option.bind_eq_bind, Option.bind_fun_some]
    exact rel_map hrel fun _ _ hxy => hxy.2.1
  | some body =>
    obtain ⟨_, xs, ys, -, -, hexit, hxs, -⟩ := h.called hcalled
    have hF : F.stageElement c (.action a) = some F := congrArg (Option.map Prod.snd) hexit
    have hG : body.foldlM (Factories.stageElement · c' ·) G = some G := by
      clear hcalled hexit hF hfresh
      induction hxs with
      | nil => rfl
      | cons hx _ ih =>
        obtain ⟨b, rfl, -, hx⟩ := hx
        have hb : G.stageElement c' (.action b) = some G := congrArg (Option.map Prod.snd) hx
        rw [List.foldlM_cons, hb]
        exact ih
    rw [hF, Option.getD_some, hG]
    exact .some h

/-- **A stage resolves as its expansion does.** -/
theorem stageStatement_expand (hinj : Function.Injective rename) {T : StageStatementContext}
    (hplain : ∀ d ∈ T.definitions, d.PlainMacro) (hcalls : (T.expand rename).CallsNoMacro)
    (hlossless : T.Lossless) (hF : F.macroActions = []) (c c' : Option String) :
    Option.Rel (fun x y => x.1 = y.1 ∧ x.2.1 = y.2.1 ∧ x.2.1.macroActions = [])
      (Factories.stageStatement (F, c) T) (Factories.stageStatement (F, c') (T.expand rename)) := by
  have hfresh : ∀ bodies, (∀ b ∈ actionsIn bodies, b ∈ (T.expand rename).actions) →
      ∀ b ∈ actionsIn bodies, Fresh ((T.expand rename).definitions.map (·.macroName)) b :=
    fun bodies h b hb => hcalls b (h b hb)
  have hmem : ∀ {bodies : List (List BodyElement)} {body b}, body ∈ bodies →
      b ∈ actionsIn [body] → b ∈ actionsIn bodies := by
    intro bodies body b hbody hb
    rw [actionsIn_singleton] at hb
    exact List.mem_flatMap.mpr ⟨body, hbody, hb⟩
  let F₁ : Factories := { F with stages := F.stages.declareStage T.identifier }
  have hstart : Replays rename ((T.expand rename).definitions.map (·.macroName))
      (lossyMacros [] T.definitions) [] [] F₁ F₁ := by
    have hnone : ∀ name, F₁.macroActions.getMacroAction name = none := fun name => by
      change F.macroActions.getMacroAction name = none
      rw [hF]
      rfl
    exact ⟨rfl, fun id => iff_of_true (hnone _) (List.not_mem_nil), fun id =>
      iff_of_true (hnone _) (List.not_mem_nil), fun name _ => hnone name, fun _ _ h => by cases h⟩
  have hdefinitions := hstart.definitions hinj c c' hplain
    (fun d hd => List.mem_map_of_mem (f := fun d : Definition => d.macroName) hd)
    (fun _ h => h) fun d hd => hfresh _ fun b hb => List.mem_append_left _
      (List.mem_append_left _ (hmem (List.mem_map_of_mem hd) hb))
  unfold Factories.stageStatement
  refine rel_bind hdefinitions fun x y hxy => ?_
  have hbody : ∀ element ∈ T.body, ∀ F G, Replays rename
      ((T.expand rename).definitions.map (·.macroName)) (lossyMacros [] T.definitions)
      T.macros [] F G → Option.Rel (Replays rename
        ((T.expand rename).definitions.map (·.macroName)) (lossyMacros [] T.definitions)
        T.macros []) (F.stageElement x.2.2 element)
      ((expandElement T.macros element).foldlM (Factories.stageElement · y.2.2 ·) G) := by
    intro element he F G hFG
    obtain ⟨a, rfl⟩ := hlossless.body element he
    refine hFG.stageElement x.2.2 y.2.2 fun b hb => hcalls b ?_
    refine List.mem_append_left _ (List.mem_append_right _ ?_)
    rw [actionsIn_singleton]
    obtain ⟨e, he', hb⟩ := List.mem_flatMap.mp hb
    exact List.mem_flatMap.mpr ⟨e, List.mem_flatMap.mpr ⟨_, he, he'⟩, hb⟩
  refine rel_bind (foldlM_rel_flatMap hbody hxy.2) fun F' G' hFG' => ?_
  have hstates : ∀ S ∈ T.stateStatements, ∀ F G, Replays rename
      ((T.expand rename).definitions.map (·.macroName)) (lossyMacros [] T.definitions)
      T.macros [] F G → Option.Rel (fun x y => x.1 = y.1 ∧ Replays rename
        ((T.expand rename).definitions.map (·.macroName)) (lossyMacros [] T.definitions)
        T.macros [] x.2 y.2) (F.stateStatement S) (G.stateStatement (S.expand T.macros)) := by
    intro S hS F G hFG
    refine hFG.stateStatement fun body hbody => ⟨fun a ha => ?_, fun b hb => hcalls b ?_⟩
    · exact fun id hid hreserved => hlossless.rows a
        (hmem (List.mem_flatMap.mpr ⟨S, hS, hbody⟩) ha) id hid hreserved
    · refine List.mem_append_right _ (hmem ?_ hb)
      refine List.mem_flatMap.mpr ⟨S.expand T.macros, List.mem_map_of_mem hS, ?_⟩
      rw [bodies_expand]
      exact List.mem_map_of_mem hbody
  refine rel_bind (thread_rel hstates hFG') fun u v huv => ?_
  obtain ⟨states, F''⟩ := u
  obtain ⟨_, G''⟩ := v
  obtain ⟨rfl, hreplays⟩ := huv
  obtain ⟨m, rfl⟩ : ∃ m, G'' = F''.withMacros m := ⟨_, hreplays.eq⟩
  change Option.Rel _ (F''.stages.lastDeclaredStage.map _) (F''.stages.lastDeclaredStage.map _)
  cases F''.stages.lastDeclaredStage with
  | none => exact .none
  | some table =>
    refine .some ⟨?_, rfl, rfl⟩
    simp only [hxy.1]
    rfl

/-! ## Programs -/

/-- **A program resolves as its expansion does.** -/
theorem program_expand (hinj : Function.Injective rename) {P : ProgramContext}
    (hplain : ∀ T ∈ P.stages, ∀ d ∈ T.definitions, d.PlainMacro)
    (hcalls : ∀ T ∈ (P.expand rename).stages, T.CallsNoMacro)
    (hlossless : ∀ T ∈ P.stages, T.Lossless) :
    Option.Rel (fun x y => x.1 = y.1 ∧ x.2.1 = y.2.1)
      (Factories.program (.initial, none) P)
      (Factories.program (.initial, none) (P.expand rename)) := by
  cases P with
  | stageProgram definitions stages =>
    have hstages : ∀ T ∈ stages, ∀ s s' : Factories × Option String,
        (s.1 = s'.1 ∧ s.1.macroActions = []) → Option.Rel (fun x y => x.1 = y.1 ∧
          x.2.1 = y.2.1 ∧ x.2.1.macroActions = []) (Factories.stageStatement s T)
          (Factories.stageStatement s' (T.expand rename)) := by
      rintro T hT ⟨F, c⟩ ⟨_, c'⟩ ⟨rfl, hF⟩
      exact stageStatement_expand hinj (hplain T hT) (hcalls _ (List.mem_map_of_mem hT))
        (hlossless T hT) hF c c'
    change Option.Rel _ ((thread Factories.topDefinition (.initial, none) definitions).bind _)
      ((thread Factories.topDefinition (.initial, none) definitions).bind _)
    cases htop : thread Factories.topDefinition (.initial, none) definitions with
    | none => exact .none
    | some x =>
      have hmacros : x.2.1.macroActions = [] := thread_invariant
        (I := fun s : Factories × Option String => s.1.macroActions = [])
        (fun s d results s' hs h => macroActions_topDefinition hs h) rfl htop
      refine rel_map (thread_rel hstages ⟨rfl, hmacros⟩) fun u v huv => ⟨?_, huv.2.1⟩
      simp only [huv.1]
  | stateProgram definitions states =>
    refine rel_map (stageStatement_expand hinj (hplain _ (List.mem_singleton_self _))
      (hcalls _ (List.mem_singleton_self _))
        (hlossless _ (List.mem_singleton_self _)) rfl none none)
      fun u v huv => ⟨?_, huv.2.1⟩
    simp only [huv.1]

end Factories

/-- **The compiler makes the same tables of a program and its expansion.** -/
theorem compile_expand {rename : String → String} (hinj : Function.Injective rename)
    (orders : Orders) {P : ProgramContext}
    (hplain : ∀ T ∈ P.stages, ∀ d ∈ T.definitions, d.PlainMacro)
    (hcalls : ∀ T ∈ (P.expand rename).stages, T.CallsNoMacro)
    (hlossless : ∀ T ∈ P.stages, T.Lossless) :
    compile orders (P.expand rename) = compile orders P := by
  unfold compile
  rw [walkProgram_eq, walkProgram_eq, Option.bind_assoc, Option.bind_assoc]
  refine (bind_eq_of_rel (Factories.program_expand hinj hplain hcalls hlossless)
    fun x y hxy => ?_).symm
  obtain ⟨R, F, c⟩ := x
  obtain ⟨R', F', c'⟩ := y
  obtain ⟨rfl, rfl⟩ := hxy
  change ((XtraCompiler.Rows.initial.walkProgram orders R).map _).bind _ =
    ((XtraCompiler.Rows.initial.walkProgram orders R).map _).bind _
  rw [Option.bind_map, Option.bind_map]
  rfl

end Xl

end FlowBlaze

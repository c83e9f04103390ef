import FlowBlaze.Xl.SerialRows
/-!
# Serial blocks lose no action

Which programs keep their serial blocks is read off the statements: an
event has none of primitive actions, a macro action that is called keeps
its own, and no row is made up that lacks a body with some.
-/

namespace FlowBlaze

namespace Xl

open Common

/-! ## The condition -/

namespace StateStatementContext

variable (S : StateStatementContext)

/-- Some event of the state has no condition: its row is made up, without
the actions of the state. -/
def MissesState : Prop :=
  ∃ b ∈ S.eventStatements, ∀ b' ∈ S.eventStatements,
    Event.toEvent b'.identifier = Event.toEvent b.identifier → b'.conditionStatements = []

/-- No event of the state has a condition: rows are made up for the state,
without the actions of the events. -/
def MissesEvents : Prop := ∀ b ∈ S.eventStatements, b.conditionStatements = []

/-- **A state statement that keeps its serial blocks.** -/
structure KeepsSerial (kept written : MacroPieces) : Prop where
  calls : ∀ body ∈ S.bodies, ∀ a, BodyElement.action a ∈ body → kept.calls a = true →
    serials (kept.ofAction a) = serials (written.calledPieces a)
  events : ∀ b ∈ S.eventStatements, ∀ actions, BodyElement.serial actions ∈ b.body →
    actions.all kept.primitive = true → actions = []
  state : S.MissesState → ∀ element ∈ S.body, Fine kept written .missing element
  event : S.MissesEvents → ∀ b ∈ S.eventStatements, ∀ element ∈ b.body,
    Fine kept written .missing element

end StateStatementContext

/-- **A program that keeps its serial blocks**: the last statement of each
stage's name does. -/
def ProgramContext.KeepsSerial (P : ProgramContext) : Prop :=
  ∀ earlier T later, P.stages = earlier ++ T :: later →
    (∀ T' ∈ later, T'.identifier ≠ T.identifier) → ∀ S ∈ T.stateStatements,
    S.KeepsSerial
      (T.macroPieces MacroPieces.stored (lastMacro none (earlier.flatMap (·.definitions))))
      T.writtenMacros

/-! ## What rows are made for -/

section Sources

variable {S : StateStatementContext} {e : Event} {b : EventStatementContext}
  {element : BodyElement} {source : RowSource} {order : HashOrder Event}

theorem mem_evented :
    (e, b) ∈ S.evented ↔ b ∈ S.eventStatements ∧ Event.toEvent b.identifier = some e := by
  unfold StateStatementContext.evented
  rw [List.mem_filterMap]
  constructor
  · rintro ⟨b', hb', heq⟩
    obtain ⟨e', he', heq⟩ := Option.map_eq_some_iff.mp heq
    cases heq
    exact ⟨hb', he'⟩
  · rintro ⟨hb, he⟩
    exact ⟨b, hb, by rw [he]; rfl⟩

theorem mem_eventBody : element ∈ S.eventBody e ↔
    ∃ b ∈ S.eventStatements, Event.toEvent b.identifier = some e ∧ element ∈ b.body := by
  unfold StateStatementContext.eventBody
  rw [List.mem_flatMap]
  constructor
  · rintro ⟨⟨e', b⟩, hp, hmem⟩
    obtain ⟨hp, heq⟩ := List.mem_filter.mp hp
    obtain ⟨hb, he⟩ := mem_evented.mp hp
    have heq' : e' = e := eq_of_beq heq
    rw [heq'] at he
    exact ⟨b, hb, he, hmem⟩
  · rintro ⟨b, hb, he, hmem⟩
    exact ⟨(e, b), List.mem_filter.mpr ⟨mem_evented.mpr ⟨hb, he⟩, beq_self_eq_true e⟩, hmem⟩

/-- Events that are met again are not added. -/
theorem mem_foldl_new {es ks : List Event} :
    e ∈ es.foldl (fun ks e => if e ∈ ks then ks else ks ++ [e]) ks ↔ e ∈ ks ∨ e ∈ es := by
  induction es generalizing ks with
  | nil => simp
  | cons e' es ih =>
    rw [List.foldl_cons, ih, List.mem_cons]
    by_cases hmem : e' ∈ ks
    · rw [if_pos hmem]
      constructor
      · exact fun h => h.imp_right .inr
      · rintro (h | rfl | h)
        · exact .inl h
        · exact .inl hmem
        · exact .inr h
    · rw [if_neg hmem, List.mem_append, List.mem_singleton, or_assoc]

theorem mem_events : e ∈ S.events ↔
    ∃ b ∈ S.eventStatements, Event.toEvent b.identifier = some e := by
  unfold StateStatementContext.events
  rw [mem_foldl_new, List.mem_map]
  constructor
  · rintro (h | ⟨⟨e', b⟩, hp, rfl⟩)
    · cases h
    · obtain ⟨hb, he⟩ := mem_evented.mp hp
      exact ⟨b, hb, he⟩
  · rintro ⟨b, hb, he⟩
    exact .inr ⟨(e, b), mem_evented.mpr ⟨hb, he⟩, rfl⟩

theorem mem_conditionSources : source ∈ S.conditionSources ↔
    ∃ b ∈ S.eventStatements, ∃ e, Event.toEvent b.identifier = some e ∧
      ∃ c ∈ b.conditionStatements, source = ⟨e, c.body, .plain, .emptied⟩ := by
  unfold StateStatementContext.conditionSources
  rw [List.mem_flatMap]
  constructor
  · rintro ⟨⟨e, b⟩, hp, hmem⟩
    obtain ⟨hb, he⟩ := mem_evented.mp hp
    obtain ⟨c, hc, rfl⟩ := List.mem_map.mp hmem
    exact ⟨b, hb, e, he, c, hc, rfl⟩
  · rintro ⟨b, hb, e, he, c, hc, rfl⟩
    exact ⟨(e, b), mem_evented.mpr ⟨hb, he⟩, List.mem_map.mpr ⟨c, hc, rfl⟩⟩

/-- An event of no condition. -/
theorem all_ne_iff : (S.conditionSources.all fun r => r.event != e) = true ↔
    ∀ b ∈ S.eventStatements, Event.toEvent b.identifier = some e →
      b.conditionStatements = [] := by
  rw [List.all_eq_true]
  constructor
  · intro h b hb he
    refine List.eq_nil_iff_forall_not_mem.mpr fun c hc => ?_
    have hne := h _ (mem_conditionSources.mpr ⟨b, hb, e, he, c, hc, rfl⟩)
    simp at hne
  · intro h source hsource
    obtain ⟨b, hb, e', he', c, hc, rfl⟩ := mem_conditionSources.mp hsource
    refine bne_iff_ne.mpr ?_
    rintro rfl
    rw [h b hb he'] at hc
    cases hc

theorem mem_eventSources : source ∈ S.eventSources order ↔
    ∃ e, (∃ b ∈ S.eventStatements, Event.toEvent b.identifier = some e) ∧
      (∀ b ∈ S.eventStatements, Event.toEvent b.identifier = some e →
        b.conditionStatements = []) ∧
      source = ⟨e, [], .missing, .emptied⟩ := by
  unfold StateStatementContext.eventSources
  rw [List.mem_map]
  constructor
  · rintro ⟨e, he, rfl⟩
    obtain ⟨hmem, hall⟩ := List.mem_filter.mp he
    exact ⟨e, mem_events.mp ((order.perm _).mem_iff.mp hmem), all_ne_iff.mp hall, rfl⟩
  · rintro ⟨e, hmem, hall, rfl⟩
    exact ⟨e, List.mem_filter.mpr
      ⟨(order.perm _).mem_iff.mpr (mem_events.mpr hmem), all_ne_iff.mpr hall⟩, rfl⟩

variable {kept written : MacroPieces} {F : Factories} {S' : StateStatement ConditionResult}

/-- Every event statement of a state that is shown has an event. -/
theorem exists_event (h : Factories.ShowsState kept F S S') (hb : b ∈ S.eventStatements) :
    ∃ e, Event.toEvent b.identifier = some e := by
  obtain ⟨i, hi, rfl⟩ := List.getElem_of_mem hb
  exact ⟨_, (h.eventStatements.get hi (h.eventStatements.length_eq ▸ hi)).event⟩

theorem conditionSources_eq_nil_iff (h : Factories.ShowsState kept F S S') :
    S.conditionSources = [] ↔ S.MissesEvents := by
  constructor
  · intro hnil b hb
    obtain ⟨e, he⟩ := exists_event h hb
    exact all_ne_iff.mp (by rw [hnil]; rfl) b hb he
  · intro hmisses
    refine List.eq_nil_iff_forall_not_mem.mpr fun source hsource => ?_
    obtain ⟨b, hb, -, -, c, hc, -⟩ := mem_conditionSources.mp hsource
    rw [hmisses b hb] at hc
    cases hc

/-- Every row of a state statement has its serial blocks as they are written. -/
def AllFine (kept written : MacroPieces) (S : StateStatementContext) (source : RowSource) : Prop :=
  (∀ element ∈ S.body, Fine kept written source.fromState element) ∧
    (∀ element ∈ S.eventBody source.event, Fine kept written source.fromEvent element) ∧
    ∀ element ∈ source.condition, Fine kept written .plain element

/-- **An action is fine** if it is no call, or the macro action keeps its
serial blocks. -/
theorem serials_eq_iff {a : ActionContext} :
    serials (kept.ofAction a) = serials (kept.writtenElement written (.action a)) ↔
      (kept.calls a = true → serials (kept.ofAction a) = serials (written.calledPieces a)) := by
  by_cases hcalls : kept.calls a = true
  · rw [writtenElement_of_calls hcalls]
    exact ⟨fun h _ => h, fun h => h hcalls⟩
  · rw [writtenElement_of_not_calls hcalls, ofAction_of_not_calls hcalls]
    exact ⟨fun _ h => absurd h hcalls, fun _ => rfl⟩

/-- Some row has an event's body. -/
theorem exists_eventSource (h : Factories.ShowsState kept F S S') (hb : b ∈ S.eventStatements) :
    ∃ source ∈ S.sources order, source.fromEvent = .emptied ∧
      Event.toEvent b.identifier = some source.event := by
  obtain ⟨e, he⟩ := exists_event h hb
  by_cases hall : ∀ b' ∈ S.eventStatements, Event.toEvent b'.identifier = some e →
      b'.conditionStatements = []
  · exact ⟨_, List.mem_append_right _ (List.mem_append_left _
      (mem_eventSources.mpr ⟨e, ⟨b, hb, he⟩, hall, rfl⟩)), rfl, he⟩
  · push Not at hall
    obtain ⟨b', hb', he', hne⟩ := hall
    obtain ⟨c, hc⟩ := List.exists_mem_of_ne_nil _ hne
    exact ⟨_, List.mem_append_left _ (mem_conditionSources.mpr ⟨b', hb', e, he', c, hc, rfl⟩),
      rfl, he⟩

/-- Some row has the state's body. -/
theorem exists_stateSource :
    ∃ source ∈ S.sources order, source.fromState = .plain := by
  by_cases hnil : S.conditionSources = []
  · refine ⟨⟨.xtraPktRcvd, [], .plain, .missing⟩, List.mem_append_right _
      (List.mem_append_right _ ?_), rfl⟩
    unfold StateStatementContext.stateSources
    rw [if_pos hnil]
    exact List.mem_cons_self
  · obtain ⟨source, hsource⟩ := List.exists_mem_of_ne_nil _ hnil
    obtain ⟨_, -, _, -, _, -, rfl⟩ := mem_conditionSources.mp hsource
    exact ⟨_, List.mem_append_left _ hsource, rfl⟩

theorem mem_getEvents (e : Event) : e ∈ Event.getEvents := by
  cases e <;> decide

/-- **Rows that are all fine** are those of a state statement that keeps its
serial blocks. -/
theorem allFine_iff (h : Factories.ShowsState kept F S S') :
    (∀ source ∈ S.sources order, AllFine kept written S source) ↔ S.KeepsSerial kept written := by
  constructor
  · intro hall
    have hevents : ∀ b ∈ S.eventStatements, ∀ element ∈ b.body,
        Fine kept written .emptied element := fun b hb element helement => by
      obtain ⟨source, hsource, hemptied, he⟩ : ∃ source ∈ S.sources order, _ :=
        exists_eventSource h hb
      have hfine := (hall source hsource).2.1 element (mem_eventBody.mpr ⟨b, hb, he, helement⟩)
      rwa [hemptied] at hfine
    refine ⟨fun body hbody a ha => serials_eq_iff.mp ?_, fun b hb actions hserial =>
      hevents b hb _ hserial, fun hmisses element helement => ?_,
      fun hmisses b hb element helement => ?_⟩
    · rcases List.mem_cons.mp hbody with rfl | hbody
      · obtain ⟨source, hsource, hplain⟩ : ∃ source ∈ S.sources order, _ := exists_stateSource
        have hfine := (hall source hsource).1 _ ha
        rwa [hplain] at hfine
      · obtain ⟨b, hb, hbody⟩ := List.mem_flatMap.mp hbody
        rcases List.mem_cons.mp hbody with rfl | hbody
        · exact hevents b hb _ ha
        · obtain ⟨c, hc, rfl⟩ := List.mem_map.mp hbody
          obtain ⟨e, he⟩ := exists_event h hb
          exact (hall _ (List.mem_append_left _
            (mem_conditionSources.mpr ⟨b, hb, e, he, c, hc, rfl⟩))).2.2 _ ha
    · obtain ⟨b, hb, hnone⟩ := hmisses
      obtain ⟨e, he⟩ := exists_event h hb
      rw [he] at hnone
      exact (hall _ (List.mem_append_right _ (List.mem_append_left _
        (mem_eventSources.mpr ⟨e, ⟨b, hb, he⟩, hnone, rfl⟩)))).1 element helement
    · obtain ⟨e, he⟩ := exists_event h hb
      have hsource : (⟨e, [], .plain, .missing⟩ : RowSource) ∈ S.stateSources := by
        unfold StateStatementContext.stateSources
        rw [if_pos ((conditionSources_eq_nil_iff h).mpr hmisses)]
        exact List.mem_map.mpr ⟨e, mem_getEvents e, rfl⟩
      exact (hall _ (List.mem_append_right _ (List.mem_append_right _ hsource))).2.1 element
        (mem_eventBody.mpr ⟨b, hb, he, helement⟩)
  · intro hkeeps source hsource
    have hplain : ∀ body ∈ S.bodies, ∀ element ∈ body, Fine kept written .plain element := by
      intro body hbody element helement
      cases element with
      | action a => exact serials_eq_iff.mpr (hkeeps.calls body hbody a helement)
      | serial actions => trivial
    have hemptied : ∀ e, ∀ element ∈ S.eventBody e, Fine kept written .emptied element := by
      intro e element helement
      obtain ⟨b, hb, -, helement⟩ := mem_eventBody.mp helement
      have hbody : b.body ∈ S.bodies :=
        List.mem_cons_of_mem _ (List.mem_flatMap.mpr ⟨b, hb, List.mem_cons_self⟩)
      cases element with
      | action a => exact serials_eq_iff.mpr (hkeeps.calls b.body hbody a helement)
      | serial actions => exact hkeeps.events b hb actions helement
    rcases List.mem_append.mp hsource with hsource | hsource
    · obtain ⟨b, hb, e, -, c, hc, rfl⟩ := mem_conditionSources.mp hsource
      refine ⟨hplain _ List.mem_cons_self, hemptied e, hplain _ (List.mem_cons_of_mem _ ?_)⟩
      exact List.mem_flatMap.mpr ⟨b, hb, List.mem_cons_of_mem _ (List.mem_map_of_mem hc)⟩
    rcases List.mem_append.mp hsource with hsource | hsource
    · obtain ⟨e, ⟨b, hb, he⟩, hnone, rfl⟩ := mem_eventSources.mp hsource
      refine ⟨hkeeps.state ⟨b, hb, ?_⟩, hemptied e, fun _ hnil => by cases hnil⟩
      rwa [he]
    · unfold StateStatementContext.stateSources at hsource
      split_ifs at hsource with hnil
      · obtain ⟨e, -, rfl⟩ := List.mem_map.mp hsource
        refine ⟨hplain _ List.mem_cons_self, fun element helement => ?_,
          fun _ hnil => by cases hnil⟩
        obtain ⟨b, hb, -, helement⟩ := mem_eventBody.mp helement
        exact hkeeps.event ((conditionSources_eq_nil_iff h).mp hnil) b hb element helement
      · cases hsource

end Sources

/-! ## Programs -/

section Programs

variable {orders : Orders} {P : ProgramContext} {stages : List CompiledStage}

/-- Elements in a row of three lists. -/
theorem forall₂_between {α β γ : Type} {A : α → β → Prop} {B : β → γ → Prop} {C : α → γ → Prop}
    {as : List α} {bs : List β} {cs : List γ} (hA : List.Forall₂ A as bs)
    (hB : List.Forall₂ B bs cs) (h : ∀ a ∈ as, ∀ b c, A a b → B b c → C a c) :
    List.Forall₂ C as cs := by
  induction hA generalizing cs with
  | nil =>
    cases hB
    exact .nil
  | cons ha _ ih =>
    cases hB with
    | cons hb hB =>
      exact .cons (h _ List.mem_cons_self _ _ ha hb)
        (ih hB fun a' ha' => h a' (List.mem_cons_of_mem _ ha'))

theorem exists_between {α β γ : Type} {A : α → β → Prop} {B : β → γ → Prop} {C : α → γ → Prop}
    {as : List α} {bs : List β} {cs : List γ} (hA : List.Forall₂ A as bs)
    (hB : List.Forall₂ B bs cs) (hC : List.Forall₂ C as cs) {a : α} (ha : a ∈ as) :
    ∃ b c, A a b ∧ B b c ∧ C a c := by
  obtain ⟨i, hi, rfl⟩ := List.getElem_of_mem ha
  have hb := hA.length_eq ▸ hi
  have hc := hB.length_eq ▸ hb
  exact ⟨_, _, hA.get hi hb, hB.get hb hc, hC.get hi hc⟩

section StateRows

variable {kept written : MacroPieces} {F : Factories} {S : StateStatementContext}
  {S' : Bool × StateStatement ConditionResult} {rows : List (TableRow ConditionResult)}

/-- **The rows of a state statement** are right about their serial blocks if
and only if it keeps them. -/
theorem rowsKept_iff (hkeeps : kept.Keeps written) (h : Factories.ShowsState kept F S S'.2)
    (hrows : (blockRows orders.event S'.2).mapM TableRow.settle = some rows) :
    List.Forall₂ (fun source (row : TableRow ConditionResult) =>
        RowKept kept written F S source row.actions) (S.sources orders.event) rows ↔
      S.KeepsSerial kept written := by
  have hmade : List.Forall₂ _ (S.sources orders.event) (blockRows orders.event S'.2) :=
    madeFor_blockRows h
  have hsettle := mapM_eq_some_iff.mp hrows
  have hrow : ∀ source r row, MadeFor kept F S source r → r.settle = some row →
      (RowKept kept written F S source row.actions ↔ AllFine kept written S source) :=
    fun source r row hr hsettle => by
      rw [eq_of_settle hsettle]
      exact rowKept_iff hkeeps hr
  rw [← allFine_iff h]
  constructor
  · intro hall source hsource
    obtain ⟨r, row, hr, hsettle, hkept⟩ := exists_between hmade hsettle hall hsource
    exact (hrow source r row hr hsettle).mp hkept
  · intro hall
    exact forall₂_between hmade hsettle fun source hsource r row hr hsettle =>
      (hrow source r row hr hsettle).mpr (hall source hsource)

end StateRows

/-- A program whose rows are right about their serial blocks keeps them. -/
theorem keepsSerial_of_serialKept (h : compile orders P = some stages)
    (hkept : SerialKept orders P stages) : P.KeepsSerial := by
  intro earlier T later hsplit hlast S hS
  obtain ⟨-, hnames⟩ := compile_madeFrom h
  obtain ⟨stage, hstage, hname⟩ := hnames T (by
    rw [hsplit]
    exact List.mem_append_right _ List.mem_cons_self)
  obtain ⟨earlier', T', later', F, R, blocks, hfrom, hblocks, hall⟩ := hkept stage hstage
  have hlast' : ∀ U ∈ later, U.identifier ≠ stage.name := fun U hU => hname ▸ hlast U hU
  obtain ⟨rfl, rfl⟩ := eq_of_last (hsplit.symm.trans hfrom.split) hname.symm hfrom.name hlast'
    hfrom.last
  obtain ⟨S', rows, hshows, hrows, hkept⟩ :=
    exists_between hfrom.shows.states (mapM_eq_some_iff.mp hblocks) hall hS
  exact (rowsKept_iff (T.keeps_macroPieces _) hshows hrows).mp hkept

/-- A program that keeps its serial blocks has rows that are right about
them. -/
theorem serialKept_of_keepsSerial (h : compile orders P = some stages) (hkeeps : P.KeepsSerial) :
    SerialKept orders P stages := by
  intro stage hstage
  obtain ⟨earlier, T, later, F, R, hfrom⟩ := (compile_madeFrom h).1 stage hstage
  obtain ⟨rows, hrows, -⟩ := hfrom.rows
  obtain ⟨blocks, hblocks, -⟩ := Option.map_eq_some_iff.mp hrows
  refine ⟨earlier, T, later, F, R, blocks, hfrom, hblocks, ?_⟩
  refine forall₂_between hfrom.shows.states (mapM_eq_some_iff.mp hblocks)
    fun S hS S' rows hshows hrows => ?_
  refine (rowsKept_iff (T.keeps_macroPieces _) hshows hrows).mpr ?_
  exact hkeeps earlier T later hfrom.split (fun U hU => hfrom.name ▸ hfrom.last U hU) S hS

/-- **When serial blocks lose no action**: in a program whose state
statements keep them. -/
theorem serialKept_iff (h : compile orders P = some stages) :
    SerialKept orders P stages ↔ P.KeepsSerial :=
  ⟨keepsSerial_of_serialKept h, serialKept_of_keepsSerial h⟩

end Programs

/-! ## A serial block at two levels -/

/-- The block that deletes the instance of the flow. -/
def deleteSerially : BodyElement := .serial [.call "deleteInstance" []]

/-- A stage with a state, an event and a condition. -/
def serialProgram (inState inEvent : List BodyElement) : ProgramContext :=
  .stageProgram [] [⟨"s", [.register false ["r"]], [.action (.call "setFlowKey" [])],
    [⟨true, "A", inState, [⟨"pktRcvd", inEvent,
      [⟨[⟨.xtraEqual, .identifier "r", .identifier "r"⟩], []⟩]⟩]⟩]⟩]

/-- In a state the block keeps its action. -/
theorem serialKept_inState :
    ∃ stages, compile keyOrders (serialProgram [deleteSerially] []) = some stages ∧
      SerialKept keyOrders (serialProgram [deleteSerially] []) stages := by
  have hsome : (compile keyOrders (serialProgram [deleteSerially] [])).isSome = true := by rfl
  obtain ⟨stages, hstages⟩ := Option.isSome_iff_exists.mp hsome
  refine ⟨stages, hstages, (serialKept_iff hstages).mpr ?_⟩
  intro earlier T later hsplit _ S hS
  have hmem : T ∈ (serialProgram [deleteSerially] []).stages := by
    rw [hsplit]
    exact List.mem_append_right _ List.mem_cons_self
  obtain rfl := List.mem_singleton.mp hmem
  obtain rfl := List.mem_singleton.mp hS
  refine ⟨fun body hbody a ha => ?_, fun b hb actions hserial => ?_, fun hmisses => ?_,
    fun hmisses => ?_⟩
  · simp [StateStatementContext.bodies, deleteSerially] at hbody
    rcases hbody with rfl | rfl <;> simp at ha
  · obtain rfl := List.mem_singleton.mp hb
    cases hserial
  · obtain ⟨b, hb, hnone⟩ := hmisses
    obtain rfl := List.mem_singleton.mp hb
    cases hnone _ List.mem_cons_self rfl
  · cases hmisses _ List.mem_cons_self

/-- **In an event it loses it**: the row has a sequential action without any
action. -/
theorem not_serialKept :
    ∃ stages, compile keyOrders (serialProgram [] [deleteSerially]) = some stages ∧
      ¬SerialKept keyOrders (serialProgram [] [deleteSerially]) stages := by
  have hsome : (compile keyOrders (serialProgram [] [deleteSerially])).isSome = true := by rfl
  obtain ⟨stages, hstages⟩ := Option.isSome_iff_exists.mp hsome
  refine ⟨stages, hstages, fun h => ?_⟩
  have hkeeps := keepsSerial_of_serialKept hstages h [] _ [] rfl
    (fun _ hnil => by cases hnil) _ List.mem_cons_self
  have hnil := hkeeps.events _ List.mem_cons_self _ List.mem_cons_self rfl
  cases hnil

end Xl

end FlowBlaze

import FlowBlaze.Xl.SerialBlocks
/-!
# Serial blocks in rows

A row has the actions of its state, of its event and of its condition. A
row is right about the serial blocks among them if each brings one
sequential action, at its place between the actions beside it, with
exactly its own actions. The blocks of an event come out without any, and
the rows made up for an event or for a state lack the other's actions.
-/

namespace FlowBlaze

namespace Xl

open Common

/-! ## What a row should have -/

/-- How the compiler brings a body to a row: as it is kept, without the
actions of its serial blocks, or not at all. -/
inductive Bringing
  | plain
  | emptied
  | missing
deriving DecidableEq

/-- What a row is made for: an event, and a condition's body if there is one,
with how the bodies of the state and of the event are brought. -/
structure RowSource where
  event : Event
  condition : List BodyElement
  fromState : Bringing
  fromEvent : Bringing

section Kept

variable (kept written : MacroPieces)

/-- The pieces of an element that is brought to a row. -/
def MacroPieces.bring (bringing : Bringing) (element : BodyElement) : List Piece :=
  match bringing with
  | .plain => kept.ofElement element
  | .emptied => kept.inEvent element
  | .missing => []

/-- The serial blocks that a row is asked for: of a body that it does not
have, only those of primitive actions. -/
def askedBlocks (bringing : Bringing) (body : List BodyElement) : List SerialBlock :=
  let blocks := serials (body.flatMap (kept.writtenElement written))
  if bringing = .missing then blocks.filter Prod.fst else blocks

/-- **An element of a body is in a row**: a serial block with exactly its
actions if these are primitive; the call of a macro action with all serial
blocks of it in order, between actions that are written there; and another
action as it is. -/
def ElementKept (F : Factories) : BodyElement → List Action → Prop
  | .serial actions, xs => ∃ inner, xs = [.sequentialActions inner] ∧
      F.Gathers (actions.all kept.primitive, actions) inner
  | .action a, xs =>
    if kept.calls a then
      ∃ ps, F.Shows ps xs ∧ serials ps = serials (written.calledPieces a) ∧
        (serials ps ≠ [] → ps.Sublist (written.calledPieces a))
    else F.Shows [.action a] xs

/-- **A body is in a row**, if it has serial blocks that the row is asked
for; if it has none, it brings no sequential action. -/
def BodyKept (F : Factories) (bringing : Bringing) (body : List BodyElement) (xs : List Action) :
    Prop :=
  if askedBlocks kept written bringing body = [] then inners xs = []
  else ∃ parts, List.Forall₂ (ElementKept kept written F) body parts ∧ xs = parts.flatten

end Kept

namespace StateStatementContext

variable (S : StateStatementContext)

/-- The event statements, with their events. -/
def evented : List (Event × EventStatementContext) :=
  S.eventStatements.filterMap fun b => (Event.toEvent b.identifier).map (·, b)

/-- What is written for an event, outside any condition. -/
def eventBody (e : Event) : List BodyElement :=
  (S.evented.filter fun p => p.1 == e).flatMap (·.2.body)

/-- The events, in order. -/
def events : List Event :=
  (S.evented.map Prod.fst).foldl (fun ks e => if e ∈ ks then ks else ks ++ [e]) []

/-- The rows of conditions. -/
def conditionSources : List RowSource :=
  S.evented.flatMap fun p => p.2.conditionStatements.map fun c => ⟨p.1, c.body, .plain, .emptied⟩

/-- The rows made up for events without one. -/
def eventSources (order : HashOrder Event) : List RowSource :=
  ((order.run S.events).filter fun e => S.conditionSources.all fun r => r.event != e).map
    (⟨·, [], .missing, .emptied⟩)

/-- The rows made up for a state without one. -/
def stateSources : List RowSource :=
  if S.conditionSources = [] then Event.getEvents.map (⟨·, [], .plain, .missing⟩) else []

/-- **The rows of a state statement**, by what they are made for. -/
def sources (order : HashOrder Event) : List RowSource :=
  S.conditionSources ++ (S.eventSources order ++ S.stateSources)

end StateStatementContext

/-- **A row is right about its serial blocks**: its actions are those of the
state, of the event and of the condition, without the transitions, and each
of the three bodies is in it. -/
def RowKept (kept written : MacroPieces) (F : Factories) (S : StateStatementContext)
    (source : RowSource) (actions : List Action) : Prop :=
  ∃ xs ys zs, actions = keptActions (xs ++ (ys ++ zs)) ∧
    BodyKept kept written F source.fromState S.body xs ∧
    BodyKept kept written F source.fromEvent (S.eventBody source.event) ys ∧
    BodyKept kept written F .plain source.condition zs

/-- **Serial blocks lose no action**: in every stage of the compiled program,
the rows of the state statements are right about theirs. They are looked at
before `deleteEmptyTableRows` takes out those that do nothing. -/
def SerialKept (orders : Orders) (P : ProgramContext) (stages : List CompiledStage) : Prop :=
  ∀ stage ∈ stages, ∃ earlier T later F R blocks, MadeFrom orders P stage earlier T later F R ∧
    settledBlocks orders R.states = some blocks ∧
    List.Forall₂ (fun S rows => List.Forall₂ (fun source (row : TableRow ConditionResult) =>
        RowKept
          (T.macroPieces MacroPieces.stored (lastMacro none (earlier.flatMap (·.definitions))))
          T.writtenMacros F S source row.actions)
      (S.sources orders.event) rows) T.stateStatements blocks

/-! ## One row -/

section Row

variable {kept written : MacroPieces} {F : Factories} {bringing : Bringing}
  {element : BodyElement} {body : List BodyElement} {xs : List Action}

/-- **An element's serial blocks come out as they are written.** -/
def Fine (kept written : MacroPieces) : Bringing → BodyElement → Prop
  | .missing, element => ∀ block ∈ serials (kept.writtenElement written element), block.1 = false
  | _, .action a => serials (kept.ofAction a) = serials (kept.writtenElement written (.action a))
  | .plain, .serial _ => True
  | .emptied, .serial actions => actions.all kept.primitive = true → actions = []

theorem writtenElement_of_calls {a : ActionContext} (h : kept.calls a = true) :
    kept.writtenElement written (.action a) = written.calledPieces a := if_pos h

theorem writtenElement_of_not_calls {a : ActionContext} (h : ¬kept.calls a = true) :
    kept.writtenElement written (.action a) = [.action a] := if_neg h

/-- An action that is no call of a macro action is its own piece. -/
theorem ofAction_of_not_calls {a : ActionContext} (h : ¬kept.calls a = true) :
    kept.ofAction a = [.action a] := by
  cases a with
  | assignment identifier expr => rfl
  | call id terms =>
    simp only [MacroPieces.ofAction]
    by_cases hreserved : reserved id = true
    · rw [if_pos hreserved]
    · simp only [MacroPieces.calls] at h
      have hnone : kept (some id) = none := by
        simpa [Bool.eq_false_iff.mpr hreserved] using h
      rw [if_neg hreserved, hnone]
      rfl

/-- What a call brings is less than what is written for it, or has no serial
block. -/
theorem ofAction_of_calls (hkeeps : kept.Keeps written) {a : ActionContext}
    (h : kept.calls a = true) :
    (kept.ofAction a).Sublist (written.calledPieces a) ∨ serials (kept.ofAction a) = [] := by
  cases a with
  | assignment identifier expr => cases h
  | call id terms =>
    simp only [MacroPieces.calls, Bool.and_eq_true, Bool.not_eq_true'] at h
    obtain ⟨pieces, hpieces⟩ := Option.isSome_iff_exists.mp h.2
    simp only [MacroPieces.ofAction, h.1, hpieces, Bool.false_eq_true, if_false,
      Option.getD_some]
    exact hkeeps _ _ hpieces

/-- An action's serial blocks are some of those that are written. -/
theorem serials_ofAction (hkeeps : kept.Keeps written) (a : ActionContext) :
    (serials (kept.ofAction a)).Sublist (serials (kept.writtenElement written (.action a))) := by
  by_cases hcalls : kept.calls a = true
  · rw [writtenElement_of_calls hcalls]
    rcases ofAction_of_calls hkeeps hcalls with hsub | hnil
    · exact hsub.filterMap _
    · rw [hnil]
      exact List.nil_sublist _
  · rw [writtenElement_of_not_calls hcalls, ofAction_of_not_calls hcalls]

/-- No element brings more sequential actions than it has serial blocks. -/
theorem length_serials_bring (hkeeps : kept.Keeps written) :
    (serials (kept.bring bringing element)).length ≤
      (serials (kept.writtenElement written element)).length := by
  cases bringing with
  | missing => exact Nat.zero_le _
  | plain =>
    cases element with
    | action a => exact (serials_ofAction hkeeps a).length_le
    | serial actions => exact le_refl 1
  | emptied =>
    cases element with
    | action a => exact (serials_ofAction hkeeps a).length_le
    | serial actions => exact le_refl 1

/-- An element that is in a row brings what its serial blocks ask for. -/
theorem gathers_of_elementKept (h : ElementKept kept written F element xs) :
    List.Forall₂ F.Gathers (serials (kept.writtenElement written element)) (inners xs) := by
  cases element with
  | serial actions =>
    obtain ⟨inner, rfl, hinner⟩ := h
    exact .cons hinner .nil
  | action a =>
    simp only [ElementKept] at h
    by_cases hcalls : kept.calls a = true
    · rw [if_pos hcalls] at h
      obtain ⟨ps, hshows, hps, -⟩ := h
      rw [writtenElement_of_calls hcalls, ← hps]
      exact Factories.gathers_of_shows hshows
    · rw [if_neg hcalls] at h
      rw [writtenElement_of_not_calls hcalls]
      exact Factories.gathers_of_shows h

/-- What a body is asked for altogether. -/
def neededBlocks (kept written : MacroPieces) (bringing : Bringing) (body : List BodyElement) :
    List SerialBlock :=
  if askedBlocks kept written bringing body = [] then []
  else serials (body.flatMap (kept.writtenElement written))

theorem gathers_of_bodyKept (h : BodyKept kept written F bringing body xs) :
    List.Forall₂ F.Gathers (neededBlocks kept written bringing body) (inners xs) := by
  unfold BodyKept at h
  unfold neededBlocks
  by_cases hasked : askedBlocks kept written bringing body = []
  · rw [if_pos hasked] at h ⊢
    rw [h]
    exact .nil
  · rw [if_neg hasked] at h ⊢
    obtain ⟨parts, hparts, rfl⟩ := h
    clear hasked
    induction hparts with
    | nil => exact .nil
    | cons hpart _ ih =>
      rw [List.flatMap_cons, serials_append, List.flatten_cons, inners_append]
      exact List.rel_append (gathers_of_elementKept hpart) ih

theorem neededBlocks_of_ne (h : bringing ≠ .missing) :
    neededBlocks kept written bringing body =
      serials (body.flatMap (kept.writtenElement written)) := by
  unfold neededBlocks askedBlocks
  rw [if_neg h]
  split_ifs with hnil
  · exact hnil.symm
  · rfl

/-- A body brings no more sequential actions than it is asked for. -/
theorem length_serials_body (hkeeps : kept.Keeps written) :
    (serials (body.flatMap (kept.bring bringing))).length ≤
      (neededBlocks kept written bringing body).length := by
  by_cases hmissing : bringing = .missing
  · subst hmissing
    have hnil : body.flatMap (kept.bring .missing) = [] :=
      List.flatMap_eq_nil_iff.mpr fun _ _ => rfl
    rw [hnil]
    exact Nat.zero_le _
  · rw [neededBlocks_of_ne hmissing]
    induction body with
    | nil => exact le_refl _
    | cons element body ih =>
      rw [List.flatMap_cons, List.flatMap_cons, serials_append, serials_append,
        List.length_append, List.length_append]
      exact Nat.add_le_add (length_serials_bring hkeeps) ih

/-- **What a body must be like** whose serial blocks are brought. -/
theorem fine_of_gathers (hkeeps : kept.Keeps written)
    {inner : List (List SequentializableAction)}
    (hbrought : List.Forall₂ F.Gathers (serials (body.flatMap (kept.bring bringing))) inner)
    (hneeded : List.Forall₂ F.Gathers (neededBlocks kept written bringing body) inner) :
    ∀ element ∈ body, Fine kept written bringing element := by
  by_cases hmissing : bringing = .missing
  · subst hmissing
    have hnil : body.flatMap (kept.bring .missing) = [] :=
      List.flatMap_eq_nil_iff.mpr fun _ _ => rfl
    rw [hnil] at hbrought
    cases hbrought
    intro element helement block hblock
    unfold neededBlocks at hneeded
    by_cases hasked : askedBlocks kept written .missing body = []
    · have hall := List.filter_eq_nil_iff.mp hasked block (by
        rw [serials_flatMap]
        exact List.mem_flatMap.mpr ⟨element, helement, hblock⟩)
      exact Bool.eq_false_iff.mpr hall
    · rw [if_neg hasked] at hneeded
      refine absurd ?_ hasked
      unfold askedBlocks
      rw [List.forall₂_nil_right_iff.mp hneeded]
      rfl
  -- what is brought and what is needed are as long, so they agree element by element
  · rw [neededBlocks_of_ne hmissing, serials_flatMap] at hneeded
    rw [serials_flatMap] at hbrought
    have hparts : ∀ p ∈ body.map fun element => (serials (kept.bring bringing element),
          serials (kept.writtenElement written element)),
        ∃ part, List.Forall₂ F.Gathers p.1 part ∧ List.Forall₂ F.Gathers p.2 part :=
      forall₂_parts
        (fun p hp => by
          obtain ⟨element, -, rfl⟩ := List.mem_map.mp hp
          exact length_serials_bring hkeeps)
        (by rw [List.flatMap_map]; exact hbrought) (by rw [List.flatMap_map]; exact hneeded)
    intro element helement
    obtain ⟨part, hleft, hright⟩ := hparts _ (List.mem_map_of_mem helement)
    have hlength := hleft.length_eq.trans hright.length_eq.symm
    cases element with
    | action a =>
      have heq : serials (kept.ofAction a) =
          serials (kept.writtenElement written (.action a)) := by
        cases bringing with
        | missing => exact absurd rfl hmissing
        | plain => exact (serials_ofAction hkeeps a).eq_of_length hlength
        | emptied => exact (serials_ofAction hkeeps a).eq_of_length hlength
      cases bringing with
      | missing => exact absurd rfl hmissing
      | plain => exact heq
      | emptied => exact heq
    | serial actions =>
      cases bringing with
      | missing => exact absurd rfl hmissing
      | plain => trivial
      | emptied =>
        intro hprimitive
        cases hleft with
        | cons hempty _ =>
          cases hempty rfl
          cases hright with
          | cons hgathers _ => exact List.forall₂_nil_right_iff.mp (hgathers hprimitive)

/-- An element that is brought as it is written is in the row. -/
theorem elementKept_of_fine (hkeeps : kept.Keeps written) (hpresent : bringing ≠ .missing)
    (h : F.Shows (kept.bring bringing element) xs) (hfine : Fine kept written bringing element) :
    ElementKept kept written F element xs := by
  cases element with
  | action a =>
    have hshows : F.Shows (kept.ofAction a) xs ∧
        serials (kept.ofAction a) = serials (kept.writtenElement written (.action a)) := by
      cases bringing with
      | missing => exact absurd rfl hpresent
      | plain => exact ⟨h, hfine⟩
      | emptied => exact ⟨h, hfine⟩
    obtain ⟨hshows, heq⟩ := hshows
    simp only [ElementKept]
    by_cases hcalls : kept.calls a = true
    · rw [if_pos hcalls]
      rw [writtenElement_of_calls hcalls] at heq
      exact ⟨_, hshows, heq, fun hne => (ofAction_of_calls hkeeps hcalls).resolve_right hne⟩
    · rw [if_neg hcalls]
      rwa [ofAction_of_not_calls hcalls] at hshows
  | serial actions =>
    cases bringing with
    | missing => exact absurd rfl hpresent
    | plain =>
      have hgathers := Factories.gathers_of_shows h
      cases h with
      | cons hstands hnil =>
        cases hnil
        cases hstands with
        | serial hinner => exact ⟨_, rfl, hinner⟩
    | emptied =>
      cases h with
      | cons hstands hnil =>
        cases hnil
        cases hstands with
        | serial hinner =>
          cases hinner rfl
          refine ⟨[], rfl, fun hprimitive => ?_⟩
          cases hfine hprimitive
          exact .nil

/-- **A body whose serial blocks are brought is in the row.** -/
theorem bodyKept_of_fine (hkeeps : kept.Keeps written)
    (h : F.Shows (body.flatMap (kept.bring bringing)) xs)
    (hfine : ∀ element ∈ body, Fine kept written bringing element) :
    BodyKept kept written F bringing body xs := by
  have hgathers := Factories.gathers_of_shows h
  -- a body that is not brought must not ask for a block
  by_cases hmissing : bringing = .missing
  · subst hmissing
    have hnil : body.flatMap (kept.bring .missing) = [] :=
      List.flatMap_eq_nil_iff.mpr fun _ _ => rfl
    have hasked : askedBlocks kept written .missing body = [] := by
      refine List.filter_eq_nil_iff.mpr fun block hblock => ?_
      rw [serials_flatMap] at hblock
      obtain ⟨element, helement, hblock⟩ := List.mem_flatMap.mp hblock
      exact Bool.eq_false_iff.mp (hfine element helement block hblock)
    unfold BodyKept
    rw [if_pos hasked]
    rw [hnil] at hgathers
    exact List.forall₂_nil_left_iff.mp hgathers
  · unfold BodyKept askedBlocks
    rw [if_neg hmissing]
    by_cases hnone : serials (body.flatMap (kept.writtenElement written)) = []
    · rw [if_pos hnone]
      have hle : (serials (body.flatMap (kept.bring bringing))).length ≤
        (neededBlocks kept written bringing body).length := length_serials_body hkeeps
      rw [neededBlocks_of_ne hmissing, hnone] at hle
      rw [List.length_eq_zero_iff.mp (Nat.le_zero.mp hle)] at hgathers
      exact List.forall₂_nil_left_iff.mp hgathers
    · rw [if_neg hnone]
      obtain ⟨parts, hparts, rfl⟩ := h.parts
      refine ⟨parts, ?_, rfl⟩
      clear hnone hgathers h
      induction hparts with
      | nil => exact .nil
      | @cons element _ body _ hpart _ ih =>
        exact .cons (elementKept_of_fine hkeeps hmissing hpart (hfine element List.mem_cons_self))
          (ih fun other hother => hfine other (List.mem_cons_of_mem _ hother))

/-- The pieces that a row is made of. -/
def RowSource.pieces (kept : MacroPieces) (S : StateStatementContext) (source : RowSource) :
    List Piece :=
  S.body.flatMap (kept.bring source.fromState) ++
    ((S.eventBody source.event).flatMap (kept.bring source.fromEvent) ++
      source.condition.flatMap (kept.bring .plain))

/-- **Which rows are right about their serial blocks.** -/
theorem rowKept_iff (hkeeps : kept.Keeps written) {S : StateStatementContext} {source : RowSource}
    (h : F.Shows (source.pieces kept S) xs) :
    RowKept kept written F S source (keptActions xs) ↔
      (∀ element ∈ S.body, Fine kept written source.fromState element) ∧
        (∀ element ∈ S.eventBody source.event, Fine kept written source.fromEvent element) ∧
        ∀ element ∈ source.condition, Fine kept written .plain element := by
  constructor
  · rintro ⟨us, vs, ws, heq, hus, hvs, hws⟩
    have hinners := congrArg inners heq
    rw [inners_keptActions, inners_keptActions, inners_append, inners_append] at hinners
    have hbrought := Factories.gathers_of_shows h
    unfold RowSource.pieces at hbrought
    rw [hinners, serials_append, serials_append] at hbrought
    have hneeded := List.rel_append (gathers_of_bodyKept hus)
      (List.rel_append (gathers_of_bodyKept hvs) (gathers_of_bodyKept hws))
    -- of no part is more brought than is needed, so in each as much
    have hparts : ∀ p ∈ [(serials (S.body.flatMap (kept.bring source.fromState)),
          neededBlocks kept written source.fromState S.body),
        (serials ((S.eventBody source.event).flatMap (kept.bring source.fromEvent)),
          neededBlocks kept written source.fromEvent (S.eventBody source.event)),
        (serials (source.condition.flatMap (kept.bring .plain)),
          neededBlocks kept written .plain source.condition)],
        ∃ part, List.Forall₂ F.Gathers p.1 part ∧ List.Forall₂ F.Gathers p.2 part :=
      forall₂_parts
        (fun p hp => by
          simp only [List.mem_cons, List.not_mem_nil, or_false] at hp
          rcases hp with rfl | rfl | rfl <;> exact length_serials_body hkeeps)
        (by simpa using hbrought) (by simpa using hneeded)
    refine ⟨?_, ?_, ?_⟩
    · obtain ⟨part, hleft, hright⟩ := hparts _ List.mem_cons_self
      exact fine_of_gathers hkeeps hleft hright
    · obtain ⟨part, hleft, hright⟩ := hparts _ (List.mem_cons_of_mem _ List.mem_cons_self)
      exact fine_of_gathers hkeeps hleft hright
    · obtain ⟨part, hleft, hright⟩ :=
        hparts _ (List.mem_cons_of_mem _ (List.mem_cons_of_mem _ List.mem_cons_self))
      exact fine_of_gathers hkeeps hleft hright
  · rintro ⟨hstate, hevent, hcondition⟩
    obtain ⟨us, rest, rfl, hus, hrest⟩ := h.split
    obtain ⟨vs, ws, rfl, hvs, hws⟩ := hrest.split
    exact ⟨us, vs, ws, rfl, bodyKept_of_fine hkeeps hus hstate, bodyKept_of_fine hkeeps hvs hevent,
      bodyKept_of_fine hkeeps hws hcondition⟩

end Row

/-! ## The rows of a state statement -/

section Statements

variable {kept : MacroPieces} {F : Factories} {S : StateStatementContext}
  {S' : StateStatement ConditionResult} {order : HashOrder Event}

/-- The event statements of a state that is shown have events. -/
theorem evented_of_shows (h : Factories.ShowsState kept F S S') :
    List.Forall₂ (fun p b' => p.1 = b'.event ∧ Factories.ShowsEvent kept F p.2 b')
      S.evented S'.eventStatements := by
  have hevents := h.eventStatements
  unfold StateStatementContext.evented
  generalize S.eventStatements = bs at hevents
  generalize S'.eventStatements = bs' at hevents
  induction hevents with
  | nil => exact .nil
  | @cons b b' bs bs' hb _ ih =>
    rw [List.filterMap_cons, hb.event]
    exact .cons ⟨rfl, hb⟩ ih

theorem eventBody_shows (h : Factories.ShowsState kept F S S') (e : Event) :
    F.Shows ((S.eventBody e).flatMap kept.inEvent) (eventActions S'.eventStatements e) := by
  have hevents := evented_of_shows h
  unfold StateStatementContext.eventBody eventActions
  generalize S.evented = ps at hevents
  generalize S'.eventStatements = bs' at hevents
  induction hevents with
  | nil => exact .nil
  | @cons p b' ps bs' hp _ ih =>
    rw [List.filter_cons, List.filter_cons, hp.1]
    by_cases heq : (b'.event == e) = true
    · rw [if_pos heq, if_pos heq, List.flatMap_cons, List.flatMap_cons, List.flatMap_append]
      exact hp.2.actions.append ih
    · rw [if_neg heq, if_neg heq]
      exact ih

theorem events_eq (h : Factories.ShowsState kept F S S') :
    S.events = eventKeys S'.eventStatements := by
  have hevents := evented_of_shows h
  have hmap : S.evented.map Prod.fst = S'.eventStatements.map (·.event) := by
    generalize S.evented = ps at hevents
    generalize S'.eventStatements = bs' at hevents
    induction hevents with
    | nil => rfl
    | cons hp _ ih => rw [List.map_cons, List.map_cons, hp.1, ih]
  unfold StateStatementContext.events eventKeys
  rw [hmap, List.foldl_map]

/-- **The rows of conditions.** -/
theorem conditionSources_shows (h : Factories.ShowsState kept F S S') :
    List.Forall₂ (fun source r => source.event = r.event ∧ source.fromState = .plain ∧
        source.fromEvent = .emptied ∧ F.Shows (source.condition.flatMap kept.ofElement) r.actions)
      S.conditionSources (rawRows S'.state S'.eventStatements) := by
  have hevents := evented_of_shows h
  unfold StateStatementContext.conditionSources rawRows
  generalize S.evented = ps at hevents
  generalize S'.eventStatements = bs' at hevents
  induction hevents with
  | nil => exact .nil
  | @cons p b' ps bs' hp _ ih =>
    rw [List.flatMap_cons, List.flatMap_cons]
    refine List.rel_append ?_ ih
    have hconditions := hp.2.conditionStatements
    generalize p.2.conditionStatements = cs at hconditions
    generalize b'.conditionStatements = cs' at hconditions
    induction hconditions with
    | nil => exact .nil
    | cons hc _ ih => exact .cons ⟨hp.1, rfl, rfl, hc⟩ ih

theorem all_event_ne (h : Factories.ShowsState kept F S S') (e : Event) :
    (S.conditionSources.all fun r => r.event != e) =
      noRow (rawRows S'.state S'.eventStatements) e := by
  have hsources := conditionSources_shows h
  unfold noRow
  generalize S.conditionSources = sources at hsources
  generalize rawRows S'.state S'.eventStatements = rows at hsources
  induction hsources with
  | nil => rfl
  | cons hsource _ ih => rw [List.all_cons, List.all_cons, hsource.1, ih]

/-- A row that is made for a source, before its transitions are taken out. -/
def MadeFor (kept : MacroPieces) (F : Factories) (S : StateStatementContext) (source : RowSource)
    (r : TableRow ConditionResult) : Prop :=
  F.Shows (source.pieces kept S) r.actions

/-- Nothing is brought of a body that is missing. -/
theorem flatMap_missing (body : List BodyElement) : body.flatMap (kept.bring .missing) = [] :=
  List.flatMap_eq_nil_iff.mpr fun _ _ => rfl

/-- **The rows of a state statement are made for its sources**, one for
one. -/
theorem madeFor_blockRows (h : Factories.ShowsState kept F S S') :
    List.Forall₂ (MadeFor kept F S) (S.sources order) (blockRows order S') := by
  have hconditions := conditionSources_shows h
  unfold StateStatementContext.sources blockRows
  -- the rows of conditions, those of events without one, and that of the state
  refine List.rel_append ?_ (List.rel_append ?_ ?_)
  · rw [List.forall₂_map_right_iff]
    refine hconditions.imp fun source r hsource => ?_
    obtain ⟨hevent, hstate, hemptied, hshows⟩ := hsource
    unfold MadeFor RowSource.pieces
    rw [hstate, hemptied, hevent]
    exact h.actions.append ((eventBody_shows h r.event).append hshows)
  · unfold StateStatementContext.eventSources eventDefaults
    have hfilter : (order.run S.events).filter
        (fun e => S.conditionSources.all fun r => r.event != e) =
        (order.run (eventKeys S'.eventStatements)).filter
          (noRow (rawRows S'.state S'.eventStatements)) := by
      rw [events_eq h]
      exact List.filter_congr fun e _ => all_event_ne h e
    rw [hfilter]
    cases hlast : lastEvent none S'.eventStatements with
    | none =>
      have hnil : S'.eventStatements = [] := by
        unfold lastEvent at hlast
        cases hget : S'.eventStatements.getLast? with
        | none => exact List.getLast?_eq_none_iff.mp hget
        | some b =>
          rw [hget] at hlast
          cases hlast
      have hrun : order.run (eventKeys S'.eventStatements) = [] := by
        rw [hnil]
        exact List.perm_nil.mp (order.perm _)
      rw [hrun]
      exact .nil
    | some last =>
      rw [List.forall₂_map_left_iff, List.forall₂_map_right_iff]
      refine List.forall₂_same.mpr fun e _ => ?_
      unfold MadeFor RowSource.pieces
      rw [flatMap_missing, List.nil_append, List.flatMap_nil, List.append_nil]
      exact eventBody_shows h e
  · unfold StateStatementContext.stateSources stateDefaults
    have hnil : S.conditionSources = [] ↔ rawRows S'.state S'.eventStatements = [] := by
      rw [← List.length_eq_zero_iff, ← List.length_eq_zero_iff, hconditions.length_eq]
    by_cases hraw : rawRows S'.state S'.eventStatements = []
    · rw [if_pos (hnil.mpr hraw), if_pos hraw, List.forall₂_map_left_iff,
        List.forall₂_map_right_iff]
      refine List.forall₂_same.mpr fun e _ => ?_
      unfold MadeFor RowSource.pieces
      rw [flatMap_missing, List.nil_append, List.flatMap_nil, List.append_nil]
      exact h.actions
    · rw [if_neg fun hc => hraw (hnil.mp hc), if_neg hraw]
      exact .nil

end Statements

end Xl

end FlowBlaze

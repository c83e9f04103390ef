import FlowBlaze.Xl.StageRows
/-!
# What a state block means

A state block of the source stands for the rows of its condition
statements, with the actions of the state and of the event in front, and
for one unconditional row where an event has no condition, or the state
no event. The compiler makes up the unconditional rows when the block
closes, and gets them right only for a state without events, and for the
last event of a state some other event of which has conditions.
-/

namespace FlowBlaze

namespace Xl

open Common

variable {κ : Type}

section Meaning

variable (S : StateStatement κ)

/-- A row of the source: it leads to the target of its transition, and
the transition is not among its actions. -/
def sourceRow (e : Event) (conditions : List κ) (acts : List Action) : TableRow κ :=
  ⟨conditions, keptActions acts, S.state, e, targetState S.state acts, .stage255⟩

/-- The event statements of an event. -/
def blocksOn (e : Event) : List (EventStatement κ) :=
  S.eventStatements.filter fun b => b.event == e

/-- The rows of an event statement. -/
def sourceRows (b : EventStatement κ) : List (TableRow κ) :=
  if b.conditionStatements = [] then [sourceRow S b.event [] (S.actions ++ b.actions)]
  else b.conditionStatements.map fun c =>
    sourceRow S b.event c.conditions (S.actions ++ b.actions ++ c.actions)

/-- **The rows of a state for an event**, as the source has them. -/
def expectedRows (e : Event) : List (TableRow κ) :=
  if S.eventStatements = [] then [sourceRow S e [] S.actions]
  else (blocksOn S e).flatMap (sourceRows S)

/-- Two action lists do the same to a row of the state. -/
def SameEffect (acts acts' : List Action) : Prop :=
  keptActions acts = keptActions acts' ∧ targetState S.state acts = targetState S.state acts'

/-- Some event statement of the event has conditions. -/
def HasConditions (e : Event) : Prop := ∃ b ∈ blocksOn S e, b.conditionStatements ≠ []

/-- What an event statement must look like, in a state that has
conditions. One on an event with conditions has some itself, and the
actions of the event's other statements do not matter. One on an event
without is the only one, on the last event, and the state's actions do
not matter. -/
structure BlockConforms (b : EventStatement κ) : Prop where
  conditions : HasConditions S b.event →
    b.conditionStatements ≠ [] ∧ ∀ c ∈ b.conditionStatements,
      SameEffect S (S.actions ++ eventActions S.eventStatements b.event ++ c.actions)
        (S.actions ++ b.actions ++ c.actions)
  unconditional : ¬HasConditions S b.event →
    blocksOn S b.event = [b] ∧ lastEvent none S.eventStatements = some b.event ∧
      SameEffect S b.actions (S.actions ++ b.actions)

/-- The actions of the rows made up for an event of a state without
conditions: one for each event, all under the last, and one for the state. -/
def madeUp (order : HashOrder Event) (e : Event) : List (List Action) :=
  (if lastEvent none S.eventStatements = some e then
    (order.run (eventKeys S.eventStatements)).map (eventActions S.eventStatements) else []) ++
    [S.actions]

/-- **When the block keeps its meaning.** It has no event statements; or
it has conditions and every event statement conforms; or it has none, and
by coincidence the rows made up are those of its event statements, which
takes three statements on the last event and one on the other. -/
def Conforms (order : HashOrder Event) : Prop :=
  S.eventStatements = [] ∨
    ((∃ e, HasConditions S e) ∧ ∀ b ∈ S.eventStatements, BlockConforms S b) ∨
    ((∀ e, ¬HasConditions S e) ∧ ∀ e,
      List.Forall₂ (SameEffect S) (madeUp S order e)
        ((blocksOn S e).map fun b => S.actions ++ b.actions))

/-! ## The rows that are emitted, by event -/

/-- The rows of the condition statements of an event, with these actions
in front. -/
def conditionRows (acts : EventStatement κ → List Action) (e : Event) : List (TableRow κ) :=
  (blocksOn S e).flatMap fun b => b.conditionStatements.map fun c =>
    sourceRow S e c.conditions (acts b ++ c.actions)

/-- The rows made up for events, which are all of the last event. -/
def eventRowsOn (order : HashOrder Event) (e : Event) : List (TableRow κ) :=
  if lastEvent none S.eventStatements = some e then
    ((order.run (eventKeys S.eventStatements)).filter
      (noRow (rawRows S.state S.eventStatements))).map fun f =>
        sourceRow S e [] (eventActions S.eventStatements f)
  else []

/-- The row made up for the state. -/
def stateRowsOn (e : Event) : List (TableRow κ) :=
  if rawRows S.state S.eventStatements = [] then [sourceRow S e [] S.actions] else []

/-- The rows the compiler emits for an event. -/
def emittedRows (order : HashOrder Event) (e : Event) : List (TableRow κ) :=
  conditionRows S (fun b => S.actions ++ eventActions S.eventStatements b.event) e ++
    (eventRowsOn S order e ++ stateRowsOn S e)

variable {S} {order : HashOrder Event} {rows : List (TableRow κ)} {e f : Event}

/-- A row without its transitions. -/
def TableRow.settledForm (r : TableRow κ) : TableRow κ :=
  { r with actions := keptActions r.actions, nextState := targetState r.state r.actions }

theorem eq_map_settledForm {rs : List (TableRow κ)} (hrs : ∀ r ∈ rs, Unsettled r)
    (h : rs.mapM TableRow.settle = some rows) : rows = rs.map TableRow.settledForm := by
  have hall := mapM_eq_some_iff.mp h
  clear h
  induction hall with
  | nil => rfl
  | @cons r r' rs rows hr _ ih =>
    rw [List.map_cons, ← ih fun r hr => hrs r (List.mem_cons_of_mem _ hr)]
    exact congrArg (· :: rows) ((hrs r List.mem_cons_self).settle_eq hr)

theorem filter_conditionRows (A : Event → List Action) (acts : List Action) :
    (((rawRows S.state S.eventStatements).map fun r => (r.prefixed (A r.event)).prefixed acts).map
      TableRow.settledForm).filter (fun r => r.event == e) =
    conditionRows S (fun b => acts ++ A b.event) e := by
  unfold conditionRows blocksOn rawRows
  generalize S.eventStatements = bs
  induction bs with
  | nil => rfl
  | cons b bs ih =>
    rw [List.flatMap_cons, List.map_append, List.map_append, List.filter_append, ih]
    by_cases hb : b.event = e
    · rw [List.filter_cons_of_pos (p := fun b : EventStatement κ => b.event == e)
        (beq_iff_eq.mpr hb),
        List.flatMap_cons, List.filter_eq_self.mpr]
      · simp [hb, sourceRow, TableRow.settledForm, TableRow.prefixed]
      · intro r hr
        simp only [List.mem_map] at hr
        obtain ⟨r, ⟨r', ⟨c, -, rfl⟩, rfl⟩, rfl⟩ := hr
        exact beq_iff_eq.mpr hb
    · rw [List.filter_cons_of_neg (p := fun b : EventStatement κ => b.event == e) fun h =>
        hb (eq_of_beq h),
        List.filter_eq_nil_iff.mpr, List.nil_append]
      intro r hr
      simp only [List.mem_map] at hr
      obtain ⟨r, ⟨r', ⟨c, -, rfl⟩, rfl⟩, rfl⟩ := hr
      exact fun h => hb (eq_of_beq h)

/-- **The rows of a block, by event**, once they are settled. -/
theorem filter_settled (hS : S.NoStage) (h : (blockRows order S).mapM TableRow.settle = some rows) :
    rows.filter (fun r => r.event == e) = emittedRows S order e := by
  rw [eq_map_settledForm (fun r hr => unsettled_of_mem_blockRows hS.1 hS.2 hr) h]
  unfold blockRows emittedRows
  rw [List.map_append, List.map_append, List.filter_append, List.filter_append,
    filter_conditionRows]
  congr 2
  · unfold eventDefaults eventRowsOn
    cases lastEvent none S.eventStatements with
    | none => rfl
    | some last =>
      by_cases hlast : last = e
      · rw [if_pos (congrArg some hlast), List.map_map, List.filter_eq_self.mpr]
        · rw [hlast]
          rfl
        · intro r hr
          obtain ⟨f, -, rfl⟩ := List.mem_map.mp hr
          exact beq_iff_eq.mpr hlast
      · rw [if_neg fun h => hlast (Option.some.inj h), List.map_map, List.filter_eq_nil_iff.mpr]
        intro r hr
        obtain ⟨f, -, rfl⟩ := List.mem_map.mp hr
        exact fun h => hlast (eq_of_beq h)
  · unfold stateDefaults stateRowsOn
    split
    · cases e <;> rfl
    · rfl

/-! ## Comparing rows -/

theorem sourceRow_inj {C C' : List κ} {A A' : List Action} :
    sourceRow S e C A = sourceRow S e C' A' ↔ C = C' ∧ SameEffect S A A' := by
  unfold sourceRow SameEffect
  simp only [TableRow.mk.injEq, true_and, and_true]

theorem mem_blocksOn {b : EventStatement κ} :
    b ∈ blocksOn S e ↔ b ∈ S.eventStatements ∧ b.event = e := by
  unfold blocksOn
  rw [List.mem_filter, beq_iff_eq]

theorem blocksOn_ne_nil : blocksOn S e ≠ [] ↔ e ∈ eventKeys S.eventStatements := by
  rw [mem_eventKeys]
  constructor
  · intro h
    obtain ⟨b, hb⟩ := List.exists_mem_of_ne_nil _ h
    exact ⟨b, mem_blocksOn.mp hb⟩
  · rintro ⟨b, hb⟩
    exact List.ne_nil_of_mem (mem_blocksOn.mpr hb)

/-- An event without rows is one without conditions. -/
theorem noRow_rawRows :
    noRow (rawRows S.state S.eventStatements) f = true ↔ ¬HasConditions S f := by
  unfold noRow HasConditions rawRows
  rw [List.all_eq_true]
  constructor
  · rintro h ⟨b, hb, hne⟩
    obtain ⟨c, hc⟩ := List.exists_mem_of_ne_nil _ hne
    obtain ⟨hmem, hevent⟩ := mem_blocksOn.mp hb
    have hrow := h _ (List.mem_flatMap.mpr ⟨b, hmem, List.mem_map.mpr ⟨c, hc, rfl⟩⟩)
    exact bne_iff_ne.mp hrow hevent
  · intro h r hr
    obtain ⟨b, hb, hr⟩ := List.mem_flatMap.mp hr
    obtain ⟨c, hc, rfl⟩ := List.mem_map.mp hr
    exact bne_iff_ne.mpr fun he =>
      h ⟨b, mem_blocksOn.mpr ⟨hb, he⟩, List.ne_nil_of_mem hc⟩

/-- A state without rows is one without conditions. -/
theorem rawRows_eq_nil :
    rawRows S.state S.eventStatements = [] ↔ ∀ e, ¬HasConditions S e := by
  constructor
  · intro h e
    rw [← noRow_rawRows, h]
    rfl
  · intro h
    refine List.eq_nil_iff_forall_not_mem.mpr fun r hr => ?_
    have hrow := noRow_rawRows.mpr (h r.event)
    unfold noRow at hrow
    exact bne_iff_ne.mp (List.all_eq_true.mp hrow r hr) rfl

/-- The events without rows. -/
theorem mem_filter_noRow :
    f ∈ (order.run (eventKeys S.eventStatements)).filter
      (noRow (rawRows S.state S.eventStatements)) ↔ blocksOn S f ≠ [] ∧ ¬HasConditions S f := by
  rw [List.mem_filter, noRow_rawRows, (order.perm _).mem_iff, blocksOn_ne_nil]

/-! ## The rows with conditions, and those without -/

/-- The conditions of condition statements are there, as the grammar has
it. -/
def Conditioned (S : StateStatement κ) : Prop :=
  ∀ b ∈ S.eventStatements, ∀ c ∈ b.conditionStatements, c.conditions ≠ []

/-- Rows of the source for the event statements without conditions. -/
def unconditionedRows (S : StateStatement κ) (e : Event) : List (TableRow κ) :=
  ((blocksOn S e).filter fun b => b.conditionStatements.isEmpty).map fun b =>
    sourceRow S e [] (S.actions ++ b.actions)

/-- The row has conditions. -/
def conditioned (r : TableRow κ) : Bool := !r.conditionResults.isEmpty

theorem conditioned_of_mem_conditionRows (hC : Conditioned S)
    (acts : EventStatement κ → List Action) {r : TableRow κ} (hr : r ∈ conditionRows S acts e) :
    conditioned r = true := by
  obtain ⟨b, hb, hr⟩ := List.mem_flatMap.mp hr
  obtain ⟨c, hc, rfl⟩ := List.mem_map.mp hr
  have hne := hC b (mem_blocksOn.mp hb).1 c hc
  unfold conditioned sourceRow
  simpa [List.isEmpty_iff] using hne

theorem not_conditioned_of_mem_made {r : TableRow κ}
    (hr : r ∈ eventRowsOn S order e ++ stateRowsOn S e) : conditioned r = false := by
  rcases List.mem_append.mp hr with hr | hr
  · unfold eventRowsOn at hr
    split at hr
    · obtain ⟨f, -, rfl⟩ := List.mem_map.mp hr
      rfl
    · cases hr
  · unfold stateRowsOn at hr
    split at hr
    · rw [List.mem_singleton.mp hr]
      rfl
    · cases hr

theorem emittedRows_filter_conditioned (hC : Conditioned S) :
    (emittedRows S order e).filter conditioned =
      conditionRows S (fun b => S.actions ++ eventActions S.eventStatements b.event) e := by
  unfold emittedRows
  rw [List.filter_append,
    List.filter_eq_self.mpr fun r hr => conditioned_of_mem_conditionRows hC _ hr,
    List.filter_eq_nil_iff.mpr fun r hr => by rw [not_conditioned_of_mem_made hr]; decide,
    List.append_nil]

theorem emittedRows_filter_unconditioned (hC : Conditioned S) :
    (emittedRows S order e).filter (fun r => !conditioned r) =
      eventRowsOn S order e ++ stateRowsOn S e := by
  unfold emittedRows
  rw [List.filter_append,
    List.filter_eq_nil_iff.mpr fun r hr => by rw [conditioned_of_mem_conditionRows hC _ hr]; decide,
    List.filter_eq_self.mpr fun r hr => by rw [not_conditioned_of_mem_made hr]; rfl,
    List.nil_append]

theorem expectedRows_filter_conditioned (hC : Conditioned S) (hS : S.eventStatements ≠ []) :
    (expectedRows S e).filter conditioned =
      conditionRows S (fun b => S.actions ++ b.actions) e := by
  unfold expectedRows conditionRows
  rw [if_neg hS, List.filter_flatMap]
  refine List.flatMap_congr fun b hb => ?_
  obtain ⟨hmem, rfl⟩ := mem_blocksOn.mp hb
  unfold sourceRows
  split
  · next h =>
    rw [h]
    rfl
  · refine List.filter_eq_self.mpr fun r hr => ?_
    exact conditioned_of_mem_conditionRows hC (fun b => S.actions ++ b.actions)
      (List.mem_flatMap.mpr ⟨b, hb, hr⟩)

theorem expectedRows_filter_unconditioned (hC : Conditioned S) (hS : S.eventStatements ≠ []) :
    (expectedRows S e).filter (fun r => !conditioned r) = unconditionedRows S e := by
  unfold expectedRows unconditionedRows
  rw [if_neg hS, List.filter_flatMap]
  have hsub : ∀ b ∈ blocksOn S e, b ∈ S.eventStatements ∧ b.event = e := fun b => mem_blocksOn.mp
  generalize blocksOn S e = bs at hsub
  induction bs with
  | nil => rfl
  | cons b bs ih =>
    obtain ⟨⟨hb, he⟩, hsub⟩ := List.forall_mem_cons.mp hsub
    rw [List.flatMap_cons, ih hsub, List.filter_cons]
    unfold sourceRows
    by_cases h : b.conditionStatements = []
    · rw [if_pos h, h, he]
      rfl
    · rw [if_neg h, if_neg fun hempty => h (List.isEmpty_iff.mp hempty),
        List.filter_eq_nil_iff.mpr, List.nil_append]
      intro r hr
      obtain ⟨c, hc, rfl⟩ := List.mem_map.mp hr
      simpa [conditioned, sourceRow, List.isEmpty_iff] using hC b hb c hc

/-- **When the rows agree**, those with conditions do, and those
without. -/
theorem agree_parts (hC : Conditioned S) (hS : S.eventStatements ≠ [])
    (h : emittedRows S order e = expectedRows S e) :
    conditionRows S (fun b => S.actions ++ eventActions S.eventStatements b.event) e =
        conditionRows S (fun b => S.actions ++ b.actions) e ∧
      eventRowsOn S order e ++ stateRowsOn S e = unconditionedRows S e := by
  rw [← @emittedRows_filter_conditioned κ S order e hC,
    ← emittedRows_filter_unconditioned hC, h, expectedRows_filter_conditioned hC hS,
    expectedRows_filter_unconditioned hC hS]
  exact ⟨rfl, rfl⟩

/-- Rows of condition statements agree when the actions in front do the
same. -/
theorem conditionRows_congr {acts acts' : EventStatement κ → List Action} :
    conditionRows S acts e = conditionRows S acts' e ↔
      ∀ b ∈ blocksOn S e, ∀ c ∈ b.conditionStatements,
        SameEffect S (acts b ++ c.actions) (acts' b ++ c.actions) := by
  unfold conditionRows
  generalize blocksOn S e = bs
  induction bs with
  | nil => simp
  | cons b bs ih =>
    have hlength : (b.conditionStatements.map fun c =>
        sourceRow S e c.conditions (acts b ++ c.actions)).length =
        (b.conditionStatements.map fun c =>
          sourceRow S e c.conditions (acts' b ++ c.actions)).length := by
      rw [List.length_map, List.length_map]
    rw [List.flatMap_cons, List.flatMap_cons, List.forall_mem_cons, ← ih]
    constructor
    · intro h
      obtain ⟨hb, hbs⟩ := List.append_inj h hlength
      refine ⟨fun c hc => ?_, hbs⟩
      exact (sourceRow_inj.mp (List.map_inj_left.mp hb c hc)).2
    · rintro ⟨hb, hbs⟩
      rw [hbs, List.map_congr_left fun c hc => sourceRow_inj.mpr ⟨rfl, hb c hc⟩]

/-! ## A state that has conditions -/

theorem stateRowsOn_eq_nil (hsome : ∃ e, HasConditions S e) : stateRowsOn S e = [] := by
  unfold stateRowsOn
  refine if_neg fun h => ?_
  obtain ⟨f, hf⟩ := hsome
  exact rawRows_eq_nil.mp h f hf

/-- An event without conditions has rows of its own in the source. -/
theorem unconditionedRows_ne_nil (hblocks : blocksOn S f ≠ []) (hf : ¬HasConditions S f) :
    unconditionedRows S f ≠ [] := by
  obtain ⟨b, hb⟩ := List.exists_mem_of_ne_nil _ hblocks
  have hempty : b.conditionStatements = [] := by
    by_contra hne
    exact hf ⟨b, hb, hne⟩
  unfold unconditionedRows
  exact List.ne_nil_of_mem (List.mem_map_of_mem
    (List.mem_filter.mpr ⟨hb, List.isEmpty_iff.mpr hempty⟩))

/-- Rows made up for events are of the last event, and there is an event
to make up for. -/
theorem of_eventRowsOn_ne_nil (h : eventRowsOn S order e ≠ []) :
    lastEvent none S.eventStatements = some e ∧ ∃ f, blocksOn S f ≠ [] ∧ ¬HasConditions S f := by
  unfold eventRowsOn at h
  split at h
  · next hlast =>
    obtain ⟨r, hr⟩ := List.exists_mem_of_ne_nil _ h
    obtain ⟨f, hf, -⟩ := List.mem_map.mp hr
    exact ⟨hlast, f, mem_filter_noRow.mp hf⟩
  · exact absurd rfl h

/-- If every event without conditions is the last one, then there are no
rows made up for an event with conditions. -/
theorem eventRowsOn_of_hasConditions
    (hlast : ∀ f, blocksOn S f ≠ [] → ¬HasConditions S f →
      lastEvent none S.eventStatements = some f)
    (he : HasConditions S e) : eventRowsOn S order e = [] := by
  by_contra hne
  obtain ⟨hlaste, f, hblocks, hf⟩ := of_eventRowsOn_ne_nil hne
  have heq := (hlast f hblocks hf).symm.trans hlaste
  exact hf (Option.some.inj heq ▸ he)

/-- And there is one row made up, for the last event, if that has no
conditions. -/
theorem eventRowsOn_of_last
    (hlast : ∀ f, blocksOn S f ≠ [] → ¬HasConditions S f →
      lastEvent none S.eventStatements = some f)
    (hblocks : blocksOn S e ≠ []) (he : ¬HasConditions S e) :
    eventRowsOn S order e = [sourceRow S e [] (eventActions S.eventStatements e)] := by
  have honly : (order.run (eventKeys S.eventStatements)).filter
      (noRow (rawRows S.state S.eventStatements)) = [e] := by
    refine List.perm_singleton.mp ((List.perm_ext_iff_of_nodup ?_ (List.nodup_singleton e)).mpr ?_)
    · exact ((order.perm _).nodup_iff.mpr nodup_eventKeys).filter _
    · intro f
      rw [mem_filter_noRow, List.mem_singleton]
      constructor
      · rintro ⟨hf, hnf⟩
        exact Option.some.inj ((hlast f hf hnf).symm.trans (hlast e hblocks he))
      · rintro rfl
        exact ⟨hblocks, he⟩
  unfold eventRowsOn
  rw [if_pos (hlast e hblocks he), honly]
  rfl

theorem unconditionedRows_of_not_hasConditions (he : ¬HasConditions S e) :
    unconditionedRows S e =
      (blocksOn S e).map fun b => sourceRow S e [] (S.actions ++ b.actions) := by
  unfold unconditionedRows
  rw [List.filter_eq_self.mpr]
  intro b hb
  refine List.isEmpty_iff.mpr ?_
  by_contra hne
  exact he ⟨b, hb, hne⟩

/-- The event's own actions, if it has one event statement. -/
theorem eventActions_of_blocksOn {b : EventStatement κ} (h : blocksOn S e = [b]) :
    eventActions S.eventStatements e = b.actions := by
  unfold eventActions
  exact (congrArg (List.flatMap EventStatement.actions) h).trans (List.flatMap_singleton _ _)

/-- **From rows to statements**: a state with conditions whose rows agree. -/
theorem blockConforms_of_agree (hC : Conditioned S) (hsome : ∃ e, HasConditions S e)
    (h : ∀ e, emittedRows S order e = expectedRows S e) :
    ∀ b ∈ S.eventStatements, BlockConforms S b := by
  intro b hb
  have hS : S.eventStatements ≠ [] := List.ne_nil_of_mem hb
  have hmade : ∀ e, eventRowsOn S order e = unconditionedRows S e := by
    intro e
    rw [← (agree_parts hC hS (h e)).2, stateRowsOn_eq_nil hsome, List.append_nil]
  have hlast : ∀ f, blocksOn S f ≠ [] → ¬HasConditions S f →
      lastEvent none S.eventStatements = some f := by
    intro f hblocks hf
    refine (@of_eventRowsOn_ne_nil κ S order f ?_).1
    rw [hmade]
    exact unconditionedRows_ne_nil hblocks hf
  have hon : b ∈ blocksOn S b.event := mem_blocksOn.mpr ⟨hb, rfl⟩
  refine ⟨fun he => ⟨?_, ?_⟩, fun he => ?_⟩
  · intro hempty
    have hnone := (hmade b.event).symm.trans (eventRowsOn_of_hasConditions hlast he)
    unfold unconditionedRows at hnone
    refine List.ne_nil_of_mem (List.mem_map_of_mem
      (List.mem_filter.mpr ⟨hon, List.isEmpty_iff.mpr hempty⟩)) hnone
  · exact conditionRows_congr.mp (agree_parts hC hS (h b.event)).1 b hon
  · have hrow := (eventRowsOn_of_last hlast (List.ne_nil_of_mem hon) he).symm.trans
      ((hmade b.event).trans (unconditionedRows_of_not_hasConditions he))
    obtain ⟨b', hb', heq⟩ := List.map_eq_singleton_iff.mp hrow.symm
    have hbb : b = b' := by
      rw [hb'] at hon
      exact List.mem_singleton.mp hon
    subst hbb
    refine ⟨hb', hlast _ (List.ne_nil_of_mem hon) he, ?_⟩
    rw [eventActions_of_blocksOn hb'] at heq
    obtain ⟨-, hkept, htarget⟩ := sourceRow_inj.mp heq
    exact ⟨hkept.symm, htarget.symm⟩

/-- **From statements to rows**: a state with conditions all of whose
event statements conform. -/
theorem agree_of_blockConforms (hsome : ∃ e, HasConditions S e)
    (hall : ∀ b ∈ S.eventStatements, BlockConforms S b) (e : Event) :
    emittedRows S order e = expectedRows S e := by
  have hS : S.eventStatements ≠ [] := by
    obtain ⟨f, b, hb, -⟩ := hsome
    exact List.ne_nil_of_mem (mem_blocksOn.mp hb).1
  have hlast : ∀ f, blocksOn S f ≠ [] → ¬HasConditions S f →
      lastEvent none S.eventStatements = some f := by
    intro f hblocks hf
    obtain ⟨b, hon⟩ := List.exists_mem_of_ne_nil _ hblocks
    obtain ⟨hb, rfl⟩ := mem_blocksOn.mp hon
    exact ((hall b hb).unconditional hf).2.1
  unfold emittedRows expectedRows
  rw [stateRowsOn_eq_nil hsome, List.append_nil, if_neg hS]
  by_cases he : HasConditions S e
  · have hsame : conditionRows S
        (fun b => S.actions ++ eventActions S.eventStatements b.event) e =
        conditionRows S (fun b => S.actions ++ b.actions) e := by
      refine conditionRows_congr.mpr fun b hon c hc => ?_
      obtain ⟨hb, rfl⟩ := mem_blocksOn.mp hon
      exact ((hall b hb).conditions he).2 c hc
    rw [eventRowsOn_of_hasConditions hlast he, List.append_nil, hsame]
    refine List.flatMap_congr fun b hon => ?_
    obtain ⟨hb, rfl⟩ := mem_blocksOn.mp hon
    unfold sourceRows
    rw [if_neg ((hall b hb).conditions he).1]
  · have hnone : conditionRows S
        (fun b => S.actions ++ eventActions S.eventStatements b.event) e = [] := by
      refine List.flatMap_eq_nil_iff.mpr fun b hb => ?_
      refine List.map_eq_nil_iff.mpr ?_
      by_contra hne
      exact he ⟨b, hb, hne⟩
    rw [hnone, List.nil_append]
    cases hblocks : blocksOn S e with
    | nil =>
      unfold eventRowsOn
      rw [List.flatMap_nil]
      refine if_neg fun h => ?_
      unfold lastEvent at h
      rw [Option.or_none] at h
      obtain ⟨b, hb, hbe⟩ := Option.map_eq_some_iff.mp h
      have hmem := mem_blocksOn.mpr ⟨List.mem_of_getLast? hb, hbe⟩
      rw [hblocks] at hmem
      cases hmem
    | cons b bs =>
      have hon : b ∈ blocksOn S e := hblocks ▸ List.mem_cons_self
      obtain ⟨hmem, rfl⟩ := mem_blocksOn.mp hon
      obtain ⟨honly, -, heffect⟩ := (hall b hmem).unconditional he
      have hempty : b.conditionStatements = [] := by
        by_contra hne
        exact he ⟨b, hon, hne⟩
      rw [eventRowsOn_of_last hlast (List.ne_nil_of_mem hon) he, ← hblocks, honly,
        eventActions_of_blocksOn honly, List.flatMap_singleton]
      unfold sourceRows
      rw [if_pos hempty]
      exact congrArg (fun r => [r]) (sourceRow_inj.mpr ⟨rfl, heffect⟩)

/-! ## A state without conditions -/

/-- **A state without conditions**: the rows made up against those of the
event statements. -/
theorem agree_iff_madeUp (hS : S.eventStatements ≠ []) (hnone : ∀ e, ¬HasConditions S e) :
    emittedRows S order e = expectedRows S e ↔
      List.Forall₂ (SameEffect S) (madeUp S order e)
        ((blocksOn S e).map fun b => S.actions ++ b.actions) := by
  have hempty : ∀ b ∈ blocksOn S e, b.conditionStatements = [] := by
    intro b hb
    by_contra hne
    exact hnone e ⟨b, hb, hne⟩
  have hraw := rawRows_eq_nil.mpr hnone
  have hemitted : emittedRows S order e = (madeUp S order e).map (sourceRow S e []) := by
    have hcond : conditionRows S
        (fun b => S.actions ++ eventActions S.eventStatements b.event) e = [] :=
      List.flatMap_eq_nil_iff.mpr fun b hb => List.map_eq_nil_iff.mpr (hempty b hb)
    have hall : (order.run (eventKeys S.eventStatements)).filter
        (noRow (rawRows S.state S.eventStatements)) = order.run (eventKeys S.eventStatements) :=
      List.filter_eq_self.mpr fun f _ => noRow_rawRows.mpr (hnone f)
    unfold emittedRows madeUp eventRowsOn stateRowsOn
    rw [hcond, List.nil_append, if_pos hraw, hall, List.map_append]
    split
    · rw [List.map_map]
      rfl
    · rfl
  have hexpected : expectedRows S e =
      ((blocksOn S e).map fun b => S.actions ++ b.actions).map (sourceRow S e []) := by
    unfold expectedRows
    rw [if_neg hS, List.map_map, List.map_eq_flatMap]
    refine List.flatMap_congr fun b hb => ?_
    obtain ⟨-, rfl⟩ := mem_blocksOn.mp hb
    unfold sourceRows
    rw [if_pos (hempty b hb)]
    rfl
  rw [hemitted, hexpected, ← List.forall₂_eq_eq_eq, List.forall₂_map_left_iff,
    List.forall₂_map_right_iff]
  simp only [sourceRow_inj, true_and]

/-! ## Every state block -/

/-- **A block keeps its meaning exactly when it conforms.** -/
theorem agree_iff_conforms (hC : Conditioned S) :
    (∀ e, emittedRows S order e = expectedRows S e) ↔ Conforms S order := by
  by_cases hS : S.eventStatements = []
  · refine iff_of_true (fun e => ?_) (.inl hS)
    have hblocks : blocksOn S e = [] := by
      unfold blocksOn
      rw [hS]
      rfl
    have hraw : rawRows S.state S.eventStatements = [] := by
      rw [hS]
      rfl
    unfold emittedRows expectedRows conditionRows eventRowsOn stateRowsOn
    rw [hblocks, if_pos hraw, if_pos hS, if_neg]
    · rfl
    · rw [hS]
      exact fun h => by cases h
  · by_cases hsome : ∃ e, HasConditions S e
    · constructor
      · exact fun h => .inr (.inl ⟨hsome, blockConforms_of_agree hC hsome h⟩)
      · rintro (h | ⟨-, h⟩ | ⟨h, -⟩)
        · exact absurd h hS
        · exact agree_of_blockConforms hsome h
        · exact absurd hsome (not_exists.mpr h)
    · have hnone := not_exists.mp hsome
      constructor
      · exact fun h => .inr (.inr ⟨hnone, fun e => (agree_iff_madeUp hS hnone).mp (h e)⟩)
      · rintro (h | ⟨h, -⟩ | ⟨-, h⟩)
        · exact absurd h hS
        · exact absurd h hsome
        · exact fun e => (agree_iff_madeUp hS hnone).mpr (h e)

end Meaning

/-! ## Every stage -/

section Stages

variable (stageName : String) (orders : ℕ → Orders) (blocks : List (StateStatement κ))

/-- **Compilation keeps the meaning of the blocks**: the rows of the
stage are those of its blocks, one part for each, which is there as soon
as the block is closed; and the part of a block holds, for each event,
the rows the source has for it, in order. -/
def PreservesMeaning : Prop :=
  ∃ parts : List (List (TableRow κ)),
    (∀ i ≤ blocks.length,
      compileStage stageName orders (blocks.take i) = some (parts.take i).flatten) ∧
    List.Forall₂ (fun S rows => ∀ e, rows.filter (fun r => r.event == e) = expectedRows S e)
      blocks parts

variable {stageName orders blocks} {table : List (TableRow κ)}

/-- The rows of the first blocks of a stage. -/
theorem compileStage_take {rowss : List (List (TableRow κ))} (hblocks : ∀ S ∈ blocks, S.NoStage)
    (h : blocksRows orders blocks.zipIdx = some rowss) (i : ℕ) :
    compileStage stageName orders (blocks.take i) = some (rowss.take i).flatten := by
  have htake : blocksRows orders (blocks.take i).zipIdx = some (rowss.take i) := by
    have hzip : (blocks.take i).zipIdx = blocks.zipIdx.take i := by
      refine List.ext_getElem? fun n => ?_
      rw [List.getElem?_zipIdx, List.getElem?_take, List.getElem?_take, List.getElem?_zipIdx]
      split <;> rfl
    rw [hzip]
    exact mapM_eq_some_iff.mpr (List.forall₂_take i (mapM_eq_some_iff.mp h))
  rw [compileStage_eq fun S hS => hblocks S (List.mem_of_mem_take hS), htake]
  rfl

/-- Lists of lists with the same prefixes, flattened, are the same. -/
theorem eq_of_take_flatten {α : Type} {xss yss : List (List α)} (hlength : xss.length = yss.length)
    (h : ∀ i ≤ xss.length, (xss.take i).flatten = (yss.take i).flatten) : xss = yss := by
  refine List.ext_getElem hlength fun i hi hi' => ?_
  have hsucc := h (i + 1) hi
  rw [List.take_succ_eq_append_getElem hi, List.take_succ_eq_append_getElem hi',
    List.flatten_append, List.flatten_append, h i (Nat.le_of_lt hi)] at hsucc
  simpa using hsucc

/-- **Every stage, and every state block of it.** The rows of the stage
are those of the source exactly when each block conforms, whatever the
orders in which the hash maps are walked. -/
theorem preservesMeaning_iff (hblocks : ∀ S ∈ blocks, S.NoStage)
    (hC : ∀ S ∈ blocks, Conditioned S) (h : compileStage stageName orders blocks = some table) :
    PreservesMeaning stageName orders blocks ↔
      ∀ i S, blocks[i]? = some S → Conforms S (orders i).event := by
  rw [compileStage_eq hblocks] at h
  obtain ⟨rowss, hrowss, -⟩ := Option.map_eq_some_iff.mp h
  have hall := mapM_eq_some_iff.mp hrowss
  have hlength : blocks.length = rowss.length := by
    rw [← hall.length_eq, List.length_zipIdx]
  have hfilter : ∀ i (hi : i < blocks.length) (hi' : i < rowss.length),
      (∀ e, rowss[i].filter (fun r => r.event == e) = expectedRows blocks[i] e) ↔
        Conforms blocks[i] (orders i).event := by
    intro i hi hi'
    have hmem := List.getElem_mem hi
    have hrows := hall.get (i := i) (by rwa [List.length_zipIdx]) hi'
    simp only [List.get_eq_getElem, List.getElem_zipIdx, Nat.zero_add] at hrows
    rw [← agree_iff_conforms (hC _ hmem)]
    simp only [filter_settled (hblocks _ hmem) hrows]
  constructor
  · rintro ⟨parts, hextend, hparts⟩ i S hS
    obtain rfl : rowss = parts := by
      refine eq_of_take_flatten (hlength.symm.trans hparts.length_eq) fun i hi => ?_
      exact Option.some.inj ((compileStage_take hblocks hrowss i).symm.trans
        (hextend i (hlength ▸ hi)))
    obtain ⟨hi, rfl⟩ := List.getElem?_eq_some_iff.mp hS
    exact (hfilter i hi (hlength ▸ hi)).mp (hparts.get hi (hlength ▸ hi))
  · intro hconforms
    refine ⟨rowss, fun i _ => compileStage_take hblocks hrowss i, ?_⟩
    refine List.forall₂_iff_get.mpr ⟨hlength, fun i hi hi' => ?_⟩
    exact (hfilter i hi hi').mpr (hconforms i _ (List.getElem?_eq_getElem hi))

/-! ## Two stages -/

/-- Hash maps walked in the order of insertion. -/
def insertionOrders (_ : ℕ) : Orders := ⟨⟨id, List.Perm.refl⟩, ⟨id, List.Perm.refl⟩⟩

/-- `state(0) { on(xtraPktRcvd) { if(c) { setNextState(1) } } }` -/
def counting : StateStatement ℕ := ⟨0, [], [⟨.xtraPktRcvd, [], [⟨[7], [.stateTransition 1]⟩]⟩]⟩

/-- The stage of that block is compiled as it should. -/
theorem preservesMeaning_counting : PreservesMeaning "counter" insertionOrders [counting] := by
  have hconforms : Conforms counting (insertionOrders 0).event := by
    refine .inr (.inl ⟨⟨.xtraPktRcvd, _, List.mem_cons_self, List.cons_ne_nil _ _⟩, ?_⟩)
    refine fun b hb => ⟨fun _ => ⟨?_, ?_⟩, fun h => ?_⟩ <;> obtain rfl := List.mem_singleton.mp hb
    · exact List.cons_ne_nil _ _
    · exact fun c _ => ⟨rfl, rfl⟩
    · exact absurd ⟨_, List.mem_cons_self, List.cons_ne_nil _ _⟩ h
  have htable : compileStage "counter" insertionOrders [counting] =
      some [⟨[7], [], 0, .xtraPktRcvd, 1, .stage255⟩] := rfl
  refine (preservesMeaning_iff ?_ ?_ htable).mpr fun i S hS => ?_
  · simp [counting, StateStatement.NoStage, NoStage]
  · simp [counting, Conditioned]
  · obtain ⟨rfl, rfl⟩ : i = 0 ∧ S = counting := by
      cases i with
      | zero => exact ⟨rfl, (Option.some.inj hS).symm⟩
      | succ i => cases hS
    exact hconforms

/-- `state(0) { on(xtraPktRcvd) { setNextState(1) } }` -/
def unconditional : StateStatement ℕ := ⟨0, [], [⟨.xtraPktRcvd, [.stateTransition 1], []⟩]⟩

/-- **A state whose only event has no condition** gets, besides its row,
one unconditional row for each event. -/
theorem not_preservesMeaning :
    ¬PreservesMeaning "counter" insertionOrders [unconditional] := by
  have htable : compileStage "counter" insertionOrders [unconditional] = some
      [⟨[], [], 0, .xtraPktRcvd, 1, .stage255⟩, ⟨[], [], 0, .xtraPktRcvd, 0, .stage255⟩,
        ⟨[], [], 0, .xtraTimeout, 0, .stage255⟩] := rfl
  rintro ⟨parts, hextend, hparts⟩
  obtain ⟨rows, _, hrows, hnil, rfl⟩ := List.forall₂_cons_left_iff.mp hparts
  cases hnil
  have hflat := htable.symm.trans (hextend 1 (Nat.le_refl 1))
  rw [List.take_succ_cons, List.take_nil, List.flatten_singleton] at hflat
  have htimeout := hrows .xtraTimeout
  rw [← Option.some.inj hflat] at htimeout
  revert htimeout
  decide

end Stages

end Xl

end FlowBlaze

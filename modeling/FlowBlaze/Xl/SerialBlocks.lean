import FlowBlaze.Xl.ClosedStages
/-!
# Serial blocks in pieces

What a body is made of stands for actions, and the serial blocks of it for
the sequential actions among them, one for one. The macro actions that the
compiler keeps have fewer of them than those that are written: a call in a
macro action's body brings nothing, and a serial block in a stage's body
takes the place of a macro action.
-/

namespace FlowBlaze

namespace Xl

open Common

/-! ## The serial blocks of pieces -/

/-- A serial block: whether all of its actions are primitive, and these. -/
abbrev SerialBlock := Bool × List ActionContext

/-- The serial block that a piece is. -/
def Piece.block : Piece → Option SerialBlock
  | .action _ => none
  | .serial primitive actions => some (primitive, actions)

/-- **The serial blocks** of pieces, in order. -/
def serials (ps : List Piece) : List SerialBlock := ps.filterMap Piece.block

/-- The inner list of a sequential action. -/
def Action.inner : Action → Option (List SequentializableAction)
  | .sequentialActions inner => some inner
  | _ => none

/-- **The inner lists** of the sequential actions, in order. -/
def inners (acts : List Action) : List (List SequentializableAction) :=
  acts.filterMap Action.inner

section Append

variable {ps qs : List Piece} {xs ys : List Action}

theorem serials_append : serials (ps ++ qs) = serials ps ++ serials qs := List.filterMap_append

theorem inners_append : inners (xs ++ ys) = inners xs ++ inners ys := List.filterMap_append

theorem serials_flatMap {α : Type} (f : α → List Piece) (as : List α) :
    serials (as.flatMap f) = as.flatMap fun a => serials (f a) := by
  unfold serials
  rw [List.filterMap_flatMap]

/-- The transitions that are taken out of a row are no sequential actions. -/
theorem inners_keptActions : inners (keptActions xs) = inners xs := by
  unfold inners keptActions
  rw [List.filterMap_filter]
  refine List.filterMap_congr fun x _ => ?_
  cases x <;> rfl

end Append

namespace Factories

variable {F : Factories} {ps qs : List Piece} {xs : List Action}

/-- **What a serial block should bring**: if its actions are primitive, then
exactly these. -/
def Gathers (F : Factories) (block : SerialBlock) (inner : List SequentializableAction) : Prop :=
  block.1 = true → List.Forall₂ (fun a x => Means F a (.sequentializable x)) block.2 inner

/-- **The sequential actions are those of the serial blocks.** -/
theorem gathers_of_shows (h : Shows F ps xs) :
    List.Forall₂ (Gathers F) (serials ps) (inners xs) := by
  induction h with
  | nil => exact .nil
  | @cons p ps xs ys hp _ ih =>
    rw [inners_append, ← List.singleton_append, serials_append]
    refine List.rel_append ?_ ih
    cases hp with
    | @action a x hx =>
      unfold Means Resolves at hx
      cases x with
      | sequentialActions inner =>
        exfalso
        cases a with
        | assignment identifier expr =>
          obtain ⟨y, hy, hcases⟩ := Option.map_eq_some_iff.mp hx
          cases hcases
          obtain ⟨_, -, hy⟩ := Option.bind_eq_some_iff.mp hy
          obtain ⟨_, -, hy⟩ := Option.map_eq_some_iff.mp hy
          cases hy
        | call id terms =>
          rcases exitCall_cases hx with ⟨_, -, -, h, -⟩ | ⟨_, _, -, -, h, -⟩ | ⟨-, h, -⟩ |
            ⟨_, -, -, h, -⟩ | ⟨_, -, -, h, -⟩ | ⟨_, _, -, -, -, h, -⟩ <;> cases h
      | sequentializable action => exact .nil
      | stateTransition state => exact .nil
      | stageTransition stage => exact .nil
    | key _ => exact .nil
    | serial hinner => exact .cons hinner .nil

/-- Pieces of two parts show two parts. -/
theorem Shows.split (h : Shows F (ps ++ qs) xs) :
    ∃ ys zs, xs = ys ++ zs ∧ Shows F ps ys ∧ Shows F qs zs := by
  induction ps generalizing xs with
  | nil => exact ⟨[], xs, rfl, .nil, h⟩
  | cons p ps ih =>
    cases h with
    | @cons _ _ us vs hp hrest =>
      obtain ⟨ys, zs, rfl, hys, hzs⟩ := ih hrest
      exact ⟨us ++ ys, zs, (List.append_assoc us ys zs).symm, .cons hp hys, hzs⟩

/-- Pieces of elements show a part for each. -/
theorem Shows.parts {α : Type} {f : α → List Piece} {as : List α} (h : Shows F (as.flatMap f) xs) :
    ∃ parts, List.Forall₂ (fun a part => Shows F (f a) part) as parts ∧ xs = parts.flatten := by
  induction as generalizing xs with
  | nil =>
    cases h
    exact ⟨[], .nil, rfl⟩
  | cons a as ih =>
    rw [List.flatMap_cons] at h
    obtain ⟨ys, zs, rfl, hys, hzs⟩ := h.split
    obtain ⟨parts, hparts, rfl⟩ := ih hzs
    exact ⟨ys :: parts, .cons hys hparts, rfl⟩

end Factories

/-! ## Parts that are no longer -/

/-- **Two lists of parts for the same list**, of which each part of one is no
longer than that of the other: then the parts are parts of the same. -/
theorem forall₂_parts {α β : Type} {G : α → β → Prop} {pairs : List (List α × List α)} {bs : List β}
    (hle : ∀ p ∈ pairs, p.1.length ≤ p.2.length)
    (h₁ : List.Forall₂ G (pairs.flatMap Prod.fst) bs)
    (h₂ : List.Forall₂ G (pairs.flatMap Prod.snd) bs) :
    ∀ p ∈ pairs, ∃ part, List.Forall₂ G p.1 part ∧ List.Forall₂ G p.2 part := by
  have htotal : ∀ pairs : List (List α × List α), (∀ p ∈ pairs, p.1.length ≤ p.2.length) →
      (pairs.flatMap Prod.fst).length ≤ (pairs.flatMap Prod.snd).length := fun pairs hle => by
    induction pairs with
    | nil => exact le_refl _
    | cons p pairs ih =>
      rw [List.flatMap_cons, List.flatMap_cons, List.length_append, List.length_append]
      have := hle p List.mem_cons_self
      have := ih fun q hq => hle q (List.mem_cons_of_mem _ hq)
      omega
  induction pairs generalizing bs with
  | nil => exact fun p hp => by cases hp
  | cons p pairs ih =>
    have hfirst := hle p List.mem_cons_self
    have hrest : ∀ q ∈ pairs, q.1.length ≤ q.2.length :=
      fun q hq => hle q (List.mem_cons_of_mem _ hq)
    rw [List.flatMap_cons] at h₁ h₂
    have hlen₁ := h₁.length_eq
    have hlen₂ := h₂.length_eq
    rw [List.length_append] at hlen₁ hlen₂
    have hless := htotal pairs hrest
    have heq : p.1.length = p.2.length := by omega
    have htake₁ := List.forall₂_take p.1.length h₁
    have htake₂ := List.forall₂_take p.1.length h₂
    have hdrop₁ := List.forall₂_drop p.1.length h₁
    have hdrop₂ := List.forall₂_drop p.1.length h₂
    rw [List.take_left] at htake₁
    rw [List.drop_left] at hdrop₁
    rw [List.take_left' heq.symm] at htake₂
    rw [List.drop_left' heq.symm] at hdrop₂
    rw [List.forall_mem_cons]
    exact ⟨⟨_, htake₁, htake₂⟩, ih hrest hdrop₁ hdrop₂⟩

/-! ## Macro actions as they are written -/

/-- **The macro actions of a stage, as they are written**: a call brings what
the macro action that it calls has. -/
def StageStatementContext.writtenMacros (T : StageStatementContext) : MacroPieces :=
  T.definitions.foldl (MacroPieces.definition MacroPieces.ofElement) fun _ => none

namespace MacroPieces

variable {kept written : MacroPieces}

/-- What a call brings, as it is written. -/
def calledPieces (written : MacroPieces) : ActionContext → List Piece
  | .call id _ => (written (some id)).getD []
  | .assignment _ _ => []

/-- **The pieces of an element of a body, as it is written.** -/
def writtenElement (kept written : MacroPieces) : BodyElement → List Piece
  | .action a => if kept.calls a then written.calledPieces a else [.action a]
  | .serial actions => [.serial (actions.all kept.primitive) actions]

/-- The same macro actions, of which one side keeps fewer pieces. -/
def Fewer (kept written : MacroPieces) : Prop :=
  ∀ name, Option.Rel List.Sublist (kept name) (written name)

/-- The macro actions of a stage: each keeps fewer pieces, or has no serial
block. -/
def Keeps (kept written : MacroPieces) : Prop :=
  ∀ name pieces, kept name = some pieces →
    pieces.Sublist ((written name).getD []) ∨ serials pieces = []

theorem Fewer.isSome (h : Fewer kept written) (name : Option String) :
    (kept name).isSome = (written name).isSome := by
  have hrel := h name
  cases hk : kept name <;> cases hw : written name <;> rw [hk, hw] at hrel
  · cases hrel
  · cases hrel
  · rfl

/-- The elements of a macro action's body. -/
theorem Fewer.element (h : Fewer kept written) (element : BodyElement) :
    (kept.stored element).Sublist (written.ofElement element) := by
  have hisSome := h.isSome
  cases element with
  | action a =>
    cases a with
    | assignment identifier expr => exact List.Sublist.refl _
    | call id terms =>
      simp only [stored, ofElement, ofAction]
      by_cases hcalled : kept.calls (.call id terms) = true
      · rw [if_pos hcalled]
        exact List.nil_sublist _
      · rw [if_neg hcalled]
        by_cases hreserved : reserved id = true
        · rw [if_pos hreserved]
        · simp only [calls] at hcalled
          rw [hisSome] at hcalled
          have hnone : written (some id) = none := by
            simpa [Bool.eq_false_iff.mpr hreserved] using hcalled
          rw [if_neg hreserved, hnone]
          exact List.Sublist.refl _
  | serial actions =>
    have hprimitive : kept.primitive = written.primitive := by
      funext a
      cases a with
      | assignment identifier expr => rfl
      | call id terms =>
        simp only [primitive]
        rw [← Option.not_isSome, ← Option.not_isSome, hisSome]
    simp only [stored, ofElement, hprimitive]
    exact List.Sublist.refl _

theorem Fewer.update (h : Fewer kept written) {name : Option String} {ps qs : List Piece}
    (hps : ps.Sublist qs) :
    Fewer (Function.update kept name (some ps)) (Function.update written name (some qs)) := by
  intro other
  by_cases hne : other = name
  · rw [hne, Function.update_self, Function.update_self]
    exact .some hps
  · rw [Function.update_of_ne hne, Function.update_of_ne hne]
    exact h other

theorem Fewer.define (h : Fewer kept written) (name : Option String) (body : List BodyElement) :
    Fewer (kept.define stored name body) (written.define ofElement name body) := by
  refine h.update ?_
  have hstart : Fewer (Function.update kept name (some []))
      (Function.update written name (some [])) :=
    h.update (List.Sublist.refl [])
  induction body with
  | nil => exact List.Sublist.refl _
  | cons element body ih =>
    rw [List.flatMap_cons, List.flatMap_cons]
    exact (hstart.element element).append ih

theorem Fewer.definitions (h : Fewer kept written) (definitions : List Definition) :
    Fewer (definitions.foldl (definition stored) kept)
      (definitions.foldl (definition ofElement) written) := by
  induction definitions generalizing kept written with
  | nil => exact h
  | cons d definitions ih =>
    refine ih ?_
    cases d with
    | macroAction identifier body => exact h.define _ body
    | register global identifiers => exact h
    | customEvent conditions => exact h

theorem Fewer.keeps (h : Fewer kept written) : Keeps kept written := by
  intro name pieces hname
  have hrel := h name
  rw [hname] at hrel
  cases hw : written name with
  | none =>
    rw [hw] at hrel
    cases hrel
  | some written =>
    rw [hw] at hrel
    cases hrel with
    | some hsub => exact .inl hsub

/-- A serial block of the stage's body leaves a macro action without one. -/
theorem Keeps.stageBody (h : Keeps kept written) (current : Option String)
    (body : List BodyElement) :
    Keeps (body.foldl (stageElement stored current) kept) written := by
  induction body generalizing kept with
  | nil => exact h
  | cons element body ih =>
    refine ih ?_
    cases element with
    | action a => exact h
    | serial actions =>
      intro name pieces hname
      have hdefine : Function.update kept current _ name = some pieces := hname
      by_cases hne : name = current
      · rw [hne, Function.update_self] at hdefine
        cases hdefine
        refine .inr ?_
        rw [serials_flatMap]
        refine List.flatMap_eq_nil_iff.mpr fun element helement => ?_
        obtain ⟨a, -, rfl⟩ := List.mem_map.mp helement
        simp only [stored]
        split_ifs <;> rfl
      · rw [Function.update_of_ne hne] at hdefine
        exact h name pieces hdefine

end MacroPieces

/-- **What the compiler keeps of a stage's macro actions**, beside what is
written. -/
theorem StageStatementContext.keeps_macroPieces (T : StageStatementContext)
    (current : Option String) :
    (T.macroPieces MacroPieces.stored current).Keeps T.writtenMacros := by
  refine MacroPieces.Keeps.stageBody (MacroPieces.Fewer.keeps ?_) _ _
  exact MacroPieces.Fewer.definitions (fun _ => .none) _

end Xl

end FlowBlaze

import Mathlib.Data.List.Basic
/-!
# Passing a state along a list

`thread` maps a list while a state is passed from one element to the
next. A loop over one large state is a `thread` over a part of it and a
loop over the rest, when each of its steps is.
-/

namespace FlowBlaze

namespace Common

variable {σ τ α β X : Type}

/-- **Map a list, passing a state along.** -/
def thread (f : σ → α → Option (β × σ)) : σ → List α → Option (List β × σ)
  | s, [] => some ([], s)
  | s, a :: as => (f s a).bind fun (b, s) => (thread f s as).map fun (bs, s) => (b :: bs, s)

variable {f : σ → α → Option (β × σ)} {g : τ → β → Option τ} {s s' : σ} {t : τ}

theorem thread_cons {a : α} {as : List α} {ys : List β} :
    thread f s (a :: as) = some (ys, s') ↔
      ∃ b u bs, f s a = some (b, u) ∧ thread f u as = some (bs, s') ∧ ys = b :: bs := by
  constructor
  · intro h
    obtain ⟨⟨b, u⟩, hb, h⟩ := Option.bind_eq_some_iff.mp h
    obtain ⟨⟨bs, s''⟩, hbs, h⟩ := Option.map_eq_some_iff.mp h
    cases h
    exact ⟨b, u, bs, hb, hbs, rfl⟩
  · rintro ⟨b, u, bs, hb, hbs, rfl⟩
    rw [thread, hb, Option.bind_some]
    simp only [hbs, Option.map_some]

theorem thread_append {as as' : List α} :
    thread f s (as ++ as') =
      (thread f s as).bind fun (bs, u) => (thread f u as').map fun (bs', u) => (bs ++ bs', u) := by
  induction as generalizing s with
  | nil =>
    rw [List.nil_append, thread, Option.bind_some]
    exact Option.map_id'.symm
  | cons a as ih =>
    rw [List.cons_append, thread, thread]
    cases f s a with
    | none => rfl
    | some bu =>
      simp only [Option.bind_some, ih]
      cases thread f bu.2 as with
      | none => rfl
      | some x =>
        simp only [Option.bind_some, Option.map_some]
        cases thread f x.2 as' <;> rfl

/-- What every step keeps, the thread keeps. -/
theorem thread_invariant {I : σ → Prop}
    (hstep : ∀ s a b s', I s → f s a = some (b, s') → I s') {as : List α} {bs : List β}
    (hs : I s) (h : thread f s as = some (bs, s')) : I s' := by
  induction as generalizing s bs with
  | nil =>
    cases h
    exact hs
  | cons a as ih =>
    obtain ⟨b, u, bs, hb, hbs, rfl⟩ := thread_cons.mp h
    exact ih (hstep s a b u hs hb) hbs

/-- A thread that meets a step it cannot make ends. -/
theorem thread_eq_none {I : σ → Prop}
    (hstep : ∀ s a b s', I s → f s a = some (b, s') → I s') {as : List α} {a : α} (ha : a ∈ as)
    (hnone : ∀ s, I s → f s a = none) (hs : I s) : thread f s as = none := by
  induction as generalizing s with
  | nil => cases ha
  | cons c as ih =>
    rw [thread]
    cases hc : f s c with
    | none => rfl
    | some x =>
      rcases List.mem_cons.mp ha with rfl | ha
      · rw [hnone s hs] at hc
        cases hc
      · simp only [Option.bind_some, ih ha (hstep s c x.1 x.2 hs hc), Option.map_none]

/-- What every step of a loop keeps, the loop keeps. -/
theorem foldlM_invariant {step : X → α → Option X} {I : X → Prop}
    (hstep : ∀ x a y, I x → step x a = some y → I y) {l : List α} {x y : X} (hx : I x)
    (h : l.foldlM step x = some y) : I y := by
  induction l generalizing x with
  | nil =>
    cases h
    exact hx
  | cons a l ih =>
    rw [List.foldlM_cons, Option.bind_eq_bind, Option.bind_eq_some_iff] at h
    obtain ⟨z, hz, h⟩ := h
    exact ih (hstep x a z hx hz) h

/-- A loop that meets a step it cannot make ends. -/
theorem foldlM_eq_none {step : X → α → Option X} {I : X → Prop}
    (hstep : ∀ x a y, I x → step x a = some y → I y) {l : List α} {a : α} (ha : a ∈ l)
    (hnone : ∀ x, I x → step x a = none) {x : X} (hx : I x) : l.foldlM step x = none := by
  induction l generalizing x with
  | nil => cases ha
  | cons c l ih =>
    rw [List.foldlM_cons]
    cases hc : step x c with
    | none => rfl
    | some y =>
      rcases List.mem_cons.mp ha with rfl | ha
      · rw [hnone x hx] at hc
        cases hc
      · exact ih ha (hstep x c y hx hc)

/-- A loop over a part of a state. -/
theorem foldlM_map_emb {step : X → β → Option X} {emb : τ → X} {I : τ → Prop}
    (hstep : ∀ t b, I t → step (emb t) b = (g t b).map emb)
    (hinv : ∀ t b t', I t → g t b = some t' → I t') (l : List β) (ht : I t) :
    l.foldlM step (emb t) = (l.foldlM g t).map emb := by
  induction l generalizing t with
  | nil => rfl
  | cons b l ih =>
    rw [List.foldlM_cons, List.foldlM_cons, hstep t b ht]
    cases hb : g t b with
    | none => rfl
    | some t' => exact ih (hinv t b t' ht hb)

/-! ## Two runs side by side -/

section Rel

variable {γ γ' δ δ' σ' α' : Type} {P : γ → γ' → Prop} {Q : δ → δ' → Prop} {R : σ → σ' → Prop}

/-- Related steps after related results. -/
theorem rel_bind {x : Option γ} {y : Option γ'} {k : γ → Option δ} {k' : γ' → Option δ'}
    (h : Option.Rel P x y) (hk : ∀ a b, P a b → Option.Rel Q (k a) (k' b)) :
    Option.Rel Q (x.bind k) (y.bind k') := by
  cases h with
  | none => exact .none
  | some hab => exact hk _ _ hab

theorem rel_mono {P' : γ → γ' → Prop} {x : Option γ} {y : Option γ'} (h : Option.Rel P x y)
    (hP : ∀ a b, P a b → P' a b) : Option.Rel P' x y := by
  cases h with
  | none => exact .none
  | some hab => exact .some (hP _ _ hab)

theorem rel_map {x : Option γ} {y : Option γ'} {k : γ → δ} {k' : γ' → δ'}
    (h : Option.Rel P x y) (hk : ∀ a b, P a b → Q (k a) (k' b)) :
    Option.Rel Q (x.map k) (y.map k') := by
  cases h with
  | none => exact .none
  | some hab => exact .some (hk _ _ hab)

/-- What is related is what the two gave. -/
theorem rel_mem {x : Option γ} {y : Option γ'} (h : Option.Rel P x y) :
    Option.Rel (fun a b => P a b ∧ x = some a ∧ y = some b) x y := by
  cases h with
  | none => exact .none
  | some hab => exact .some ⟨hab, rfl, rfl⟩

/-- Steps that do not tell related results apart. -/
theorem bind_eq_of_rel {x : Option γ} {y : Option γ'} {k : γ → Option δ} {k' : γ' → Option δ}
    (h : Option.Rel P x y) (hk : ∀ a b, P a b → k a = k' b) : x.bind k = y.bind k' := by
  cases h with
  | none => rfl
  | some hab => exact hk _ _ hab

/-- **Two loops over a list and its image** keep a relation that every two
steps keep. -/
theorem foldlM_rel {f : σ → α → Option σ} {f' : σ' → α' → Option σ'} {e : α → α'} {l : List α}
    (hstep : ∀ a ∈ l, ∀ s s', R s s' → Option.Rel R (f s a) (f' s' (e a))) {s : σ} {s' : σ'}
    (h : R s s') : Option.Rel R (l.foldlM f s) ((l.map e).foldlM f' s') := by
  induction l generalizing s s' with
  | nil => exact .some h
  | cons a l ih =>
    rw [List.map_cons, List.foldlM_cons, List.foldlM_cons]
    exact rel_bind (hstep a List.mem_cons_self s s' h) fun t t' ht =>
      ih (fun b hb => hstep b (List.mem_cons_of_mem _ hb)) ht

/-- The same, where an element is replaced by several. -/
theorem foldlM_rel_flatMap {f : σ → α → Option σ} {f' : σ' → α' → Option σ'} {e : α → List α'}
    {l : List α}
    (hstep : ∀ a ∈ l, ∀ s s', R s s' → Option.Rel R (f s a) ((e a).foldlM f' s')) {s : σ} {s' : σ'}
    (h : R s s') : Option.Rel R (l.foldlM f s) ((l.flatMap e).foldlM f' s') := by
  induction l generalizing s s' with
  | nil => exact .some h
  | cons a l ih =>
    rw [List.flatMap_cons, List.foldlM_cons, List.foldlM_append]
    exact rel_bind (hstep a List.mem_cons_self s s' h) fun t t' ht =>
      ih (fun b hb => hstep b (List.mem_cons_of_mem _ hb)) ht

/-- **Two threads over a list and its image.** -/
theorem thread_rel {f : σ → α → Option (β × σ)} {f' : σ' → α' → Option (β × σ')} {e : α → α'}
    {l : List α} (hstep : ∀ a ∈ l, ∀ s s', R s s' →
      Option.Rel (fun x y => x.1 = y.1 ∧ R x.2 y.2) (f s a) (f' s' (e a))) {s : σ} {s' : σ'}
    (h : R s s') : Option.Rel (fun x y => x.1 = y.1 ∧ R x.2 y.2)
      (thread f s l) (thread f' s' (l.map e)) := by
  induction l generalizing s s' with
  | nil => exact .some ⟨rfl, h⟩
  | cons a l ih =>
    rw [List.map_cons, thread, thread]
    refine rel_bind (hstep a List.mem_cons_self s s' h) fun x y hxy => ?_
    refine rel_map (ih (fun b hb => hstep b (List.mem_cons_of_mem _ hb)) hxy.2) fun u v huv => ?_
    exact ⟨congrArg₂ List.cons hxy.1 huv.1, huv.2⟩

/-- **Two threads, where an element is replaced by several** that bring
together what it brings. -/
theorem thread_rel_flatMap {f : σ → α → Option (List β × σ)}
    {f' : σ' → α' → Option (List β × σ')} {e : α → List α'} {l : List α}
    (hstep : ∀ a ∈ l, ∀ s s', R s s' → Option.Rel (fun x y => x.1 = y.1.flatten ∧ R x.2 y.2)
      (f s a) (thread f' s' (e a))) {s : σ} {s' : σ'} (h : R s s') :
    Option.Rel (fun x y => x.1.flatten = y.1.flatten ∧ R x.2 y.2)
      (thread f s l) (thread f' s' (l.flatMap e)) := by
  induction l generalizing s s' with
  | nil => exact .some ⟨rfl, h⟩
  | cons a l ih =>
    rw [List.flatMap_cons, thread, thread_append]
    refine rel_bind (hstep a List.mem_cons_self s s' h) fun x y hxy => ?_
    refine rel_map (ih (fun b hb => hstep b (List.mem_cons_of_mem _ hb)) hxy.2) fun u v huv => ?_
    refine ⟨?_, huv.2⟩
    rw [List.flatten_cons, List.flatten_append, hxy.1, huv.1]

end Rel

/-! ## Steps over two parts of a state -/

/-- **A step over two parts of a state**: the first part alone decides what
the second is given. -/
def Splits (emb : σ → τ → X) (I : τ → Prop) (step : X → Option X)
    (f : σ → Option (β × σ)) (g : τ → β → Option τ) : Prop :=
  ∀ s t, I t → step (emb s t) = (f s).bind fun (b, s') => (g t b).map (emb s')

variable {γ : Type} {emb : σ → τ → X} {I I' : τ → Prop}

/-- A step over the second part only. -/
theorem Splits.right {step : X → Option X} {g : τ → Option τ}
    (h : ∀ s t, I t → step (emb s t) = (g t).map (emb s)) :
    Splits emb I step (fun s => some ((), s)) fun t _ => g t :=
  fun s t ht => h s t ht

/-- One step after another. -/
theorem Splits.bind {step step' : X → Option X} {f : σ → Option (β × σ)}
    {f' : σ → Option (γ × σ)} {g : τ → β → Option τ} {g' : τ → γ → Option τ}
    (h : Splits emb I step f g) (h' : Splits emb I' step' f' g')
    (hinv : ∀ t b t', I t → g t b = some t' → I' t') :
    Splits emb I (fun x => (step x).bind step')
      (fun s => (f s).bind fun (b, s) => (f' s).map fun (c, s) => ((b, c), s))
      fun t bc => (g t bc.1).bind fun t => g' t bc.2 := by
  intro s t ht
  simp only [h s t ht]
  cases f s with
  | none => rfl
  | some x =>
    obtain ⟨b, s'⟩ := x
    simp only [Option.bind_some, Option.bind_map]
    cases hb : g t b with
    | none => cases f' s' <;> simp [hb]
    | some t' =>
      have hstep := h' s' t' (hinv t b t' ht hb)
      simp only [Option.bind_some, Function.comp_apply, hstep]
      cases f' s' with
      | none => rfl
      | some y => simp [hb]

/-- What the second part is given, packed otherwise. -/
theorem Splits.map {step : X → Option X} {f : σ → Option (β × σ)} {f' : σ → Option (γ × σ)}
    {g : τ → β → Option τ} {g' : τ → γ → Option τ} (h : Splits emb I step f g) (k : β → γ)
    (hf : ∀ s, f' s = (f s).map fun (b, s) => (k b, s))
    (hg : ∀ t b, I t → g' t (k b) = g t b) : Splits emb I step f' g' := by
  intro s t ht
  rw [h s t ht, hf s]
  cases f s with
  | none => rfl
  | some x =>
    obtain ⟨b, s'⟩ := x
    simp only [Option.bind_some, Option.map_some, hg t b ht]

/-- A third part, which the step leaves. -/
theorem Splits.frame {ρ : Type} {emb : ρ → σ → τ → X} {step : X → Option X}
    {f : σ → Option (β × σ)} {g : τ → β → Option τ} (h : ∀ r, Splits (emb r) I step f g) :
    Splits (fun s tr => emb tr.2 s tr.1) (fun tr => I tr.1) step f
      fun tr b => (g tr.1 b).map fun t => (t, tr.2) := by
  intro s tr ht
  rw [h tr.2 s tr.1 ht]
  simp only [Option.map_map]
  rfl

/-- **A loop** whose steps are over two parts. -/
theorem Splits.foldlM {step : X → α → Option X} {f : σ → α → Option (β × σ)}
    {g : τ → β → Option τ} (h : ∀ a, Splits emb I (step · a) (f · a) g)
    (hinv : ∀ t b t', I t → g t b = some t' → I t') (l : List α) :
    Splits emb I (fun x => l.foldlM step x) (fun s => thread f s l)
      fun t bs => bs.foldlM g t := by
  induction l with
  | nil => exact fun s t _ => rfl
  | cons a l ih =>
    refine ((h a).bind ih hinv).map (fun bs => bs.1 :: bs.2) (fun s => ?_) fun t bs _ => rfl
    rw [thread]
    cases f s a with
    | none => rfl
    | some x =>
      simp only [Option.bind_some]
      cases thread f x.2 l <;> rfl

end Common

end FlowBlaze

import Mathlib.Computability.Language
/-!
# Patterns and the longest match

Regular expressions over classes of letters, with the derivatives by which a
text is matched letter by letter. Where Mathlib's have one letter each, these
have a test, so that a class of sixty letters is one leaf and a derivative
that has failed is seen to have failed.

The longest match of a pattern at the start of a text does not look past the
letter that no word of the pattern goes on with.
-/

namespace FlowBlaze

/-- A regular expression, whose leaves are classes of letters. -/
inductive Pattern (α : Type)
  | never
  | empty
  | letter (p : α → Bool)
  | alt (P Q : Pattern α)
  | seq (P Q : Pattern α)
  | star (P : Pattern α)

namespace Pattern

variable {α : Type}

/-! ## What is built of patterns -/

/-- One word. -/
def word [BEq α] (w : List α) : Pattern α :=
  w.foldr (fun a P => seq (letter (· == a)) P) empty

/-- Once or not at all. -/
def opt (P : Pattern α) : Pattern α := alt P empty

/-- Once or more. -/
def plus (P : Pattern α) : Pattern α := seq P (star P)

/-- One of several. -/
def oneOf (Ps : List (Pattern α)) : Pattern α := Ps.foldr alt never

/-- One behind the other. -/
def inTurn (Ps : List (Pattern α)) : Pattern α := Ps.foldr seq empty

/-! ## Words -/

/-- The words of a pattern. -/
def language : Pattern α → Language α
  | never => 0
  | empty => 1
  | letter p => {w | ∃ a, p a = true ∧ w = [a]}
  | alt P Q => P.language + Q.language
  | seq P Q => P.language * Q.language
  | star P => KStar.kstar P.language

/-! ## Derivatives -/

/-- Whether the empty word is one. -/
def nullable : Pattern α → Bool
  | never => false
  | empty => true
  | letter _ => false
  | alt P Q => P.nullable || Q.nullable
  | seq P Q => P.nullable && Q.nullable
  | star _ => true

/-- One or the other, unless one has failed. -/
def either : Pattern α → Pattern α → Pattern α
  | never, Q => Q
  | P, never => P
  | P, Q => alt P Q

/-- The second behind what is left of the first. -/
def behind : Pattern α → Pattern α → Pattern α
  | never, _ => never
  | empty, Q => Q
  | P, Q => seq P Q

/-- What may follow a letter. -/
def deriv (a : α) : Pattern α → Pattern α
  | never => never
  | empty => never
  | letter p => if p a then empty else never
  | alt P Q => (P.deriv a).either (Q.deriv a)
  | seq P Q =>
    if P.nullable then ((P.deriv a).behind Q).either (Q.deriv a) else (P.deriv a).behind Q
  | star P => (P.deriv a).behind (star P)

/-- What may follow a text. -/
def after (P : Pattern α) (w : List α) : Pattern α := w.foldl (fun P a => P.deriv a) P

/-- Whether a pattern has failed. -/
def isNever : Pattern α → Bool
  | never => true
  | _ => false

/-- How many letters at the start of the text the longest word has that
stands there. -/
def longest : Pattern α → List α → Option ℕ
  | P, [] => if P.nullable then some 0 else none
  | P, a :: w =>
    match if (P.deriv a).isNever then none else (P.deriv a).longest w with
    | some n => some (n + 1)
    | none => if P.nullable then some 0 else none

/-! ## Derivatives and words -/

section Derivatives

variable {P Q : Pattern α} {a : α} {w t : List α}

theorem language_alt : (alt P Q).language = P.language + Q.language := rfl

theorem language_seq : (seq P Q).language = P.language * Q.language := rfl

theorem language_star : (star P).language = KStar.kstar P.language := rfl

theorem deriv_seq : (seq P Q).deriv a =
    if P.nullable then ((P.deriv a).behind Q).either (Q.deriv a) else (P.deriv a).behind Q := rfl

theorem nullable_iff : P.nullable = true ↔ [] ∈ P.language := by
  induction P with
  | never => exact iff_of_false Bool.false_ne_true id
  | empty => exact iff_of_true rfl rfl
  | letter p => exact iff_of_false Bool.false_ne_true fun ⟨_, _, h⟩ => by cases h
  | alt P Q ihP ihQ =>
    unfold nullable
    rw [Bool.or_eq_true, ihP, ihQ, language_alt, Language.mem_add]
  | seq P Q ihP ihQ =>
    unfold nullable
    rw [Bool.and_eq_true, ihP, ihQ, language_seq, Language.mem_mul]
    constructor
    · rintro ⟨hP, hQ⟩
      exact ⟨[], hP, [], hQ, rfl⟩
    · rintro ⟨u, hu, v, hv, h⟩
      obtain ⟨rfl, rfl⟩ := List.append_eq_nil_iff.mp h
      exact ⟨hu, hv⟩
  | star P ih => exact iff_of_true rfl (Language.nil_mem_kstar _)

theorem language_either : (P.either Q).language = P.language + Q.language := by
  unfold either
  split
  · exact (zero_add _).symm
  · exact (add_zero _).symm
  · rfl

theorem language_behind : (P.behind Q).language = P.language * Q.language := by
  unfold behind
  split
  · exact (zero_mul _).symm
  · exact (one_mul _).symm
  · rfl

/-- **The words of a derivative** are those that the letter goes before. -/
theorem mem_language_deriv : w ∈ (P.deriv a).language ↔ a :: w ∈ P.language := by
  induction P generalizing w with
  | never => exact Iff.rfl
  | empty => exact iff_of_false id fun h => by cases h
  | letter p =>
    unfold deriv
    by_cases h : p a = true
    · rw [if_pos h]
      exact ⟨fun hw => ⟨a, h, by rw [show w = [] from hw]⟩, fun ⟨_, _, hw⟩ => (List.cons.inj hw).2⟩
    · rw [if_neg h]
      exact iff_of_false id fun ⟨_, hb, hw⟩ => h ((List.cons.inj hw).1 ▸ hb)
  | alt P Q ihP ihQ =>
    unfold deriv
    rw [language_either, Language.mem_add, ihP, ihQ]
    exact Iff.rfl
  | seq P Q ihP ihQ =>
    -- either the first part takes the letter, or it is empty and the second does
    have hsplit : a :: w ∈ (seq P Q).language ↔
        w ∈ (P.deriv a).language * Q.language ∨ [] ∈ P.language ∧ a :: w ∈ Q.language := by
      rw [language_seq, Language.mem_mul, Language.mem_mul]
      constructor
      · rintro ⟨u, hu, v, hv, h⟩
        cases u with
        | nil => exact .inr ⟨hu, h ▸ hv⟩
        | cons b u =>
          obtain ⟨rfl, rfl⟩ := List.cons.inj h
          exact .inl ⟨u, ihP.mpr hu, v, hv, rfl⟩
      · rintro (⟨u, hu, v, hv, rfl⟩ | ⟨hP, hQ⟩)
        · exact ⟨a :: u, ihP.mp hu, v, hv, rfl⟩
        · exact ⟨[], hP, a :: w, hQ, rfl⟩
    rw [hsplit, ← nullable_iff, ← ihQ, deriv_seq]
    by_cases hnull : P.nullable = true
    · rw [if_pos hnull, language_either, Language.mem_add, language_behind, and_iff_right hnull]
    · rw [if_neg hnull, language_behind, or_iff_left fun h => hnull h.1]
  | star P ih =>
    unfold deriv
    -- the letter is the first of a word that is not empty
    rw [language_behind, language_star, Language.mem_mul,
      Language.mem_kstar_iff_exists_nonempty]
    constructor
    · rintro ⟨u, hu, v, hv, rfl⟩
      obtain ⟨L, rfl, hL⟩ := Language.mem_kstar_iff_exists_nonempty.mp hv
      exact ⟨(a :: u) :: L, rfl, List.forall_mem_cons.mpr ⟨⟨ih.mp hu, List.cons_ne_nil _ _⟩, hL⟩⟩
    · rintro ⟨L, h, hL⟩
      cases L with
      | nil => cases h
      | cons u L =>
        obtain ⟨⟨hu, hne⟩, hothers⟩ := List.forall_mem_cons.mp hL
        cases u with
        | nil => exact absurd rfl hne
        | cons b u =>
          obtain ⟨rfl, rfl⟩ := List.cons.inj h
          exact ⟨u, ih.mpr hu, L.flatten,
            Language.mem_kstar_iff_exists_nonempty.mpr ⟨L, rfl, hothers⟩, rfl⟩

/-- **The words that go on from a text.** -/
theorem mem_language_after : w ∈ (P.after t).language ↔ t ++ w ∈ P.language := by
  induction t generalizing P with
  | nil => exact Iff.rfl
  | cons a t ih => exact ih.trans mem_language_deriv

/-! ## The longest match -/

theorem eq_never_of_isNever (h : P.isNever = true) : P = never := by
  cases P <;> first | rfl | cases h

theorem longest_never (w : List α) : never.longest w = none := by
  cases w <;> rfl

theorem longest_cons (P : Pattern α) (a : α) (w : List α) :
    P.longest (a :: w) =
      match (P.deriv a).longest w with
      | some n => some (n + 1)
      | none => if P.nullable then some 0 else none := by
  conv_lhs => unfold longest
  by_cases hnever : (P.deriv a).isNever = true
  · rw [if_pos hnever, eq_never_of_isNever hnever, longest_never]
  · rw [if_neg hnever]

theorem longest_empty (w : List α) : empty.longest w = some 0 := by
  cases w <;> rfl

theorem longest_le {n : ℕ} (h : P.longest w = some n) : n ≤ w.length := by
  induction w generalizing P n with
  | nil =>
    unfold longest at h
    by_cases hnull : P.nullable = true
    · rw [if_pos hnull] at h
      cases h
      exact le_refl 0
    · rw [if_neg hnull] at h
      cases h
  | cons a w ih =>
    rw [longest_cons] at h
    cases hd : (P.deriv a).longest w with
    | some m =>
      rw [hd] at h
      cases h
      exact Nat.succ_le_succ (ih hd)
    | none =>
      rw [hd] at h
      dsimp only at h
      by_cases hnull : P.nullable = true
      · rw [if_pos hnull] at h
        cases h
        exact Nat.zero_le _
      · rw [if_neg hnull] at h
        cases h

/-- What matches is a word. -/
theorem mem_of_longest {n : ℕ} (h : P.longest w = some n) : w.take n ∈ P.language := by
  induction w generalizing P n with
  | nil =>
    unfold longest at h
    split_ifs at h with hnull
    rw [List.take_nil]
    exact nullable_iff.mp hnull
  | cons a w ih =>
    rw [longest_cons] at h
    cases hd : (P.deriv a).longest w with
    | some m =>
      rw [hd] at h
      cases h
      exact mem_language_deriv.mp (ih hd)
    | none =>
      rw [hd] at h
      dsimp only at h
      split_ifs at h with hnull
      cases h
      exact nullable_iff.mp hnull

/-- A pattern without words matches nowhere. -/
theorem longest_eq_none (h : ∀ w, w ∉ P.language) (w : List α) : P.longest w = none := by
  have hnull : ∀ {P : Pattern α}, (∀ w, w ∉ P.language) → ¬P.nullable = true :=
    fun h hnull => h [] (nullable_iff.mp hnull)
  induction w generalizing P with
  | nil =>
    unfold longest
    exact if_neg (hnull h)
  | cons a w ih =>
    rw [longest_cons]
    rw [ih fun w hw => h _ (mem_language_deriv.mp hw)]
    exact if_neg (hnull h)

/-- **One letter of lookahead.** If no word goes on with the next letter, the
longest match ends before it. -/
theorem longest_append (h : ∀ u, w ++ a :: u ∉ P.language) :
    P.longest (w ++ a :: t) = P.longest w := by
  induction w generalizing P with
  | nil =>
    rw [List.nil_append, longest_cons,
      longest_eq_none fun u hu => h u (mem_language_deriv.mp hu)]
    rfl
  | cons b w ih =>
    rw [List.cons_append, longest_cons, longest_cons, ih fun u hu => h u (mem_language_deriv.mp hu)]

/-- **The longest match is that of its own letters**, if it does not go beyond
them. -/
theorem longest_of_le (h : ∀ n, P.longest (w ++ t) = some n → n ≤ w.length) :
    P.longest (w ++ t) = P.longest w := by
  induction w generalizing P with
  | nil =>
    rw [List.nil_append] at h ⊢
    cases t with
    | nil => rfl
    | cons a t =>
      rw [longest_cons] at h ⊢
      cases hd : (P.deriv a).longest t with
      | some n =>
        rw [hd] at h
        exact absurd (h _ rfl) (Nat.not_succ_le_zero n)
      | none => rfl
  | cons a w ih =>
    have hrest : (P.deriv a).longest (w ++ t) = (P.deriv a).longest w := ih fun n hn => by
      refine Nat.le_of_succ_le_succ (h (n + 1) ?_)
      rw [List.cons_append, longest_cons, hn]
    rw [List.cons_append, longest_cons, longest_cons, hrest]

/-- A derivative that has failed. -/
theorem notMem_of_after (h : P.after t = never) (w : List α) : t ++ w ∉ P.language :=
  fun hw => by
    have hafter := mem_language_after.mpr hw
    rw [h] at hafter
    exact hafter

/-! ## Letters -/

/-- A letter that is in none of the classes. -/
def avoids (a : α) : Pattern α → Bool
  | never => true
  | empty => true
  | letter p => !p a
  | alt P Q => P.avoids a && Q.avoids a
  | seq P Q => P.avoids a && Q.avoids a
  | star P => P.avoids a

/-- Then it is in no word. -/
theorem notMem_of_avoids (h : P.avoids a = true) (hw : w ∈ P.language) : a ∉ w := by
  induction P generalizing w with
  | never => exact absurd hw id
  | empty =>
    rw [show w = [] from hw]
    exact List.not_mem_nil
  | letter p =>
    obtain ⟨b, hb, rfl⟩ := hw
    intro hmem
    rw [← List.mem_singleton.mp hmem] at hb
    unfold avoids at h
    rw [hb] at h
    cases h
  | alt P Q ihP ihQ =>
    obtain ⟨hP, hQ⟩ := (Bool.and_eq_true _ _).mp h
    exact hw.elim (ihP hP) (ihQ hQ)
  | seq P Q ihP ihQ =>
    obtain ⟨hP, hQ⟩ := (Bool.and_eq_true _ _).mp h
    obtain ⟨u, hu, v, hv, rfl⟩ := Language.mem_mul.mp hw
    exact fun hmem => (List.mem_append.mp hmem).elim (ihP hP hu) (ihQ hQ hv)
  | star P ih =>
    obtain ⟨L, rfl, hL⟩ := Language.mem_kstar.mp hw
    intro hmem
    obtain ⟨u, hu, hmem⟩ := List.mem_flatten.mp hmem
    exact ih h (hL u hu) hmem

/-- The words of a class, one letter behind the other. -/
theorem mem_star_letter {p : α → Bool} :
    w ∈ (star (letter p)).language ↔ ∀ a ∈ w, p a = true := by
  constructor
  · intro h a ha
    by_contra hp
    have havoids : (star (letter p)).avoids a = true :=
      congrArg Bool.not (Bool.eq_false_iff.mpr hp)
    exact notMem_of_avoids havoids h ha
  · intro h
    refine Language.mem_kstar.mpr ⟨w.map fun a => [a], ?_, fun u hu => ?_⟩
    · induction w with
      | nil => rfl
      | cons a w ih =>
        rw [List.map_cons, List.flatten_cons, ← ih (List.forall_mem_cons.mp h).2]
        rfl
    · obtain ⟨a, ha, rfl⟩ := List.mem_map.mp hu
      exact ⟨a, h a ha, rfl⟩

/-- A word is the only one. -/
theorem mem_word [BEq α] [LawfulBEq α] : w ∈ (word t).language ↔ w = t := by
  induction t generalizing w with
  | nil => exact Iff.rfl
  | cons a t ih =>
    change w ∈ (seq (letter (· == a)) (word t)).language ↔ _
    rw [language_seq, Language.mem_mul]
    constructor
    · rintro ⟨u, ⟨b, hb, rfl⟩, v, hv, rfl⟩
      rw [ih.mp hv, beq_iff_eq.mp hb]
      rfl
    · rintro rfl
      exact ⟨[a], ⟨a, beq_self_eq_true a, rfl⟩, t, ih.mpr rfl, rfl⟩

/-- A word matches whole. -/
theorem longest_of_mem (h : w ∈ P.language) : P.longest w = some w.length := by
  induction w generalizing P with
  | nil =>
    unfold longest
    exact if_pos (nullable_iff.mpr h)
  | cons a w ih =>
    rw [longest_cons]
    rw [ih (mem_language_deriv.mpr h)]
    rfl

end Derivatives

end Pattern

end FlowBlaze

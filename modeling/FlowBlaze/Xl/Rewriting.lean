import FlowBlaze.Xl.PreProcessor
import FlowBlaze.Xl.Lexemes
/-!
# Rewriting — where the matches are

The regular expressions of the preprocessor find the statements of a program,
and the replacements its names, where the letters of the keyword and of the
names stand nowhere else before them.
-/

namespace FlowBlaze

namespace Xl

namespace PreProcessor

open Lexer

/-! ## Statements -/

/-- No end of a word is its beginning. -/
def Borderless (w : List Char) : Prop := ∀ n < w.length, 0 < n → ¬w.drop n <+: w

section Statements

variable {keyword before inner rest text : List Char} {c : Char}

theorem findStatement_cons (text : List Char) :
    findStatement keyword (c :: text) =
      if keyword <+: c :: text ∧ ';' ∈ (c :: text).drop keyword.length then
        some ([], ((c :: text).drop keyword.length).takeWhile (· != ';'),
          (((c :: text).drop keyword.length).dropWhile (· != ';')).drop 1)
      else (findStatement keyword text).map fun found => (c :: found.1, found.2.1, found.2.2) := rfl

theorem removeStatements_inside_cons (text : List Char) :
    removeStatements keyword true (c :: text) = removeStatements keyword (c != ';') text := rfl

theorem removeStatements_cons (text : List Char) :
    removeStatements keyword false (c :: text) =
      if keyword <+: c :: text ∧ ';' ∈ (c :: text).drop keyword.length then
        removeStatements keyword true text
      else c :: removeStatements keyword false text := rfl

/-- **A keyword does not begin before it stands.** -/
theorem not_prefix_of_borderless (hborder : Borderless keyword) (hclear : ¬keyword <:+: before)
    (hne : before ≠ []) : ¬keyword <+: before ++ (keyword ++ rest) := by
  intro hbegins
  rcases List.prefix_or_prefix_of_prefix hbegins (List.prefix_append before _) with h | h
  · exact hclear h.isInfix
  · obtain ⟨s, hs⟩ := h
    have hlength := congrArg List.length hs
    rw [List.length_append] at hlength
    have hs' : s <+: keyword ++ rest := by
      rw [← hs, List.prefix_append_right_inj] at hbegins
      rwa [hs] at hbegins
    have hpos := List.length_pos_iff.mpr hne
    have hlt : before.length < keyword.length := by
      by_contra hge
      have hnil : s = [] := List.eq_nil_of_length_eq_zero (by omega)
      rw [hnil, List.append_nil] at hs
      exact hclear (hs ▸ List.infix_rfl)
    refine hborder before.length hlt hpos ?_
    rw [← hs, List.drop_left, hs]
    exact List.prefix_of_prefix_length_le hs' (List.prefix_append _ _) (by omega)

theorem clear_of_cons (h : ¬keyword <:+: c :: before) : ¬keyword <:+: before :=
  fun hwithin => h (hwithin.trans (List.suffix_cons c before).isInfix)

/-- **The first match** is the statement. -/
theorem findStatement_append (hborder : Borderless keyword) (hne : keyword ≠ [])
    (hclear : ¬keyword <:+: before) (hinner : ';' ∉ inner) :
    findStatement keyword (before ++ (keyword ++ (inner ++ ';' :: rest))) =
      some (before, inner, rest) := by
  induction before with
  | nil =>
    obtain ⟨c, word, rfl⟩ := List.exists_cons_of_ne_nil hne
    have hall : ∀ c ∈ inner, (c != ';') = true :=
      fun c hc => bne_iff_ne.mpr fun heq => hinner (heq ▸ hc)
    rw [List.nil_append, List.cons_append, findStatement_cons, ← List.cons_append, List.drop_left,
      if_pos ⟨List.prefix_append _ _, List.mem_append_right _ List.mem_cons_self⟩,
      List.takeWhile_append_of_pos hall, List.dropWhile_append_of_pos hall]
    simp
  | cons c before ih =>
    rw [List.cons_append, findStatement_cons,
      if_neg fun h => not_prefix_of_borderless hborder hclear (List.cons_ne_nil _ _) h.1,
      ih (clear_of_cons hclear)]
    rfl

/-- What is inside a match goes. -/
theorem removeStatements_inside (hinner : ';' ∉ inner) :
    removeStatements keyword true (inner ++ ';' :: rest) =
      removeStatements keyword false rest := by
  induction inner with
  | nil => rfl
  | cons c inner ih =>
    obtain ⟨hc, hinner⟩ := not_or.mp (List.mem_cons.not.mp hinner)
    rw [List.cons_append, removeStatements_inside_cons, bne_iff_ne.mpr (Ne.symm hc), ih hinner]

/-- **A statement goes**, and what stands before it stays. -/
theorem removeStatements_append (hborder : Borderless keyword) (hne : keyword ≠ [])
    (hkeyword : ';' ∉ keyword) (hclear : ¬keyword <:+: before) (hinner : ';' ∉ inner) :
    removeStatements keyword false (before ++ (keyword ++ (inner ++ ';' :: rest))) =
      before ++ removeStatements keyword false rest := by
  induction before with
  | nil =>
    obtain ⟨c, word, rfl⟩ := List.exists_cons_of_ne_nil hne
    have hword : ';' ∉ word ++ inner := fun h =>
      (List.mem_append.mp h).elim (fun h => hkeyword (List.mem_cons_of_mem _ h)) hinner
    rw [List.nil_append, List.nil_append, List.cons_append, removeStatements_cons,
      ← List.cons_append, List.drop_left,
      if_pos ⟨List.prefix_append _ _, List.mem_append_right _ List.mem_cons_self⟩,
      ← List.append_assoc, removeStatements_inside hword]
  | cons c before ih =>
    rw [List.cons_append, removeStatements_cons,
      if_neg fun h => not_prefix_of_borderless hborder hclear (List.cons_ne_nil _ _) h.1,
      ih (clear_of_cons hclear)]
    rfl

/-- Without a match all stays. -/
theorem removeStatements_of_none (h : findStatement keyword text = none) :
    removeStatements keyword false text = text := by
  induction text with
  | nil => rfl
  | cons c text ih =>
    rw [findStatement_cons] at h
    split_ifs at h with hmatch
    rw [removeStatements_cons, if_neg hmatch, ih (Option.map_eq_none_iff.mp h)]

end Statements

/-! ## Replacements -/

section Replacements

variable {groups : List (List Char)} {text : List Char}

/-- A text without `\` and `$` stands for itself. -/
theorem appendReplacement_plain (h : ∀ c ∈ text, c ≠ '\\' ∧ c ≠ '$') :
    appendReplacement groups .plain text = some text := by
  induction text with
  | nil => rfl
  | cons c text ih =>
    obtain ⟨⟨hslash, hdollar⟩, htext⟩ := List.forall_mem_cons.mp h
    have hread : Reading.plain.read groups c = some ([c], .plain) := by
      change some (Reading.ofPlain c) = _
      unfold Reading.ofPlain
      rw [if_neg hslash, if_neg hdollar]
    unfold appendReplacement
    rw [hread, Option.bind_some]
    dsimp only
    rw [ih htext]
    rfl

end Replacements

/-! ## Names -/

section Names

variable {name value l t : List Char} {c : Char}

theorem replaceLiteral_cons (t : List Char) :
    replaceLiteral name value 0 (c :: t) =
      if name <+: c :: t then value ++ replaceLiteral name value (name.length - 1) t
      else c :: replaceLiteral name value 0 t := rfl

theorem replaceLiteral_skip (l t : List Char) :
    replaceLiteral name value l.length (l ++ t) = replaceLiteral name value 0 t := by
  induction l with
  | nil => rfl
  | cons c l ih => exact ih

/-- The name itself. -/
theorem replaceLiteral_name (hne : name ≠ []) (t : List Char) :
    replaceLiteral name value 0 (name ++ t) = value ++ replaceLiteral name value 0 t := by
  obtain ⟨c, word, rfl⟩ := List.exists_cons_of_ne_nil hne
  rw [List.cons_append, replaceLiteral_cons, ← List.cons_append,
    if_pos (List.prefix_append _ _), List.length_cons, Nat.add_sub_cancel, replaceLiteral_skip]

/-- Where the name does not begin. -/
theorem replaceLiteral_clear (h : ∀ k < l.length, ¬name <+: (l ++ t).drop k) :
    replaceLiteral name value 0 (l ++ t) = l ++ replaceLiteral name value 0 t := by
  induction l with
  | nil => rfl
  | cons c l ih =>
    have hfirst : ¬name <+: c :: (l ++ t) := h 0 (Nat.succ_pos _)
    rw [List.cons_append, replaceLiteral_cons, if_neg hfirst,
      ih fun k hk => h (k + 1) (Nat.succ_lt_succ hk)]
    rfl

/-- **Where no name reaches across**, the parts are rewritten one by one. -/
theorem replaceLiteral_append {s : ℕ} (hs : s ≤ l.length)
    (h : ∀ k < l.length, name <+: (l ++ t).drop k → k + name.length ≤ l.length) :
    replaceLiteral name value s (l ++ t) =
      replaceLiteral name value s l ++ replaceLiteral name value 0 t := by
  induction l generalizing s with
  | nil =>
    rw [Nat.le_zero.mp hs]
    rfl
  | cons c l ih =>
    have hrest : ∀ k < l.length, name <+: (l ++ t).drop k → k + name.length ≤ l.length :=
      fun k hk hbegins => by
        have := h (k + 1) (Nat.succ_lt_succ hk) hbegins
        rw [List.length_cons] at this
        omega
    rw [List.cons_append]
    cases s with
    | succ s => exact ih (Nat.le_of_succ_le_succ hs) hrest
    | zero =>
      rw [replaceLiteral_cons, replaceLiteral_cons]
      by_cases hbegins : name <+: c :: (l ++ t)
      · have hle := h 0 (Nat.succ_pos _) hbegins
        rw [List.length_cons] at hle
        have hshort : name <+: c :: l :=
          List.prefix_of_prefix_length_le hbegins (List.prefix_append (c :: l) t)
            (by rw [List.length_cons]; omega)
        rw [if_pos hbegins, if_pos hshort, ih (by omega) hrest, List.append_assoc]
      · have hshort : ¬name <+: c :: l := fun hshort =>
          hbegins (hshort.trans (List.prefix_append (c :: l) t))
        rw [if_neg hbegins, if_neg hshort, ih (Nat.zero_le _) hrest]
        rfl

/-- A name does not reach across a letter that it has not. -/
theorem fits_of_notMem (hc : c ∉ name) {k : ℕ} (hk : k ≤ l.length)
    (hbegins : name <+: (l ++ c :: t).drop k) : k + name.length ≤ l.length := by
  by_contra hlt
  refine hc ?_
  rw [List.drop_append_of_le_length hk] at hbegins
  obtain ⟨u, hu⟩ := hbegins
  have hget := congrArg (fun w : List Char => w[l.length - k]?) hu
  rw [List.getElem?_append_left (by omega),
    List.getElem?_append_right (by rw [List.length_drop]), List.length_drop, Nat.sub_self] at hget
  exact List.mem_of_getElem? hget

/-- A letter that the name has not stays. -/
theorem replaceLiteral_of_notMem (hc : c ∉ name) (hne : name ≠ []) (t : List Char) :
    replaceLiteral name value 0 (c :: t) = c :: replaceLiteral name value 0 t := by
  rw [replaceLiteral_cons, if_neg]
  rintro ⟨u, hu⟩
  obtain ⟨b, word, rfl⟩ := List.exists_cons_of_ne_nil hne
  obtain ⟨rfl, -⟩ := List.cons.inj hu
  exact hc List.mem_cons_self

/-- At such a letter the text is divided. -/
theorem replaceLiteral_concat (hc : c ∉ name) (hne : name ≠ []) (l t : List Char) :
    replaceLiteral name value 0 (l ++ c :: t) =
      replaceLiteral name value 0 l ++ c :: replaceLiteral name value 0 t := by
  rw [replaceLiteral_append (Nat.zero_le _) fun k hk => fits_of_notMem hc hk.le,
    replaceLiteral_of_notMem hc hne]

end Names

/-! ## Comments -/

/-- Letters that end no comment and begin none. -/
def Bland (c : Char) : Prop := c ≠ '/' ∧ c ≠ '*' ∧ c ≠ '\n'

/-- **Comments stay comments** where names give way to values inside them. -/
theorem isComment_replaceLiteral {name value l : List Char} (hname : name ≠ [])
    (hbland : ∀ c ∈ name, Bland c) (h : IsComment l) :
    IsComment (replaceLiteral name value 0 l) := by
  have hslash : '/' ∉ name := fun hmem => (hbland _ hmem).1 rfl
  have hstar : '*' ∉ name := fun hmem => (hbland _ hmem).2.1 rfl
  have hline : '\n' ∉ name := fun hmem => (hbland _ hmem).2.2 rfl
  obtain ⟨hbegins, hends⟩ := h
  constructor
  · rcases hbegins with ⟨u, rfl⟩ | ⟨u, rfl⟩
    · rw [List.cons_append, List.cons_append, replaceLiteral_of_notMem hslash hname,
        replaceLiteral_of_notMem hstar hname]
      exact .inl ⟨_, rfl⟩
    · rw [List.cons_append, List.cons_append, replaceLiteral_of_notMem hslash hname,
        replaceLiteral_of_notMem hslash hname]
      exact .inr ⟨_, rfl⟩
  · have hlast : ∀ {c}, c ∉ name → l.getLast? = some c →
        (replaceLiteral name value 0 l).getLast? = some c := by
      intro c hc hl
      obtain ⟨body, rfl⟩ := List.getLast?_eq_some_iff.mp hl
      rw [replaceLiteral_concat hc hname]
      exact List.getLast?_concat
    exact hends.imp (hlast hslash) (hlast hline)

/-! ## Lexemes -/

/-- What a lexeme becomes: a name its value, and a comment what it is with
the value for the name. -/
def put (name value l : List Char) : List Char :=
  if BeginsComment l then replaceLiteral name value 0 l else if l = name then value else l

/-- **The letters of the name** stand where it is a lexeme, or inside
comments, only. -/
def Whole (name : List Char) : List (List Char) → Prop
  | [] => True
  | l :: ls =>
    (BeginsComment l ∨ l = name ∨ ∀ k < l.length, ¬name <+: (l ++ ls.flatten).drop k) ∧
      Whole name ls

instance (name : List Char) : (ls : List (List Char)) → Decidable (Whole name ls)
  | [] => isTrue trivial
  | _ :: ls =>
    have := instDecidableWhole name ls
    inferInstanceAs (Decidable (_ ∧ _))

/-- Then it is replaced lexeme by lexeme. -/
theorem replaceLiteral_flatten {name value : List Char} {ls : List (List Char)} (hname : name ≠ [])
    (hbland : ∀ c ∈ name, Bland c) (hls : ∀ l ∈ ls, IsLexeme l) (h : Whole name ls) :
    replaceLiteral name value 0 ls.flatten = (ls.map (put name value)).flatten := by
  induction ls with
  | nil => rfl
  | cons l ls ih =>
    obtain ⟨hl, hls⟩ := List.forall_mem_cons.mp hls
    obtain ⟨hwhole, h⟩ := h
    rw [List.map_cons, List.flatten_cons, List.flatten_cons, ← ih hls h]
    unfold put
    by_cases hbegins : BeginsComment l
    · rw [if_pos hbegins]
      -- a comment ends in a character no name has, so no occurrence reaches over it
      obtain ⟨body, c, rfl, hc⟩ : ∃ body c, l = body ++ [c] ∧ ¬Bland c := by
        rcases (hl.isComment hbegins).2 with hends | hends
        · obtain ⟨body, rfl⟩ := List.getLast?_eq_some_iff.mp hends
          exact ⟨body, '/', rfl, fun h => h.1 rfl⟩
        · obtain ⟨body, rfl⟩ := List.getLast?_eq_some_iff.mp hends
          exact ⟨body, '\n', rfl, fun h => h.2.2 rfl⟩
      have hnot : c ∉ name := fun hmem => hc (hbland c hmem)
      rw [replaceLiteral_concat hnot hname, List.append_assoc, List.singleton_append,
        replaceLiteral_concat hnot hname, List.append_assoc]
      cases replaceLiteral name value 0 ls.flatten <;> rfl
    rw [if_neg hbegins]
    by_cases heq : l = name
    · rw [if_pos heq, heq, replaceLiteral_name hname]
    · rw [if_neg heq]
      exact replaceLiteral_clear ((hwhole.resolve_left hbegins).resolve_left heq)

end PreProcessor

end Xl

end FlowBlaze

import FlowBlaze.Xl.Lexer
import Mathlib.Data.List.TakeWhile
/-!
# Lexemes

A text is put together of lexemes: white space, comments and tokens. The lexer
reads them there if each, but for white space, is what matches most at its
place; then the tokens of the text are theirs. Every text that has tokens is
put together so.
-/

namespace FlowBlaze

namespace Xl

namespace Lexer

open Pattern

/-! ## The longest match of several rules -/

section Longest

variable {text text' l t : List Char} {kind other : Kind} {rules : List Kind} {c : Char} {n m : ℕ}

theorem longestOf_congr (h : ∀ kind ∈ rules, kind.length text = kind.length text') :
    longestOf text rules = longestOf text' rules := by
  induction rules with
  | nil => rfl
  | cons kind rules ih =>
    obtain ⟨hkind, hrules⟩ := List.forall_mem_cons.mp h
    unfold longestOf
    rw [hkind, ih hrules]

theorem longestOf_le (h : ∀ kind ∈ rules, ∀ n, kind.length text = some n → n ≤ m)
    (hlongest : longestOf text rules = some (other, n)) : n ≤ m := by
  induction rules generalizing other n with
  | nil => cases hlongest
  | cons kind rules ih =>
    obtain ⟨hkind, hrules⟩ := List.forall_mem_cons.mp h
    unfold longestOf at hlongest
    cases hfirst : kind.length text with
    | none =>
      rw [hfirst] at hlongest
      exact ih hrules hlongest
    | some k =>
      rw [hfirst] at hlongest
      cases hothers : longestOf text rules with
      | none =>
        rw [hothers] at hlongest
        cases hlongest
        exact hkind n hfirst
      | some found =>
        rw [hothers] at hlongest
        dsimp only at hlongest
        split_ifs at hlongest
        · cases hlongest
          exact ih hrules hothers
        · cases hlongest
          exact hkind n hfirst

theorem longestOf_length (h : longestOf text rules = some (other, n)) :
    other.length text = some n := by
  induction rules generalizing other n with
  | nil => cases h
  | cons kind rules ih =>
    unfold longestOf at h
    cases hfirst : kind.length text with
    | none =>
      rw [hfirst] at h
      exact ih h
    | some k =>
      rw [hfirst] at h
      cases hothers : longestOf text rules with
      | none =>
        rw [hothers] at h
        cases h
        exact hfirst
      | some found =>
        rw [hothers] at h
        dsimp only at h
        split_ifs at h
        · cases h
          exact ih hothers
        · cases h
          exact hfirst

/-- The first of the rules, if none of the others matches more. -/
theorem longestOf_of_first (hfirst : kind.length text = some m)
    (h : ∀ kind ∈ rules, ∀ n, kind.length text = some n → n ≤ m) :
    longestOf text (kind :: rules) = some (kind, m) := by
  unfold longestOf
  rw [hfirst]
  cases hothers : longestOf text rules with
  | none => rfl
  | some found => exact if_neg (not_lt.mpr (longestOf_le h hothers))

theorem length_of_ne (h : kind ≠ .comment) (text : List Char) :
    kind.length text = kind.pattern.longest text := by
  cases kind <;> first | rfl | exact absurd rfl h

/-- What matches is found. -/
theorem ne_none_of_mem (hkind : kind ∈ rules) (hlength : kind.length text = some n) :
    longestOf text rules ≠ none := by
  induction rules with
  | nil => cases hkind
  | cons first rules ih =>
    unfold longestOf
    cases hfirst : first.length text with
    | none =>
      rcases List.mem_cons.mp hkind with rfl | hkind
      · rw [hfirst] at hlength
        cases hlength
      · exact ih hkind
    | some k =>
      cases longestOf text rules with
      | none => exact Option.some_ne_none _
      | some found =>
        dsimp only
        split_ifs <;> exact Option.some_ne_none _

/-- No other match is longer. -/
theorem le_of_longestOf (h : longestOf text rules = some (other, m)) (hkind : kind ∈ rules)
    (hlength : kind.length text = some n) : n ≤ m := by
  induction rules generalizing other m with
  | nil => cases hkind
  | cons first rules ih =>
    unfold longestOf at h
    cases hfirst : first.length text with
    | none =>
      rw [hfirst] at h
      rcases List.mem_cons.mp hkind with rfl | hkind
      · rw [hfirst] at hlength
        cases hlength
      · exact ih h hkind
    | some k =>
      rw [hfirst] at h
      cases hothers : longestOf text rules with
      | none =>
        rw [hothers] at h
        cases h
        rcases List.mem_cons.mp hkind with rfl | hkind
        · exact (Option.some.inj (hlength.symm.trans hfirst)).le
        · exact absurd hothers (ne_none_of_mem hkind hlength)
      | some found =>
        obtain ⟨last, l⟩ := found
        rw [hothers] at h
        dsimp only at h
        -- the longer of the first match and the longest of the others
        split_ifs at h with hlt
        · cases h
          rcases List.mem_cons.mp hkind with rfl | hkind
          · exact (Option.some.inj (hlength.symm.trans hfirst)).le.trans hlt.le
          · exact ih hothers hkind
        · cases h
          rcases List.mem_cons.mp hkind with rfl | hkind
          · exact (Option.some.inj (hlength.symm.trans hfirst)).le
          · exact (ih hothers hkind).trans (not_lt.mp hlt)

/-! ## White space -/

theorem isBlank_cases (h : isBlank c = true) : c = ' ' ∨ c = '\t' ∨ c = '\r' ∨ c = '\n' := by
  simpa [isBlank, or_assoc] using h

/-- A single blank is all that the other rules match of white space. -/
theorem deriv_blank (h : isBlank c = true) (hkind : kind ≠ .ws) :
    kind.pattern.deriv c = never ∨ kind.pattern.deriv c = empty := by
  rcases isBlank_cases h with rfl | rfl | rfl | rfl <;> cases kind <;>
    first | exact .inl rfl | exact .inr rfl | exact absurd rfl hkind

/-- White space, up to a letter that is none. -/
theorem nextLexeme_blank (h : ∀ c ∈ l, isBlank c = true) (hne : l ≠ [])
    (ht : ∀ c ∈ t.head?, ¬isBlank c = true) : nextLexeme (l ++ t) = some (.ws, l.length) := by
  obtain ⟨b, l, rfl⟩ := List.exists_cons_of_ne_nil hne
  obtain ⟨hb, hl⟩ := List.forall_mem_cons.mp h
  have hword : Kind.ws.pattern.longest (b :: l) = some (b :: l).length :=
    longest_of_mem (Language.mem_mul.mpr ⟨[b], ⟨b, hb, rfl⟩, l, mem_star_letter.mpr hl, rfl⟩)
  have hlength : Kind.ws.length (b :: l ++ t) = some (b :: l).length := by
    cases t with
    | nil => rwa [List.append_nil]
    | cons c t =>
      have havoids : Kind.ws.pattern.avoids c = true := by
        change (!isBlank c && !isBlank c) = true
        rw [Bool.eq_false_iff.mpr (ht c rfl)]
        rfl
      exact (longest_append fun u hu =>
        notMem_of_avoids havoids hu (List.mem_append_right _ List.mem_cons_self)).trans hword
  refine longestOf_of_first hlength fun kind hkind n hn => ?_
  by_cases hcomment : kind = .comment
  · subst hcomment
    rcases isBlank_cases hb with rfl | rfl | rfl | rfl <;> cases hn
  · rw [length_of_ne hcomment, List.cons_append, longest_cons] at hn
    have hws : kind ≠ .ws := fun heq => absurd hkind (heq ▸ by decide)
    rw [List.length_cons]
    rcases deriv_blank hb hws with hd | hd
    · rw [hd, longest_never] at hn
      dsimp only at hn
      split_ifs at hn
      cases hn
      exact Nat.zero_le _
    · rw [hd, longest_empty] at hn
      cases hn
      exact Nat.le_add_left _ _

end Longest

/-! ## Steps of the lexer -/

section Tokens

variable {text l t : List Char} {kind : Kind}

theorem tokensIn_eq {fuel : ℕ} (h : text.length ≤ fuel) : tokensIn fuel text = tokens text := by
  induction hlength : text.length using Nat.strong_induction_on generalizing text fuel with
  | _ n ih =>
    subst hlength
    unfold tokens
    cases text with
    | nil => cases fuel <;> rfl
    | cons c text =>
      obtain ⟨fuel, rfl⟩ := Nat.exists_eq_add_of_lt (Nat.lt_of_lt_of_le Nat.zero_lt_one
        (Nat.le_trans (Nat.succ_le_succ (Nat.zero_le text.length)) h))
      rw [Nat.zero_add, List.length_cons]
      unfold tokensIn
      cases nextLexeme (c :: text) with
      | none => rfl
      | some found =>
        obtain ⟨kind, n⟩ := found
        cases n with
        | zero => rfl
        | succ n =>
          dsimp only
          have hdrop : ((c :: text).drop (n + 1)).length ≤ text.length := by
            rw [List.drop_succ_cons, List.length_drop]
            exact Nat.sub_le _ _
          have hfuel : text.length ≤ fuel := by
            rw [List.length_cons] at h
            omega
          rw [ih _ (Nat.lt_succ_of_le hdrop) (hdrop.trans hfuel) rfl,
            ih _ (Nat.lt_succ_of_le hdrop) hdrop rfl]

/-- **One step**: the lexeme at the start, then the tokens behind it. -/
theorem tokens_append (h : nextLexeme (l ++ t) = some (kind, l.length)) (hne : l ≠ []) :
    tokens (l ++ t) =
      (tokens t).map fun ts => if kind.skipped then ts else (kind, l) :: ts := by
  obtain ⟨c, l, rfl⟩ := List.exists_cons_of_ne_nil hne
  rw [← tokensIn_eq (le_refl ((c :: l) ++ t).length)]
  rw [List.cons_append, List.length_cons]
  unfold tokensIn
  rw [← List.cons_append, h]
  dsimp only [List.length_cons]
  rw [← List.length_cons (a := c), List.drop_left, List.take_left, tokensIn_eq]
  rw [List.length_append]
  exact Nat.le_add_left _ _

/-- White space up to a letter that is none. -/
theorem tokens_blank_of_head (h : ∀ c ∈ l, isBlank c = true)
    (ht : ∀ c ∈ t.head?, ¬isBlank c = true) : tokens (l ++ t) = tokens t := by
  by_cases hne : l = []
  · rw [hne, List.nil_append]
  · rw [tokens_append (nextLexeme_blank h hne ht) hne]
    exact Option.map_id'

/-- **White space in front** changes nothing. -/
theorem tokens_blank (h : ∀ c ∈ l, isBlank c = true) : tokens (l ++ t) = tokens t := by
  have hall : ∀ c ∈ t.takeWhile isBlank, isBlank c = true := fun c hc => List.mem_takeWhile_imp hc
  have hhead : ∀ c ∈ (t.dropWhile isBlank).head?, ¬isBlank c = true := fun c hc hblank => by
    have hnot := List.head?_dropWhile_not isBlank t
    rw [Option.mem_def.mp hc] at hnot
    exact absurd hblank (Bool.eq_false_iff.mp hnot)
  rw [← List.takeWhile_append_dropWhile (p := isBlank) (l := t), ← List.append_assoc,
    tokens_blank_of_head (List.forall_mem_append.mpr ⟨h, hall⟩) hhead,
    tokens_blank_of_head hall hhead]

end Tokens

/-! ## Comments -/

/-- Comments begin so. -/
def BeginsComment (l : List Char) : Prop := ['/', '*'] <+: l ∨ ['/', '/'] <+: l

instance : DecidablePred BeginsComment := fun _ => inferInstanceAs (Decidable (_ ∨ _))

/-- What begins and ends as a comment does. -/
def IsComment (l : List Char) : Prop :=
  BeginsComment l ∧ (l.getLast? = some '/' ∨ l.getLast? = some '\n')

instance : DecidablePred IsComment := fun _ => inferInstanceAs (Decidable (_ ∧ _))

section Comments

variable {text l t : List Char} {kind : Kind} {depth n : ℕ}

/-- **A block comment ends with a slash**, whatever is inside it. -/
theorem exists_of_commentRest (h : commentRest depth text = some n) :
    ∃ body rest, text = body ++ '/' :: rest ∧ n = body.length + 1 := by
  induction hlength : text.length using Nat.strong_induction_on generalizing text depth n with
  | _ k ih =>
    subst hlength
    match text with
    | [] => cases h
    | [_] => cases h
    | c :: c' :: text =>
      -- two letters are passed where a comment inside begins or ends
      have hpass : ∀ {d m : ℕ}, commentRest d text = some m →
          ∃ body rest, c :: c' :: text = body ++ '/' :: rest ∧ m + 2 = body.length + 1 :=
        fun hm => by
          obtain ⟨body, rest, rfl, rfl⟩ :=
            ih text.length (by simp only [List.length_cons]; omega) hm rfl
          exact ⟨c :: c' :: body, rest, rfl, rfl⟩
      unfold commentRest at h
      rw [Option.orElse_eq_or, Option.or_eq_some_iff] at h
      rcases h with h | ⟨-, h⟩
      · split_ifs at h with hend hbegin
        · cases depth with
          | zero =>
            cases h
            exact ⟨[c], text, by rw [hend.2]; rfl, rfl⟩
          | succ depth =>
            obtain ⟨m, hm, rfl⟩ := Option.map_eq_some_iff.mp h
            exact hpass hm
        · obtain ⟨m, hm, rfl⟩ := Option.map_eq_some_iff.mp h
          exact hpass hm
      · obtain ⟨m, hm, rfl⟩ := Option.map_eq_some_iff.mp h
        obtain ⟨body, rest, heq, rfl⟩ :=
          ih (c' :: text).length (by simp only [List.length_cons]; omega) hm rfl
        exact ⟨c :: body, rest, by rw [heq]; rfl, rfl⟩

theorem exists_of_commentLength (h : commentLength text = some n) :
    ∃ body rest, text = '/' :: '*' :: (body ++ '/' :: rest) ∧ n = body.length + 3 := by
  unfold commentLength at h
  split at h
  · obtain ⟨m, hm, rfl⟩ := Option.map_eq_some_iff.mp h
    obtain ⟨body, rest, rfl, rfl⟩ := exists_of_commentRest hm
    exact ⟨body, rest, rfl, rfl⟩
  · cases h

/-- What is read as a block comment. -/
theorem isComment_of_commentLength (h : commentLength (l ++ t) = some l.length) :
    IsComment l := by
  obtain ⟨body, rest, htext, hlength⟩ := exists_of_commentLength h
  have hsplit : l ++ t = ('/' :: '*' :: (body ++ ['/'])) ++ rest := by
    rw [htext]
    simp
  obtain ⟨rfl, -⟩ := List.append_inj hsplit (by simp [hlength])
  refine ⟨.inl ⟨_, rfl⟩, .inl ?_⟩
  rw [← List.cons_append, ← List.cons_append, List.getLast?_concat]

/-- No rule matches more than there is. -/
theorem length_le (h : kind.length text = some n) : n ≤ text.length := by
  by_cases hkind : kind = .comment
  · subst hkind
    obtain ⟨body, rest, rfl, rfl⟩ := exists_of_commentLength h
    simp only [List.length_cons, List.length_append]
    omega
  · rw [length_of_ne hkind] at h
    exact longest_le h

/-- What else matches where a block comment begins. -/
theorem length_of_block (hkind : kind ≠ .comment) :
    kind.length ('/' :: '*' :: text) = kind.length ['/'] := by
  rw [length_of_ne hkind, length_of_ne hkind]
  refine longest_append (w := ['/']) (fun u => notMem_of_after (t := ['/', '*']) ?_ u)
  cases kind <;> rfl

/-- What else matches where the comment of a line begins. -/
theorem length_of_line (hkind : kind ≠ .comment) (hline : kind ≠ .lineComment) :
    kind.length ('/' :: '/' :: text) = kind.length ['/'] := by
  rw [length_of_ne hkind, length_of_ne hkind]
  refine longest_append (w := ['/']) (fun u => notMem_of_after (t := ['/', '/']) ?_ u)
  cases kind <;> first | rfl | exact absurd rfl hline

/-- The comment of a line. -/
theorem isComment_of_mem (h : l ∈ Kind.lineComment.pattern.language) : IsComment l := by
  change l ∈ (seq (lit "//") (seq (star (letter (· != '\n'))) (seq (lit "\n") empty))).language at h
  simp only [language_seq, Language.mem_mul, lit, mem_word] at h
  obtain ⟨_, rfl, _, ⟨body, -, _, ⟨_, rfl, _, rfl, rfl⟩, rfl⟩, rfl⟩ := h
  refine ⟨.inr ⟨_, rfl⟩, .inr ?_⟩
  rw [List.append_nil, ← List.append_assoc, List.getLast?_append]
  rfl

end Comments

/-! ## Lexemes -/

/-- The token of a lexeme, if it is not skipped. -/
def tokenOf (l : List Char) : Option Token :=
  match nextLexeme l with
  | some (kind, n) => if n = l.length ∧ kind.skipped = false then some (kind, l) else none
  | none => none

/-- White space, a comment or a token. -/
def IsLexeme (l : List Char) : Prop :=
  (∀ c ∈ l, isBlank c = true) ∨ IsComment l ∨ (tokenOf l).isSome = true

/-- **The lexer reads these lexemes**: each of them but white space is what
matches most at its place. -/
def ReadAs : List (List Char) → Prop
  | [] => True
  | l :: ls =>
    ((∀ c ∈ l, isBlank c = true) ∨
      (nextLexeme (l ++ ls.flatten)).map Prod.snd = some l.length) ∧ ReadAs ls

instance : (ls : List (List Char)) → Decidable (ReadAs ls)
  | [] => isTrue trivial
  | l :: ls =>
    have : Decidable (∀ c ∈ l, isBlank c = true) := List.decidableBAll _ l
    have := instDecidableReadAs ls
    inferInstanceAs (Decidable (_ ∧ _))

section Texts

variable {l t : List Char} {kind : Kind} {token : Token} {ls : List (List Char)}

theorem tokenOf_eq_some_iff :
    tokenOf l = some (kind, t) ↔
      nextLexeme l = some (kind, l.length) ∧ kind.skipped = false ∧ t = l := by
  unfold tokenOf
  cases nextLexeme l with
  | none => exact iff_of_false (fun h => by cases h) fun h => by cases h.1
  | some found =>
    obtain ⟨other, n⟩ := found
    dsimp only
    constructor
    · intro h
      split_ifs at h with hif
      cases h
      exact ⟨by rw [hif.1], hif.2, rfl⟩
    · rintro ⟨heq, hskipped, rfl⟩
      cases heq
      exact if_pos ⟨rfl, hskipped⟩

theorem tokenOf_blank (h : ∀ c ∈ l, isBlank c = true) : tokenOf l = none := by
  by_cases hne : l = []
  · subst hne
    rfl
  · have hnext := nextLexeme_blank (t := []) h hne fun c hc => by cases hc
    rw [List.append_nil] at hnext
    unfold tokenOf
    rw [hnext]
    exact if_neg fun hif => by cases hif.2

/-- **A token is a word** of its rule. -/
theorem mem_of_tokenOf (h : tokenOf l = some (kind, t)) : l ∈ kind.pattern.language := by
  obtain ⟨hnext, hskipped, -⟩ := tokenOf_eq_some_iff.mp h
  have hne : kind ≠ .comment := fun heq => by rw [heq] at hskipped; cases hskipped
  have hlength := longestOf_length hnext
  rw [length_of_ne hne] at hlength
  have hmem := mem_of_longest hlength
  rwa [List.take_length] at hmem

/-- Where a block comment begins, nothing else matches more than a slash. -/
theorem not_block_of_length (hne : kind ≠ .comment)
    (h : kind.length (l ++ t) = some l.length) : ¬['/', '*'] <+: l := by
  rintro ⟨u, rfl⟩
  rw [List.append_assoc, List.cons_append, List.cons_append, List.nil_append,
    length_of_block hne, length_of_ne hne] at h
  have hle := longest_le h
  simp only [List.length_cons, List.length_append, List.length_nil] at hle
  omega

/-- A token does not begin as a comment does. -/
theorem not_beginsComment_of_tokenOf (h : tokenOf l = some (kind, t)) : ¬BeginsComment l := by
  obtain ⟨hnext, hskipped, -⟩ := tokenOf_eq_some_iff.mp h
  have hne : kind ≠ .comment := fun heq => by rw [heq] at hskipped; cases hskipped
  have hline : kind ≠ .lineComment := fun heq => by rw [heq] at hskipped; cases hskipped
  have hlength := longestOf_length hnext
  rintro (hblock | ⟨u, rfl⟩)
  · rw [← List.append_nil l] at hlength
    exact not_block_of_length hne (by rwa [List.append_nil] at hlength ⊢) hblock
  · rw [List.cons_append, List.cons_append, length_of_line hne hline, length_of_ne hne] at hlength
    have hle := longest_le hlength
    rw [List.length_singleton, List.length_cons, List.length_cons] at hle
    omega

theorem IsComment.tokenOf (h : IsComment l) : Lexer.tokenOf l = none := by
  cases htoken : Lexer.tokenOf l with
  | none => rfl
  | some token => exact absurd h.1 (not_beginsComment_of_tokenOf htoken)

/-- What begins so is one. -/
theorem IsLexeme.isComment (h : IsLexeme l) (hbegins : BeginsComment l) : IsComment l := by
  obtain hblank | hcomment | hsome := h
  · obtain ⟨u, rfl⟩ | ⟨u, rfl⟩ := hbegins <;>
      exact absurd (hblank '/' List.mem_cons_self) (by decide)
  · exact hcomment
  · obtain ⟨⟨kind, l'⟩, htoken⟩ := Option.isSome_iff_exists.mp hsome
    exact absurd hbegins (not_beginsComment_of_tokenOf htoken)

/-- **What is read at its place is read alone**, unless it is a block comment. -/
theorem nextLexeme_of_append (h : nextLexeme (l ++ t) = some (kind, l.length))
    (hne : kind ≠ .comment) : nextLexeme l = some (kind, l.length) := by
  have hblock := not_block_of_length hne (longestOf_length h)
  rw [← h]
  refine longestOf_congr fun other hother => ?_
  have hle : ∀ n, other.length (l ++ t) = some n → n ≤ l.length :=
    fun n hn => le_of_longestOf h hother hn
  by_cases hcomment : other = .comment
  · -- neither text has a block comment that ends in time
    subst hcomment
    have hnone : ∀ {text}, text <+: l ++ t → (∀ n, commentLength text = some n → n ≤ l.length) →
        commentLength text = none := by
      intro text htext hle
      cases hlength : commentLength text with
      | none => rfl
      | some n =>
        obtain ⟨body, rest, rfl, rfl⟩ := exists_of_commentLength hlength
        have hl : 2 ≤ l.length := (Nat.le_add_left 2 (body.length + 1)).trans (hle _ hlength)
        exact absurd (List.prefix_of_prefix_length_le ((List.prefix_append ['/', '*'] _).trans
          htext) (List.prefix_append l t) hl) hblock
    have hself : ∀ n, Kind.comment.length l = some n → n ≤ l.length := fun n hn => length_le hn
    exact (hnone (List.prefix_append l t) hself).trans (hnone List.prefix_rfl hle).symm
  · rw [length_of_ne hcomment] at hle
    rw [length_of_ne hcomment, length_of_ne hcomment, longest_of_le hle]

/-- White space, if it is matched as such. -/
theorem isBlank_of_mem (h : l ∈ Kind.ws.pattern.language) : ∀ c ∈ l, isBlank c = true := by
  obtain ⟨_, ⟨b, hb, rfl⟩, u, hu, rfl⟩ := Language.mem_mul.mp h
  exact List.forall_mem_cons.mpr ⟨hb, mem_star_letter.mp hu⟩

/-- **One lexeme**, and the text behind it. -/
theorem tokens_lexeme (h : (nextLexeme (l ++ t)).map Prod.snd = some l.length) (hl : l ≠ []) :
    IsLexeme l ∧ tokens (l ++ t) = (tokens t).map ((tokenOf l).toList ++ ·) := by
  obtain ⟨⟨kind, n⟩, hnext, hn⟩ := Option.map_eq_some_iff.mp h
  obtain rfl : n = l.length := hn
  rw [tokens_append hnext hl]
  -- a comment need not be read again as one, since another may begin in it
  by_cases hcomment : kind = .comment
  · subst hcomment
    have hl := isComment_of_commentLength (longestOf_length hnext)
    rw [hl.tokenOf]
    exact ⟨.inr (.inl hl), rfl⟩
  have hself := nextLexeme_of_append hnext hcomment
  have hmem : l ∈ kind.pattern.language := by
    have hlength := longestOf_length hself
    rw [length_of_ne hcomment] at hlength
    have hmem := mem_of_longest hlength
    rwa [List.take_length] at hmem
  cases hskipped : kind.skipped with
  | false =>
    have htoken : tokenOf l = some (kind, l) := tokenOf_eq_some_iff.mpr ⟨hself, hskipped, rfl⟩
    rw [htoken]
    exact ⟨.inr (.inr (by rw [htoken]; rfl)), rfl⟩
  | true =>
    have hlexeme : (∀ c ∈ l, isBlank c = true) ∨ IsComment l := by
      cases kind <;> first | exact absurd rfl hcomment | exact .inl (isBlank_of_mem hmem) |
        exact .inr (isComment_of_mem hmem) | cases hskipped
    have htoken : tokenOf l = none := hlexeme.elim tokenOf_blank IsComment.tokenOf
    rw [htoken]
    exact ⟨hlexeme.imp_right .inl, rfl⟩

/-- **What the lexer reads are lexemes.** -/
theorem ReadAs.isLexeme (h : ReadAs ls) : ∀ l ∈ ls, IsLexeme l := by
  induction ls with
  | nil => exact List.forall_mem_nil _
  | cons l ls ih =>
    refine List.forall_mem_cons.mpr ⟨?_, ih h.2⟩
    by_cases hne : l = []
    · exact .inl fun c hc => by rw [hne] at hc; cases hc
    · exact h.1.elim .inl fun hnext => (tokens_lexeme hnext hne).1

/-- **The tokens of a text** are those of the lexemes that are read. -/
theorem tokens_flatten (h : ReadAs ls) : tokens ls.flatten = some (ls.filterMap tokenOf) := by
  induction ls with
  | nil => rfl
  | cons l ls ih =>
    have hstep : tokens (l ++ ls.flatten) =
        (tokens ls.flatten).map ((tokenOf l).toList ++ ·) := by
      rcases h.1 with hblank | hnext
      · rw [tokens_blank hblank, tokenOf_blank hblank]
        exact Option.map_id'.symm
      · by_cases hne : l = []
        · rw [hne]
          exact Option.map_id'.symm
        · exact (tokens_lexeme hnext hne).2
    rw [List.flatten_cons, hstep, ih h.2]
    cases htoken : tokenOf l with
    | none => rw [List.filterMap_cons_none htoken]; rfl
    | some token => rw [List.filterMap_cons_some htoken]; rfl

/-- A comment inside a comment need not end. -/
example : ReadAs ["r".toList, "/* /* */".toList] := by decide +kernel

/-- **Every text that has tokens** is read so. -/
theorem exists_readAs {text : List Char} {ts : List Token} (h : tokens text = some ts) :
    ∃ ls, ls.flatten = text ∧ ReadAs ls := by
  -- on the length of the text, which is cut after the lexeme in front
  induction hlength : text.length using Nat.strong_induction_on generalizing text ts with
  | _ n ih =>
    subst hlength
    cases text with
    | nil => exact ⟨[], rfl, trivial⟩
    | cons c text =>
      unfold tokens at h
      rw [List.length_cons] at h
      unfold tokensIn at h
      cases hnext : nextLexeme (c :: text) with
      | none =>
        rw [hnext] at h
        cases h
      | some found =>
        obtain ⟨kind, n⟩ := found
        rw [hnext] at h
        cases n with
        | zero => cases h
        | succ n =>
          obtain ⟨ts', hts', -⟩ := Option.map_eq_some_iff.mp h
          have hdrop : ((c :: text).drop (n + 1)).length ≤ text.length := by
            rw [List.drop_succ_cons, List.length_drop]
            exact Nat.sub_le _ _
          rw [tokensIn_eq hdrop] at hts'
          obtain ⟨ls, hflatten, hread⟩ := ih _ (Nat.lt_succ_of_le hdrop) hts' rfl
          have hsplit : (c :: text).take (n + 1) ++ ls.flatten = c :: text := by
            rw [hflatten, List.take_append_drop]
          refine ⟨(c :: text).take (n + 1) :: ls, hsplit, .inr ?_, hread⟩
          rw [hsplit, hnext, List.length_take,
            Nat.min_eq_left (length_le (longestOf_length hnext))]
          rfl

end Texts

end Lexer

end Xl

end FlowBlaze

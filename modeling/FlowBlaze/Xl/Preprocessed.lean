import FlowBlaze.Common.Json
import FlowBlaze.Xl.Rewriting
/-!
# Preprocessed programs

What the preprocessor is for: a program's tokens with those of the imported
files in place of the import statements, without the definitions of
constants, and with the values in place of the identifiers that name them.

The preprocessor rewrites letters, and takes the constants from the program
without its files. It does what it is for if the letters that it rewrites
stand nowhere else: before an import statement no `import`, before a
definition no `Constant`, not even in a comment, an identifier or a file; no
semicolon in the comments of a statement; no `$` and no `\` in a file; the
name of a constant only as an identifier or inside comments, when its turn
comes; if the files change no constant that is used; and if the lexer still
reads each token where others have come next to it.
-/

namespace FlowBlaze

namespace Xl

namespace PreProcessor

open Lexer

/-! ## Tokens -/

/-- The tokens with something else in place of the statements of a keyword,
from inside a statement or outside. -/
def replaceStatements (keyword : Kind) (put : List Token → List Token) :
    Bool → List Token → List Token
  | _, [] => []
  | true, t :: ts => replaceStatements keyword put (t.1 != .semicolon) ts
  | false, t :: ts =>
    if t.1 = keyword then put (statement ts) ++ replaceStatements keyword put true ts
    else t :: replaceStatements keyword put false ts

/-- The tokens of the files of an import statement. -/
def importedTokens (read : List Char → Option (List Char)) (ts : List Token) : List Token :=
  (fileNames ts).flatMap fun name => ((read name).bind tokens).getD []

/-- The value of a constant in place of its name. -/
def substitute (constants : List (List Char × Token)) (t : Token) : Token :=
  if t.1 = .id then (constantValue constants t.2).getD t else t

/-- The tokens of the program and of its files. -/
def withFiles (read : List Char → Option (List Char)) (ts : List Token) : List Token :=
  replaceStatements .fileImport (importedTokens read) false ts

/-- **What the preprocessed program should consist of**: the constants are those
of the program and of its files. -/
def substituted (read : List Char → Option (List Char)) (ts : List Token) : List Token :=
  (replaceStatements .constantDefKeyword (fun _ => []) false (withFiles read ts)).map
    (substitute (assignments (withFiles read ts)))

/-- **Preprocessing substitutes tokens.** -/
def SubstitutesTokens (read : List Char → Option (List Char)) (order : List (List Char))
    (source : List Char) : Prop :=
  ((tokens source).bind fun ts => (preProcessFile read order ts source).bind tokens) =
    (tokens source).map (substituted read)

/-! ## Programs as lexemes -/

/-- The keywords of the statements that are rewritten. -/
inductive Keyword
  | imports
  | constants
  deriving DecidableEq

def Keyword.kind : Keyword → Kind
  | imports => .fileImport
  | constants => .constantDefKeyword

def Keyword.text : Keyword → List Char
  | imports => "import".toList
  | constants => "Constant".toList

/-- A lexeme, or a statement: what is between its keyword and its semicolon. -/
inductive Item
  | lexeme (l : List Char)
  | statement (keyword : Keyword) (inner : List (List Char))

def Item.lexemes : Item → List (List Char)
  | lexeme l => [l]
  | statement keyword inner => keyword.text :: (inner ++ [[';']])

/-- What is between the keyword and the semicolon. -/
def Item.inner (keyword : Keyword) : Item → Option (List (List Char))
  | lexeme _ => none
  | statement other inner => if other = keyword then some inner else none

/-- Keywords stand at the beginning of statements, semicolons at the end. -/
def Item.WellFormed : Item → Prop
  | lexeme l => ∀ keyword : Keyword, l ≠ keyword.text
  | statement _ inner => ∀ l ∈ inner, (∀ keyword : Keyword, l ≠ keyword.text) ∧ ';' ∉ l

/-- The lexemes of a program. -/
def lexemes (items : List Item) : List (List Char) := items.flatMap Item.lexemes

/-- The text of a program. -/
def text (items : List Item) : List Char := (lexemes items).flatten

/-- The tokens of lexemes. -/
def tokensOf (ls : List (List Char)) : List Token := ls.filterMap tokenOf

/-- The tokens of an item, with something else for a statement. -/
def Item.tokensWith (keyword : Keyword) (put : List Token → List Token) (item : Item) :
    List Token :=
  ((item.inner keyword).map fun inner => put (tokensOf inner)).getD (tokensOf item.lexemes)

section Items

variable {items : List Item} {item : Item} {keyword : Keyword} {inner ls : List (List Char)}
  {put : List Token → List Token} {xs ts : List Token} {kind : Kind} {l t : List Char}

theorem inner_self (keyword : Keyword) (inner : List (List Char)) :
    (Item.statement keyword inner).inner keyword = some inner := if_pos rfl

theorem inner_of_ne {other : Keyword} (h : other ≠ keyword) (inner : List (List Char)) :
    (Item.statement other inner).inner keyword = none := if_neg h

theorem tokenOf_keyword (keyword : Keyword) :
    tokenOf keyword.text = some (keyword.kind, keyword.text) := by
  cases keyword <;> decide +kernel

theorem tokenOf_semicolon : tokenOf [';'] = some (.semicolon, [';']) := by decide +kernel

/-- The token of a keyword is the keyword. -/
theorem eq_of_tokenOf_keyword (h : tokenOf l = some (keyword.kind, t)) : l = keyword.text := by
  have hmem := mem_of_tokenOf h
  cases keyword <;> exact Pattern.mem_word.mp hmem

theorem ne_of_tokenOf_semicolon (h : tokenOf l = some (kind, t)) (hl : ';' ∉ l) :
    kind ≠ .semicolon := by
  rintro rfl
  have hmem : l = [';'] := Pattern.mem_word.mp (mem_of_tokenOf h)
  exact hl (hmem ▸ List.mem_cons_self)

theorem tokensOf_append (ls ls' : List (List Char)) :
    tokensOf (ls ++ ls') = tokensOf ls ++ tokensOf ls' := List.filterMap_append

theorem tokensOf_statement (keyword : Keyword) (inner ls : List (List Char)) :
    tokensOf ((Item.statement keyword inner).lexemes ++ ls) =
      (keyword.kind, keyword.text) :: (tokensOf inner ++ (.semicolon, [';']) :: tokensOf ls) := by
  change tokensOf (keyword.text :: (inner ++ [[';']] ++ ls)) = _
  unfold tokensOf
  rw [List.filterMap_cons_some (tokenOf_keyword keyword), List.append_assoc,
    List.filterMap_append, List.singleton_append, List.filterMap_cons_some tokenOf_semicolon]

/-- Inside a well-formed statement there is no semicolon. -/
theorem ne_semicolon_of_inner (h : (Item.statement keyword inner).WellFormed) :
    ∀ t ∈ tokensOf inner, t.1 ≠ .semicolon := by
  intro t ht
  obtain ⟨l, hl, htoken⟩ := List.mem_filterMap.mp ht
  exact ne_of_tokenOf_semicolon htoken (h l hl).2

/-- No lexeme that is no keyword has the token of one. -/
theorem ne_keyword_of_notMem (h : ∀ l ∈ ls, ∀ keyword : Keyword, l ≠ keyword.text)
    (keyword : Keyword) : ∀ t ∈ tokensOf ls, t.1 ≠ keyword.kind := by
  intro t ht heq
  obtain ⟨l, hl, htoken⟩ := List.mem_filterMap.mp ht
  obtain ⟨kind, l'⟩ := t
  cases heq
  exact h l hl keyword (eq_of_tokenOf_keyword htoken)

theorem statement_append (h : ∀ t ∈ xs, t.1 ≠ .semicolon) (ts : List Token) :
    statement (xs ++ (.semicolon, l) :: ts) = xs := by
  unfold statement
  rw [List.takeWhile_append_of_pos fun t ht => bne_iff_ne.mpr (h t ht),
    List.takeWhile_cons_of_neg Bool.false_ne_true, List.append_nil]

theorem replaceStatements_inside (h : ∀ t ∈ xs, t.1 ≠ .semicolon) :
    replaceStatements kind put true (xs ++ (.semicolon, l) :: ts) =
      replaceStatements kind put false ts := by
  induction xs with
  | nil => rfl
  | cons x xs ih =>
    obtain ⟨hx, hxs⟩ := List.forall_mem_cons.mp h
    change replaceStatements kind put (x.1 != .semicolon) (xs ++ (.semicolon, l) :: ts) = _
    rw [bne_iff_ne.mpr hx, ih hxs]

theorem replaceStatements_append (h : ∀ t ∈ xs, t.1 ≠ kind) (ts : List Token) :
    replaceStatements kind put false (xs ++ ts) =
      xs ++ replaceStatements kind put false ts := by
  induction xs with
  | nil => rfl
  | cons x xs ih =>
    obtain ⟨hx, hxs⟩ := List.forall_mem_cons.mp h
    rw [List.cons_append]
    conv_lhs => unfold replaceStatements
    rw [if_neg hx, ih hxs]
    rfl

theorem statements_append (h : ∀ t ∈ xs, t.1 ≠ kind) (ts : List Token) :
    statements kind (xs ++ ts) = statements kind ts := by
  induction xs with
  | nil => rfl
  | cons x xs ih =>
    obtain ⟨hx, hxs⟩ := List.forall_mem_cons.mp h
    rw [List.cons_append]
    conv_lhs => unfold statements
    rw [if_neg hx, ih hxs]

theorem Keyword.kind_injective {k k' : Keyword} (h : k.kind = k'.kind) : k = k' := by
  cases k <;> cases k' <;> first | rfl | cases h

/-- **The tokens with something else for the statements**, item by item. -/
theorem replaceStatements_lexemes (h : ∀ item ∈ items, item.WellFormed) :
    replaceStatements keyword.kind put false (tokensOf (lexemes items)) =
      items.flatMap (Item.tokensWith keyword put) := by
  induction items with
  | nil => rfl
  | cons item items ih =>
    obtain ⟨hitem, hitems⟩ := List.forall_mem_cons.mp h
    have hcons : lexemes (item :: items) = item.lexemes ++ lexemes items := List.flatMap_cons
    rw [hcons, List.flatMap_cons, ← ih hitems]
    cases item with
    | lexeme l =>
      rw [tokensOf_append]
      exact replaceStatements_append
        (ne_keyword_of_notMem (List.forall_mem_singleton.mpr hitem) keyword) _
    | statement other inner =>
      have hsemicolon := ne_semicolon_of_inner hitem
      have hinner := ne_keyword_of_notMem (fun l hl => (hitem l hl).1) keyword
      unfold Item.tokensWith
      -- a statement of another keyword holds no keyword inside, and stays
      by_cases heq : other = keyword
      · subst heq
        rw [inner_self, tokensOf_statement]
        conv_lhs => unfold replaceStatements
        rw [if_pos rfl, statement_append hsemicolon, replaceStatements_inside hsemicolon]
        rfl
      · rw [inner_of_ne heq, tokensOf_append]
        refine replaceStatements_append (fun t ht => ?_) _
        rw [← List.append_nil (Item.statement other inner).lexemes, tokensOf_statement] at ht
        rcases List.mem_cons.mp ht with rfl | ht
        · exact fun hkind => heq (Keyword.kind_injective hkind)
        · rcases List.mem_append.mp ht with ht | ht
          · exact hinner t ht
          · rw [List.mem_singleton.mp ht]
            cases keyword <;> decide

/-- The statements of a program. -/
theorem statements_lexemes (h : ∀ item ∈ items, item.WellFormed) :
    statements keyword.kind (tokensOf (lexemes items)) =
      items.filterMap fun item => (item.inner keyword).map tokensOf := by
  induction items with
  | nil => rfl
  | cons item items ih =>
    obtain ⟨hitem, hitems⟩ := List.forall_mem_cons.mp h
    have hcons : lexemes (item :: items) = item.lexemes ++ lexemes items := List.flatMap_cons
    rw [hcons]
    cases item with
    | lexeme l =>
      have hlexeme : ∀ t ∈ tokensOf (Item.lexeme l).lexemes, t.1 ≠ keyword.kind :=
        ne_keyword_of_notMem (List.forall_mem_singleton.mpr hitem) keyword
      rw [tokensOf_append, statements_append hlexeme, ih hitems]
      rfl
    | statement other inner =>
      have hsemicolon := ne_semicolon_of_inner hitem
      have hinner := ne_keyword_of_notMem (fun l hl => (hitem l hl).1) keyword
      have hrest : statements keyword.kind
          (tokensOf inner ++ (.semicolon, [';']) :: tokensOf (lexemes items)) =
            items.filterMap fun item => (item.inner keyword).map tokensOf := by
        rw [statements_append hinner, ← ih hitems]
        conv_lhs => unfold statements
        exact if_neg (by cases keyword <;> decide)
      rw [tokensOf_statement]
      conv_lhs => unfold statements
      rw [hrest, statement_append hsemicolon, List.filterMap_cons]
      by_cases heq : other = keyword
      · rw [if_pos (congrArg Keyword.kind heq), heq, inner_self]
        rfl
      · rw [if_neg fun hkind => heq (Keyword.kind_injective hkind), inner_of_ne heq]
        rfl

end Items

/-! ## What is left of a program -/

/-- An item with the files of an import statement for it. -/
def Item.expanded (files : List Char → List Item) (item : Item) : List Item :=
  match item.inner .imports with
  | some inner => (fileNames (tokensOf inner)).flatMap files
  | none => [item]

/-- The program with its files. -/
def expand (files : List Char → List Item) (items : List Item) : List Item :=
  items.flatMap (Item.expanded files)

/-- The program without the definitions of constants. -/
def withoutConstants (items : List Item) : List Item :=
  items.filter fun item => (item.inner .constants).isNone

/-- **No `import`** before an import statement, and nothing in its files that
stands for something else. -/
def ImportsClear (files : List Char → List Item) : List Char → List Item → Prop
  | _, [] => True
  | before, item :: items =>
    ((item.inner .imports).isSome = true → ¬"import".toList <:+: before ∧
      ∀ c ∈ text (item.expanded files), c ≠ '\\' ∧ c ≠ '$') ∧
    ImportsClear files (before ++ text (item.expanded files)) items

/-- **No `Constant`** before a definition, and none that a semicolon follows
behind the last one. -/
def ConstantsClear : List Char → List Item → Prop
  | before, [] => findStatement "Constant".toList before = none
  | before, item :: items =>
    if (item.inner .constants).isSome then
      ¬"Constant".toList <:+: before ∧ ConstantsClear [] items
    else ConstantsClear (before ++ text [item]) items

/-- Lexemes with the values of the constants for their names. -/
def putAll (constants : List (List Char × Token)) (order : List (List Char))
    (ls : List (List Char)) : List (List Char) :=
  order.foldl (fun ls name => ls.map (put name (valueText constants name))) ls

/-- **The names** stand whole, each when its turn comes. -/
def NamesClear (constants : List (List Char × Token)) :
    List (List Char) → List (List Char) → Prop
  | [], _ => True
  | name :: order, ls =>
    Whole name ls ∧ NamesClear constants order (ls.map (put name (valueText constants name)))

instance : DecidablePred Item.WellFormed
  | .lexeme l => decidable_of_iff (l ≠ Keyword.imports.text ∧ l ≠ Keyword.constants.text)
    ⟨fun h keyword => by cases keyword <;> [exact h.1; exact h.2], fun h => ⟨h _, h _⟩⟩
  | .statement _ inner => decidable_of_iff
    (∀ l ∈ inner, (l ≠ Keyword.imports.text ∧ l ≠ Keyword.constants.text) ∧ ';' ∉ l)
    ⟨fun h l hl => ⟨fun keyword => by cases keyword <;> [exact (h l hl).1.1; exact (h l hl).1.2],
      (h l hl).2⟩, fun h l hl => ⟨⟨(h l hl).1 _, (h l hl).1 _⟩, (h l hl).2⟩⟩

instance (files : List Char → List Item) :
    (before : List Char) → (items : List Item) → Decidable (ImportsClear files before items)
  | _, [] => isTrue trivial
  | before, item :: items =>
    have : Decidable (∀ c ∈ text (item.expanded files), c ≠ '\\' ∧ c ≠ '$') :=
      List.decidableBAll _ _
    have := instDecidableImportsClear files (before ++ text (item.expanded files)) items
    inferInstanceAs (Decidable (_ ∧ _))

instance : (before : List Char) → (items : List Item) → Decidable (ConstantsClear before items)
  | before, [] => inferInstanceAs (Decidable (findStatement _ before = none))
  | before, item :: items =>
    have := instDecidableConstantsClear [] items
    have := instDecidableConstantsClear (before ++ text [item]) items
    inferInstanceAs (Decidable (if (item.inner .constants).isSome then
      ¬"Constant".toList <:+: before ∧ ConstantsClear [] items
    else ConstantsClear (before ++ text [item]) items))

instance (constants : List (List Char × Token)) :
    (order ls : List (List Char)) → Decidable (NamesClear constants order ls)
  | [], _ => isTrue trivial
  | name :: order, ls =>
    have := instDecidableNamesClear constants order
      (ls.map (put name (valueText constants name)))
    inferInstanceAs (Decidable (_ ∧ _))

section Texts

variable {items : List Item} {item : Item} {files : List Char → List Item}
  {read : List Char → Option (List Char)} {before : List Char} {inner : List (List Char)}
  {keyword : Keyword}

theorem text_cons (item : Item) (items : List Item) :
    text (item :: items) = text [item] ++ text items := by
  unfold text lexemes
  rw [List.flatMap_cons, List.flatten_append, List.flatMap_singleton]

theorem text_append (items items' : List Item) :
    text (items ++ items') = text items ++ text items' := by
  unfold text lexemes
  rw [List.flatMap_append, List.flatten_append]

theorem flatten_map_text (names : List (List Char)) :
    (names.map (text ∘ files)).flatten = text (names.flatMap files) := by
  induction names with
  | nil => rfl
  | cons name names ih =>
    rw [List.map_cons, List.flatten_cons, ih, List.flatMap_cons, text_append]
    rfl

theorem text_statement (keyword : Keyword) (inner : List (List Char)) (items : List Item) :
    text (.statement keyword inner :: items) =
      keyword.text ++ (inner.flatten ++ ';' :: text items) := by
  rw [text_cons]
  unfold text lexemes
  rw [List.flatMap_singleton]
  change (keyword.text :: (inner ++ [[';']])).flatten ++ _ = _
  rw [List.flatten_cons, List.flatten_append, List.flatten_singleton, List.append_assoc,
    List.append_assoc, List.singleton_append]

theorem eq_statement_of_inner (h : item.inner keyword = some inner) :
    item = .statement keyword inner := by
  cases item with
  | lexeme l => cases h
  | statement other inner' =>
    by_cases heq : other = keyword
    · rw [heq, inner_self] at h
      cases h
      rw [heq]
    · rw [inner_of_ne heq] at h
      cases h

theorem Keyword.borderless (keyword : Keyword) : Borderless keyword.text := by
  cases keyword <;> unfold Borderless <;> decide +kernel

theorem Keyword.text_ne_nil (keyword : Keyword) : keyword.text ≠ [] := by
  cases keyword <;> decide +kernel

theorem notMem_inner_flatten (h : (Item.statement keyword inner).WellFormed) :
    ';' ∉ inner.flatten := fun hmem => by
  obtain ⟨l, hl, hmem⟩ := List.mem_flatten.mp hmem
  exact (h l hl).2 hmem

/-- **The import statements** give way to the files, one after the other. -/
theorem foldlM_importGroup (hitems : ∀ item ∈ items, item.WellFormed)
    (hread : ∀ item ∈ items, ∀ inner ∈ item.inner .imports,
      ∀ name ∈ fileNames (tokensOf inner), read name = some (text (files name)))
    (hclear : ImportsClear files before items) :
    ((items.filterMap fun item => (item.inner .imports).map tokensOf).map fileNames).foldlM
      (importGroup read) (before ++ text items) = some (before ++ text (expand files items)) := by
  induction items generalizing before with
  | nil => rfl
  | cons item items ih =>
    obtain ⟨hitem, hitems⟩ := List.forall_mem_cons.mp hitems
    obtain ⟨hfirst, hread⟩ := List.forall_mem_cons.mp hread
    obtain ⟨hbefore, hclear⟩ := hclear
    have hexpand : expand files (item :: items) = item.expanded files ++ expand files items :=
      List.flatMap_cons
    rw [hexpand, text_append, ← List.append_assoc, ← ih hitems hread hclear, List.filterMap_cons]
    cases hinner : item.inner .imports with
    | none =>
      have hself : item.expanded files = [item] := by
        unfold Item.expanded
        rw [hinner]
      rw [hself, text_cons, List.append_assoc]
      rfl
    | some inner =>
      obtain rfl := eq_statement_of_inner hinner
      have hself : (Item.statement .imports inner).expanded files =
          (fileNames (tokensOf inner)).flatMap files := by
        unfold Item.expanded
        rw [hinner]
      obtain ⟨himport, hplain⟩ := hbefore (by rw [hinner]; rfl)
      have hfiles : (fileNames (tokensOf inner)).mapM read =
          some ((fileNames (tokensOf inner)).map (text ∘ files)) := by
        rw [Common.mapM_eq_some_iff, List.map_map]
        exact List.map_congr_left (hfirst inner hinner)
      rw [Option.map_some, List.map_cons, List.foldlM_cons]
      -- no `import` stands before the statement, so that it is the one replaced
      have hgroup : importGroup read (before ++ text (.statement .imports inner :: items))
          (fileNames (tokensOf inner)) =
            some (before ++ text ((fileNames (tokensOf inner)).flatMap files) ++ text items) := by
        unfold importGroup
        rw [hfiles, text_statement]
        change replaceFirst Keyword.imports.text _ _ = _
        unfold replaceFirst
        rw [findStatement_append Keyword.imports.borderless Keyword.imports.text_ne_nil himport
          (notMem_inner_flatten hitem), flatten_map_text, ← hself]
        dsimp only
        rw [appendReplacement_plain hplain]
        rfl
      rw [hgroup, hself]
      rfl

/-- **The definitions** go. -/
theorem removeStatements_text (hitems : ∀ item ∈ items, item.WellFormed)
    (hclear : ConstantsClear before items) :
    removeStatements "Constant".toList false (before ++ text items) =
      before ++ text (withoutConstants items) := by
  induction items generalizing before with
  | nil =>
    change removeStatements _ false (before ++ []) = before ++ []
    rw [List.append_nil]
    exact removeStatements_of_none hclear
  | cons item items ih =>
    obtain ⟨hitem, hrest⟩ := List.forall_mem_cons.mp hitems
    unfold ConstantsClear at hclear
    unfold withoutConstants
    cases hinner : item.inner .constants with
    | none =>
      rw [hinner] at hclear
      rw [List.filter_cons_of_pos (by rw [hinner]; rfl), text_cons item items,
        text_cons item (items.filter _), ← List.append_assoc, ← List.append_assoc]
      exact ih hrest hclear
    | some inner =>
      obtain rfl := eq_statement_of_inner hinner
      rw [hinner] at hclear
      obtain ⟨hbefore, hclear⟩ := hclear
      rw [List.filter_cons_of_neg (by rw [hinner]; exact Bool.false_ne_true), text_statement]
      refine (removeStatements_append Keyword.constants.borderless Keyword.constants.text_ne_nil
        (by decide +kernel) hbefore (notMem_inner_flatten hitem)).trans ?_
      exact congrArg (before ++ ·) (ih hrest hclear)

end Texts

/-! ## Names and values -/

/-- `integer | addr` -/
def valueKinds : List Kind := [.decimalInteger, .hexInteger, .ipv4Addr, .ipv6Addr, .macAddr]

/-- A definition as the grammar has it: an identifier, and a number or an
address. -/
def IsDefinition (constant : List Char × Token) : Prop :=
  tokenOf constant.1 = some (.id, constant.1) ∧ constant.2.1 ∈ valueKinds ∧
    tokenOf constant.2.2 = some constant.2

instance : DecidablePred IsDefinition := fun _ => inferInstanceAs (Decidable (_ ∧ _))

section Constants

variable {constants : List (List Char × Token)} {name l : List Char} {value : Token}
  {order : List (List Char)} {ls : List (List Char)}

theorem mem_of_constantValue (h : constantValue constants name = some value) :
    (name, value) ∈ constants := by
  obtain ⟨constant, hfind, rfl⟩ := Option.map_eq_some_iff.mp h
  have hname := List.find?_some hfind
  rw [← beq_iff_eq.mp hname]
  exact List.mem_reverse.mp (List.mem_of_find?_eq_some hfind)

theorem constantValue_isSome :
    (constantValue constants name).isSome = true ↔ name ∈ constants.map Prod.fst := by
  unfold constantValue
  rw [Option.isSome_map, List.find?_isSome, List.mem_map]
  simp only [List.mem_reverse, beq_iff_eq]

theorem ne_nil_of_tokenOf {kind : Kind} {t : List Char} (h : tokenOf l = some (kind, t)) :
    l ≠ [] := by
  rintro rfl
  cases h

/-- The letters of a name. -/
theorem IsDefinition.bland {constant : List Char × Token} (h : IsDefinition constant) :
    ∀ c ∈ constant.1, Bland c := by
  have havoids : ∀ c, Kind.id.pattern.avoids c = true → c ∉ constant.1 := fun c hc =>
    Pattern.notMem_of_avoids hc (mem_of_tokenOf h.1)
  exact fun c hc => ⟨fun heq => havoids '/' (by decide) (heq ▸ hc),
    fun heq => havoids '*' (by decide) (heq ▸ hc), fun heq => havoids '\n' (by decide) (heq ▸ hc)⟩

/-- What a name of the map stands for. -/
theorem exists_value (hconstants : ∀ constant ∈ constants, IsDefinition constant)
    (hname : name ∈ constants.map Prod.fst) :
    ∃ value, constantValue constants name = some value ∧ valueText constants name = value.2 ∧
      IsDefinition (name, value) := by
  obtain ⟨value, hvalue⟩ := Option.isSome_iff_exists.mp (constantValue_isSome.mpr hname)
  refine ⟨value, hvalue, ?_, hconstants _ (mem_of_constantValue hvalue)⟩
  unfold valueText
  rw [hvalue]
  rfl

/-- A value is not a name. -/
theorem IsDefinition.value_ne {value' : Token} (h : IsDefinition (name, value))
    (h' : IsDefinition (l, value')) : value.2 ≠ l := by
  intro heq
  obtain ⟨-, hkind, hvalue⟩ := h
  have hid := h'.1
  dsimp only at hkind hvalue hid
  rw [heq, hid] at hvalue
  rw [← Option.some.inj hvalue] at hkind
  exact absurd hkind (by decide : Kind.id ∉ valueKinds)

/-- **A lexeme stays one.** -/
theorem isLexeme_put (h : IsDefinition (name, value)) (hl : IsLexeme l) :
    IsLexeme (put name value.2 l) := by
  unfold put
  split_ifs with hbegins heq
  · exact .inr (.inl (isComment_replaceLiteral (ne_nil_of_tokenOf h.1) h.bland
      (hl.isComment hbegins)))
  · exact .inr (.inr (by rw [h.2.2]; rfl))
  · exact hl

/-- **The constants one after the other.** -/
theorem replaceConstants_flatten (hconstants : ∀ constant ∈ constants, IsDefinition constant)
    (horder : ∀ name ∈ order, name ∈ constants.map Prod.fst) (hls : ∀ l ∈ ls, IsLexeme l)
    (hclear : NamesClear constants order ls) :
    replaceConstants constants order ls.flatten = (putAll constants order ls).flatten := by
  induction order generalizing ls with
  | nil => rfl
  | cons name order ih =>
    obtain ⟨hname, horder⟩ := List.forall_mem_cons.mp horder
    obtain ⟨hwhole, hclear⟩ := hclear
    obtain ⟨value, -, htext, hdefinition⟩ := exists_value hconstants hname
    have hlexemes : ∀ l ∈ ls.map (put name (valueText constants name)), IsLexeme l := by
      intro l hl
      obtain ⟨l, hmem, rfl⟩ := List.mem_map.mp hl
      rw [htext]
      exact isLexeme_put hdefinition (hls l hmem)
    unfold replaceConstants putAll
    rw [List.foldl_cons, List.foldl_cons, replaceLiteral_flatten (ne_nil_of_tokenOf hdefinition.1)
      hdefinition.bland hls hwhole]
    exact ih horder hlexemes hclear

/-- What becomes of one lexeme. -/
theorem putAll_eq_map :
    putAll constants order ls = ls.map fun l =>
      order.foldl (fun l name => put name (valueText constants name) l) l := by
  unfold putAll
  induction order generalizing ls with
  | nil => exact (List.map_id' ls).symm
  | cons name order ih =>
    rw [List.foldl_cons, ih, List.map_map]
    rfl

/-- A comment stays one, whatever it holds. -/
theorem isComment_foldl (hconstants : ∀ constant ∈ constants, IsDefinition constant)
    (horder : ∀ name ∈ order, name ∈ constants.map Prod.fst) (hl : IsComment l) :
    IsComment (order.foldl (fun l name => put name (valueText constants name) l) l) := by
  induction order generalizing l with
  | nil => exact hl
  | cons name order ih =>
    obtain ⟨hname, horder⟩ := List.forall_mem_cons.mp horder
    obtain ⟨value, -, htext, hdefinition⟩ := exists_value hconstants hname
    have hput : put name (valueText constants name) l = replaceLiteral name value.2 0 l := by
      rw [htext]
      exact if_pos hl.1
    rw [List.foldl_cons, hput]
    exact ih horder (isComment_replaceLiteral (ne_nil_of_tokenOf hdefinition.1)
      hdefinition.bland hl)

/-- Another lexeme becomes the value of the constant that it names. -/
theorem foldl_put (hconstants : ∀ constant ∈ constants, IsDefinition constant)
    (horder : ∀ name ∈ order, name ∈ constants.map Prod.fst) (hbegins : ¬BeginsComment l) :
    order.foldl (fun l name => put name (valueText constants name) l) l =
      if l ∈ order then valueText constants l else l := by
  induction order generalizing l with
  | nil => rfl
  | cons name order ih =>
    obtain ⟨hname, horder⟩ := List.forall_mem_cons.mp horder
    obtain ⟨value, -, htext, hdefinition⟩ := exists_value hconstants hname
    have hput : put name (valueText constants name) l =
        if l = name then valueText constants name else l := if_neg hbegins
    rw [List.foldl_cons, hput]
    by_cases heq : l = name
    · have hvalue : value.2 ∉ order := fun hmem => by
        obtain ⟨other, -, -, hother⟩ := exists_value hconstants (horder _ hmem)
        exact hdefinition.value_ne hother rfl
      rw [if_pos heq, if_pos (heq ▸ List.mem_cons_self), heq, htext,
        ih horder (not_beginsComment_of_tokenOf hdefinition.2.2), if_neg hvalue]
    · rw [if_neg heq, ih horder hbegins]
      by_cases hmem : l ∈ order
      · rw [if_pos hmem, if_pos (List.mem_cons_of_mem _ hmem)]
      · rw [if_neg hmem, if_neg fun h => (List.mem_cons.mp h).elim heq hmem]

/-- **The token of what a lexeme becomes.** -/
theorem tokenOf_foldl (hconstants : ∀ constant ∈ constants, IsDefinition constant)
    (horder : ∀ name, name ∈ order ↔ name ∈ constants.map Prod.fst) (hl : IsLexeme l) :
    tokenOf (order.foldl (fun l name => put name (valueText constants name) l) l) =
      (tokenOf l).map (substitute constants) := by
  by_cases hbegins : BeginsComment l
  · have hcomment := hl.isComment hbegins
    rw [(isComment_foldl hconstants (fun name => (horder name).mp) hcomment).tokenOf,
      hcomment.tokenOf]
    rfl
  rw [foldl_put hconstants (fun name => (horder name).mp) hbegins]
  by_cases hmem : l ∈ order
  · obtain ⟨value, hvalue, htext, hdefinition⟩ :=
      exists_value hconstants ((horder l).mp hmem)
    rw [if_pos hmem, htext, hdefinition.2.2, hdefinition.1, Option.map_some]
    unfold substitute
    rw [if_pos rfl, hvalue]
    rfl
  · rw [if_neg hmem]
    cases htoken : tokenOf l with
    | none => rfl
    | some t =>
      obtain ⟨kind, l'⟩ := t
      obtain ⟨-, -, rfl⟩ := tokenOf_eq_some_iff.mp htoken
      have hnone : constantValue constants l' = none := by
        rw [← Option.not_isSome_iff_eq_none, constantValue_isSome, ← horder]
        exact hmem
      rw [Option.map_some]
      unfold substitute
      split_ifs
      · rw [hnone]
        rfl
      · rfl

theorem tokensOf_putAll (hconstants : ∀ constant ∈ constants, IsDefinition constant)
    (horder : ∀ name, name ∈ order ↔ name ∈ constants.map Prod.fst) (hls : ∀ l ∈ ls, IsLexeme l) :
    tokensOf (putAll constants order ls) = (tokensOf ls).map (substitute constants) := by
  unfold tokensOf
  rw [putAll_eq_map, List.filterMap_map, List.map_filterMap]
  exact List.filterMap_congr fun l hl => tokenOf_foldl hconstants horder (hls l hl)

end Constants

/-! ## Preprocessing -/

/-- A text that the lexer reads as the lexemes of these items. -/
structure Readable (items : List Item) : Prop where
  wellFormed : ∀ item ∈ items, item.WellFormed
  readAs : ReadAs (lexemes items)

/-- The constants of a program. -/
def constantsOf (items : List Item) : List (List Char × Token) :=
  assignments (tokensOf (lexemes items))

/-- **The files change no constant** that is used: each identifier that is left
has the value in the program that it has there with the files. -/
def KeepsConstants (files : List Char → List Item) (items : List Item) : Prop :=
  ∀ l ∈ lexemes (withoutConstants (expand files items)), tokenOf l = some (.id, l) →
    constantValue (constantsOf (expand files items)) l = constantValue (constantsOf items) l

instance (files : List Char → List Item) (items : List Item) :
    Decidable (KeepsConstants files items) := List.decidableBAll _ _

/-- **Letters that stand nowhere else**, in a program and its files. -/
structure Tidy (read : List Char → Option (List Char)) (order : List (List Char))
    (files : List Char → List Item) (items : List Item) : Prop where
  readable : Readable items
  reads : ∀ item ∈ items, ∀ inner ∈ item.inner .imports,
    ∀ name ∈ fileNames (tokensOf inner), read name = some (text (files name))
  readableFiles : ∀ name, Readable (files name)
  definitions : ∀ constant ∈ constantsOf items, IsDefinition constant
  everyName : ∀ name, name ∈ order ↔ name ∈ (constantsOf items).map Prod.fst
  importsClear : ImportsClear files [] items
  constantsClear : ConstantsClear [] (expand files items)
  keepsConstants : KeepsConstants files items
  namesClear : NamesClear (constantsOf items) order
    (lexemes (withoutConstants (expand files items)))
  readAs : ReadAs (putAll (constantsOf items) order
    (lexemes (withoutConstants (expand files items))))

section Programs

variable {read : List Char → Option (List Char)} {order : List (List Char)}
  {files : List Char → List Item} {items : List Item} {item : Item}

theorem Readable.tokens (h : Readable items) :
    Lexer.tokens (text items) = some (tokensOf (lexemes items)) := tokens_flatten h.readAs

theorem mem_expanded {other : Item} (h : other ∈ item.expanded files) :
    other = item ∨ ∃ name, other ∈ files name := by
  unfold Item.expanded at h
  cases hinner : item.inner .imports with
  | none =>
    rw [hinner] at h
    exact .inl (List.mem_singleton.mp h)
  | some inner =>
    rw [hinner] at h
    obtain ⟨name, -, hmem⟩ := List.mem_flatMap.mp h
    exact .inr ⟨name, hmem⟩

/-- The items of the program with its files. -/
theorem Tidy.mem_expand (h : Tidy read order files items) {other : Item}
    (hmem : other ∈ expand files items) :
    other.WellFormed ∧ ∀ l ∈ other.lexemes, IsLexeme l := by
  obtain ⟨item, hitem, hmem⟩ := List.mem_flatMap.mp hmem
  rcases mem_expanded hmem with rfl | ⟨name, hmem⟩
  · exact ⟨h.readable.wellFormed _ hitem,
      fun l hl => h.readable.readAs.isLexeme l (List.mem_flatMap.mpr ⟨_, hitem, hl⟩)⟩
  · exact ⟨(h.readableFiles name).wellFormed _ hmem,
      fun l hl => (h.readableFiles name).readAs.isLexeme l (List.mem_flatMap.mpr ⟨_, hmem, hl⟩)⟩

/-- The tokens of an import statement's files. -/
theorem Tidy.tokensWith_imports (h : Tidy read order files items) (hitem : item ∈ items) :
    item.tokensWith .imports (importedTokens read) =
      tokensOf (lexemes (item.expanded files)) := by
  unfold Item.tokensWith Item.expanded
  cases hinner : item.inner .imports with
  | none =>
    change tokensOf item.lexemes = tokensOf ([item].flatMap Item.lexemes)
    rw [List.flatMap_singleton]
  | some inner =>
    have hfiles : ∀ name ∈ fileNames (tokensOf inner),
        ((read name).bind tokens).getD [] = tokensOf (lexemes (files name)) := fun name hname => by
      rw [h.reads item hitem inner hinner name hname, Option.bind_some,
        (h.readableFiles name).tokens]
      rfl
    change importedTokens read (tokensOf inner) =
      tokensOf (((fileNames (tokensOf inner)).flatMap files).flatMap Item.lexemes)
    unfold importedTokens tokensOf
    rw [List.flatMap_assoc, List.filterMap_flatMap]
    exact List.flatMap_congr hfiles

/-- The tokens of the program and of its files. -/
theorem Tidy.withFiles_eq (h : Tidy read order files items) :
    withFiles read (tokensOf (lexemes items)) = tokensOf (lexemes (expand files items)) := by
  unfold withFiles
  rw [show Kind.fileImport = Keyword.imports.kind from rfl,
    replaceStatements_lexemes h.readable.wellFormed]
  unfold expand lexemes tokensOf
  rw [List.flatMap_assoc, List.filterMap_flatMap]
  exact List.flatMap_congr fun item hitem => h.tokensWith_imports hitem

/-- The tokens without the definitions. -/
theorem replaceStatements_constants (h : ∀ item ∈ items, item.WellFormed) :
    replaceStatements .constantDefKeyword (fun _ => []) false (tokensOf (lexemes items)) =
      tokensOf (lexemes (withoutConstants items)) := by
  rw [show Kind.constantDefKeyword = Keyword.constants.kind from rfl, replaceStatements_lexemes h]
  unfold withoutConstants
  induction items with
  | nil => rfl
  | cons item items ih =>
    rw [List.flatMap_cons, ih (List.forall_mem_cons.mp h).2]
    unfold Item.tokensWith
    cases hinner : item.inner .constants with
    | none =>
      rw [List.filter_cons_of_pos (by rw [hinner]; rfl)]
      exact (tokensOf_append _ _).symm
    | some inner =>
      rw [List.filter_cons_of_neg (by rw [hinner]; exact Bool.false_ne_true)]
      rfl

/-- **What should be left** of the tokens: the constants are those of the
program. -/
theorem Tidy.substituted_eq (h : Tidy read order files items) :
    substituted read (tokensOf (lexemes items)) =
      (tokensOf (lexemes (withoutConstants (expand files items)))).map
        (substitute (constantsOf items)) := by
  unfold substituted
  rw [h.withFiles_eq, replaceStatements_constants fun item hitem => (h.mem_expand hitem).1]
  refine List.map_congr_left fun t ht => ?_
  obtain ⟨l, hl, htoken⟩ := List.mem_filterMap.mp ht
  obtain ⟨kind, t⟩ := t
  obtain ⟨-, -, rfl⟩ := tokenOf_eq_some_iff.mp htoken
  unfold substitute
  by_cases hid : kind = .id
  · subst hid
    rw [if_pos rfl, if_pos rfl]
    change (constantValue (constantsOf _) t).getD _ = (constantValue (constantsOf _) t).getD _
    rw [h.keepsConstants t hl htoken]
  · rw [if_neg hid, if_neg hid]

/-- **In a tidy program** preprocessing substitutes tokens. -/
theorem substitutesTokens_of_tidy (h : Tidy read order files items) :
    SubstitutesTokens read order (text items) := by
  have hsource := h.readable.tokens
  have hlexemes : ∀ l ∈ lexemes (withoutConstants (expand files items)), IsLexeme l :=
    fun l hl => by
      obtain ⟨item, hitem, hl⟩ := List.mem_flatMap.mp hl
      exact (h.mem_expand (List.mem_filter.mp hitem).1).2 l hl
  -- the passes in their order: the imports, the statements of constants, the names
  have himports := foldlM_importGroup h.readable.wellFormed h.reads h.importsClear
  rw [← statements_lexemes h.readable.wellFormed, List.nil_append, List.nil_append] at himports
  have hstatements := removeStatements_text (fun item hitem => (h.mem_expand hitem).1)
    h.constantsClear
  rw [List.nil_append, List.nil_append] at hstatements
  have hreplaced := replaceConstants_flatten h.definitions
    (fun name => (h.everyName name).mp) hlexemes h.namesClear
  have houtput : preProcessFile read order (tokensOf (lexemes items)) (text items) =
      some (putAll (constantsOf items) order
        (lexemes (withoutConstants (expand files items)))).flatten := by
    unfold preProcessFile filesToSubstitute
    rw [show Kind.fileImport = Keyword.imports.kind from rfl, himports, Option.bind_eq_bind,
      Option.bind_some, hstatements]
    exact congrArg some hreplaced
  unfold SubstitutesTokens
  rw [hsource, Option.bind_some, houtput, Option.bind_some, Option.map_some,
    tokens_flatten h.readAs, h.substituted_eq]
  exact congrArg some (tokensOf_putAll h.definitions h.everyName hlexemes)

/-! ### Programs without statements to rewrite -/

variable (hinner : ∀ item ∈ items, ∀ keyword, item.inner keyword = none)

include hinner

theorem expand_of_none : expand files items = items := by
  refine (List.flatMap_congr fun item hitem => ?_).trans (List.flatMap_singleton' items)
  unfold Item.expanded
  rw [hinner item hitem]

theorem withoutConstants_of_none : withoutConstants items = items :=
  List.filter_eq_self.mpr fun item hitem => by rw [hinner item hitem]; rfl

theorem constantsOf_of_none (h : ∀ item ∈ items, item.WellFormed) : constantsOf items = [] := by
  unfold constantsOf assignments
  rw [show Kind.constantDefKeyword = Keyword.constants.kind from rfl, statements_lexemes h,
    List.filterMap_eq_nil_iff.mpr fun item hitem => by rw [hinner item hitem]; rfl]
  rfl

theorem importsClear_of_none (before : List Char) : ImportsClear files before items := by
  induction items generalizing before with
  | nil => trivial
  | cons item items ih =>
    obtain ⟨hitem, hitems⟩ := List.forall_mem_cons.mp hinner
    refine ⟨fun himport => ?_, ih hitems _⟩
    rw [hitem] at himport
    cases himport

theorem constantsClear_of_none {before : List Char}
    (h : findStatement "Constant".toList (before ++ text items) = none) :
    ConstantsClear before items := by
  induction items generalizing before with
  | nil =>
    rw [show text [] = [] from rfl, List.append_nil] at h
    exact h
  | cons item items ih =>
    obtain ⟨hitem, hitems⟩ := List.forall_mem_cons.mp hinner
    unfold ConstantsClear
    rw [hitem]
    rw [text_cons, ← List.append_assoc] at h
    exact ih hitems h

omit hinner

/-- **Where nothing is rewritten** a program is tidy. -/
theorem exists_tidy {source : List Char} {ts : List Token} (h : tokens source = some ts)
    (hts : ∀ t ∈ ts, ∀ keyword : Keyword, t.1 ≠ keyword.kind)
    (hclear : findStatement "Constant".toList source = none) :
    ∃ items, text items = source ∧ Tidy read [] (fun _ => []) items := by
  obtain ⟨ls, rfl, hread⟩ := exists_readAs h
  rw [tokens_flatten hread] at h
  obtain rfl := Option.some.inj h
  -- every lexeme is an item, since no keyword begins a statement
  have hlexemes : lexemes (ls.map Item.lexeme) = ls := by
    unfold lexemes
    rw [List.flatMap_map]
    exact List.flatMap_singleton' ls
  have hinner : ∀ item ∈ ls.map Item.lexeme, ∀ keyword, item.inner keyword = none := by
    intro item hitem keyword
    obtain ⟨l, -, rfl⟩ := List.mem_map.mp hitem
    rfl
  have hreadable : Readable (ls.map Item.lexeme) := by
    refine ⟨fun item hitem => ?_, by rwa [hlexemes]⟩
    obtain ⟨l, hl, rfl⟩ := List.mem_map.mp hitem
    intro keyword heq
    exact hts _ (List.mem_filterMap.mpr ⟨l, hl, heq ▸ tokenOf_keyword keyword⟩) keyword rfl
  have hconstants := constantsOf_of_none hinner hreadable.wellFormed
  have htext : text (ls.map Item.lexeme) = ls.flatten := congrArg List.flatten hlexemes
  refine ⟨ls.map Item.lexeme, htext, hreadable, fun item hitem inner himport => ?_,
    fun _ => ⟨List.forall_mem_nil _, trivial⟩, ?_, ?_, importsClear_of_none hinner [], ?_, ?_,
    trivial, ?_⟩
  · rw [hinner item hitem] at himport
    cases himport
  · rw [hconstants]
    exact List.forall_mem_nil _
  · rw [hconstants]
    exact fun _ => Iff.rfl
  · rw [expand_of_none hinner]
    exact constantsClear_of_none hinner (by rwa [htext])
  · unfold KeepsConstants
    rw [expand_of_none hinner]
    exact fun _ _ _ => rfl
  · rw [expand_of_none hinner, withoutConstants_of_none hinner, hlexemes]
    exact hread

end Programs

/-! ## A program -/

/-- The fields of a header, and a constant that nothing uses. -/
def headerItems : List Item :=
  (["PacketField", " ", "e", "\x7b", "s", "=", "p", ".", "d", "[0:+6]", ";", "\x7d", "\n"].map
    String.toList).map .lexeme ++
  [.statement .constants ([" ", "B", "=", "6"].map String.toList), .lexeme "\n".toList]

/-- The files there are. -/
def headerFiles (name : List Char) : List Item :=
  if name = "h.xlh".toList then headerItems else []

/-- An import, a constant, comments that name it, one of which has another in it
that does not end, and a use. -/
def sourceItems : List Item :=
  [.statement .imports [" ".toList, "\"h.xlh\"".toList], .lexeme "\n".toList,
    .statement .constants ([" ", "A", "=", "5"].map String.toList), .lexeme " ".toList,
    .lexeme "// A\n".toList] ++
  (["Register", " ", "r", ";", "\n", "State", " ", "s", " ", "\x7b", "r", "=", "A", ";", "\x7d",
    "\n", "/* A /* */"].map String.toList).map .lexeme

theorem readable_headerItems : Readable headerItems := ⟨by decide +kernel, by decide +kernel⟩

theorem constantsOf_sourceItems :
    constantsOf sourceItems = [("A".toList, (.decimalInteger, "5".toList))] := by
  decide +kernel

theorem readable_sourceItems : Readable sourceItems := ⟨by decide +kernel, by decide +kernel⟩

/-- **The program**, preprocessed. -/
theorem substitutesTokens_sourceItems :
    SubstitutesTokens (fun name => if name = "h.xlh".toList then some (text headerItems) else none)
      ["A".toList] (text sourceItems) := by
  refine @substitutesTokens_of_tidy _ _ headerFiles _ ⟨readable_sourceItems, by decide +kernel,
    fun name => ?_, ?_, ?_, by decide +kernel, by decide +kernel, ?_, ?_, ?_⟩
  · unfold headerFiles
    split_ifs
    · exact readable_headerItems
    · exact ⟨List.forall_mem_nil _, trivial⟩
  · rw [constantsOf_sourceItems]
    decide +kernel
  · rw [constantsOf_sourceItems]
    exact fun _ => Iff.rfl
  · decide +kernel
  · rw [constantsOf_sourceItems]
    decide +kernel
  · rw [constantsOf_sourceItems]
    decide +kernel

/-- **A constant whose name stands inside another word**: `initial`. -/
theorem not_substitutesTokens :
    ¬SubstitutesTokens (fun _ => none) ["i".toList]
      "Constant i = 0;\nState initial s \x7b \x7d".toList := by
  unfold SubstitutesTokens
  decide +kernel

end PreProcessor

end Xl

end FlowBlaze

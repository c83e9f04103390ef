import FlowBlaze.Xl.Lexer
/-!
# The preprocessor — `XtraPreProcessor`, `PreProcessorFacility`

A program is read once for its imports and constants alone. The file is then
read again as a text: the first `import` up to a semicolon gives way to the
files of the first statement, and so on; every `Constant` up to a semicolon
goes; and for each constant, in the order in which the hash map has them, its
name gives way to its value wherever its letters stand.

The grammar of what is between the keyword and the semicolon is taken to have
been checked by the parser.
-/

namespace FlowBlaze

namespace Xl

namespace PreProcessor

open Lexer

/-! ## What the listener collects -/

/-- The tokens of a statement, up to its semicolon. -/
def statement (ts : List Token) : List Token := ts.takeWhile fun t => t.1 != .semicolon

/-- The statements that begin with a keyword. -/
def statements (keyword : Kind) : List Token → List (List Token)
  | [] => []
  | t :: ts =>
    if t.1 = keyword then statement ts :: statements keyword ts else statements keyword ts

/-- `fileName.substring(1, fileName.length()-1)` of each file of a statement. -/
def fileNames (ts : List Token) : List (List Char) :=
  ts.filterMap fun t => if t.1 = .filename then some (t.2.drop 1).dropLast else none

/-- `exitFile_import`: the files of each statement. -/
def filesToSubstitute (ts : List Token) : List (List (List Char)) :=
  (statements .fileImport ts).map fileNames

/-- The assignments of a statement, with a comma between them. -/
def constAssignments : List Token → List (List Char × Token)
  | name :: _ :: value :: _ :: ts => (name.2, value) :: constAssignments ts
  | [name, _, value] => [(name.2, value)]
  | _ => []

/-- `exitConst_assignement`, in the order of the program. -/
def assignments (ts : List Token) : List (List Char × Token) :=
  (statements .constantDefKeyword ts).flatMap constAssignments

/-- `constantsToSubstitute.get`: the last value put. -/
def constantValue (constants : List (List Char × Token)) (name : List Char) : Option Token :=
  (constants.reverse.find? fun constant => constant.1 == name).map Prod.snd

/-! ## Rewriting texts -/

/-- A match of `(keyword)([^;]*)(;)`: what stands before it, between the
keyword and the semicolon, and behind it. -/
def findStatement (keyword : List Char) : List Char → Option (List Char × List Char × List Char)
  | [] => none
  | c :: text =>
    if keyword <+: c :: text ∧ ';' ∈ (c :: text).drop keyword.length then
      let rest := (c :: text).drop keyword.length
      some ([], rest.takeWhile (· != ';'), (rest.dropWhile (· != ';')).drop 1)
    else (findStatement keyword text).map fun (before, inner, rest) => (c :: before, inner, rest)

/-- What a replacement is being read for: `\` takes the next letter as it is,
`$` and digits stand for a group. -/
inductive Reading
  | plain
  | escaped
  | dollar
  | group (n : ℕ)

/-- A letter that neither `\` nor `$` stands before. -/
def Reading.ofPlain (c : Char) : List Char × Reading :=
  if c = '\\' then ([], .escaped) else if c = '$' then ([], .dollar) else ([c], .plain)

/-- One letter: what is appended for it, unless it is refused. -/
def Reading.read (groups : List (List Char)) : Reading → Char → Option (List Char × Reading)
  | .plain, c => some (ofPlain c)
  | .escaped, c => some ([c], .plain)
  | .dollar, c => if isDigit c then some ([], .group (c.toNat - '0'.toNat)) else none
  | .group n, c =>
    if isDigit c ∧ n * 10 + (c.toNat - '0'.toNat) < groups.length then
      some ([], .group (n * 10 + (c.toNat - '0'.toNat)))
    else groups[n]?.map fun text => (text ++ (ofPlain c).1, (ofPlain c).2)

/-- `Matcher.appendReplacement` -/
def appendReplacement (groups : List (List Char)) : Reading → List Char → Option (List Char)
  | .plain, [] => some []
  | .escaped, [] => none
  | .dollar, [] => none
  | .group n, [] => groups[n]?
  | reading, c :: text =>
    (reading.read groups c).bind fun (out, next) =>
      (appendReplacement groups next text).map (out ++ ·)

/-- `text.replaceFirst("(keyword)([^;]*)(;)", replacement)` -/
def replaceFirst (keyword replacement text : List Char) : Option (List Char) :=
  match findStatement keyword text with
  | none => some text
  | some (before, inner, rest) =>
    (appendReplacement [keyword ++ inner ++ [';'], keyword, inner, [';']] .plain replacement).map
      fun replaced => before ++ replaced ++ rest

/-- `text.replaceAll("(keyword)([^;]*)(;)", "")`, from inside a match or
outside. -/
def removeStatements (keyword : List Char) : Bool → List Char → List Char
  | _, [] => []
  | true, c :: text => removeStatements keyword (c != ';') text
  | false, c :: text =>
    if keyword <+: c :: text ∧ ';' ∈ (c :: text).drop keyword.length then
      removeStatements keyword true text
    else c :: removeStatements keyword false text

/-- `text.replace(name, value)`, with so many letters still to pass. -/
def replaceLiteral (name value : List Char) : ℕ → List Char → List Char
  | _, [] => []
  | n + 1, _ :: text => replaceLiteral name value n text
  | 0, c :: text =>
    if name <+: c :: text then value ++ replaceLiteral name value (name.length - 1) text
    else c :: replaceLiteral name value 0 text

/-! ## Preprocessing -/

/-- The files of one statement, one behind the other, in place of the first
statement that there is. -/
def importGroup (read : List Char → Option (List Char)) (text : List Char)
    (group : List (List Char)) : Option (List Char) := do
  let files ← group.mapM read
  replaceFirst "import".toList files.flatten text

/-- The text of a constant's value. -/
def valueText (constants : List (List Char × Token)) (name : List Char) : List Char :=
  ((constantValue constants name).map Prod.snd).getD []

/-- The constants, in the order of the map. -/
def replaceConstants (constants : List (List Char × Token)) (order : List (List Char))
    (text : List Char) : List Char :=
  order.foldl (fun text name => replaceLiteral name (valueText constants name) 0 text) text

/-- **`preProcessFile`**, for a program of these tokens. -/
def preProcessFile (read : List Char → Option (List Char)) (order : List (List Char))
    (ts : List Token) (originalFile : List Char) : Option (List Char) := do
  let text ← (filesToSubstitute ts).foldlM (importGroup read) originalFile
  return replaceConstants (assignments ts) order
    (removeStatements "Constant".toList false text)

end PreProcessor

end Xl

end FlowBlaze

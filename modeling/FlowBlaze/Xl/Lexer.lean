import FlowBlaze.Common.Pattern
/-!
# The lexer — `xtra.g4`

The rules in the order of the grammar. At each place the longest match is
taken, and of several the rule that comes first; white space and comments are
skipped. No rule is a fragment, so that a single hexadecimal digit behind
others or a lone quote is a token too, if not one that the parser takes.

Block comments contain block comments. The loop inside one is not greedy: it
prefers to end where it may, and to read a comment where one begins, but
takes the letters one by one where the rest would not match otherwise.
-/

namespace FlowBlaze

namespace Xl

namespace Lexer

open Pattern

/-- The rules of the lexer. -/
inductive Kind
  | ws | comment | lineComment
  | globalModifier | initialModifier
  | registerDefKeyword | constantDefKeyword | stateDefKeyword | customDefEventKeyword
  | macroActionDefKeyword | stageDefKeyword | packetFieldKeyword
  | conditionsKeyword | eventKeyword | serialKeyword | fileImport
  | ipv6Addr | ipv4Addr | macAddr | hexInteger | decimalInteger | id | index | filename
  | notZeroOctet | octet | ls32 | hex16
  | colon | doubleColon | dquotes | dot | assignment
  | plus | minus | mul | div | mod | max | min | comma
  | eq | leq | geq | neq | gret | less
  | lparent | rparent | lbrace | rbrace | lbrack | rbrack | semicolon
  | space | hexLiteral | hexDigit | letter | digit
  deriving DecidableEq

/-! ## Patterns -/

/-- A word of the grammar. -/
def lit (s : String) : Pattern Char := word s.toList

/-- `[ \t\r\n]` -/
def isBlank (c : Char) : Bool := c == ' ' || c == '\t' || c == '\r' || c == '\n'

/-- `'0'..'9'` -/
def isDigit (c : Char) : Bool := '0' ≤ c && c ≤ '9'

/-- `DIGIT | 'a'..'f' | 'A'..'F'` -/
def isHexDigit (c : Char) : Bool := isDigit c || ('a' ≤ c && c ≤ 'f') || ('A' ≤ c && c ≤ 'F')

/-- `'a'..'z' | 'A'..'Z'` -/
def isLetter (c : Char) : Bool := ('a' ≤ c && c ≤ 'z') || ('A' ≤ c && c ≤ 'Z')

/-- `LETTER | DIGIT | '_'` -/
def isIdLetter (c : Char) : Bool := isLetter c || isDigit c || c == '_'

def digit : Pattern Char := letter isDigit

def hexDigit : Pattern Char := letter isHexDigit

def decimalInteger : Pattern Char := plus digit

def id : Pattern Char :=
  alt (seq (letter isLetter) (star (letter isIdLetter))) (seq (lit "_") (plus (letter isIdLetter)))

def notZeroOctet : Pattern Char :=
  oneOf [seq (lit "25") (letter fun c => '0' ≤ c && c ≤ '5'),
    inTurn [lit "2", letter fun c => '0' ≤ c && c ≤ '4', digit],
    inTurn [lit "1", digit, digit],
    inTurn [letter fun c => '1' ≤ c && c ≤ '9', digit],
    letter fun c => '1' ≤ c && c ≤ '9']

def octet : Pattern Char :=
  oneOf [seq (lit "25") (letter fun c => '0' ≤ c && c ≤ '5'),
    inTurn [lit "2", letter fun c => '0' ≤ c && c ≤ '4', digit],
    inTurn [lit "1", digit, digit],
    inTurn [letter fun c => '1' ≤ c && c ≤ '9', digit],
    digit]

def ipv4Addr : Pattern Char :=
  alt (inTurn [lit "\"", notZeroOctet, lit ".", octet, lit ".", octet, lit ".", octet, lit "\""])
    (lit "\"0.0.0.0\"")

def hex16 : Pattern Char :=
  oneOf [inTurn [hexDigit, hexDigit, hexDigit, hexDigit], inTurn [hexDigit, hexDigit, hexDigit],
    inTurn [hexDigit, hexDigit], hexDigit]

def ls32 : Pattern Char := alt (inTurn [hex16, lit ":", hex16]) ipv4Addr

/-- `HEX_16 COLON`, so many times. -/
def groups : ℕ → Pattern Char
  | 0 => empty
  | n + 1 => inTurn [hex16, lit ":", groups n]

/-- `HEX_16 COLON`, up to so many times. -/
def groupsUpTo : ℕ → Pattern Char
  | 0 => empty
  | n + 1 => opt (inTurn [groupsUpTo n, hex16, lit ":"])

/-- What stands before the two colons. -/
def leading (n : ℕ) : Pattern Char := opt (seq (groupsUpTo n) hex16)

def ipv6Addr : Pattern Char :=
  oneOf [inTurn [lit "\"", groups 6, ls32, lit "\""],
    inTurn [lit "\"", lit "::", groups 5, ls32, lit "\""],
    inTurn [lit "\"", leading 0, lit "::", groups 4, ls32, lit "\""],
    inTurn [lit "\"", leading 1, lit "::", groups 3, ls32, lit "\""],
    inTurn [lit "\"", leading 2, lit "::", groups 2, ls32, lit "\""],
    inTurn [lit "\"", leading 3, lit "::", groups 1, ls32, lit "\""],
    inTurn [lit "\"", leading 4, lit "::", ls32, lit "\""],
    inTurn [lit "\"", leading 5, lit "::", hex16, lit "\""],
    inTurn [lit "\"", leading 6, lit "::", lit "\""]]

def macByte : Pattern Char := seq hexDigit (opt hexDigit)

def macAddr : Pattern Char :=
  inTurn [lit "\"", macByte, lit ":", macByte, lit ":", macByte, lit ":", macByte, lit ":", macByte,
    lit ":", macByte, lit "\""]

def hexLiteral : Pattern Char := alt (lit "0x") (lit "0X")

def index : Pattern Char :=
  inTurn [lit "[", star (lit " "), decimalInteger, star (lit " "),
    opt (inTurn [lit ":", star (lit " "), opt (lit "+"), star (lit " "), decimalInteger,
      star (lit " ")]), lit "]"]

def filename : Pattern Char :=
  inTurn [lit "\"",
    opt (alt id (seq (plus (lit ".")) (star (alt (seq (lit "/") id) (plus (lit ".")))))),
    plus (alt id (lit ".")), lit ".", id, lit "\""]

/-- The patterns of the rules, but for that of the block comments. -/
def Kind.pattern : Kind → Pattern Char
  | .ws => .plus (.letter isBlank)
  | .comment => never
  | .lineComment => inTurn [lit "//", .star (.letter (· != '\n')), lit "\n"]
  | .globalModifier => lit "global"
  | .initialModifier => lit "initial"
  | .registerDefKeyword => lit "Register"
  | .constantDefKeyword => lit "Constant"
  | .stateDefKeyword => lit "State"
  | .customDefEventKeyword => lit "Event"
  | .macroActionDefKeyword => lit "Action"
  | .stageDefKeyword => lit "Stage"
  | .packetFieldKeyword => lit "PacketField"
  | .conditionsKeyword => lit "if"
  | .eventKeyword => lit "on"
  | .serialKeyword => lit "serial"
  | .fileImport => lit "import"
  | .ipv6Addr => Lexer.ipv6Addr
  | .ipv4Addr => Lexer.ipv4Addr
  | .macAddr => Lexer.macAddr
  | .hexInteger => .seq Lexer.hexLiteral (.plus Lexer.hexDigit)
  | .decimalInteger => Lexer.decimalInteger
  | .id => Lexer.id
  | .index => Lexer.index
  | .filename => Lexer.filename
  | .notZeroOctet => Lexer.notZeroOctet
  | .octet => Lexer.octet
  | .ls32 => Lexer.ls32
  | .hex16 => Lexer.hex16
  | .colon => lit ":"
  | .doubleColon => lit "::"
  | .dquotes => lit "\""
  | .dot => lit "."
  | .assignment => lit "="
  | .plus => lit "+"
  | .minus => lit "-"
  | .mul => lit "*"
  | .div => lit "/"
  | .mod => lit "%"
  | .max => lit "max"
  | .min => lit "min"
  | .comma => lit ","
  | .eq => lit "=="
  | .leq => lit "<="
  | .geq => lit ">="
  | .neq => lit "!="
  | .gret => lit ">"
  | .less => lit "<"
  | .lparent => lit "("
  | .rparent => lit ")"
  | .lbrace => lit "\x7b"
  | .rbrace => lit "\x7d"
  | .lbrack => lit "["
  | .rbrack => lit "]"
  | .semicolon => lit ";"
  | .space => lit " "
  | .hexLiteral => Lexer.hexLiteral
  | .hexDigit => Lexer.hexDigit
  | .letter => .letter isLetter
  | .digit => Lexer.digit

/-- `-> skip` -/
def Kind.skipped : Kind → Bool
  | .ws | .comment | .lineComment => true
  | _ => false

/-- The rules in their order. -/
def lexerRules : List Kind :=
  [.ws, .comment, .lineComment, .globalModifier, .initialModifier, .registerDefKeyword,
    .constantDefKeyword, .stateDefKeyword, .customDefEventKeyword, .macroActionDefKeyword,
    .stageDefKeyword, .packetFieldKeyword, .conditionsKeyword, .eventKeyword, .serialKeyword,
    .fileImport, .ipv6Addr, .ipv4Addr, .macAddr, .hexInteger, .decimalInteger, .id, .index,
    .filename, .notZeroOctet, .octet, .ls32, .hex16, .colon, .doubleColon, .dquotes, .dot,
    .assignment, .plus, .minus, .mul, .div, .mod, .max, .min, .comma, .eq, .leq, .geq, .neq,
    .gret, .less, .lparent, .rparent, .lbrace, .rbrace, .lbrack, .rbrack, .semicolon, .space,
    .hexLiteral, .hexDigit, .letter, .digit]

/-! ## Block comments -/

/-- How much of a text is left of a comment, at a depth inside it. -/
def commentRest : ℕ → List Char → Option ℕ
  | _, [] => none
  | _, [_] => none
  | depth, c :: c' :: text =>
    (if c = '*' ∧ c' = '/' then
      match depth with
      | 0 => some 2
      | depth + 1 => (commentRest depth text).map (· + 2)
    else if c = '/' ∧ c' = '*' then (commentRest (depth + 1) text).map (· + 2)
    else none).orElse fun _ => (commentRest depth (c' :: text)).map (· + 1)

/-- `'/*' (COMMENT|.)*? '*/'` -/
def commentLength : List Char → Option ℕ
  | '/' :: '*' :: text => (commentRest 0 text).map (· + 2)
  | _ => none

/-! ## Tokens -/

/-- How far a rule matches at the start of a text. -/
def Kind.length : Kind → List Char → Option ℕ
  | .comment, text => commentLength text
  | kind, text => kind.pattern.longest text

/-- The longest match of some rules, the first of them where several are as
long. -/
def longestOf (text : List Char) : List Kind → Option (Kind × ℕ)
  | [] => none
  | kind :: rules =>
    match kind.length text, longestOf text rules with
    | some n, some (other, m) => if n < m then some (other, m) else some (kind, n)
    | some n, none => some (kind, n)
    | none, others => others

/-- The lexeme at the start of a text. -/
def nextLexeme (text : List Char) : Option (Kind × ℕ) := longestOf text lexerRules

/-- A token: the rule and the text. -/
abbrev Token := Kind × List Char

/-- The tokens of a text, in so many steps at most. -/
def tokensIn : ℕ → List Char → Option (List Token)
  | _, [] => some []
  | 0, _ :: _ => none
  | fuel + 1, text =>
    match nextLexeme text with
    | some (kind, n + 1) =>
      (tokensIn fuel (text.drop (n + 1))).map fun tokens =>
        if kind.skipped then tokens else (kind, text.take (n + 1)) :: tokens
    | _ => none

/-- **The tokens of a text**, unless it has a letter that begins none. -/
def tokens (text : List Char) : Option (List Token) := tokensIn text.length text

end Lexer

end Xl

end FlowBlaze

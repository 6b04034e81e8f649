/-
Cutting a text into tokens.

A scanner holds the characters that are left and the place of the first of them.  To
read a token it drops the layout in front (blanks, tabs, carriage returns and
comments), looks at the next character, and takes as many further ones as belong to the
same token.  Nothing is ever refused: what is no token of the language is taken, up to
where it plausibly ends, as a fault.

A line feed is a token of its own, and it is part of no other token.  So a token never
crosses a line, and its span is the column of its first character and its length.

Beside the characters left, the scanner counts those it has gone past, and remembers the
count at the first character of the last token.
-/
import Pseudocode.Numeral
import Pseudocode.Text.Alphabetic
import Pseudocode.Text.Blank
import Pseudocode.Text.Bracket
import Pseudocode.Text.Number
import Pseudocode.Text.Numeric
import Pseudocode.Token

namespace Pseudocode

/-- The characters of a text that are still to be read. -/
structure Scanner where
  /-- The characters left. -/
  rest : List Char
  /-- The line of the first of them. -/
  line : Nat
  /-- The column of the first of them. -/
  col : Nat
  /-- How many characters of the text are in front of the last token. -/
  start : Nat := 0
  /-- How many characters of the text have been gone past. -/
  pos : Nat := 0
  /-- Whether the end of input has been handed out as the last token. -/
  finished : Bool := false
  deriving Repr

namespace Scanner

/-- A scanner at the start of a text. -/
def ofSource (source : String) : Scanner where
  rest := source.toList
  line := 1
  col := 1

/-! ### Which characters a token takes

Each function gives the kind of a token and how many characters it takes after its
first one; `cs` is what follows the first one.
-/

/-- A name starts with a letter or an underscore. -/
def isNameStart (c : Char) : Bool :=
  Text.isAlphabetic c || c = '_'

/-- A name goes on with letters, numerals and underscores. -/
def isNameChar (c : Char) : Bool :=
  Text.isAlphabetic c || Text.isNumeric c || c = '_'

/-- After an opening bracket: a character with a meaning of its own and the closing
bracket, or else a fault that goes up to the next blank. -/
def escapePiece (cs : List Char) : Token.Kind × Nat :=
  let fault := (.fault .invalidEscape, (cs.takeWhile fun c => !Text.isBlank c).length)
  match cs with
  | c :: ']' :: _ => if Text.isEscapable c then (.escape c, 2) else fault
  | _ => fault

/-- A malformed CHAR goes up to the next blank, or through the next single quote. -/
def charFault (cs : List Char) : Token.Kind × Nat :=
  let inside := cs.takeWhile fun c => c ≠ '\'' && !Text.isBlank c
  let closing := if (cs.drop inside.length).head? = some '\'' then 1 else 0
  (.fault .invalidChar, inside.length + closing)

/-- After a single quote: one character, in brackets if it has a meaning of its own, and
the closing quote. -/
def charPiece (cs : List Char) : Token.Kind × Nat :=
  match cs with
  | '[' :: c :: ']' :: '\'' :: _ =>
    if Text.isEscapable c then (.literal (.char c), 4) else charFault cs
  | c :: '\'' :: _ =>
    if c ≠ '\n' && !Text.isEscapable c then (.literal (.char c), 2) else charFault cs
  | _ => charFault cs

/-- After a double quote: everything up to the next one on the same line.  The two
spellings of truth values are BOOL, all others STRING. -/
def quotedPiece (cs : List Char) : Token.Kind × Nat :=
  let inside := cs.takeWhile fun c => c ≠ '"' && c ≠ '\n'
  if (cs.drop inside.length).head? = some '"' then
    let value :=
      if inside = "TRUE".toList then .bool true
      else if inside = "FALSE".toList then .bool false
      else .string (String.ofList (Text.decodeBrackets inside))
    (.literal value, inside.length + 1)
  else (.fault .unterminatedString, inside.length)

/-- The kind of a numeral, a run of digits and points.  Without a point it is an INT, with one
point that does not stand last a FLOAT, and with more points no number. -/
def numeralKind (numeral : List Char) : Token.Kind :=
  match numeral.count '.' with
  | 0 =>
    match Text.int32? numeral with
    | some n => .literal (.int n)
    | none => .fault .intOutOfRange
  | 1 =>
    if numeral.getLast?.any Char.isDigit then
      match Text.single? numeral with
      | some x => .literal (.float x)
      | none => .fault .invalidNumber
    else .fault .invalidNumber
  | _ => .fault .invalidNumber

/-- A sign that has a longer spelling `c second`. -/
def signPiece (cs : List Char) (short : Sign) (second : Char) (long : Sign) :
    Token.Kind × Nat :=
  if cs.head? = some second then (.sign long, 1) else (.sign short, 0)

/-- The kind of the token that starts with `c`, which is not layout. -/
def piece (c : Char) (cs : List Char) : Token.Kind × Nat :=
  match c with
  | '\n' => (.newline, 0)
  | '*' => (.sign (.arith .mul), 0)
  | '/' => (.sign (.arith .div), 0)
  | '%' => (.sign (.arith .rem), 0)
  | '+' => (.sign (.arith .add), 0)
  | '-' => (.sign (.arith .sub), 0)
  | '>' => signPiece cs (.compare .gt) '=' (.compare .ge)
  | '<' =>
    if cs.head? = some '>' then (.sign (.compare .ne), 1)
    else signPiece cs (.compare .lt) '=' (.compare .le)
  | '=' => signPiece cs .assign '=' (.compare .eq)
  | '$' => (.sign .dollar, 0)
  | '&' => (.sign .ampersand, 0)
  | '(' => (.sign .openParen, 0)
  | ')' => (.sign .closeParen, 0)
  | ',' => (.sign .comma, 0)
  | ':' => (.sign .colon, 0)
  | '[' => escapePiece cs
  | '\'' => charPiece cs
  | '"' => quotedPiece cs
  | c =>
    if Numeral.isNumeralChar c then
      let digits := cs.takeWhile Numeral.isNumeralChar
      (numeralKind (c :: digits), digits.length)
    else if isNameStart c then
      let word := cs.takeWhile isNameChar
      (.ofWord (.classify (String.ofList (c :: word))), word.length)
    else (.fault .unknownSymbol, 0)

/-! ### Reading one token, and all of them -/

/-- How many characters of layout stand in front; a comment goes up to the end of its
line. -/
def layout (inComment : Bool) : List Char → Nat
  | [] => 0
  | c :: cs =>
    if inComment then
      if c = '\n' then 0 else layout true cs + 1
    else if c = '#' then layout true cs + 1
    else if c = ' ' || c = '\t' || c = '\r' then layout false cs + 1
    else 0

/-- The next token, and the scanner behind it.  At the end of the text the token is the
end of input, again and again. -/
def next (s : Scanner) : Token × Scanner :=
  let skipped := layout false s.rest
  let col := s.col + skipped
  let start := s.pos + skipped
  match s.rest.drop skipped with
  | [] =>
    ({ kind := .endOfInput, lexeme := "", span := ⟨s.line, col, 0⟩ },
      { s with rest := [], col := col, start := start, pos := start })
  | c :: cs =>
    let (kind, more) := piece c cs
    let lexeme := c :: cs.take more
    let token : Token :=
      { kind := kind, lexeme := String.ofList lexeme, span := ⟨s.line, col, lexeme.length⟩ }
    let s := { s with rest := cs.drop more, start := start, pos := start + (more + 1) }
    if c = '\n' then (token, { s with line := s.line + 1, col := 1 })
    else (token, { s with col := col + lexeme.length })

/-- The next token of the sequence of tokens, which stops after the end of input. -/
def next? (s : Scanner) : Option Token × Scanner :=
  if s.finished then (none, s)
  else
    let (token, s) := s.next
    (some token, { s with finished := token.kind = .endOfInput })

/-- Up to `fuel` tokens, through the end of input. -/
def tokens : (fuel : Nat) → Scanner → List Token
  | 0, _ => []
  | fuel + 1, s =>
    let (token, s) := s.next
    if token.kind = .endOfInput then [token] else token :: tokens fuel s

end Scanner

/-- The tokens of a text, the last of which is the end of input.  Every other token takes
a character, so there are at most as many of those as there are characters. -/
def Token.ofSource (source : String) : List Token :=
  Scanner.tokens (source.toList.length + 1) (.ofSource source)

end Pseudocode

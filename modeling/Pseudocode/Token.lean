/-
Tokens: the pieces of a source text.

A token has a kind, the characters it was read from, and the place where they stand.
Text that is no token of the language still becomes one, of the kind `fault`, so that
cutting a text into tokens never fails; whoever reads the tokens decides what to do
with a fault.
-/
import Pseudocode.Operator
import Pseudocode.Span
import Pseudocode.Value
import Pseudocode.Word

namespace Pseudocode

/-- The signs of the language. -/
inductive Sign where
  | arith (op : Arith)
  | compare (op : Comparison)
  | comma
  | assign
  | colon
  | dollar
  | ampersand
  | openParen
  | closeParen
  deriving DecidableEq, Repr

/-- The spelling of a sign. -/
def Sign.text : Sign → String
  | .arith op => op.text
  | .compare op => op.text
  | .comma => ","
  | .assign => "="
  | .colon => ":"
  | .dollar => "$"
  | .ampersand => "&"
  | .openParen => "("
  | .closeParen => ")"

/-- What is wrong with a piece of text that is no token of the language. -/
inductive Fault where
  /-- A reserved word that is not in upper case. -/
  | wrongCase (meant : Reserved)
  | invalidNumber
  | intOutOfRange
  | invalidChar
  | unterminatedString
  | invalidEscape
  | unknownSymbol
  deriving DecidableEq, Repr

/-- The wording of a fault, for the text that has it. -/
def Fault.message (lexeme : String) : Fault → String
  | .wrongCase (.keyword k) => "Invalid keyword '" ++ lexeme ++ "' should be " ++ k.text
  | .wrongCase (.typeName t) => "Invalid data type '" ++ lexeme ++ "' should be " ++ t.text
  | .invalidNumber => "Invalid number '" ++ lexeme ++ "'"
  | .intOutOfRange => "Integer literal '" ++ lexeme ++ "' is out of range"
  | .invalidChar => "Invalid CHAR literal " ++ lexeme
  | .unterminatedString => "Unterminated STRING literal"
  | .invalidEscape => "Invalid '" ++ lexeme ++ "' as escape sequence"
  | .unknownSymbol => "Unknown symbol '" ++ lexeme ++ "'"

namespace Token

/-- The kinds of tokens. -/
inductive Kind where
  | keyword (k : Keyword)
  | typeName (t : Ty)
  | name
  | literal (v : Value)
  /-- A character in brackets. -/
  | escape (c : Char)
  | sign (s : Sign)
  | newline
  | fault (f : Fault)
  | endOfInput
  deriving DecidableEq, Repr

namespace Kind

/-- A kind as errors call it. -/
def text : Kind → String
  | .keyword k => k.text
  | .typeName t => t.text
  | .name => "IDENTIFIER"
  | .literal v => v.ty.text ++ " literal"
  | .escape _ => "ESCAPE"
  | .sign s => "'" ++ s.text ++ "'"
  | .newline => "NEWLINE"
  | .fault _ => "ERROR"
  | .endOfInput => "END OF INPUT"

/-- The value that a token of this kind stands for. -/
def value? : Kind → Option Value
  | .literal v => some v
  | .escape c => some (.char c)
  | _ => none

/-- The operator between two operands that a token of this kind stands for. -/
def binOp? : Kind → Option BinOp
  | .sign (.arith op) => some (.arith op)
  | .sign (.compare op) => some (.compare op)
  | .keyword .AND => some (.connect .and)
  | .keyword .OR => some (.connect .or)
  | _ => none

/-- The operator before an operand that a token of this kind stands for. -/
def unOp? : Kind → Option UnOp
  | .sign (.arith .add) => some .plus
  | .sign (.arith .sub) => some .minus
  | .keyword .NOT => some .not
  | _ => none

/-- The kind of a reserved word. -/
def ofReserved : Reserved → Kind
  | .keyword k => .keyword k
  | .typeName t => .typeName t

/-- The kind of a word. -/
def ofWord : Word → Kind
  | .reserved r => ofReserved r
  | .wrongCase r => .fault (.wrongCase r)
  | .name => .name

end Kind

end Token

/-- A piece of a source text. -/
structure Token where
  /-- What the piece is. -/
  kind : Token.Kind
  /-- The characters it was read from. -/
  lexeme : String
  /-- Where they stand. -/
  span : Span
  deriving DecidableEq, Repr

end Pseudocode

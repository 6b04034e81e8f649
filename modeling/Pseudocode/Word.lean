/-
Words of a program: reserved words and names.

Reserved words are the keywords and the names of the types, and they count only in
upper case.  A word that becomes a reserved word in upper case is told apart from
other names, because it is more likely a slip than a name.
-/
import Pseudocode.Text.UpperCase
import Pseudocode.Ty

namespace Pseudocode

/-- The keywords, each spelled as in programs. -/
inductive Keyword where
  | BEGIN
  | END
  | CODE
  | IF
  | ELSE
  | WHILE
  | DISPLAY
  | SCAN
  | AND
  | OR
  | NOT
  deriving DecidableEq, Repr

namespace Keyword

/-- The spelling of a keyword. -/
def text : Keyword → String
  | .BEGIN => "BEGIN"
  | .END => "END"
  | .CODE => "CODE"
  | .IF => "IF"
  | .ELSE => "ELSE"
  | .WHILE => "WHILE"
  | .DISPLAY => "DISPLAY"
  | .SCAN => "SCAN"
  | .AND => "AND"
  | .OR => "OR"
  | .NOT => "NOT"

/-- Every keyword, once. -/
def all : List Keyword :=
  [.BEGIN, .END, .CODE, .IF, .ELSE, .WHILE, .DISPLAY, .SCAN, .AND, .OR, .NOT]

/-- The keyword with a given spelling. -/
def named? (word : String) : Option Keyword :=
  all.find? fun k => k.text = word

end Keyword

/-- A word that cannot be a name. -/
inductive Reserved where
  | keyword (k : Keyword)
  | typeName (t : Ty)
  deriving DecidableEq, Repr

namespace Reserved

/-- The spelling of a reserved word. -/
def text : Reserved → String
  | .keyword k => k.text
  | .typeName t => t.text

/-- The reserved word with a given spelling. -/
def named? (word : String) : Option Reserved :=
  match Keyword.named? word with
  | some k => some (.keyword k)
  | none => (Ty.named? word).map .typeName

end Reserved

/-- What a word is. -/
inductive Word where
  | reserved (r : Reserved)
  /-- Not a reserved word as it is spelled, but one in upper case. -/
  | wrongCase (meant : Reserved)
  | name
  deriving DecidableEq, Repr

namespace Word

/-- What the word with a given spelling is. -/
def classify (word : String) : Word :=
  match Reserved.named? word with
  | some r => .reserved r
  | none =>
    match Reserved.named? (Text.upperCaseWord word) with
    | some r => .wrongCase r
    | none => .name

end Word

end Pseudocode

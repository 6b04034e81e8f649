/-
The five types of the language, and which of them fit together.

The only conversion is from INT to FLOAT.  It shows up twice: a FLOAT variable
accepts an INT, and an operator whose operands are INT and FLOAT works on FLOAT.
-/

namespace Pseudocode

/-- The type of a variable or of a value. -/
inductive Ty where
  | int
  | float
  | char
  | bool
  | string
  deriving DecidableEq, Repr

namespace Ty

/-- The name of a type, as programs spell it. -/
def text : Ty → String
  | .int => "INT"
  | .float => "FLOAT"
  | .char => "CHAR"
  | .bool => "BOOL"
  | .string => "STRING"

/-- Every type, once. -/
def all : List Ty := [.int, .float, .char, .bool, .string]

/-- The type that a word names. -/
def named? (word : String) : Option Ty :=
  all.find? fun t => t.text = word

/-- Numbers are INT and FLOAT. -/
def isNumeric : Ty → Bool
  | .int | .float => true
  | _ => false

/-- Whether a variable of type `target` can take a value of type `source`. -/
def accepts (target source : Ty) : Bool :=
  target = source || (target = .float && source = .int)

/-- The type on which an operator works when its operands have types `a` and `b`. -/
def unify (a b : Ty) : Option Ty :=
  if a = b then some a else if a.isNumeric && b.isNumeric then some .float else none

end Ty

end Pseudocode

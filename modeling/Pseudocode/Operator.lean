/-
The operators of the language.

Two-place operators come in three families, which differ in the operands they take:
arithmetic takes numbers, comparison takes two operands of one kind and answers with a
BOOL, connection takes two BOOL.
-/

namespace Pseudocode

/-- Arithmetic on numbers. -/
inductive Arith where
  | add
  | sub
  | mul
  | div
  | rem
  deriving DecidableEq, Repr

/-- Comparison of two values. -/
inductive Comparison where
  | lt
  | gt
  | le
  | ge
  | ne
  | eq
  deriving DecidableEq, Repr

/-- Connection of two truth values. -/
inductive Connective where
  | and
  | or
  deriving DecidableEq, Repr

/-- An operator between two operands. -/
inductive BinOp where
  | arith (op : Arith)
  | compare (op : Comparison)
  | connect (op : Connective)
  deriving DecidableEq, Repr

/-- An operator before one operand. -/
inductive UnOp where
  | plus
  | minus
  | not
  deriving DecidableEq, Repr

namespace Arith

/-- The spelling of an arithmetic operator. -/
def text : Arith → String
  | .add => "+"
  | .sub => "-"
  | .mul => "*"
  | .div => "/"
  | .rem => "%"

end Arith

namespace Comparison

/-- The spelling of a comparison. -/
def text : Comparison → String
  | .lt => "<"
  | .gt => ">"
  | .le => "<="
  | .ge => ">="
  | .ne => "<>"
  | .eq => "=="

/-- Whether a comparison holds, given how its operands compare.  Of operands that do
not compare, only "different" holds. -/
def holds (op : Comparison) (order : Option Ordering) : Bool :=
  match order with
  | none => op = .ne
  | some order =>
    match op with
    | .lt => order = .lt
    | .gt => order = .gt
    | .le => order ≠ .gt
    | .ge => order ≠ .lt
    | .ne => order ≠ .eq
    | .eq => order = .eq

end Comparison

namespace Connective

/-- The spelling of a connective. -/
def text : Connective → String
  | .and => "AND"
  | .or => "OR"

/-- The truth value of a connection. -/
def apply : Connective → Bool → Bool → Bool
  | .and, a, b => a && b
  | .or, a, b => a || b

end Connective

namespace BinOp

/-- The spelling of an operator. -/
def text : BinOp → String
  | .arith op => op.text
  | .compare op => op.text
  | .connect op => op.text

/-- How tightly an operator binds; a larger number binds tighter. -/
def precedence : BinOp → Nat
  | .connect .or => 1
  | .connect .and => 2
  | .compare _ => 4
  | .arith .add | .arith .sub => 5
  | .arith .rem => 6
  | .arith .mul | .arith .div => 7

/-- Every operator, once. -/
def all : List BinOp :=
  [.arith .add, .arith .sub, .arith .mul, .arith .div, .arith .rem, .compare .lt, .compare .gt,
   .compare .le, .compare .ge, .compare .ne, .compare .eq, .connect .and, .connect .or]

/-- The operator with a given spelling. -/
def named? (word : String) : Option BinOp :=
  all.find? fun op => op.text = word

end BinOp

namespace UnOp

/-- The spelling of an operator before its operand. -/
def text : UnOp → String
  | .plus => "+"
  | .minus => "-"
  | .not => "NOT"

/-- What is written before the operand; a word is set off by a blank. -/
def lead : UnOp → String
  | .not => "NOT "
  | op => op.text

end UnOp

end Pseudocode

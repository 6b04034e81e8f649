/-
Expressions.

The tree keeps what the source shows: parentheses are nodes of their own, and every
node and operator carries its place.
-/
import Pseudocode.Operator
import Pseudocode.Span
import Pseudocode.Value

namespace Pseudocode

/-- An expression. -/
inductive Expr where
  | binary (op : Located BinOp) (left right : Expr) (span : Span)
  | unary (op : Located UnOp) (operand : Expr) (span : Span)
  | paren (inner : Expr) (span : Span)
  | var (name : String) (span : Span)
  | literal (v : Value) (span : Span)
  deriving DecidableEq, Repr

namespace Expr

/-- Where an expression stands. -/
def span : Expr → Span
  | .binary _ _ _ s => s
  | .unary _ _ s => s
  | .paren _ s => s
  | .var _ s => s
  | .literal _ s => s

/-- `left op right`, which reaches from the start of `left` to the end of `right`. -/
def join (left : Expr) (op : Located BinOp) (right : Expr) : Expr :=
  .binary op left right (left.span.to right.span)

end Expr

end Pseudocode

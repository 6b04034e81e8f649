/-
Grouping a chain of operators.

Without parentheses an expression is a chain: an operand, then operators each followed
by an operand.  The operator that binds least is applied last, and of several that bind
equally the leftmost, so `a - b - c` means `a - (b - c)`.

The tree is built from the right.  Putting one more operand and operator in front of a
tree makes that operator the root, unless it binds tighter than the root; then it
belongs to the left operand of the root.
-/
import Pseudocode.Expr

namespace Pseudocode

/-- An operator of a chain and the operand behind it. -/
structure Link where
  op : Located BinOp
  operand : Expr
  deriving DecidableEq, Repr

namespace Expr

/-- The tree of a chain that starts with `left op`, given the tree of what follows.
Operands of a chain are never bare chains themselves, so every `binary` node met here is
one of the chain. -/
def prepend (left : Expr) (op : Located BinOp) : Expr → Expr
  | .binary root l r s =>
    if root.val.precedence < op.val.precedence then join (prepend left op l) root r
    else join left op (.binary root l r s)
  | right => join left op right

/-- The tree of a chain. -/
def ofChain (first : Expr) : List Link → Expr
  | [] => first
  | link :: links => prepend first link.op (ofChain link.operand links)

end Expr

end Pseudocode

/-
Values of expressions.

Both operands of an operator are always evaluated, the left one first.
-/
import Pseudocode.Error
import Pseudocode.Program
import Pseudocode.Store

namespace Pseudocode

/-- The error of a fault found while running. -/
def RunFault.at (fault : RunFault) (span : Span) : Error :=
  { cause := .runtime fault, span := span }

/-- The result of an operator, with its fault placed at `span`. -/
def OperandFault.locate (span : Span) (result : Except OperandFault Value) :
    Except Error Value :=
  result.mapError fun fault => (RunFault.operand fault).at span

@[simp]
theorem OperandFault.locate_ok (span : Span) (v : Value) : locate span (.ok v) = .ok v :=
  rfl

@[simp]
theorem OperandFault.locate_error (span : Span) (fault : OperandFault) :
    locate span (.error fault) = .error ((RunFault.operand fault).at span) :=
  rfl

namespace Expr

/-- The value of an expression. -/
def eval (store : Store) : Expr → Except Error Value
  | .binary op left right _ => do
    let l ← left.eval store
    let r ← right.eval store
    OperandFault.locate op.span (op.val.apply l r)
  | .unary op operand _ => do
    let v ← operand.eval store
    OperandFault.locate op.span (op.val.apply v)
  | .paren inner _ => inner.eval store
  | .var name span =>
    match store.get? name with
    | none => .error ((RunFault.binding (.undeclared name)).at span)
    | some ⟨_, none⟩ => .error ((RunFault.unset name).at span)
    | some ⟨_, some v⟩ => .ok v
  | .literal v _ => .ok v

/-- The truth value of a condition. -/
def evalCondition (store : Store) (cond : Expr) : Except Error Bool := do
  let v ← cond.eval store
  match v.bool? with
  | some b => .ok b
  | none => .error (RunFault.notBool.at cond.span)

end Expr

/-- What a part of a DISPLAY shows. -/
def Item.eval (store : Store) : Item → Except Error String
  | .newline _ => .ok "\n"
  | .expr e => do return (← e.eval store).text

end Pseudocode

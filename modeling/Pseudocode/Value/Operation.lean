/-
Operators on values.

Two INT give an INT, computed modulo 2^32; division drops the fraction, and the
smallest INT divided by -1 is itself.  As soon as one of two numbers is a FLOAT both
are taken as FLOAT.  Only an INT division by an INT zero fails for the values it gets;
every other failure is one of types.
-/
import Pseudocode.Operator
import Pseudocode.Single.Arithmetic
import Pseudocode.Value

namespace Pseudocode

/-- Why an operator yields no value. -/
inductive OperandFault where
  | divisionByZero
  | binary (op : BinOp) (left right : Ty)
  | unary (op : UnOp) (operand : Ty)
  deriving DecidableEq, Repr

namespace OperandFault

/-- The words for an operator that does not take operands of the given types. -/
def operate (op : String) (operands : String) : String :=
  "Unable to operate '" ++ op ++ "' on " ++ operands

/-- The wording of a fault. -/
def message : OperandFault → String
  | .divisionByZero => "Division by zero"
  | .binary op left right =>
    let operands := left.text ++ " and " ++ right.text
    match op with
    | .arith .add => "Unable to add " ++ operands
    | .arith .sub => "Unable to subtract " ++ operands
    | .arith .mul => "Unable to multiply " ++ operands
    | .arith .div => "Unable to divide " ++ operands
    | op => operate op.text operands
  | .unary .minus operand => "Unable to negate " ++ operand.text
  | .unary op operand => operate op.text operand.text

end OperandFault

namespace Arith

/-- Arithmetic modulo 2^32, with nothing for a division by zero. -/
def onInt? : Arith → Int32 → Int32 → Option Int32
  | .add, a, b => some (a + b)
  | .sub, a, b => some (a - b)
  | .mul, a, b => some (a * b)
  | .div, a, b => if b = 0 then none else some (a / b)
  | .rem, a, b => if b = 0 then none else some (a % b)

/-- Arithmetic on FLOAT. -/
def onSingle : Arith → Single → Single → Single
  | .add => Single.add
  | .sub => Single.sub
  | .mul => Single.mul
  | .div => Single.div
  | .rem => Single.rem

end Arith

namespace Value

/-- How two values compare: nothing when their types do not, and no order between
numbers of which one is not a number. -/
def order? : Value → Value → Option (Option Ordering)
  | .int a, .int b => some (compare a.toInt b.toInt)
  | .char a, .char b => some (compare a b)
  | .bool a, .bool b => some (compare a b)
  | .string a, .string b => some (compare a b)
  | a, b =>
    match a.single?, b.single? with
    | some x, some y => some (x.order y)
    | _, _ => none

end Value

/-- The value of `a op b`. -/
def BinOp.apply (op : BinOp) (a b : Value) : Except OperandFault Value :=
  let mismatch := .error (.binary op a.ty b.ty)
  match op with
  | .arith op =>
    match a, b with
    | .int m, .int n =>
      match op.onInt? m n with
      | some k => .ok (.int k)
      | none => .error .divisionByZero
    | a, b =>
      match a.single?, b.single? with
      | some x, some y => .ok (.float (op.onSingle x y))
      | _, _ => mismatch
  | .compare op =>
    match a.order? b with
    | some order => .ok (.bool (op.holds order))
    | none => mismatch
  | .connect op =>
    match a.bool?, b.bool? with
    | some p, some q => .ok (.bool (op.apply p q))
    | _, _ => mismatch

/-- The value of `op a`. -/
def UnOp.apply : UnOp → Value → Except OperandFault Value
  | .plus, .int n => .ok (.int n)
  | .plus, .float x => .ok (.float x)
  | .minus, .int n => .ok (.int (-n))
  | .minus, .float x => .ok (.float x.neg)
  | .not, .bool b => .ok (.bool !b)
  | op, a => .error (.unary op a.ty)

end Pseudocode

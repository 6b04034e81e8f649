/-
Types of expressions, and the check of a program before it runs.

The check goes through a program once, in order, with the types of the names declared
so far.  It stops at the first fault; the declarations before that stay known, so that a
further program can be checked after it.
-/
import Pseudocode.Error
import Pseudocode.Program
import Std.Data.TreeMap

namespace Pseudocode

/-- The types of the declared names. -/
abbrev Scope := Std.TreeMap String Ty

namespace Scope

/-- The error of a fault found by the check. -/
def error (fault : TypeFault) (span : Span) : Error :=
  { cause := .typing fault, span := span }

/-- The type of a declared name. -/
def lookUp (scope : Scope) (name : Name) : Except Error Ty :=
  match scope[name.val]? with
  | some ty => .ok ty
  | none => .error (error (.binding (.undeclared name.val)) name.span)

end Scope

/-- The type of `a op b` for operands of given types. -/
def BinOp.resultTy? (op : BinOp) (left right : Ty) : Option Ty :=
  match op, left.unify right with
  | .arith _, some common => if common.isNumeric then some common else none
  | .compare _, some _ => some .bool
  | .connect _, some common => if common = .bool then some .bool else none
  | _, none => none

/-- The type of `op a` for an operand of a given type. -/
def UnOp.resultTy? (op : UnOp) (operand : Ty) : Option Ty :=
  match op with
  | .not => if operand = .bool then some .bool else none
  | _ => if operand.isNumeric then some operand else none

namespace Expr

/-- The type of an expression. -/
def typeOf (scope : Scope) : Expr → Except Error Ty
  | .binary op left right _ => do
    let l ← left.typeOf scope
    let r ← right.typeOf scope
    match op.val.resultTy? l r with
    | some ty => .ok ty
    | none => .error (Scope.error (.binary op.val l r) op.span)
  | .unary op operand _ => do
    let t ← operand.typeOf scope
    match op.val.resultTy? t with
    | some ty => .ok ty
    | none => .error (Scope.error (.unary op.val t) op.span)
  | .paren inner _ => inner.typeOf scope
  | .var name span => scope.lookUp ⟨name, span⟩
  | .literal v _ => .ok v.ty

/-- Checks that an expression is a condition. -/
def checkCondition (scope : Scope) (cond : Expr) : Except Error Unit := do
  let ty ← cond.typeOf scope
  if ty = .bool then .ok () else .error (Scope.error .notBool cond.span)

end Expr

/-- Checks that a value of type `source`, which stands at `span`, fits a variable. -/
def checkFits (target source : Ty) (name : String) (span : Span) : Except Error Unit :=
  if target.accepts source then .ok ()
  else .error (Scope.error (.binding (.mismatch source name)) span)

/-- A check that may declare names, and that keeps them when it fails. -/
abbrev Check := EStateM Error Scope

namespace Check

/-- A check that declares nothing. -/
def inspect {α : Type} (f : Scope → Except Error α) : Check α := fun scope =>
  match f scope with
  | .ok a => .ok a scope
  | .error e => .error e scope

/-- Declares a name, after the check of its first value. -/
def declarator (ty : Ty) (d : Declarator) : Check Unit := fun scope =>
  if scope.contains d.name.val then
    .error (Scope.error (.binding (.redeclared d.name.val)) d.name.span) scope
  else
    let fits : Except Error Unit :=
      match d.init with
      | none => .ok ()
      | some init => do
        let source ← init.typeOf scope
        checkFits ty source d.name.val init.span
    match fits with
    | .ok () => .ok () (scope.insert d.name.val ty)
    | .error e => .error e scope

end Check

/-- Checks that a value of type `source` fits every target, from left to right. -/
def checkTargets (scope : Scope) (targets : List Name) (source : Ty) (span : Span) :
    Except Error Unit :=
  targets.forM fun name => do
    let target ← scope.lookUp name
    checkFits target source name.val span

mutual

/-- Checks a statement. -/
def Stmt.check : Stmt → Check Unit
  | .declare ty vars _ => vars.forM (Check.declarator ty)
  | .assign targets value _ =>
    Check.inspect fun scope => do
      let source ← value.typeOf scope
      checkTargets scope targets source value.span
  | .display items _ =>
    Check.inspect fun scope =>
      items.forM fun
        | .newline _ => .ok ()
        | .expr e => do let _ ← e.typeOf scope
  | .scan targets _ =>
    Check.inspect fun scope => targets.forM fun name => do let _ ← scope.lookUp name
  | .ifThen cond body otherwise _ => do
    Check.inspect (cond.checkCondition ·)
    checkStmts body
    otherwise.check
  | .loop cond body _ => do
    Check.inspect (cond.checkCondition ·)
    checkStmts body

/-- Checks the ELSE clauses. -/
def Otherwise.check : Otherwise → Check Unit
  | .nothing => pure ()
  | .elseIf cond body otherwise => do
    Check.inspect (cond.checkCondition ·)
    checkStmts body
    otherwise.check
  | .bare body => checkStmts body

/-- Checks statements in order. -/
def checkStmts : List Stmt → Check Unit
  | [] => pure ()
  | s :: rest => do
    s.check
    checkStmts rest

end

/-- Checks a program in a scope that earlier programs may have filled. -/
def Program.check (p : Program) : Check Unit :=
  checkStmts p.body

/-- Checks a program on its own. -/
def Program.analyze (p : Program) : Except Error Unit :=
  match p.check {} with
  | .ok () _ => .ok ()
  | .error e _ => .error e

end Pseudocode

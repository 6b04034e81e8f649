/-
Programs: sequences of statements.

An IF has a first clause, any number of ELSE IF clauses behind it, and at most one bare
ELSE at the end; the type `Otherwise` of what follows a clause says just that.
-/
import Pseudocode.Expr

namespace Pseudocode

/-- A name at its place. -/
abbrev Name := Located String

/-- A declared name, with the expression that gives it its first value, if any. -/
structure Declarator where
  name : Name
  init : Option Expr
  deriving DecidableEq, Repr

/-- A part of what DISPLAY shows. -/
inductive Item where
  /-- The start of a new line. -/
  | newline (span : Span)
  | expr (e : Expr)
  deriving DecidableEq, Repr

mutual

/-- A statement. -/
inductive Stmt where
  | declare (ty : Ty) (vars : List Declarator) (span : Span)
  | assign (targets : List Name) (value : Expr) (span : Span)
  | display (items : List Item) (span : Span)
  | scan (targets : List Name) (span : Span)
  | ifThen (cond : Expr) (body : List Stmt) (otherwise : Otherwise) (span : Span)
  | loop (cond : Expr) (body : List Stmt) (span : Span)

/-- What an IF does when none of the conditions so far holds. -/
inductive Otherwise where
  | nothing
  | elseIf (cond : Expr) (body : List Stmt) (otherwise : Otherwise)
  | bare (body : List Stmt)

end

namespace Stmt

/-- Where a statement starts: the span of its first token. -/
def span : Stmt → Span
  | .declare _ _ s => s
  | .assign _ _ s => s
  | .display _ s => s
  | .scan _ s => s
  | .ifThen _ _ _ s => s
  | .loop _ _ s => s

/-- Declarations are the statements that may not follow others. -/
def isDeclaration : Stmt → Bool
  | .declare .. => true
  | _ => false

end Stmt

/-- A program. -/
structure Program where
  /-- Its statements. -/
  body : List Stmt
  /-- Where it starts. -/
  span : Span

end Pseudocode

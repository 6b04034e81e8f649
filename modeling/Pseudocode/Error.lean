/-
Errors, as causes.

Each stage has its own faults, and the wording of each stands here, in one place.  An
error is a cause with the place it is about.
-/
import Pseudocode.Diagnostic
import Pseudocode.Token
import Pseudocode.Value.Operation

namespace Pseudocode

/-- What the grammar asks for at some place. -/
inductive Expected where
  | token (kind : Token.Kind)
  | expression
  deriving DecidableEq, Repr

/-- What was asked for, as errors call it. -/
def Expected.text : Expected → String
  | .token kind => kind.text
  | .expression => "expression"

/-- Why tokens do not form a program. -/
inductive GrammarFault where
  | unexpected (found : Token.Kind) (expected : Expected)
  /-- No statement starts like this. -/
  | notAStatement (lexeme : String)
  /-- The text stops inside a block. -/
  | missingEnd
  /-- A declaration after another statement. -/
  | lateDeclaration
  /-- A further clause behind a bare ELSE. -/
  | clauseAfterElse
  /-- An assignment to something that is no name. -/
  | invalidTarget
  deriving DecidableEq, Repr

/-- The wording of a fault. -/
def GrammarFault.message : GrammarFault → String
  | .unexpected found expected =>
    "Unexpected " ++ found.text ++ " token expected " ++ expected.text ++ " token"
  | .notAStatement lexeme => "Invalid syntax \"" ++ lexeme ++ "\""
  | .missingEnd => "Missing END statement"
  | .lateDeclaration => "Invalid syntax: declarations must come before executable statements"
  | .clauseAfterElse => "Invalid syntax ELSE: no clause may follow a bare ELSE"
  | .invalidTarget => "Invalid assignment target"

/-- A misuse of a name, found when checking types or when running. -/
inductive BindingFault where
  | redeclared (name : String)
  | undeclared (name : String)
  /-- A value of this type does not fit the variable. -/
  | mismatch (value : Ty) (name : String)
  deriving DecidableEq, Repr

/-- The wording of a fault. -/
def BindingFault.message : BindingFault → String
  | .redeclared name => "\"" ++ name ++ "\" already exists"
  | .undeclared name => "\"" ++ name ++ "\" does not exist"
  | .mismatch value name => "Unable to assign " ++ value.text ++ " on \"" ++ name ++ "\""

/-- The wording for a condition that is not a truth value. -/
def notBoolMessage : String :=
  "Expression is not " ++ Ty.bool.text

/-- Why a program is not well typed. -/
inductive TypeFault where
  | binding (fault : BindingFault)
  | notBool
  | binary (op : BinOp) (left right : Ty)
  | unary (op : UnOp) (operand : Ty)
  deriving DecidableEq, Repr

/-- The wording of a fault. -/
def TypeFault.message : TypeFault → String
  | .binding fault => fault.message
  | .notBool => notBoolMessage
  | .binary op left right => OperandFault.operate op.text (left.text ++ " and " ++ right.text)
  | .unary op operand => OperandFault.operate op.text operand.text

/-- Why a program stops while it runs. -/
inductive RunFault where
  | binding (fault : BindingFault)
  | notBool
  | operand (fault : OperandFault)
  /-- The variable is declared but was never given a value. -/
  | unset (name : String)
  /-- The input ended, or its line has the wrong number of fields. -/
  | missingInput
  /-- The input or the sink failed, in its own words. -/
  | device (message : String)
  deriving DecidableEq, Repr

/-- The wording of a fault. -/
def RunFault.message : RunFault → String
  | .binding fault => fault.message
  | .notBool => notBoolMessage
  | .operand fault => fault.message
  | .unset name => "Variable '" ++ name ++ "' has no value"
  | .missingInput => "Missing input/s"
  | .device message => message

/-- The cause of an error. -/
inductive Cause where
  | lexical (fault : Fault) (lexeme : String)
  | grammar (fault : GrammarFault)
  | typing (fault : TypeFault)
  | runtime (fault : RunFault)
  deriving DecidableEq, Repr

namespace Cause

/-- The stage at which a cause shows. -/
def stage : Cause → Stage
  | .lexical .. => .lexical
  | .grammar _ => .grammar
  | .typing _ => .typing
  | .runtime _ => .runtime

/-- The wording of a cause. -/
def message : Cause → String
  | .lexical fault lexeme => fault.message lexeme
  | .grammar fault => fault.message
  | .typing fault => fault.message
  | .runtime fault => fault.message

end Cause

/-- An error in a program: what is wrong, and where. -/
structure Error where
  cause : Cause
  span : Span
  deriving DecidableEq, Repr

namespace Error

/-- An error as it is shown. -/
def diagnostic (e : Error) : Diagnostic :=
  { stage := e.cause.stage, span := e.span, message := e.cause.message }

end Error

end Pseudocode

/-
Names that look like reserved words.

A reserved word in the wrong case is a fault, with two exceptions: it is a name where a
declaration introduces one, and it is a name wherever it spells a name declared before.
Both can be told from the tokens alone, read from left to right.  A declaration starts
with a type and ends with its line, and in it a new name follows the type or a comma.

A declared name counts from the second token after it: the token right after a new name
is still read without it.
-/
import Pseudocode.Token

namespace Pseudocode

namespace Token

/-- What is known about the tokens to the left. -/
structure Context where
  /-- Whether a declaration has started on this line. -/
  declaring : Bool := false
  /-- Whether the token to the left is one that a new name follows. -/
  slot : Bool := false
  /-- The new name right to the left, which does not count yet. -/
  fresh : Option String := none
  /-- The declared names that count. -/
  declared : List String := []

namespace Context

/-- Whether a reserved word in the wrong case, spelled `lexeme`, is a name here. -/
def takesAsName (ctx : Context) (lexeme : String) : Bool :=
  ctx.slot || ctx.declared.contains lexeme

/-- The kind of a token in its context. -/
def resolve (ctx : Context) (t : Token) : Kind :=
  match t.kind with
  | .fault (.wrongCase r) => if ctx.takesAsName t.lexeme then .name else .fault (.wrongCase r)
  | kind => kind

/-- The context behind a token whose kind is settled. -/
def after (ctx : Context) (t : Token) : Context :=
  let declaring :=
    match t.kind with
    | .typeName _ => true
    | .newline => false
    | _ => ctx.declaring
  { declaring := declaring
    slot :=
      match t.kind with
      | .typeName _ => true
      | .sign .comma => declaring
      | _ => false
    fresh := if ctx.slot && t.kind = .name then some t.lexeme else none
    declared := ctx.fresh.toList ++ ctx.declared }

end Context

/-- The tokens with the kind of each settled in its context. -/
def resolveNames (ctx : Context := {}) : List Token → List Token
  | [] => []
  | t :: ts =>
    let t := { t with kind := ctx.resolve t }
    t :: resolveNames (ctx.after t) ts

end Token

end Pseudocode

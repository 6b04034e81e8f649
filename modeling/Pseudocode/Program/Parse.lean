/-
Reading programs.

Statements end with their line.  A block is a sequence of statements between `BEGIN` and
`END`, both followed by the keyword of what the block belongs to.  Declarations come
before all other statements, and so only outside of inner blocks.
-/
import Pseudocode.Expr.Parse
import Pseudocode.Program
import Pseudocode.Token.Names
import Pseudocode.Token.Scanner

namespace Pseudocode

namespace Stmt

open Grammar

/-! ### Statements on one line -/

/-- A name with an optional first value. -/
def declarator (ts : List Token) : Except Error (Read Declarator) := do
  let (name, ts) ← Grammar.name ts
  if (peek ts).kind = .sign .assign then
    let (init, ts) ← Expr.parse ts.tail
    return (⟨name, some init⟩, ts)
  else return (⟨name, none⟩, ts)

/-- What stands behind the first sign of an assignment: the value, or further targets,
each followed by a sign, and then the value. -/
def assigned : (fuel : Nat) → Phrase (List Name × Expr)
  | 0, ts => .error (unexpected (peek ts) .expression)
  | fuel + 1, ts => do
    let (value, ts) ← Expr.parse ts
    let t := peek ts
    if t.kind = .sign .assign then
      match value with
      | .var name span =>
        let ((targets, value), ts) ← assigned fuel ts.tail
        return ((⟨name, span⟩ :: targets, value), ts)
      | _ => .error (reject t .invalidTarget)
    else return (([], value), ts)

/-- A part of what DISPLAY shows. -/
def item (ts : List Token) : Except Error (Read Item) :=
  let t := peek ts
  if t.kind = .sign .dollar then .ok (.newline t.span, ts.tail)
  else do
    let (e, ts) ← Expr.parse ts
    return (.expr e, ts)

/-! ### Statements with blocks -/

/-- A condition: an expression in parentheses. -/
def condition (ts : List Token) : Except Error (Read Expr) := do
  let (opening, ts) ← expect (.sign .openParen) ts
  let (e, ts) ← Expr.parse ts
  let (closing, ts) ← expect (.sign .closeParen) ts
  return (.paren e (opening.span.to closing.span), ts)

/-- A block of the given keyword, given how to read the statements in it. -/
def block (statements : Phrase (List Stmt)) (k : Keyword) (ts : List Token) :
    Except Error (Read (List Stmt)) := do
  let (_, ts) ← expect (.keyword .BEGIN) (skipNewlines ts)
  let (_, ts) ← expect (.keyword k) ts
  let ts ← lineEnd ts
  let (body, ts) ← statements ts
  let (_, ts) ← expect (.keyword .END) ts
  let (_, ts) ← expect (.keyword k) ts
  return (body, ts)

/-- A block of an IF, its line end, and the empty lines behind it. -/
def clauseBody (statements : Phrase (List Stmt)) (ts : List Token) :
    Except Error (Read (List Stmt)) := do
  let (body, ts) ← block statements .IF ts
  let ts ← lineEnd ts
  return (body, skipNewlines ts)

/-- The ELSE clauses behind a clause. -/
def otherwise (statements : Phrase (List Stmt)) :
    (fuel : Nat) → Phrase Otherwise
  | 0, ts => .ok (.nothing, ts)
  | fuel + 1, ts =>
    if (peek ts).kind = .keyword .ELSE then
      let ts := ts.tail
      if (peek ts).kind = .keyword .IF then do
        let (cond, ts) ← condition ts.tail
        let (body, ts) ← clauseBody statements ts
        let (rest, ts) ← otherwise statements fuel ts
        return (.elseIf cond body rest, ts)
      else do
        let (body, ts) ← clauseBody statements ts
        let t := peek ts
        if t.kind = .keyword .ELSE then .error (reject t .clauseAfterElse)
        else return (.bare body, ts)
    else .ok (.nothing, ts)

/-! ### All statements -/

/-- One statement, given how to read those of an inner block. -/
def statement (statements : Phrase (List Stmt)) (declarations : Bool)
    (ts : List Token) : Except Error (Read Stmt) :=
  let t := peek ts
  let rest := ts.tail
  match t.kind with
  | .typeName ty =>
    if declarations then do
      let (vars, ts) ← separated .comma declarator rest
      return (.declare ty vars t.span, ← lineEnd ts)
    else .error (reject t .lateDeclaration)
  | .name => do
    let (_, ts) ← expect (.sign .assign) rest
    let ((targets, value), ts) ← assigned (ts.length + 1) ts
    return (.assign (⟨t.lexeme, t.span⟩ :: targets) value t.span, ← lineEnd ts)
  | .keyword .DISPLAY => do
    let (_, ts) ← expect (.sign .colon) rest
    let (items, ts) ← separated .ampersand item ts
    return (.display items t.span, ← lineEnd ts)
  | .keyword .SCAN => do
    let (_, ts) ← expect (.sign .colon) rest
    let (targets, ts) ← separated .comma Grammar.name ts
    return (.scan targets t.span, ← lineEnd ts)
  | .keyword .IF => do
    let (cond, ts) ← condition rest
    let (body, ts) ← clauseBody statements ts
    let (rest, ts) ← otherwise statements ts.length ts
    return (.ifThen cond body rest t.span, ts)
  | .keyword .WHILE => do
    let (cond, ts) ← condition rest
    let (body, ts) ← block statements .WHILE ts
    return (.loop cond body t.span, ← lineEnd ts)
  | _ => .error (reject t (.notAStatement t.lexeme))

/-- The statements up to the END of their block.  Every statement takes a token, so
`fuel` larger than the number of tokens is enough. -/
def statements : (fuel : Nat) → (declarations : Bool) → Phrase (List Stmt)
  | 0, _, ts => .error (reject (peek ts) .missingEnd)
  | fuel + 1, declarations, ts =>
    let ts := skipNewlines ts
    let t := peek ts
    match t.kind with
    | .keyword .END => .ok ([], ts)
    | .endOfInput => .error (reject t .missingEnd)
    | _ => do
      let (s, ts) ← statement (statements fuel false) declarations ts
      let (rest, ts) ← statements fuel (declarations && s.isDeclaration) ts
      return (s :: rest, ts)

end Stmt

namespace Program

open Grammar

/-- The program that some tokens form. -/
def ofTokens (ts : List Token) : Except Error Program := do
  let (start, ts) ← expect (.keyword .BEGIN) (skipNewlines ts)
  let (_, ts) ← expect (.keyword .CODE) ts
  let ts ← lineEnd ts
  let (body, ts) ← Stmt.statements (ts.length + 1) true ts
  let (_, ts) ← expect (.keyword .END) ts
  let (_, ts) ← expect (.keyword .CODE) ts
  let _ ← expect .endOfInput (skipNewlines ts)
  return { body := body, span := start.span }

/-- The program that a text spells. -/
def parse (source : String) : Except Error Program :=
  ofTokens (Token.resolveNames {} (Token.ofSource source))

end Program

end Pseudocode

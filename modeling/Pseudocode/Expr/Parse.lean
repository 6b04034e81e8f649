/-
Reading expressions.

An expression is a chain of operands; an operand is a name, a literal, an expression in
parentheses, or an operator before another operand.  How operators bind plays no part
in the reading: the chain is read first and grouped afterwards.

The smallest INT has no literal of its own, because its digits alone are out of range;
a minus sign right before them makes it one.
-/
import Pseudocode.Expr.Chain
import Pseudocode.Grammar
import Pseudocode.Numeral

namespace Pseudocode

namespace Expr

open Grammar

/-- Whether a token holds the digits of the smallest INT, which are out of range. -/
def isSmallestMagnitude (t : Token) : Bool :=
  t.kind = .fault .intOutOfRange && Numeral.read t.lexeme.toList = .whole (2 ^ 31)

/-- Reads an operand without an operator before it, which starts with `t`. -/
def primary (expression : Phrase Expr) (t : Token) (ts : List Token) :
    Except Error (Read Expr) :=
  match t.kind with
  | .name => .ok (.var t.lexeme t.span, ts)
  | .literal v => .ok (.literal v t.span, ts)
  | .escape c => .ok (.literal (.char c) t.span, ts)
  | .sign .openParen => do
    let (e, ts) ← expression ts
    let (close, ts) ← expect (.sign .closeParen) ts
    return (.paren e (t.span.to close.span), ts)
  | _ => .error (unexpected t .expression)

/-- Reads an operand, given how to read an expression in parentheses. -/
def operand (expression : Phrase Expr) : Phrase Expr
  | [] => .error (unexpected (peek []) .expression)
  | t :: ts =>
    match t.kind.unOp? with
    | some op =>
      if op = .minus && isSmallestMagnitude (peek ts) then
        .ok (.literal (.int Int32.minValue) (t.span.to (peek ts).span), ts.tail)
      else do
        let (e, ts) ← operand expression ts
        return (.unary ⟨op, t.span⟩ e (t.span.to e.span), ts)
    | none => primary expression t ts

/-- Reads an operator and the operand behind it. -/
def link (expression : Phrase Expr) (ts : List Token) : Except Error (Read Link) :=
  let t := peek ts
  match t.kind.binOp? with
  | none => .error (unexpected t .expression)
  | some op => do
    let (e, ts) ← operand expression ts.tail
    return (⟨⟨op, t.span⟩, e⟩, ts)

/-- Reads an expression with fewer than `fuel` levels of parentheses. -/
def parseWithin : (fuel : Nat) → Phrase Expr
  | 0, ts => .error (unexpected (peek ts) .expression)
  | fuel + 1, ts => do
    let (first, ts) ← operand (parseWithin fuel) ts
    let (links, ts) ←
      many (fun ts => (peek ts).kind.binOp?.isSome) (link (parseWithin fuel)) ts.length ts
    return (ofChain first links, ts)

/-- Reads an expression.  A level of parentheses takes a token, so there are no more
levels than tokens. -/
def parse (ts : List Token) : Except Error (Read Expr) :=
  parseWithin (ts.length + 1) ts

end Expr

end Pseudocode

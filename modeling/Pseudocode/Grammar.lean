/-
The steps from which the grammar is built.

A phrase of the grammar is read off the front of a list of tokens: the reading either
gives the phrase and the tokens behind it, or the error at the first token that does
not fit.  A fault of the text is reported as what it is, whatever the grammar asked for
in its place.

Repetition takes a bound on the number of rounds.  Every round takes a token, so the
number of tokens left is always enough.
-/
import Pseudocode.Error

namespace Pseudocode

namespace Grammar

/-- A phrase, and the tokens behind it. -/
abbrev Read (α : Type) := α × List Token

/-- A way of reading a phrase off the front of some tokens. -/
abbrev Phrase (α : Type) := List Token → Except Error (Read α)

/-- The first token; behind the last one the input has ended. -/
abbrev peek : List Token → Token
  | [] => { kind := .endOfInput, lexeme := "", span := ⟨0, 0, 0⟩ }
  | t :: _ => t

/-- The error at a token that does not fit. -/
def reject (t : Token) (fault : GrammarFault) : Error :=
  match t.kind with
  | .fault f => { cause := .lexical f t.lexeme, span := t.span }
  | _ => { cause := .grammar fault, span := t.span }

/-- The error at a token in whose place something else is expected. -/
def unexpected (t : Token) (expected : Expected) : Error :=
  reject t (.unexpected t.kind expected)

/-- A token of the given kind. -/
def expect (kind : Token.Kind) (ts : List Token) : Except Error (Read Token) :=
  let t := peek ts
  if t.kind = kind then .ok (t, ts.tail) else .error (unexpected t (.token kind))

/-- A name at its place. -/
def name (ts : List Token) : Except Error (Read (Located String)) := do
  let (t, ts) ← expect .name ts
  return (⟨t.lexeme, t.span⟩, ts)

/-- The tokens behind any line ends in front. -/
def skipNewlines (ts : List Token) : List Token :=
  ts.dropWhile fun t => t.kind = .newline

/-- The end of a statement: a line end, or the end of input, which stays where it is. -/
def lineEnd (ts : List Token) : Except Error (List Token) :=
  let t := peek ts
  match t.kind with
  | .newline => .ok ts.tail
  | .endOfInput => .ok ts
  | _ => .error (unexpected t (.token .newline))

/-- Phrases, one after another, as long as `more` holds of the tokens left. -/
def many {α : Type} (more : List Token → Bool) (phrase : Phrase α) :
    (fuel : Nat) → Phrase (List α)
  | 0, ts => .ok ([], ts)
  | fuel + 1, ts =>
    if more ts then do
      let (a, ts) ← phrase ts
      let (as, ts) ← many more phrase fuel ts
      return (a :: as, ts)
    else .ok ([], ts)

/-- One phrase or more, with a sign between each two. -/
def separated {α : Type} (sign : Sign) (phrase : Phrase α) (ts : List Token) :
    Except Error (Read (List α)) := do
  let (first, ts) ← phrase ts
  let (others, ts) ←
    many (fun ts => (peek ts).kind = .sign sign) (fun ts => phrase ts.tail) ts.length ts
  return (first :: others, ts)

end Grammar

end Pseudocode

/-
Places in a source text.

A span names a stretch of characters on one line: the line and the column of its
first character, both counted from 1, and how many characters it covers.  Every
token, expression and statement carries one, and every error points at one.
-/

namespace Pseudocode

/-- A stretch of characters on one line of a source text. -/
structure Span where
  /-- The line, counted from 1. -/
  line : Nat
  /-- The column of the first character, counted from 1. -/
  col : Nat
  /-- The number of characters covered. -/
  len : Nat
  deriving DecidableEq, Repr, Inhabited

namespace Span

/-- The stretch from the start of `a` to the end of `b`.  When `b` is on another
line, or starts before `a`, there is no such stretch and `a` stands for it. -/
def «to» (a b : Span) : Span :=
  if a.line = b.line ∧ a.col ≤ b.col then { a with len := b.col + b.len - a.col } else a

/-- The start of a span, as errors show it. -/
def text (s : Span) : String :=
  toString s.line ++ "," ++ toString s.col

end Span

/-- Something that stands at a place of the source. -/
structure Located (α : Type) where
  /-- What stands there. -/
  val : α
  /-- Where it stands. -/
  span : Span
  deriving DecidableEq, Repr

end Pseudocode

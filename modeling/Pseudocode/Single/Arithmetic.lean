/-
Arithmetic and order on FLOAT.

Each operation computes the exact result in steps of 2^-149 and rounds it once.
The cases before that are those in which a zero or an infinity decides the result.
-/
import Pseudocode.Single

namespace Pseudocode

namespace Single

/-- The number with the other sign. -/
def neg : Single → Single
  | .nan => .nan
  | .signed s m => .signed (!s) m

/-- A finite number in steps of 2^-149, with its sign. -/
def signedSteps (negative : Bool) (m : Magnitude) : Int :=
  if negative then -m.steps else m.steps

/-- The sum.  Opposite infinities have none, and a sum that is exactly zero is
negative only when both terms are. -/
def add : Single → Single → Single
  | .nan, _ | _, .nan => .nan
  | .signed s a, .signed t b =>
    if a = .infinite then
      if b = .infinite ∧ s ≠ t then .nan else .signed s a
    else if b = .infinite then .signed t b
    else
      let sum := signedSteps s a + signedSteps t b
      if sum = 0 then .signed (s && t) .zero
      else .signed (sum < 0) (.nearest sum.natAbs 1)

/-- The difference. -/
def sub (x y : Single) : Single :=
  x.add y.neg

/-- The product.  Zero times infinity has none. -/
def mul : Single → Single → Single
  | .nan, _ | _, .nan => .nan
  | .signed s a, .signed t b =>
    if a = .infinite ∨ b = .infinite then
      if a = .zero ∨ b = .zero then .nan else .signed (s ^^ t) .infinite
    else .signed (s ^^ t) (.nearest (a.steps * b.steps) (2 ^ Magnitude.fineness))

/-- The quotient.  Zero by zero and infinity by infinity have none, and any other
number divided by zero is infinite. -/
def div : Single → Single → Single
  | .nan, _ | _, .nan => .nan
  | .signed s a, .signed t b =>
    if a = .infinite then
      if b = .infinite then .nan else .signed (s ^^ t) .infinite
    else if b = .infinite then .signed (s ^^ t) .zero
    else if b = .zero then
      if a = .zero then .nan else .signed (s ^^ t) .infinite
    else .signed (s ^^ t) (.nearest (a.steps * 2 ^ Magnitude.fineness) b.steps)

/-- The remainder of the division towards zero, which is exact and has the sign of
the dividend.  There is none for an infinite dividend or a zero divisor. -/
def rem : Single → Single → Single
  | .nan, _ | _, .nan => .nan
  | .signed s a, .signed _ b =>
    if a = .infinite ∨ b = .zero then .nan
    else if b = .infinite then .signed s a
    else .signed s (.nearest (a.steps % b.steps) 1)

/-- The place of a number in the order of all numbers; both zeros have the same. -/
def position (negative : Bool) (m : Magnitude) : Int :=
  if negative then -m.rank else m.rank

/-- How two numbers compare.  With a value that is no number nothing compares. -/
def order : Single → Single → Option Ordering
  | .nan, _ | _, .nan => none
  | .signed s a, .signed t b => some (compare (position s a) (position t b))

end Single

end Pseudocode

/-
Numerals: runs of digits and points.

Without a point a numeral is a whole number; with one point that has a digit after it,
it is a decimal fraction, whose digits before the point may be missing; anything else
made of digits and points is no number.
-/

namespace Pseudocode

/-- The reading of a run of digits and points. -/
inductive Numeral where
  | whole (n : Nat)
  /-- The number `digits * 10^-places`. -/
  | decimal (digits places : Nat)
  | malformed
  deriving DecidableEq, Repr

namespace Numeral

/-- The characters of numerals. -/
def isNumeralChar (c : Char) : Bool :=
  c.isDigit || c = '.'

/-- The number that a sequence of digits stands for. -/
def ofDigits (ds : List Char) : Nat :=
  Nat.ofDigitChars 10 ds 0

/-- Reads digits, at least one, or digits, a point and digits, of which those after the
point are at least one.  Everything else is malformed. -/
def read (cs : List Char) : Numeral :=
  let before := cs.takeWhile Char.isDigit
  match cs.dropWhile Char.isDigit with
  | [] => if before.isEmpty then .malformed else .whole (ofDigits before)
  | '.' :: after =>
    if after.isEmpty || !after.all Char.isDigit then .malformed
    else .decimal (ofDigits (before ++ after)) after.length
  | _ => .malformed

end Numeral

end Pseudocode

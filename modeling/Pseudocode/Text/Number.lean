/-
Numbers as text.

An INT is an optional sign and digits, and it is refused when it is out of range.  A FLOAT is
an optional sign and digits, with a point in front of them, behind them or among them, or with
none, and perhaps an exponent; the names of infinity and of what is no number are read too, in
capital letters or small ones.  Digits are those of ASCII only.
-/
import Pseudocode.Numeral
import Pseudocode.Single.Decimal

namespace Pseudocode.Text

/-- The sign in front of a number, and what follows it. -/
def splitSign : List Char → Bool × List Char
  | '-' :: rest => (true, rest)
  | '+' :: rest => (false, rest)
  | rest => (false, rest)

/-- The whole number that a text of digits stands for. -/
def digits? (cs : List Char) : Option Nat :=
  if cs.isEmpty || !cs.all Char.isDigit then none else some (Numeral.ofDigits cs)

/-- Reads a whole number, with or without a sign. -/
def signed? (cs : List Char) : Option Int :=
  let (negative, cs) := splitSign cs
  (digits? cs).map fun (n : Nat) => if negative then -(n : Int) else n

/-- Reads an INT. -/
def int32? (cs : List Char) : Option Int32 := do
  let z ← signed? cs
  if Int32.minValue.toInt ≤ z ∧ z ≤ Int32.maxValue.toInt then some (Int32.ofInt z) else none

/-- Reads digits with at most one point, and gives the number of them without the point and how
many of them are behind it. -/
def mantissa? (cs : List Char) : Option (Nat × Nat) :=
  let before := cs.takeWhile Char.isDigit
  match cs.dropWhile Char.isDigit with
  | [] => (digits? before).map fun n => (n, 0)
  | '.' :: after =>
    if after.all Char.isDigit then (digits? (before ++ after)).map fun n => (n, after.length)
    else none
  | _ => none

/-- Whether a character starts an exponent. -/
def isExponentMark (c : Char) : Bool :=
  c = 'e' || c = 'E'

/-- Reads an exponent, which is none if nothing is there. -/
def exponent? : List Char → Option Int
  | [] => some 0
  | _ :: cs => signed? cs

/-- Reads a FLOAT. -/
def single? (cs : List Char) : Option Single :=
  let (negative, cs) := splitSign cs
  let name := String.ofList (cs.map Char.toLower)
  if name = "inf" || name = "infinity" then some (.signed negative .infinite)
  else if name = "nan" then some .nan
  else do
    let (digits, places) ← mantissa? (cs.takeWhile (!isExponentMark ·))
    let exponent ← exponent? (cs.dropWhile (!isExponentMark ·))
    return .ofDecimal negative (digits * 10 ^ exponent.toNat) (places + (-exponent).toNat)

end Pseudocode.Text

/-
Values: what variables hold and expressions yield.

INT is a 32-bit word and FLOAT a binary32 number.  A value of type INT goes into a
FLOAT variable as the nearest FLOAT; apart from that a value keeps its type.
-/
import Pseudocode.Single.Decimal
import Pseudocode.Ty

namespace Pseudocode

/-- A value of one of the five types. -/
inductive Value where
  | int (n : Int32)
  | float (x : Single)
  | char (c : Char)
  | bool (b : Bool)
  | string (s : String)
  deriving DecidableEq, Repr

namespace Value

/-- The type of a value. -/
def ty : Value → Ty
  | .int _ => .int
  | .float _ => .float
  | .char _ => .char
  | .bool _ => .bool
  | .string _ => .string

/-- A number as a FLOAT. -/
def single? : Value → Option Single
  | .int n => some (.ofInt n.toInt)
  | .float x => some x
  | _ => none

/-- The truth value of a BOOL. -/
def bool? : Value → Option Bool
  | .bool b => some b
  | _ => none

/-- The value as a variable of type `t` holds it; nothing when it does not fit. -/
def coerce? (t : Ty) (v : Value) : Option Value :=
  match v, t with
  | .int n, .float => some (.float (.ofInt n.toInt))
  | v, t => if v.ty = t then some v else none

/-- What fits a type is of that type, except for an INT that is taken as a FLOAT. -/
theorem coerce?_eq_some_iff {t : Ty} {v w : Value} :
    v.coerce? t = some w ↔
      v = w ∧ w.ty = t ∨ ∃ n, v = .int n ∧ t = .float ∧ w = .float (.ofInt n.toInt) := by
  constructor
  · intro h
    unfold coerce? at h
    split at h
    · cases h
      exact Or.inr ⟨_, rfl, rfl, rfl⟩
    · by_cases hty : v.ty = t
      · rw [if_pos hty] at h
        cases h
        exact Or.inl ⟨rfl, hty⟩
      · rw [if_neg hty] at h
        cases h
  · rintro (⟨rfl, rfl⟩ | ⟨n, rfl, rfl, rfl⟩)
    · cases v <;> rfl
    · rfl

/-- The decimal digits of an INT, after a minus sign when it is negative. -/
def intText (n : Int) : String :=
  let digits := Nat.toDigits 10 n.natAbs
  String.ofList (if n < 0 then '-' :: digits else digits)

/-- The spelling of a truth value. -/
def boolText (b : Bool) : String :=
  if b then "TRUE" else "FALSE"

/-- A value as DISPLAY shows it. -/
def text : Value → String
  | .int n => intText n.toInt
  | .float x => x.text
  | .char c => c.toString
  | .bool b => boolText b
  | .string s => s

end Value

end Pseudocode

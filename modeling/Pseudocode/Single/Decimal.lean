/-
Decimal text of FLOAT.

A number is written with the fewest digits that read back as the same number.  The
search goes through decimal grids from the coarsest to the finest.  On each grid only
the two points around the number can be the nearest ones, so only those two are tried;
the first grid where one of them reads back gives the digits, and of two that do the
nearer one is taken, the upper one when they are equally near.

Grid `k` holds the multiples of `10^k` smallest decimal steps, where a decimal step is
10^-149.  The finest grid, `k = 0`, contains every number exactly, because
2^-149 = 5^149 * 10^-149; so the search always ends with digits that read back.
-/
import Pseudocode.Single

namespace Pseudocode

namespace Magnitude

/-- The magnitude nearest to `digits * 10^-places`. -/
def ofDecimal (digits places : Nat) : Magnitude :=
  nearest (digits * 2 ^ fineness) (10 ^ places)

/-- The magnitude as a number of decimal steps of 10^-149. -/
def decimalSteps (m : Magnitude) : Nat :=
  m.steps * 5 ^ fineness

/-- Whether point `d` of grid `k` reads back as `m`. -/
def readsBack (m : Magnitude) (d k : Nat) : Bool :=
  ofDecimal (d * 10 ^ k) fineness = m

/-- Whether `m` is at least as near to point `d + 1` of grid `k` as to point `d`, where it
lies between the two. -/
def isUpperNearer (m : Magnitude) (d k : Nat) : Bool :=
  (d + 1) * 10 ^ k - m.decimalSteps ≤ m.decimalSteps - d * 10 ^ k

/-- The point of grid `k` that stands for `m`, if one of the two around `m` reads back. -/
def onGrid? (m : Magnitude) (k : Nat) : Option Nat :=
  let below := m.decimalSteps / 10 ^ k
  let above := below + 1
  if m.readsBack above k && (m.isUpperNearer below k || !m.readsBack below k) then some above
  else if m.readsBack below k then some below
  else none

/-- A grid whose step is larger than `m`.  With `b` binary digits a number is less than
2^b, and so has at most `b * 0.30103 + 1` decimal digits. -/
def coarsest (m : Magnitude) : Nat :=
  (Nat.log2 m.decimalSteps + 1) * 30103 / 100000 + 1

/-- The fewest digits of `m`, and their grid. -/
def shortest (m : Magnitude) : Nat × Nat :=
  let grids := (List.range (m.coarsest + 1)).reverse
  (grids.findSome? fun k => (m.onGrid? k).map fun d => (d, k)).getD (m.decimalSteps, 0)

/-! ### The digits read back -/

/-- The finest grid holds every magnitude exactly. -/
theorem readsBack_decimalSteps (m : Magnitude) : m.readsBack m.decimalSteps 0 = true := by
  have h : m.decimalSteps * 10 ^ 0 * 2 ^ fineness = m.steps * 10 ^ fineness := by
    rw [decimalSteps, Nat.pow_zero, Nat.mul_one, Nat.mul_assoc, ← Nat.mul_pow]
  simp only [readsBack, ofDecimal, h, nearest_steps m (Nat.pow_pos (by decide : 0 < 10)),
    decide_true]

theorem readsBack_of_onGrid? {m : Magnitude} {d k : Nat} (h : m.onGrid? k = some d) :
    m.readsBack d k = true := by
  simp only [onGrid?] at h
  split at h
  · next ha =>
    obtain rfl := Option.some.inj h
    exact (Bool.and_eq_true_iff.1 ha).1
  · split at h
    · next hb =>
      obtain rfl := Option.some.inj h
      exact hb
    · contradiction

theorem readsBack_shortest (m : Magnitude) :
    m.readsBack m.shortest.1 m.shortest.2 = true := by
  unfold shortest
  cases h : ((List.range (m.coarsest + 1)).reverse).findSome?
      (fun k => (m.onGrid? k).map fun d => (d, k)) with
  | none => simpa only [h, Option.getD_none] using m.readsBack_decimalSteps
  | some found =>
    obtain ⟨k, -, hk⟩ := List.exists_of_findSome?_eq_some h
    obtain ⟨d, hd, rfl⟩ := Option.map_eq_some_iff.1 hk
    simpa only [h, Option.getD_some] using readsBack_of_onGrid? hd

/-! ### Writing them down -/

/-- `digits * 10^-places`, written without exponent. -/
def positional (digits places : Nat) : List Char :=
  let all := Nat.toDigits 10 digits
  let padded := List.replicate (places + 1 - all.length) '0' ++ all
  let whole := padded.take (padded.length - places)
  if places = 0 then whole else whole ++ '.' :: padded.drop (padded.length - places)

/-- A magnitude as text: a point only when there is a fraction, never an exponent. -/
def text (m : Magnitude) : List Char :=
  if m = .zero then ['0']
  else if m = .infinite then ['i', 'n', 'f']
  else
    let (digits, k) := m.shortest
    if k < fineness then positional digits (fineness - k)
    else positional (digits * 10 ^ (k - fineness)) 0

end Magnitude

namespace Single

/-- The number nearest to `± digits * 10^-places`. -/
def ofDecimal (negative : Bool) (digits places : Nat) : Single :=
  .signed negative (.ofDecimal digits places)

/-- A number as text. -/
def text : Single → String
  | .nan => "NaN"
  | .signed negative m => String.ofList (if negative then '-' :: m.text else m.text)

end Single

end Pseudocode

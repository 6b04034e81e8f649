/-
Arithmetic on INT.

There are 2^32 INT, so an INT is all that can be told of a whole number by looking at it
modulo 2^32.  Of every result of arithmetic this much is right: it differs from the exact
result by a multiple of 2^32.  For the remainder nothing is lost, since it is smaller than the
divisor, and for the quotient only in one case, the smallest INT divided by -1.  The law that
ties the two together holds in that case as well, because it only adds and multiplies.
-/
import Mathlib.Data.Int.ModEq
import Pseudocode.Value.Operation

namespace Pseudocode

namespace Arith

/-- The operators on whole numbers.  A quotient loses its fraction, and the remainder is what
the dividend then has too much. -/
def onWhole : Arith → Int → Int → Int
  | .add, m, n => m + n
  | .sub, m, n => m - n
  | .mul, m, n => m * n
  | .div, m, n => m.tdiv n
  | .rem, m, n => m.tmod n

/-- The operator makes `k` of `a` and `b`. -/
def Yields (op : Arith) (a b k : Int32) : Prop :=
  (BinOp.arith op).apply (.int a) (.int b) = .ok (.int k)

/-- The operator fails on `a` and `b`, as for a division by zero. -/
def FailsByZero (op : Arith) (a b : Int32) : Prop :=
  ∃ fault, (BinOp.arith op).apply (.int a) (.int b) = .error fault ∧
    fault.message = "Division by zero"

variable {op : Arith} {a b k : Int32}

theorem yields_of_onInt? (h : op.onInt? a b = some k) : op.Yields a b k := by
  simp only [Yields, BinOp.apply, h]

theorem failsByZero_of_onInt? (h : op.onInt? a b = none) : op.FailsByZero a b := by
  refine ⟨.divisionByZero, ?_, rfl⟩
  simp only [BinOp.apply, h]

theorem bmod_modEq (n : Int) : n.bmod (2 ^ 32) ≡ n [ZMOD 2 ^ 32] :=
  Int.bmod_emod

/-- Results are exact modulo 2^32. -/
theorem onInt?_modEq (h : op.onInt? a b = some k) :
    k.toInt ≡ op.onWhole a.toInt b.toInt [ZMOD 2 ^ 32] := by
  cases op with
  | add =>
      cases h
      rw [Int32.toInt_add]
      exact bmod_modEq _
  | sub =>
      cases h
      rw [Int32.toInt_sub]
      exact bmod_modEq _
  | mul =>
      cases h
      rw [Int32.toInt_mul]
      exact bmod_modEq _
  | div =>
      obtain ⟨-, rfl⟩ : b ≠ 0 ∧ a / b = k := by simpa [onInt?] using h
      rw [Int32.toInt_div]
      exact bmod_modEq _
  | rem =>
      obtain ⟨-, rfl⟩ : b ≠ 0 ∧ a % b = k := by simpa [onInt?] using h
      rw [Int32.toInt_mod]
      exact Int.ModEq.refl _

/-- Without a division there is always a result. -/
theorem yields_modEq (hdiv : op ≠ .div) (hrem : op ≠ .rem) (a b : Int32) :
    ∃ k, op.Yields a b k ∧ k.toInt ≡ op.onWhole a.toInt b.toInt [ZMOD 2 ^ 32] := by
  cases hk : op.onInt? a b with
  | some k => exact ⟨k, yields_of_onInt? hk, onInt?_modEq hk⟩
  | none => cases op <;> simp [onInt?] at hk hdiv hrem

/-- Two INT that are the same modulo 2^32 are the same. -/
theorem eq_of_modEq (h : a.toInt ≡ b.toInt [ZMOD 2 ^ 32]) : a = b := by
  have := a.le_toInt
  have := a.toInt_lt
  have := b.le_toInt
  have := b.toInt_lt
  apply Int32.toInt_inj.1
  unfold Int.ModEq at h
  omega

/-- The quotient times the divisor, and the remainder, make up the dividend. -/
theorem div_mul_add_rem (a b : Int32) : a / b * b + a % b = a := by
  apply eq_of_modEq
  calc (a / b * b + a % b).toInt
      ≡ (a / b * b).toInt + (a % b).toInt [ZMOD 2 ^ 32] := by
        rw [Int32.toInt_add]
        exact bmod_modEq _
    _ ≡ a.toInt.tdiv b.toInt * b.toInt + a.toInt.tmod b.toInt [ZMOD 2 ^ 32] := by
        rw [Int32.toInt_mul, Int32.toInt_div, Int32.toInt_mod]
        exact ((bmod_modEq _).trans ((bmod_modEq _).mul_right _)).add_right _
    _ = a.toInt := Int.tdiv_mul_add_tmod _ _

theorem abs_rem_lt (a : Int32) (hb : b ≠ 0) : |(a % b).toInt| < |b.toInt| := by
  have hb : b.toInt ≠ 0 := fun h => hb (Int32.toInt_inj.1 h)
  rw [Int32.toInt_mod, Int.abs_eq_natAbs, Int.abs_eq_natAbs, Int.natAbs_tmod]
  have := Nat.mod_lt a.toInt.natAbs (Int.natAbs_pos.2 hb)
  omega

theorem sign_rem (a b : Int32) : (a % b).toInt = 0 ∨ (a % b).toInt.sign = a.toInt.sign := by
  rw [Int32.toInt_mod]
  by_cases hdvd : b.toInt ∣ a.toInt
  · exact Or.inl (Int.tmod_eq_zero_of_dvd hdvd)
  · right
    rw [Int.sign_tmod, if_neg hdvd]

/-- **Arithmetic on INT is exact modulo 2^32.**  Sums, differences and products are always
there.  Quotients and remainders fail for a zero divisor and for nothing else.  The quotient is
the exact one without its fraction, modulo 2^32; the remainder is smaller than the divisor,
with the sign of the dividend; and from the two the operators make the dividend again.  To
negate is to subtract from zero. -/
theorem int_results (a b : Int32) :
    (∃ sum, add.Yields a b sum ∧ sum.toInt ≡ a.toInt + b.toInt [ZMOD 2 ^ 32]) ∧
      (∃ difference, sub.Yields a b difference ∧
        difference.toInt ≡ a.toInt - b.toInt [ZMOD 2 ^ 32]) ∧
      (∃ product, mul.Yields a b product ∧ product.toInt ≡ a.toInt * b.toInt [ZMOD 2 ^ 32]) ∧
      (b = 0 ∧ div.FailsByZero a b ∧ rem.FailsByZero a b ∨
        b ≠ 0 ∧ ∃ quotient remainder product,
          div.Yields a b quotient ∧
          quotient.toInt ≡ a.toInt.tdiv b.toInt [ZMOD 2 ^ 32] ∧
          rem.Yields a b remainder ∧
          |remainder.toInt| < |b.toInt| ∧
          (remainder.toInt = 0 ∨ remainder.toInt.sign = a.toInt.sign) ∧
          mul.Yields quotient b product ∧ add.Yields product remainder a) ∧
      UnOp.minus.apply (.int a) = (BinOp.arith .sub).apply (.int 0) (.int a) := by
  refine ⟨yields_modEq (by decide) (by decide) a b, yields_modEq (by decide) (by decide) a b,
    yields_modEq (by decide) (by decide) a b, ?_, ?_⟩
  · by_cases hb : b = 0
    · have hnone : ∀ op, op = div ∨ op = rem → op.onInt? a b = none := by
        rintro op (rfl | rfl) <;> exact if_pos hb
      exact Or.inl ⟨hb, failsByZero_of_onInt? (hnone _ (.inl rfl)),
        failsByZero_of_onInt? (hnone _ (.inr rfl))⟩
    · have hq : div.onInt? a b = some (a / b) := if_neg hb
      have hr : rem.onInt? a b = some (a % b) := if_neg hb
      refine Or.inr ⟨hb, a / b, a % b, a / b * b, yields_of_onInt? hq, onInt?_modEq hq,
        yields_of_onInt? hr, abs_rem_lt a hb, sign_rem a b, yields_of_onInt? rfl,
        yields_of_onInt? ?_⟩
      exact congrArg some (div_mul_add_rem a b)
  · simp only [UnOp.apply, BinOp.apply, onInt?, Int32.zero_sub]

-- The one quotient that is too large for an INT.
example : div.Yields Int32.minValue (-1) Int32.minValue ∧ rem.Yields Int32.minValue (-1) 0 := by
  unfold Yields
  decide

end Arith

end Pseudocode

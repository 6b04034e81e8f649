/-
Numbers of type FLOAT: IEEE binary32, in whole-number arithmetic.

Every finite binary32 magnitude is a whole number of steps of 2^-149, the smallest
one, so exact sums, products and quotients of FLOAT values are fractions of whole
numbers and need no approximation before the one rounding at the end.

Magnitudes are told apart by their rank: zero has rank 0, the smallest positive one
rank 1, and so on up to infinity.  Below 2^24 steps the rank is the number of steps;
above, each doubling of the magnitude holds 2^23 ranks.  With `s` halvings that
bring a magnitude under 2^24 steps, and `m` what is left, the rank is
`s * 2^23 + m`; when rounding carries `m` up to 2^24, the same sum is the rank of
the next power of two, so the carry needs no case of its own.

The definitions that hold large numbers are irreducible: what follows uses their laws,
and a proof that unfolded them by accident would count up to those numbers.
-/

namespace Pseudocode

-- A power of natural numbers is `Nat.pow`, also beside a library that has monoid powers.
attribute [instance (20000), default_instance 20000] instPowNat

/-- A magnitude of binary32: zero, a positive finite one, or infinity. -/
@[ext]
structure Magnitude where
  /-- The place of the magnitude among all of them, in increasing order. -/
  rank : Nat
  /-- Infinity comes last. -/
  rank_le : rank ≤ 255 * 2 ^ 23
  deriving DecidableEq, Repr

namespace Magnitude

/-- Zero, the least magnitude. -/
def zero : Magnitude := ⟨0, by decide⟩

/-- Infinity, the greatest magnitude. -/
def infinite : Magnitude := ⟨255 * 2 ^ 23, by decide⟩

/-- The smallest positive magnitude, a step, is 2^-149. -/
@[irreducible]
def fineness : Nat := 149

/-- A finite magnitude in steps of 2^-149. -/
@[irreducible]
def steps (m : Magnitude) : Nat :=
  if m.rank < 2 ^ 23 then m.rank
  else (2 ^ 23 + m.rank % 2 ^ 23) * 2 ^ (m.rank / 2 ^ 23 - 1)

/-- The whole number nearest to `num / den`; a half goes to the even neighbour. -/
def roundDiv (num den : Nat) : Nat :=
  let quotient := num / den
  let twice := 2 * (num % den)
  if twice < den then quotient
  else if den < twice then quotient + 1
  else quotient + quotient % 2

/-- The rank nearest to `num / den` steps, as if ranks went on without end. -/
def nearestRank (num den : Nat) : Nat :=
  let halvings := Nat.log2 (num / den) - 23
  halvings * 2 ^ 23 + roundDiv num (den * 2 ^ halvings)

/-- The magnitude nearest to `num / den` steps.  Half-way between two magnitudes the
one with the even last bit is taken, and what is too large becomes infinity. -/
def nearest (num den : Nat) : Magnitude :=
  ⟨min (nearestRank num den) (255 * 2 ^ 23), Nat.min_le_right _ _⟩

theorem rank_nearest (num den : Nat) :
    (nearest num den).rank = min (nearestRank num den) (255 * 2 ^ 23) :=
  rfl

attribute [irreducible] nearest

/-! ### A magnitude is the nearest one to itself -/

/-- A quotient without remainder needs no rounding. -/
theorem roundDiv_mul (q : Nat) {d : Nat} (hd : 0 < d) : roundDiv (q * d) d = q := by
  simp [roundDiv, Nat.mul_div_cancel _ hd, hd]

/-- Below 2^24 steps the rank is the number of steps. -/
theorem steps_of_lt {m : Magnitude} (h : m.rank < 2 ^ 24) : m.steps = m.rank := by
  unfold steps
  split
  · rfl
  · have : m.rank / 2 ^ 23 = 1 := by omega
    rw [this]
    omega

/-- Rounding gives back the rank of what needs no rounding. -/
theorem nearestRank_steps (m : Magnitude) {d : Nat} (hd : 0 < d) :
    nearestRank (m.steps * d) d = m.rank := by
  unfold nearestRank
  rw [Nat.mul_div_cancel _ hd]
  by_cases hs : m.rank < 2 ^ 24
  · have hl : Nat.log2 m.rank - 23 = 0 := by
      by_cases h0 : m.rank = 0
      · simp [h0]
      · have := (Nat.log2_lt h0).2 hs
        omega
    simp only [steps_of_lt hs, hl]
    simpa using roundDiv_mul m.rank hd
  · -- Above, `e` doublings of a number between 2^23 and 2^24 make up the steps.
    obtain ⟨e, he⟩ : ∃ e, m.rank / 2 ^ 23 = e + 1 := ⟨m.rank / 2 ^ 23 - 1, by omega⟩
    have hsteps : m.steps = (2 ^ 23 + m.rank % 2 ^ 23) * 2 ^ e := by
      unfold steps
      rw [if_neg (by omega), he]
      rfl
    have hne : m.steps ≠ 0 := by
      rw [hsteps]
      exact Nat.ne_of_gt (Nat.mul_pos (by omega) (Nat.two_pow_pos e))
    have hlog : Nat.log2 m.steps = 23 + e := by
      apply (Nat.log2_eq_iff hne).2
      rw [hsteps, Nat.pow_add, show 23 + e + 1 = 24 + e by omega, Nat.pow_add]
      have := Nat.mod_lt m.rank (show 0 < 2 ^ 23 by decide)
      exact ⟨Nat.mul_le_mul_right _ (by omega),
        Nat.mul_lt_mul_of_pos_right (by omega) (Nat.two_pow_pos e)⟩
    simp only [hlog, Nat.add_sub_cancel_left]
    rw [hsteps, Nat.mul_assoc, Nat.mul_comm (2 ^ e) d,
      roundDiv_mul _ (Nat.mul_pos hd (Nat.two_pow_pos e))]
    omega

/-- A magnitude is the nearest one to its own steps; infinity, too, has a number of steps
that rounds to it. -/
theorem nearest_steps (m : Magnitude) {d : Nat} (hd : 0 < d) : nearest (m.steps * d) d = m := by
  apply Magnitude.ext
  rw [rank_nearest, nearestRank_steps m hd]
  exact Nat.min_eq_left m.rank_le

end Magnitude

/-- A number of type FLOAT.  Zeros and infinities carry a sign, and there is one value
that is not a number. -/
inductive Single where
  | nan
  | signed (negative : Bool) (magnitude : Magnitude)
  deriving DecidableEq, Repr

namespace Single

/-- The positive zero. -/
def zero : Single := .signed false .zero

/-- The number nearest to a whole number. -/
def ofInt (n : Int) : Single :=
  .signed (n < 0) (.nearest (n.natAbs * 2 ^ Magnitude.fineness) 1)

/-- A number is finite when it is neither infinite nor the value that is no number. -/
def isFinite : Single → Bool
  | .nan => false
  | .signed _ m => m ≠ .infinite

end Single

end Pseudocode

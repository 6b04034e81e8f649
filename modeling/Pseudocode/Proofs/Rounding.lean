/-
Rounding takes the nearest magnitude.

A number between two magnitudes lies on one side of the point half-way between them, or on
that point.  Rounding divides the number by the distance of the magnitudes around it and takes
the nearest whole number, so it never passes such a point, and it stops at one only in front of
an even rank.  Since magnitudes increase with their ranks, this decides against all others and
not only against the two neighbours.

Infinity takes part as the magnitude that would come next, 2^128.  What is rounded to it is
therefore what lies beyond the point half-way between there and the largest finite magnitude,
or on it.
-/
import Mathlib.Algebra.Order.Field.Rat
import Mathlib.Algebra.Order.Field.Basic
import Mathlib.Order.Monotone.Basic
import Mathlib.Tactic.FieldSimp
import Mathlib.Tactic.Linarith
import Mathlib.Tactic.Ring
import Pseudocode.Single.Decimal

namespace Pseudocode

namespace Magnitude

/-! ### Steps and ranks -/

/-- The steps of a rank, as if ranks went on without end. -/
def rankSteps (rank : Nat) : Nat :=
  if rank < 2 ^ 23 then rank
  else (2 ^ 23 + rank % 2 ^ 23) * 2 ^ (rank / 2 ^ 23 - 1)

theorem steps_eq_rankSteps (m : Magnitude) : m.steps = rankSteps m.rank := by
  unfold steps
  rfl

/-- With `h` halvings, ranks are as far apart as 2^h steps. -/
theorem rankSteps_add {h r : Nat} (hr : r ≤ 2 ^ 24) (hnormal : h = 0 ∨ 2 ^ 23 ≤ r) :
    rankSteps (h * 2 ^ 23 + r) = r * 2 ^ h := by
  unfold rankSteps
  by_cases hsmall : h * 2 ^ 23 + r < 2 ^ 23
  · obtain rfl : h = 0 := by omega
    rw [if_pos hsmall]
    omega
  · rw [if_neg hsmall]
    by_cases htop : r = 2 ^ 24
    · -- The carry: one more halving, and half as much left.
      subst htop
      have hdiv : (h * 2 ^ 23 + 2 ^ 24) / 2 ^ 23 - 1 = h + 1 := by omega
      have hmod : (h * 2 ^ 23 + 2 ^ 24) % 2 ^ 23 = 0 := by omega
      rw [hdiv, hmod, Nat.pow_succ]
      ring
    · have hdiv : (h * 2 ^ 23 + r) / 2 ^ 23 - 1 = h := by omega
      have hmod : 2 ^ 23 + (h * 2 ^ 23 + r) % 2 ^ 23 = r := by omega
      rw [hdiv, hmod]

theorem exists_halvings (rank : Nat) :
    ∃ h r, rank = h * 2 ^ 23 + r ∧ r < 2 ^ 24 ∧ (h = 0 ∨ 2 ^ 23 ≤ r) := by
  by_cases hsmall : rank < 2 ^ 24
  · exact ⟨0, rank, by omega, hsmall, .inl rfl⟩
  · exact ⟨rank / 2 ^ 23 - 1, 2 ^ 23 + rank % 2 ^ 23, by omega, by omega, .inr (by omega)⟩

theorem rankSteps_strictMono : StrictMono rankSteps := by
  refine strictMono_nat_of_lt_succ fun rank => ?_
  obtain ⟨h, r, rfl, hr, hnormal⟩ := exists_halvings rank
  rw [rankSteps_add (Nat.le_of_lt hr) hnormal, Nat.add_assoc,
    rankSteps_add hr (hnormal.imp_right fun hle => Nat.le_succ_of_le hle)]
  exact Nat.mul_lt_mul_of_pos_right (Nat.lt_succ_self r) (Nat.two_pow_pos h)

/-! ### Points half-way -/

/-- A quotient is rounded to at most half of its divisor away, and to exactly half only when
the result is even. -/
theorem roundDiv_half (num : Nat) {d : Nat} (hd : 0 < d) :
    2 * num ≤ (2 * roundDiv num d + 1) * d ∧ 2 * roundDiv num d * d ≤ 2 * num + d ∧
      (2 * num = (2 * roundDiv num d + 1) * d ∨ 2 * roundDiv num d * d = 2 * num + d →
        roundDiv num d % 2 = 0) := by
  have hnum := Nat.div_add_mod num d
  have hmod := Nat.mod_lt num hd
  unfold roundDiv
  generalize num / d = q at hnum
  generalize num % d = t at hnum hmod
  have hexpand : ∀ n, (2 * n + 1) * d = 2 * (d * n) + d := fun n => by ring
  have hexpand' : ∀ n, 2 * n * d = 2 * (d * n) := fun n => by ring
  dsimp only
  rw [hexpand, hexpand']
  split
  · omega
  · have hsucc : d * (q + 1) = d * q + d := by ring
    split
    · omega
    · rcases Nat.mod_two_eq_zero_or_one q with hq | hq
      · rw [hq, Nat.add_zero]
        omega
      · rw [hq]
        omega

/-- The parts of the nearest rank.  The halvings are just as many as leave less than 2^24, and
none of them was needless. -/
theorem nearestRank_parts (num : Nat) {den : Nat} (hd : 0 < den) :
    ∃ h r, nearestRank num den = h * 2 ^ 23 + r ∧ r = roundDiv num (den * 2 ^ h) ∧ r ≤ 2 ^ 24 ∧
      (h = 0 ∨ 2 ^ 23 ≤ r ∧ 2 ^ 23 * (den * 2 ^ h) ≤ num) := by
  obtain ⟨h, hh⟩ : ∃ h, h = Nat.log2 (num / den) - 23 := ⟨_, rfl⟩
  have hpos : 0 < den * 2 ^ h := Nat.mul_pos hd (Nat.two_pow_pos h)
  obtain ⟨hupper, hlower, -⟩ := roundDiv_half num hpos
  have hrank : nearestRank num den = h * 2 ^ 23 + roundDiv num (den * 2 ^ h) := by
    rw [nearestRank, ← hh]
  refine ⟨h, _, hrank, rfl, ?_, ?_⟩
  · have hlt : num < 2 ^ 24 * (den * 2 ^ h) := by
      have hlog : num / den < 2 ^ (24 + h) :=
        Nat.lt_of_lt_of_le Nat.lt_log2_self (Nat.pow_le_pow_right (by decide) (by omega))
      calc num < 2 ^ (24 + h) * den := (Nat.div_lt_iff_lt_mul hd).1 hlog
        _ = 2 ^ 24 * (den * 2 ^ h) := by rw [Nat.pow_add]; ring
    have : 2 * roundDiv num (den * 2 ^ h) * (den * 2 ^ h) < (2 * 2 ^ 24 + 1) * (den * 2 ^ h) := by
      linarith
    have := Nat.lt_of_mul_lt_mul_right this
    omega
  · by_cases hzero : h = 0
    · exact .inl hzero
    · right
      have hge : 2 ^ 23 * (den * 2 ^ h) ≤ num := by
        have hlog : 2 ^ (23 + h) ≤ num / den := by
          have hne : num / den ≠ 0 := by
            intro h0
            rw [h0, Nat.log2_zero] at hh
            omega
          exact (Nat.le_log2 hne).1 (by omega)
        calc 2 ^ 23 * (den * 2 ^ h) = 2 ^ (23 + h) * den := by rw [Nat.pow_add]; ring
          _ ≤ num := (Nat.le_div_iff_mul_le hd).1 hlog
      refine ⟨?_, hge⟩
      have : 2 ^ 24 * (den * 2 ^ h) ≤ (2 * roundDiv num (den * 2 ^ h) + 1) * (den * 2 ^ h) := by
        linarith
      have := Nat.le_of_mul_le_mul_right this hpos
      omega

/-- The next rank is at least 2^h steps further. -/
theorem le_rankSteps_succ {h r : Nat} (hr : r ≤ 2 ^ 24) (hnormal : h = 0 ∨ 2 ^ 23 ≤ r) :
    (r + 1) * 2 ^ h ≤ rankSteps (h * 2 ^ 23 + r + 1) := by
  rcases Nat.lt_or_eq_of_le hr with hlt | rfl
  · rw [Nat.add_assoc, rankSteps_add hlt (hnormal.imp_right fun hle => Nat.le_succ_of_le hle)]
  · have hcarry : h * 2 ^ 23 + 2 ^ 24 + 1 = (h + 1) * 2 ^ 23 + (2 ^ 23 + 1) := by ring
    have hpow : 2 ^ (h + 1) = 2 * 2 ^ h := Nat.pow_succ'
    rw [hcarry, rankSteps_add (by decide) (.inr (by decide)), hpow]
    linarith [Nat.two_pow_pos h]

/-- No rank above the nearest one has its half-way point below the number. -/
theorem nearestRank_upper {num den i : Nat} (hd : 0 < den) (hi : nearestRank num den < i) :
    2 * num < (rankSteps (nearestRank num den) + rankSteps i) * den ∨
      2 * num = (rankSteps (nearestRank num den) + rankSteps i) * den ∧
        nearestRank num den % 2 = 0 := by
  obtain ⟨h, r, hk, hr, hle, hnormal⟩ := nearestRank_parts num hd
  have hnormal : h = 0 ∨ 2 ^ 23 ≤ r := hnormal.imp_right And.left
  obtain ⟨hhalf, -, heven⟩ := roundDiv_half num (Nat.mul_pos hd (Nat.two_pow_pos h))
  rw [← hr] at hhalf heven
  rw [hk] at hi ⊢
  have hnext : (r + 1) * 2 ^ h ≤ rankSteps i :=
    (le_rankSteps_succ hle hnormal).trans (rankSteps_strictMono.monotone hi)
  have hsum : (2 * r + 1) * (den * 2 ^ h) ≤ (rankSteps (h * 2 ^ 23 + r) + rankSteps i) * den := by
    rw [rankSteps_add hle hnormal]
    calc (2 * r + 1) * (den * 2 ^ h) = (r * 2 ^ h + (r + 1) * 2 ^ h) * den := by ring
      _ ≤ (r * 2 ^ h + rankSteps i) * den := by gcongr
  refine (Nat.lt_or_eq_of_le (hhalf.trans hsum)).imp_right fun heq => ⟨heq, ?_⟩
  have := heven (.inl (Nat.le_antisymm hhalf (heq ▸ hsum)))
  omega

/-- No rank below the nearest one has its half-way point above the number. -/
theorem nearestRank_lower {num den i : Nat} (hd : 0 < den) (hi : i < nearestRank num den) :
    (rankSteps i + rankSteps (nearestRank num den)) * den < 2 * num ∨
      (rankSteps i + rankSteps (nearestRank num den)) * den = 2 * num ∧
        nearestRank num den % 2 = 0 := by
  obtain ⟨h, r, hk, hr, hle, hnormal⟩ := nearestRank_parts num hd
  obtain ⟨-, hhalf, heven⟩ := roundDiv_half num (Nat.mul_pos hd (Nat.two_pow_pos h))
  rw [← hr] at hhalf heven
  rw [hk] at hi ⊢
  have hsteps : rankSteps (h * 2 ^ 23 + r) = r * 2 ^ h :=
    rankSteps_add hle (hnormal.imp_right And.left)
  by_cases hprev : h = 0 ∨ 2 ^ 23 < r
  · -- The rank before has as many halvings.
    obtain ⟨r, rfl⟩ : ∃ r', r = r' + 1 := ⟨r - 1, by omega⟩
    have hprevSteps : rankSteps (h * 2 ^ 23 + r) = r * 2 ^ h :=
      rankSteps_add (Nat.le_of_succ_le hle) (hprev.imp_right Nat.le_of_lt_succ)
    have hbelow : rankSteps i ≤ r * 2 ^ h := by
      rw [← hprevSteps]
      exact rankSteps_strictMono.monotone (by omega)
    have hsum : (rankSteps i + rankSteps (h * 2 ^ 23 + (r + 1))) * den + den * 2 ^ h ≤
        2 * (r + 1) * (den * 2 ^ h) := by
      rw [hsteps]
      calc (rankSteps i + (r + 1) * 2 ^ h) * den + den * 2 ^ h
          ≤ (r * 2 ^ h + (r + 1) * 2 ^ h) * den + den * 2 ^ h := by gcongr
        _ = 2 * (r + 1) * (den * 2 ^ h) := by ring
    refine (Nat.lt_or_eq_of_le (by omega)).imp_right fun heq => ⟨heq, ?_⟩
    have := heven (.inr (by omega))
    omega
  · -- At a power of two the rank before is nearer than that, and the number is not below.
    obtain ⟨hr', hge⟩ : r = 2 ^ 23 ∧ r * (den * 2 ^ h) ≤ num := by
      rcases hnormal with hzero | ⟨hle', hge⟩
      · exact absurd (.inl hzero) hprev
      · have hr' : r = 2 ^ 23 := by omega
        exact ⟨hr', hr' ▸ hge⟩
    have hbelow : rankSteps i < rankSteps (h * 2 ^ 23 + r) := rankSteps_strictMono hi
    left
    calc (rankSteps i + rankSteps (h * 2 ^ 23 + r)) * den
        < (rankSteps (h * 2 ^ 23 + r) + rankSteps (h * 2 ^ 23 + r)) * den := by gcongr
      _ = 2 * (r * (den * 2 ^ h)) := by rw [hsteps]; ring
      _ ≤ 2 * num := by omega

theorem nearest_upper {num den : Nat} (hd : 0 < den) {m : Magnitude}
    (hm : (nearest num den).rank < m.rank) :
    2 * num < (rankSteps (nearest num den).rank + rankSteps m.rank) * den ∨
      2 * num = (rankSteps (nearest num den).rank + rankSteps m.rank) * den ∧
        (nearest num den).rank % 2 = 0 := by
  have hle := m.rank_le
  have hrank : (nearest num den).rank = nearestRank num den := by
    rw [rank_nearest] at hm ⊢
    omega
  rw [hrank] at hm ⊢
  exact nearestRank_upper hd hm

theorem nearest_lower {num den i : Nat} (hd : 0 < den) (hi : i < (nearest num den).rank) :
    (rankSteps i + rankSteps (nearest num den).rank) * den < 2 * num ∨
      (rankSteps i + rankSteps (nearest num den).rank) * den = 2 * num ∧
        (nearest num den).rank % 2 = 0 := by
  rw [rank_nearest] at hi ⊢
  rcases Nat.lt_or_ge (255 * 2 ^ 23) (nearestRank num den) with hcut | hfits
  · -- Infinity stands for a larger rank, which is nearer to the number than infinity.
    rw [Nat.min_eq_right (Nat.le_of_lt hcut)] at hi ⊢
    have hbelow : rankSteps i < rankSteps (nearestRank num den) :=
      rankSteps_strictMono (hi.trans hcut)
    left
    calc (rankSteps i + rankSteps (255 * 2 ^ 23)) * den
        < (rankSteps (nearestRank num den) + rankSteps (255 * 2 ^ 23)) * den := by gcongr
      _ = (rankSteps (255 * 2 ^ 23) + rankSteps (nearestRank num den)) * den := by
          rw [Nat.add_comm]
      _ ≤ 2 * num := (nearestRank_lower hd hcut).elim Nat.le_of_lt fun h => Nat.le_of_eq h.1
  · rw [Nat.min_eq_left hfits] at hi ⊢
    exact nearestRank_lower hd hi

/-! ### The nearest magnitude -/

/-- The number that a magnitude stands for; infinity counts as 2^128. -/
def toRat (m : Magnitude) : ℚ :=
  m.steps / 2 ^ fineness

/-- The magnitude is nearer to the number than every other one, or as near and of even rank. -/
def IsNearest (m : Magnitude) (q : ℚ) : Prop :=
  ∀ m' ≠ m, |q - m.toRat| < |q - m'.toRat| ∨
    |q - m.toRat| = |q - m'.toRat| ∧ m.rank % 2 = 0

theorem toRat_lt_toRat {m m' : Magnitude} (h : m.rank < m'.rank) : m.toRat < m'.toRat := by
  have hpos : (0 : ℚ) < 2 ^ fineness := by positivity
  have hsteps : m.steps < m'.steps := by
    rw [steps_eq_rankSteps, steps_eq_rankSteps]
    exact rankSteps_strictMono h
  rw [toRat, toRat, div_lt_div_iff_of_pos_right hpos]
  exact_mod_cast hsteps

/-- Which of two numbers is nearer depends on the side of the point half-way. -/
theorem abs_sub_lt_left_iff {q a b : ℚ} (hab : a < b) : |q - a| < |q - b| ↔ 2 * q < a + b := by
  rw [← sq_lt_sq]
  constructor <;> intro h <;> nlinarith

theorem abs_sub_lt_right_iff {q a b : ℚ} (hab : a < b) : |q - b| < |q - a| ↔ a + b < 2 * q := by
  rw [← sq_lt_sq]
  constructor <;> intro h <;> nlinarith

theorem abs_sub_eq_iff {q a b : ℚ} (hab : a < b) : |q - a| = |q - b| ↔ 2 * q = a + b := by
  rw [← sq_eq_sq_iff_abs_eq_abs]
  constructor <;> intro h <;> nlinarith

/-- A common denominator for a quotient of steps and the points half-way between magnitudes. -/
theorem exists_scale (num : Nat) {den : Nat} (hd : 0 < den) :
    ∃ c : ℚ, 0 < c ∧ 2 * (num / den / 2 ^ fineness : ℚ) * c = (2 * num : Nat) ∧
      ∀ m m' : Magnitude,
        (m.toRat + m'.toRat) * c = ((rankSteps m.rank + rankSteps m'.rank) * den : Nat) := by
  have hpow : (0 : ℚ) < 2 ^ fineness := by positivity
  have hden : (0 : ℚ) < den := by exact_mod_cast hd
  refine ⟨den * 2 ^ fineness, by positivity, ?_, fun m m' => ?_⟩
  · push_cast
    field_simp
  · rw [toRat, toRat, steps_eq_rankSteps, steps_eq_rankSteps]
    push_cast
    field_simp

section Scaled

variable {a b c : ℚ} {x y : Nat}

theorem lt_of_scaled (hc : 0 < c) (ha : a * c = x) (hb : b * c = y) (h : x < y) : a < b := by
  refine lt_of_mul_lt_mul_right ?_ hc.le
  rw [ha, hb]
  exact_mod_cast h

theorem eq_of_scaled (hc : 0 < c) (ha : a * c = x) (hb : b * c = y) (h : x = y) : a = b := by
  refine mul_right_cancel₀ hc.ne' ?_
  rw [ha, hb, h]

end Scaled

/-- **Rounding takes the nearest magnitude**, and of two that are equally near the one of even
rank. -/
theorem nearest_isNearest (num : Nat) {den : Nat} (hd : 0 < den) :
    (nearest num den).IsNearest (num / den / 2 ^ fineness) := by
  obtain ⟨c, hc, hnum, hhalf⟩ := exists_scale num hd
  intro m' hne
  rcases Nat.lt_or_gt_of_ne (fun h => hne (Magnitude.ext h)) with hlt | hgt
  · have hvalue := toRat_lt_toRat hlt
    have hpoint := hhalf m' (nearest num den)
    rw [abs_sub_lt_right_iff hvalue, eq_comm (a := |_ - (nearest num den).toRat|),
      abs_sub_eq_iff hvalue]
    refine (nearest_lower hd hlt).imp (lt_of_scaled hc hpoint hnum) (And.imp_left fun heq => ?_)
    exact eq_of_scaled hc hnum hpoint heq.symm
  · have hvalue := toRat_lt_toRat hgt
    have hpoint := hhalf (nearest num den) m'
    rw [abs_sub_lt_left_iff hvalue, abs_sub_eq_iff hvalue]
    exact (nearest_upper hd hgt).imp (lt_of_scaled hc hnum hpoint)
      (And.imp_left (eq_of_scaled hc hnum hpoint))

/-- Between two nearest magnitudes there would be another one, since their ranks are even, and
it would be nearer. -/
theorem IsNearest.not_lt {m m' : Magnitude} {q : ℚ} (h : m.IsNearest q) (h' : m'.IsNearest q) :
    ¬ m.rank < m'.rank := by
  intro hlt
  have hvalue := toRat_lt_toRat hlt
  have hne : m ≠ m' := fun heq => Nat.ne_of_lt hlt (congrArg rank heq)
  obtain ⟨heq, heven, heven'⟩ :
      |q - m.toRat| = |q - m'.toRat| ∧ m.rank % 2 = 0 ∧ m'.rank % 2 = 0 := by
    rcases h m' hne.symm with hnear | ⟨heq, heven⟩ <;> rcases h' m hne with hnear' | ⟨heq', heven'⟩
    · exact absurd hnear' hnear.not_gt
    · exact absurd heq' hnear.ne'
    · exact absurd heq hnear'.ne'
    · exact ⟨heq, heven, heven'⟩
  rw [abs_sub_eq_iff hvalue] at heq
  obtain ⟨between, hbetween⟩ : ∃ b : Magnitude, b.rank = m.rank + 1 :=
    ⟨⟨m.rank + 1, hlt.trans_le m'.rank_le⟩, rfl⟩
  have hleft : m.toRat < between.toRat := toRat_lt_toRat (by omega)
  have hright : between.toRat < m'.toRat := toRat_lt_toRat (by omega)
  have hne' : between ≠ m := by
    rintro rfl
    omega
  have hnear := h between hne'
  rw [abs_sub_lt_left_iff hleft, abs_sub_eq_iff hleft] at hnear
  rcases hnear with hlt' | ⟨heq', -⟩
  · linarith
  · linarith

/-- Only one magnitude is the nearest. -/
theorem IsNearest.unique {m m' : Magnitude} {q : ℚ} (h : m.IsNearest q) (h' : m'.IsNearest q) :
    m = m' :=
  Magnitude.ext (Nat.le_antisymm (Nat.not_lt.1 (h'.not_lt h)) (Nat.not_lt.1 (h.not_lt h')))

theorem ofDecimal_isNearest (digits places : Nat) :
    (ofDecimal digits places).IsNearest (digits / 10 ^ places) := by
  have hden : 0 < 10 ^ places := Nat.pow_pos (by decide)
  have h := nearest_isNearest (digits * 2 ^ fineness) hden
  have hq : ((digits * 2 ^ fineness : Nat) / (10 ^ places : Nat) / 2 ^ fineness : ℚ) =
      digits / 10 ^ places := by
    push_cast
    field_simp
  rwa [hq] at h

end Magnitude

theorem Single.ofInt_isNearest (n : Int) :
    ∃ m : Magnitude, Single.ofInt n = .signed (n < 0) m ∧ m.IsNearest |n| := by
  refine ⟨_, rfl, ?_⟩
  have h := Magnitude.nearest_isNearest (n.natAbs * 2 ^ Magnitude.fineness) Nat.one_pos
  have hq : ((n.natAbs * 2 ^ Magnitude.fineness : Nat) / (1 : Nat) / 2 ^ Magnitude.fineness : ℚ) =
      |(n : ℚ)| := by
    push_cast
    field_simp
    rw [Nat.cast_natAbs, Int.cast_abs]
  rwa [hq] at h

end Pseudocode

/-
The text of a number is read as that number.

An INT is written as its digits, and a FLOAT as digits with a point between them, or with
`.0` behind them when there is none.  Either way the text is a numeral, and what the
numeral stands for is the number it was made from.

For a FLOAT this rests on the search for its digits, which tried them by reading them
back.  It did so on the grid of the smallest decimal step, while the text has as many
places as its grid needs; that the two readings agree is that rounding a quotient does not
depend on a common factor of both parts.
-/
import Mathlib.Data.List.TakeWhile
import Pseudocode.Numeral
import Pseudocode.Program.Render
import Pseudocode.Text.Number
import Pseudocode.Text.Numeric

namespace Pseudocode

/-! ### Numerals made of digits -/

/-- Digits only. -/
def AllDigits (cs : List Char) : Prop :=
  ∀ c ∈ cs, c.isDigit = true

theorem allDigits_toDigits (n : Nat) : AllDigits (Nat.toDigits 10 n) :=
  fun _ hc => Nat.isDigit_of_mem_toDigits (by decide) (by decide) hc

namespace Numeral

theorem read_digits {cs : List Char} (h : AllDigits cs) (hne : cs ≠ []) :
    read cs = .whole (ofDigits cs) := by
  have hdrop : cs.dropWhile Char.isDigit = [] := List.dropWhile_eq_nil_iff.2 h
  have htake : cs.takeWhile Char.isDigit = cs := List.takeWhile_eq_self_iff.2 h
  simp [read, hdrop, htake, hne]

theorem read_decimal {before after : List Char} (hb : AllDigits before) (ha : AllDigits after)
    (hne : after ≠ []) :
    read (before ++ '.' :: after) = .decimal (ofDigits (before ++ after)) after.length := by
  have htake : (before ++ '.' :: after).takeWhile Char.isDigit = before := by
    rw [List.takeWhile_append_of_pos hb, List.takeWhile_cons_of_neg (by decide), List.append_nil]
  have hdrop : (before ++ '.' :: after).dropWhile Char.isDigit = '.' :: after := by
    rw [List.dropWhile_append_of_pos hb, List.dropWhile_cons_of_neg (by decide)]
  have hall : after.all Char.isDigit = true := List.all_eq_true.2 ha
  simp [read, htake, hdrop, hall, hne]

/-- Digits, a point and digits, of which those before the point may be missing. -/
def IsFraction (cs : List Char) : Prop :=
  ∃ before after, cs = before ++ '.' :: after ∧ AllDigits before ∧ AllDigits after ∧ after ≠ []

/-- What characters are read as. -/
inductive Reads : List Char → Numeral → Prop
  | whole {cs : List Char} (h : AllDigits cs) (hne : cs ≠ []) : Reads cs (.whole (ofDigits cs))
  | decimal {before after : List Char} (hb : AllDigits before) (ha : AllDigits after)
      (hne : after ≠ []) :
      Reads (before ++ '.' :: after) (.decimal (ofDigits (before ++ after)) after.length)
  | malformed {cs : List Char} (hwhole : AllDigits cs → cs = []) (hfraction : ¬ IsFraction cs) :
      Reads cs .malformed

/-- **How characters are read.** -/
theorem reads_read (cs : List Char) : Reads cs (read cs) := by
  by_cases hwhole : AllDigits cs ∧ cs ≠ []
  · rw [read_digits hwhole.1 hwhole.2]
    exact .whole hwhole.1 hwhole.2
  by_cases hfraction : IsFraction cs
  · obtain ⟨before, after, rfl, hb, ha, hne⟩ := hfraction
    rw [read_decimal hb ha hne]
    exact .decimal hb ha hne
  have hmalformed : read cs = .malformed := by
    have hbefore : AllDigits (cs.takeWhile Char.isDigit) :=
      fun c hc => List.all_eq_true.1 List.all_takeWhile c hc
    have hsplit := List.takeWhile_append_dropWhile (p := Char.isDigit) (l := cs)
    simp only [read]
    split
    · rename_i hdrop
      rw [hdrop, List.append_nil] at hsplit
      rw [hsplit] at hbefore ⊢
      have hnil : cs = [] := by_contra fun hne => hwhole ⟨hbefore, hne⟩
      rw [hnil]
      rfl
    · rename_i after hdrop
      rw [hdrop] at hsplit
      refine if_pos (by_contra fun hafter => hfraction ⟨_, after, hsplit.symm, hbefore, ?_⟩)
      simp only [Bool.or_eq_true, Bool.not_eq_true', not_or, Bool.not_eq_false,
        List.all_eq_true] at hafter
      exact ⟨hafter.2, by simpa using hafter.1⟩
    · rfl
  rw [hmalformed]
  exact .malformed (fun h => by_contra fun hne => hwhole ⟨h, hne⟩) hfraction

/-- What is read as a number is made of digits and points. -/
theorem numeralChars_of_read {cs : List Char} (h : read cs ≠ .malformed) :
    cs ≠ [] ∧ ∀ c ∈ cs, isNumeralChar c = true := by
  have hdigits : ∀ {ds : List Char}, AllDigits ds → ∀ c ∈ ds, isNumeralChar c = true := by
    intro ds hds c hc
    simp [isNumeralChar, hds c hc]
  have hread := reads_read cs
  generalize read cs = n at h hread
  cases hread with
  | whole hcs hne => exact ⟨hne, hdigits hcs⟩
  | decimal hb ha hne =>
      refine ⟨by simp, List.forall_mem_append.2 ⟨hdigits hb, ?_⟩⟩
      exact List.forall_mem_cons.2 ⟨by decide, hdigits ha⟩
  | malformed => exact absurd rfl h

/-- Without a point, characters of numerals are digits. -/
theorem mem_point_of_not_digits {cs : List Char} (hne : cs ≠ [])
    (hall : ∀ c ∈ cs, isNumeralChar c = true) (hwhole : AllDigits cs → cs = []) : '.' ∈ cs := by
  by_contra hpoint
  refine hne (hwhole fun c hc => ?_)
  have hc' : c ≠ '.' := fun heq => hpoint (heq ▸ hc)
  simpa [isNumeralChar, hc'] using hall c hc

theorem ofDigits_toDigits (n : Nat) : ofDigits (Nat.toDigits 10 n) = n :=
  Nat.ofDigitChars_ten_toDigits

/-- Zeros in front of digits count for nothing. -/
theorem ofDigits_zeros (k : Nat) (cs : List Char) :
    ofDigits (List.replicate k '0' ++ cs) = ofDigits cs := by
  rw [ofDigits, Nat.ofDigitChars_append, Nat.ofDigitChars_replicate_zero, Nat.mul_zero, ofDigits]

/-- A zero behind digits makes ten times as much. -/
theorem ofDigits_zero_behind (cs : List Char) : ofDigits (cs ++ ['0']) = 10 * ofDigits cs := by
  rw [ofDigits, Nat.ofDigitChars_append, Nat.ofDigitChars_cons, Nat.ofDigitChars_nil]
  rfl

end Numeral

/-! ### Numbers with a sign -/

namespace Text

theorem isDecimal_of_isDigit {c : Char} (h : c.isDigit = true) : isDecimal c = true := by
  have hlt : c.toNat < 0x80 := by
    simp only [Char.isDigit, Bool.and_eq_true, decide_eq_true_eq, UInt32.le_iff_toNat_le] at h
    exact Nat.lt_of_le_of_lt h.2 (by decide)
  rw [isDecimal, if_pos hlt, h]

/-- Decimal digits of any script and points. -/
def Plain (cs : List Char) : Prop :=
  ∀ c ∈ cs, isDecimal c = true ∨ c = '.'

theorem Plain.of_numeralChars {cs : List Char} (h : ∀ c ∈ cs, Numeral.isNumeralChar c = true) :
    Plain cs := by
  intro c hc
  have hor : c.isDigit = true ∨ c = '.' := by simpa [Numeral.isNumeralChar] using h c hc
  exact hor.imp_left isDecimal_of_isDigit

theorem Plain.not_mem {cs : List Char} (h : Plain cs) {c : Char} (hdecimal : isDecimal c = false)
    (hpoint : c ≠ '.') : c ∉ cs := by
  intro hc
  rcases h c hc with h | h
  · rw [hdecimal] at h
    cases h
  · exact hpoint h

theorem Plain.of_allDigits {cs : List Char} (h : AllDigits cs) : Plain cs :=
  fun c hc => Or.inl (isDecimal_of_isDigit (h c hc))

/-- The text is the given one with or without a sign in front. -/
inductive HasSign : List Char → Bool → List Char → Prop
  | none (cs : List Char) : HasSign cs false cs
  | plus (cs : List Char) : HasSign ('+' :: cs) false cs
  | minus (cs : List Char) : HasSign ('-' :: cs) true cs

theorem hasSign_splitSign (cs : List Char) : HasSign cs (splitSign cs).1 (splitSign cs).2 := by
  unfold splitSign
  split
  · exact .minus _
  · exact .plus _
  · exact .none _

/-- A sign in front of digits and points is split off. -/
theorem HasSign.splitSign {text cs : List Char} {negative : Bool} (h : HasSign text negative cs)
    (hcs : Plain cs) : splitSign text = (negative, cs) := by
  cases h with
  | plus => rfl
  | minus => rfl
  | none =>
      unfold Text.splitSign
      split
      · exact absurd List.mem_cons_self (hcs.not_mem (c := '-') (by decide) (by decide))
      · exact absurd List.mem_cons_self (hcs.not_mem (c := '+') (by decide) (by decide))
      · rfl

/-! ### Whole numbers -/

theorem digits?_eq_some_iff {cs : List Char} {n : Nat} :
    digits? cs = some n ↔ AllDigits cs ∧ cs ≠ [] ∧ n = Numeral.ofDigits cs := by
  unfold digits?
  split
  · rename_i h
    simp only [reduceCtorEq, false_iff]
    rintro ⟨hall, hne, -⟩
    simp [hne, List.all_eq_true.2 hall] at h
  · rename_i h
    simp only [Bool.or_eq_true, Bool.not_eq_true', not_or, Bool.not_eq_false,
      List.isEmpty_iff, List.all_eq_true] at h
    simp only [Option.some.injEq]
    exact ⟨fun hn => ⟨h.2, h.1, hn.symm⟩, fun hn => hn.2.2.symm⟩

/-- What is read as a whole number is an optional sign and digits. -/
theorem signed?_eq_some_iff {cs : List Char} {z : Int} :
    signed? cs = some z ↔
      ∃ negative digits, HasSign cs negative digits ∧ AllDigits digits ∧ digits ≠ [] ∧
        z = if negative then -(Numeral.ofDigits digits : Int) else Numeral.ofDigits digits := by
  simp only [signed?, Option.map_eq_some_iff, digits?_eq_some_iff]
  constructor
  · rintro ⟨n, ⟨hall, hne, rfl⟩, rfl⟩
    exact ⟨_, _, hasSign_splitSign cs, hall, hne, rfl⟩
  · rintro ⟨negative, digits, hsign, hall, hne, rfl⟩
    rw [hsign.splitSign (.of_allDigits hall)]
    exact ⟨_, ⟨hall, hne, rfl⟩, rfl⟩

theorem int32?_eq_some_iff {cs : List Char} {n : Int32} :
    int32? cs = some n ↔
      ∃ z, signed? cs = some z ∧ -2 ^ 31 ≤ z ∧ z ≤ 2 ^ 31 - 1 ∧ n = Int32.ofInt z := by
  simp only [int32?, Option.bind_eq_bind, Option.bind_eq_some_iff, Option.ite_none_right_eq_some,
    Option.some.injEq]
  exact exists_congr fun z => and_congr_right fun _ => by rw [and_assoc, eq_comm (a := n)]; rfl

/-- Digits alone, as an INT. -/
theorem int32?_of_allDigits {cs : List Char} (h : AllDigits cs) (hne : cs ≠ []) :
    int32? cs = if Numeral.ofDigits cs < 2 ^ 31 then some (Int32.ofNat (Numeral.ofDigits cs))
      else none := by
  have hsigned : signed? cs = some (Numeral.ofDigits cs : Int) :=
    signed?_eq_some_iff.2 ⟨false, cs, .none cs, h, hne, rfl⟩
  have hmin : Int32.minValue.toInt = -2147483648 := rfl
  have hmax : Int32.maxValue.toInt = 2147483647 := rfl
  simp only [int32?, hsigned, Option.bind_eq_bind, Option.bind_some, Int32.ofInt_eq_ofNat]
  exact if_congr (by omega) rfl rfl

/-! ### Fractions -/

theorem getLast?_fraction {before after : List Char} (hne : after ≠ []) :
    (before ++ '.' :: after).getLast? = after.getLast? := by
  rw [List.getLast?_append, List.getLast?_cons, List.getLast?_eq_some_getLast hne]
  rfl

theorem mantissa?_of_fraction {before after : List Char} (hb : AllDigits before)
    (ha : AllDigits after) (hne : after ≠ []) :
    mantissa? (before ++ '.' :: after) =
      some (Numeral.ofDigits (before ++ after), after.length) := by
  have htake : (before ++ '.' :: after).takeWhile Char.isDigit = before := by
    rw [List.takeWhile_append_of_pos hb, List.takeWhile_cons_of_neg (by decide), List.append_nil]
  have hdrop : (before ++ '.' :: after).dropWhile Char.isDigit = '.' :: after := by
    rw [List.dropWhile_append_of_pos hb, List.dropWhile_cons_of_neg (by decide)]
  have hall : after.all Char.isDigit = true := List.all_eq_true.2 ha
  have hdigits : digits? (before ++ after) = some (Numeral.ofDigits (before ++ after)) :=
    digits?_eq_some_iff.2 ⟨List.forall_mem_append.2 ⟨hb, ha⟩, by simp [hne], rfl⟩
  simp only [mantissa?, htake, hdrop, hall, if_true, hdigits, Option.map_some]

/-- Digits with a point, which is not the last character, are a fraction. -/
theorem isFraction_of_mantissa? {cs : List Char} {r : Nat × Nat} (h : mantissa? cs = some r)
    (hpoint : '.' ∈ cs) (hlast : cs.getLast? ≠ some '.') : Numeral.IsFraction cs := by
  have hbefore : AllDigits (cs.takeWhile Char.isDigit) :=
    fun c hc => List.all_eq_true.1 List.all_takeWhile c hc
  have hsplit := List.takeWhile_append_dropWhile (p := Char.isDigit) (l := cs)
  simp only [mantissa?] at h
  split at h
  · rename_i hdrop
    rw [hdrop, List.append_nil] at hsplit
    rw [hsplit] at hbefore
    exact absurd (hbefore '.' hpoint) (by decide)
  · rename_i after hdrop
    rw [hdrop] at hsplit
    rw [Option.ite_none_right_eq_some] at h
    refine ⟨_, after, hsplit.symm, hbefore, List.all_eq_true.1 h.1, ?_⟩
    rintro rfl
    exact hlast (by rw [← hsplit, List.getLast?_append]; rfl)
  · cases h

/-- Digits and points are no capital letters. -/
theorem map_toLower_of_plain {cs : List Char} (h : Plain cs) : cs.map Char.toLower = cs := by
  refine (List.map_congr_left fun c hc => dif_neg ?_).trans (List.map_id cs)
  rintro ⟨hlo, hhi⟩
  have hlo : 65 ≤ c.toNat := UInt32.le_iff_toNat_le.1 hlo
  have hhi : c.toNat ≤ 90 := UInt32.le_iff_toNat_le.1 hhi
  rcases h c hc with h | rfl
  · rw [isDecimal, if_pos (by omega)] at h
    simp only [Char.isDigit, Bool.and_eq_true, decide_eq_true_eq] at h
    have hdigit : c.toNat ≤ 57 := UInt32.le_iff_toNat_le.1 h.2
    omega
  · exact absurd hlo (by decide)

/-- Digits and points with or without a sign, as a FLOAT: they are no name, and there is no
exponent among them. -/
theorem single?_of_plain {text cs : List Char} {negative : Bool} (h : HasSign text negative cs)
    (hcs : Plain cs) :
    single? text = (mantissa? cs).map fun r => .ofDecimal negative r.1 r.2 := by
  have hno : ∀ name : String, 'n' ∈ name.toList → String.ofList cs ≠ name := by
    rintro name hn rfl
    rw [String.toList_ofList] at hn
    exact hcs.not_mem (by decide) (by decide) hn
  have hmarks : ∀ c ∈ cs, (!isExponentMark c) = true := by
    intro c hc
    have hsmall : c ≠ 'e' := fun heq => hcs.not_mem (by decide) (by decide) (heq ▸ hc)
    have hlarge : c ≠ 'E' := fun heq => hcs.not_mem (by decide) (by decide) (heq ▸ hc)
    simp [isExponentMark, hsmall, hlarge]
  simp only [single?, h.splitSign hcs, map_toLower_of_plain hcs,
    List.takeWhile_eq_self_iff.2 hmarks, List.dropWhile_eq_nil_iff.2 hmarks,
    hno "inf" (by decide), hno "infinity" (by decide), hno "nan" (by decide)]
  cases mantissa? cs with
  | none => rfl
  | some r => simp [exponent?]

theorem single?_of_fraction {text before after : List Char} {negative : Bool}
    (h : HasSign text negative (before ++ '.' :: after)) (hb : AllDigits before)
    (ha : AllDigits after) (hne : after ≠ []) :
    single? text =
      some (.ofDecimal negative (Numeral.ofDigits (before ++ after)) after.length) := by
  have hplain : Plain (before ++ '.' :: after) :=
    List.forall_mem_append.2 ⟨Plain.of_allDigits hb,
      List.forall_mem_cons.2 ⟨Or.inr rfl, Plain.of_allDigits ha⟩⟩
  rw [single?_of_plain h hplain, mantissa?_of_fraction hb ha hne, Option.map_some]

end Text

/-! ### Rounding does not see a common factor -/

namespace Magnitude

theorem roundDiv_mul_right (a b : Nat) {c : Nat} (hc : 0 < c) :
    roundDiv (a * c) (b * c) = roundDiv a b := by
  have hdiv : a * c / (b * c) = a / b := Nat.mul_div_mul_right a b hc
  have hmod : a * c % (b * c) = a % b * c := Nat.mul_mod_mul_right c a b
  have htwice : 2 * (a % b * c) = 2 * (a % b) * c := (Nat.mul_assoc ..).symm
  simp only [roundDiv, hdiv, hmod, htwice, Nat.mul_lt_mul_right hc]

theorem nearest_mul_right (a b : Nat) {c : Nat} (hc : 0 < c) :
    nearest (a * c) (b * c) = nearest a b := by
  have hrank : nearestRank (a * c) (b * c) = nearestRank a b := by
    have hscale : ∀ h, b * c * 2 ^ h = b * 2 ^ h * c := fun h => Nat.mul_right_comm b c (2 ^ h)
    simp only [nearestRank, Nat.mul_div_mul_right a b hc, hscale, roundDiv_mul_right _ _ hc]
  apply Magnitude.ext
  rw [rank_nearest, rank_nearest, hrank]

/-- More places, with as many zeros behind, change nothing. -/
theorem ofDecimal_mul_pow (digits places k : Nat) :
    ofDecimal (digits * 10 ^ k) (places + k) = ofDecimal digits places := by
  unfold ofDecimal
  rw [Nat.mul_right_comm, Nat.pow_add]
  exact nearest_mul_right _ _ (Nat.pow_pos (by decide))

/-! ### The text of a magnitude -/

/-- A text with a point is as it is; any other one gets a point and a zero. -/
def pointed (cs : List Char) : List Char :=
  if '.' ∈ cs then cs else cs ++ ['.', '0']

theorem not_mem_of_allDigits {cs : List Char} (h : AllDigits cs) : '.' ∉ cs :=
  fun hmem => absurd (h '.' hmem) (by decide)

/-- Digits written with a point and a zero behind. -/
theorem read_pointed_whole {cs : List Char} (h : AllDigits cs) :
    Numeral.read (pointed cs) = .decimal (10 * Numeral.ofDigits cs) 1 := by
  have hzero : AllDigits ['0'] := by simp [AllDigits]
  rw [pointed, if_neg (not_mem_of_allDigits h), Numeral.read_decimal h hzero (by simp),
    Numeral.ofDigits_zero_behind]
  rfl

/-- The digits of `digits * 10^-places`, split where the point stands. -/
theorem positional_split (digits places : Nat) (hp : places ≠ 0) :
    ∃ before after, positional digits places = before ++ '.' :: after ∧ AllDigits before ∧
      AllDigits after ∧ after.length = places ∧
      Numeral.ofDigits (before ++ after) = digits := by
  let padded := List.replicate (places + 1 - (Nat.toDigits 10 digits).length) '0' ++
    Nat.toDigits 10 digits
  have hlen : places + 1 ≤ padded.length := by
    simp only [padded, List.length_append, List.length_replicate]
    omega
  have hall : AllDigits padded := by
    intro c hc
    rcases List.mem_append.1 hc with h | h
    · rw [(List.mem_replicate.1 h).2]
      decide
    · exact allDigits_toDigits digits c h
  refine ⟨padded.take (padded.length - places), padded.drop (padded.length - places), ?_,
    fun c hc => hall c (List.mem_of_mem_take hc), fun c hc => hall c (List.mem_of_mem_drop hc),
    ?_, ?_⟩
  · simp only [positional, if_neg hp]
    rfl
  · rw [List.length_drop]
    omega
  · rw [List.take_append_drop, Numeral.ofDigits_zeros, Numeral.ofDigits_toDigits]

theorem positional_zero (digits : Nat) : positional digits 0 = Nat.toDigits 10 digits := by
  have hlen : 0 < (Nat.toDigits 10 digits).length :=
    List.length_pos_iff.2 Nat.toDigits_ne_nil
  have hpad : 0 + 1 - (Nat.toDigits 10 digits).length = 0 := by omega
  simp [positional, hpad]

theorem ofDecimal_zero : ofDecimal 0 1 = zero := by
  have hsteps : zero.steps = 0 := steps_of_lt (by decide)
  have := nearest_steps zero (d := 10) (by decide)
  rw [hsteps, Nat.zero_mul] at this
  rw [ofDecimal, Nat.zero_mul, Nat.pow_one, this]

/-- **The text of a finite magnitude is read as that magnitude.** -/
theorem read_text {m : Magnitude} (hm : m ≠ .infinite) :
    ∃ digits places, Numeral.read (pointed m.text) = .decimal digits places ∧
      ofDecimal digits places = m := by
  unfold text
  by_cases hzero : m = .zero
  · rw [if_pos hzero, read_pointed_whole (by simp [AllDigits])]
    exact ⟨_, 1, rfl, hzero ▸ ofDecimal_zero⟩
  · rw [if_neg hzero, if_neg hm]
    have hback : ofDecimal (m.shortest.1 * 10 ^ m.shortest.2) fineness = m := by
      simpa [readsBack] using m.readsBack_shortest
    generalize m.shortest = found at hback
    obtain ⟨digits, k⟩ := found
    dsimp only at hback ⊢
    by_cases hk : k < fineness
    · -- The point stands `fineness - k` places from the end.
      rw [if_pos hk]
      obtain ⟨before, after, hpos, hb, ha, hlen, hval⟩ :=
        positional_split digits (fineness - k) (by omega)
      have hne : after ≠ [] := by
        intro hnil
        rw [hnil, List.length_nil] at hlen
        omega
      refine ⟨digits, fineness - k, ?_, ?_⟩
      · rw [hpos, pointed, if_pos (by simp), Numeral.read_decimal hb ha hne, hval, hlen]
      · rw [← ofDecimal_mul_pow digits (fineness - k) k, Nat.sub_add_cancel (Nat.le_of_lt hk)]
        exact hback
    · -- There is no fraction, and the text gets one.
      rw [if_neg hk, positional_zero, read_pointed_whole (allDigits_toDigits _),
        Numeral.ofDigits_toDigits]
      refine ⟨_, 1, rfl, ?_⟩
      have hsplit : digits * 10 ^ k = digits * 10 ^ (k - fineness) * 10 ^ fineness := by
        rw [Nat.mul_assoc, ← Nat.pow_add, Nat.sub_add_cancel (by omega)]
      rw [hsplit] at hback
      have hwhole := ofDecimal_mul_pow (digits * 10 ^ (k - fineness)) 0 fineness
      have htenth := ofDecimal_mul_pow (digits * 10 ^ (k - fineness)) 0 1
      rw [Nat.zero_add] at hwhole htenth
      rw [Nat.mul_comm 10, ← Nat.pow_one 10, htenth, ← hwhole]
      exact hback

end Magnitude

/-! ### The literals of numbers -/

namespace Value

theorem toList_literalText_float (m : Magnitude) :
    (literalText (.float (.signed false m))).toList = Magnitude.pointed m.text := by
  have htext : (Single.signed false m).text = String.ofList m.text := by simp [Single.text]
  simp only [literalText, Magnitude.pointed, htext, String.contains_char_eq, String.toList_ofList,
    decide_eq_true_eq]
  by_cases h : '.' ∈ m.text
  · simp [h]
  · simp [h]

/-- The digits of an INT are read as that INT. -/
theorem read_intText {n : Int} (hn : 0 ≤ n) : Numeral.read (intText n).toList = .whole n.toNat := by
  have htext : (intText n).toList = Nat.toDigits 10 n.natAbs := by
    simp [intText, Int.not_lt.2 hn]
  rw [htext, Numeral.read_digits (allDigits_toDigits _) Nat.toDigits_ne_nil,
    Numeral.ofDigits_toDigits]
  congr 1
  omega

end Value

end Pseudocode

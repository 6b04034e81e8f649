/-
What the fields of a SCAN stand for.

A field is judged twice.  By its form it becomes a value of some type, text if it has no other
form, and then this value has to fit the variable.  Put together, the two say for each type
which fields are taken: those of one small language, which is given here with the value of
each of its texts and without going through the forms of the other types.

The form of a number lets more texts pass than can be read as one: the digits of all scripts,
and numbers out of range.  All of these are text, since no later form is tried for them.

A FLOAT variable takes two kinds of fields.  A whole number is an INT first, so it has to be
in the range of INT although a FLOAT could hold it, and a minus in front of zeros leaves no
trace.  A fraction is taken at any length, and it keeps its minus.
-/
import Mathlib.Data.List.Induction
import Mathlib.Data.Nat.Digits.Defs
import Pseudocode.Input.Field
import Pseudocode.Proofs.NumberText
import Pseudocode.Proofs.Rounding

namespace Pseudocode

open Text (HasSign)

/-! ### The languages -/

/-- The number that a sequence of digits stands for, the last one counting least. -/
def decimalValue (digits : List Char) : Nat :=
  Nat.ofDigits 10 (digits.reverse.map fun c => c.toNat - '0'.toNat)

namespace Field

/-- The field is a whole number: an optional sign and one or more digits. -/
def IsWhole (field : List Char) (z : Int) : Prop :=
  ∃ negative digits, HasSign field negative digits ∧ AllDigits digits ∧ digits ≠ [] ∧
    z = if negative then -(decimalValue digits : Int) else decimalValue digits

/-- The field is a fraction: an optional sign, digits or none, a point, and one or more
digits. -/
def IsFraction (field : List Char) (negative : Bool) (q : ℚ) : Prop :=
  ∃ before after, HasSign field negative (before ++ '.' :: after) ∧ AllDigits before ∧
    AllDigits after ∧ after ≠ [] ∧ q = decimalValue (before ++ after) / 10 ^ after.length

/-- For a variable of the given type the field stands for the value. -/
inductive Denotes : Ty → List Char → Value → Prop
  | int {field : List Char} {z : Int} (h : IsWhole field z) (hlo : -2 ^ 31 ≤ z)
      (hhi : z ≤ 2 ^ 31 - 1) : Denotes .int field (.int (Int32.ofInt z))
  | whole {field : List Char} {z : Int} {m : Magnitude} (h : IsWhole field z)
      (hlo : -2 ^ 31 ≤ z) (hhi : z ≤ 2 ^ 31 - 1) (hm : m.IsNearest |z|) :
      Denotes .float field (.float (.signed (z < 0) m))
  | fraction {field : List Char} {negative : Bool} {q : ℚ} {m : Magnitude}
      (h : IsFraction field negative q) (hm : m.IsNearest q) :
      Denotes .float field (.float (.signed negative m))
  | char {c : Char} (hc : c ≠ '\n') : Denotes .char ['\'', c, '\''] (.char c)
  | bool (b : Bool) : Denotes .bool ('"' :: ((Value.boolText b).toList ++ ['"'])) (.bool b)
  /-- A pair of double quotes around the text is dropped. -/
  | quoted (inside : List Char) :
      Denotes .string ('"' :: (inside ++ ['"'])) (.string (String.ofList inside))
  | plain {field : List Char} (h : ∀ inside, field ≠ '"' :: (inside ++ ['"'])) :
      Denotes .string field (.string (String.ofList field))

end Field

/-! ### Numbers -/

theorem Numeral.ofDigits_eq_decimalValue (digits : List Char) :
    ofDigits digits = decimalValue digits := by
  induction digits using List.reverseRecOn with
  | nil => rfl
  | append_singleton digits c ih =>
      rw [ofDigits, Nat.ofDigitChars_append, ← ofDigits, ih, decimalValue, decimalValue,
        List.reverse_append, List.reverse_singleton, List.singleton_append, List.map_cons,
        Nat.ofDigits_cons, Nat.add_comm]
      rfl

namespace Field

theorem isWhole_iff_signed? {field : List Char} {z : Int} :
    IsWhole field z ↔ Text.signed? field = some z := by
  simp only [IsWhole, Text.signed?_eq_some_iff, Numeral.ofDigits_eq_decimalValue]

/-- The fields that are read as an INT. -/
theorem int32?_iff_whole {field : List Char} {n : Int32} :
    Text.int32? field = some n ↔
      ∃ z, IsWhole field z ∧ -2 ^ 31 ≤ z ∧ z ≤ 2 ^ 31 - 1 ∧ n = Int32.ofInt z := by
  simp only [Text.int32?_eq_some_iff, isWhole_iff_signed?]

theorem single?_of_isFraction {field : List Char} {negative : Bool} {q : ℚ}
    (h : IsFraction field negative q) :
    ∃ m : Magnitude, m.IsNearest q ∧ Text.single? field = some (.signed negative m) := by
  obtain ⟨before, after, hsign, hb, ha, hne, rfl⟩ := h
  refine ⟨_, Magnitude.ofDecimal_isNearest _ _, ?_⟩
  rw [Text.single?_of_fraction hsign hb ha hne, Numeral.ofDigits_eq_decimalValue]
  rfl

/-! ### Forms -/

theorem spans_exactly {c : Char} {stretch : List Char} :
    (exactly c).Spans stretch ↔ stretch = [c] := by
  constructor
  · rintro ⟨hall, hlength⟩
    obtain ⟨d, rfl⟩ := List.length_eq_one_iff.1 (of_decide_eq_true hlength)
    rw [of_decide_eq_true (hall d List.mem_cons_self)]
  · rintro rfl
    exact ⟨by simp [exactly], rfl⟩

theorem spans_digits {times : Text.Repeat} {stretch : List Char} :
    (digits times).Spans stretch ↔
      (∀ c ∈ stretch, Text.isDecimal c = true) ∧ times.allows stretch.length = true :=
  Iff.rfl

/-- What a form says of the text behind an optional sign. -/
theorem fits_sign {parts : List Text.Part} {field : List Char} :
    Text.fits (sign :: parts) field = true ↔
      ∃ negative cs, HasSign field negative cs ∧ Text.fits parts cs = true := by
  rw [Text.fits_cons]
  constructor
  · rintro ⟨stretch, rest, rfl, ⟨hall, hlength⟩, hrest⟩
    cases stretch with
    | nil => exact ⟨false, rest, .none rest, hrest⟩
    | cons c stretch =>
        obtain rfl : stretch = [] := by simpa [sign, Text.Repeat.allows] using hlength
        have hc : c = '+' ∨ c = '-' := by simpa [sign] using hall
        rcases hc with rfl | rfl
        · exact ⟨false, rest, .plus rest, hrest⟩
        · exact ⟨true, rest, .minus rest, hrest⟩
  · rintro ⟨negative, cs, hsign, hcs⟩
    cases hsign with
    | none => exact ⟨[], _, rfl, by simp [Text.Part.Spans, sign, Text.Repeat.allows], hcs⟩
    | plus => exact ⟨['+'], _, rfl, by simp [Text.Part.Spans, sign, Text.Repeat.allows], hcs⟩
    | minus => exact ⟨['-'], _, rfl, by simp [Text.Part.Spans, sign, Text.Repeat.allows], hcs⟩

/-- Every whole number has its form. -/
theorem fits_intForm {field : List Char} {z : Int} (h : IsWhole field z) :
    Text.fits intForm field = true := by
  obtain ⟨negative, ds, hsign, hdigits, hne, -⟩ := h
  refine fits_sign.2 ⟨negative, ds, hsign, Text.fits_cons.2 ⟨ds, [], by simp, ?_, rfl⟩⟩
  refine spans_digits.2 ⟨fun c hc => Text.isDecimal_of_isDigit (hdigits c hc), ?_⟩
  exact decide_eq_true (List.length_pos_iff.2 hne)

/-- The form of a fraction: what stands around its point are digits of any script. -/
theorem fits_floatForm_iff {field : List Char} :
    Text.fits floatForm field = true ↔
      ∃ negative before after, HasSign field negative (before ++ '.' :: after) ∧
        (∀ c ∈ before, Text.isDecimal c = true) ∧ (∀ c ∈ after, Text.isDecimal c = true) ∧
        after ≠ [] := by
  rw [floatForm, fits_sign]
  constructor
  · rintro ⟨negative, cs, hsign, hcs⟩
    obtain ⟨before, pointed, rfl, hbefore, hpointed⟩ := Text.fits_cons.1 hcs
    obtain ⟨point, behind, rfl, hpoint, hbehind⟩ := Text.fits_cons.1 hpointed
    obtain ⟨after, rest, rfl, hafter, hrest⟩ := Text.fits_cons.1 hbehind
    rw [spans_exactly.1 hpoint, Text.fits_nil.1 hrest, List.append_nil] at hsign
    refine ⟨negative, before, after, hsign, hbefore.1, hafter.1, ?_⟩
    exact List.length_pos_iff.1 (of_decide_eq_true hafter.2)
  · rintro ⟨negative, before, after, hsign, hbefore, hafter, hne⟩
    refine ⟨negative, _, hsign, Text.fits_cons.2 ⟨before, _, rfl, ⟨hbefore, rfl⟩, ?_⟩⟩
    refine Text.fits_cons.2 ⟨['.'], after, rfl, spans_exactly.2 rfl, ?_⟩
    refine Text.fits_cons.2 ⟨after, [], by simp, ⟨hafter, ?_⟩, rfl⟩
    exact decide_eq_true (List.length_pos_iff.2 hne)

theorem fits_charForm_iff {field : List Char} :
    Text.fits charForm field = true ↔ ∃ c, c ≠ '\n' ∧ field = ['\'', c, '\''] := by
  constructor
  · intro h
    obtain ⟨opening, quoted, rfl, hopening, hquoted⟩ := Text.fits_cons.1 h
    obtain ⟨inside, behind, rfl, ⟨hinside, hlength⟩, hbehind⟩ := Text.fits_cons.1 hquoted
    obtain ⟨closing, rest, rfl, hclosing, hrest⟩ := Text.fits_cons.1 hbehind
    obtain ⟨c, rfl⟩ := List.length_eq_one_iff.1 (of_decide_eq_true hlength)
    rw [spans_exactly.1 hopening, spans_exactly.1 hclosing, Text.fits_nil.1 hrest]
    exact ⟨c, of_decide_eq_true (hinside c List.mem_cons_self), rfl⟩
  · rintro ⟨c, hc, rfl⟩
    refine Text.fits_cons.2 ⟨['\''], _, rfl, spans_exactly.2 rfl, ?_⟩
    refine Text.fits_cons.2 ⟨[c], _, rfl, ⟨by simpa using hc, rfl⟩, ?_⟩
    exact Text.fits_cons.2 ⟨['\''], [], rfl, spans_exactly.2 rfl, rfl⟩

/-- A text with a character that no part of a form accepts does not have the form. -/
theorem not_fits_of_mem {parts : List Text.Part} {field : List Char} {c : Char} (hc : c ∈ field)
    (hparts : ∀ part ∈ parts, part.accepts c = false) : ¬ Text.fits parts field = true := by
  intro h
  obtain ⟨part, hpart, haccepts⟩ := Text.accepts_of_fits h hc
  rw [hparts part hpart] at haccepts
  cases haccepts

theorem mem_of_hasSign {field cs : List Char} {negative : Bool} (h : HasSign field negative cs)
    {c : Char} (hc : c ∈ cs) : c ∈ field := by
  cases h with
  | none => exact hc
  | plus => exact List.mem_cons_of_mem _ hc
  | minus => exact List.mem_cons_of_mem _ hc

theorem not_fits_intForm_of_point {field : List Char} (h : '.' ∈ field) :
    ¬ Text.fits intForm field = true :=
  not_fits_of_mem h (by simp [intForm, sign, digits]; decide)

/-! ### Values by form -/

/-- A whole number that is out of range is text. -/
theorem byForm_of_whole {field : List Char} {z : Int} (h : IsWhole field z) :
    byForm field = if -2 ^ 31 ≤ z ∧ z ≤ 2 ^ 31 - 1 then .int (Int32.ofInt z)
      else .string (String.ofList field) := by
  rw [byForm, if_pos (fits_intForm h)]
  by_cases hrange : -2 ^ 31 ≤ z ∧ z ≤ 2 ^ 31 - 1
  · rw [if_pos hrange, int32?_iff_whole.2 ⟨z, h, hrange.1, hrange.2, rfl⟩]
    rfl
  · have hnone : Text.int32? field = none := by
      refine Option.eq_none_iff_forall_ne_some.2 fun n hn => hrange ?_
      obtain ⟨z', hz', hlo, hhi, -⟩ := int32?_iff_whole.1 hn
      obtain rfl := Option.some.inj ((isWhole_iff_signed?.1 h).symm.trans (isWhole_iff_signed?.1 hz'))
      exact ⟨hlo, hhi⟩
    rw [if_neg hrange, hnone]
    rfl

theorem byForm_of_fraction {field : List Char} {before after : List Char} {negative : Bool}
    (hsign : HasSign field negative (before ++ '.' :: after)) (hb : AllDigits before)
    (ha : AllDigits after) (hne : after ≠ []) :
    byForm field =
      .float (.ofDecimal negative (Numeral.ofDigits (before ++ after)) after.length) := by
  have hfits : Text.fits floatForm field = true :=
    fits_floatForm_iff.2 ⟨negative, before, after, hsign,
      fun c hc => Text.isDecimal_of_isDigit (hb c hc),
      fun c hc => Text.isDecimal_of_isDigit (ha c hc), hne⟩
  rw [byForm, if_neg (not_fits_intForm_of_point (mem_of_hasSign hsign (by simp))), if_pos hfits,
    Text.single?_of_fraction hsign hb ha hne]
  rfl

theorem byForm_char {c : Char} (hc : c ≠ '\n') : byForm ['\'', c, '\''] = .char c := by
  have hint : ¬ Text.fits intForm ['\'', c, '\''] = true :=
    not_fits_of_mem List.mem_cons_self (by simp [intForm, sign, digits]; decide)
  have hfloat : ¬ Text.fits floatForm ['\'', c, '\''] = true :=
    not_fits_of_mem List.mem_cons_self (by simp [floatForm, sign, digits, exactly]; decide)
  rw [byForm, if_neg hint, if_neg hfloat, if_pos (fits_charForm_iff.2 ⟨c, hc, rfl⟩)]
  rfl

theorem byForm_bool (b : Bool) :
    byForm ('"' :: ((Value.boolText b).toList ++ ['"'])) = .bool b := by
  cases b <;> decide

/-- A fraction that can be read has the digits of ASCII only. -/
theorem isFraction_of_single? {field : List Char} {x : Single}
    (hfits : Text.fits floatForm field = true) (h : Text.single? field = some x) :
    ∃ negative q m, IsFraction field negative q ∧ Magnitude.IsNearest m q ∧
      x = .signed negative m := by
  obtain ⟨negative, before, after, hsign, hbefore, hafter, hne⟩ := fits_floatForm_iff.1 hfits
  have hplain : Text.Plain (before ++ '.' :: after) :=
    List.forall_mem_append.2 ⟨fun c hc => Or.inl (hbefore c hc),
      List.forall_mem_cons.2 ⟨Or.inr rfl, fun c hc => Or.inl (hafter c hc)⟩⟩
  have hmantissa := h
  rw [Text.single?_of_plain hsign hplain, Option.map_eq_some_iff] at hmantissa
  obtain ⟨r, hr, -⟩ := hmantissa
  have hlast : (before ++ '.' :: after).getLast? ≠ some '.' := by
    intro hlast
    rw [Text.getLast?_fraction hne] at hlast
    exact absurd (hafter '.' (List.mem_of_getLast? hlast)) (by decide)
  obtain ⟨b, a, hsplit, hb, ha, hne'⟩ := Text.isFraction_of_mantissa? hr (by simp) hlast
  rw [hsplit] at hsign
  have hfraction : IsFraction field negative _ := ⟨b, a, hsign, hb, ha, hne', rfl⟩
  obtain ⟨m, hm, hx⟩ := single?_of_isFraction hfraction
  exact ⟨negative, _, m, hfraction, hm, Option.some.inj (h.symm.trans hx)⟩

/-- **What a field can be by its form**, with the fields that are so; all others are text. -/
theorem byForm_cases (field : List Char) :
    (∃ z, IsWhole field z ∧ -2 ^ 31 ≤ z ∧ z ≤ 2 ^ 31 - 1 ∧ byForm field = .int (Int32.ofInt z)) ∨
      (∃ negative q m, IsFraction field negative q ∧ Magnitude.IsNearest m q ∧
        byForm field = .float (.signed negative m)) ∨
      (∃ c, c ≠ '\n' ∧ field = ['\'', c, '\''] ∧ byForm field = .char c) ∨
      (∃ b, field = '"' :: ((Value.boolText b).toList ++ ['"']) ∧ byForm field = .bool b) ∨
      byForm field = .string (String.ofList field) := by
  unfold byForm
  dsimp only
  split
  · cases hint : Text.int32? field with
    | none => simp
    | some n =>
        obtain ⟨z, hz, hlo, hhi, rfl⟩ := int32?_iff_whole.1 hint
        exact Or.inl ⟨z, hz, hlo, hhi, rfl⟩
  split
  · rename_i hfits
    cases hsingle : Text.single? field with
    | none => simp
    | some x =>
        obtain ⟨negative, q, m, hq, hm, rfl⟩ := isFraction_of_single? hfits hsingle
        exact Or.inr (Or.inl ⟨negative, q, m, hq, hm, rfl⟩)
  split
  · rename_i hfits
    obtain ⟨c, hc, rfl⟩ := fits_charForm_iff.1 hfits
    exact Or.inr (Or.inr (Or.inl ⟨c, hc, rfl, rfl⟩))
  split
  · rename_i htrue
    exact Or.inr (Or.inr (Or.inr (Or.inl ⟨true, htrue, rfl⟩)))
  split
  · rename_i hfalse
    exact Or.inr (Or.inr (Or.inr (Or.inl ⟨false, hfalse, rfl⟩)))
  · exact Or.inr (Or.inr (Or.inr (Or.inr rfl)))

theorem unquote_quoted (inside : List Char) : unquote ('"' :: (inside ++ ['"'])) = inside := by
  simp [unquote]

theorem unquote_plain {field : List Char} (h : ∀ inside, field ≠ '"' :: (inside ++ ['"'])) :
    unquote field = field := by
  unfold unquote
  split
  · rename_i rest
    refine if_neg fun hlast => ?_
    obtain ⟨inside, hinside⟩ := List.getLast?_eq_some_iff.1 hlast
    exact h inside (congrArg _ hinside)
  · rfl

/-! ### What variables take -/

/-- A value by its form fits a type other than STRING only as the language of the type says. -/
theorem denotes_of_byForm {ty : Ty} {field : List Char} {v : Value} (hty : ty ≠ .string)
    (h : (byForm field).coerce? ty = some v) : Denotes ty field v := by
  rcases byForm_cases field with ⟨z, hz, hlo, hhi, hform⟩ | ⟨negative, q, m, hq, hm, hform⟩ |
    ⟨c, hc, rfl, hform⟩ | ⟨b, rfl, hform⟩ | hform
  all_goals
    rw [hform, Value.coerce?_eq_some_iff] at h
    rcases h with ⟨rfl, rfl⟩ | ⟨n, hn, rfl, rfl⟩
  · exact .int hz hlo hhi
  · cases hn
    obtain ⟨m, heq, hm⟩ := Single.ofInt_isNearest z
    rw [Int32.toInt_ofInt_of_le hlo (by omega), heq]
    exact .whole hz hlo hhi hm
  · exact .fraction hq hm
  · cases hn
  · exact .char hc
  · cases hn
  · exact .bool b
  · cases hn
  · exact absurd rfl hty
  · cases hn

theorem denotes_unquote (field : List Char) :
    Denotes .string field (.string (String.ofList (unquote field))) := by
  by_cases hquoted : ∃ inside, field = '"' :: (inside ++ ['"'])
  · obtain ⟨inside, rfl⟩ := hquoted
    rw [unquote_quoted]
    exact .quoted inside
  · have hplain : ∀ inside, field ≠ '"' :: (inside ++ ['"']) :=
      fun inside heq => hquoted ⟨inside, heq⟩
    rw [unquote_plain hplain]
    exact .plain hplain

/-- A field of the language of a type becomes the value it stands for. -/
theorem Denotes.coerce? {ty : Ty} {field : List Char} {v : Value} (h : Denotes ty field v) :
    (value ty field).coerce? ty = some v := by
  rw [Value.coerce?_eq_some_iff]
  cases h with
  | @int field z hz hlo hhi =>
      exact Or.inl ⟨(byForm_of_whole hz).trans (if_pos ⟨hlo, hhi⟩), rfl⟩
  | @whole field z m hz hlo hhi hm =>
      refine Or.inr ⟨Int32.ofInt z, (byForm_of_whole hz).trans (if_pos ⟨hlo, hhi⟩), rfl, ?_⟩
      obtain ⟨m', heq, hm'⟩ := Single.ofInt_isNearest z
      rw [Int32.toInt_ofInt_of_le hlo (by omega), heq, hm.unique hm']
  | @fraction field negative q m hq hm =>
      obtain ⟨before, after, hsign, hb, ha, hne, rfl⟩ := hq
      rw [hm.unique (Magnitude.ofDecimal_isNearest _ _), ← Numeral.ofDigits_eq_decimalValue]
      exact Or.inl ⟨byForm_of_fraction hsign hb ha hne, rfl⟩
  | char hc => exact Or.inl ⟨byForm_char hc, rfl⟩
  | bool b => exact Or.inl ⟨byForm_bool b, rfl⟩
  | quoted inside =>
      refine Or.inl ⟨?_, rfl⟩
      rw [value, if_pos rfl, unquote_quoted]
  | plain hplain =>
      refine Or.inl ⟨?_, rfl⟩
      rw [value, if_pos rfl, unquote_plain hplain]

/-- **The fields that a variable takes, and what it then holds.**  An INT variable takes a
whole number in its range, a FLOAT variable such a number or a fraction, rounded to the
nearest, a CHAR variable a character in single quotes, a BOOL variable one of the two truth
values in double quotes, and a STRING variable everything, without one pair of double quotes
around it. -/
theorem value_coerce?_iff_denotes (ty : Ty) (field : List Char) (v : Value) :
    (value ty field).coerce? ty = some v ↔ Denotes ty field v := by
  refine ⟨fun h => ?_, Denotes.coerce?⟩
  by_cases hty : ty = .string
  · subst hty
    rw [value, if_pos rfl] at h
    cases h
    exact denotes_unquote field
  · rw [value, if_neg hty] at h
    exact denotes_of_byForm hty h

-- The smallest INT is taken; one less is text, and so is a number in the digits of another script.
example : (value .int "-2147483648".toList).coerce? .int = some (.int Int32.minValue) ∧
    value .int "-2147483649".toList = .string "-2147483649" ∧
    Text.fits intForm "٣".toList = true ∧ value .int "٣".toList = .string "٣" := by
  decide +kernel

end Field

end Pseudocode

/-
Numerals mean the same in a program and in its input.

Digits and points are taken as one token wherever they stand in a program, and whether they
make a number is decided afterwards, by how many points there are and by the last character.  A
field of a SCAN is held against one form after the other.  Both come to the same as reading the
characters from the front: no point for an INT, and for a FLOAT one point with digits behind it.
Where a program has a fault, a field is text.
-/
import Pseudocode.Proofs.FieldLanguage
import Pseudocode.Proofs.Spelling

namespace Pseudocode

/-! ### A token alone -/

/-- What spells a token and stands alone is this token, in front of the end of input. -/
theorem Token.ofSource_of_spells {cs : List Char} {k : Token.Kind}
    (h : Scanner.Spells cs [] k) (hline : k ≠ .newline) (hend : k ≠ .endOfInput) :
    Token.ofSource (String.ofList cs) =
      [⟨k, String.ofList cs, ⟨1, 1, cs.length⟩⟩, ⟨.endOfInput, "", ⟨1, 1 + cs.length, 0⟩⟩] := by
  have hnext := h.next (s := .ofSource (String.ofList cs)) hline (by simp [Scanner.ofSource])
  obtain ⟨c, more, rfl, -, -⟩ := h
  rw [Token.ofSource, String.toList_ofList, List.length_cons, Scanner.tokens, hnext]
  dsimp only
  rw [if_neg hend]
  rfl

/-! ### Numerals as tokens and as fields -/

namespace Numeral

variable {w : List Char}

/-- As a field, a numeral is what its reading calls for, or text. -/
theorem byForm_eq_readKind (hw : ∀ c ∈ w, isNumeralChar c = true) :
    Field.byForm w = (Scanner.readKind (read w)).value?.getD (.string (String.ofList w)) := by
  have hread := reads_read w
  generalize read w = n at hread
  cases hread with
  | whole hdigits hne =>
      rw [Field.byForm_of_whole ⟨false, w, .none w, hdigits, hne, rfl⟩,
        ← ofDigits_eq_decimalValue, if_neg Bool.false_ne_true, Int32.ofInt_eq_ofNat]
      by_cases hlt : ofDigits w < 2 ^ 31
      · rw [if_pos (by omega), Scanner.readKind, if_pos hlt]
        rfl
      · rw [if_neg (by omega), Scanner.readKind, if_neg hlt]
        rfl
  | decimal hb ha hne => exact Field.byForm_of_fraction (.none _) hb ha hne
  | malformed hwhole hfraction =>
      have hsign : ∀ {negative cs}, Text.HasSign w negative cs → cs = w := by
        intro negative cs h
        cases h with
        | none => rfl
        | plus => exact absurd (hw '+' List.mem_cons_self) (by decide)
        | minus => exact absurd (hw '-' List.mem_cons_self) (by decide)
      rcases Field.byForm_cases w with ⟨z, ⟨negative, digits, hdigits, hall, hne, -⟩, -⟩ |
        ⟨negative, q, m, ⟨before, after, hpoint, hb, ha, hne, -⟩, -⟩ | ⟨c, -, rfl, -⟩ |
        ⟨b, rfl, -⟩ | h
      · rw [hsign hdigits] at hall hne
        exact absurd (hwhole hall) hne
      · exact absurd ⟨before, after, (hsign hpoint).symm, hb, ha, hne⟩ hfraction
      · exact absurd (hw '\'' List.mem_cons_self) (by decide)
      · exact absurd (hw '"' List.mem_cons_self) (by decide)
      · exact h

/-- The kind of a numeral, by its characters. -/
structure Classified (w : List Char) (kind : Token.Kind) : Prop where
  int : ∀ n, kind = .literal (.int n) ↔
    '.' ∉ w ∧ decimalValue w ≤ 2147483647 ∧ n.toInt = decimalValue w
  float : (∃ x, kind = .literal (.float x)) ↔ IsFraction w
  outOfRange : kind = .fault .intOutOfRange ↔ '.' ∉ w ∧ 2147483647 < decimalValue w
  invalid : kind = .fault .invalidNumber ↔ '.' ∈ w ∧ ¬ IsFraction w

theorem IsFraction.mem_point (h : IsFraction w) : '.' ∈ w := by
  obtain ⟨before, after, rfl, -⟩ := h
  simp

theorem classified_numeralKind (hne : w ≠ []) (hw : ∀ c ∈ w, isNumeralChar c = true) :
    Classified w (Scanner.numeralKind w) := by
  have hread := reads_read w
  rw [Scanner.numeralKind_eq_readKind hne hw]
  generalize read w = n at hread
  cases hread with
  | whole hcs _ =>
      have hpoint : '.' ∉ w := Magnitude.not_mem_of_allDigits hcs
      have hfraction : ¬ IsFraction w := fun h => hpoint h.mem_point
      rw [ofDigits_eq_decimalValue, Scanner.readKind]
      generalize hd : decimalValue w = d
      by_cases hlt : d < 2 ^ 31
      · rw [if_pos hlt]
        have hback : (Int32.ofNat d).toInt = d := Int32.toInt_ofNat_of_lt hlt
        have hle : d ≤ 2147483647 := by omega
        refine ⟨fun n => ?_, by simp [hfraction], ?_, by simp [hpoint]⟩
        · rw [hd, ← hback, Int32.toInt_inj]
          simp [hpoint, hle, eq_comm]
        · rw [hd]
          simp [hle]
      · rw [if_neg hlt]
        have hgt : 2147483647 < d := by omega
        refine ⟨fun n => ?_, by simp [hfraction], ?_, by simp [hpoint]⟩
        · rw [hd]
          simp [hgt]
        · rw [hd]
          simp [hpoint, hgt]
  | decimal hb ha hafter =>
      have hfraction : IsFraction _ := ⟨_, _, rfl, hb, ha, hafter⟩
      have hpoint := hfraction.mem_point
      rw [Scanner.readKind]
      exact ⟨by simp, by simp [hfraction], by simp, by simp [hfraction]⟩
  | malformed hwhole hfraction =>
      have hpoint := mem_point_of_not_digits hne hw hwhole
      rw [Scanner.readKind]
      exact ⟨by simp [hpoint], by simp [hfraction], by simp [hpoint], by simp [hpoint, hfraction]⟩

/-- **A numeral means the same in a program and in its input.**  Digits and points alone are one
token.  Without a point it is an INT literal of the number they stand for, or out of range; with
a point, a FLOAT literal if it is one point with a digit behind it, and else no number.  A field
made of them is the value of this token for every type but STRING, and it is text if the token
is a fault. -/
theorem token_and_field_agree (hne : w ≠ []) (hw : ∀ c ∈ w, c.isDigit = true ∨ c = '.') :
    ∃ kind,
      Token.ofSource (String.ofList w) = [⟨kind, String.ofList w, ⟨1, 1, w.length⟩⟩,
        ⟨.endOfInput, "", ⟨1, 1 + w.length, 0⟩⟩] ∧
      Classified w kind ∧
      ∀ ty, ty ≠ .string →
        Field.value ty w = kind.value?.getD (.string (String.ofList w)) := by
  have hchars : ∀ c ∈ w, isNumeralChar c = true := by
    intro c hc
    simpa [isNumeralChar] using hw c hc
  have hclass := classified_numeralKind hne hchars
  refine ⟨Scanner.numeralKind w, ?_, hclass, fun ty hty => ?_⟩
  · have hspells : Scanner.Spells w [] (Scanner.numeralKind w) :=
      .numeralChars hne hchars (by simp)
    rcases Scanner.numeralKind_cases w with ⟨v, hv⟩ | ⟨f, hf⟩
    · exact Token.ofSource_of_spells hspells (by simp [hv]) (by simp [hv])
    · exact Token.ofSource_of_spells hspells (by simp [hf]) (by simp [hf])
  · rw [Field.value, if_neg hty, Scanner.numeralKind_eq_readKind hne hchars]
    exact byForm_eq_readKind hchars

/-- One more than the largest INT is a fault in a program and text in a field. -/
theorem token_and_field_agree_outOfRange :
    "2147483648".toList ≠ [] ∧ (∀ c ∈ "2147483648".toList, c.isDigit = true ∨ c = '.') ∧
      Token.ofSource "2147483648" =
        [⟨.fault .intOutOfRange, "2147483648", ⟨1, 1, 10⟩⟩, ⟨.endOfInput, "", ⟨1, 11, 0⟩⟩] ∧
      Field.value .int "2147483648".toList = .string "2147483648" := by
  have hne : "2147483648".toList ≠ [] := by decide
  have hw : ∀ c ∈ "2147483648".toList, c.isDigit = true ∨ c = '.' :=
    Scanner.forall_mem_of_all (by decide)
  obtain ⟨kind, htokens, hclass, hfield⟩ := token_and_field_agree hne hw
  obtain rfl : kind = .fault .intOutOfRange :=
    hclass.outOfRange.2 ⟨by decide, by decide⟩
  exact ⟨hne, hw, htokens, hfield .int (by decide)⟩

end Numeral

end Pseudocode

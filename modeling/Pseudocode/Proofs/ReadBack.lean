/-
Literals are read back.

A value that some token of a text stands for has a literal of its own, which may differ from
how that token was spelled: brackets are put around every character that has a meaning of its
own, FLOAT is written with its fewest digits, and a character in brackets becomes a CHAR.  In
front of whatever does not go on with a numeral, this literal is taken as one token, with the
same value.

There is one exception.  Digits without end make a FLOAT literal that stands for more than any
number, and what is written for that is the name `inf` and a numeral.
-/
import Pseudocode.Proofs.RoundTrip

namespace Pseudocode

open Scanner

/-- A token is finite if its value is. -/
theorem Token.isFinite_iff {t : Token} {v : Value} (hv : t.kind.value? = some v) :
    t.isFinite = true ↔ ∀ x, v = .float x → x.isFinite = true := by
  unfold Token.isFinite
  cases hk : t.kind with
  | literal w =>
      rw [hk] at hv
      cases hv
      cases v <;> simp
  | escape c =>
      rw [hk] at hv
      cases hv
      simp
  | _ =>
      rw [hk] at hv
      cases hv

theorem Value.literalText_infinite : literalText (.float (.signed false .infinite)) = "inf.0" := by
  apply String.toList_inj.1
  rw [toList_literalText_float]
  decide

/-- **The literal of a value that a token stands for is read back**, in front of whatever does
not start with a digit or a point: as one token, which covers exactly what is written, and is a
literal of this value.  The exception is a FLOAT literal too large for any number; what is
written for it starts with a name. -/
theorem Scanner.next_literalText {source : String} {t : Token} {v : Value}
    (ht : t ∈ Token.ofSource source) (hv : t.kind.value? = some v) {s : Scanner}
    {rest : List Char} (hs : s.rest = v.literalText.toList ++ rest)
    (hrest : ∀ c ∈ rest.head?, c.isDigit = false ∧ c ≠ '.') :
    (t.isFinite = true →
      s.next = (⟨.literal v, v.literalText, ⟨s.line, s.col, v.literalText.length⟩⟩,
        { s with
          rest := rest
          col := s.col + v.literalText.length
          start := s.pos
          pos := s.pos + v.literalText.length })) ∧
    (t.isFinite = false →
      s.next = (⟨.name, "inf", ⟨s.line, s.col, 3⟩⟩,
        { s with
          rest := ".0".toList ++ rest
          col := s.col + 3
          start := s.pos
          pos := s.pos + 3 })) := by
  have hlegible := Token.legible_of_mem ht hv
  have hfinite := Token.isFinite_iff hv
  refine ⟨fun hfin => ?_, fun hfin => ?_⟩
  · have hends : ∀ c ∈ rest.head?, Numeral.isNumeralChar c = false := by
      intro c hc
      simp [Numeral.isNumeralChar, hrest c hc]
    have hnext := (Spells.literal hlegible (hfinite.1 hfin) hends).next (by simp) hs
    rwa [String.ofList_toList, String.length_toList] at hnext
  · obtain ⟨x, rfl, hx⟩ : ∃ x, v = .float x ∧ x.isFinite = false := by
      simpa [hfin] using hfinite
    obtain ⟨m, rfl⟩ := hlegible
    obtain rfl : m = .infinite := by simpa [Single.isFinite] using hx
    rw [Value.literalText_infinite] at hs
    have hword : IsWord "inf".toList :=
      ⟨'i', ['n', 'f'], rfl, by decide, forall_mem_of_all (by decide)⟩
    have hstop : ∀ c ∈ (".0".toList ++ rest).head?, isNameChar c = false := by
      rintro c ⟨⟩
      decide
    exact (Spells.word hword hstop).next (by decide) hs

/-- `"[#]["` is a STRING of two characters, and its own literal brackets both of them. -/
theorem Scanner.next_literalText_brackets :
    (⟨.literal (.string "#["), "\"[#][\"", ⟨1, 10, 6⟩⟩ : Token) ∈
        Token.ofSource "DISPLAY: \"[#][\"" ∧
      (Scanner.ofSource "\"[#][[]\"x").next =
        (⟨.literal (.string "#["), "\"[#][[]\"", ⟨1, 1, 8⟩⟩, ⟨['x'], 1, 9, 0, 8, false⟩) := by
  have hmem : (⟨.literal (.string "#["), "\"[#][\"", ⟨1, 10, 6⟩⟩ : Token) ∈
      Token.ofSource "DISPLAY: \"[#][\"" := by decide +kernel
  have hs : (Scanner.ofSource "\"[#][[]\"x").rest =
      (Value.literalText (.string "#[")).toList ++ ['x'] := by decide +kernel
  have hrest : ∀ c ∈ ['x'].head?, c.isDigit = false ∧ c ≠ '.' := by
    rintro c ⟨⟩
    decide
  exact ⟨hmem, (Scanner.next_literalText hmem rfl hs hrest).1 rfl⟩

/-- Forty digits, and a point. -/
def overflowNumeral : String :=
  "1000000000000000000000000000000000000000.0"

/-- What is written for a FLOAT literal as large as this is not read back as a literal. -/
theorem Scanner.next_literalText_overflow :
    ∃ t ∈ Token.ofSource ("BEGIN CODE\nDISPLAY: " ++ overflowNumeral ++ "\nEND CODE"), ∃ v,
      t.kind.value? = some v ∧ (Scanner.ofSource v.literalText).next.1.kind ≠ .literal v := by
  refine ⟨⟨.literal (.float (.signed false .infinite)), overflowNumeral, ⟨2, 10, 42⟩⟩, ?_, _,
    rfl, ?_⟩
  · decide +kernel
  · rw [Value.literalText_infinite]
    decide +kernel

end Pseudocode

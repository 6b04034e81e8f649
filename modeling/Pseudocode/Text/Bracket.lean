/-
Bracketed characters.

Six characters have a meaning of their own in programs: the two brackets, the
ampersand, the dollar sign, the number sign and the single quote.  To stand for itself
inside a CHAR or a STRING such a character is put between brackets.  Encoding brackets
every one of them; decoding takes a bracketed one as the character and leaves all
other text alone, so a bracket that encloses nothing of the kind means itself.
-/

namespace Pseudocode.Text

/-- The characters that may stand between brackets. -/
def isEscapable (c : Char) : Bool :=
  ['[', ']', '&', '$', '#', '\''].contains c

/-- The spelling of a character: in brackets when it has a meaning of its own. -/
def bracket (c : Char) : List Char :=
  if isEscapable c then ['[', c, ']'] else [c]

/-- The spelling of a text, character by character. -/
def encodeBrackets (cs : List Char) : List Char :=
  cs.flatMap bracket

/-- The text that a spelling stands for. -/
def decodeBrackets : List Char → List Char
  | '[' :: c :: ']' :: rest =>
    if isEscapable c then c :: decodeBrackets rest else '[' :: decodeBrackets (c :: ']' :: rest)
  | c :: rest => c :: decodeBrackets rest
  | [] => []

theorem decodeBrackets_bracket_append (c : Char) (rest : List Char) :
    decodeBrackets (bracket c ++ rest) = c :: decodeBrackets rest := by
  unfold bracket
  split
  · next h => simp [decodeBrackets, h]
  · next h =>
    have hc : c ≠ '[' := fun he => h (he ▸ rfl)
    rw [List.singleton_append, decodeBrackets.eq_2]
    exact fun _ _ hb _ => hc hb

/-- A spelling is read as the text it was made from. -/
theorem decodeBrackets_encodeBrackets (cs : List Char) :
    decodeBrackets (encodeBrackets cs) = cs := by
  induction cs with
  | nil => rfl
  | cons c cs ih =>
    rw [encodeBrackets, List.flatMap_cons, decodeBrackets_bracket_append]
    exact congrArg (c :: ·) ih

end Pseudocode.Text

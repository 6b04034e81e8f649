/-
Upper case, as far as reserved words need it.

Reserved words are written in the letters A to Z.  The characters whose Unicode
upper-case form consists of those letters are a to z, the sharp s, the dotless i,
the long s and the Latin ligatures; some of these forms have several letters.  Every
other character keeps, or turns into, something outside A to Z, so for telling
whether a word is a reserved word in another case it can stay as it is.
-/

namespace Pseudocode.Text

/-- The upper-case form of a character, where that form is written in A to Z; any other
character is left as it is. -/
def upperCase (c : Char) : List Char :=
  match c with
  | 'ß' => ['S', 'S']
  | 'ı' => ['I']
  | 'ſ' => ['S']
  | 'ﬀ' => ['F', 'F']
  | 'ﬁ' => ['F', 'I']
  | 'ﬂ' => ['F', 'L']
  | 'ﬃ' => ['F', 'F', 'I']
  | 'ﬄ' => ['F', 'F', 'L']
  | 'ﬅ' => ['S', 'T']
  | 'ﬆ' => ['S', 'T']
  | _ => [c.toUpper]

/-- The upper-case form of a word, exact where it is written in A to Z. -/
def upperCaseWord (word : String) : String :=
  String.ofList (word.toList.flatMap upperCase)

end Pseudocode.Text

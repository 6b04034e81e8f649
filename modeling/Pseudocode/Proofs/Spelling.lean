/-
How the tokens of a canonical text are cut off.

For each kind of token that a canonical text is made of, the spelling of the token in front
of any other characters is cut off as that token, and the characters behind it are cut as
they would be alone.  Where a spelling could go on, as names and numerals do, the next
character must not be one of those that go on.

`Spells` says this of one piece of text, whatever is done with the rest.  A literal spells
the value it was made from, if that value has a literal at all.  The smallest INT is cut off
as two tokens, a minus sign and digits that are out of range.
-/
import Pseudocode.Proofs.NumberText
import Pseudocode.Proofs.Scanning

namespace Pseudocode

namespace Scanner

/-- The characters do not go on with a name or a numeral. -/
def Delimited (cs : List Char) : Prop :=
  ∀ c ∈ cs.head?, isNameChar c = false ∧ Numeral.isNumeralChar c = false

/-- The first token has the property, and the others are cut from the characters behind
it. -/
def Next (P : Token → Prop) (rest : List Char) (ts : List Token) : Prop :=
  ∃ t us, ts = t :: us ∧ P t ∧ Cut rest us

theorem Next.imp {P Q : Token → Prop} {rest : List Char} {ts : List Token}
    (h : Next P rest ts) (hPQ : ∀ t, P t → Q t) : Next Q rest ts := by
  obtain ⟨t, us, rfl, ht, hus⟩ := h
  exact ⟨t, us, rfl, hPQ t ht, hus⟩

/-- In front of `rest` the characters are taken together, as a piece of this kind. -/
def Spells (cs rest : List Char) (k : Token.Kind) : Prop :=
  ∃ c more, cs = c :: more ∧ layout false (c :: (more ++ rest)) = 0 ∧
    piece c (more ++ rest) = (k, more.length)

namespace Cut

/-! ### Layout and single pieces -/

theorem blank {cs : List Char} {ts : List Token} (h : Cut (' ' :: cs) ts) : Cut cs ts := by
  have hdrop : (' ' :: cs).drop (layout false (' ' :: cs)) = cs.drop (layout false cs) := rfl
  cases h with
  | stop hcs hk => exact .stop (hdrop ▸ hcs) hk
  | step hcs hk hx h => exact .step (hdrop ▸ hcs) hk hx h

theorem blanks (n : Nat) {cs : List Char} {ts : List Token}
    (h : Cut (List.replicate n ' ' ++ cs) ts) : Cut cs ts := by
  induction n with
  | zero => exact h
  | succ n ih =>
      rw [List.replicate_succ, List.cons_append] at h
      exact ih h.blank

/-- At a character that is no layout the piece it starts is cut off. -/
theorem piece {c : Char} {cs : List Char} {ts : List Token} {k : Token.Kind} {n : Nat}
    (hc : layout false (c :: cs) = 0) (hp : Scanner.piece c cs = (k, n)) (h : Cut (c :: cs) ts) :
    Next (fun t => t.kind = k ∧ t.lexeme = String.ofList (c :: cs.take n)) (cs.drop n) ts := by
  cases h with
  | stop hcs hk =>
      rw [hc] at hcs
      cases hcs
  | step hcs hk hx h =>
      rw [hc] at hcs
      cases hcs
      rw [hp] at hk hx h
      exact ⟨_, _, rfl, ⟨hk, hx⟩, h⟩

/-- A piece of one character. -/
theorem single {c : Char} {cs : List Char} {ts : List Token} {k : Token.Kind}
    (hc : layout false (c :: cs) = 0) (hp : Scanner.piece c cs = (k, 0)) (h : Cut (c :: cs) ts) :
    Next (fun t => t.kind = k) cs ts :=
  (h.piece hc hp).imp fun _ ht => ht.1

/-- What spells a token is cut off as that token. -/
theorem spelled {cs rest : List Char} {ts : List Token} {k : Token.Kind} (hs : Spells cs rest k)
    (h : Cut (cs ++ rest) ts) :
    Next (fun t => t.kind = k ∧ t.lexeme = String.ofList cs) rest ts := by
  obtain ⟨c, more, rfl, hlayout, hp⟩ := hs
  have := h.piece hlayout hp
  rwa [List.take_left, List.drop_left] at this

end Cut

/-! ### Words -/

theorem takeWhile_append_stop {p : Char → Bool} {cs rest : List Char} (hcs : ∀ c ∈ cs, p c = true)
    (hrest : ∀ c ∈ rest.head?, p c = false) : (cs ++ rest).takeWhile p = cs := by
  rw [List.takeWhile_append_of_pos hcs]
  cases rest with
  | nil => simp
  | cons c rest => simp [hrest c rfl]

/-- What a name starts with starts nothing else. -/
theorem isNameStart_ne {c d : Char} (hc : isNameStart c = true) (hd : isNameStart d = false) :
    c ≠ d := by
  rintro rfl
  rw [hc] at hd
  cases hd

theorem isNameStart_of_isDigit {c : Char} (hc : c.isDigit = true) : isNameStart c = false := by
  have hrange : 48 ≤ c.toNat ∧ c.toNat ≤ 57 := by
    simpa [Char.isDigit, UInt32.le_iff_toNat_le] using hc
  have halpha : c.isAlpha = false := by
    unfold Char.isAlpha Char.isUpper Char.isLower
    simp [UInt32.le_iff_toNat_le]
    omega
  have hlow : c.toNat < 0x80 := by omega
  have hne : c ≠ '_' := by
    rintro rfl
    exact absurd hc (by decide)
  simp [isNameStart, Text.isAlphabetic, hlow, halpha, hne]

theorem isNumeralChar_of_isNameStart {c : Char} (hc : isNameStart c = true) :
    Numeral.isNumeralChar c = false := by
  have hdigit : c.isDigit = false := by
    by_contra h
    rw [isNameStart_of_isDigit (by simpa using h)] at hc
    cases hc
  have hpoint : c ≠ '.' := isNameStart_ne hc (by decide)
  simp [Numeral.isNumeralChar, hdigit, hpoint]

theorem piece_word {c : Char} {word rest : List Char} (hc : isNameStart c = true)
    (hword : ∀ d ∈ word, isNameChar d = true) (hrest : ∀ d ∈ rest.head?, isNameChar d = false) :
    piece c (word ++ rest) = (.ofWord (.classify (String.ofList (c :: word))), word.length) := by
  have htake : (word ++ rest).takeWhile isNameChar = word := takeWhile_append_stop hword hrest
  unfold piece
  split
  case h_19 =>
    rw [if_neg (by simp [isNumeralChar_of_isNameStart hc]), if_pos hc, htake]
  all_goals exact absurd rfl (isNameStart_ne hc (by decide))

/-- What is no layout is not skipped. -/
theorem layout_cons {c : Char} (cs : List Char) (hc : c ∉ ['#', ' ', '\t', '\r']) :
    layout false (c :: cs) = 0 := by
  simp only [List.mem_cons, List.not_mem_nil, or_false, not_or] at hc
  simp [layout, hc]

/-- A word is taken whole, and is what its spelling makes it. -/
theorem Spells.word {cs rest : List Char} (hcs : IsWord cs)
    (hrest : ∀ d ∈ rest.head?, isNameChar d = false) :
    Spells cs rest (.ofWord (.classify (String.ofList cs))) := by
  obtain ⟨c, word, rfl, hc, hword⟩ := hcs
  refine ⟨c, word, rfl, layout_cons _ fun hmem => ?_, piece_word hc hword hrest⟩
  have hall : ∀ d ∈ ['#', ' ', '\t', '\r'], isNameStart d = false :=
    forall_mem_of_all (by decide)
  exact isNameStart_ne hc (hall c hmem) rfl

namespace Cut

theorem word {cs rest : List Char} {ts : List Token} (hcs : IsWord cs) (hrest : Delimited rest)
    (h : Cut (cs ++ rest) ts) :
    Next (fun t => t.kind = .ofWord (.classify (String.ofList cs)) ∧ t.lexeme = String.ofList cs)
      rest ts :=
  h.spelled (.word hcs fun d hd => (hrest d hd).1)

theorem keyword {k : Keyword} {rest : List Char} {ts : List Token} (hrest : Delimited rest)
    (h : Cut (k.text.toList ++ rest) ts) : Next (fun t => t.kind = .keyword k) rest ts := by
  have hword : IsWord k.text.toList := by
    cases k <;> exact ⟨_, _, rfl, by decide, forall_mem_of_all (by decide)⟩
  have hkind : Token.Kind.ofWord (.classify (String.ofList k.text.toList)) = .keyword k := by
    cases k <;> rfl
  exact (h.word hword hrest).imp fun t ht => hkind ▸ ht.1

theorem typeName {ty : Ty} {rest : List Char} {ts : List Token} (hrest : Delimited rest)
    (h : Cut (ty.text.toList ++ rest) ts) : Next (fun t => t.kind = .typeName ty) rest ts := by
  have hword : IsWord ty.text.toList := by
    cases ty <;> exact ⟨_, _, rfl, by decide, forall_mem_of_all (by decide)⟩
  have hkind : Token.Kind.ofWord (.classify (String.ofList ty.text.toList)) = .typeName ty := by
    cases ty <;> rfl
  exact (h.word hword hrest).imp fun t ht => hkind ▸ ht.1

/-! ### Operators -/

theorem delimited_blank (rest : List Char) : Delimited (' ' :: rest) := by
  rintro c ⟨⟩
  decide

/-- An operator between two operands has a blank behind it. -/
theorem binOp {op : BinOp} {rest : List Char} {ts : List Token}
    (h : Cut (op.text.toList ++ ' ' :: rest) ts) :
    Next (fun t => t.kind.binOp? = some op) (' ' :: rest) ts := by
  have hword := delimited_blank rest
  cases op with
  | connect op =>
      cases op with
      | and => exact (keyword (k := .AND) hword h).imp fun t => congrArg Token.Kind.binOp?
      | or => exact (keyword (k := .OR) hword h).imp fun t => congrArg Token.Kind.binOp?
  | arith op => cases op <;> exact (single rfl rfl h).imp fun t => congrArg Token.Kind.binOp?
  | compare op =>
      cases op <;> exact (piece rfl rfl h).imp fun t ht => congrArg Token.Kind.binOp? ht.1

/-- An operator before an operand. -/
theorem unOp {op : UnOp} {rest : List Char} {ts : List Token}
    (h : Cut (op.lead.toList ++ rest) ts) : Next (fun t => t.kind.unOp? = some op) rest ts := by
  cases op with
  | plus => exact (single rfl rfl h).imp fun t => congrArg Token.Kind.unOp?
  | minus => exact (single rfl rfl h).imp fun t => congrArg Token.Kind.unOp?
  | not =>
      obtain ⟨t, us, rfl, ht, hus⟩ := keyword (k := .NOT) (delimited_blank rest) h
      exact ⟨t, us, rfl, congrArg Token.Kind.unOp? ht, hus.blank⟩

end Cut

/-! ### Literals -/

theorem piece_numeral {c : Char} {digits rest : List Char}
    (hc : Numeral.isNumeralChar c = true) (hdigits : ∀ d ∈ digits, Numeral.isNumeralChar d = true)
    (hrest : ∀ d ∈ rest.head?, Numeral.isNumeralChar d = false) :
    piece c (digits ++ rest) = (numeralKind (c :: digits), digits.length) := by
  have htake : (digits ++ rest).takeWhile Numeral.isNumeralChar = digits :=
    takeWhile_append_stop hdigits hrest
  unfold piece
  split
  case h_19 => rw [if_pos hc, htake]
  all_goals exact absurd hc (by decide)

theorem charPiece_unbracketed {c : Char} (hc : c ≠ '\n') (he : Text.isEscapable c = false)
    (rest : List Char) : charPiece (c :: '\'' :: rest) = (.literal (.char c), 2) := by
  unfold charPiece
  split
  · rename_i heq
    cases heq
    exact absurd he (by decide)
  · rename_i heq
    cases heq
    rw [if_pos (by simp [hc, he])]
  · rename_i hno
    exact absurd rfl (hno c rest)

/-- What the text between two double quotes stands for. -/
theorem quotedPiece_closed {inside : List Char} (hin : ∀ c ∈ inside, c ≠ '"' ∧ c ≠ '\n')
    (rest : List Char) :
    quotedPiece (inside ++ '"' :: rest) = (.literal (if inside = "TRUE".toList then .bool true
      else if inside = "FALSE".toList then .bool false
      else .string (String.ofList (Text.decodeBrackets inside))), inside.length + 1) := by
  have htake : (inside ++ '"' :: rest).takeWhile (fun c => c ≠ '"' && c ≠ '\n') = inside := by
    refine takeWhile_append_stop (fun c hc => by simp [hin c hc]) ?_
    rintro c ⟨⟩
    decide
  simp only [quotedPiece]
  rw [htake, List.drop_left, List.head?_cons, if_pos rfl]

namespace Spells

variable {rest : List Char}

/-- What spells a token is the next token, with its place and its characters, and the scanner
stands behind it. -/
theorem next {s : Scanner} {cs : List Char} {k : Token.Kind} (h : Spells cs rest k)
    (hk : k ≠ .newline) (hs : s.rest = cs ++ rest) :
    s.next = (⟨k, String.ofList cs, ⟨s.line, s.col, cs.length⟩⟩,
      { s with rest := rest, col := s.col + cs.length, start := s.pos, pos := s.pos + cs.length }) := by
  obtain ⟨c, more, rfl, hlayout, hp⟩ := h
  have hc : c ≠ '\n' := by
    rintro rfl
    exact hk (congrArg Prod.fst hp).symm
  have hskip : layout false s.rest = 0 := by rw [hs]; exact hlayout
  have hdrop : s.rest.drop 0 = c :: (more ++ rest) := by rw [hs]; rfl
  simp only [Scanner.next, hskip, hdrop, hp, if_neg hc, Nat.add_zero, List.take_left,
    List.drop_left, List.length_cons]

/-- A run of digits and points is taken whole, also when it is no number. -/
theorem numeralChars {cs : List Char} (hne : cs ≠ [])
    (hall : ∀ c ∈ cs, Numeral.isNumeralChar c = true)
    (hrest : ∀ d ∈ rest.head?, Numeral.isNumeralChar d = false) :
    Spells cs rest (numeralKind cs) := by
  obtain ⟨c, digits, rfl⟩ := List.exists_cons_of_ne_nil hne
  obtain ⟨hc, hdigits⟩ := List.forall_mem_cons.1 hall
  refine ⟨c, digits, rfl, layout_cons _ fun hmem => ?_, piece_numeral hc hdigits hrest⟩
  have hno : ∀ d ∈ ['#', ' ', '\t', '\r'], Numeral.isNumeralChar d = false :=
    forall_mem_of_all (by decide)
  rw [hno c hmem] at hc
  cases hc

theorem numeral {cs : List Char} (hcs : Numeral.read cs ≠ .malformed)
    (hrest : ∀ d ∈ rest.head?, Numeral.isNumeralChar d = false) :
    Spells cs rest (numeralKind cs) := by
  obtain ⟨hne, hall⟩ := Numeral.numeralChars_of_read hcs
  exact numeralChars hne hall hrest

theorem char {c : Char} (hc : c ≠ '\n') :
    Spells (Value.literalText (.char c)).toList rest (.literal (.char c)) := by
  have htext : (Value.literalText (.char c)).toList = '\'' :: (Text.bracket c ++ ['\'']) := by
    simp [Value.literalText]
  refine ⟨'\'', _, htext, rfl, ?_⟩
  unfold Text.bracket
  by_cases he : Text.isEscapable c = true
  · rw [if_pos he]
    simp [piece, charPiece, he]
  · rw [if_neg he]
    exact charPiece_unbracketed hc (Bool.eq_false_iff.2 he) rest

/-- What stands between two double quotes on a line. -/
theorem quoted {inside : List Char} (hin : ∀ c ∈ inside, c ≠ '"' ∧ c ≠ '\n') :
    Spells ('"' :: (inside ++ ['"'])) rest (.literal (if inside = "TRUE".toList then .bool true
      else if inside = "FALSE".toList then .bool false
      else .string (String.ofList (Text.decodeBrackets inside)))) := by
  refine ⟨'"', _, rfl, rfl, ?_⟩
  rw [List.append_assoc, List.length_append]
  exact quotedPiece_closed hin rest

theorem string {x : String} (hx : (Value.string x).Legible) :
    Spells (Value.literalText (.string x)).toList rest (.literal (.string x)) := by
  obtain ⟨hchars, htrue, hfalse⟩ := hx
  have htext : (Value.literalText (.string x)).toList =
      '"' :: (Text.encodeBrackets x.toList ++ ['"']) := by
    simp [Value.literalText]
  have hin : ∀ c ∈ Text.encodeBrackets x.toList, c ≠ '"' ∧ c ≠ '\n' := by
    intro c hc
    obtain ⟨d, hd, hcd⟩ := List.mem_flatMap.1 hc
    unfold Text.bracket at hcd
    split at hcd
    · simp only [List.mem_cons, List.not_mem_nil, or_false] at hcd
      rcases hcd with rfl | rfl | rfl
      · decide
      · exact hchars c hd
      · decide
    · obtain rfl := List.mem_singleton.1 hcd
      exact hchars c hd
  -- An encoded text that is a truth value would have been one before.
  have hplain : ∀ w : String, Text.decodeBrackets w.toList = w.toList → x ≠ w →
      Text.encodeBrackets x.toList ≠ w.toList := by
    intro w hw hne heq
    have hdec := Text.decodeBrackets_encodeBrackets x.toList
    rw [heq, hw] at hdec
    exact hne (String.toList_inj.1 hdec).symm
  have hspells : Spells ('"' :: (Text.encodeBrackets x.toList ++ ['"'])) rest _ := quoted hin
  rwa [if_neg (hplain _ rfl htrue), if_neg (hplain _ rfl hfalse),
    Text.decodeBrackets_encodeBrackets, String.ofList_toList, ← htext] at hspells

theorem bool (b : Bool) :
    Spells (Value.literalText (.bool b)).toList rest (.literal (.bool b)) := by
  cases b with
  | true =>
      have hin : ∀ c ∈ "TRUE".toList, c ≠ '"' ∧ c ≠ '\n' := forall_mem_of_all (by decide)
      exact quoted hin
  | false =>
      have hin : ∀ c ∈ "FALSE".toList, c ≠ '"' ∧ c ≠ '\n' := forall_mem_of_all (by decide)
      exact quoted hin

theorem int {n : Int32} (hn : 0 ≤ n.toInt)
    (hrest : ∀ d ∈ rest.head?, Numeral.isNumeralChar d = false) :
    Spells (Value.literalText (.int n)).toList rest (.literal (.int n)) := by
  have hread : Numeral.read (Value.literalText (.int n)).toList = .whole n.toInt.toNat :=
    Value.read_intText hn
  have hlt : n.toInt.toNat < 2 ^ 31 := by
    have := n.toInt_lt
    omega
  have hback : Int32.ofNat n.toInt.toNat = n := by
    apply Int32.toInt_inj.1
    rw [Int32.toInt_ofNat_of_lt hlt]
    omega
  have hkind : numeralKind (Value.literalText (.int n)).toList = .literal (.int n) := by
    obtain ⟨hne, hall⟩ := Numeral.numeralChars_of_read (by rw [hread]; simp)
    rw [numeralKind_eq_readKind hne hall, hread, readKind, if_pos hlt, hback]
  rw [← hkind]
  exact numeral (by rw [hread]; simp) hrest

theorem float {x : Single} (hx : (Value.float x).Legible) (hfin : x.isFinite = true)
    (hrest : ∀ d ∈ rest.head?, Numeral.isNumeralChar d = false) :
    Spells (Value.literalText (.float x)).toList rest (.literal (.float x)) := by
  obtain ⟨m, rfl⟩ := hx
  obtain ⟨digits, places, hread, hback⟩ :=
    Magnitude.read_text (m := m) (by simpa [Single.isFinite] using hfin)
  rw [Value.toList_literalText_float]
  have hkind : numeralKind (Magnitude.pointed m.text) = .literal (.float (.signed false m)) := by
    obtain ⟨hne, hall⟩ := Numeral.numeralChars_of_read (by rw [hread]; simp)
    rw [numeralKind_eq_readKind hne hall, hread]
    simp [readKind, Single.ofDecimal, hback]
  rw [← hkind]
  exact numeral (by rw [hread]; simp) hrest

/-- **The literal of a value spells that value.** -/
theorem literal {v : Value} (hv : v.Legible) (hfin : ∀ x, v = .float x → x.isFinite = true)
    (hrest : ∀ d ∈ rest.head?, Numeral.isNumeralChar d = false) :
    Spells v.literalText.toList rest (.literal v) := by
  cases v with
  | int n => exact int hv hrest
  | float x => exact float hv (hfin x rfl) hrest
  | char c => exact char hv
  | bool b => exact bool b
  | string x => exact string hv

end Spells

namespace Cut

theorem literal {v : Value} {rest : List Char} {ts : List Token} (hv : v.Legible)
    (hfin : ∀ x, v = .float x → x.isFinite = true) (hrest : Delimited rest)
    (h : Cut (v.literalText.toList ++ rest) ts) :
    Next (fun t => t.kind = .literal v) rest ts :=
  (h.spelled (.literal hv hfin fun d hd => (hrest d hd).2)).imp fun _ ht => ht.1

/-- The smallest INT is cut off as a minus sign and digits that are out of range. -/
theorem smallest {rest : List Char} {ts : List Token} (hrest : Delimited rest)
    (h : Cut ((Value.literalText (.int Int32.minValue)).toList ++ rest) ts) :
    ∃ t m us, ts = t :: m :: us ∧ t.kind = .sign (.arith .sub) ∧
      m.kind = .fault .intOutOfRange ∧ Numeral.read m.lexeme.toList = .whole (2 ^ 31) ∧
      Cut rest us := by
  have htext : (Value.literalText (.int Int32.minValue)).toList ++ rest =
      '-' :: ("2147483648".toList ++ rest) := rfl
  rw [htext] at h
  obtain ⟨t, us, rfl, ht, hus⟩ := single rfl rfl h
  obtain ⟨m, us, rfl, ⟨hm, hx⟩, hus⟩ :=
    hus.spelled (.numeral (by decide) fun d hd => (hrest d hd).2)
  exact ⟨t, m, us, rfl, ht, hm, by rw [hx]; rfl, hus⟩

end Cut

end Scanner

end Pseudocode

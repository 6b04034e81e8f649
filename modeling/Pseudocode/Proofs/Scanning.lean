/-
A text and the tokens it is cut into.

`Cut cs ts` says that the characters `cs` are cut into the tokens `ts`: layout in front is
dropped, the next character decides which token starts there and how far it reaches, and
the characters behind it are cut in the same way, until none are left and the end of input
is the last token.  Nothing is said of where the tokens stand.  So the relation is about
the characters alone, and it can be taken apart from the left, a token at a time; the
scanner itself also counts lines and columns, and it counts its steps.
-/
import Pseudocode.Proofs.NumberText
import Pseudocode.Token.Scanner

namespace Pseudocode

namespace Scanner

/-- The characters are cut into the tokens. -/
inductive Cut : List Char → List Token → Prop
  | stop {cs : List Char} {t : Token} (hcs : cs.drop (layout false cs) = [])
      (hk : t.kind = .endOfInput) : Cut cs [t]
  | step {cs rest : List Char} {c : Char} {t : Token} {ts : List Token}
      (hcs : cs.drop (layout false cs) = c :: rest) (hk : t.kind = (piece c rest).1)
      (hx : t.lexeme = String.ofList (c :: rest.take (piece c rest).2))
      (h : Cut (rest.drop (piece c rest).2) ts) : Cut cs (t :: ts)

/-! ### What a token of each kind is like -/

/-- A name, as the scanner reads one: a letter or an underscore, and then letters, numerals
and underscores. -/
def IsWord (cs : List Char) : Prop :=
  ∃ c word, cs = c :: word ∧ isNameStart c = true ∧ ∀ d ∈ word, isNameChar d = true

end Scanner

/-- A value that a literal can spell: no sign in front of numbers, and no quote or line end
in characters and texts.  The texts of the truth values spell those. -/
def Value.Legible : Value → Prop
  | .int n => 0 ≤ n.toInt
  | .float x => ∃ m, x = .signed false m
  | .char c => c ≠ '\n'
  | .bool _ => True
  | .string s => (∀ c ∈ s.toList, c ≠ '"' ∧ c ≠ '\n') ∧ s ≠ "TRUE" ∧ s ≠ "FALSE"

/-- What holds of every token of a text, by its kind. -/
def Token.Kind.Genuine (kind : Token.Kind) (lexeme : List Char) : Prop :=
  match kind with
  | .name | .fault (.wrongCase _) =>
    Scanner.IsWord lexeme ∧ kind = .ofWord (.classify (String.ofList lexeme))
  | .literal v => v.Legible
  | .escape c => Text.isEscapable c = true
  | _ => True

namespace Text

/-- Decoding adds no characters. -/
theorem mem_of_mem_decodeBrackets {x : Char} (cs : List Char) :
    x ∈ decodeBrackets cs → x ∈ cs := by
  fun_induction decodeBrackets cs with
  | case1 c rest hc ih =>
      intro h
      rcases List.mem_cons.1 h with rfl | h
      · simp
      · simp [ih h]
  | case2 c rest hc ih =>
      intro h
      rcases List.mem_cons.1 h with rfl | h
      · simp
      · exact List.mem_cons_of_mem _ (ih h)
  | case3 c rest hne ih =>
      intro h
      rcases List.mem_cons.1 h with rfl | h
      · simp
      · simp [ih h]
  | case4 => exact id

/-- Decoding leaves a bracketed character as a trace: without one nothing was decoded. -/
theorem decodeBrackets_eq_self (cs : List Char) :
    (∀ c ∈ decodeBrackets cs, isEscapable c = false) → decodeBrackets cs = cs := by
  fun_induction decodeBrackets cs with
  | case1 c rest hc ih =>
      intro h
      have := h c (by simp)
      rw [hc] at this
      contradiction
  | case2 c rest hc ih =>
      intro h
      rw [ih fun d hd => h d (by simp [hd])]
  | case3 c rest hne ih =>
      intro h
      rw [ih fun d hd => h d (by simp [hd])]
  | case4 => exact fun _ => rfl

end Text

namespace Scanner

/-- A property of the members of a list, checked one by one. -/
theorem forall_mem_of_all {α : Type} {p : α → Prop} [DecidablePred p] {as : List α}
    (h : as.all (fun a => decide (p a)) = true) : ∀ a ∈ as, p a :=
  fun a ha => of_decide_eq_true (List.all_eq_true.1 h a ha)

theorem signPiece_fst (cs : List Char) (short : Sign) (second : Char) (long : Sign) :
    ∃ s, (signPiece cs short second long).1 = .sign s := by
  unfold signPiece
  split
  · exact ⟨long, rfl⟩
  · exact ⟨short, rfl⟩

theorem escapePiece_genuine (cs : List Char) (lexeme : List Char) :
    (escapePiece cs).1 ≠ .endOfInput ∧ (escapePiece cs).1.Genuine lexeme := by
  unfold escapePiece
  dsimp only
  split
  · split
    · rename_i h
      exact ⟨by simp, h⟩
    · simp [Token.Kind.Genuine]
  · simp [Token.Kind.Genuine]

theorem charPiece_genuine (cs : List Char) (lexeme : List Char) :
    (charPiece cs).1 ≠ .endOfInput ∧ (charPiece cs).1.Genuine lexeme := by
  unfold charPiece
  split
  · split
    · rename_i c rest h
      refine ⟨by simp, ?_⟩
      rintro rfl
      exact absurd h (by decide)
    · simp [charFault, Token.Kind.Genuine]
  · split
    · rename_i h
      simp only [Bool.and_eq_true, decide_eq_true_eq] at h
      exact ⟨by simp, h.1⟩
    · simp [charFault, Token.Kind.Genuine]
  · simp [charFault, Token.Kind.Genuine]

/-- A text between quotes is legible. -/
theorem legible_quoted {inside : List Char} (hin : ∀ c ∈ inside, c ≠ '"' ∧ c ≠ '\n')
    (htrue : inside ≠ "TRUE".toList) (hfalse : inside ≠ "FALSE".toList) :
    (Value.string (String.ofList (Text.decodeBrackets inside))).Legible := by
  -- The two reserved texts have no bracketed character, so only they decode to themselves.
  have hplain : ∀ w : String, (∀ c ∈ w.toList, Text.isEscapable c = false) →
      String.ofList (Text.decodeBrackets inside) = w → inside = w.toList := by
    intro w hw h
    have hd : Text.decodeBrackets inside = w.toList := by
      rw [← h, String.toList_ofList]
    rw [← hd, Text.decodeBrackets_eq_self inside (hd ▸ hw)]
  refine ⟨fun c hc => ?_, fun h => htrue (hplain _ (forall_mem_of_all (by decide)) h),
    fun h => hfalse (hplain _ (forall_mem_of_all (by decide)) h)⟩
  rw [String.toList_ofList] at hc
  exact hin c (Text.mem_of_mem_decodeBrackets inside hc)

theorem quotedPiece_genuine (cs : List Char) (lexeme : List Char) :
    (quotedPiece cs).1 ≠ .endOfInput ∧ (quotedPiece cs).1.Genuine lexeme := by
  unfold quotedPiece
  dsimp only
  split
  · refine ⟨by simp, ?_⟩
    change Value.Legible _
    split
    · trivial
    · split
      · trivial
      · rename_i htrue hfalse
        refine legible_quoted (fun c hc => ?_) htrue hfalse
        simpa using List.all_eq_true.1 List.all_takeWhile c hc
  · simp [Token.Kind.Genuine]

/-- The kind of token that a numeral calls for by its reading. -/
def readKind : Numeral → Token.Kind
  | .whole n => if n < 2 ^ 31 then .literal (.int (Int32.ofNat n)) else .fault .intOutOfRange
  | .decimal digits places => .literal (.float (.ofDecimal false digits places))
  | .malformed => .fault .invalidNumber

/-- A FLOAT token is a fraction: its only point has a digit behind it. -/
theorem isFraction_of_single? {cs : List Char} {x : Single}
    (hall : ∀ c ∈ cs, Numeral.isNumeralChar c = true) (hcount : cs.count '.' = 1)
    (hlast : cs.getLast?.any Char.isDigit = true) (h : Text.single? cs = some x) :
    Numeral.IsFraction cs := by
  rw [Text.single?_of_plain (.none cs) (.of_numeralChars hall), Option.map_eq_some_iff] at h
  obtain ⟨r, hr, -⟩ := h
  refine Text.isFraction_of_mantissa? hr (List.count_pos_iff.1 (by omega)) fun hpoint => ?_
  rw [hpoint] at hlast
  exact absurd hlast (by decide)

/-- **Counting the points of a numeral and looking at its last character** tell what it is
read as. -/
theorem numeralKind_eq_readKind {cs : List Char} (hne : cs ≠ [])
    (hall : ∀ c ∈ cs, Numeral.isNumeralChar c = true) :
    numeralKind cs = readKind (Numeral.read cs) := by
  have hread := Numeral.reads_read cs
  generalize Numeral.read cs = n at hread
  cases hread with
  | whole hdigits _ =>
      have hcount : cs.count '.' = 0 :=
        List.count_eq_zero.2 fun h => absurd (hdigits '.' h) (by decide)
      simp only [numeralKind, hcount, Text.int32?_of_allDigits hdigits hne, readKind]
      by_cases hlt : Numeral.ofDigits cs < 2 ^ 31
      · rw [if_pos hlt, if_pos hlt]
      · rw [if_neg hlt, if_neg hlt]
  | @decimal before after hb ha hafter =>
      have hno : ∀ {ds : List Char}, AllDigits ds → ds.count '.' = 0 :=
        fun hds => List.count_eq_zero.2 fun h => absurd (hds '.' h) (by decide)
      have hcount : (before ++ '.' :: after).count '.' = 1 := by
        rw [List.count_append, List.count_cons_self, hno hb, hno ha]
      have hlast : (before ++ '.' :: after).getLast?.any Char.isDigit = true := by
        rw [Text.getLast?_fraction hafter, List.getLast?_eq_some_getLast hafter]
        exact ha _ (List.getLast_mem hafter)
      simp only [numeralKind, hcount, hlast, if_true,
        Text.single?_of_fraction (.none _) hb ha hafter, readKind]
  | malformed hwhole hfraction =>
      have hpoint := Numeral.mem_point_of_not_digits hne hall hwhole
      unfold numeralKind
      split
      · rename_i hcount
        exact absurd hpoint (List.count_eq_zero.1 hcount)
      · rename_i hcount
        split
        · rename_i hlast
          cases hsingle : Text.single? cs with
          | none => rfl
          | some x => exact absurd (isFraction_of_single? hall hcount hlast hsingle) hfraction
        · rfl
      · rfl

/-- A numeral is a literal or a fault. -/
theorem numeralKind_cases (cs : List Char) :
    (∃ v, numeralKind cs = .literal v) ∨ ∃ f, numeralKind cs = .fault f := by
  unfold numeralKind
  repeat' split
  all_goals first | exact Or.inl ⟨_, rfl⟩ | exact Or.inr ⟨_, rfl⟩

theorem numeralKind_genuine {cs : List Char} (hne : cs ≠ [])
    (hall : ∀ c ∈ cs, Numeral.isNumeralChar c = true) (lexeme : List Char) :
    numeralKind cs ≠ .endOfInput ∧ (numeralKind cs).Genuine lexeme := by
  rw [numeralKind_eq_readKind hne hall]
  cases Numeral.read cs with
  | whole n =>
      rw [readKind]
      split
      · rename_i hn
        refine ⟨by simp, ?_⟩
        change 0 ≤ (Int32.ofNat n).toInt
        rw [Int32.toInt_ofNat_of_lt hn]
        exact Int.natCast_nonneg n
      · simp [Token.Kind.Genuine]
  | decimal digits places => exact ⟨by simp [readKind], _, rfl⟩
  | malformed => simp [readKind, Token.Kind.Genuine]

theorem ofWord_genuine {cs : List Char} (h : IsWord cs) :
    Token.Kind.ofWord (.classify (String.ofList cs)) ≠ .endOfInput ∧
      (Token.Kind.ofWord (.classify (String.ofList cs))).Genuine cs := by
  cases hw : Word.classify (String.ofList cs) with
  | reserved r => cases r <;> simp [Token.Kind.ofWord, Token.Kind.ofReserved, Token.Kind.Genuine]
  | wrongCase r => exact ⟨by simp [Token.Kind.ofWord], h, by rw [hw]⟩
  | name => exact ⟨by simp [Token.Kind.ofWord], h, by rw [hw]⟩

/-- Only the end of the text is the end of input, and every piece is genuine. -/
theorem piece_genuine (c : Char) (cs : List Char) :
    (piece c cs).1 ≠ .endOfInput ∧ (piece c cs).1.Genuine (c :: cs.take (piece c cs).2) := by
  have hsign : ∀ (k : Token.Kind) (lexeme : List Char), (∃ s, k = .sign s) →
      k ≠ .endOfInput ∧ k.Genuine lexeme := by
    rintro k lexeme ⟨s, rfl⟩
    simp [Token.Kind.Genuine]
  unfold piece
  split
  case h_1 => simp [Token.Kind.Genuine]
  case h_16 => exact escapePiece_genuine cs _
  case h_17 => exact charPiece_genuine cs _
  case h_18 => exact quotedPiece_genuine cs _
  case h_19 =>
    split
    · rename_i hc
      refine numeralKind_genuine (List.cons_ne_nil _ _) (List.forall_mem_cons.2 ⟨hc, ?_⟩) _
      exact fun d hd => List.all_eq_true.1 List.all_takeWhile d hd
    · split
      · rename_i hstart
        dsimp only
        have hword : IsWord (c :: cs.takeWhile isNameChar) :=
          ⟨c, _, rfl, hstart, fun d hd => List.all_eq_true.1 List.all_takeWhile d hd⟩
        rw [← List.prefix_iff_eq_take.1 (List.takeWhile_prefix isNameChar)]
        exact ofWord_genuine hword
      · simp [Token.Kind.Genuine]
  case h_7 => exact hsign _ _ (signPiece_fst ..)
  case h_8 =>
    split
    · exact hsign _ _ ⟨_, rfl⟩
    · exact hsign _ _ (signPiece_fst ..)
  case h_9 => exact hsign _ _ (signPiece_fst ..)
  all_goals exact hsign _ _ ⟨_, rfl⟩

/-! ### The scanner cuts -/

/-- The layout in front does not reach beyond the end of the text. -/
theorem layout_le (inComment : Bool) (cs : List Char) : layout inComment cs ≤ cs.length := by
  induction cs generalizing inComment with
  | nil => simp [layout]
  | cons c cs ih =>
      have hcomment := ih true
      have hplain := ih false
      rw [List.length_cons]
      unfold layout
      repeat' split
      all_goals omega

theorem next_of_nil {s : Scanner} (h : s.rest.drop (layout false s.rest) = []) :
    s.next.1.kind = .endOfInput := by
  simp only [next]
  rw [h]

theorem next_of_cons {s : Scanner} {c : Char} {cs : List Char}
    (h : s.rest.drop (layout false s.rest) = c :: cs) :
    s.next.1.kind = (piece c cs).1 ∧
      s.next.1.lexeme = String.ofList (c :: cs.take (piece c cs).2) ∧
      s.next.2.rest = cs.drop (piece c cs).2 := by
  simp only [next]
  rw [h]
  dsimp only
  split <;> simp

theorem cut_tokens {fuel : Nat} {s : Scanner} (hfuel : s.rest.length < fuel) :
    Cut s.rest (tokens fuel s) := by
  induction fuel generalizing s with
  | zero => omega
  | succ fuel ih =>
      simp only [tokens]
      cases h : s.rest.drop (layout false s.rest) with
      | nil =>
          have hk := next_of_nil h
          rw [if_pos hk]
          exact .stop h hk
      | cons c cs =>
          obtain ⟨hk, hx, hrest⟩ := next_of_cons h
          rw [if_neg (hk ▸ (piece_genuine c cs).1)]
          refine .step h hk hx (hrest ▸ ih ?_)
          -- The token takes its first character at least.
          have hlen := congrArg List.length h
          rw [List.length_drop, List.length_cons] at hlen
          rw [hrest, List.length_drop]
          omega

/-- **A text is cut into its tokens.** -/
theorem cut_ofSource (source : String) : Cut source.toList (Token.ofSource source) :=
  cut_tokens (s := .ofSource source) (Nat.lt_succ_self _)

namespace Cut

/-- The last token, and only that, is the end of input. -/
theorem terminated {cs : List Char} {ts : List Token} (h : Cut cs ts) :
    ∃ init eof, ts = init ++ [eof] ∧ eof.kind = .endOfInput ∧
      ∀ t ∈ init, t.kind ≠ .endOfInput := by
  induction h with
  | @stop cs t hcs hk => exact ⟨[], t, rfl, hk, by simp⟩
  | @step cs rest c t ts hcs hk hx h ih =>
      obtain ⟨init, eof, rfl, heof, hinit⟩ := ih
      refine ⟨t :: init, eof, rfl, heof, List.forall_mem_cons.2 ⟨?_, hinit⟩⟩
      rw [hk]
      exact (piece_genuine c rest).1

/-- Every token of a text is genuine. -/
theorem genuine {cs : List Char} {ts : List Token} (h : Cut cs ts) :
    ∀ t ∈ ts, t.kind.Genuine t.lexeme.toList := by
  induction h with
  | @stop cs t hcs hk => simp [hk, Token.Kind.Genuine]
  | @step cs rest c t ts hcs hk hx h ih =>
      refine List.forall_mem_cons.2 ⟨?_, ih⟩
      rw [hk, hx, String.toList_ofList]
      exact (piece_genuine c rest).2

end Cut

end Scanner

/-- The value of a token of a text has a literal. -/
theorem Token.legible_of_mem {source : String} {t : Token} {v : Value}
    (ht : t ∈ Token.ofSource source) (hv : t.kind.value? = some v) : v.Legible := by
  have hgenuine := (Scanner.cut_ofSource source).genuine t ht
  cases hk : t.kind with
  | literal w =>
      rw [hk] at hv hgenuine
      cases hv
      exact hgenuine
  | escape c =>
      rw [hk] at hv hgenuine
      cases hv
      rintro rfl
      cases hgenuine
  | _ =>
      rw [hk] at hv
      cases hv

end Pseudocode

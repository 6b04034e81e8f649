/-
Where the tokens of a text stand.

A text is its tokens with layout between them: blanks, and a comment where a line or the
text ends.  `Laid front rest ts` says this of the characters `rest` behind the characters
`front`, together with the places that the tokens carry.  The place of a token follows from
the characters in front of it alone: its line from how many line feeds there are, its column
from how many characters there are behind the last of them.  The scanner counts both as it
goes; that its counts are these is what one step of it preserves.

Seen from the whole text, the tokens take disjoint stretches of it, in order, and every
character outside of them is layout.
-/
import Mathlib.Data.List.DropRight
import Mathlib.Data.List.Forall2
import Pseudocode.Proofs.Scanning

namespace Pseudocode

namespace Text

/-! ### Behind the last separator -/

section Separator

variable {α : Type} [DecidableEq α] {sep : α}

theorem rtakeWhile_append_sep (front back : List α) :
    (front ++ sep :: back).rtakeWhile (· ≠ sep) = back.rtakeWhile (· ≠ sep) := by
  induction back using List.reverseRecOn with
  | nil => simp
  | append_singleton back a ih =>
      rw [← List.cons_append, ← List.append_assoc, List.rtakeWhile_concat,
        List.rtakeWhile_concat, ih]

theorem count_append_sep {front : List α} (h : sep ∉ front) (back : List α) :
    (front ++ sep :: back).count sep = back.count sep + 1 := by
  rw [List.count_append, List.count_eq_zero_of_not_mem h, List.count_cons_self]
  omega

end Separator

/-! ### Places behind some characters -/

/-- The line behind some characters: one more than there are line feeds in them. -/
def lineBehind (front : List Char) : Nat :=
  1 + front.count '\n'

/-- The column behind some characters: one more than there are behind the last line feed. -/
def colBehind (front : List Char) : Nat :=
  1 + (front.rtakeWhile (· ≠ '\n')).length

theorem rtakeWhile_append_plain {mid : List Char} (front : List Char) (h : '\n' ∉ mid) :
    (front ++ mid).rtakeWhile (· ≠ '\n') = front.rtakeWhile (· ≠ '\n') ++ mid := by
  induction mid using List.reverseRecOn with
  | nil => simp
  | append_singleton mid c ih =>
      rw [List.mem_append, List.mem_singleton, not_or] at h
      rw [← List.append_assoc, List.rtakeWhile_concat_pos _ _ _ (by simpa using Ne.symm h.2),
        ih h.1, List.append_assoc]

/-- On one line the column counts the characters. -/
theorem behind_append_plain {mid : List Char} (front : List Char) (h : '\n' ∉ mid) :
    lineBehind (front ++ mid) = lineBehind front ∧
      colBehind (front ++ mid) = colBehind front + mid.length := by
  have hcount : mid.count '\n' = 0 := List.count_eq_zero_of_not_mem h
  constructor
  · rw [lineBehind, List.count_append, hcount, Nat.add_zero, lineBehind]
  · rw [colBehind, rtakeWhile_append_plain front h, List.length_append, colBehind]
    omega

theorem behind_append_newline (front : List Char) :
    lineBehind (front ++ ['\n']) = lineBehind front + 1 ∧ colBehind (front ++ ['\n']) = 1 := by
  constructor
  · simp [lineBehind, Nat.add_assoc]
  · simp [colBehind]

/-! ### Layout -/

/-- Spaces, tabs and carriage returns. -/
def Blanks (cs : List Char) : Prop :=
  ∀ c ∈ cs, c = ' ' ∨ c = '\t' ∨ c = '\r'

/-- A number sign and further characters on its line. -/
def Comment (cs : List Char) : Prop :=
  ∃ text, cs = '#' :: text ∧ '\n' ∉ text

/-- The characters start with a line feed, or there are none. -/
def AtLineEnd (cs : List Char) : Prop :=
  cs = [] ∨ ∃ rest, cs = '\n' :: rest

/-- Layout in front of `rest`: blanks, and where the line ends possibly a comment behind
them. -/
def Gap (gap rest : List Char) : Prop :=
  ∃ blanks comment, gap = blanks ++ comment ∧ Blanks blanks ∧
    (comment = [] ∨ Comment comment ∧ AtLineEnd rest)

theorem Blanks.plain {cs : List Char} (h : Blanks cs) : '\n' ∉ cs := by
  intro hmem
  have := h _ hmem
  simp at this

theorem Comment.plain {cs : List Char} (h : Comment cs) : '\n' ∉ cs := by
  obtain ⟨text, rfl, htext⟩ := h
  simp [htext]

/-- Layout does not cross a line. -/
theorem Gap.plain {gap rest : List Char} (h : Gap gap rest) : '\n' ∉ gap := by
  obtain ⟨blanks, comment, rfl, hblanks, hcomment⟩ := h
  rw [List.mem_append, not_or]
  refine ⟨hblanks.plain, ?_⟩
  rcases hcomment with rfl | ⟨hcomment, -⟩
  · simp
  · exact hcomment.plain

end Text

namespace Scanner

open Text

theorem layout_comment (cs : List Char) :
    '\n' ∉ cs.take (layout true cs) ∧ AtLineEnd (cs.drop (layout true cs)) := by
  induction cs with
  | nil => exact ⟨by simp, Or.inl rfl⟩
  | cons c cs ih =>
      rw [layout, if_pos rfl]
      by_cases hc : c = '\n'
      · rw [if_pos hc, hc]
        exact ⟨by simp, Or.inr ⟨cs, rfl⟩⟩
      · rw [if_neg hc, List.take_succ_cons, List.drop_succ_cons]
        exact ⟨by simp [Ne.symm hc, ih.1], ih.2⟩

/-- What the scanner skips is layout. -/
theorem layout_gap (cs : List Char) :
    Gap (cs.take (layout false cs)) (cs.drop (layout false cs)) := by
  induction cs with
  | nil => exact ⟨[], [], rfl, by simp [Blanks], Or.inl rfl⟩
  | cons c cs ih =>
      rw [layout, if_neg Bool.false_ne_true]
      by_cases hhash : c = '#'
      · obtain ⟨hplain, hend⟩ := layout_comment cs
        rw [if_pos hhash, List.take_succ_cons, List.drop_succ_cons, hhash]
        exact ⟨[], _, rfl, by simp [Blanks], Or.inr ⟨⟨_, rfl, hplain⟩, hend⟩⟩
      · rw [if_neg hhash]
        by_cases hblank : c = ' ' ∨ c = '\t' ∨ c = '\r'
        · obtain ⟨blanks, comment, hgap, hblanks, hcomment⟩ := ih
          have hc : (c = ' ' || c = '\t' || c = '\r') = true := by simpa [or_assoc] using hblank
          rw [if_pos hc, List.take_succ_cons, List.drop_succ_cons]
          refine ⟨c :: blanks, comment, by rw [hgap]; rfl, ?_, hcomment⟩
          exact List.forall_mem_cons.2 ⟨hblank, hblanks⟩
        · have hc : ¬ (c = ' ' || c = '\t' || c = '\r') = true := by simpa [or_assoc] using hblank
          rw [if_neg hc]
          exact ⟨[], [], rfl, by simp [Blanks], Or.inl rfl⟩

/-! ### Pieces do not cross a line -/

theorem plain_takeWhile {p : Char → Bool} (hp : p '\n' = false) (cs : List Char) :
    '\n' ∉ cs.takeWhile p := by
  intro hmem
  have := List.all_eq_true.1 List.all_takeWhile _ hmem
  rw [hp] at this
  cases this

theorem take_length_takeWhile (p : Char → Bool) (cs : List Char) :
    cs.take (cs.takeWhile p).length = cs.takeWhile p :=
  (List.prefix_iff_eq_take.1 (List.takeWhile_prefix p)).symm

theorem escapePiece_plain (cs : List Char) :
    (escapePiece cs).1 ≠ .newline ∧ '\n' ∉ cs.take (escapePiece cs).2 := by
  have hfault : '\n' ∉ cs.take (cs.takeWhile fun c => !Text.isBlank c).length := by
    rw [take_length_takeWhile]
    exact plain_takeWhile (by decide) cs
  unfold escapePiece
  dsimp only
  split
  · rename_i c rest
    split
    · rename_i hc
      refine ⟨by simp, ?_⟩
      have hne : c ≠ '\n' := by
        rintro rfl
        exact absurd hc (by decide)
      simp [Ne.symm hne]
    · exact ⟨by simp, hfault⟩
  · exact ⟨by simp, hfault⟩

/-- A run of characters that are no line feeds, and the character behind it if that is
`c`. -/
theorem plain_take_run {p : Char → Bool} (hp : p '\n' = false) {c : Char} (hc : c ≠ '\n')
    {cs : List Char} {n : Nat}
    (hn : n = 0 ∨ n = 1 ∧ (cs.drop (cs.takeWhile p).length).head? = some c) :
    '\n' ∉ cs.take ((cs.takeWhile p).length + n) := by
  rw [List.take_add, take_length_takeWhile, List.mem_append, not_or]
  refine ⟨plain_takeWhile hp cs, fun hmem => ?_⟩
  rcases hn with rfl | ⟨rfl, h⟩
  · simp at hmem
  · obtain ⟨rest, hrest⟩ := List.head?_eq_some_iff.1 h
    rw [hrest] at hmem
    exact hc (List.mem_singleton.1 hmem).symm

theorem charFault_plain (cs : List Char) :
    (charFault cs).1 ≠ .newline ∧ '\n' ∉ cs.take (charFault cs).2 := by
  unfold charFault
  refine ⟨by simp, plain_take_run (c := '\'') (by decide) (by decide) ?_⟩
  by_cases h : (cs.drop (cs.takeWhile fun c => c ≠ '\'' && !Text.isBlank c).length).head?
      = some '\''
  · exact Or.inr ⟨if_pos h, h⟩
  · exact Or.inl (if_neg h)

theorem charPiece_plain (cs : List Char) :
    (charPiece cs).1 ≠ .newline ∧ '\n' ∉ cs.take (charPiece cs).2 := by
  unfold charPiece
  split
  · rename_i c rest
    split
    · rename_i hc
      refine ⟨by simp, ?_⟩
      have hne : c ≠ '\n' := by
        rintro rfl
        exact absurd hc (by decide)
      simp [Ne.symm hne]
    · exact charFault_plain _
  · rename_i c rest _
    split
    · rename_i hc
      simp only [Bool.and_eq_true, decide_eq_true_eq] at hc
      exact ⟨by simp, by simp [Ne.symm hc.1]⟩
    · exact charFault_plain _
  · exact charFault_plain _

theorem quotedPiece_plain (cs : List Char) :
    (quotedPiece cs).1 ≠ .newline ∧ '\n' ∉ cs.take (quotedPiece cs).2 := by
  unfold quotedPiece
  dsimp only
  split
  · rename_i h
    exact ⟨by simp, plain_take_run (by decide) (by decide) (Or.inr ⟨rfl, h⟩)⟩
  · refine ⟨by simp, ?_⟩
    rw [take_length_takeWhile]
    exact plain_takeWhile (by decide) cs

theorem signPiece_plain {cs : List Char} {short long : Sign} {second : Char}
    (hsecond : second ≠ '\n') :
    (signPiece cs short second long).1 ≠ .newline ∧
      '\n' ∉ cs.take (signPiece cs short second long).2 := by
  unfold signPiece
  split
  · rename_i h
    obtain ⟨rest, rfl⟩ := List.head?_eq_some_iff.1 h
    exact ⟨by simp, by simp [Ne.symm hsecond]⟩
  · simp

theorem numeralKind_ne_newline (digits : List Char) : numeralKind digits ≠ .newline := by
  rcases numeralKind_cases digits with ⟨v, hv⟩ | ⟨f, hf⟩
  · simp [hv]
  · simp [hf]

theorem ofWord_ne_newline (w : Word) : Token.Kind.ofWord w ≠ .newline := by
  rcases w with (k | t) | r | _ <;> simp [Token.Kind.ofWord, Token.Kind.ofReserved]

/-- A token that starts with another character than a line feed holds none. -/
theorem piece_plain {c : Char} (hc : c ≠ '\n') (cs : List Char) :
    (piece c cs).1 ≠ .newline ∧ '\n' ∉ cs.take (piece c cs).2 := by
  unfold piece
  split
  case h_1 => exact absurd rfl hc
  case h_7 => exact signPiece_plain (by decide)
  case h_8 =>
    split
    · rename_i h
      obtain ⟨rest, rfl⟩ := List.head?_eq_some_iff.1 h
      simp
    · exact signPiece_plain (by decide)
  case h_9 => exact signPiece_plain (by decide)
  case h_16 => exact escapePiece_plain cs
  case h_17 => exact charPiece_plain cs
  case h_18 => exact quotedPiece_plain cs
  case h_19 =>
    split
    · refine ⟨numeralKind_ne_newline _, ?_⟩
      rw [take_length_takeWhile]
      exact plain_takeWhile (by decide) cs
    · split
      · refine ⟨ofWord_ne_newline _, ?_⟩
        rw [take_length_takeWhile]
        exact plain_takeWhile (by decide) cs
      · simp
  all_goals simp

/-! ### Tokens in their places -/

/-- The place of a token behind some characters. -/
def placeBehind (front : List Char) (len : Nat) : Span :=
  ⟨lineBehind front, colBehind front, len⟩

/-- The characters `rest` behind the characters `front` are the tokens `ts` with layout
between them, and the tokens carry the places where they stand. -/
inductive Laid : List Char → List Char → List Token → Prop
  | stop {front gap : List Char} {t : Token} (hgap : Gap gap []) (hk : t.kind = .endOfInput)
      (hx : t.lexeme.toList = []) (hs : t.span = placeBehind (front ++ gap) 0) :
      Laid front gap [t]
  | step {front gap lexeme rest : List Char} {t : Token} {ts : List Token}
      (hgap : Gap gap (lexeme ++ rest)) (hk : t.kind ≠ .endOfInput)
      (hx : t.lexeme.toList = lexeme) (hne : lexeme ≠ [])
      (hline : t.kind = .newline ∧ lexeme = ['\n'] ∨ t.kind ≠ .newline ∧ '\n' ∉ lexeme)
      (hs : t.span = placeBehind (front ++ gap) lexeme.length)
      (h : Laid (front ++ gap ++ lexeme) rest ts) : Laid front (gap ++ (lexeme ++ rest)) (t :: ts)

/-- The scanner stands behind `front`. -/
structure At (s : Scanner) (front : List Char) : Prop where
  line : s.line = lineBehind front
  col : s.col = colBehind front

/-- Skipping layout moves the scanner along its line. -/
theorem At.skip {s : Scanner} {front : List Char} (hat : s.At front) (len : Nat) :
    (⟨s.line, s.col + layout false s.rest, len⟩ : Span) =
      placeBehind (front ++ s.rest.take (layout false s.rest)) len := by
  obtain ⟨hline, hcol⟩ := behind_append_plain front (layout_gap s.rest).plain
  rw [List.length_take, Nat.min_eq_left (layout_le false s.rest)] at hcol
  rw [placeBehind, hline, hcol, hat.line, hat.col]

/-- At the end of the text stands the end of input. -/
theorem At.laid_of_nil {s : Scanner} {front : List Char} (hat : s.At front)
    (h : s.rest.drop (layout false s.rest) = []) : Laid front s.rest [s.next.1] := by
  have htake : s.rest.take (layout false s.rest) = s.rest :=
    List.take_of_length_le (List.drop_eq_nil_iff.1 h)
  have hgap := layout_gap s.rest
  have hskip := hat.skip 0
  rw [htake] at hskip
  rw [h, htake] at hgap
  refine .stop hgap (next_of_nil h) ?_ ?_
  · simp only [next]
    rw [h]
    rfl
  · simp only [next]
    rw [h, ← hskip]

/-- The place that a token carries, and that the scanner then stands behind it. -/
theorem At.place_of_cons {s : Scanner} {front cs : List Char} {c : Char} (hat : s.At front)
    (h : s.rest.drop (layout false s.rest) = c :: cs) :
    s.next.1.span = placeBehind (front ++ s.rest.take (layout false s.rest))
        (c :: cs.take (piece c cs).2).length ∧
      s.next.2.At (front ++ s.rest.take (layout false s.rest) ++ c :: cs.take (piece c cs).2) := by
  have hskip := hat.skip (c :: cs.take (piece c cs).2).length
  generalize hfront : front ++ s.rest.take (layout false s.rest) = front' at hskip
  obtain ⟨hline, hcol, -⟩ := Span.mk.injEq .. ▸ hskip
  simp only [next]
  rw [h]
  dsimp only
  by_cases hc : c = '\n'
  · rw [if_pos hc]
    refine ⟨hskip, ?_⟩
    have hpiece : cs.take (piece c cs).2 = [] := by
      rw [hc]
      rfl
    obtain ⟨hline', hcol'⟩ := behind_append_newline front'
    rw [hpiece, hc]
    exact ⟨by rw [hline', ← hline], hcol'.symm⟩
  · rw [if_neg hc]
    refine ⟨hskip, ?_⟩
    have hplain : '\n' ∉ c :: cs.take (piece c cs).2 := by
      simp [Ne.symm hc, (piece_plain hc cs).2]
    obtain ⟨hline', hcol'⟩ := behind_append_plain front' hplain
    exact ⟨by rw [hline', ← hline], by rw [hcol', ← hcol]⟩

/-- A token that starts with a line feed is only that, and any other holds none. -/
theorem piece_line (c : Char) (cs : List Char) :
    (piece c cs).1 = .newline ∧ c :: cs.take (piece c cs).2 = ['\n'] ∨
      (piece c cs).1 ≠ .newline ∧ '\n' ∉ c :: cs.take (piece c cs).2 := by
  by_cases hc : c = '\n'
  · rw [hc]
    exact Or.inl ⟨rfl, rfl⟩
  · obtain ⟨hnewline, hplain⟩ := piece_plain hc cs
    exact Or.inr ⟨hnewline, by simp [Ne.symm hc, hplain]⟩

/-- The next token stands in its place in front of the others. -/
theorem At.laid_of_cons {s : Scanner} {front cs : List Char} {c : Char} {ts : List Token}
    (hat : s.At front) (h : s.rest.drop (layout false s.rest) = c :: cs)
    (htail : Laid (front ++ s.rest.take (layout false s.rest) ++ c :: cs.take (piece c cs).2)
      (cs.drop (piece c cs).2) ts) : Laid front s.rest (s.next.1 :: ts) := by
  obtain ⟨hk, hx, -⟩ := next_of_cons h
  have hcs : c :: cs.take (piece c cs).2 ++ cs.drop (piece c cs).2 = c :: cs := by
    rw [List.cons_append, List.take_append_drop]
  have hgap := layout_gap s.rest
  rw [h, ← hcs] at hgap
  have hlaid : Laid front (s.rest.take (layout false s.rest) ++
      (c :: cs.take (piece c cs).2 ++ cs.drop (piece c cs).2)) (s.next.1 :: ts) := by
    refine .step hgap ?_ ?_ (by simp) ?_ (hat.place_of_cons h).1 htail
    · exact hk ▸ (piece_genuine c cs).1
    · rw [hx, String.toList_ofList]
    · exact hk ▸ piece_line c cs
  rwa [hcs, ← h, List.take_append_drop] at hlaid

theorem laid_tokens {fuel : Nat} {s : Scanner} {front : List Char} (hat : s.At front)
    (hfuel : s.rest.length < fuel) : Laid front s.rest (tokens fuel s) := by
  induction fuel generalizing s front with
  | zero => omega
  | succ fuel ih =>
      simp only [tokens]
      cases h : s.rest.drop (layout false s.rest) with
      | nil =>
          rw [if_pos (next_of_nil h)]
          exact hat.laid_of_nil h
      | cons c cs =>
          obtain ⟨hk, -, hrest⟩ := next_of_cons h
          rw [if_neg (hk ▸ (piece_genuine c cs).1)]
          refine hat.laid_of_cons h (hrest ▸ ih (hat.place_of_cons h).2 ?_)
          -- The token takes its first character at least.
          have hlen := congrArg List.length h
          rw [List.length_drop, List.length_cons] at hlen
          rw [hrest, List.length_drop]
          omega

/-- **A text is its tokens in their places, with layout between them.** -/
theorem laid_ofSource (source : String) : Laid [] source.toList (Token.ofSource source) :=
  laid_tokens (s := .ofSource source) ⟨rfl, rfl⟩ (Nat.lt_succ_self _)

/-! ### The order of the places -/

/-- A place at or behind the end of some characters. -/
def Reaches (front : List Char) (s : Span) : Prop :=
  lineBehind front < s.line ∨ lineBehind front = s.line ∧ colBehind front ≤ s.col

theorem Reaches.of_append {front mid : List Char} {s : Span} (h : Reaches (front ++ mid) s) :
    Reaches front s := by
  by_cases hmid : '\n' ∈ mid
  · have hcount : 0 < mid.count '\n' := List.count_pos_iff.2 hmid
    have hline : lineBehind (front ++ mid) = lineBehind front + mid.count '\n' := by
      simp [lineBehind, Nat.add_assoc]
    rw [Reaches, hline] at h
    exact Or.inl (by omega)
  · obtain ⟨hline, hcol⟩ := behind_append_plain front hmid
    rw [Reaches, hline, hcol] at h
    rw [Reaches]
    omega

theorem reaches_placeBehind (front : List Char) (len : Nat) :
    Reaches front (placeBehind front len) :=
  Or.inr ⟨rfl, Nat.le_refl _⟩

namespace Laid

variable {front rest : List Char} {ts : List Token}

theorem reaches (h : Laid front rest ts) : ∀ t ∈ ts, Reaches front t.span := by
  induction h with
  | @stop front gap t hgap hk hx hs =>
      refine List.forall_mem_singleton.2 ?_
      rw [hs]
      exact (reaches_placeBehind _ _).of_append
  | @step front gap lexeme rest t ts hgap hk hx hne hline hs h ih =>
      refine List.forall_mem_cons.2 ⟨?_, fun u hu => (ih u hu).of_append.of_append⟩
      rw [hs]
      exact (reaches_placeBehind _ _).of_append

/-- A later token stands on a later line, or on the same line and behind. -/
theorem pairwise (h : Laid front rest ts) :
    ts.Pairwise fun t u => t.span.line < u.span.line ∨
      t.span.line = u.span.line ∧ t.span.col < u.span.col ∧
        t.span.col + t.span.len ≤ u.span.col := by
  induction h with
  | stop => exact List.pairwise_singleton ..
  | @step front gap lexeme rest t ts hgap hk hx hne hline hs h ih =>
      refine List.pairwise_cons.2 ⟨fun u hu => ?_, ih⟩
      have hreach := h.reaches u hu
      rw [hs]
      rcases hline with ⟨-, rfl⟩ | ⟨-, hplain⟩
      · obtain ⟨hline', -⟩ := behind_append_newline (front ++ gap)
        rw [Reaches, hline'] at hreach
        exact Or.inl (by simp only [placeBehind]; omega)
      · obtain ⟨hline', hcol'⟩ := behind_append_plain (front ++ gap) hplain
        have hpos : 0 < lexeme.length := List.length_pos_iff.2 hne
        rw [Reaches, hline', hcol'] at hreach
        simp only [placeBehind]
        omega

/-- What follows some of the tokens is laid in what follows in the text. -/
theorem suffix {us : List Token} (h : Laid front rest (us ++ ts)) (hts : ts ≠ []) :
    ∃ front' rest', front ++ rest = front' ++ rest' ∧ Laid front' rest' ts := by
  induction us generalizing front rest with
  | nil => exact ⟨front, rest, rfl, h⟩
  | cons u us ih =>
      rw [List.cons_append] at h
      generalize hvs : us ++ ts = vs at h
      cases h with
      | stop => exact absurd (List.append_eq_nil_iff.1 hvs).2 hts
      | @step _ gap lexeme rest' _ _ hgap hk hx hne hline hs h =>
          subst hvs
          obtain ⟨front', rest'', heq, hlaid⟩ := ih h
          exact ⟨front', rest'', by rw [← heq]; simp, hlaid⟩

/-- The first token stands behind some of the characters, and it is the end of input if
there are no more. -/
theorem head_place {t : Token} (h : Laid front rest (t :: ts)) :
    ∃ front' back, front ++ rest = front' ++ back ∧ t.span = placeBehind front' t.span.len ∧
      (t.kind = .endOfInput ↔ back = []) := by
  cases h with
  | stop hgap hk hx hs =>
      refine ⟨front ++ rest, [], by simp, ?_, iff_of_true hk rfl⟩
      rw [hs]
      rfl
  | @step _ gap lexeme rest' _ _ hgap hk hx hne hline hs h =>
      refine ⟨front ++ gap, lexeme ++ rest', by simp, ?_, iff_of_false hk (by simp [hne])⟩
      rw [hs]
      rfl

/-- Without a line end among them, tokens stand on one line. -/
theorem line_eq {us : List Token} (h : Laid front rest (us ++ ts))
    (hus : ∀ u ∈ us, u.kind ≠ .newline) : ∀ u ∈ us, u.span.line = lineBehind front := by
  induction us generalizing front rest with
  | nil => simp
  | cons u us ih =>
      obtain ⟨hu, hus⟩ := List.forall_mem_cons.1 hus
      rw [List.cons_append] at h
      generalize hvs : us ++ ts = vs at h
      cases h with
      | @stop _ gap _ hgap hk hx hs =>
          rw [(List.append_eq_nil_iff.1 hvs).1, List.forall_mem_singleton, hs]
          exact (behind_append_plain front hgap.plain).1
      | @step _ gap lexeme rest' _ _ hgap hk hx hne hline hs h =>
          subst hvs
          have hgap' := (behind_append_plain front hgap.plain).1
          refine List.forall_mem_cons.2 ⟨by rw [hs]; exact hgap', fun v hv => ?_⟩
          have hplain : '\n' ∉ lexeme := by
            rcases hline with ⟨hnewline, -⟩ | ⟨-, hplain⟩
            · exact absurd hnewline hu
            · exact hplain
          rw [ih h hus v hv, (behind_append_plain _ hplain).1, hgap']

end Laid

end Scanner

/-! ### Stretches of a text -/

/-- The positions of a text from `start` up to `stop`, which is not one of them. -/
structure Stretch where
  start : Nat
  stop : Nat

instance : Membership Nat Stretch where
  mem r i := r.start ≤ i ∧ i < r.stop

@[simp] theorem Stretch.mem_mk {start stop i : Nat} :
    i ∈ (⟨start, stop⟩ : Stretch) ↔ start ≤ i ∧ i < stop :=
  Iff.rfl

/-- A token is the characters of a stretch, and its span is the place of the stretch. -/
structure Token.Occupies (cs : List Char) (t : Token) (r : Stretch) : Prop where
  ordered : r.start ≤ r.stop
  inside : r.stop ≤ cs.length
  lexeme : t.lexeme.toList = (cs.drop r.start).take (r.stop - r.start)
  line : t.span.line = 1 + (cs.take r.start).count '\n'
  col : t.span.col = 1 + ((cs.take r.start).rtakeWhile (· ≠ '\n')).length
  len : t.span.len = r.stop - r.start

/-- A stretch is a comment: it starts with a number sign and goes up to the end of its
line. -/
structure Stretch.IsComment (cs : List Char) (r : Stretch) : Prop where
  hash : cs[r.start]? = some '#'
  plain : ∀ i ∈ r, cs[i]? ≠ some '\n'
  stops : r.stop = cs.length ∨ cs[r.stop]? = some '\n'

/-- A blank, or a character of a comment that stands at or behind `lo` and shares nothing
with the stretches. -/
def IsLayout (cs : List Char) (lo : Nat) (rs : List Stretch) (i : Nat) : Prop :=
  cs[i]? = some ' ' ∨ cs[i]? = some '\t' ∨ cs[i]? = some '\r' ∨
    ∃ c : Stretch, i ∈ c ∧ lo ≤ c.start ∧ c.IsComment cs ∧ ∀ j ∈ c, ∀ r ∈ rs, j ∉ r

/-- From the position `lo` on a text is divided into the tokens, which take the stretches,
and layout. -/
structure Partition (cs : List Char) (lo : Nat) (ts : List Token) (rs : List Stretch) :
    Prop where
  /-- Each token is the characters of its stretch. -/
  occupies : List.Forall₂ (Token.Occupies cs) ts rs
  behind : ∀ r ∈ rs, lo ≤ r.start
  /-- The stretches are disjoint and in order, and only the last can be empty. -/
  increasing : rs.Pairwise fun r r' => r.start < r.stop ∧ r.stop ≤ r'.start
  /-- A character in none of the stretches is layout. -/
  layout : ∀ i, lo ≤ i → i < cs.length → (∀ r ∈ rs, i ∉ r) → IsLayout cs lo rs i
  /-- Only line ends hold a line feed. -/
  plain : ∀ t ∈ ts, t.kind ≠ .newline → '\n' ∉ t.lexeme.toList
  /-- The last token, and only that, is the end of input, and it is empty. -/
  ends : ∃ init eof rs', ts = init ++ [eof] ∧ rs = rs' ++ [⟨cs.length, cs.length⟩] ∧
    eof.kind = .endOfInput ∧ ∀ t ∈ init, t.kind ≠ .endOfInput

theorem Text.Comment.isComment {comment rest : List Char} (front : List Char)
    (h : Text.Comment comment) (hend : Text.AtLineEnd rest) :
    (⟨front.length, front.length + comment.length⟩ : Stretch).IsComment
      (front ++ (comment ++ rest)) := by
  refine ⟨?_, fun i hi hnl => ?_, ?_⟩
  · obtain ⟨text, rfl, -⟩ := h
    simp
  · rw [Stretch.mem_mk] at hi
    rw [List.getElem?_append_right hi.1, List.getElem?_append_left (by omega)] at hnl
    exact h.plain (List.mem_of_getElem? hnl)
  · rcases hend with rfl | ⟨rest', rfl⟩
    · exact Or.inl (by simp)
    · refine Or.inr ?_
      rw [← List.append_assoc, List.getElem?_append_right (by simp)]
      simp

/-- The characters of a gap are layout, if all stretches stand behind it. -/
theorem Text.Gap.isLayout {front gap rest : List Char} {rs : List Stretch} {i : Nat}
    (hgap : Text.Gap gap rest) (hrs : ∀ r ∈ rs, front.length + gap.length ≤ r.start)
    (hlo : front.length ≤ i) (hhi : i < front.length + gap.length) :
    IsLayout (front ++ (gap ++ rest)) front.length rs i := by
  obtain ⟨blanks, comment, rfl, hblanks, hcomment⟩ := hgap
  by_cases hi : i - front.length < blanks.length
  · have hget : (front ++ (blanks ++ comment ++ rest))[i]? = some blanks[i - front.length] := by
      rw [List.getElem?_append_right hlo, List.append_assoc, List.getElem?_append_left hi,
        List.getElem?_eq_getElem hi]
    rw [IsLayout, hget]
    rcases hblanks _ (List.getElem_mem hi) with h | h | h <;> simp [h]
  · -- The rest of the gap is the comment.
    rw [List.length_append] at hhi hrs
    rcases hcomment with rfl | ⟨hcomment, hend⟩
    · rw [List.length_nil] at hhi
      omega
    have hstretch := hcomment.isComment (front ++ blanks) hend
    rw [List.length_append, List.append_assoc, ← List.append_assoc blanks] at hstretch
    refine Or.inr (Or.inr (Or.inr ⟨_, ?_, ?_, hstretch, ?_⟩))
    · exact Stretch.mem_mk.2 (by omega)
    · exact Nat.le_add_right ..
    · intro j hj r hr hjr
      have := hrs r hr
      have := hjr.1
      rw [Stretch.mem_mk] at hj
      omega

/-- Layout behind a stretch is layout also with the stretch in view. -/
theorem IsLayout.cons {cs : List Char} {lo i : Nat} {r : Stretch} {rs : List Stretch}
    (h : IsLayout cs r.stop rs i) (hlo : lo ≤ r.stop) : IsLayout cs lo (r :: rs) i := by
  rcases h with h | h | h | ⟨c, hi, hc, hcomment, hrs⟩
  · exact Or.inl h
  · exact Or.inr (Or.inl h)
  · exact Or.inr (Or.inr (Or.inl h))
  · refine Or.inr (Or.inr (Or.inr ⟨c, hi, hlo.trans hc, hcomment, fun j hj => ?_⟩))
    refine List.forall_mem_cons.2 ⟨fun hr => ?_, hrs j hj⟩
    exact absurd (hc.trans hj.1) (Nat.not_le_of_lt hr.2)

/-- A token behind `front` takes the stretch behind `front`. -/
theorem Token.occupies_of_place {front lexeme : List Char} {t : Token}
    (hx : t.lexeme.toList = lexeme) (hs : t.span = Scanner.placeBehind front lexeme.length)
    (rest : List Char) :
    t.Occupies (front ++ (lexeme ++ rest)) ⟨front.length, front.length + lexeme.length⟩ where
  ordered := Nat.le_add_right ..
  inside := by simp
  lexeme := by simp [hx]
  line := by simp [hs, Scanner.placeBehind, Text.lineBehind]
  col := by simp [hs, Scanner.placeBehind, Text.colBehind]
  len := by simp [hs, Scanner.placeBehind]

namespace Scanner.Laid

/-- Laid tokens divide the text that they are laid in. -/
theorem partition {front rest : List Char} {ts : List Token} (h : Laid front rest ts) :
    ∃ rs, Partition (front ++ rest) front.length ts rs := by
  induction h with
  | @stop front gap t hgap hk hx hs =>
      have hocc := Token.occupies_of_place hx hs []
      simp only [List.length_append, List.length_nil, List.append_nil, Nat.add_zero] at hocc
      refine ⟨[⟨front.length + gap.length, front.length + gap.length⟩], ?_, ?_, ?_, ?_, ?_, ?_⟩
      · exact .cons hocc .nil
      · simp
      · simp
      · intro i hlo hhi _
        rw [List.length_append] at hhi
        simpa using hgap.isLayout (by simp) hlo hhi
      · simp [hx]
      · exact ⟨[], t, [], rfl, by simp, hk, by simp⟩
  | @step front gap lexeme rest t ts hgap hk hx hne hline hs h ih =>
      obtain ⟨rs, ih⟩ := ih
      have hocc := Token.occupies_of_place hx hs rest
      have hpos : 0 < lexeme.length := List.length_pos_iff.2 hne
      simp only [List.append_assoc, List.length_append, ← Nat.add_assoc] at hocc ih
      have hbehind := ih.behind
      refine ⟨⟨front.length + gap.length, front.length + gap.length + lexeme.length⟩ :: rs,
        ?_, ?_, ?_, ?_, ?_, ?_⟩
      · exact .cons hocc ih.occupies
      · refine List.forall_mem_cons.2 ⟨Nat.le_add_right .., fun r hr => ?_⟩
        have := hbehind r hr
        omega
      · refine List.pairwise_cons.2 ⟨fun r hr => ⟨?_, hbehind r hr⟩, ih.increasing⟩
        exact Nat.lt_add_of_pos_right hpos
      · intro i hlo hhi hout
        obtain ⟨hfirst, hrest⟩ := List.forall_mem_cons.1 hout
        rw [Stretch.mem_mk] at hfirst
        -- The position is in the gap or behind the token.
        by_cases hi : i < front.length + gap.length
        · refine hgap.isLayout (List.forall_mem_cons.2 ⟨Nat.le_refl _, fun r hr => ?_⟩) hlo hi
          have := hbehind r hr
          omega
        · exact (ih.layout i (by omega) hhi hrest).cons (by simp only; omega)
      · refine List.forall_mem_cons.2 ⟨fun hnl => ?_, ih.plain⟩
        rcases hline with ⟨hkind, -⟩ | ⟨-, hplain⟩
        · exact absurd hkind hnl
        · rwa [hx]
      · obtain ⟨init, eof, rs', rfl, rfl, heof, hinit⟩ := ih.ends
        exact ⟨t :: init, eof, _ :: rs', rfl, rfl, heof, List.forall_mem_cons.2 ⟨hk, hinit⟩⟩

end Scanner.Laid

/-- **The tokens of a text divide it.**  They take disjoint stretches of the text, in order,
and carry the places of these; every character between them is a blank or part of a
comment; only line ends hold a line feed; and the end of input is the empty stretch at the
end. -/
theorem Token.partition_ofSource (source : String) :
    ∃ rs, Partition source.toList 0 (Token.ofSource source) rs :=
  (Scanner.laid_ofSource source).partition

end Pseudocode

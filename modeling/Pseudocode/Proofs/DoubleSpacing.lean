/-
A text with every line end doubled.

The lines of a typed program each get one more line end.  Nothing that is read depends on it:
no token looks past the end of its line, so on both sides of a line end the tokens are the same
as before, also where they are malformed, and the grammar takes any number of line ends for
one.  So the double-spaced text of a program is read as the same program, but for the lines it
stands on, or refused for the same cause.
-/
import Pseudocode.Proofs.PlaceIndependence
import Pseudocode.Proofs.Relayout

namespace Pseudocode

/-! ### Doubling line ends -/

namespace Text

/-- The characters with every line feed written twice. -/
def doubleSpace (cs : List Char) : List Char :=
  cs.flatMap fun c => if c = '\n' then ['\n', '\n'] else [c]

theorem doubleSpace_append (cs ds : List Char) :
    doubleSpace (cs ++ ds) = doubleSpace cs ++ doubleSpace ds :=
  List.flatMap_append

theorem doubleSpace_newline (cs : List Char) :
    doubleSpace ('\n' :: cs) = '\n' :: '\n' :: doubleSpace cs :=
  rfl

theorem doubleSpace_cons {c : Char} (hc : c ≠ '\n') (cs : List Char) :
    doubleSpace (c :: cs) = c :: doubleSpace cs := by
  rw [doubleSpace, List.flatMap_cons, if_neg hc]
  rfl

theorem doubleSpace_plain {cs : List Char} (h : '\n' ∉ cs) : doubleSpace cs = cs := by
  induction cs with
  | nil => rfl
  | cons c cs ih =>
      rw [List.mem_cons, not_or] at h
      rw [doubleSpace_cons (Ne.symm h.1), ih h.2]

/-- Up to the first line feed nothing has moved. -/
theorem split_doubleSpace {cs : List Char} {n : Nat} (h : '\n' ∉ cs.take n) :
    (doubleSpace cs).take n = cs.take n ∧
      (doubleSpace cs).drop n = doubleSpace (cs.drop n) := by
  have hsplit : doubleSpace cs = cs.take n ++ doubleSpace (cs.drop n) := by
    rw [← doubleSpace_plain h, ← doubleSpace_append, List.take_append_drop]
  by_cases hn : n ≤ cs.length
  · have hlength : (cs.take n).length = n := List.length_take_of_le hn
    rw [hsplit, List.take_left' hlength, List.drop_left' hlength]
    exact ⟨rfl, rfl⟩
  · have hle : cs.length ≤ n := Nat.le_of_not_le hn
    rw [List.take_of_length_le hle] at h
    rw [doubleSpace_plain h, List.drop_of_length_le hle]
    exact ⟨rfl, rfl⟩

/-- Layout stays layout. -/
theorem Gap.doubleSpace {gap rest : List Char} (h : Gap gap rest) :
    Gap gap (doubleSpace rest) := by
  obtain ⟨blanks, comment, hgap, hblanks, hcomment⟩ := h
  refine ⟨blanks, comment, hgap, hblanks, hcomment.imp_right fun h => ⟨h.1, ?_⟩⟩
  rcases h.2 with rfl | ⟨rest, rfl⟩
  · exact Or.inl rfl
  · exact Or.inr ⟨_, doubleSpace_newline rest⟩

end Text

namespace Scanner

open Grammar Token Text

/-! ### Pieces see nothing behind their line -/

/-- What stands behind the next line end makes no difference. -/
def Lined {α : Type} (f : List Char → α) : Prop :=
  ∀ line rest rest', '\n' ∉ line → f (line ++ '\n' :: rest) = f (line ++ '\n' :: rest')

theorem takeWhile_line {p : Char → Bool} (hp : p '\n' = false) (line rest : List Char) :
    (line ++ '\n' :: rest).takeWhile p = line.takeWhile p := by
  induction line with
  | nil => simp [hp]
  | cons c line ih =>
      rw [List.cons_append, List.takeWhile_cons, List.takeWhile_cons, ih]

/-- Neither does a run of characters that a line end stops, nor the character behind it. -/
theorem head?_drop_line {p : Char → Bool} (line rest : List Char) :
    ((line ++ '\n' :: rest).drop (line.takeWhile p).length).head? =
      ((line ++ ['\n']).drop (line.takeWhile p).length).head? := by
  have hle : (line.takeWhile p).length ≤ line.length := (List.takeWhile_prefix p).length_le
  rw [List.drop_append_of_le_length hle, List.drop_append_of_le_length hle, List.head?_append,
    List.head?_append, List.head?_cons, List.head?_cons]

theorem lined_const {α : Type} (a : α) : Lined fun _ => a :=
  fun _ _ _ _ => rfl

/-- Pieces that look at the next character only. -/
theorem lined_head? : Lined List.head? := by
  intro line rest rest' _
  rw [List.head?_append, List.head?_append, List.head?_cons, List.head?_cons]

theorem lined_signPiece (short : Sign) (second : Char) (long : Sign) :
    Lined (signPiece · short second long) := by
  intro line rest rest' hline
  simp only [signPiece, lined_head? line rest rest' hline]

theorem lined_run {p : Char → Bool} (hp : p '\n' = false) (kind : List Char → Token.Kind) :
    Lined fun cs => (kind (cs.takeWhile p), (cs.takeWhile p).length) := by
  intro line rest rest' _
  simp only [takeWhile_line hp]

theorem lined_charFault : Lined charFault := by
  intro line rest rest' _
  simp only [charFault, takeWhile_line (p := fun c => c ≠ '\'' && !Text.isBlank c) (by decide)]
  rw [head?_drop_line line rest, head?_drop_line line rest']

theorem lined_quotedPiece : Lined quotedPiece := by
  intro line rest rest' _
  simp only [quotedPiece, takeWhile_line (p := fun c => c ≠ '"' && c ≠ '\n') (by decide)]
  rw [head?_drop_line line rest, head?_drop_line line rest']

/-- A piece that is a fault, or complete on its line whatever follows. -/
theorem lined_of_closed {f fault : List Char → Token.Kind × Nat} (hfault : Lined fault)
    (h : ∀ cs, f cs = fault cs ∨
      ∃ front back, cs = front ++ back ∧ '\n' ∉ front ∧ ∀ rest, f (front ++ rest) = f cs) :
    Lined f := by
  -- What is complete in front of one rest is part of the line, so it is complete in front of all.
  have hclosed : ∀ line rest rest', (∃ front back, line ++ '\n' :: rest = front ++ back ∧
      '\n' ∉ front ∧ ∀ rest'', f (front ++ rest'') = f (line ++ '\n' :: rest)) →
      f (line ++ '\n' :: rest) = f (line ++ '\n' :: rest') := by
    rintro line rest rest' ⟨front, back, hsplit, hfront, hsame⟩
    rcases List.append_eq_append_iff.1 hsplit with ⟨mid, rfl, hmid⟩ | ⟨mid, rfl, -⟩
    · cases mid with
      | nil => rw [← hsame ('\n' :: rest'), List.append_nil]
      | cons c mid =>
          obtain ⟨rfl, -⟩ := List.cons.inj hmid
          simp at hfront
    · rw [List.append_assoc, hsame, ← hsame (mid ++ '\n' :: rest'), List.append_assoc]
  intro line rest rest' hline
  rcases h (line ++ '\n' :: rest) with hfirst | hfirst
  · rcases h (line ++ '\n' :: rest') with hsecond | hsecond
    · rw [hfirst, hsecond, hfault line rest rest' hline]
    · exact (hclosed line rest' rest hsecond).symm
  · exact hclosed line rest rest' hfirst

theorem lined_escapePiece : Lined escapePiece := by
  have hfault : Lined fun cs : List Char =>
      ((.fault .invalidEscape, (cs.takeWhile fun c => !Text.isBlank c).length) :
        Token.Kind × Nat) :=
    lined_run (by decide) fun _ => .fault .invalidEscape
  refine lined_of_closed hfault fun cs => ?_
  by_cases hclosed : ∃ c rest, cs = c :: ']' :: rest ∧ Text.isEscapable c = true
  · obtain ⟨c, rest, rfl, hc⟩ := hclosed
    have hne : c ≠ '\n' := by
      rintro rfl
      exact absurd hc (by decide)
    exact Or.inr ⟨[c, ']'], rest, rfl, by simp [Ne.symm hne], by simp [escapePiece, hc]⟩
  · exact Or.inl (escapePiece_eq_fault fun c rest hcs =>
      Bool.eq_false_iff.2 fun hc => hclosed ⟨c, rest, hcs, hc⟩)

/-- A CHAR is a character in brackets, or another one without, or it is malformed. -/
theorem charPiece_cases (cs : List Char) :
    (∃ c rest, cs = '[' :: c :: ']' :: '\'' :: rest ∧ Text.isEscapable c = true) ∨
      (∃ c rest, cs = c :: '\'' :: rest ∧ c ≠ '\n' ∧ Text.isEscapable c = false) ∨
      charPiece cs = charFault cs := by
  unfold charPiece
  split
  · split
    · rename_i c rest hc
      exact Or.inl ⟨c, rest, rfl, hc⟩
    · exact Or.inr (Or.inr rfl)
  · split
    · rename_i c rest _ hc
      exact Or.inr (Or.inl ⟨c, rest, rfl, by simpa using hc⟩)
    · exact Or.inr (Or.inr rfl)
  · exact Or.inr (Or.inr rfl)

theorem lined_charPiece : Lined charPiece := by
  refine lined_of_closed lined_charFault fun cs => ?_
  rcases charPiece_cases cs with ⟨c, rest, rfl, hc⟩ | ⟨c, rest, rfl, hc, he⟩ | hfault
  · have hne : c ≠ '\n' := by
      rintro rfl
      exact absurd hc (by decide)
    exact Or.inr ⟨['[', c, ']', '\''], rest, rfl, by simp [Ne.symm hne], by simp [charPiece, hc]⟩
  · refine Or.inr ⟨[c, '\''], rest, rfl, by simp [Ne.symm hc], fun back => ?_⟩
    exact (charPiece_unbracketed hc he back).trans (charPiece_unbracketed hc he rest).symm
  · exact Or.inl hfault

/-- **A token does not depend on what stands behind its line.** -/
theorem lined_piece (c : Char) : Lined (piece c) := by
  unfold piece
  split
  case h_7 => exact lined_signPiece _ _ _
  case h_8 =>
    intro line rest rest' hline
    have hsign := lined_signPiece (.compare .lt) '=' (.compare .le) line rest rest' hline
    dsimp only at hsign ⊢
    rw [lined_head? line rest rest' hline, hsign]
  case h_9 => exact lined_signPiece _ _ _
  case h_16 => exact lined_escapePiece
  case h_17 => exact lined_charPiece
  case h_18 => exact lined_quotedPiece
  case h_19 =>
    split
    · exact lined_run (by decide) fun digits => numeralKind (c :: digits)
    · split
      · exact lined_run (by decide) fun word => .ofWord (.classify (String.ofList (c :: word)))
      · exact lined_const _
  all_goals exact lined_const _

theorem piece_doubleSpace (c : Char) (cs : List Char) : piece c (doubleSpace cs) = piece c cs := by
  by_cases hcs : '\n' ∈ cs
  · obtain ⟨line, rest, rfl, hline⟩ := List.eq_append_cons_of_mem hcs
    rw [doubleSpace_append, doubleSpace_plain hline, doubleSpace_newline]
    exact lined_piece c line _ _ hline
  · rw [doubleSpace_plain hcs]

/-! ### The tokens of a double-spaced text -/

/-- The same tokens are cut off, with every line end twice. -/
theorem matches_doubleSpace {cs : List Char} {ts : List Token} (h : Cut cs ts) :
    ∀ {us : List Token}, Cut (doubleSpace cs) us → (∀ t ∈ ts, t.Regular) →
      (∀ u ∈ us, u.Regular) → Matches ts us := by
  induction h with
  | @stop cs t hcs hk =>
      intro us h' hts hus
      have hplain := (layout_gap cs).plain
      rw [List.take_of_length_le (List.drop_eq_nil_iff.1 hcs)] at hplain
      rw [doubleSpace_plain hplain] at h'
      exact matches_stop hcs hk (hts t (by simp)) h' hus
  | @step cs rest c t ts hcs hk hx h ih =>
      intro us h' hts hus
      have hgap := layout_gap cs
      have hsplit : cs = cs.take (layout false cs) ++ c :: rest := by
        rw [← hcs, List.take_append_drop]
      rw [hcs] at hgap
      rw [hsplit, doubleSpace_append, doubleSpace_plain hgap.plain] at h'
      replace h' := h'.gap hgap.doubleSpace
      obtain ⟨-, hts'⟩ := List.forall_mem_cons.1 hts
      by_cases hc : c = '\n'
      · subst hc
        rw [doubleSpace_newline] at h'
        obtain ⟨u, us, rfl, hu, h'⟩ := h'.single rfl rfl
        obtain ⟨u', us, rfl, hu', h'⟩ := h'.single rfl rfl
        have hlexeme : t.lexeme = u.lexeme := by
          rw [(hts t (by simp)).1 hk, (hus u (by simp)).1 hu]
        refine .newline ⟨hk.trans hu.symm, hlexeme⟩ hk ?_
        rw [skipNewlines_newline hu']
        exact (ih h' hts' fun u hu => hus u (by simp [hu])).loose
      · obtain ⟨hnewline, hplain⟩ := piece_plain hc rest
        obtain ⟨htake, hdrop⟩ := split_doubleSpace hplain
        have hlayout : layout false (c :: rest) = 0 := hcs ▸ layout_drop cs
        rw [doubleSpace_cons hc] at h'
        have hpiece : piece c (doubleSpace rest) = ((piece c rest).1, (piece c rest).2) :=
          piece_doubleSpace c rest
        obtain ⟨u, us, rfl, ⟨hu, hx'⟩, h'⟩ := h'.piece (layout_cons_eq_zero hlayout) hpiece
        rw [htake] at hx'
        rw [hdrop] at h'
        exact .cons ⟨hk.trans hu.symm, hx.trans hx'.symm⟩ (hk ▸ hnewline)
          (ih h' hts' fun u hu => hus u (by simp [hu]))

end Scanner

/-! ### Runs of double-spaced texts -/

/-- The text with every line end doubled. -/
def Text.doubleSpaced (source : String) : String :=
  String.ofList (doubleSpace source.toList)

namespace Program

open Token Scanner Grammar

/-- **A double-spaced text is read as the text is**, but for the places, or refused for the
same cause. -/
theorem parse_doubleSpaced (source : String) :
    Parallel (fun p q => p.erase = q.erase) (parse source)
      (parse (Text.doubleSpaced source)) := by
  have hcut := cut_ofSource (Text.doubleSpaced source)
  rw [Text.doubleSpaced, String.toList_ofList] at hcut
  have hmatches : Matches (Token.ofSource source) (Token.ofSource (Text.doubleSpaced source)) :=
    matches_doubleSpace (cut_ofSource source) hcut (laid_ofSource source).regular
      (laid_ofSource _).regular
  exact ofTokens_parallel (hmatches.resolveNames {})

/-- Double-spaced, a text runs in the same way. -/
theorem run_doubleSpaced {ι σ : Type} [LineSource ι] [ByteSink σ] (fuel : Nat)
    (source : String) :
    Alike Stop.cause? (run fuel (Text.doubleSpaced source) : Run ι σ Unit) (run fuel source) := by
  rcases (parse_doubleSpaced source).cases with
    ⟨p, q, hp, hq, herase⟩ | ⟨e, e', he, he', hcause⟩
  · exact run_alike hq hp herase.symm fuel
  · unfold run
    rw [he, he']
    exact .bind (Run.inspect_alike fun _ => .error hcause.symm) fun _ => .refl _

end Program

end Pseudocode

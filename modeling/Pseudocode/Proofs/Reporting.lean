/-
What the report of an error shows.

A failed run ends with an error that stands at a stretch between two tokens of the text, and
its report shows the line of the text that holds them, with a marker under the stretch.  The
one exception is the end of input on a last line without characters: such a line is no line
of the text, and the report is the headline alone.

The lines that a report looks at are those that end with a line feed or with the text.  They
are compared here with the text split at its line feeds, where behind the last line feed
there is always one more part, which may be empty.
-/
import Pseudocode.Proofs.Blame
import Pseudocode.Proofs.Recovery

namespace Pseudocode

namespace Text

/-! ### Lines -/

/-- A property of all texts, line by line. -/
theorem line_induction {motive : List Char → Prop} (last : ∀ line, '\n' ∉ line → motive line)
    (step : ∀ line rest, '\n' ∉ line → motive rest → motive (line ++ '\n' :: rest)) :
    ∀ cs, motive cs := by
  intro cs
  induction hn : cs.length using Nat.strong_induction_on generalizing cs with
  | _ n ih =>
      by_cases hcs : '\n' ∈ cs
      · obtain ⟨line, rest, rfl, hline⟩ := List.eq_append_cons_of_mem hcs
        refine step line rest hline (ih rest.length ?_ rest rfl)
        rw [List.length_append, List.length_cons] at hn
        omega
      · exact last cs hcs

theorem lines_append {line : List Char} (h : '\n' ∉ line) (rest : List Char) :
    lines (line ++ '\n' :: rest) = line :: lines rest := by
  induction line with
  | nil => rfl
  | cons c line ih =>
      rw [List.mem_cons, not_or] at h
      rw [List.cons_append, lines, ih h.2]
      exact fun hc => h.1 hc.symm

theorem lines_plain {line : List Char} (h : '\n' ∉ line) :
    lines line = if line = [] then [] else [line] := by
  induction line with
  | nil => rfl
  | cons c line ih =>
      rw [List.mem_cons, not_or] at h
      rw [lines, ih h.2]
      · by_cases hline : line = [] <;> simp [hline]
      · exact fun hc => h.1 hc.symm

/-- The line that goes on on both sides of a position. -/
def lineAround (front back : List Char) : List Char :=
  front.rtakeWhile (· ≠ '\n') ++ back.takeWhile (· ≠ '\n')

theorem lineAround_append (line front back : List Char) :
    lineAround (line ++ '\n' :: front) back = lineAround front back := by
  rw [lineAround, lineAround, rtakeWhile_append_sep]

/-- On the first line, the text is that line, or that line and more behind a line feed. -/
theorem lineAround_first {front : List Char} (h : '\n' ∉ front) (back : List Char) :
    '\n' ∉ lineAround front back ∧ (lineAround front back = front ++ back ∨
      back ≠ [] ∧ ∃ rest, front ++ back = lineAround front back ++ '\n' :: rest) := by
  have hfront : front.rtakeWhile (· ≠ '\n') = front := by
    rw [List.rtakeWhile_eq_self_iff]
    intro c hc
    exact decide_eq_true fun hnl => h (hnl ▸ hc)
  rw [lineAround, hfront]
  by_cases hback : '\n' ∈ back
  · obtain ⟨line, rest, rfl, hline⟩ := List.eq_append_cons_of_mem hback
    have hpos : ∀ c ∈ line, decide (c ≠ '\n') = true :=
      fun c hc => decide_eq_true fun hnl => hline (hnl ▸ hc)
    have htake : (line ++ '\n' :: rest).takeWhile (· ≠ '\n') = line := by
      rw [List.takeWhile_append_of_pos hpos]
      simp
    rw [htake]
    exact ⟨by simp [h, hline], Or.inr ⟨by simp, rest, by simp⟩⟩
  · have htake : back.takeWhile (· ≠ '\n') = back := by
      rw [List.takeWhile_eq_self_iff]
      intro c hc
      exact decide_eq_true fun hnl => hback (hnl ▸ hc)
    rw [htake]
    exact ⟨by simp [h, hback], Or.inl rfl⟩

/-- Behind `front`, the text split at its line feeds has the line around that position. -/
theorem getElem?_splitOn (front back : List Char) :
    ((front ++ back).splitOn '\n')[front.count '\n']? = some (lineAround front back) := by
  induction front using line_induction with
  | last front hfront =>
      obtain ⟨hplain, hback⟩ := lineAround_first hfront back
      rw [List.count_eq_zero_of_not_mem hfront]
      rcases hback with hback | ⟨-, rest, hback⟩
      · rw [← hback, List.splitOn_eq_singleton hplain]
        rfl
      · rw [hback, List.splitOn_append_cons_self_of_not_mem hplain]
        rfl
  | step line front hline ih =>
      rw [count_append_sep hline, List.append_assoc, List.cons_append,
        List.splitOn_append_cons_self_of_not_mem hline, List.getElem?_cons_succ, ih,
        lineAround_append]

/-- The lines of a text lack the last part if that has no characters. -/
theorem getElem?_lines (front back : List Char) :
    (lines (front ++ back))[front.count '\n']? =
      if back = [] ∧ lineAround front back = [] then none else some (lineAround front back) := by
  induction front using line_induction with
  | last front hfront =>
      obtain ⟨hplain, hback⟩ := lineAround_first hfront back
      rw [List.count_eq_zero_of_not_mem hfront]
      rcases hback with hback | ⟨hne, rest, hback⟩
      · rw [← hback, lines_plain hplain]
        by_cases hnil : lineAround front back = []
        · have hback' : back = [] := (List.append_eq_nil_iff.1 (hback ▸ hnil)).2
          rw [if_pos hnil, if_pos ⟨hback', hnil⟩]
          rfl
        · rw [if_neg hnil, if_neg fun h => hnil h.2]
          rfl
      · rw [hback, lines_append hplain, if_neg fun h => hne h.1]
        rfl
  | step line front hline ih =>
      rw [count_append_sep hline, List.append_assoc, List.cons_append, lines_append hline,
        List.getElem?_cons_succ, ih, lineAround_append]

/-- A line of a text has no line feed that could be dropped from its end. -/
theorem dropLineEnd_plain {line : List Char} (h : '\n' ∉ line) :
    dropLineEnd line = line.rdropWhile (· = '\r') := by
  have hcongr : ∀ cs : List Char, '\n' ∉ cs →
      cs.dropWhile (fun c => c = '\n' || c = '\r') = cs.dropWhile (· = '\r') := by
    intro cs hcs
    induction cs with
    | nil => rfl
    | cons c cs ih =>
        rw [List.mem_cons, not_or] at hcs
        by_cases hc : c = '\r'
        · rw [List.dropWhile_cons_of_pos (by simp [hc]), List.dropWhile_cons_of_pos (by simp [hc]),
            ih hcs.2]
        · rw [List.dropWhile_cons_of_neg (by simp [hc, Ne.symm hcs.1]),
            List.dropWhile_cons_of_neg (by simp [hc])]
  rw [dropLineEnd, List.rdropWhile, hcongr _ (by simpa using h)]

theorem lineAround_plain (front back : List Char) : '\n' ∉ lineAround front back := by
  rw [lineAround, List.mem_append, not_or]
  refine ⟨fun h => ?_, Scanner.plain_takeWhile (by decide) back⟩
  have := List.mem_rtakeWhile_imp h
  simp at this

end Text

namespace Diagnostic

open Text

/-! ### Reports -/

/-- The source line behind some of the characters. -/
theorem sourceLine?_behind {source : String} {front back : List Char}
    (h : source.toList = front ++ back) :
    sourceLine? source (lineBehind front) =
      if back = [] ∧ lineAround front back = [] then none
      else some ((lineAround front back).rdropWhile (· = '\r')) := by
  have hline : lineBehind front ≠ 0 := by
    rw [lineBehind]
    omega
  have hindex : lineBehind front - 1 = front.count '\n' := by
    rw [lineBehind]
    omega
  rw [sourceLine?, if_neg hline, hindex, h, getElem?_lines]
  by_cases hempty : back = [] ∧ lineAround front back = []
  · rw [if_pos hempty, if_pos hempty]
    rfl
  · rw [if_neg hempty, if_neg hempty, Option.map_some,
      dropLineEnd_plain (lineAround_plain front back)]

/-- The marker starts at the column and has at least one character; as far as it can, it
stays on the line. -/
theorem marker_eq (span : Span) (width : Nat) :
    marker span width = String.ofList (List.replicate (span.col - 1) ' ' ++
      List.replicate (max 1 (min span.len (width - (span.col - 1)))) '^') := by
  have hlen : min (max span.len 1) (max (width - (span.col - 1)) 1) =
      max 1 (min span.len (width - (span.col - 1))) := by omega
  rw [marker, hlen]

/-- The report with a source line is longer than the headline. -/
theorem report_eq_headline_iff {d : Diagnostic} {source : String} :
    d.report source = d.headline ↔ sourceLine? source d.span.line = none := by
  unfold report
  cases sourceLine? source d.span.line with
  | none => simp
  | some line =>
      refine iff_of_false (fun h => ?_) (by simp)
      have hlen := congrArg String.length h
      simp only [String.length_append] at hlen
      have hnl : "\n".length = 1 := rfl
      omega

end Diagnostic

namespace Program

open Text Diagnostic

variable {ι σ : Type} [LineSource ι] [ByteSink σ]

/-- What a run fails with stands at a stretch between two tokens of the text. -/
theorem run_covers {fuel : Nat} {source : String} {m m' : Machine ι σ} {e : Error}
    (h : run fuel source m = .error (.failed e) m') :
    Token.Covers (Token.ofSource source) e.span := by
  have hparse : Blames (Token.Covers (Token.ofSource source)) (parse source) := by
    intro e' he'
    obtain ⟨before, t, after, hts, hspan, -⟩ := parse_eq_error he'
    rw [hspan]
    exact Token.covers_of_mem (by simp [hts])
  have hrun := run_blames (ι := ι) (σ := σ) fuel hparse (fun p hp => covers_of_parse hp) m trivial
  rw [h] at hrun
  exact hrun

/-- The report of an error on the line of the token `t`, which is `text`. -/
structure Underlines (source : String) (e : Error) (t : Token) (text : List Char) : Prop where
  /-- The text is a line of the source. -/
  line : (source.toList.splitOn '\n')[t.span.line - 1]? = some text
  /-- At the end of input on a line without characters there is nothing to show. -/
  headline : e.diagnostic.report source = e.diagnostic.headline ↔
    t.kind = .endOfInput ∧ text = []
  /-- Else the line is shown, and the place of the error is marked as far as it is on it. -/
  marked : ¬ (t.kind = .endOfInput ∧ text = []) →
    e.diagnostic.report source = e.diagnostic.headline ++ "\n" ++
      String.ofList (text.rdropWhile (· = '\r')) ++ "\n" ++
      String.ofList (List.replicate (e.span.col - 1) ' ' ++
        List.replicate (max 1 (min e.span.len
          ((text.rdropWhile (· = '\r')).length - (e.span.col - 1)))) '^')

/-- **Errors point at the text, and reports underline it.**  The error of a failed run
stands at the stretch from a token to itself or to a later one on its line.  Its report is
the headline alone exactly if that token is the end of input on a line without characters;
else the line that holds the token follows, without carriage returns at its end, and a
marker under the part of the stretch that lies on it. -/
theorem run_failure_underlines {fuel : Nat} {source : String} {m m' : Machine ι σ} {e : Error}
    (h : run fuel source m = .error (.failed e) m') :
    ∃ front t back u text, Token.ofSource source = front ++ t :: back ∧ u ∈ t :: back ∧
      t.span.line = u.span.line ∧
      e.span = ⟨t.span.line, t.span.col, u.span.col + u.span.len - t.span.col⟩ ∧
      Underlines source e t text := by
  obtain ⟨front, t, back, u, hts, hu, hline, hspan⟩ := run_covers h
  have hlaid := Scanner.laid_ofSource source
  rw [hts] at hlaid
  obtain ⟨before, rest, hsource, hlaid⟩ := hlaid.suffix (by simp)
  obtain ⟨before', after, hsplit, hplace, hend⟩ := hlaid.head_place
  have htext : source.toList = before' ++ after := hsource.trans hsplit
  have htline : t.span.line = lineBehind before' := by
    rw [hplace]
    rfl
  have hcount : t.span.line - 1 = before'.count '\n' := by
    rw [htline, lineBehind]
    omega
  have hsourceLine := sourceLine?_behind htext
  have heline : e.diagnostic.span.line = lineBehind before' := by
    rw [Error.diagnostic, hspan, ← htline]
    rfl
  refine ⟨front, t, back, u, lineAround before' after, hts, hu, hline, hspan, ?_, ?_, ?_⟩
  · rw [hcount, htext]
    exact getElem?_splitOn before' after
  · rw [report_eq_headline_iff, heline, hsourceLine, hend]
    by_cases hempty : after = [] ∧ lineAround before' after = []
    · rw [if_pos hempty]
      exact iff_of_true rfl hempty
    · rw [if_neg hempty]
      exact iff_of_false (by simp) hempty
  · intro hnot
    rw [hend] at hnot
    rw [if_neg hnot] at hsourceLine
    rw [report, heline, hsourceLine]
    simp only [marker_eq]
    rfl

/-- A sum where a truth value is asked for. -/
def misfitText : String :=
  "BEGIN CODE\nBOOL b = (1 +\t2) # no\r\nEND CODE"

theorem run_failure_underlines_misfitText :
    ∃ e m', run 1 misfitText (.start (.ofText "")) = .error (.failed e) m' ∧
      e.span = ⟨2, 10, 7⟩ ∧
      ∃ front t back u text, Token.ofSource misfitText = front ++ t :: back ∧ u ∈ t :: back ∧
        t.span.line = u.span.line ∧
        e.span = ⟨t.span.line, t.span.col, u.span.col + u.span.len - t.span.col⟩ ∧
        Underlines misfitText e t text := by
  have hspan : (match run 1 misfitText (.start (.ofText "")) with
      | .error (.failed e) _ => some e.span
      | _ => none) = some ⟨2, 10, 7⟩ := by decide +kernel
  split at hspan
  · rename_i e m' hrun
    exact ⟨e, m', hrun, by simpa using hspan, run_failure_underlines hrun⟩
  · cases hspan

end Program

end Pseudocode

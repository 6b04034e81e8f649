/-
An input read to its end, line by line.

A line goes up to its line feed, or up to the end of the input if there is none, and the next
one starts right behind it.  `Lines` says which lines an input has, without any reading.
Reading follows them one by one: behind `n` readings the lines from the `n`-th on are left,
whether those before it were text or not, and once there are none left every reading finds
the end.
-/
import Pseudocode.Proofs.Positions
import Pseudocode.Proofs.Receiving

namespace Pseudocode

/-! ### Line ends -/

namespace Text

/-- Nothing but line feeds and carriage returns is dropped. -/
theorem exists_dropLineEnd_append (cs : List Char) :
    ∃ ending, dropLineEnd cs ++ ending = cs ∧ ∀ c ∈ ending, c = '\n' ∨ c = '\r' := by
  refine ⟨cs.rtakeWhile fun c => c = '\n' || c = '\r', List.rdropWhile_append_rtakeWhile, ?_⟩
  intro c hc
  simpa using List.mem_rtakeWhile_imp hc

/-- And all of them are dropped. -/
theorem not_lineEnd_of_getLast?_dropLineEnd {cs : List Char} {c : Char}
    (h : (dropLineEnd cs).getLast? = some c) : c ≠ '\n' ∧ c ≠ '\r' := by
  have hne : dropLineEnd cs ≠ [] := by
    intro hnil
    rw [hnil] at h
    cases h
  rw [List.getLast?_eq_some_getLast hne, Option.some.injEq] at h
  have hlast : ¬ (decide (c = '\n') || decide (c = '\r')) = true :=
    h ▸ List.rdropWhile_last_not _ _ hne
  simpa using hlast

end Text

namespace Input

variable {i i' : Input} {line : List UInt8} {lines : List (List UInt8)}

/-! ### One line -/

theorem FirstLine.unread_ne_nil (h : i.FirstLine line i') : i.unread ≠ [] := by
  rw [h.split]
  exact List.append_ne_nil_of_left_ne_nil h.nonempty _

theorem FirstLine.length_lt (h : i.FirstLine line i') :
    i'.unread.length < i.unread.length := by
  have hline := List.length_pos_iff.2 h.nonempty
  rw [h.split, List.length_append]
  omega

/-- An input has one first line, and that is the one that is read. -/
theorem FirstLine.nextLine_eq (h : i.FirstLine line i') :
    i.nextLine = (lineOf i.keepsLineEnds line, i') := by
  have hsplit : Text.splitLine i.unread = (line, i'.unread) := by
    rw [h.split]
    rcases h.ends with ⟨body, hbody, rfl⟩ | ⟨hplain, hend⟩
    · rw [List.append_assoc]
      exact Text.splitLine_append_lineFeed hbody _
    · rw [hend, List.append_nil]
      exact Text.splitLine_of_not_mem hplain
  rw [nextLine_of_ne_nil h.unread_ne_nil, hsplit, ← h.keepsLineEnds]

theorem nextLine_fst_eq_ended : i.nextLine.1 = .ended ↔ i.unread = [] := by
  constructor
  · intro h
    by_contra hne
    obtain ⟨line, -, hread⟩ := nextLine_firstLine hne
    exact lineOf_ne_ended _ _ (hread.symm.trans h)
  · intro h
    rw [nextLine_of_nil h]

/-- What a line is read as when line ends are dropped. -/
inductive ReadsAs (line : List UInt8) : Line → Prop
  /-- The bytes are those of a text, which is given without the line feeds and carriage
  returns at its end. -/
  | text {cs ending : List Char} (hbytes : Text.toBytes (String.ofList (cs ++ ending)) = line)
      (hending : ∀ c ∈ ending, c = '\n' ∨ c = '\r')
      (hkept : ∀ c ∈ cs.getLast?, c ≠ '\n' ∧ c ≠ '\r') : ReadsAs line (.text (String.ofList cs))
  /-- The bytes are those of no text. -/
  | unreadable (h : ∀ s, Text.toBytes s ≠ line) : ReadsAs line (.failed unreadableMessage)

theorem readsAs_lineOf (line : List UInt8) : ReadsAs line (lineOf false line) := by
  unfold lineOf
  cases hs : Text.ofBytes? line with
  | none =>
      refine .unreadable fun s hline => ?_
      rw [← hline, Text.ofBytes?_toBytes] at hs
      cases hs
  | some s =>
      obtain ⟨ending, hsplit, hending⟩ := Text.exists_dropLineEnd_append s.toList
      refine .text ?_ hending fun c => Text.not_lineEnd_of_getLast?_dropLineEnd
      rw [hsplit, String.ofList_toList]
      exact Text.toBytes_of_ofBytes? hs

/-! ### All lines -/

/-- The lines of an input, each with its line feed if it has one. -/
inductive Lines : Input → List (List UInt8) → Prop
  | nil {i : Input} (h : i.unread = []) : Lines i []
  | cons {i i' : Input} {line : List UInt8} {lines : List (List UInt8)}
      (hline : i.FirstLine line i') (hlines : Lines i' lines) : Lines i (line :: lines)

theorem exists_lines (i : Input) : ∃ lines, i.Lines lines := by
  -- A line is never empty, so there are fewer bytes behind it.
  induction hn : i.unread.length using Nat.strong_induction_on generalizing i with
  | _ n ih =>
      by_cases hi : i.unread = []
      · exact ⟨[], .nil hi⟩
      · obtain ⟨line, hline, -⟩ := nextLine_firstLine hi
        obtain ⟨lines, hlines⟩ := ih _ (hn ▸ hline.length_lt) _ rfl
        exact ⟨line :: lines, .cons hline hlines⟩

namespace Lines

theorem flatten_eq (h : i.Lines lines) : lines.flatten = i.unread := by
  induction h with
  | nil h => rw [h, List.flatten_nil]
  | cons hline hlines ih => rw [List.flatten_cons, ih, hline.split]

theorem eq_nil_iff (h : i.Lines lines) : lines = [] ↔ i.unread = [] := by
  cases h with
  | nil h => simp [h]
  | cons hline hlines => simp [hline.unread_ne_nil]

/-- Every line feed ends a line, and what is behind the last one is a line if it is anything. -/
theorem length_eq (h : i.Lines lines) :
    lines.length = i.unread.count Text.lineFeed +
      if i.unread.rtakeWhile (· ≠ Text.lineFeed) = [] then 0 else 1 := by
  induction h with
  | nil h => simp [h]
  | @cons i i' line lines hline hlines ih =>
      rw [List.length_cons, hline.split]
      rcases hline.ends with ⟨body, hbody, rfl⟩ | ⟨hplain, hend⟩
      · rw [List.append_assoc, List.singleton_append, Text.count_append_sep hbody,
          Text.rtakeWhile_append_sep, ih]
        omega
      · -- A line without its line feed is the last one, and all of it is behind the last line feed.
        have hself : line.rtakeWhile (· ≠ Text.lineFeed) = line := by
          rw [List.rtakeWhile_eq_self_iff]
          intro b hb
          exact decide_eq_true fun hfeed => hplain (hfeed ▸ hb)
        rw [hlines.eq_nil_iff.2 hend, hend, List.append_nil, hself, if_neg hline.nonempty,
          List.count_eq_zero_of_not_mem hplain, List.length_nil]

/-- Reading takes the first of the lines, if there is one. -/
theorem nextLine (h : i.Lines lines) : i.nextLine.2.Lines lines.tail := by
  cases h with
  | nil h =>
      rw [nextLine_of_nil h]
      exact .nil h
  | cons hline hlines =>
      rw [hline.nextLine_eq]
      exact hlines

end Lines

/-! ### Reading again and again -/

/-- What is left of the input behind some readings. -/
def after (i : Input) : Nat → Input
  | 0 => i
  | n + 1 => (i.after n).nextLine.2

theorem keepsLineEnds_after (i : Input) (n : Nat) :
    (i.after n).keepsLineEnds = i.keepsLineEnds := by
  induction n with
  | zero => rfl
  | succ n ih =>
      obtain ⟨taken, htakes, -⟩ := (i.after n).nextLine_takes
      exact htakes.keepsLineEnds.trans ih

theorem Lines.after (h : i.Lines lines) (n : Nat) : (i.after n).Lines (lines.drop n) := by
  induction n with
  | zero => exact h
  | succ n ih =>
      rw [← List.tail_drop]
      exact ih.nextLine

/-- The readings take the lines in their order. -/
theorem Lines.firstLine_after (h : i.Lines lines) {n : Nat} (hn : n < lines.length) :
    (i.after n).FirstLine lines[n] (i.after (n + 1)) := by
  have hrest := h.after n
  rw [List.drop_eq_getElem_cons hn] at hrest
  cases hrest with
  | cons hline hlines =>
      have hnext : i.after (n + 1) = _ := congrArg Prod.snd hline.nextLine_eq
      rwa [hnext]

/-- **Reading line by line cuts the input into its lines.**  The lines are the whole input, one
behind another, and each reading takes the next of them: up to its line feed, or up to the end
where there is none.  It gives the text of the line without its line end, and a line that is
not text is taken all the same.  The end is found when nothing is left, and from then on
always; before that there is a reading for each line feed, and one more if anything stands
behind the last of them. -/
theorem nextLine_partitions (bytes : List UInt8) :
    let i : Input := { unread := bytes }
    ∃ lines : List (List UInt8),
      lines.flatten = bytes ∧
      lines.length = bytes.count Text.lineFeed +
        (if bytes.rtakeWhile (· ≠ Text.lineFeed) = [] then 0 else 1) ∧
      (∀ n (hn : n < lines.length),
        (i.after n).FirstLine lines[n] (i.after (n + 1)) ∧
          ReadsAs lines[n] (i.after n).nextLine.1) ∧
      ∀ n, ((i.after n).nextLine.1 = .ended ↔ (i.after n).unread = []) ∧
        ((i.after n).nextLine.1 = .ended ↔ lines.length ≤ n) := by
  intro i
  obtain ⟨lines, hlines⟩ := i.exists_lines
  refine ⟨lines, hlines.flatten_eq, hlines.length_eq, fun n hn => ?_, fun n => ?_⟩
  · have hline := hlines.firstLine_after hn
    refine ⟨hline, ?_⟩
    rw [hline.nextLine_eq, keepsLineEnds_after]
    exact readsAs_lineOf _
  · refine ⟨nextLine_fst_eq_ended, ?_⟩
    rw [nextLine_fst_eq_ended, ← (hlines.after n).eq_nil_iff, List.drop_eq_nil_iff]

/-- Four lines: two carriage returns at the end of the first, a second one that is not text, a
third one without characters, and a last one without a line feed. -/
theorem nextLine_partitions_mixed :
    let i : Input := { unread := [97, 13, 13, 10, 255, 10, 10, 195, 169, 13] }
    ((i.after 1).FirstLine [255, 10] (i.after 2) ∧ ReadsAs [255, 10] (.failed unreadableMessage)) ∧
      ∀ n, (i.after n).nextLine.1 = .ended ↔ 4 ≤ n := by
  intro i
  obtain ⟨lines, -, hlength, hlines, hended⟩ := nextLine_partitions i.unread
  have hfour : lines.length = 4 := hlength.trans (by decide)
  have hone : 1 < lines.length := by omega
  obtain ⟨hline, hread⟩ := hlines 1 hone
  have hsecond : lines[1] = [255, 10] := by
    have hbehind : (i.after 1).unread = [255, 10] ++ (i.after 2).unread := by decide
    exact List.append_cancel_right (hline.split.symm.trans hbehind)
  have hunreadable : (i.after 1).nextLine.1 = .failed unreadableMessage := by decide
  rw [hsecond] at hline hread
  rw [hunreadable] at hread
  refine ⟨⟨hline, hread⟩, fun n => ?_⟩
  rw [← hfour]
  exact (hended n).2

end Input

end Pseudocode

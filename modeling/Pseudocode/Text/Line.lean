/-
Lines of a text and of a sequence of bytes.

A line goes up to and includes the next line feed, or up to the end.  The end of the
text starts no further line of its own.
-/

namespace Pseudocode.Text

/-- The byte of a line feed. -/
def lineFeed : UInt8 := 10

/-- The first line of some bytes, with its line feed if it has one, and the bytes
after it. -/
def splitLine (bytes : List UInt8) : List UInt8 × List UInt8 :=
  let line := bytes.takeWhile (· ≠ lineFeed)
  match bytes.dropWhile (· ≠ lineFeed) with
  | [] => (line, [])
  | feed :: rest => (line ++ [feed], rest)

/-- Splitting loses nothing. -/
theorem splitLine_append (bytes : List UInt8) :
    (splitLine bytes).1 ++ (splitLine bytes).2 = bytes := by
  have h : bytes.takeWhile (· ≠ lineFeed) ++ bytes.dropWhile (· ≠ lineFeed) = bytes :=
    List.takeWhile_append_dropWhile
  simp only [splitLine]
  split
  · next hd => rwa [hd] at h
  · next feed rest hd =>
    rw [hd] at h
    rw [List.append_assoc]
    exact h

/-- What is left behind a line is shorter than what there was. -/
theorem length_splitLine_snd_lt {bytes : List UInt8} (h : bytes ≠ []) :
    (splitLine bytes).2.length < bytes.length := by
  have hlen := congrArg List.length (splitLine_append bytes)
  rw [List.length_append] at hlen
  have hne : (splitLine bytes).1 ≠ [] := by
    intro hnil
    have hrest : (splitLine bytes).2 = bytes := by
      simpa only [hnil, List.nil_append] using splitLine_append bytes
    simp only [splitLine] at hnil hrest
    split at hnil
    · next hd => exact h (by simpa only [hd] using hrest.symm)
    · simp at hnil
  have := List.length_pos_iff.2 hne
  omega

private theorem ne_lineFeed {bytes : List UInt8} (h : lineFeed ∉ bytes) :
    ∀ b ∈ bytes, decide (b ≠ lineFeed) = true := by
  intro b hb
  have hne : b ≠ lineFeed := fun heq => h (heq ▸ hb)
  simpa using hne

/-- Bytes without a line feed are one line. -/
theorem splitLine_of_not_mem {bytes : List UInt8} (h : lineFeed ∉ bytes) :
    splitLine bytes = (bytes, []) := by
  have htake : (bytes ++ []).takeWhile (· ≠ lineFeed) = _ :=
    List.takeWhile_append_of_pos (ne_lineFeed h)
  have hdrop : (bytes ++ []).dropWhile (· ≠ lineFeed) = _ :=
    List.dropWhile_append_of_pos (ne_lineFeed h)
  rw [List.append_nil] at htake hdrop
  simp only [splitLine, htake, hdrop, List.takeWhile_nil, List.dropWhile_nil, List.append_nil]

/-- A line goes up to its line feed, whatever comes behind it. -/
theorem splitLine_append_lineFeed {line : List UInt8} (h : lineFeed ∉ line)
    (rest : List UInt8) :
    splitLine (line ++ lineFeed :: rest) = (line ++ [lineFeed], rest) := by
  have htake : (line ++ lineFeed :: rest).takeWhile (· ≠ lineFeed) = _ :=
    List.takeWhile_append_of_pos (ne_lineFeed h)
  have hdrop : (line ++ lineFeed :: rest).dropWhile (· ≠ lineFeed) = _ :=
    List.dropWhile_append_of_pos (ne_lineFeed h)
  rw [List.takeWhile_cons_of_neg (by simp), List.append_nil] at htake
  rw [List.dropWhile_cons_of_neg (by simp)] at hdrop
  simp only [splitLine, htake, hdrop]

/-- A line without the line feeds and carriage returns at its end. -/
def dropLineEnd (cs : List Char) : List Char :=
  (cs.reverse.dropWhile fun c => c = '\n' || c = '\r').reverse

theorem dropLineEnd_eq_self {cs : List Char} (hfeed : cs.getLast? ≠ some '\n')
    (hreturn : cs.getLast? ≠ some '\r') : dropLineEnd cs = cs := by
  rcases List.eq_nil_or_concat cs with rfl | ⟨init, c, rfl⟩
  · rfl
  · rw [List.concat_eq_append, List.getLast?_concat] at hfeed hreturn
    have hc : (decide (c = '\n') || decide (c = '\r')) = false := by
      simpa using And.intro hfeed hreturn
    rw [dropLineEnd, List.concat_eq_append, List.reverse_concat, List.dropWhile_cons_of_neg]
    · simp
    · simp [hc]

/-- The lines of a text, without their line feeds. -/
def lines : List Char → List (List Char)
  | [] => []
  | '\n' :: rest => [] :: lines rest
  | c :: rest =>
    match lines rest with
    | [] => [[c]]
    | line :: others =>
      -- A line feed right after `c` closes the line of `c`; the empty line found
      -- there is that line's remainder.
      (c :: line) :: others

end Pseudocode.Text

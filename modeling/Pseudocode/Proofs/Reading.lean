/-
A run knows of its input only what it has read.

Reading takes a line whole, and nothing looks further than that.  So a run splits its input
into the part it has taken, which consists of whole lines, and the part it has left, and
with any other bytes in place of the latter it would have done the same and left just those
bytes.  The one exception is a last line without a line feed: it ends where the input ends,
and what the run does depends on there being nothing behind it.

The same judgement says when it makes no difference whether lines keep their line ends: when
no line that was taken has one.
-/
import Pseudocode.Program.Run
import Pseudocode.Proofs.Judgement

namespace Pseudocode

/-! ### Lines -/

namespace Text

/-- The byte of a carriage return. -/
def carriageReturn : UInt8 := 13

/-- Bytes that are whole lines, each with its line feed. -/
def Whole (bytes : List UInt8) : Prop :=
  bytes = [] ∨ bytes.getLast? = some lineFeed

/-- Bytes without a line feed, and without a carriage return at their end. -/
def Unended (bytes : List UInt8) : Prop :=
  lineFeed ∉ bytes ∧ bytes.getLast? ≠ some carriageReturn

theorem Whole.append {a b : List UInt8} (ha : Whole a) (hb : Whole b) : Whole (a ++ b) := by
  rcases hb with rfl | hb
  · rwa [List.append_nil]
  · right
    rw [List.getLast?_append, hb, Option.some_or]

theorem unended_nil : Unended [] := by
  simp [Unended]

theorem Unended.right {a b : List UInt8} (h : Unended (a ++ b)) : Unended b := by
  obtain ⟨hfeed, hreturn⟩ := h
  refine ⟨fun hb => hfeed (List.mem_append_right a hb), fun hb => hreturn ?_⟩
  rw [List.getLast?_append, hb, Option.some_or]

/-- Whole lines are only unended when there are none. -/
theorem Unended.left {a b : List UInt8} (h : Unended (a ++ b)) (ha : b ≠ [] → Whole a) :
    Unended a := by
  by_cases hb : b = []
  · rwa [hb, List.append_nil] at h
  · rcases ha hb with rfl | ha
    · exact unended_nil
    · exact absurd (List.mem_append_left b (List.mem_of_getLast? ha)) h.1

/-- The last character of a text, when it is a single byte, is the last of its bytes. -/
theorem getLast?_of_ofBytes? {bytes : List UInt8} {s : String} {c : Char} {b : UInt8}
    (hs : ofBytes? bytes = some s) (hc : s.toList.getLast? = some c)
    (hb : String.utf8EncodeChar c = [b]) : bytes.getLast? = some b := by
  obtain ⟨init, hinit⟩ := List.getLast?_eq_some_iff.1 hc
  rw [← toBytes_of_ofBytes? hs, ← String.ofList_toList (s := s), hinit, toBytes_concat, hb,
    List.getLast?_concat]

/-- A text has a line end only if its bytes have one. -/
theorem dropLineEnd_of_unended {bytes : List UInt8} {s : String} (hs : ofBytes? bytes = some s)
    (h : Unended bytes) : dropLineEnd s.toList = s.toList := by
  refine dropLineEnd_eq_self (fun hc => ?_) fun hc => ?_
  · exact h.1 (List.mem_of_getLast? (getLast?_of_ofBytes? hs hc rfl))
  · exact h.2 (getLast?_of_ofBytes? hs hc rfl)

/-- A line is taken whenever there is something to take. -/
theorem splitLine_fst_ne_nil {bytes : List UInt8} (h : bytes ≠ []) : (splitLine bytes).1 ≠ [] := by
  intro hnil
  have hlt := length_splitLine_snd_lt h
  have hsplit := splitLine_append bytes
  rw [hnil, List.nil_append] at hsplit
  rw [hsplit] at hlt
  exact Nat.lt_irrefl _ hlt

/-- A line is cut off in the same way whatever stands behind it, unless it is a last line
without a line feed. -/
theorem splitLine_replace (bytes : List UInt8) :
    ((splitLine bytes).2 ≠ [] → Whole (splitLine bytes).1) ∧
      ∀ tail, ((splitLine bytes).2 ≠ [] ∨ tail = (splitLine bytes).2) →
        splitLine ((splitLine bytes).1 ++ tail) = ((splitLine bytes).1, tail) := by
  by_cases hfeed : lineFeed ∈ bytes
  · obtain ⟨line, rest, rfl, hline⟩ := List.eq_append_cons_of_mem hfeed
    rw [splitLine_append_lineFeed hline]
    refine ⟨fun _ => .inr List.getLast?_concat, fun tail _ => ?_⟩
    rw [List.append_assoc]
    exact splitLine_append_lineFeed hline tail
  · rw [splitLine_of_not_mem hfeed]
    refine ⟨fun h => absurd rfl h, fun tail htail => ?_⟩
    rcases htail with h | rfl
    · exact absurd rfl h
    · rw [List.append_nil]
      exact splitLine_of_not_mem hfeed

end Text

/-! ### Inputs -/

namespace Input

/-- From the first input some bytes were taken, and the second one is left. -/
structure Takes (taken : List UInt8) (i i' : Input) : Prop where
  split : i.unread = taken ++ i'.unread
  keepsLineEnds : i'.keepsLineEnds = i.keepsLineEnds
  /-- Only a last line may be without its line feed. -/
  whole : i'.unread ≠ [] → Text.Whole taken

/-- The input with some bytes in front of it. -/
def before (taken : List UInt8) (i : Input) : Input :=
  { i with unread := taken ++ i.unread }

/-- Whoever took some bytes and left the input `i` would not have noticed if it had been the
input `j` that stood behind them. -/
structure Replaces (taken : List UInt8) (i j : Input) : Prop where
  unread : i.unread ≠ [] ∨ j.unread = i.unread
  keepsLineEnds : j.keepsLineEnds = i.keepsLineEnds ∨ Text.Unended taken

theorem Takes.refl (i : Input) : Takes [] i i :=
  ⟨rfl, rfl, fun _ => .inl rfl⟩

theorem Takes.trans {a b : List UInt8} {i i' i'' : Input} (h : Takes a i i') (h' : Takes b i' i'') :
    Takes (a ++ b) i i'' where
  split := by rw [h.split, h'.split, List.append_assoc]
  keepsLineEnds := h'.keepsLineEnds.trans h.keepsLineEnds
  whole hne := by
    have hmid : i'.unread ≠ [] := by
      rw [h'.split]
      exact List.append_ne_nil_of_right_ne_nil b hne
    exact (h.whole hmid).append (h'.whole hne)

theorem before_before (a b : List UInt8) (i : Input) :
    before a (before b i) = before (a ++ b) i := by
  rw [before, before, before, List.append_assoc]

theorem Replaces.second {a b : List UInt8} {i j : Input} (h : Replaces (a ++ b) i j) :
    Replaces b i j :=
  ⟨h.unread, h.keepsLineEnds.imp_right Text.Unended.right⟩

theorem Replaces.first {a b : List UInt8} {i i' i'' j : Input} (h : Replaces (a ++ b) i'' j)
    (ha : Takes a i i') (hb : Takes b i' i'') : Replaces a i' (before b j) where
  unread := by
    rcases h.unread with hne | heq
    · left
      rw [hb.split]
      exact List.append_ne_nil_of_right_ne_nil b hne
    · right
      rw [before, heq, hb.split]
  keepsLineEnds := by
    rcases h.keepsLineEnds with heq | hunended
    · left
      exact heq.trans hb.keepsLineEnds
    · right
      refine hunended.left fun hne => ha.whole ?_
      rw [hb.split]
      exact List.append_ne_nil_of_left_ne_nil hne _

/-- What some bytes give when they are read as a line. -/
def lineOf (keepsLineEnds : Bool) (bytes : List UInt8) : Line :=
  match Text.ofBytes? bytes with
  | none => .failed unreadableMessage
  | some s =>
    if keepsLineEnds then .text s else .text (String.ofList (Text.dropLineEnd s.toList))

theorem lineOf_of_unended {bytes : List UInt8} (h : Text.Unended bytes) (k k' : Bool) :
    lineOf k bytes = lineOf k' bytes := by
  unfold lineOf
  cases hs : Text.ofBytes? bytes with
  | none => rfl
  | some s =>
      dsimp only
      rw [Text.dropLineEnd_of_unended hs h, String.ofList_toList, ite_self, ite_self]

theorem nextLine_of_ne_nil {i : Input} (h : i.unread ≠ []) :
    i.nextLine = (lineOf i.keepsLineEnds (Text.splitLine i.unread).1,
      { i with unread := (Text.splitLine i.unread).2 }) := by
  obtain ⟨unread, keeps⟩ := i
  cases unread with
  | nil => exact absurd rfl h
  | cons b bytes =>
      unfold nextLine lineOf
      dsimp only
      cases Text.ofBytes? (Text.splitLine (b :: bytes)).1 with
      | none => rfl
      | some s => cases keeps <;> rfl

theorem nextLine_of_nil {i : Input} (h : i.unread = []) : i.nextLine = (.ended, i) := by
  obtain ⟨unread, keeps⟩ := i
  obtain rfl : unread = [] := h
  rfl

/-- **Reading takes a line, and depends on nothing behind it.** -/
theorem nextLine_takes (i : Input) :
    ∃ taken, Takes taken i i.nextLine.2 ∧
      ∀ j, Replaces taken i.nextLine.2 j → (before taken j).nextLine = (i.nextLine.1, j) := by
  by_cases hi : i.unread = []
  · rw [nextLine_of_nil hi]
    refine ⟨[], .refl i, fun j hj => ?_⟩
    have hj : j.unread = [] := by
      rcases hj.unread with hne | heq
      · exact absurd hi hne
      · exact heq.trans hi
    exact nextLine_of_nil hj
  · rw [nextLine_of_ne_nil hi]
    obtain ⟨hwhole, hreplace⟩ := Text.splitLine_replace i.unread
    refine ⟨(Text.splitLine i.unread).1, ⟨(Text.splitLine_append _).symm, rfl, hwhole⟩, ?_⟩
    intro j hj
    have hline := Text.splitLine_fst_ne_nil hi
    have hsame : lineOf j.keepsLineEnds (Text.splitLine i.unread).1 =
        lineOf i.keepsLineEnds (Text.splitLine i.unread).1 := by
      rcases hj.keepsLineEnds with hkeeps | hunended
      · exact congrArg (lineOf · _) hkeeps
      · exact lineOf_of_unended hunended _ _
    rw [nextLine_of_ne_nil (List.append_ne_nil_of_left_ne_nil hline j.unread), before,
      hreplace j.unread hj.unread, hsame]

end Input

/-! ### Runs -/

namespace Run

variable {σ α β : Type}

/-- The run splits its input into what it takes and what it leaves, and does the same on
every input that begins with the former and may stand in for the latter. -/
def ReadsLines (x : Run Input σ α) : Prop :=
  ∀ m, ∃ taken, Input.Takes taken m.input (final (x m)).input ∧
    ∀ j, Input.Replaces taken (final (x m)).input j →
      x (m.withInput (j.before taken)) = onFinal (·.withInput j) (x m)

namespace ReadsLines

/-- A run that passes its input on as it is. -/
theorem of_free {x : Run Input σ α} (hinput : ∀ m, (final (x m)).input = m.input)
    (h : ∀ m i, x (m.withInput i) = onFinal (·.withInput i) (x m)) : x.ReadsLines := by
  intro m
  rw [hinput]
  exact ⟨[], .refl _, fun j _ => h m j⟩

theorem of_onStore {x : Run Input σ α} (h : x.OnStore) : x.ReadsLines :=
  of_free h.final_input h.input

theorem bind {x : Run Input σ α} {f : α → Run Input σ β} (hx : x.ReadsLines)
    (hf : ∀ a, (f a).ReadsLines) : ReadsLines (x >>= f) := by
  intro m
  obtain ⟨taken, htakes, hsame⟩ := hx m
  change ∃ taken, Input.Takes taken m.input (final (EStateM.bind x f m)).input ∧
    ∀ j, Input.Replaces taken (final (EStateM.bind x f m)).input j →
      EStateM.bind x f (m.withInput (j.before taken)) =
        onFinal (·.withInput j) (EStateM.bind x f m)
  unfold EStateM.bind
  cases hres : x m with
  | ok a m' =>
      rw [hres] at htakes hsame
      obtain ⟨taken', htakes', hsame'⟩ := hf a m'
      refine ⟨taken ++ taken', htakes.trans htakes', fun j hj => ?_⟩
      rw [← Input.before_before, hsame _ (hj.first htakes htakes')]
      exact hsame' j hj.second
  | error why m' =>
      rw [hres] at htakes hsame
      refine ⟨taken, htakes, fun j hj => ?_⟩
      rw [hsame j hj]
      rfl

theorem readLine (span : Span) : ReadsLines (σ := σ) (Run.readLine span) := by
  refine bind (fun m => ?_) fun line => of_onStore (.received span line)
  obtain ⟨taken, htakes, hsame⟩ := m.input.nextLine_takes
  refine ⟨taken, htakes, fun j hj => ?_⟩
  change EStateM.Result.ok (j.before taken).nextLine.1 (m.withInput (j.before taken).nextLine.2) =
    .ok m.input.nextLine.1 (m.withInput j)
  rw [hsame j hj]

theorem write [ByteSink σ] (text : String) (span : Span) :
    ReadsLines (σ := σ) (Run.write text span) :=
  bind (of_free (fun _ => rfl) fun _ _ => rfl) fun answer => of_onStore (.proceed span answer)

theorem flush [ByteSink σ] (span : Span) : ReadsLines (σ := σ) (Run.flush span) :=
  bind (of_free (fun _ => rfl) fun _ _ => rfl) fun answer => of_onStore (.proceed span answer)

end ReadsLines

end Run

namespace Program

variable {σ : Type} [ByteSink σ]

theorem exec_readsLines (fuel : Nat) (p : Program) : Run.ReadsLines (σ := σ) (p.exec fuel) :=
  p.exec_of_onStore (J := fun _ x => x.ReadsLines) .of_onStore .bind fuel
    (fun _ span text _ => .write text span) .readLine (.flush p.span)

/-- **What a run leaves unread has no influence on it.**  If some input is left, what was
taken of it are whole lines, and with any other bytes behind them the run ends in the same
way, with the same variables and the same output, and leaves those bytes. -/
theorem exec_of_other_rest {fuel : Nat} {p : Program} {m : Machine Input σ}
    (hleft : (Run.final (p.exec fuel m)).input.unread ≠ []) :
    ∃ taken, m.input.unread = taken ++ (Run.final (p.exec fuel m)).input.unread ∧
      (taken = [] ∨ taken.getLast? = some Text.lineFeed) ∧
      ∀ rest, p.exec fuel (m.withInput { m.input with unread := taken ++ rest }) =
        Run.onFinal (·.withInput { m.input with unread := rest }) (p.exec fuel m) := by
  obtain ⟨taken, htakes, hsame⟩ := p.exec_readsLines fuel m
  refine ⟨taken, htakes.split, htakes.whole hleft, fun rest => ?_⟩
  exact hsame { m.input with unread := rest } ⟨.inl hleft, .inl htakes.keepsLineEnds.symm⟩

/-- `INT n`, and two lines are read for it. -/
def readTwice : Program where
  body :=
    [.declare .int [⟨⟨"n", ⟨2, 5, 1⟩⟩, none⟩] ⟨2, 1, 3⟩,
    .scan [⟨"n", ⟨3, 7, 1⟩⟩] ⟨3, 1, 4⟩,
    .scan [⟨"n", ⟨4, 7, 1⟩⟩] ⟨4, 1, 4⟩]
  span := ⟨1, 1, 5⟩

/-- The second line is taken although its field does not fit, and the third is not. -/
theorem exec_of_other_rest_readTwice :
    (Run.final (readTwice.exec 0 (.start (.ofText "1\nx\nleft")))).input = .ofText "left" ∧
      ∀ rest, Run.final (readTwice.exec 0 (.start { unread := Text.toBytes "1\nx\n" ++ rest })) =
        { store := ⟨(({} : Std.TreeMap String Variable).insert "n" ⟨.int, none⟩).insert "n"
            ⟨.int, some (.int 1)⟩⟩
          input := { unread := rest }
          sink := {} } := by
  have hinput : (Run.final (readTwice.exec 0 (.start (.ofText "1\nx\nleft")))).input =
      .ofText "left" := rfl
  have hbytes : (Input.ofText "1\nx\nleft").unread =
      Text.toBytes "1\nx\n" ++ (Input.ofText "left").unread := rfl
  obtain ⟨taken, hsplit, -, hsame⟩ := exec_of_other_rest (m := .start (.ofText "1\nx\nleft"))
    (by rw [hinput]; decide)
  rw [hinput] at hsplit
  obtain rfl := List.append_cancel_right (hbytes.symm.trans hsplit)
  refine ⟨hinput, fun rest => ?_⟩
  exact congrArg Run.final (hsame rest)

end Program

end Pseudocode

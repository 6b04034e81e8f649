/-
Input from a file and from standard input.

What SCAN reads comes from the input file or, if none is named, from standard input.  The
lines of a file come without their line ends and those of standard input with them, so that a
field at the end of a line is not the same field: of a number it makes a text.  The two only
agree on lines that have no line end, which is the last one at most.

So a program that reads no line end shows the same either way, on standard output, on standard
error and by its exit code, and one that does need not.
-/
import Pseudocode.Proofs.Reading
import Pseudocode.Shell

namespace Pseudocode

/-! ### Runs that read no line end -/

namespace Program

theorem run_readsLines {σ : Type} [ByteSink σ] (fuel : Nat) (source : String) :
    Run.ReadsLines (σ := σ) (run fuel source) :=
  .bind (.of_onStore (.inspect _)) fun p => .bind (.of_onStore (.inspect _)) fun _ =>
    p.exec_readsLines fuel

/-- The bytes that the run of a source text takes from its input. -/
def bytesRead (fuel : Nat) (source : String) (input : Input) : List UInt8 :=
  input.unread.take (input.unread.length -
    (Run.final (run fuel source (.start input))).input.unread.length)

theorem bytesRead_eq {fuel : Nat} {source : String} {input : Input} {taken : List UInt8}
    (h : Input.Takes taken input (Run.final (run fuel source (.start input))).input) :
    bytesRead fuel source input = taken := by
  rw [bytesRead, h.split, List.length_append, Nat.add_sub_cancel, List.take_left]

/-- A run that reads no line end does not depend on what becomes of line ends. -/
theorem run_keepsLineEnds {fuel : Nat} {source : String} {bytes : List UInt8}
    (h : Text.Unended (bytesRead fuel source { unread := bytes })) (keeps : Bool) :
    ∃ i, run fuel source (.start { unread := bytes, keepsLineEnds := keeps }) =
      Run.onFinal (·.withInput i) (run fuel source (.start { unread := bytes })) := by
  obtain ⟨taken, htakes, hsame⟩ := run_readsLines fuel source (.start { unread := bytes })
  rw [bytesRead_eq htakes] at h
  have hrun := hsame ⟨_, keeps⟩ ⟨.inr rfl, .inr h⟩
  rw [Input.before, ← htakes.split] at hrun
  exact ⟨_, hrun⟩

end Program

/-! ### What the process shows -/

namespace Shell

/-- What the process shows of the run of a program. -/
def shown (source stderr : String) : EStateM.Result Stop (Machine Input Sink) Unit → Option Result
  | .ok _ m => some { code := 0, stdout := (m.sink.write "\n").2.text, stderr := stderr }
  | .error (.failed e) m =>
    some { code := 1, stdout := m.sink.text, stderr := stderr ++ e.diagnostic.report source ++ "\n" }
  | .error .outOfFuel _ => none

theorem shown_withInput (source stderr : String) (i : Input)
    (r : EStateM.Result Stop (Machine Input Sink) Unit) :
    shown source stderr (Run.onFinal (·.withInput i) r) = shown source stderr r := by
  cases r with
  | ok a m => rfl
  | error why m => cases why <;> rfl

theorem State.executeFile_eq (fuel : Nat) (s : State) (name : String) {content : List UInt8}
    {source : String} (h : Text.ofBytes? content = some source) :
    s.executeFile fuel name (some content) =
      shown source s.stderr
        (Program.run fuel source (.start (s.file.getD s.stdin) s.stdout)) := by
  unfold State.executeFile
  dsimp only
  rw [h]
  dsimp only
  unfold State.execute
  dsimp only
  cases Program.run fuel source (.start (s.file.getD s.stdin) s.stdout) with
  | ok a m => cases s.file <;> rfl
  | error why m =>
      cases why with
      | failed e => cases s.file <;> rfl
      | outOfFuel => rfl

section File

variable {fuel : Nat} {files : String → Option (List UInt8)} {program input : String}
  {content bytes : List UInt8} {source : String}

theorem run_file (hprogram : files program = some content)
    (hsource : Text.ofBytes? content = some source) (hinput : files input = some bytes)
    (stdin : List UInt8) :
    run fuel files { program := some program, input := some input } stdin =
      shown source "" (Program.run fuel source (.start { unread := bytes })) := by
  unfold run
  dsimp only
  rw [hinput, hprogram]
  dsimp only
  rw [State.executeFile_eq _ _ _ hsource, Option.getD_some]

theorem run_piped (hprogram : files program = some content)
    (hsource : Text.ofBytes? content = some source) (stdin : List UInt8) :
    run fuel files { program := some program } stdin =
      shown source ""
        (Program.run fuel source (.start { unread := stdin, keepsLineEnds := true })) := by
  unfold run
  dsimp only
  rw [hprogram, State.executeFile_eq _ _ _ hsource, Option.getD_none]

/-- **A program that reads no line end shows the same with an input file and with the same
bytes on standard input.** -/
theorem run_piped_eq_run_file (hfile : files input = some bytes)
    (hread : ∀ content source, files program = some content → Text.ofBytes? content = some source →
      Text.Unended (Program.bytesRead fuel source { unread := bytes })) (stdin : List UInt8) :
    run fuel files { program := some program } bytes =
      run fuel files { program := some program, input := some input } stdin := by
  cases hprogram : files program with
  | none =>
      unfold run
      dsimp only
      rw [hfile, hprogram]
      rfl
  | some content =>
      cases hsource : Text.ofBytes? content with
      | none =>
          unfold run State.executeFile
          dsimp only
          rw [hfile, hprogram]
          dsimp only
          rw [hsource]
          rfl
      | some source =>
          obtain ⟨i, hrun⟩ :=
            Program.run_keepsLineEnds (hread content source hprogram hsource) true
          rw [run_piped hprogram hsource, run_file hprogram hsource hfile, hrun, shown_withInput]

end File

/-- A program that adds two numbers it reads. -/
def sumText : String :=
  "BEGIN CODE\nINT a, b\nSCAN: a, b\nDISPLAY: a + b\nEND CODE"

/-- The program of that text. -/
def sum : Program where
  body :=
    [.declare .int [⟨⟨"a", ⟨2, 5, 1⟩⟩, none⟩, ⟨⟨"b", ⟨2, 8, 1⟩⟩, none⟩] ⟨2, 1, 3⟩,
    .scan [⟨"a", ⟨3, 7, 1⟩⟩, ⟨"b", ⟨3, 10, 1⟩⟩] ⟨3, 1, 4⟩,
    .display [.expr (.binary ⟨.arith .add, ⟨4, 12, 1⟩⟩ (.var "a" ⟨4, 10, 1⟩) (.var "b" ⟨4, 14, 1⟩)
      ⟨4, 10, 5⟩)] ⟨4, 1, 7⟩]
  span := ⟨1, 1, 5⟩

/-- Files with the program and with an input for it. -/
def sumFiles (input : String) (name : String) : Option (List UInt8) :=
  if name = "sum" then some (Text.toBytes sumText)
  else if name = "numbers" then some (Text.toBytes input)
  else none

theorem parse_sumText : Program.parse sumText = .ok sum :=
  rfl

theorem sumFiles_sum (input : String) : sumFiles input "sum" = some (Text.toBytes sumText) :=
  if_pos rfl

theorem sumFiles_numbers (input : String) :
    sumFiles input "numbers" = some (Text.toBytes input) := by
  rw [sumFiles, if_neg (by decide), if_pos rfl]

/-- The machine behind the program when it has read the two numbers. -/
def sumEnd : Machine Input Sink where
  store := ⟨(((({} : Std.TreeMap String Variable).insert "a" ⟨.int, none⟩).insert "b"
    ⟨.int, none⟩).insert "a" ⟨.int, some (.int 4)⟩).insert "b" ⟨.int, some (.int 5)⟩⟩
  input := .ofText ""
  sink := { written := #[57] }

/-- The line with the numbers is the last one and has no line end. -/
theorem run_piped_eq_run_file_sum :
    run 0 (sumFiles "4,5") { program := some "sum" } (Text.toBytes "4,5") =
        run 0 (sumFiles "4,5") { program := some "sum", input := some "numbers" } [] ∧
      run 0 (sumFiles "4,5") { program := some "sum", input := some "numbers" } [] =
        some { code := 0, stdout := "9\n", stderr := "" } := by
  have hrun : Program.run 0 sumText (.start { unread := Text.toBytes "4,5" }) =
      .ok () sumEnd := by
    rw [Program.run_of_parse parse_sumText]
    rfl
  refine ⟨run_piped_eq_run_file (sumFiles_numbers _) (fun content source hcontent hsource => ?_) [],
    ?_⟩
  · rw [sumFiles_sum, Option.some.injEq] at hcontent
    rw [← hcontent, Text.ofBytes?_toBytes, Option.some.injEq] at hsource
    rw [← hsource, Program.bytesRead, hrun]
    exact ⟨by decide, by decide⟩
  · rw [run_file (sumFiles_sum _) (Text.ofBytes?_toBytes _) (sumFiles_numbers _), hrun]
    rfl

/-- **With a line end the last number of a line is none on standard input.**  The same bytes
are the sum of two numbers in an input file and an error on standard input. -/
theorem run_piped_ne_run_file :
    run 0 (sumFiles "4,5\n") { program := some "sum" } (Text.toBytes "4,5\n") =
        some { code := 1
               stdout := ""
               stderr := "runtime error: (3,10): Unable to assign STRING on \"b\"\n" ++
                 "SCAN: a, b\n         ^\n" } ∧
      run 0 (sumFiles "4,5\n") { program := some "sum", input := some "numbers" } [] =
        some { code := 0, stdout := "9\n", stderr := "" } := by
  have hfile : Program.run 0 sumText (.start { unread := Text.toBytes "4,5\n" }) =
      .ok () sumEnd := by
    rw [Program.run_of_parse parse_sumText]
    rfl
  rw [run_piped (sumFiles_sum _) (Text.ofBytes?_toBytes _),
    run_file (sumFiles_sum _) (Text.ofBytes?_toBytes _) (sumFiles_numbers _), hfile,
    Program.run_of_parse parse_sumText]
  exact ⟨rfl, rfl⟩

end Shell

end Pseudocode

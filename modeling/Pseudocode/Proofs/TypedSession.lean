/-
Sessions: programs typed one after another.

On standard input a program goes up to its line `END CODE`, and each of its lines gets one more
line end.  The program that runs is so the double-spaced text of the one that was typed, behind
the output of the programs before it and on the input that they left.  None of this changes what
it does.  A session is the sequence of its programs, each run as if it came from a file: they
show the same one after another, and fail for the same causes, but at other lines.

The proof goes program by program.  `readTyped_typed` says what is read, `State.execute_typed`
what one program makes of the state, and `State.executeTyped_typed` follows the session.
-/
import Pseudocode.Proofs.DoubleSpacing
import Pseudocode.Proofs.Printing
import Pseudocode.Proofs.Reporting
import Pseudocode.Proofs.StandardInput

namespace Pseudocode

/-! ### Typed lines -/

namespace Text

theorem toBytes_ofList (cs : List Char) :
    toBytes (String.ofList cs) = cs.flatMap String.utf8EncodeChar := by
  simp [toBytes, List.utf8Encode]

/-- A character takes a byte at least. -/
theorem length_le_length_toBytes (cs : List Char) :
    cs.length ≤ (toBytes (String.ofList cs)).length := by
  rw [toBytes_ofList]
  induction cs with
  | nil => exact Nat.le_refl 0
  | cons c cs ih =>
      have hpos : 0 < (String.utf8EncodeChar c).length := by
        rw [String.length_utf8EncodeChar]
        exact c.utf8Size_pos
      rw [List.flatMap_cons, List.length_append, List.length_cons]
      omega

/-- A byte below 128 is a character of its own. -/
theorem toNat_of_mem_utf8EncodeChar {c : Char} {b : UInt8} (h : b ∈ String.utf8EncodeChar c) :
    b.toNat = c.toNat ∨ 128 ≤ b.toNat := by
  change b.toNat = c.val.toNat ∨ _
  unfold String.utf8EncodeChar at h
  dsimp only at h
  split_ifs at h with h1 h2 h3
  all_goals
    simp only [List.mem_cons, List.not_mem_nil, or_false] at h
  · left
    rw [h, UInt8.toNat_ofNat']
    omega
  · right
    rcases h with rfl | rfl <;> rw [UInt8.toNat_ofNat'] <;> omega
  · right
    rcases h with rfl | rfl | rfl <;> rw [UInt8.toNat_ofNat'] <;> omega
  · right
    rcases h with rfl | rfl | rfl | rfl <;> rw [UInt8.toNat_ofNat'] <;> omega

theorem lineFeed_not_mem_toBytes {cs : List Char} (h : '\n' ∉ cs) :
    lineFeed ∉ toBytes (String.ofList cs) := by
  rw [toBytes_ofList, List.mem_flatMap]
  rintro ⟨c, hc, hmem⟩
  rcases toNat_of_mem_utf8EncodeChar hmem with heq | hle
  · have hfeed : c = '\n' := Char.toNat_inj.1 heq.symm
    exact h (hfeed ▸ hc)
  · exact absurd hle (by decide)

/-- The line end does not count for what a line says. -/
theorem trimBlanks_newline (cs : List Char) : trimBlanks (cs ++ ['\n']) = trimBlanks cs := by
  have hblank : isBlank '\n' = true := by decide
  unfold trimBlanks
  by_cases h : cs.dropWhile isBlank = []
  · have hall : ∀ c ∈ cs, isBlank c = true := List.dropWhile_eq_nil_iff.1 h
    rw [List.dropWhile_append_of_pos hall, h]
    simp [hblank]
  · rw [List.dropWhile_append, if_neg (by simpa using h)]
    simp [hblank]

/-- The text of some lines, each with its line end. -/
def unlines (lines : List (List Char)) : List Char :=
  lines.flatMap (· ++ ['\n'])

theorem unlines_cons (line : List Char) (lines : List (List Char)) :
    unlines (line :: lines) = (line ++ ['\n']) ++ unlines lines :=
  List.flatMap_cons

theorem length_le_length_unlines (lines : List (List Char)) :
    lines.length ≤ (unlines lines).length := by
  induction lines with
  | nil => exact Nat.le_refl 0
  | cons line lines ih =>
      rw [unlines_cons, List.length_append, List.length_append, List.length_cons,
        List.length_singleton]
      omega

theorem unlines_lines {cs : List Char} (h : cs = [] ∨ cs.getLast? = some '\n') :
    unlines (lines cs) = cs := by
  induction cs using line_induction with
  | last line hline =>
      rcases h with rfl | h
      · rfl
      · exact absurd (List.mem_of_getLast? h) hline
  | step line rest hline ih =>
      have hrest : rest = [] ∨ rest.getLast? = some '\n' := by
        rcases h with h | h
        · simp at h
        · cases rest with
          | nil => exact .inl rfl
          | cons c rest => exact .inr (by simpa using h)
      rw [lines_append hline, unlines_cons, ih hrest, List.append_assoc, List.singleton_append]

theorem not_mem_of_mem_lines {cs line : List Char} (h : line ∈ lines cs) : '\n' ∉ line := by
  induction cs using line_induction with
  | last cs hcs =>
      rw [lines_plain hcs] at h
      split_ifs at h
      · cases h
      · rwa [List.mem_singleton.1 h]
  | step first rest hfirst ih =>
      rw [lines_append hfirst, List.mem_cons] at h
      rcases h with rfl | h
      · exact hfirst
      · exact ih h

end Text

/-- A line of standard input is read with its line end. -/
theorem Input.nextLine_typed {line : List Char} (h : '\n' ∉ line) (rest : List UInt8) :
    nextLine ⟨Text.toBytes (String.ofList (line ++ ['\n'])) ++ rest, true⟩ =
      (.text (String.ofList (line ++ ['\n'])), ⟨rest, true⟩) := by
  have hbytes : Text.toBytes (String.ofList (line ++ ['\n'])) =
      Text.toBytes (String.ofList line) ++ [Text.lineFeed] :=
    Text.toBytes_concat line '\n'
  have hsplit : Text.splitLine (Text.toBytes (String.ofList (line ++ ['\n'])) ++ rest) =
      (Text.toBytes (String.ofList (line ++ ['\n'])), rest) := by
    rw [hbytes, List.append_assoc, List.singleton_append,
      Text.splitLine_append_lineFeed (Text.lineFeed_not_mem_toBytes h)]
  have hne : Text.toBytes (String.ofList (line ++ ['\n'])) ++ rest ≠ [] := by
    rw [hbytes]
    simp
  rw [nextLine_of_ne_nil hne, hsplit, lineOf, Text.ofBytes?_toBytes]
  rfl

namespace Shell

/-! ### Typed programs -/

/-- The line that ends a typed program. -/
def IsEndCode (line : List Char) : Prop :=
  Text.trimBlanks line = "END CODE".toList

instance : DecidablePred IsEndCode :=
  fun _ => inferInstanceAs (Decidable (_ = _))

/-- A text that can be typed as one program: it ends with a line end, and the last of its lines
is the only one that ends a program. -/
structure IsTyped (source : String) : Prop where
  ended : source.toList.getLast? = some '\n'
  closed : ∃ line ∈ (Text.lines source.toList).getLast?, IsEndCode line
  once : ∀ line ∈ (Text.lines source.toList).dropLast, ¬ IsEndCode line

/-- A line that is read comes behind the lines before it, double-spaced. -/
theorem readTyped_line {line : List Char} (h : '\n' ∉ line) (rest : List UInt8) (source : String)
    (fuel : Nat) :
    readTyped source (fuel + 1) ⟨Text.toBytes (String.ofList (line ++ ['\n'])) ++ rest, true⟩ =
      if IsEndCode line then
        (.program (source ++ String.ofList (Text.doubleSpace (line ++ ['\n']))), ⟨rest, true⟩)
      else
        readTyped (source ++ String.ofList (Text.doubleSpace (line ++ ['\n']))) fuel
          ⟨rest, true⟩ := by
  have hspaced : source ++ String.ofList (line ++ ['\n']) ++ "\n" =
      source ++ String.ofList (Text.doubleSpace (line ++ ['\n'])) := by
    rw [Text.doubleSpace_append, Text.doubleSpace_plain h, Text.doubleSpace_newline,
      String.append_assoc]
    apply String.toList_inj.1
    simp [Text.doubleSpace]
  rw [readTyped, Input.nextLine_typed h]
  dsimp only
  rw [String.toList_ofList, Text.trimBlanks_newline, hspaced]
  rfl

/-- The lines are read up to the one that ends the program, and no further. -/
theorem readTyped_unlines {init : List (List Char)} {last : List Char}
    (hplain : ∀ line ∈ init ++ [last], '\n' ∉ line) (hinit : ∀ line ∈ init, ¬ IsEndCode line)
    (hlast : IsEndCode last) (rest : List UInt8) {fuel : Nat} (hfuel : init.length < fuel)
    (source : String) :
    readTyped source fuel
        ⟨Text.toBytes (String.ofList (Text.unlines (init ++ [last]))) ++ rest, true⟩ =
      (.program (source ++ String.ofList (Text.doubleSpace (Text.unlines (init ++ [last])))),
        ⟨rest, true⟩) := by
  obtain ⟨fuel, rfl⟩ : ∃ n, fuel = n + 1 := Nat.exists_eq_add_one.2 (Nat.zero_lt_of_lt hfuel)
  induction init generalizing source fuel with
  | nil =>
      have hline : Text.unlines ([] ++ [last]) = last ++ ['\n'] := List.append_nil _
      rw [hline, readTyped_line (hplain last (by simp)), if_pos hlast]
  | cons line init ih =>
      obtain ⟨hline, hplain⟩ := List.forall_mem_cons.1 hplain
      obtain ⟨hopen, hinit⟩ := List.forall_mem_cons.1 hinit
      obtain ⟨fuel, rfl⟩ : ∃ n, fuel = n + 1 :=
        Nat.exists_eq_add_one.2 (Nat.zero_lt_of_lt (Nat.lt_of_succ_lt_succ hfuel))
      rw [List.cons_append, Text.unlines_cons, String.ofList_append, Text.toBytes_append,
        List.append_assoc, readTyped_line hline, if_neg hopen,
        ih hplain hinit _ fuel (Nat.lt_of_succ_lt_succ hfuel),
        Text.doubleSpace_append (line ++ ['\n']), String.ofList_append, String.append_assoc]

/-- **What is read is the double-spaced text of one program.** -/
theorem readTyped_typed {source : String} (h : IsTyped source) (rest : List UInt8) :
    readTyped "" ((Text.toBytes source ++ rest).length + 1) ⟨Text.toBytes source ++ rest, true⟩ =
      (.program (Text.doubleSpaced source), ⟨rest, true⟩) := by
  obtain ⟨last, hmem, hlast⟩ := h.closed
  have hlines : (Text.lines source.toList).dropLast ++ [last] = Text.lines source.toList :=
    List.dropLast_append_getLast? last hmem
  have hunlines : Text.unlines ((Text.lines source.toList).dropLast ++ [last]) = source.toList := by
    rw [hlines, Text.unlines_lines (.inr h.ended)]
  have hplain : ∀ line ∈ (Text.lines source.toList).dropLast ++ [last], '\n' ∉ line := by
    rw [hlines]
    exact fun line => Text.not_mem_of_mem_lines
  have hfuel : (Text.lines source.toList).dropLast.length <
      (Text.toBytes source ++ rest).length + 1 := by
    have hcount := Text.length_le_length_unlines
      ((Text.lines source.toList).dropLast ++ [last])
    have hbytes := Text.length_le_length_toBytes source.toList
    rw [hunlines, List.length_append] at hcount
    rw [String.ofList_toList] at hbytes
    rw [List.length_append]
    omega
  have hread := readTyped_unlines hplain h.once hlast rest hfuel ""
  rwa [hunlines, String.ofList_toList, String.empty_append] at hread

/-! ### Programs as files -/

/-- The files with a program and with an input for it. -/
def filesOf (source : String) (bytes : List UInt8) (name : String) : Option (List UInt8) :=
  if name = "program" then some (Text.toBytes source)
  else if name = "input" then some bytes
  else none

/-- What a program shows when it comes from a file, with an input file. -/
def runAsFile (fuel : Nat) (source : String) (bytes : List UInt8) : Option Result :=
  run fuel (filesOf source bytes) { program := some "program", input := some "input" } []

/-- What a program leaves unread of its input. -/
def leftUnread (fuel : Nat) (source : String) (bytes : List UInt8) : List UInt8 :=
  (Run.final (Program.run fuel source (.start { unread := bytes }))).input.unread

/-- What programs show that come from files, each with an input file of what the ones before it
left unread. -/
def runAsFiles (fuel : Nat) : List String → List UInt8 → Option (List Result)
  | [], _ => some []
  | source :: texts, bytes => do
    let result ← runAsFile fuel source bytes
    let results ← runAsFiles fuel texts (leftUnread fuel source bytes)
    return result :: results

theorem runAsFile_eq (fuel : Nat) (source : String) (bytes : List UInt8) :
    runAsFile fuel source bytes =
      shown source "" (Program.run fuel source (.start { unread := bytes })) := by
  have hprogram : filesOf source bytes "program" = some (Text.toBytes source) := if_pos rfl
  have hinput : filesOf source bytes "input" = some bytes := by
    rw [filesOf, if_neg (by decide), if_pos rfl]
  exact run_file hprogram (Text.ofBytes?_toBytes source) hinput []

theorem input_final (fuel : Nat) (source : String) (bytes : List UInt8) :
    (Run.final (Program.run fuel source (.start { unread := bytes }))).input =
      { unread := leftUnread fuel source bytes } := by
  obtain ⟨taken, htakes, -⟩ := Program.run_readsLines fuel source (.start { unread := bytes })
  exact congrArg (Input.mk _) htakes.keepsLineEnds

/-! ### What is reported -/

/-- What a session shows on standard error of a program, given what the program shows when it
comes from a file: nothing if it succeeds, and if it fails the report of an error of the same
kind and with the same words. -/
inductive Reports (source : String) (result : Result) : String → Prop where
  | succeeded (hcode : result.code = 0) (hstderr : result.stderr = "") : Reports source result ""
  | failed (d d' : Diagnostic) (hcode : result.code = 1)
      (hstderr : result.stderr = d.report source ++ "\n") (hstage : d'.stage = d.stage)
      (hmessage : d'.message = d.message) :
      Reports source result (d'.report (Text.doubleSpaced source) ++ "\n")

/-- The same of programs one after another. -/
inductive ReportsAll : List String → List Result → List String → Prop where
  | nil : ReportsAll [] [] []
  | cons {source : String} {result : Result} {report : String} {texts : List String}
      {results : List Result} {reports : List String} (head : Reports source result report)
      (tail : ReportsAll texts results reports) :
      ReportsAll (source :: texts) (result :: results) (report :: reports)

/-! ### Sessions -/

/-- **A typed program does what it does as a file**, behind what was shown before. -/
theorem State.execute_typed {fuel : Nat} {source : String} {bytes : List UInt8} {s : State}
    (hfile : s.file = some { unread := bytes }) (hstdout : s.stdout.Open) {result : Result}
    (hrun : runAsFile fuel source bytes = some result) :
    ∃ succeeded report, Reports source result report ∧
      s.execute fuel (Text.doubleSpaced source) =
        some (succeeded, { s with
          file := some { unread := leftUnread fuel source bytes }
          stdout := (s.stdout.write result.stdout).2
          stderr := s.stderr ++ report }) := by
  -- From the run as a file to the same run behind other output, and from there to the run of
  -- the double-spaced text, which ends in the same machine.
  obtain ⟨text, hsink, hbehind⟩ := Program.run_behind fuel source { unread := bytes }
  replace hbehind := hbehind s.stdout hstdout
  have hspaced := Program.run_doubleSpaced (ι := Input) (σ := Sink) fuel source
  have hleft := input_final fuel source bytes
  rw [runAsFile_eq] at hrun
  unfold State.execute
  rw [hfile]
  dsimp only [Option.getD_some]
  cases hres : Program.run fuel source (.start { unread := bytes }) with
  | ok a m =>
      rw [hres] at hrun hsink hleft hbehind
      replace hsink : m.sink = (({} : Sink).write text).2 := hsink
      replace hleft : m.input = { unread := leftUnread fuel source bytes } := hleft
      obtain rfl : ⟨0, (m.sink.write "\n").2.text, ""⟩ = result := Option.some.inj hrun
      have hrun' : Program.run fuel (Text.doubleSpaced source)
          (.start { unread := bytes } s.stdout) =
            .ok a (m.withSink (s.stdout.write text).2) := hspaced.ok hbehind
      refine ⟨true, "", .succeeded rfl rfl, ?_⟩
      rw [hrun', hsink, Sink.open_new.write_write, Sink.text_write_new, ← hstdout.write_write,
        ← hleft, String.append_empty]
      rfl
  | error why m =>
      rw [hres] at hrun hsink hleft hbehind
      replace hsink : m.sink = (({} : Sink).write text).2 := hsink
      replace hleft : m.input = { unread := leftUnread fuel source bytes } := hleft
      cases why with
      | outOfFuel => cases hrun
      | failed e =>
          obtain rfl : ⟨1, m.sink.text, "" ++ e.diagnostic.report source ++ "\n"⟩ = result :=
            Option.some.inj hrun
          obtain ⟨span, hrun'⟩ : ∃ span, Program.run fuel (Text.doubleSpaced source)
              (.start { unread := bytes } s.stdout) =
                .error (.failed ⟨e.cause, span⟩) (m.withSink (s.stdout.write text).2) :=
            hspaced.failed ⟨e.span, hbehind⟩
          refine ⟨false, _, .failed e.diagnostic (Error.diagnostic ⟨e.cause, span⟩) rfl ?_ rfl rfl,
            ?_⟩
          · rw [String.empty_append]
          · rw [hrun', hsink, Sink.text_write_new, ← hleft, ← String.append_assoc]
            rfl

/-- A session does what its programs do as files, one after another. -/
theorem State.executeTyped_typed {fuel : Nat} {texts : List String} {bytes : List UInt8}
    {results : List Result} (htexts : ∀ source ∈ texts, IsTyped source)
    (hruns : runAsFiles fuel texts bytes = some results) {s : State}
    (hstdin : s.stdin = ⟨Text.toBytes (String.join texts), true⟩)
    (hfile : s.file = some { unread := bytes }) (hstdout : s.stdout.Open) {programs : Nat}
    (hprograms : texts.length ≤ programs) :
    ∃ reports, ReportsAll texts results reports ∧
      s.executeTyped fuel programs =
        some { code := 0
               stdout := (s.stdout.write (String.join (results.map (·.stdout)))).2.text
               stderr := s.stderr ++ String.join reports } := by
  induction texts generalizing bytes results s programs with
  | nil =>
      obtain rfl : [] = results := Option.some.inj hruns
      refine ⟨[], .nil, ?_⟩
      have hstop : s.executeTyped fuel programs = some (s.finish 0) := by
        cases programs with
        | zero => rfl
        | succ programs =>
            have hended : readTyped "" (s.stdin.unread.length + 1) s.stdin = (.ended, s.stdin) := by
              rw [hstdin]
              rfl
            rw [State.executeTyped, hended]
      rw [hstop, List.map_nil, String.join_nil, hstdout.write_empty, String.append_empty]
      rfl
  | cons source texts ih =>
      obtain ⟨htyped, htexts⟩ := List.forall_mem_cons.1 htexts
      obtain ⟨programs, rfl⟩ : ∃ n, programs = n + 1 :=
        Nat.exists_eq_add_one.2 (Nat.zero_lt_of_lt hprograms)
      rw [runAsFiles] at hruns
      obtain ⟨result, hrun, hrest⟩ := Option.bind_eq_some_iff.1 hruns
      obtain ⟨others, hothers, hresults⟩ := Option.bind_eq_some_iff.1 hrest
      obtain rfl : result :: others = results := Option.some.inj hresults
      rw [String.join_cons, Text.toBytes_append] at hstdin
      have hread : readTyped "" (s.stdin.unread.length + 1) s.stdin =
          (.program (Text.doubleSpaced source), ⟨Text.toBytes (String.join texts), true⟩) := by
        rw [hstdin]
        exact readTyped_typed htyped _
      obtain ⟨succeeded, report, hreport, hexecute⟩ :=
        State.execute_typed (s := { s with stdin := ⟨Text.toBytes (String.join texts), true⟩ })
          hfile hstdout hrun
      obtain ⟨reports, hreports, hsession⟩ := ih htexts hothers
        (s := { s with
          stdin := ⟨Text.toBytes (String.join texts), true⟩
          file := some { unread := leftUnread fuel source bytes }
          stdout := (s.stdout.write result.stdout).2
          stderr := s.stderr ++ report })
        rfl rfl (hstdout.write _) (Nat.le_of_succ_le_succ hprograms)
      refine ⟨report :: reports, .cons hreport hreports, ?_⟩
      rw [State.executeTyped, hread]
      dsimp only
      rw [hexecute]
      refine hsession.trans ?_
      rw [hstdout.write_write, List.map_cons, String.join_cons, String.join_cons,
        String.append_assoc]

/-- A program takes a byte at least. -/
theorem length_le_of_typed {texts : List String} (h : ∀ source ∈ texts, IsTyped source) :
    texts.length ≤ (Text.toBytes (String.join texts)).length := by
  induction texts with
  | nil => exact Nat.zero_le _
  | cons source texts ih =>
      obtain ⟨htyped, htexts⟩ := List.forall_mem_cons.1 h
      have hpos : 0 < source.toList.length :=
        List.length_pos_iff.2 fun hnil => by
          have hended := htyped.ended
          rw [hnil] at hended
          cases hended
      have hbytes := Text.length_le_length_toBytes source.toList
      rw [String.ofList_toList] at hbytes
      have hrest := ih htexts
      rw [String.join_cons, Text.toBytes_append, List.length_append, List.length_cons]
      omega

/-- **A session is the sequence of its programs.**  If each of them ends as a file, on the input
that the ones before it left unread, then the session on standard input ends with code 0, its
output is their outputs in order, and it reports the errors of those that fail. -/
theorem run_session {fuel : Nat} {files : String → Option (List UInt8)} {input : String}
    {bytes : List UInt8} {texts : List String} {results : List Result}
    (hinput : files input = some bytes) (htexts : ∀ source ∈ texts, IsTyped source)
    (hruns : runAsFiles fuel texts bytes = some results) :
    ∃ reports, ReportsAll texts results reports ∧
      run fuel files { input := some input } (Text.toBytes (String.join texts)) =
        some { code := 0
               stdout := String.join (results.map (·.stdout))
               stderr := String.join reports } := by
  obtain ⟨reports, hreports, hsession⟩ := State.executeTyped_typed htexts hruns
    (s := { stdin := ⟨Text.toBytes (String.join texts), true⟩, file := some { unread := bytes } })
    rfl rfl Sink.open_new (Nat.le_succ_of_le (length_le_of_typed htexts))
  refine ⟨reports, hreports, ?_⟩
  rw [Sink.text_write_new, String.empty_append] at hsession
  unfold run
  dsimp only
  rw [hinput]
  exact hsession

/-- A program that divides by a number it reads. -/
def quotientText : String :=
  "BEGIN CODE\nINT n\nSCAN: n\nDISPLAY: 40 / n\nEND CODE\n"

/-- The program of that text. -/
def quotient : Program where
  body :=
    [.declare .int [⟨⟨"n", ⟨2, 5, 1⟩⟩, none⟩] ⟨2, 1, 3⟩,
    .scan [⟨"n", ⟨3, 7, 1⟩⟩] ⟨3, 1, 4⟩,
    .display [.expr (.binary ⟨.arith .div, ⟨4, 13, 1⟩⟩ (.literal (.int 40) ⟨4, 10, 2⟩)
      (.var "n" ⟨4, 15, 1⟩) ⟨4, 10, 6⟩)] ⟨4, 1, 7⟩]
  span := ⟨1, 1, 5⟩

theorem parse_quotientText : Program.parse quotientText = .ok quotient :=
  rfl

theorem isTyped_quotientText : IsTyped quotientText where
  ended := by decide +kernel
  closed := ⟨"END CODE".toList, by decide +kernel, by decide +kernel⟩
  once := by decide +kernel

/-- What it shows on the lines 4, 0 and 5, of which it reads one each time. -/
def quotientResults : List Result :=
  [{ code := 0, stdout := "10\n", stderr := "" },
   { code := 1
     stdout := ""
     stderr := "runtime error: (4,13): Division by zero\nDISPLAY: 40 / n\n            ^\n" },
   { code := 0, stdout := "8\n", stderr := "" }]

theorem runAsFiles_quotients :
    runAsFiles 0 [quotientText, quotientText, quotientText] (Text.toBytes "4\n0\n5\n") =
      some quotientResults := by
  simp only [runAsFiles, runAsFile_eq, leftUnread, Program.run_of_parse parse_quotientText]
  rfl

/-- The program typed three times.  The second time it fails, and the third time it goes on
behind the line that it failed on. -/
theorem run_session_quotients :
    runAsFiles 0 [quotientText, quotientText, quotientText] (Text.toBytes "4\n0\n5\n") =
        some quotientResults ∧
      ∃ reports, ReportsAll [quotientText, quotientText, quotientText] quotientResults reports ∧
        run 0 (fun _ => some (Text.toBytes "4\n0\n5\n")) { input := some "numbers" }
            (Text.toBytes (String.join [quotientText, quotientText, quotientText])) =
          some { code := 0, stdout := "10\n8\n", stderr := String.join reports } :=
  ⟨runAsFiles_quotients,
    run_session rfl (by simp [isTyped_quotientText]) runAsFiles_quotients⟩

end Shell

end Pseudocode

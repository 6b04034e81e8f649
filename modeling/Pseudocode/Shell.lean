/-
The command line.

A program comes from a file, or programs are typed on standard input one after another,
each up to a line `END CODE`.  A typed line keeps its line end and gets one more, so the
lines of a typed program are numbered in steps of two.  What SCAN reads comes from the
input file, if one is named, and otherwise from standard input behind the program.

Each program runs with fresh variables.  What it shows goes to standard output, followed
by a line end when it succeeds; the report of an error goes to standard error.  Only a
program from a file makes the exit code tell whether it failed.
-/
import Pseudocode.Program.Run
import Pseudocode.Text.Blank

namespace Pseudocode

namespace Shell

/-- What the arguments ask for. -/
structure Invocation where
  /-- The file with the program. -/
  program : Option String := none
  /-- The file with the input. -/
  input : Option String := none
  deriving DecidableEq, Repr

namespace Invocation

/-- Names the file with the input; it may be named once. -/
def withInput (inv : Invocation) (file : String) : Option Invocation :=
  if inv.input.isSome then none else some { inv with input := some file }

/-- Names the file with the program; it may be named once. -/
def withProgram (inv : Invocation) (file : String) : Option Invocation :=
  if inv.program.isSome then none else some { inv with program := some file }

/-- The text behind a longer option's equals sign. -/
def inputOption? (arg : String) : Option String :=
  let option := "--input="
  if arg.startsWith option then some (arg.drop option.length).toString else none

/-- Adds the arguments to what was asked for before them; nothing when they make no
sense. -/
def extend (inv : Invocation) : List String → Option Invocation
  | [] => some inv
  | [arg] =>
    match inputOption? arg with
    | some file => inv.withInput file
    | none => if arg.startsWith "-" && arg ≠ "-" then none else inv.withProgram arg
  | arg :: next :: rest =>
    if arg = "-i" || arg = "--input" then do
      (← inv.withInput next).extend rest
    else
      match inputOption? arg with
      | some file => do (← inv.withInput file).extend (next :: rest)
      | none =>
        if arg.startsWith "-" && arg ≠ "-" then none
        else do (← inv.withProgram arg).extend (next :: rest)

/-- What a list of arguments asks for. -/
def ofArgs (args : List String) : Option Invocation :=
  extend {} args

end Invocation

/-- What the process has produced, and what it can still read. -/
structure State where
  /-- Standard input. -/
  stdin : Input
  /-- The input file, when one is named. -/
  file : Option Input
  stdout : Sink := {}
  stderr : String := ""

/-- What the process leaves behind. -/
structure Result where
  code : Nat
  stdout : String
  stderr : String
  deriving DecidableEq, Repr

/-- The process ends. -/
def State.finish (s : State) (code : Nat) : Result :=
  { code := code, stdout := s.stdout.text, stderr := s.stderr }

/-- The process gives up. -/
def State.abort (s : State) (problem : String) : Result :=
  { s with stderr := s.stderr ++ "Error: " ++ problem ++ "\n" }.finish 1

/-- The words for something that failed because of something else. -/
def causedBy (problem reason : String) : String :=
  problem ++ "\n\nCaused by:\n    " ++ reason

/-- The reason why a file that is not there cannot be read. -/
def noSuchFile : String := "No such file or directory (os error 2)"

/-- Runs one program; tells whether it succeeded.  Nothing when it runs out of fuel. -/
def State.execute (fuel : Nat) (s : State) (source : String) : Option (Bool × State) :=
  let m : Machine Input Sink := .start (s.file.getD s.stdin) s.stdout
  let resume (m : Machine Input Sink) : State :=
    match s.file with
    | some _ => { s with file := some m.input, stdout := m.sink }
    | none => { s with stdin := m.input, stdout := m.sink }
  match Program.run fuel source m with
  | .ok () m =>
    let s := resume m
    some (true, { s with stdout := (s.stdout.write "\n").2 })
  | .error (.failed e) m =>
    let s := resume m
    some (false, { s with stderr := s.stderr ++ e.diagnostic.report source ++ "\n" })
  | .error .outOfFuel _ => none

/-- What reading a typed program gives. -/
inductive Typed where
  | program (source : String)
  /-- Reading a line failed. -/
  | failed (message : String)
  /-- Standard input ended before the program did. -/
  | ended

/-- Reads a typed program of up to `fuel` lines, given its lines so far. -/
def readTyped (source : String) : (fuel : Nat) → Input → Typed × Input
  | 0, stdin => (.ended, stdin)
  | fuel + 1, stdin =>
    match stdin.nextLine with
    | (.ended, stdin) => (.ended, stdin)
    | (.failed message, stdin) => (.failed message, stdin)
    | (.text line, stdin) =>
      let source := source ++ line ++ "\n"
      if Text.trimBlanks line.toList = "END CODE".toList then (.program source, stdin)
      else readTyped source fuel stdin

/-- Runs typed programs, up to `programs` of them.  A line takes a byte, and a program a
line, so there are no more lines and no more programs than bytes. -/
def State.executeTyped (fuel : Nat) : (programs : Nat) → State → Option Result
  | 0, s => some (s.finish 0)
  | programs + 1, s =>
    match readTyped "" (s.stdin.unread.length + 1) s.stdin with
    | (.ended, stdin) => some ({ s with stdin := stdin }.finish 0)
    | (.failed message, stdin) => some ({ s with stdin := stdin }.abort message)
    | (.program source, stdin) => do
      let (_, s) ← { s with stdin := stdin }.execute fuel source
      s.executeTyped fuel programs

/-- Runs a program from a file. -/
def State.executeFile (fuel : Nat) (s : State) (name : String) (content : Option (List UInt8)) :
    Option Result :=
  let problem := "cannot read " ++ name
  match content with
  | none => some (s.abort (causedBy problem noSuchFile))
  | some bytes =>
    match Text.ofBytes? bytes with
    | none => some (s.abort (causedBy problem Input.unreadableMessage))
    | some source => do
      let (succeeded, s) ← s.execute fuel source
      return s.finish (if succeeded then 0 else 1)

/-- Does what the arguments ask for, given the files there are and standard input.
Nothing when a program runs out of fuel. -/
def run (fuel : Nat) (files : String → Option (List UInt8)) (inv : Invocation)
    (stdin : List UInt8) : Option Result :=
  let s : State := { stdin := { unread := stdin, keepsLineEnds := true }, file := none }
  let start (s : State) : Option Result :=
    match inv.program with
    | some name => s.executeFile fuel name (files name)
    | none => s.executeTyped fuel (stdin.length + 1)
  match inv.input with
  | none => start s
  | some name =>
    match files name with
    | none => some (s.abort (causedBy ("cannot open " ++ name) noSuchFile))
    | some bytes => start { s with file := some { unread := bytes } }

end Shell

end Pseudocode

/-
Diagnostics: what a user is shown of an error.

A diagnostic names the kind of the error, its place and its wording.  In a report the
source line follows, and under it a marker for the characters in question.  The marker
has at least one character and, as long as it starts on the line, does not go past it.
-/
import Pseudocode.Span
import Pseudocode.Text.Line

namespace Pseudocode

/-- The stage at which an error is found. -/
inductive Stage where
  | lexical
  | grammar
  | typing
  | runtime
  deriving DecidableEq, Repr

/-- The name of the errors of a stage. -/
def Stage.text : Stage → String
  | .lexical => "lexical error"
  | .grammar => "syntax error"
  | .typing => "type error"
  | .runtime => "runtime error"

/-- An error as it is shown. -/
structure Diagnostic where
  stage : Stage
  span : Span
  message : String
  deriving DecidableEq, Repr

namespace Diagnostic

/-- The place and the wording. -/
def text (d : Diagnostic) : String :=
  "(" ++ d.span.text ++ "): " ++ d.message

/-- The kind, the place and the wording. -/
def headline (d : Diagnostic) : String :=
  d.stage.text ++ ": " ++ d.text

/-- A line of the source, counted from 1, without carriage returns at its end. -/
def sourceLine? (source : String) (line : Nat) : Option (List Char) :=
  if line = 0 then none
  else ((Text.lines source.toList)[line - 1]?).map Text.dropLineEnd

/-- The marker under a line of `width` characters. -/
def marker (span : Span) (width : Nat) : String :=
  let col := span.col - 1
  let len := min (max span.len 1) (max (width - col) 1)
  String.ofList (List.replicate col ' ' ++ List.replicate len '^')

/-- The report of an error in a source text; only the headline when the source has no
such line. -/
def report (d : Diagnostic) (source : String) : String :=
  match sourceLine? source d.span.line with
  | none => d.headline
  | some line =>
    d.headline ++ "\n" ++ String.ofList line ++ "\n" ++ marker d.span line.length

end Diagnostic

end Pseudocode

/-
Input, read line by line.

What a program reads comes from whoever runs it, one line at a time; the words of an error are
theirs.

One such input is a sequence of bytes.  Reading takes the next line whole, also when it is not
text.  The lines of a file lose their line ends; a line of standard input keeps its line
end, which so becomes part of what is read.
-/
import Pseudocode.Text.Line
import Pseudocode.Text.Utf8

namespace Pseudocode

/-- What reading a line gives. -/
inductive Line where
  | text (s : String)
  /-- There is an error with this text. -/
  | failed (message : String)
  /-- There are no more lines. -/
  | ended
  deriving DecidableEq, Repr

/-- Something that lines can be read from. -/
class LineSource (ι : Type) where
  nextLine : ι → Line × ι

/-- Bytes that have not been read yet. -/
structure Input where
  unread : List UInt8
  /-- Whether lines keep their line ends. -/
  keepsLineEnds : Bool := false
  deriving DecidableEq, Repr

namespace Input

/-- The input of some text. -/
def ofText (text : String) : Input :=
  { unread := Text.toBytes text }

/-- The wording for a line that is not text. -/
def unreadableMessage : String :=
  "stream did not contain valid UTF-8"

/-- The next line, and the input behind it. -/
def nextLine (i : Input) : Line × Input :=
  match i.unread with
  | [] => (.ended, i)
  | bytes =>
    let (line, rest) := Text.splitLine bytes
    let i := { i with unread := rest }
    match Text.ofBytes? line with
    | none => (.failed unreadableMessage, i)
    | some s =>
      if i.keepsLineEnds then (.text s, i)
      else (.text (String.ofList (Text.dropLineEnd s.toList)), i)

instance : LineSource Input where
  nextLine := nextLine

end Input

end Pseudocode

/-
Output, as bytes.

What a program writes goes to a sink of whoever runs it.  A program hands its sink some bytes
at a time and asks it at the end to pass them on; what becomes of them is the business of the
sink, and so are the words of an error.

One such sink collects what is written.  It may have room for a limited number of bytes.  What
does not fit is lost: the bytes that fit are written, and the write fails.
-/
import Pseudocode.Text.Utf8

namespace Pseudocode

/-- Something that bytes can be written to.  An answer is the text of an error, or nothing if
all is well. -/
class ByteSink (σ : Type) where
  /-- Takes all of the bytes, or fails. -/
  writeAll : σ → List UInt8 → Option String × σ
  /-- Passes on what was written before. -/
  flush : σ → Option String × σ

/-- A sink that collects what is written. -/
structure Sink where
  /-- The bytes written so far. -/
  written : Array UInt8 := #[]
  /-- How many more bytes fit; nothing when there is no limit. -/
  room : Option Nat := none
  /-- Whether the sink fails when it is asked to pass on what was written. -/
  flushFails : Bool := false
  deriving DecidableEq, Repr

namespace Sink

/-- The wording for a write that does not fit. -/
def fullMessage : String :=
  "failed to write whole buffer"

/-- The wording for output that is not passed on. -/
def flushMessage : String :=
  "flush failed"

/-- Writes bytes as far as there is room. -/
def writeAll (s : Sink) (bytes : List UInt8) : Option String × Sink :=
  match s.room with
  | none => (none, { s with written := s.written ++ bytes })
  | some room =>
    (if bytes.length ≤ room then none else some fullMessage,
      { s with written := s.written ++ bytes.take room, room := some (room - bytes.length) })

instance : ByteSink Sink where
  writeAll := writeAll
  flush s := (if s.flushFails then some flushMessage else none, s)

/-- Writes a text. -/
def write (s : Sink) (text : String) : Option String × Sink :=
  s.writeAll (Text.toBytes text)

/-- What was written, as text. -/
def text (s : Sink) : String :=
  Text.ofCutBytes s.written.toList

end Sink

end Pseudocode

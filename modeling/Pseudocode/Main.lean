/-
The program itself: arguments, files and standard streams.
-/
import Pseudocode.Shell

namespace Pseudocode

namespace Shell

/-- The bytes of a file, if it can be read. -/
def readFile? (name : String) : IO (Option (List UInt8)) := do
  try
    return some (← IO.FS.readBinFile name).toList
  catch _ =>
    return none

/-- The bytes on standard input.  With a file for the program and one for its input
nothing is read from there. -/
def Invocation.readStdin (inv : Invocation) : IO (List UInt8) := do
  if inv.program.isSome && inv.input.isSome then return []
  return (← (← IO.getStdin).readBinToEnd).toList

end Shell

end Pseudocode

open Pseudocode in
def main (args : List String) : IO UInt32 := do
  match Shell.Invocation.ofArgs args with
  | none =>
    IO.eprintln "usage: [FILE_NAME] [-i INPUT]"
    return 1
  | some inv =>
    let names := inv.program.toList ++ inv.input.toList
    let contents ← names.mapM fun name => return (name, ← Shell.readFile? name)
    let files := fun name => (contents.lookup name).join
    match Shell.run Program.ampleFuel files inv (← inv.readStdin) with
    | none => return 1
    | some result =>
      IO.print result.stdout
      IO.eprint result.stderr
      return UInt32.ofNat result.code

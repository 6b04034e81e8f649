/-
From a source text to its run.

A program runs only when its text is well formed and well typed.  The run itself does
not rely on the check: it finds the same faults again, where it meets them.
-/
import Pseudocode.Machine
import Pseudocode.Program.Parse
import Pseudocode.Typing

namespace Pseudocode

namespace Program

variable {ι σ : Type} [LineSource ι] [ByteSink σ]

/-- Reads and runs a source text without checking its types. -/
def execSource (fuel : Nat) (source : String) : Run ι σ Unit := do
  let p ← Run.inspect fun _ => parse source
  p.exec fuel

/-- Reads, checks and runs a source text. -/
def run (fuel : Nat) (source : String) : Run ι σ Unit := do
  let p ← Run.inspect fun _ => parse source
  Run.inspect fun _ => p.analyze
  p.exec fuel

/-- A text that is read as a program is run by checking and running the program. -/
theorem run_of_parse {source : String} {p : Program} (hp : parse source = .ok p) (fuel : Nat) :
    (run fuel source : Run ι σ Unit) =
      Run.inspect (fun _ => p.analyze) >>= fun _ => p.exec fuel := by
  unfold run
  rw [hp]
  rfl

/-- More rounds than a loop can take in the lifetime of a computer. -/
def ampleFuel : Nat := 2 ^ 62

end Program

end Pseudocode

/-
Running programs.

A machine holds the variables, the input and the sink.  A run changes it step by step; when
it stops at an error, everything done before stays done.

A WHILE may go round for ever, so a run is given a bound on the rounds of each loop.  A
run that meets the bound ends as out of fuel, which is neither success nor an error, and
any other end is the same with every larger bound.
-/
import Pseudocode.Expr.Eval
import Pseudocode.Input
import Pseudocode.Input.Field
import Pseudocode.Program
import Pseudocode.Sink

namespace Pseudocode

/-- The state of a run, with an input and a sink of any kind. -/
structure Machine (ι σ : Type) where
  store : Store := {}
  input : ι
  sink : σ

/-- A machine without variables, which reads bytes and collects what is written. -/
abbrev Machine.start (input : Input) (sink : Sink := {}) : Machine Input Sink :=
  { input := input, sink := sink }

/-- Why a run stops before its end. -/
inductive Stop where
  | failed (e : Error)
  /-- A loop took more rounds than allowed. -/
  | outOfFuel

/-- A step of a run, which keeps the state it has reached when it stops. -/
abbrev Run (ι σ : Type) := EStateM Stop (Machine ι σ)

namespace Run

variable {ι σ : Type}

/-! ### Single steps -/

/-- A step that computes something from the variables without changing them. -/
def inspect {α : Type} (f : Store → Except Error α) : Run ι σ α := fun m =>
  match f m.store with
  | .ok a => .ok a m
  | .error e => .error (.failed e) m

/-- A step that stops with a fault. -/
def fail {α : Type} (fault : RunFault) (span : Span) : Run ι σ α :=
  throw (.failed (fault.at span))

/-- Introduces a variable. -/
def declare (name : Name) (ty : Ty) (value : Option Value) : Run ι σ Unit := do
  let m ← get
  match m.store.declare? name.val ty value with
  | some store => set { m with store := store }
  | none => fail (.binding (.redeclared name.val)) name.span

/-- Sets a variable. -/
def put (name : String) (value : Value) : Run ι σ Unit :=
  modify fun m => { m with store := (m.store.assign? name value).getD m.store }

/-- Goes on if a device has answered that all is well. -/
def proceed (span : Span) : (answer : Option String) → Run ι σ Unit
  | none => pure ()
  | some message => fail (.device message) span

/-- Writes a text, all at once. -/
def write [ByteSink σ] (text : String) (span : Span) : Run ι σ Unit := do
  let answer ← modifyGet fun m =>
    let (answer, sink) := ByteSink.writeAll m.sink (Text.toBytes text)
    (answer, { m with sink := sink })
  proceed span answer

/-- Passes on what was written. -/
def flush [ByteSink σ] (span : Span) : Run ι σ Unit := do
  let answer ← modifyGet fun m =>
    let (answer, sink) := ByteSink.flush m.sink
    (answer, { m with sink := sink })
  proceed span answer

/-- Goes on with the line if the input has given one. -/
def received (span : Span) : (line : Line) → Run ι σ String
  | .text s => pure s
  | .failed message => fail (.device message) span
  | .ended => fail .missingInput span

/-- Reads a line. -/
def readLine [LineSource ι] (span : Span) : Run ι σ String := do
  let line ← modifyGet fun m =>
    let (line, input) := LineSource.nextLine m.input
    (line, { m with input := input })
  received span line

/-! ### Constructs -/

/-- A value as a variable of type `ty` holds it; a value that does not fit is a fault at
`span`. -/
def fit (ty : Ty) (name : String) (value : Value) (span : Span) : Except Error Value :=
  match value.coerce? ty with
  | some v => .ok v
  | none => .error ((RunFault.binding (.mismatch value.ty name)).at span)

/-- The first value of a declared name, if it has one. -/
def initial (ty : Ty) (d : Declarator) (store : Store) : Except Error (Option Value) :=
  match d.init with
  | none => .ok none
  | some init => do
    let v ← init.eval store
    return some (← fit ty d.name.val v init.span)

/-- Declares a name, after the evaluation of its first value. -/
def declarator (ty : Ty) (d : Declarator) : Run ι σ Unit := do
  let value ← inspect (initial ty d)
  declare d.name ty value

/-- The type of a declared name. -/
def tyOf (name : Name) (store : Store) : Except Error Ty :=
  match store.ty? name.val with
  | some ty => .ok ty
  | none => .error ((RunFault.binding (.undeclared name.val)).at name.span)

/-- A value as a declared variable holds it. -/
def fitted (value : Value) (span : Span) (name : Name) (store : Store) : Except Error Value := do
  let ty ← tyOf name store
  fit ty name.val value span

/-- Gives a variable a value; a value that does not fit is a fault at `span`. -/
def assign (value : Value) (span : Span) (name : Name) : Run ι σ Unit := do
  let v ← inspect (fitted value span name)
  put name.val v

/-- Gives a variable the value of a field. -/
def receive (name : Name) (field : List Char) : Run ι σ Unit := do
  let ty ← inspect (tyOf name)
  assign (Field.value ty field) name.span name

/-- Reads a line and gives its fields to the targets, from left to right. -/
def scan [LineSource ι] (targets : List Name) (span : Span) : Run ι σ Unit := do
  let line ← readLine span
  let fields := Field.ofLine line
  if fields.length = targets.length then
    (targets.zip fields).forM fun (name, field) => receive name field
  else fail .missingInput span

/-- Repeats a body as long as a condition holds, in fewer than `fuel` rounds. -/
def loop (cond : Run ι σ Bool) (body : Run ι σ Unit) : (fuel : Nat) → Run ι σ Unit
  | 0 => throw .outOfFuel
  | fuel + 1 => do
    if ← cond then
      body
      loop cond body fuel
    else pure ()

/-- The truth value of a condition. -/
def condition (cond : Expr) : Run ι σ Bool :=
  inspect cond.evalCondition

end Run

section Exec

variable {ι σ : Type} [LineSource ι] [ByteSink σ]

mutual

/-- Runs a statement. -/
def Stmt.exec (fuel : Nat) : Stmt → Run ι σ Unit
  | .declare ty vars _ => vars.forM (Run.declarator ty)
  | .assign targets value span => do
    let v ← Run.inspect value.eval
    targets.forM (Run.assign v span)
  | .display items span => do
    let texts ← Run.inspect fun store => items.mapM (Item.eval store)
    Run.write (String.join texts) span
  | .scan targets span => Run.scan targets span
  | .ifThen cond body otherwise _ => do
    if ← Run.condition cond then execStmts fuel body else otherwise.exec fuel
  | .loop cond body _ => Run.loop (Run.condition cond) (execStmts fuel body) fuel

/-- Runs the ELSE clauses. -/
def Otherwise.exec (fuel : Nat) : Otherwise → Run ι σ Unit
  | .nothing => pure ()
  | .elseIf cond body otherwise => do
    if ← Run.condition cond then execStmts fuel body else otherwise.exec fuel
  | .bare body => execStmts fuel body

/-- Runs statements in order. -/
def execStmts (fuel : Nat) : List Stmt → Run ι σ Unit
  | [] => pure ()
  | s :: rest => do
    s.exec fuel
    execStmts fuel rest

end

/-- Runs a program, and passes on what it wrote. -/
def Program.exec (fuel : Nat) (p : Program) : Run ι σ Unit := do
  execStmts fuel p.body
  Run.flush p.span

end Exec

end Pseudocode

/-
Runs, one step after another.

A run is given as a function from the state before it to the state behind it, which says
nothing of the states between.  Here a run is taken apart.  What is left to do is a list of
tasks; a step does the first of them, changes the machine by at most one access to the
variables, the input or the output, and may put smaller tasks in its place.  A session does
the tasks of one program after another on one machine, and goes on with the next program
also when one fails.

No step has a bound on anything, so a loop that never ends is a session with more and more
steps.  What ties the steps to the runs is that the tasks of a program lead to the state in
which its run ends, and if the run is cut short in a loop, through the state it had there.
-/
import Mathlib.Logic.Relation
import Pseudocode.Proofs.Sequencing

namespace Pseudocode

/-! ### Tasks -/

/-- Something that is left to do. -/
inductive Task where
  | stmt (s : Stmt)
  | clauses (o : Otherwise)
  /-- One name of a declaration. -/
  | declare (ty : Ty) (d : Declarator)
  /-- One target of an assignment, whose value is known. -/
  | assign (value : Value) (span : Span) (name : Name)
  /-- One target of a SCAN, with its field of the line. -/
  | field (name : Name) (text : List Char)
  /-- A variable whose new value is known, as it is to be held. -/
  | put (name : String) (value : Value)
  /-- The end of a program that starts at `span`. -/
  | flush (span : Span)

/-- Does a task, and tells what is to be done in its place. -/
def Task.step {ι σ : Type} [LineSource ι] [ByteSink σ] : Task → Run ι σ (List Task)
  | .stmt (.declare ty vars _) => return vars.map (.declare ty)
  | .stmt (.assign targets value span) => do
    let v ← Run.inspect value.eval
    return targets.map (.assign v span)
  | .stmt (.display items span) => do
    let texts ← Run.inspect fun store => items.mapM (Item.eval store)
    Run.write (String.join texts) span
    return []
  | .stmt (.scan targets span) => do
    let line ← Run.readLine span
    let fields := Field.ofLine line
    if fields.length = targets.length then
      return (targets.zip fields).map fun (name, text) => .field name text
    else Run.fail .missingInput span
  | .stmt (.ifThen cond body otherwise _) => do
    if ← Run.condition cond then return body.map .stmt else return [.clauses otherwise]
  | .stmt (.loop cond body span) => do
    if ← Run.condition cond then return body.map .stmt ++ [.stmt (.loop cond body span)]
    else return []
  | .clauses .nothing => return []
  | .clauses (.elseIf cond body otherwise) => do
    if ← Run.condition cond then return body.map .stmt else return [.clauses otherwise]
  | .clauses (.bare body) => return body.map .stmt
  | .declare ty d => do
    Run.declarator ty d
    return []
  | .assign value span name => do
    let v ← Run.inspect (Run.fitted value span name)
    return [.put name.val v]
  | .field name text => do
    let ty ← Run.inspect (Run.tyOf name)
    return [.assign (Field.value ty text) name.span name]
  | .put name value => do
    Run.put name value
    return []
  | .flush span => do
    Run.flush span
    return []

/-- What a program is to do. -/
def Program.tasks (p : Program) : List Task :=
  p.body.map .stmt ++ [.flush p.span]

/-! ### Sessions -/

/-- A session between two steps. -/
structure Session (ι σ : Type) where
  machine : Machine ι σ
  /-- What is left of the program that is running. -/
  tasks : List Task
  /-- The programs that come after it. -/
  programs : List Program

section

variable {ι σ : Type}

namespace Session

/-- Where a session stands when the run of its first tasks has ended as given. -/
def Stands (rest : List Task) (programs : List Program) :
    EStateM.Result Stop (Machine ι σ) Unit → Session ι σ → Prop
  | .ok _ m, s => s = ⟨m, rest, programs⟩
  | .error (.failed _) m, s => s = ⟨m, [], programs⟩
  -- A loop that is cut short goes on in the session.
  | .error .outOfFuel m, s => s.machine = m ∧ s.programs = programs

theorem Stands.of_error {rest : List Task} {programs : List Program} {why : Stop}
    {m : Machine ι σ} : Stands rest programs (.error why m) ⟨m, [], programs⟩ := by
  cases why with
  | failed e => exact rfl
  | outOfFuel => exact ⟨rfl, rfl⟩

variable [LineSource ι] [ByteSink σ]

/-- A step of a session. -/
inductive Step : Session ι σ → Session ι σ → Prop
  /-- The first task is done, and others take its place. -/
  | task {t : Task} {new tasks : List Task} {programs : List Program} {m m' : Machine ι σ}
      (h : t.step m = .ok new m') : Step ⟨m, t :: tasks, programs⟩ ⟨m', new ++ tasks, programs⟩
  /-- The first task stops, and the rest of its program is dropped. -/
  | stop {t : Task} {tasks : List Task} {programs : List Program} {m m' : Machine ι σ} {why : Stop}
      (h : t.step m = .error why m') : Step ⟨m, t :: tasks, programs⟩ ⟨m', [], programs⟩
  /-- The next program starts. -/
  | start {p : Program} {programs : List Program} {m : Machine ι σ} :
      Step ⟨m, [], p :: programs⟩ ⟨m, p.tasks, programs⟩

/-- A session comes from one state to the other. -/
def Reaches : Session ι σ → Session ι σ → Prop :=
  Relation.ReflTransGen Step

end Session

/-! ### Tasks do what runs do -/

variable [LineSource ι] [ByteSink σ]

namespace Run

/-- A session that starts with these tasks comes to where the run ends. -/
def Performs (x : Run ι σ Unit) (ts : List Task) : Prop :=
  ∀ m rest programs, ∃ s,
    Session.Reaches ⟨m, ts ++ rest, programs⟩ s ∧ Session.Stands rest programs (x m) s

namespace Performs

theorem nothing : Performs (ι := ι) (σ := σ) (pure ()) [] :=
  fun _ _ _ => ⟨_, .refl, rfl⟩

theorem append {x y : Run ι σ Unit} {ts us : List Task} (hx : x.Performs ts) (hy : y.Performs us) :
    Performs (x >>= fun _ => y) (ts ++ us) := by
  intro m rest programs
  obtain ⟨s, hreach, hs⟩ := hx m (us ++ rest) programs
  rw [List.append_assoc]
  change ∃ s, _ ∧ Session.Stands rest programs (EStateM.bind x (fun _ => y) m) s
  unfold EStateM.bind
  cases hres : x m with
  | ok a m' =>
      rw [hres] at hs
      obtain rfl := hs
      obtain ⟨s', hreach', hs'⟩ := hy m' rest programs
      exact ⟨s', hreach.trans hreach', hs'⟩
  | error why m' =>
      rw [hres] at hs
      refine ⟨s, hreach, ?_⟩
      cases why with
      | failed e => exact hs
      | outOfFuel => exact hs

theorem forM {α : Type} {f : α → Run ι σ Unit} {g : α → Task} (h : ∀ a, (f a).Performs [g a])
    (as : List α) : Performs (as.forM f) (as.map g) := by
  induction as with
  | nil => exact nothing
  | cons a as ih => exact append (h a) ih

end Performs

/-- What a whole run comes to, after a first step that ends as given. -/
def Resumes (whole : EStateM.Result Stop (Machine ι σ) Unit) :
    EStateM.Result Stop (Machine ι σ) (List Task) → Prop
  | .ok new m => ∀ rest programs, ∃ s,
      Session.Reaches ⟨m, new ++ rest, programs⟩ s ∧ Session.Stands rest programs whole s
  | .error why m => whole = .error why m

/-- The run is the step `k`, and then what the tasks say that `k` tells. -/
def Begins (x : Run ι σ Unit) (k : Run ι σ (List Task)) : Prop :=
  ∀ m, Resumes (x m) (k m)

namespace Begins

theorem pure {x : Run ι σ Unit} {new : List Task} (h : x.Performs new) : x.Begins (pure new) :=
  h

theorem fail (fault : RunFault) (span : Span) :
    Begins (ι := ι) (σ := σ) (Run.fail fault span) (Run.fail fault span) :=
  fun _ => rfl

/-- Both start with the same step. -/
theorem bind {α : Type} (z : Run ι σ α) {y : α → Run ι σ Unit} {k : α → Run ι σ (List Task)}
    (h : ∀ a, (y a).Begins (k a)) : Begins (z >>= y) (z >>= k) := by
  intro m
  change Resumes (EStateM.bind z y m) (EStateM.bind z k m)
  unfold EStateM.bind
  cases z m with
  | ok a m' => exact h a m'
  | error why m' => exact rfl

/-- A step that leaves nothing to do. -/
theorem only (x : Run ι σ Unit) : x.Begins (x >>= fun _ => Pure.pure []) := by
  have h : Begins (x >>= fun _ => Pure.pure ()) (x >>= fun _ => Pure.pure []) :=
    bind x fun _ => pure .nothing
  rwa [bind_pure_unit] at h

end Begins

/-- What begins with the step of a task is performed by the task. -/
theorem Begins.performs {x : Run ι σ Unit} {t : Task} (h : x.Begins t.step) : x.Performs [t] := by
  intro m rest programs
  have hm := h m
  cases hres : t.step m with
  | ok new m' =>
      rw [hres] at hm
      obtain ⟨s, hreach, hs⟩ := hm rest programs
      exact ⟨s, .head (.task hres) hreach, hs⟩
  | error why m' =>
      rw [hres] at hm
      refine ⟨_, .single (.stop hres), ?_⟩
      rw [show x m = .error why m' from hm]
      exact .of_error

/-! ### Each construct -/

theorem declarator_performs (ty : Ty) (d : Declarator) :
    Performs (ι := ι) (σ := σ) (declarator ty d) [.declare ty d] :=
  (Begins.only _).performs

theorem put_performs (name : String) (value : Value) :
    Performs (ι := ι) (σ := σ) (put name value) [.put name value] :=
  (Begins.only _).performs

theorem assign_performs (value : Value) (span : Span) (name : Name) :
    Performs (ι := ι) (σ := σ) (assign value span name) [.assign value span name] :=
  Begins.performs (.bind _ fun v => .pure (put_performs name.val v))

theorem scan_performs (targets : List Name) (span : Span) :
    Performs (ι := ι) (σ := σ) (scan targets span) [.stmt (.scan targets span)] := by
  refine Begins.performs (.bind _ fun line => ?_)
  dsimp only
  split
  · refine .pure (.forM (fun target => ?_) _)
    exact Begins.performs (.bind _ fun ty => .pure (assign_performs _ _ _))
  · exact .fail _ _

theorem loop_performs {cond : Expr} {body : List Stmt} {x : Run ι σ Unit} (span : Span)
    (hx : x.Performs (body.map .stmt)) (rounds : Nat) :
    (loop (condition cond) x rounds).Performs [.stmt (.loop cond body span)] := by
  induction rounds with
  | zero => exact fun m rest programs => ⟨_, .refl, rfl, rfl⟩
  | succ rounds ih =>
      refine Begins.performs (.bind _ fun b => ?_)
      cases b with
      | true => exact .pure (hx.append ih)
      | false => exact .pure .nothing

/-- A clause does its body, or what comes when its condition does not hold. -/
theorem clause_begins {cond : Expr} {x y : Run ι σ Unit} {ts us : List Task} (hx : x.Performs ts)
    (hy : y.Performs us) :
    Begins (do if ← condition cond then x else y)
      (do if ← condition cond then return ts else return us) := by
  refine .bind _ fun b => ?_
  cases b with
  | true => exact .pure hx
  | false => exact .pure hy

end Run

mutual

theorem Stmt.exec_performs (fuel : Nat) (s : Stmt) :
    Run.Performs (ι := ι) (σ := σ) (s.exec fuel) [.stmt s] := by
  match s with
  | .declare ty vars span =>
      exact Run.Begins.performs (.pure (.forM (Run.declarator_performs ty) vars))
  | .assign targets value span =>
      refine Run.Begins.performs (.bind _ fun v => .pure ?_)
      exact .forM (Run.assign_performs v span) targets
  | .display items span =>
      exact Run.Begins.performs (.bind _ fun texts => .only _)
  | .scan targets span => exact Run.scan_performs targets span
  | .ifThen cond body otherwise span =>
      refine Run.Begins.performs (Run.clause_begins (execStmts_performs fuel body) ?_)
      exact otherwise.exec_performs fuel
  | .loop cond body span => exact Run.loop_performs span (execStmts_performs fuel body) fuel

theorem Otherwise.exec_performs (fuel : Nat) (o : Otherwise) :
    Run.Performs (ι := ι) (σ := σ) (o.exec fuel) [.clauses o] := by
  match o with
  | .nothing => exact Run.Begins.performs (.pure .nothing)
  | .elseIf cond body otherwise =>
      refine Run.Begins.performs (Run.clause_begins (execStmts_performs fuel body) ?_)
      exact otherwise.exec_performs fuel
  | .bare body => exact Run.Begins.performs (.pure (execStmts_performs fuel body))

theorem execStmts_performs (fuel : Nat) (body : List Stmt) :
    Run.Performs (ι := ι) (σ := σ) (execStmts fuel body) (body.map .stmt) := by
  match body with
  | [] => exact .nothing
  | s :: rest => exact .append (s.exec_performs fuel) (execStmts_performs fuel rest)

end

/-- **The tasks of a program lead to where its run ends.** -/
theorem Program.exec_performs (fuel : Nat) (p : Program) :
    Run.Performs (ι := ι) (σ := σ) (p.exec fuel) p.tasks :=
  .append (execStmts_performs fuel p.body) (Run.Begins.performs (.only _))

end

end Pseudocode

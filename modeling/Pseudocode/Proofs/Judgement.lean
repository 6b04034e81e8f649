/-
Judgements on runs, for all statements at once.

Much of what is said of runs goes along with the ways in which runs are put together: if it
holds of the parts, it holds of one part after the other, of loops and of choices.  So it is
enough to look at the single steps.  Here those are listed, for each statement: what it looks
up in the variables, the variables it introduces and sets, what it writes, and the line that
it reads.  A judgement that goes along with bind and that holds of the steps of all statements
in a program, holds of the program.  Many steps have to do with the variables alone, and a
judgement on the input or on the sink holds of all of those for the same reason.

The judgements are relations between two runs, of a program and of the same program without
its places.  One that is about a single run leaves the second one out of account.
-/
import Pseudocode.Proofs.Erasure
import Pseudocode.Proofs.Occurrence
import Pseudocode.Proofs.Sequencing

namespace Pseudocode

/-! ### The steps of a statement -/

namespace Stmt

/-- The names that a statement gives a value to, apart from declared ones. -/
def receivers : Stmt → List Name
  | .assign targets _ _ => targets
  | .scan targets _ => targets
  | _ => []

/-- What a statement looks up in the variables, apart from the statements inside of it: with
its places, and without them. -/
inductive Looks : Stmt → (α : Type) → (f f' : Store → Except Error α) → Prop
  /-- A first value. -/
  | initial {ty : Ty} {vars : List Declarator} {span : Span} {d : Declarator} (hd : d ∈ vars) :
      Looks (.declare ty vars span) _ (Run.initial ty d) (Run.initial ty d.erase)
  /-- The value of an assignment. -/
  | value {targets : List Name} {e : Expr} {span : Span} :
      Looks (.assign targets e span) _ e.eval e.erase.eval
  /-- That value, as a target holds it. -/
  | fitted {targets : List Name} {e : Expr} {span : Span} {name : Name} (v : Value)
      (hname : name ∈ targets) :
      Looks (.assign targets e span) _ (Run.fitted v span name) (Run.fitted v .nowhere name.erase)
  /-- What is shown. -/
  | texts {items : List Item} {span : Span} :
      Looks (.display items span) _ (fun store => items.mapM (Item.eval store))
        fun store => (items.map Item.erase).mapM (Item.eval store)
  /-- The type that a field is read for. -/
  | tyOf {targets : List Name} {span : Span} {name : Name} (hname : name ∈ targets) :
      Looks (.scan targets span) _ (Run.tyOf name) (Run.tyOf name.erase)
  /-- The value of a field, as the target holds it. -/
  | field {targets : List Name} {span : Span} {name : Name} (v : Value)
      (hname : name ∈ targets) :
      Looks (.scan targets span) _ (Run.fitted v name.span name)
        (Run.fitted v name.erase.span name.erase)
  /-- The condition of an IF, or of one of its ELSE IF clauses. -/
  | clause {cond : Expr} {body : List Stmt} {otherwise : Otherwise} {span : Span} {e : Expr}
      (he : e ∈ cond :: otherwise.conditions) :
      Looks (.ifThen cond body otherwise span) _ e.evalCondition e.erase.evalCondition
  /-- The condition of a WHILE. -/
  | round {cond : Expr} {body : List Stmt} {span : Span} :
      Looks (.loop cond body span) _ cond.evalCondition cond.erase.evalCondition

variable {ι σ : Type} [LineSource ι] [ByteSink σ]

/-- The steps of a statement, apart from those of the statements inside of it: with its places,
and without them. -/
inductive Step : Stmt → (α : Type) → (x x' : Run ι σ α) → Prop
  | inspect {s : Stmt} {α : Type} {f f' : Store → Except Error α} (h : s.Looks α f f') :
      Step s α (Run.inspect f) (Run.inspect f')
  | declare {s : Stmt} {d : Declarator} (hd : d ∈ s.declared) (ty : Ty) (value : Option Value) :
      Step s Unit (Run.declare d.name ty value) (Run.declare d.erase.name ty value)
  | put {s : Stmt} {name : Name} (hname : name ∈ s.receivers) (v : Value) :
      Step s Unit (Run.put name.val v) (Run.put name.erase.val v)
  | write {items : List Item} {span : Span} (text : String) :
      Step (.display items span) Unit (Run.write text span) (Run.write text .nowhere)
  | readLine {targets : List Name} {span : Span} :
      Step (.scan targets span) String (Run.readLine span) (Run.readLine .nowhere)
  /-- There are more fields than targets, or fewer. -/
  | miscounted {targets : List Name} {span : Span} :
      Step (.scan targets span) Unit (Run.fail .missingInput span)
        (Run.fail .missingInput .nowhere)

end Stmt

/-! ### Steps that have to do with the variables alone -/

namespace Machine

variable {ι σ : Type}

/-- The machine with another input. -/
def withInput (m : Machine ι σ) (i : ι) : Machine ι σ :=
  { m with input := i }

/-- The machine with another sink. -/
def withSink (m : Machine ι σ) (sink : σ) : Machine ι σ :=
  { m with sink := sink }

end Machine

namespace Run

variable {ι σ α : Type}

/-- The input and the sink make no difference to the run, and it leaves them as they are. -/
structure OnStore (x : Run ι σ α) : Prop where
  input : ∀ m i, x (m.withInput i) = onFinal (·.withInput i) (x m)
  sink : ∀ m s, x (m.withSink s) = onFinal (·.withSink s) (x m)

namespace OnStore

theorem pure (a : α) : OnStore (ι := ι) (σ := σ) (pure a) :=
  ⟨fun _ _ => rfl, fun _ _ => rfl⟩

theorem outOfFuel : OnStore (ι := ι) (σ := σ) (throw .outOfFuel : Run ι σ α) :=
  ⟨fun _ _ => rfl, fun _ _ => rfl⟩

theorem fail (fault : RunFault) (span : Span) :
    OnStore (ι := ι) (σ := σ) (Run.fail fault span : Run ι σ α) :=
  ⟨fun _ _ => rfl, fun _ _ => rfl⟩

theorem inspect (f : Store → Except Error α) : OnStore (ι := ι) (σ := σ) (Run.inspect f) := by
  constructor
  all_goals
    intro m _
    cases h : f m.store with
    | ok a => rw [inspect_of_ok h]; exact inspect_of_ok h
    | error e => rw [inspect_of_error h]; exact inspect_of_error h

theorem declare (name : Name) (ty : Ty) (value : Option Value) :
    OnStore (ι := ι) (σ := σ) (Run.declare name ty value) := by
  constructor
  all_goals
    intro m _
    cases h : m.store.declare? name.val ty value with
    | some store => rw [declare_of_some h]; exact declare_of_some h
    | none => rw [declare_of_none h]; exact declare_of_none h

theorem put (name : String) (value : Value) : OnStore (ι := ι) (σ := σ) (Run.put name value) :=
  ⟨fun _ _ => rfl, fun _ _ => rfl⟩

theorem proceed (span : Span) (answer : Option String) :
    OnStore (ι := ι) (σ := σ) (Run.proceed span answer) := by
  cases answer with
  | none => exact pure ()
  | some message => exact fail _ _

theorem received (span : Span) (line : Line) :
    OnStore (ι := ι) (σ := σ) (Run.received span line) := by
  cases line with
  | text s => exact pure s
  | failed message => exact fail _ _
  | ended => exact fail _ _

theorem final_input {x : Run ι σ α} (h : x.OnStore) (m : Machine ι σ) :
    (final (x m)).input = m.input := by
  have hm : x m = onFinal (·.withInput m.input) (x m) := h.input m m.input
  rw [hm]
  cases x m <;> rfl

theorem final_sink {x : Run ι σ α} (h : x.OnStore) (m : Machine ι σ) :
    (final (x m)).sink = m.sink := by
  have hm : x m = onFinal (·.withSink m.sink) (x m) := h.sink m m.sink
  rw [hm]
  cases x m <;> rfl

end OnStore

end Run

/-! ### Relations that go along with runs -/

namespace Run

variable {ι σ : Type} {R : (α : Type) → Run ι σ α → Run ι σ α → Prop}

/-- What holds of the parts holds of the whole. -/
structure Congruence (R : (α : Type) → Run ι σ α → Run ι σ α → Prop) : Prop where
  pure {α : Type} (a : α) : R α (pure a) (pure a)
  bind {α β : Type} {x x' : Run ι σ α} {f f' : α → Run ι σ β} (hx : R α x x')
    (hf : ∀ a, R β (f a) (f' a)) : R β (x >>= f) (x' >>= f')
  outOfFuel : R Unit (throw .outOfFuel) (throw .outOfFuel)

/-- What holds of the parts holds of the whole, for single runs. -/
abbrev Judgement (J : (α : Type) → Run ι σ α → Prop) : Prop :=
  Congruence fun α x _ => J α x

namespace Congruence

theorem forM {α : Type} (hR : Congruence R) {f f' : α → Run ι σ Unit} {h : α → α} {as : List α}
    (hf : ∀ a ∈ as, R Unit (f a) (f' (h a))) : R Unit (as.forM f) ((as.map h).forM f') := by
  induction as with
  | nil => exact hR.pure ()
  | cons a as ih =>
      obtain ⟨ha, has⟩ := List.forall_mem_cons.1 hf
      exact hR.bind ha fun _ => ih has

theorem proceed (hR : Congruence R) (span span' : Span)
    (hfail : ∀ fault, R Unit (fail fault span) (fail fault span')) (answer : Option String) :
    R Unit (Run.proceed span answer) (Run.proceed span' answer) := by
  cases answer with
  | none => exact hR.pure ()
  | some message => exact hfail (.device message)

theorem received (hR : Congruence R) (span span' : Span)
    (hfail : ∀ fault, R String (fail fault span) (fail fault span')) (line : Line) :
    R String (Run.received span line) (Run.received span' line) := by
  cases line with
  | text s => exact hR.pure s
  | failed message => exact hfail (.device message)
  | ended => exact hfail .missingInput

/-- A choice by a condition. -/
theorem clause {α : Type} (hR : Congruence R) {cond cond' : Run ι σ Bool} {x x' y y' : Run ι σ α}
    (hcond : R Bool cond cond') (hx : R α x x') (hy : R α y y') :
    R α (do if ← cond then x else y) (do if ← cond' then x' else y') := by
  refine hR.bind hcond fun b => ?_
  cases b with
  | true => exact hx
  | false => exact hy

theorem loop (hR : Congruence R) {cond cond' : Run ι σ Bool} {body body' : Run ι σ Unit}
    (hcond : R Bool cond cond') (hbody : R Unit body body') (fuel : Nat) :
    R Unit (Run.loop cond body fuel) (Run.loop cond' body' fuel) := by
  induction fuel with
  | zero => exact hR.outOfFuel
  | succ fuel ih => exact hR.clause hcond (hR.bind hbody fun _ => ih) (hR.pure ())

end Congruence

end Run

/-! ### Statements -/

section Exec

variable {ι σ : Type} [LineSource ι] [ByteSink σ]
  {R : (α : Type) → Run ι σ α → Run ι σ α → Prop}

/-- The relation holds of all steps of the statements. -/
def HoldsOf (R : (α : Type) → Run ι σ α → Run ι σ α → Prop) (stmts : List Stmt) : Prop :=
  ∀ s ∈ stmts, ∀ ⦃α : Type⦄ ⦃x x' : Run ι σ α⦄, s.Step α x x' → R α x x'

open Run (Congruence)

theorem Run.Congruence.declarator (hR : Congruence R) {ty : Ty} {vars : List Declarator}
    {span : Span} (hs : HoldsOf R [.declare ty vars span]) {d : Declarator} (hd : d ∈ vars) :
    R Unit (Run.declarator ty d) (Run.declarator ty d.erase) := by
  have hstep := List.forall_mem_singleton.1 hs
  refine hR.bind (hstep (.inspect (.initial hd))) fun value => ?_
  exact hstep (.declare hd ty value)

theorem Run.Congruence.scan (hR : Congruence R) {targets : List Name} {span : Span}
    (hs : HoldsOf R [.scan targets span]) :
    R Unit (Run.scan targets span) (Run.scan (targets.map Located.erase) .nowhere) := by
  have hstep := List.forall_mem_singleton.1 hs
  refine hR.bind (hstep .readLine) fun line => ?_
  dsimp only
  rw [List.length_map, List.zip_map_left]
  split
  · refine hR.forM fun pair hpair => ?_
    have hname : pair.1 ∈ targets := (List.of_mem_zip hpair).1
    refine hR.bind (hstep (.inspect (.tyOf hname))) fun ty => ?_
    exact hR.bind (hstep (.inspect (.field _ hname))) fun v => hstep (.put hname v)
  · exact hstep .miscounted

mutual

theorem Stmt.exec_holds (hR : Congruence R) (fuel : Nat) (s : Stmt) (hs : HoldsOf R s.parts) :
    R Unit (s.exec fuel) (s.erase.exec fuel) := by
  have hstep := hs s s.mem_parts_self
  match s with
  | .declare ty vars span => exact hR.forM fun d hd => hR.declarator hs hd
  | .assign targets value span =>
      refine hR.bind (hstep (.inspect .value)) fun v => hR.forM fun name hname => ?_
      exact hR.bind (hstep (.inspect (.fitted v hname))) fun w => hstep (.put hname w)
  | .display items span =>
      exact hR.bind (hstep (.inspect .texts)) fun texts => hstep (.write _)
  | .scan targets span => exact hR.scan hs
  | .ifThen cond body otherwise span =>
      have hcond : ∀ e ∈ cond :: otherwise.conditions,
          R Bool (Run.condition e) (Run.condition e.erase) :=
        fun e he => hstep (.inspect (.clause he))
      obtain ⟨hfirst, hothers⟩ := List.forall_mem_cons.1 hcond
      rw [Stmt.parts, HoldsOf, List.forall_mem_cons, List.forall_mem_append] at hs
      exact hR.clause hfirst (execStmts_holds hR fuel body hs.2.1)
        (otherwise.exec_holds hR fuel hothers hs.2.2)
  | .loop cond body span =>
      rw [Stmt.parts, HoldsOf, List.forall_mem_cons] at hs
      exact hR.loop (hstep (.inspect .round)) (execStmts_holds hR fuel body hs.2) fuel

theorem Otherwise.exec_holds (hR : Congruence R) (fuel : Nat) (o : Otherwise)
    (hconds : ∀ e ∈ o.conditions, R Bool (Run.condition e) (Run.condition e.erase))
    (hs : HoldsOf R o.parts) : R Unit (o.exec fuel) (o.erase.exec fuel) := by
  match o with
  | .nothing => exact hR.pure ()
  | .elseIf cond body otherwise =>
      obtain ⟨hcond, hconds⟩ := List.forall_mem_cons.1 hconds
      rw [Otherwise.parts, HoldsOf, List.forall_mem_append] at hs
      exact hR.clause hcond (execStmts_holds hR fuel body hs.1)
        (otherwise.exec_holds hR fuel hconds hs.2)
  | .bare body => exact execStmts_holds hR fuel body hs

theorem execStmts_holds (hR : Congruence R) (fuel : Nat) (body : List Stmt)
    (hs : HoldsOf R (stmtParts body)) :
    R Unit (execStmts fuel body) (execStmts fuel (eraseStmts body)) := by
  match body with
  | [] => exact hR.pure ()
  | s :: rest =>
      rw [stmtParts, HoldsOf, List.forall_mem_append] at hs
      exact hR.bind (s.exec_holds hR fuel hs.1) fun _ => execStmts_holds hR fuel rest hs.2

end

/-- **What holds of the steps holds of the program.** -/
theorem Program.exec_holds (hR : Congruence R) (fuel : Nat) (p : Program)
    (hs : HoldsOf R p.stmts) (hflush : R Unit (Run.flush p.span) (Run.flush p.erase.span)) :
    R Unit (p.exec fuel) (p.erase.exec fuel) :=
  hR.bind (execStmts_holds hR fuel p.body hs) fun _ => hflush

/-- A judgement on whatever keeps to the variables holds of a program, if it holds of what the
program does with its input and its sink. -/
theorem Program.exec_of_onStore {J : (α : Type) → Run ι σ α → Prop}
    (hstore : ∀ {α : Type} {x : Run ι σ α}, x.OnStore → J α x)
    (hbind : ∀ {α β : Type} {x : Run ι σ α} {f : α → Run ι σ β}, J α x → (∀ a, J β (f a)) →
      J β (x >>= f))
    (fuel : Nat) (p : Program)
    (hwrite : ∀ items span text, .display items span ∈ p.stmts → J Unit (Run.write text span))
    (hread : ∀ span, J String (Run.readLine span)) (hflush : J Unit (Run.flush p.span)) :
    J Unit (p.exec fuel) := by
  have hJ : Run.Judgement J := ⟨fun a => hstore (.pure a), hbind, hstore .outOfFuel⟩
  refine p.exec_holds hJ fuel (fun s hs _ _ _ h => ?_) hflush
  cases h with
  | inspect _ => exact hstore (.inspect _)
  | declare _ ty value => exact hstore (.declare _ ty value)
  | put _ v => exact hstore (.put _ v)
  | write text => exact hwrite _ _ text hs
  | readLine => exact hread _
  | miscounted => exact hstore (.fail _ _)

end Exec

end Pseudocode

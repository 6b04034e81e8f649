/-
Variables hold values of their types, in every program.

The check is not needed for this.  Before a value goes into the store, a run converts it to
the type of its variable or fails, and so the store is well typed at every point of a
session, also of one whose programs are ill typed, fail half way through a statement or
never end.  For the same reason every variable stays what it was declared as: it is never
forgotten, it keeps its type, and once it has a value it always has one.
-/
import Pseudocode.Proofs.Steps
import Pseudocode.Proofs.TypedEval

namespace Pseudocode

/-! ### Stores -/

namespace Store

variable {s s' s'' : Store} {x : String}

/-- Every value is of the type that its variable was declared with. -/
def Typed (s : Store) : Prop :=
  ∀ x t v, s.get? x = some ⟨t, some v⟩ → v.ty = t

/-- The variables of the first store are in the second one too, with their types, and those
that have a value have one there. -/
def Persists (s s' : Store) : Prop :=
  ∀ x var, s.get? x = some var →
    ∃ value, s'.get? x = some ⟨var.ty, value⟩ ∧ (var.value.isSome → value.isSome)

theorem Persists.refl (s : Store) : s.Persists s :=
  fun _ var h => ⟨var.value, h, id⟩

theorem Persists.trans (h : s.Persists s') (h' : s'.Persists s'') : s.Persists s'' := by
  intro x var hx
  obtain ⟨value, hx', hvalue⟩ := h x var hx
  obtain ⟨value', hx'', hvalue'⟩ := h' x _ hx'
  exact ⟨value', hx'', fun hsome => hvalue' (hvalue hsome)⟩

theorem Persists.ty? {t : Ty} (h : s.Persists s') (hx : s.ty? x = some t) : s'.ty? x = some t := by
  obtain ⟨var, hvar, rfl⟩ := Option.map_eq_some_iff.1 hx
  obtain ⟨value, hx', -⟩ := h x var hvar
  rw [Store.ty?, hx', Option.map_some]

theorem typed_empty : Typed {} := by
  intro x t v h
  simp [get?] at h

theorem persists_declare {t : Ty} {value : Option Value} (h : s.declare? x t value = some s') :
    s.Persists s' := by
  intro y var hy
  refine ⟨var.value, ?_, id⟩
  have hne : y ≠ x := by
    rintro rfl
    rw [(declare?_eq_some_iff.1 h).1] at hy
    cases hy
  rw [get?_of_declare? h, if_neg hne, hy]

theorem Typed.declare {t : Ty} {value : Option Value} (hs : s.Typed)
    (h : s.declare? x t value = some s') (hvalue : ∀ v, value = some v → v.ty = t) : s'.Typed := by
  intro y t' v hy
  rw [get?_of_declare? h] at hy
  by_cases hyx : y = x
  · rw [if_pos hyx] at hy
    cases hy
    exact hvalue v rfl
  · rw [if_neg hyx] at hy
    exact hs y t' v hy

theorem persists_assign {v : Value} (h : s.assign? x v = some s') : s.Persists s' := by
  intro y var hy
  by_cases hyx : y = x
  · subst hyx
    refine ⟨some v, ?_, fun _ => rfl⟩
    rw [get?_of_assign? h, if_pos rfl, hy, Option.map_some]
  · refine ⟨var.value, ?_, id⟩
    rw [get?_of_assign? h, if_neg hyx, hy]

theorem Typed.assign {v : Value} (hs : s.Typed) (h : s.assign? x v = some s')
    (hx : s.ty? x = some v.ty) : s'.Typed := by
  obtain ⟨var, hvar, hty⟩ := Option.map_eq_some_iff.1 hx
  intro y t w hy
  rw [get?_of_assign? h] at hy
  by_cases hyx : y = x
  · rw [if_pos hyx, hvar, Option.map_some] at hy
    cases hy
    exact hty.symm
  · rw [if_neg hyx] at hy
    exact hs y t w hy

end Store

/-! ### What a step does to the store -/

namespace Store

/-- What a step may make of the variables. -/
structure Becomes (s s' : Store) : Prop where
  typed : s'.Typed
  persists : s.Persists s'

theorem Typed.becomes {s : Store} (h : s.Typed) : s.Becomes s :=
  ⟨h, .refl s⟩

end Store

variable {ι σ : Type} {s : Store}

namespace Task

/-- No variable has to be set right away. -/
def Calm (ts : List Task) : Prop :=
  ∀ x v, .put x v ∉ ts

/-- A step that does not get at the variables. -/
def Aloof (s : Store) (x : Run ι σ (List Task)) : Prop :=
  Run.Ensures (·.store = s) x (fun new m => m.store = s ∧ Calm new) (·.store = s)

theorem aloof_pure {ts : List Task} (h : Calm ts) : Aloof (ι := ι) (σ := σ) s (pure ts) :=
  .pure fun _ hm => ⟨hm, h⟩

theorem calm_map {α : Type} {g : α → Task} {as : List α} (h : ∀ a x v, g a ≠ .put x v) :
    Calm (as.map g) := by
  intro x v hmem
  obtain ⟨a, -, ha⟩ := List.mem_map.1 hmem
  exact h a x v ha

theorem calm_append {ts us : List Task} (ht : Calm ts) (hu : Calm us) : Calm (ts ++ us) := by
  intro x v hmem
  rcases List.mem_append.1 hmem with hmem | hmem
  · exact ht x v hmem
  · exact hu x v hmem

theorem calm_nil : Calm [] :=
  fun _ _ => List.not_mem_nil

/-- What a step makes of the variables is well typed, and so are the values it is about to
give them. -/
def Steady (s : Store) (x : Run ι σ (List Task)) : Prop :=
  Run.Ensures (·.store = s) x
    (fun new m => s.Becomes m.store ∧ ∀ x v, .put x v ∈ new → m.store.ty? x = some v.ty)
    (s.Becomes ·.store)

theorem Aloof.steady {x : Run ι σ (List Task)} (h : Aloof s x) (hs : s.Typed) : Steady s x := by
  intro m hm
  have hend := h m hm
  cases hres : x m with
  | ok new m' =>
      rw [hres] at hend
      obtain ⟨hstore, hcalm⟩ := hend
      refine ⟨?_, fun y v hput => absurd hput (hcalm y v)⟩
      rw [hstore]
      exact hs.becomes
  | error why m' =>
      rw [hres] at hend
      rw [Run.Closes, show m'.store = s from hend]
      exact hs.becomes

end Task

namespace Run

theorem tyOf_eq_ok {name : Name} {t : Ty} : tyOf name s = .ok t ↔ s.ty? name.val = some t := by
  unfold tyOf
  cases s.ty? name.val <;> simp

/-- A declared variable gets a value of its type, or none. -/
theorem declarator_becomes (ty : Ty) (d : Declarator) (hs : s.Typed) :
    Ensures (·.store = s) (declarator (ι := ι) (σ := σ) ty d) (fun _ m => s.Becomes m.store)
      (s.Becomes ·.store) := by
  have hsame : ∀ m : Machine ι σ, m.store = s → s.Becomes m.store := by
    intro m hm
    rw [hm]
    exact hs.becomes
  refine .bind (.inspect hsame) fun value m ⟨hm, hinit⟩ => ?_
  subst hm
  cases hdecl : m.store.declare? d.name.val ty value with
  | some store =>
      rw [declare_of_some hdecl]
      exact ⟨hs.declare hdecl (initial_eq_ok hinit).1, Store.persists_declare hdecl⟩
  | none =>
      rw [declare_of_none hdecl]
      exact hs.becomes

end Run

section

variable [LineSource ι] [ByteSink σ]

namespace Task

/-- Statements leave the variables to the tasks they are made of. -/
theorem aloof_stmt (st : Stmt) : Aloof (ι := ι) (σ := σ) s (Task.stmt st).step := by
  cases st with
  | declare ty vars span => exact aloof_pure (calm_map fun _ _ _ => Task.noConfusion)
  | assign targets value span =>
      refine .bind (.inspect fun _ hm => hm) fun v m hm => ⟨hm.1, ?_⟩
      exact calm_map fun _ _ _ => Task.noConfusion
  | display items span =>
      refine .bind (.inspect fun _ hm => hm) fun texts => ?_
      refine .bind (q := fun _ m => m.store = s) (fun m hm => ?_) fun _ => aloof_pure calm_nil
      exact Run.Ensures.write (fun _ _ hm => hm) m hm.1
  | scan targets span =>
      refine .bind (.readLine fun _ _ hm => hm) fun line => ?_
      dsimp only
      split
      · exact aloof_pure (calm_map fun _ _ _ => Task.noConfusion)
      · exact .fail fun m hm => hm
  | ifThen cond body otherwise span =>
      refine .clause (aloof_pure (calm_map fun _ _ _ => Task.noConfusion)) (aloof_pure ?_)
      exact fun x v => by simp
  | loop cond body span =>
      refine .clause (aloof_pure (calm_append (calm_map fun _ _ _ => Task.noConfusion) ?_))
        (aloof_pure calm_nil)
      exact fun x v => by simp

theorem aloof_clauses (o : Otherwise) : Aloof (ι := ι) (σ := σ) s (Task.clauses o).step := by
  cases o with
  | nothing => exact aloof_pure calm_nil
  | elseIf cond body otherwise =>
      refine .clause (aloof_pure (calm_map fun _ _ _ => Task.noConfusion)) (aloof_pure ?_)
      exact fun x v => by simp
  | bare body => exact aloof_pure (calm_map fun _ _ _ => Task.noConfusion)

theorem aloof_field (name : Name) (text : List Char) :
    Aloof (ι := ι) (σ := σ) s (Task.field name text).step := by
  refine .bind (.inspect fun _ hm => hm) fun v m hm => ⟨hm.1, ?_⟩
  intro x v
  simp

theorem aloof_flush (span : Span) : Aloof (ι := ι) (σ := σ) s (Task.flush span).step :=
  .bind (.flush fun _ _ hm => hm) fun _ => aloof_pure calm_nil

theorem steady_assign (value : Value) (span : Span) (name : Name) (hs : s.Typed) :
    Steady (ι := ι) (σ := σ) s (Task.assign value span name).step := by
  refine .bind (.inspect ?_) fun v => .pure fun m ⟨hm, hv⟩ => ?_
  · intro m hm
    rw [hm]
    exact hs.becomes
  · obtain ⟨t, ht, hv⟩ := bind_eq_ok.1 hv
    rw [← hm]
    refine ⟨(hm ▸ hs).becomes, fun x w hmem => ?_⟩
    cases List.mem_singleton.1 hmem
    rw [Run.fit_eq_ok hv]
    exact Run.tyOf_eq_ok.1 ht

theorem steady_put {x : String} {v : Value} (hs : s.Typed) (hx : s.ty? x = some v.ty) :
    Steady (ι := ι) (σ := σ) s (Task.put x v).step := by
  intro m hm
  subst hm
  obtain ⟨var, hvar, -⟩ := Option.map_eq_some_iff.1 hx
  have hassign : m.store.assign? x v = some ⟨m.store.byName.insert x ⟨var.ty, some v⟩⟩ :=
    Store.assign?_eq_some_iff.2 ⟨var, hvar, rfl⟩
  change m.store.Becomes ((m.store.assign? x v).getD m.store) ∧ _
  rw [hassign]
  refine ⟨⟨hs.assign hassign hx, Store.persists_assign hassign⟩, ?_⟩
  simp

/-- **Every step leaves the variables well typed.**  Only the step that sets a variable
relies on what was found out before it, the type of the variable. -/
theorem step_steady (t : Task) (hs : s.Typed)
    (hput : ∀ x v, t = .put x v → s.ty? x = some v.ty) : Steady (ι := ι) (σ := σ) s t.step := by
  cases t with
  | stmt st => exact (aloof_stmt st).steady hs
  | clauses o => exact (aloof_clauses o).steady hs
  | declare ty d =>
      refine .bind (Run.declarator_becomes ty d hs) fun _ => .pure fun m hm => ⟨hm, ?_⟩
      simp
  | assign value span name => exact steady_assign value span name hs
  | field name text => exact (aloof_field name text).steady hs
  | put x v => exact steady_put hs (hput x v rfl)
  | flush span => exact (aloof_flush span).steady hs

end Task

end

/-! ### Sessions -/

namespace Session

/-- The variables are well typed, and so are the values they are about to get. -/
structure Sound (s : Session ι σ) : Prop where
  typed : s.machine.store.Typed
  puts : ∀ x v, .put x v ∈ s.tasks → s.machine.store.ty? x = some v.ty

theorem sound_start (programs : List Program) (input : ι) (sink : σ) :
    Sound ⟨{ input := input, sink := sink }, [], programs⟩ where
  typed := Store.typed_empty
  puts := by simp

variable [LineSource ι] [ByteSink σ]

/-- What one step of a session keeps. -/
theorem Step.sound {s s' : Session ι σ} (h : Step s s') (hs : s.Sound) :
    s'.Sound ∧ s.machine.store.Persists s'.machine.store := by
  cases h with
  | @task t new tasks programs m m' h =>
      have hend := t.step_steady hs.typed (fun x v ht => hs.puts x v (by simp [ht])) m rfl
      rw [h] at hend
      obtain ⟨hstore, hnew⟩ := hend
      refine ⟨⟨hstore.typed, fun x v hmem => ?_⟩, hstore.persists⟩
      rcases List.mem_append.1 hmem with hmem | hmem
      · exact hnew x v hmem
      · exact hstore.persists.ty? (hs.puts x v (List.mem_cons_of_mem _ hmem))
  | @stop t tasks programs m m' why h =>
      have hend := t.step_steady hs.typed (fun x v ht => hs.puts x v (by simp [ht])) m rfl
      rw [h] at hend
      exact ⟨⟨hend.typed, by simp⟩, hend.persists⟩
  | start =>
      refine ⟨⟨hs.typed, ?_⟩, .refl _⟩
      simp [Program.tasks]

/-- What a session keeps, from any of its points to any later one. -/
theorem Reaches.sound {s s' : Session ι σ} (h : s.Reaches s') (hs : s.Sound) :
    s'.Sound ∧ s.machine.store.Persists s'.machine.store := by
  induction h with
  | refl => exact ⟨hs, .refl _⟩
  | tail _ hstep ih =>
      obtain ⟨hmid, hpersists⟩ := ih
      obtain ⟨hend, hpersists'⟩ := hstep.sound hmid
      exact ⟨hend, hpersists.trans hpersists'⟩

/-- **Variables hold values of their types.**  Programs run one after another on a machine
that starts without variables; nothing is asked of the programs, and they may fail.  At every
point of the session each value is of the type of its variable.  A variable that is about to
be set has the type of the value it gets.  At all later points a variable is still there with
its type, and has a value if it has one now.  Where a program is about to start, the state in
which its run ends is one of those later points, and so is the state of a run that is cut
short in a loop. -/
theorem variables_stay_typed {programs : List Program} {input : ι} {sink : σ}
    {s : Session ι σ} (hs : Reaches ⟨{ input := input, sink := sink }, [], programs⟩ s) :
    s.machine.store.Typed ∧
      (∀ x v rest, s.tasks = .put x v :: rest → s.machine.store.ty? x = some v.ty) ∧
      (∀ s', s.Reaches s' → s.machine.store.Persists s'.machine.store) ∧
      ∀ p rest fuel, s.tasks = [] → s.programs = p :: rest →
        ∃ s', s.Reaches s' ∧ Stands [] rest (p.exec fuel s.machine) s' := by
  obtain ⟨hsound, -⟩ := hs.sound (sound_start programs input sink)
  refine ⟨hsound.typed, fun x v rest hput => ?_, fun s' hs' => (hs'.sound hsound).2, ?_⟩
  · exact hsound.puts x v (by simp [hput])
  · intro p rest fuel htasks hprograms
    obtain ⟨s', hreach, hs'⟩ := p.exec_performs fuel s.machine [] rest
    obtain ⟨m, tasks, programs⟩ := s
    obtain rfl : tasks = [] := htasks
    obtain rfl : programs = p :: rest := hprograms
    rw [List.append_nil] at hreach
    exact ⟨s', .head .start hreach, hs'⟩

end Session

/-- `INT a=1, b="TRUE"`, which fails at `b`. -/
def Program.halfDeclared : Program where
  body :=
    [.declare .int
      [⟨⟨"a", ⟨2, 5, 1⟩⟩, some (.literal (.int 1) ⟨2, 7, 1⟩)⟩,
      ⟨⟨"b", ⟨2, 10, 1⟩⟩, some (.literal (.bool true) ⟨2, 12, 6⟩)⟩] ⟨2, 1, 3⟩]
  span := ⟨1, 1, 5⟩

/-- `FLOAT f` and `SCAN: f, a`, which fails at `a` when its field is no number. -/
def Program.halfScanned : Program where
  body :=
    [.declare .float [⟨⟨"f", ⟨2, 7, 1⟩⟩, none⟩] ⟨2, 1, 5⟩,
    .scan [⟨"f", ⟨3, 7, 1⟩⟩, ⟨"a", ⟨3, 10, 1⟩⟩] ⟨3, 1, 4⟩]
  span := ⟨1, 1, 5⟩

/-- The machine behind the first of them. -/
def Machine.halfDeclared : Machine Input Sink where
  store := ⟨({} : Std.TreeMap String Variable).insert "a" ⟨.int, some (.int 1)⟩⟩
  input := .ofText "2,x"
  sink := {}

/-- The machine behind both, where `f` holds the 2 of the input as a FLOAT. -/
def Machine.halfScanned : Machine Input Sink where
  store := ⟨(Machine.halfDeclared.store.byName.insert "f" ⟨.float, none⟩).insert "f"
    ⟨.float, some (.float (.ofInt 2))⟩⟩
  input := .ofText ""
  sink := {}

theorem Session.variables_stay_typed_halfway :
    Session.Reaches ⟨.start (.ofText "2,x"), [], [.halfDeclared, .halfScanned]⟩
        ⟨.halfDeclared, [], [.halfScanned]⟩ ∧
      Machine.halfDeclared.store.Typed ∧
      Machine.halfDeclared.store.Persists Machine.halfScanned.store := by
  have hfirst : Program.halfDeclared.exec 0 (.start (.ofText "2,x")) =
      .error (.failed ((RunFault.binding (.mismatch .bool "b")).at ⟨2, 12, 6⟩)) .halfDeclared := rfl
  have hsecond : Program.halfScanned.exec 0 .halfDeclared =
      .error (.failed ((RunFault.binding (.mismatch .string "a")).at ⟨3, 10, 1⟩)) .halfScanned :=
    rfl
  obtain ⟨-, -, -, hnext⟩ := variables_stay_typed (.refl : Reaches
    ⟨.start (.ofText "2,x"), [], [.halfDeclared, .halfScanned]⟩ _)
  obtain ⟨s, hreach, hs⟩ := hnext _ _ 0 rfl rfl
  rw [hfirst] at hs
  obtain rfl := hs
  obtain ⟨htyped, -, hpersists, hnext⟩ := variables_stay_typed hreach
  obtain ⟨s', hreach', hs'⟩ := hnext _ _ 0 rfl rfl
  rw [hsecond] at hs'
  obtain rfl := hs'
  exact ⟨hreach, htyped, hpersists _ hreach'⟩

end Pseudocode

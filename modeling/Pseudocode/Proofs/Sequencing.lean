/-
One step after another.

What it means for a computation in several steps that it succeeds, for the three kinds of
computations there are: reading, which keeps no state; the check, whose state is the
scope; and a run, whose state is the machine.

For runs there is also a judgement of safety.  A step is safe when, started in a state as
it should be, it ends in one as it should be, or fails with an error that is allowed; it
may also run out of fuel.  Safety of the steps gives safety of the whole.  A second judgement
is about the state in which a step stops, which safety leaves open.  All this is said of
machines with any kind of input and sink.
-/
import Pseudocode.Machine

namespace Pseudocode

/-! ### Steps without a state -/

theorem bind_eq_ok {ε α β : Type} {x : Except ε α} {f : α → Except ε β} {b : β} :
    x >>= f = .ok b ↔ ∃ a, x = .ok a ∧ f a = .ok b := by
  cases x with
  | error e => simp [bind, Except.bind]
  | ok a => simp [bind, Except.bind]

theorem pure_eq_ok {ε α : Type} {a b : α} : (pure a : Except ε α) = .ok b ↔ a = b := by
  simp [pure, Except.pure]

@[simp]
theorem ok_bind {ε α β : Type} (a : α) (f : α → Except ε β) : (Except.ok a >>= f) = f a :=
  rfl

theorem forM_eq_ok {ε α : Type} {f : α → Except ε Unit} {as : List α} :
    as.forM f = .ok () ↔ ∀ a ∈ as, f a = .ok () := by
  induction as with
  | nil => simp [List.forM, pure_eq_ok]
  | cons a as ih =>
      rw [List.forM, bind_eq_ok, List.forall_mem_cons, ← ih]
      constructor
      · rintro ⟨⟨⟩, ha, has⟩
        exact ⟨ha, has⟩
      · rintro ⟨ha, has⟩
        exact ⟨(), ha, has⟩

theorem mapM_eq_ok {ε α β : Type} {f : α → Except ε β} {as : List α} :
    ∀ {bs : List β}, as.mapM f = .ok bs → as.map f = bs.map .ok := by
  induction as with
  | nil =>
      intro bs h
      obtain rfl := pure_eq_ok.1 h
      rfl
  | cons a as ih =>
      intro bs h
      rw [List.mapM_cons] at h
      obtain ⟨b, hb, h⟩ := bind_eq_ok.1 h
      obtain ⟨bs', hbs, h⟩ := bind_eq_ok.1 h
      obtain rfl := pure_eq_ok.1 h
      rw [List.map_cons, List.map_cons, hb, ih hbs]

/-- What fails fails at a first element. -/
theorem mapM_eq_error {ε α β : Type} {f : α → Except ε β} {as : List α} {e : ε}
    (h : as.mapM f = .error e) :
    ∃ (before : List α) (bs : List β) (a : α) (after : List α),
      as = before ++ a :: after ∧ before.map f = bs.map .ok ∧ f a = .error e := by
  induction as with
  | nil => cases h
  | cons a as ih =>
      rw [List.mapM_cons] at h
      cases ha : f a with
      | error e' =>
          rw [ha] at h
          cases h
          exact ⟨[], [], a, as, rfl, rfl, ha⟩
      | ok b =>
          rw [ha, ok_bind] at h
          cases has : as.mapM f with
          | error e' =>
              rw [has] at h
              cases h
              obtain ⟨before, bs, a', after, rfl, hbefore, ha'⟩ := ih has
              refine ⟨a :: before, b :: bs, a', after, rfl, ?_, ha'⟩
              rw [List.map_cons, List.map_cons, ha, hbefore]
          | ok bs =>
              rw [has] at h
              cases h

/-! ### Steps with a state -/

section State

variable {ε σ α β : Type}

theorem state_bind_eq_ok {x : EStateM ε σ α} {f : α → EStateM ε σ β} {s s'' : σ} {b : β} :
    (x >>= f) s = .ok b s'' ↔ ∃ a s', x s = .ok a s' ∧ f a s' = .ok b s'' := by
  change EStateM.bind x f s = _ ↔ _
  unfold EStateM.bind
  cases x s with
  | ok a s' =>
      constructor
      · intro h
        exact ⟨a, s', rfl, h⟩
      · rintro ⟨a', t, heq, h⟩
        cases heq
        exact h
  | error e s' => simp

theorem state_bind_of_ok {x : EStateM ε σ α} {f : α → EStateM ε σ β} {s t : σ} {a : α}
    (h : x s = .ok a t) : (x >>= f) s = f a t := by
  change EStateM.bind x f s = _
  rw [EStateM.bind, h]

theorem state_bind_of_error {x : EStateM ε σ α} {f : α → EStateM ε σ β} {s t : σ} {e : ε}
    (h : x s = .error e t) : (x >>= f) s = .error e t := by
  change EStateM.bind x f s = _
  rw [EStateM.bind, h]

theorem state_pure_eq_ok {a b : α} {s s' : σ} :
    (pure a : EStateM ε σ α) s = .ok b s' ↔ a = b ∧ s = s' := by
  simp [pure, EStateM.pure]

theorem state_forM_nil_eq_ok {f : α → EStateM ε σ Unit} {s s' : σ} :
    ([] : List α).forM f s = .ok () s' ↔ s = s' := by
  change (pure () : EStateM ε σ Unit) s = _ ↔ _
  rw [state_pure_eq_ok]
  exact and_iff_right rfl

theorem state_forM_cons_eq_ok {f : α → EStateM ε σ Unit} {a : α} {as : List α} {s s'' : σ} :
    (a :: as).forM f s = .ok () s'' ↔ ∃ s', f a s = .ok () s' ∧ as.forM f s' = .ok () s'' := by
  change (f a >>= fun _ => as.forM f) s = _ ↔ _
  rw [state_bind_eq_ok]
  exact ⟨fun ⟨_, s', h⟩ => ⟨s', h⟩, fun ⟨s', h⟩ => ⟨(), s', h⟩⟩

/-- A sequence of steps ends with its last step. -/
theorem state_forM_concat_eq_ok {f : α → EStateM ε σ Unit} {as : List α} {a : α} {s s'' : σ} :
    (as ++ [a]).forM f s = .ok () s'' ↔ ∃ s', as.forM f s = .ok () s' ∧ f a s' = .ok () s'' := by
  induction as generalizing s with
  | nil =>
      rw [List.nil_append, state_forM_cons_eq_ok]
      simp only [state_forM_nil_eq_ok]
      exact ⟨fun ⟨_, ha, h⟩ => ⟨s, rfl, h ▸ ha⟩, fun ⟨_, h, ha⟩ => ⟨s'', h ▸ ha, rfl⟩⟩
  | cons b as ih =>
      rw [List.cons_append, state_forM_cons_eq_ok]
      constructor
      · rintro ⟨t, hb, hrest⟩
        obtain ⟨s', has, ha⟩ := ih.1 hrest
        exact ⟨s', state_forM_cons_eq_ok.2 ⟨t, hb, has⟩, ha⟩
      · rintro ⟨s', has, ha⟩
        obtain ⟨t, hb, has⟩ := state_forM_cons_eq_ok.1 has
        exact ⟨t, hb, ih.2 ⟨s', has, ha⟩⟩

end State

/-! ### Where a run ends -/

namespace Run

variable {ι σ α β : Type} {m : Machine ι σ}

/-- The state in which a run ends, however it ends. -/
def final : EStateM.Result Stop (Machine ι σ) α → Machine ι σ
  | .ok _ m => m
  | .error _ m => m

/-- The same end, with another machine. -/
def onFinal (f : Machine ι σ → Machine ι σ) :
    EStateM.Result Stop (Machine ι σ) α → EStateM.Result Stop (Machine ι σ) α
  | .ok a m => .ok a (f m)
  | .error why m => .error why (f m)

theorem inspect_of_ok {f : Store → Except Error α} {a : α} (h : f m.store = .ok a) :
    inspect f m = .ok a m := by
  rw [inspect, h]

theorem inspect_of_error {f : Store → Except Error α} {e : Error} (h : f m.store = .error e) :
    inspect f m = .error (.failed e) m := by
  rw [inspect, h]

theorem inspect_bind_of_ok {f : Store → Except Error α} {k : α → Run ι σ β} {a : α}
    (h : f m.store = .ok a) : (inspect f >>= k) m = k a m :=
  state_bind_of_ok (inspect_of_ok h)

theorem inspect_bind_of_error {f : Store → Except Error α} {k : α → Run ι σ β} {e : Error}
    (h : f m.store = .error e) : (inspect f >>= k) m = .error (.failed e) m :=
  state_bind_of_error (inspect_of_error h)

theorem inspect_eq_ok {f : Store → Except Error α} {a : α} {m' : Machine ι σ} :
    inspect f m = .ok a m' ↔ f m.store = .ok a ∧ m' = m := by
  unfold inspect
  cases f m.store <;> simp [eq_comm]

theorem declare_of_some {name : Name} {ty : Ty} {value : Option Value} {store : Store}
    (h : m.store.declare? name.val ty value = some store) :
    declare name ty value m = .ok () { m with store := store } := by
  refine (state_bind_of_ok rfl).trans ?_
  rw [h]
  rfl

theorem declare_of_none {name : Name} {ty : Ty} {value : Option Value}
    (h : m.store.declare? name.val ty value = none) :
    declare name ty value m =
      .error (.failed ((RunFault.binding (.redeclared name.val)).at name.span)) m := by
  refine (state_bind_of_ok rfl).trans ?_
  rw [h]
  rfl

theorem write_eq [ByteSink σ] (text : String) (span : Span) (m : Machine ι σ) :
    write text span m = proceed span (ByteSink.writeAll m.sink (Text.toBytes text)).1
      { m with sink := (ByteSink.writeAll m.sink (Text.toBytes text)).2 } :=
  rfl

theorem flush_eq [ByteSink σ] (span : Span) (m : Machine ι σ) :
    flush span m = proceed span (ByteSink.flush m.sink).1
      { m with sink := (ByteSink.flush m.sink).2 } :=
  rfl

end Run

/-! ### Safe runs -/

namespace Run

variable {ι σ α β : Type} {allowed : Error → Prop} {pre : Machine ι σ → Prop}

/-- An end with `post`, or a failure in an allowed way, or no more fuel. -/
def Ends (allowed : Error → Prop) (post : α → Machine ι σ → Prop) :
    EStateM.Result Stop (Machine ι σ) α → Prop
  | .ok a m => post a m
  | .error (.failed e) _ => allowed e
  | .error .outOfFuel _ => True

/-- From a state with `pre` the step ends with `post`, or it fails in an allowed way, or
it runs out of fuel. -/
def Safe (allowed : Error → Prop) (pre : Machine ι σ → Prop) (x : Run ι σ α)
    (post : α → Machine ι σ → Prop) : Prop :=
  ∀ m, pre m → Ends allowed post (x m)

namespace Safe

theorem pure {a : α} {post : α → Machine ι σ → Prop} (h : ∀ m, pre m → post a m) :
    Safe allowed pre (pure a) post :=
  fun m hm => h m hm

theorem bind {x : Run ι σ α} {f : α → Run ι σ β} {q : α → Machine ι σ → Prop}
    {post : β → Machine ι σ → Prop} (hx : Safe allowed pre x q)
    (hf : ∀ a, Safe allowed (q a) (f a) post) : Safe allowed pre (x >>= f) post := by
  intro m hm
  have h := hx m hm
  change Ends allowed post (EStateM.bind x f m)
  unfold EStateM.bind
  cases hres : x m with
  | ok a m' =>
      rw [hres] at h
      exact hf a m' h
  | error stop m' =>
      rw [hres] at h
      cases stop with
      | failed e => exact h
      | outOfFuel => trivial

theorem inspect {f : Store → Except Error α} {post : α → Machine ι σ → Prop}
    (hok : ∀ m a, pre m → f m.store = .ok a → post a m)
    (hfail : ∀ m e, pre m → f m.store = .error e → allowed e) :
    Safe allowed pre (Run.inspect f) post := by
  intro m hm
  unfold Run.inspect
  cases hres : f m.store with
  | ok a => exact hok m a hm hres
  | error e => exact hfail m e hm hres

theorem fail {fault : RunFault} {span : Span} {post : α → Machine ι σ → Prop}
    (h : allowed (fault.at span)) : Safe allowed pre (Run.fail fault span) post :=
  fun _ _ => h

theorem declare {name : Name} {ty : Ty} {value : Option Value} {post : Unit → Machine ι σ → Prop}
    (hok : ∀ m store, pre m → m.store.declare? name.val ty value = some store →
      post () { m with store := store })
    (hfail : ∀ m, pre m → m.store.declare? name.val ty value = none →
      allowed ((RunFault.binding (.redeclared name.val)).at name.span)) :
    Safe allowed pre (Run.declare name ty value) post := by
  intro m hm
  cases hdecl : m.store.declare? name.val ty value with
  | some store =>
      rw [declare_of_some hdecl]
      exact hok m store hm hdecl
  | none =>
      rw [declare_of_none hdecl]
      exact hfail m hm hdecl

/-- A sink may change in any way, and it fails in its own words. -/
theorem write [ByteSink σ] {text : String} {span : Span}
    (hpre : ∀ m sink, pre m → pre { m with sink := sink })
    (hfail : ∀ (s : σ) bytes message, (ByteSink.writeAll s bytes).1 = some message →
      allowed ((RunFault.device message).at span)) :
    Safe allowed pre (Run.write text span) fun _ => pre := by
  intro m hm
  rw [write_eq]
  cases hanswer : (ByteSink.writeAll m.sink (Text.toBytes text)).1 with
  | none => exact hpre m _ hm
  | some message => exact hfail m.sink _ message hanswer

theorem flush [ByteSink σ] {span : Span}
    (hpre : ∀ m sink, pre m → pre { m with sink := sink })
    (hfail : ∀ (s : σ) message, (ByteSink.flush s).1 = some message →
      allowed ((RunFault.device message).at span)) :
    Safe allowed pre (Run.flush span) fun _ => pre := by
  intro m hm
  rw [flush_eq]
  cases hanswer : (ByteSink.flush m.sink).1 with
  | none => exact hpre m _ hm
  | some message => exact hfail m.sink message hanswer

/-- So does an input. -/
theorem readLine [LineSource ι] {span : Span}
    (hpre : ∀ m input, pre m → pre { m with input := input })
    (hmissing : allowed (RunFault.missingInput.at span))
    (hfail : ∀ (i : ι) message, (LineSource.nextLine i).1 = .failed message →
      allowed ((RunFault.device message).at span)) :
    Safe allowed pre (Run.readLine span) fun _ => pre := by
  refine bind (q := fun line m => pre m ∧
    ∀ message, line = .failed message → allowed ((RunFault.device message).at span)) ?_ ?_
  · intro m hm
    exact ⟨hpre m _ hm, fun message hline => hfail m.input message hline⟩
  · intro line m hm
    cases line with
    | text s => exact hm.1
    | failed message => exact hm.2 message rfl
    | ended => exact hmissing

/-- What every step keeps, a sequence of steps keeps. -/
theorem forM {f : α → Run ι σ Unit} {as : List α}
    (h : ∀ a ∈ as, Safe allowed pre (f a) fun _ => pre) :
    Safe allowed pre (as.forM f) fun _ => pre := by
  induction as with
  | nil => exact pure fun _ hm => hm
  | cons a as ih =>
      obtain ⟨ha, has⟩ := List.forall_mem_cons.1 h
      exact bind ha fun _ => ih has

/-- What the condition and the body keep, a loop keeps. -/
theorem loop {cond : Run ι σ Bool} {body : Run ι σ Unit}
    (hcond : Safe allowed pre cond fun _ => pre) (hbody : Safe allowed pre body fun _ => pre)
    (fuel : Nat) : Safe allowed pre (Run.loop cond body fuel) fun _ => pre := by
  induction fuel with
  | zero => exact fun _ _ => trivial
  | succ fuel ih =>
      refine bind hcond fun b => ?_
      cases b with
      | true => exact bind hbody fun _ => ih
      | false => exact pure fun _ hm => hm

end Safe

/-! ### Runs and the states they stop in

Safety says nothing of the state in which a run fails.  Where that state matters, there is a
condition on it of its own, and out of fuel is a stop like any other.
-/

variable {stopped : Machine ι σ → Prop}

/-- An end with `post`, or a stop in a state with `stopped`. -/
def Closes (post : α → Machine ι σ → Prop) (stopped : Machine ι σ → Prop) :
    EStateM.Result Stop (Machine ι σ) α → Prop
  | .ok a m => post a m
  | .error _ m => stopped m

/-- From a state with `pre` the run ends with `post`, or it stops in a state with
`stopped`. -/
def Ensures (pre : Machine ι σ → Prop) (x : Run ι σ α) (post : α → Machine ι σ → Prop)
    (stopped : Machine ι σ → Prop) : Prop :=
  ∀ m, pre m → Closes post stopped (x m)

namespace Ensures

theorem pure {a : α} {post : α → Machine ι σ → Prop} (h : ∀ m, pre m → post a m) :
    Ensures pre (pure a) post stopped :=
  h

theorem fail {fault : RunFault} {span : Span} {post : α → Machine ι σ → Prop}
    (h : ∀ m, pre m → stopped m) : Ensures pre (Run.fail fault span) post stopped :=
  h

theorem bind {x : Run ι σ α} {f : α → Run ι σ β} {q : α → Machine ι σ → Prop}
    {post : β → Machine ι σ → Prop} (hx : Ensures pre x q stopped)
    (hf : ∀ a, Ensures (q a) (f a) post stopped) : Ensures pre (x >>= f) post stopped := by
  intro m hm
  have h := hx m hm
  change Closes post stopped (EStateM.bind x f m)
  unfold EStateM.bind
  cases hres : x m with
  | ok a m' =>
      rw [hres] at h
      exact hf a m' h
  | error why m' =>
      rw [hres] at h
      exact h

/-- Looking at the variables leaves them as they are. -/
theorem inspect {f : Store → Except Error α} (h : ∀ m, pre m → stopped m) :
    Ensures pre (Run.inspect f) (fun a m => pre m ∧ f m.store = .ok a) stopped := by
  intro m hm
  unfold Run.inspect
  cases hres : f m.store with
  | ok a => exact ⟨hm, hres⟩
  | error e => exact h m hm

theorem proceed {span : Span} (answer : Option String) :
    Ensures pre (Run.proceed span answer) (fun _ => pre) pre := by
  cases answer with
  | none => exact fun m hm => hm
  | some message => exact fun m hm => hm

theorem write [ByteSink σ] {text : String} {span : Span}
    (hpre : ∀ m sink, pre m → pre { m with sink := sink }) :
    Ensures pre (Run.write text span) (fun _ => pre) pre :=
  bind (q := fun _ => pre) (fun m hm => hpre m _ hm) fun answer => proceed answer

theorem flush [ByteSink σ] {span : Span}
    (hpre : ∀ m sink, pre m → pre { m with sink := sink }) :
    Ensures pre (Run.flush span) (fun _ => pre) pre :=
  bind (q := fun _ => pre) (fun m hm => hpre m _ hm) fun answer => proceed answer

theorem readLine [LineSource ι] {span : Span}
    (hpre : ∀ m input, pre m → pre { m with input := input }) :
    Ensures pre (Run.readLine span) (fun _ => pre) pre := by
  refine bind (q := fun _ => pre) (fun m hm => hpre m _ hm) fun line => ?_
  cases line with
  | text s => exact pure fun _ hm => hm
  | failed message => exact fail fun _ hm => hm
  | ended => exact fail fun _ hm => hm

/-- A choice by a condition. -/
theorem clause {cond : Expr} {x y : Run ι σ α} {post : α → Machine ι σ → Prop}
    (hx : Ensures pre x post pre) (hy : Ensures pre y post pre) :
    Ensures pre (do if ← condition cond then x else y) post pre := by
  refine bind (inspect fun _ hm => hm) fun b m hm => ?_
  cases b with
  | true => exact hx m hm.1
  | false => exact hy m hm.1

end Ensures

end Run

end Pseudocode

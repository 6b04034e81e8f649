/-
A run sees the variables that its program mentions, and changes those it names as targets.

What a program mentions can be read off its text: the names that it declares, assigns to or
reads a field for, and the names in its expressions.  Two machines may hold anything under
other names.  As long as they agree on the mentioned ones, on the input and on the sink, they
go through a run side by side; it ends on both or on neither, and in the same way.  Variables
that are no targets have after the run what they had before, also when it fails.

One judgement carries both facts, since a step that changes a variable has to change it alike
on both machines.
-/
import Pseudocode.Proofs.Receiving

namespace Pseudocode

/-! ### The names in a program -/

/-- The names in an expression. -/
def Expr.mentioned : Expr → List String
  | .binary _ left right _ => left.mentioned ++ right.mentioned
  | .unary _ operand _ => operand.mentioned
  | .paren inner _ => inner.mentioned
  | .var name _ => [name]
  | .literal .. => []

/-- The names that a statement declares, assigns to or reads a field for, apart from the
statements inside of it. -/
def Stmt.targets : Stmt → List String
  | .declare _ vars _ => vars.map fun d => d.name.val
  | .assign targets _ _ => targets.map fun name => name.val
  | .scan targets _ => targets.map fun name => name.val
  | _ => []

/-- The names in a statement, apart from the statements inside of it. -/
def Stmt.mentioned (s : Stmt) : List String :=
  s.targets ++ s.heads.flatMap Expr.mentioned

namespace Program

/-- The names that a program declares, assigns to or reads a field for. -/
def targets (p : Program) : List String :=
  p.stmts.flatMap Stmt.targets

/-- All names in a program. -/
def mentioned (p : Program) : List String :=
  p.stmts.flatMap Stmt.mentioned

end Program

/-! ### Agreement -/

/-- The names stand for the same in both stores. -/
def Store.AgreeOn (names : List String) (s s' : Store) : Prop :=
  ∀ x ∈ names, s.get? x = s'.get? x

/-- The machines differ at most in variables with other names. -/
structure Machine.AgreeOn {ι σ : Type} (names : List String) (m m' : Machine ι σ) : Prop where
  store : m.store.AgreeOn names m'.store
  input : m.input = m'.input
  sink : m.sink = m'.sink

section Agreement

variable {names : List String} {s s' : Store}

/-- The value of an expression depends on the variables in it. -/
theorem Expr.eval_of_agreeOn (h : s.AgreeOn names s') {e : Expr} (he : e.mentioned ⊆ names) :
    e.eval s = e.eval s' := by
  induction e with
  | binary op left right span ihl ihr =>
      obtain ⟨hl, hr⟩ := List.append_subset.1 he
      rw [eval, eval, ihl hl, ihr hr]
  | unary op operand span ih => rw [eval, eval, ih he]
  | paren inner span ih => rw [eval, eval, ih he]
  | var name span => rw [eval, eval, h name (he List.mem_cons_self)]
  | literal v span => rfl

theorem Expr.evalCondition_of_agreeOn (h : s.AgreeOn names s') {e : Expr}
    (he : e.mentioned ⊆ names) : e.evalCondition s = e.evalCondition s' := by
  rw [evalCondition, evalCondition, eval_of_agreeOn h he]

theorem Item.eval_of_agreeOn (h : s.AgreeOn names s') {i : Item}
    (hi : ∀ e, i.expr? = some e → e.mentioned ⊆ names) : i.eval s = i.eval s' := by
  cases i with
  | newline span => rfl
  | expr e => rw [eval, eval, Expr.eval_of_agreeOn h (hi e rfl)]

theorem Item.mapM_eval_of_agreeOn (h : s.AgreeOn names s') {items : List Item}
    (hitems : ∀ e ∈ items.filterMap Item.expr?, e.mentioned ⊆ names) :
    items.mapM (Item.eval s) = items.mapM (Item.eval s') := by
  induction items with
  | nil => rfl
  | cons i items ih =>
      have hfirst : i.eval s = i.eval s' := by
        refine eval_of_agreeOn h fun e he => hitems e ?_
        rw [List.filterMap_cons_some he]
        exact List.mem_cons_self
      have hrest : items.mapM (Item.eval s) = items.mapM (Item.eval s') := by
        refine ih fun e he => hitems e ?_
        obtain ⟨j, hj, he⟩ := List.mem_filterMap.1 he
        exact List.mem_filterMap.2 ⟨j, List.mem_cons_of_mem i hj, he⟩
      rw [List.mapM_cons, List.mapM_cons, hfirst, hrest]

/-- A name that can be declared in one store can be declared in the other. -/
theorem Store.AgreeOn.declare {x : String} {ty : Ty} {value : Option Value} {t : Store}
    (h : s.AgreeOn names s') (hx : x ∈ names) (ht : s.declare? x ty value = some t) :
    ∃ t', s'.declare? x ty value = some t' ∧ t.AgreeOn names t' := by
  obtain ⟨hfree, -⟩ := declare?_eq_some_iff.1 ht
  rw [h x hx] at hfree
  obtain ⟨t', ht'⟩ : ∃ t', s'.declare? x ty value = some t' :=
    ⟨_, declare?_eq_some_iff.2 ⟨hfree, rfl⟩⟩
  refine ⟨t', ht', fun y hy => ?_⟩
  rw [get?_of_declare? ht, get?_of_declare? ht', h y hy]

theorem Store.AgreeOn.declare_none {x : String} {ty : Ty} {value : Option Value}
    (h : s.AgreeOn names s') (hx : x ∈ names) (hs : s.declare? x ty value = none) :
    s'.declare? x ty value = none := by
  rw [declare?, isDeclared, h x hx] at hs
  rw [declare?, isDeclared]
  cases hget : s'.get? x with
  | none => simp [hget] at hs
  | some var => rfl

theorem Store.AgreeOn.put (h : s.AgreeOn names s') (x : String) (v : Value) :
    (s.put x v).AgreeOn names (s'.put x v) := by
  intro y hy
  rw [get?_put, get?_put, h y hy]

theorem Run.tyOf_of_agreeOn (h : s.AgreeOn names s') {name : Name} (hname : name.val ∈ names) :
    tyOf name s = tyOf name s' := by
  rw [tyOf, tyOf, Store.ty?, Store.ty?, h _ hname]

end Agreement

namespace Stmt

variable {s : Stmt}

theorem mem_targets_of_declared {d : Declarator} (hd : d ∈ s.declared) :
    d.name.val ∈ s.targets := by
  cases s with
  | declare ty vars span => exact List.mem_map_of_mem hd
  | _ => cases hd

theorem mem_targets_of_receivers {name : Name} (hname : name ∈ s.receivers) :
    name.val ∈ s.targets := by
  cases s with
  | assign targets value span => exact List.mem_map_of_mem hname
  | scan targets span => exact List.mem_map_of_mem hname
  | _ => cases hname

/-- What a statement looks up is the same in stores that agree on the names in it. -/
theorem Looks.of_agreeOn {α : Type} {f f' : Store → Except Error α} (h : s.Looks α f f')
    {names : List String} (hs : s.mentioned ⊆ names) {store store' : Store}
    (hagree : store.AgreeOn names store') : f store = f store' := by
  obtain ⟨hnames, hheads⟩ := List.append_subset.1 hs
  have hhead : ∀ e ∈ s.heads, e.mentioned ⊆ names :=
    fun e he x hx => hheads (List.mem_flatMap.2 ⟨e, he, hx⟩)
  have htyOf : ∀ name ∈ s.receivers, Run.tyOf name store = Run.tyOf name store' :=
    fun name hname => Run.tyOf_of_agreeOn hagree (hnames (mem_targets_of_receivers hname))
  cases h with
  | @initial ty vars span d hd =>
      unfold Run.initial
      cases hinit : d.init with
      | none => rfl
      | some e =>
          dsimp only
          rw [Expr.eval_of_agreeOn hagree (hhead e (List.mem_filterMap.2 ⟨d, hd, hinit⟩))]
  | value => exact Expr.eval_of_agreeOn hagree (hhead _ List.mem_cons_self)
  | fitted v hname =>
      unfold Run.fitted
      rw [htyOf _ hname]
  | texts => exact Item.mapM_eval_of_agreeOn hagree hhead
  | tyOf hname => exact htyOf _ hname
  | field v hname =>
      unfold Run.fitted
      rw [htyOf _ hname]
  | clause he => exact Expr.evalCondition_of_agreeOn hagree (hhead _ he)
  | round => exact Expr.evalCondition_of_agreeOn hagree (hhead _ List.mem_cons_self)

end Stmt

/-! ### Confined runs -/

namespace Run

variable {ι σ α β : Type} {seen targets : List String}

/-- Both runs end in the same way, with machines that agree on the names. -/
inductive EndAlike (names : List String) :
    EStateM.Result Stop (Machine ι σ) α → EStateM.Result Stop (Machine ι σ) α → Prop
  | ok {a : α} {m m' : Machine ι σ} (h : m.AgreeOn names m') : EndAlike names (.ok a m) (.ok a m')
  | error {why : Stop} {m m' : Machine ι σ} (h : m.AgreeOn names m') :
      EndAlike names (.error why m) (.error why m')

/-- The run sees no variables but those in `seen`, and changes none but those in `targets`. -/
structure Confined (seen targets : List String) (x : Run ι σ α) : Prop where
  alike : ∀ m m', m.AgreeOn seen m' → EndAlike seen (x m) (x m')
  frame : ∀ m, ∀ y ∉ targets, (final (x m)).store.get? y = m.store.get? y

namespace Confined

theorem bind {x : Run ι σ α} {f : α → Run ι σ β} (hx : Confined seen targets x)
    (hf : ∀ a, Confined seen targets (f a)) : Confined seen targets (x >>= f) where
  alike m m' h := by
    have hfirst := hx.alike m m' h
    change EndAlike seen (EStateM.bind x f m) (EStateM.bind x f m')
    unfold EStateM.bind
    generalize x m = r at hfirst
    generalize x m' = r' at hfirst
    cases hfirst with
    | ok h => exact (hf _).alike _ _ h
    | error h => exact .error h
  frame m y hy := by
    have hfirst := hx.frame m y hy
    change (final (EStateM.bind x f m)).store.get? y = _
    unfold EStateM.bind
    cases hres : x m with
    | ok a m' =>
        rw [hres] at hfirst
        exact ((hf a).frame m' y hy).trans hfirst
    | error why m' =>
        rw [hres] at hfirst
        exact hfirst

/-- A run that has to do with the input and the sink only. -/
theorem outside {x : Run ι σ α}
    (hx : ∀ m store, x { m with store := store } = onFinal ({ · with store := store }) (x m)) :
    Confined seen targets x := by
  have hframe : ∀ m, (final (x m)).store = m.store := by
    intro m
    have hm : x m = onFinal ({ · with store := m.store }) (x m) := hx m m.store
    rw [hm]
    cases x m <;> rfl
  refine ⟨fun m m' h => ?_, fun m y _ => by rw [hframe]⟩
  have hm' : x m' = onFinal ({ · with store := m'.store }) (x m) := by
    rw [← hx m m'.store, h.input, h.sink]
  have hstore : (final (x m)).store.AgreeOn seen m'.store := by
    rw [hframe]
    exact h.store
  rw [hm']
  cases hres : x m with
  | ok a _ =>
      rw [hres] at hstore
      exact .ok ⟨hstore, rfl, rfl⟩
  | error why _ =>
      rw [hres] at hstore
      exact .error ⟨hstore, rfl, rfl⟩

theorem judgement : Judgement fun _ (x : Run ι σ _) => Confined seen targets x where
  pure _ := outside fun _ _ => rfl
  bind := bind
  outOfFuel := outside fun _ _ => rfl

theorem write [ByteSink σ] (text : String) (span : Span) :
    Confined (ι := ι) seen targets (Run.write (σ := σ) text span) :=
  bind (outside fun _ _ => rfl) (judgement.proceed span span fun _ => outside fun _ _ => rfl)

theorem flush [ByteSink σ] (span : Span) :
    Confined (ι := ι) seen targets (Run.flush (σ := σ) span) :=
  bind (outside fun _ _ => rfl) (judgement.proceed span span fun _ => outside fun _ _ => rfl)

theorem readLine [LineSource ι] (span : Span) :
    Confined (σ := σ) seen targets (Run.readLine (ι := ι) span) :=
  bind (outside fun _ _ => rfl) (judgement.received span span fun _ => outside fun _ _ => rfl)

theorem inspect {f : Store → Except Error α}
    (hf : ∀ store store', store.AgreeOn seen store' → f store = f store') :
    Confined seen targets (Run.inspect (ι := ι) (σ := σ) f) where
  alike m m' h := by
    have hsame := hf _ _ h.store
    cases hres : f m.store with
    | ok a =>
        rw [inspect_of_ok hres, inspect_of_ok (hsame.symm.trans hres)]
        exact .ok h
    | error e =>
        rw [inspect_of_error hres, inspect_of_error (hsame.symm.trans hres)]
        exact .error h
  frame m y _ := by
    unfold Run.inspect
    cases f m.store <;> rfl

theorem declare {name : Name} (hseen : name.val ∈ seen) (htarget : name.val ∈ targets) (ty : Ty)
    (value : Option Value) :
    Confined seen targets (Run.declare (ι := ι) (σ := σ) name ty value) where
  alike m m' h := by
    cases hdecl : m.store.declare? name.val ty value with
    | some store =>
        obtain ⟨store', hdecl', hagree⟩ := h.store.declare hseen hdecl
        rw [declare_of_some hdecl, declare_of_some hdecl']
        exact .ok ⟨hagree, h.input, h.sink⟩
    | none =>
        rw [declare_of_none hdecl, declare_of_none (h.store.declare_none hseen hdecl)]
        exact .error h
  frame m y hy := by
    cases hdecl : m.store.declare? name.val ty value with
    | some store =>
        rw [declare_of_some hdecl]
        have hne : y ≠ name.val := fun heq => hy (heq ▸ htarget)
        exact (Store.get?_of_declare? hdecl y).trans (if_neg hne)
    | none =>
        rw [declare_of_none hdecl]
        rfl

theorem put {name : String} (htarget : name ∈ targets) (v : Value) :
    Confined seen targets (Run.put (ι := ι) (σ := σ) name v) where
  alike m m' h := .ok ⟨h.store.put name v, h.input, h.sink⟩
  frame m y hy := by
    have hne : name ≠ y := fun heq => hy (heq ▸ htarget)
    exact (Store.get?_put m.store name v y).trans (if_neg hne)

theorem step [LineSource ι] [ByteSink σ] {s : Stmt} (hseen : s.mentioned ⊆ seen)
    (htarget : s.targets ⊆ targets) {x x' : Run ι σ α} (h : s.Step α x x') :
    Confined seen targets x := by
  have hnames := (List.append_subset.1 hseen).1
  cases h with
  | inspect h => exact inspect fun _ _ hagree => h.of_agreeOn hseen hagree
  | declare hd ty value =>
      have hd := Stmt.mem_targets_of_declared hd
      exact declare (hnames hd) (htarget hd) ty value
  | put hname v => exact put (htarget (Stmt.mem_targets_of_receivers hname)) v
  | write text => exact write text _
  | readLine => exact readLine _
  | miscounted => exact outside fun _ _ => rfl

end Confined

end Run

/-! ### Programs -/

namespace Program

variable {ι σ : Type} [LineSource ι] [ByteSink σ]

theorem exec_confined (fuel : Nat) (p : Program) :
    Run.Confined (ι := ι) (σ := σ) p.mentioned p.targets (p.exec fuel) := by
  refine p.exec_holds Run.Confined.judgement fuel (fun s hs _ _ _ h => ?_) ?_
  · refine Run.Confined.step ?_ ?_ h
    · exact fun x hx => List.mem_flatMap.2 ⟨s, hs, hx⟩
    · exact fun x hx => List.mem_flatMap.2 ⟨s, hs, hx⟩
  · exact Run.Confined.flush p.span

/-- **A run depends on the variables that its program mentions, and changes only targets.**
Let two machines have the same input and the same sink, and agree on every name in a program.
With any bound on loops the run ends on both in the same way, which may be out of fuel, with
the same input left and the same output, and with machines that agree on those names.  On
each of them a variable that is no target is after the run what it was before. -/
theorem exec_of_agreeOn_mentioned {p : Program} {m m' : Machine ι σ}
    (h : m.AgreeOn p.mentioned m') (fuel : Nat) :
    Run.EndAlike p.mentioned (p.exec fuel m) (p.exec fuel m') ∧
      ∀ x ∉ p.targets, (Run.final (p.exec fuel m)).store.get? x = m.store.get? x ∧
        (Run.final (p.exec fuel m')).store.get? x = m'.store.get? x := by
  have hp := p.exec_confined (ι := ι) (σ := σ) fuel
  exact ⟨hp.alike m m' h, fun x hx => ⟨hp.frame m x hx, hp.frame m' x hx⟩⟩

/-- `SCAN: n`, `DISPLAY: k`, `k = n = k / n`. -/
def dividing : Program where
  body :=
    [.scan [⟨"n", ⟨2, 7, 1⟩⟩] ⟨2, 1, 4⟩,
    .display [.expr (.var "k" ⟨3, 10, 1⟩)] ⟨3, 1, 7⟩,
    .assign [⟨"k", ⟨4, 1, 1⟩⟩, ⟨"n", ⟨4, 5, 1⟩⟩]
      (.binary ⟨.arith .div, ⟨4, 11, 1⟩⟩ (.var "k" ⟨4, 9, 1⟩) (.var "n" ⟨4, 13, 1⟩) ⟨4, 9, 5⟩)
      ⟨4, 1, 1⟩]
  span := ⟨1, 1, 5⟩

/-- A machine with the variables of this program, and a zero to be read. -/
def dividingStart : Machine Input Sink where
  store := ⟨(({} : Std.TreeMap String Variable).insert "k" ⟨.int, some (.int 7)⟩).insert "n"
    ⟨.int, none⟩⟩
  input := .ofText "0"
  sink := {}

/-- The same with one more variable. -/
def crowdedStart : Machine Input Sink where
  store := ⟨dividingStart.store.byName.insert "z" ⟨.string, some (.string "left")⟩⟩
  input := .ofText "0"
  sink := {}

/-- The division fails, with `n` read and `k` shown. -/
theorem exec_of_agreeOn_mentioned_dividing :
    dividingStart.AgreeOn dividing.mentioned crowdedStart ∧
      (∃ m, dividing.exec 0 dividingStart =
        .error (.failed ((RunFault.operand .divisionByZero).at ⟨4, 11, 1⟩)) m) ∧
      Run.EndAlike dividing.mentioned (dividing.exec 0 dividingStart)
        (dividing.exec 0 crowdedStart) ∧
      (Run.final (dividing.exec 0 crowdedStart)).store.get? "z" =
        some ⟨.string, some (.string "left")⟩ := by
  have hagree : dividingStart.AgreeOn dividing.mentioned crowdedStart := by
    refine ⟨fun x hx => ?_, rfl, rfl⟩
    replace hx : x ∈ ["n", "k", "k", "n", "k", "n"] := hx
    simp only [List.mem_cons, List.not_mem_nil, or_false] at hx
    rcases hx with rfl | rfl | rfl | rfl | rfl | rfl <;> rfl
  obtain ⟨halike, hframe⟩ := exec_of_agreeOn_mentioned hagree 0
  refine ⟨hagree, ⟨_, rfl⟩, halike, ?_⟩
  exact (hframe "z" (by decide)).2.trans rfl

end Program

end Pseudocode

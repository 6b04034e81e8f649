/-
Places have no say in a run.

The spans in a program are there for whoever reads an error.  The check and the run pass
them on and never look at them: with its places and without them a program takes the same
steps and reaches the same states, and where it fails, it fails for the same cause.

Two computations are alike when they are equal once the places of their errors are
forgotten.  Forgetting commutes with every way to put computations together, so alike parts
make alike wholes, and what is left for each construct is to name its parts.  A text and the
canonical text of its program are read as programs that differ in places only, so their runs
are alike as well.
-/
import Pseudocode.Program.Run
import Pseudocode.Proofs.Judgement
import Pseudocode.Proofs.RoundTrip

namespace Pseudocode

/-! ### Computations that are alike -/

section Agree

variable {α β ι : Type}

/-- The same value, or errors with the same cause. -/
def Agree (x y : Except Error α) : Prop :=
  x.mapError Error.cause = y.mapError Error.cause

namespace Agree

theorem refl (x : Except Error α) : Agree x x :=
  rfl

theorem error {e e' : Error} (h : e.cause = e'.cause) :
    Agree (.error e : Except Error α) (.error e') :=
  congrArg Except.error h

theorem both {x y : Except Error α} (h : Agree x y) :
    (∃ a, x = .ok a ∧ y = .ok a) ∨
      ∃ e e', x = .error e ∧ y = .error e' ∧ e.cause = e'.cause := by
  unfold Agree Except.mapError at h
  cases x with
  | ok a =>
      cases y with
      | ok b => exact .inl ⟨a, rfl, congrArg Except.ok (Except.ok.inj h).symm⟩
      | error e' => cases h
  | error e =>
      cases y with
      | ok b => cases h
      | error e' => exact .inr ⟨e, e', rfl, rfl, Except.error.inj h⟩

theorem bind {x y : Except Error α} {f g : α → Except Error β} (h : Agree x y)
    (hf : ∀ a, Agree (f a) (g a)) : Agree (x >>= f) (y >>= g) := by
  obtain ⟨a, rfl, rfl⟩ | ⟨e, e', rfl, rfl, hcause⟩ := h.both
  · exact hf a
  · exact error hcause

theorem forM {h : ι → ι} {f g : ι → Except Error Unit} {as : List ι}
    (hf : ∀ a, Agree (f (h a)) (g a)) : Agree ((as.map h).forM f) (as.forM g) := by
  induction as with
  | nil => exact refl _
  | cons a as ih => exact bind (hf a) fun _ => ih

theorem mapM {h : ι → ι} {f g : ι → Except Error β} {as : List ι}
    (hf : ∀ a, Agree (f (h a)) (g a)) : Agree ((as.map h).mapM f) (as.mapM g) := by
  induction as with
  | nil => exact refl _
  | cons a as ih =>
      rw [List.map_cons, List.mapM_cons, List.mapM_cons]
      exact bind (hf a) fun b => bind ih fun bs => refl _

end Agree

end Agree

section Alike

variable {ε κ σ α β ι : Type} {c : ε → κ}

/-- In every state the same end, but for what `c` does not tell of an error. -/
def Alike (c : ε → κ) (x y : EStateM ε σ α) : Prop :=
  x.adaptExcept c = y.adaptExcept c

namespace Alike

theorem refl (x : EStateM ε σ α) : Alike c x x :=
  rfl

theorem symm {x y : EStateM ε σ α} (h : Alike c x y) : Alike c y x :=
  Eq.symm h

theorem trans {x y z : EStateM ε σ α} (h : Alike c x y) (h' : Alike c y z) : Alike c x z :=
  Eq.trans h h'

/-- Where one of them ends, so does the other. -/
theorem ok {x y : EStateM ε σ α} (h : Alike c x y) {s s' : σ} {a : α} (hy : y s = .ok a s') :
    x s = .ok a s' := by
  have hs := congrFun h s
  unfold EStateM.adaptExcept at hs
  rw [hy] at hs
  match hx : x s with
  | .ok b t =>
      rw [hx] at hs
      cases hs
      rfl
  | .error e t =>
      rw [hx] at hs
      cases hs

/-- Where one of them fails, so does the other. -/
theorem error {x y : EStateM ε σ α} (h : Alike c x y) {s s' : σ} {e : ε}
    (hy : y s = .error e s') : ∃ e', x s = .error e' s' ∧ c e' = c e := by
  have hs := congrFun h s
  unfold EStateM.adaptExcept at hs
  rw [hy] at hs
  match hx : x s with
  | .ok b t =>
      rw [hx] at hs
      cases hs
  | .error e' t =>
      rw [hx] at hs
      obtain ⟨hc, rfl⟩ := EStateM.Result.error.inj hs
      exact ⟨e', rfl, hc⟩

theorem bind {x y : EStateM ε σ α} {f g : α → EStateM ε σ β} (h : Alike c x y)
    (hf : ∀ a, Alike c (f a) (g a)) : Alike c (x >>= f) (y >>= g) := by
  funext s
  change EStateM.adaptExcept c (EStateM.bind x f) s = EStateM.adaptExcept c (EStateM.bind y g) s
  unfold EStateM.adaptExcept EStateM.bind
  cases hy : y s with
  | ok a s' =>
      rw [h.ok hy]
      exact congrFun (hf a) s'
  | error e s' =>
      obtain ⟨e', hx, hc⟩ := h.error hy
      rw [hx]
      exact congrArg (EStateM.Result.error · s') hc

theorem forM {h : ι → ι} {f g : ι → EStateM ε σ Unit} {as : List ι}
    (hf : ∀ a, Alike c (f (h a)) (g a)) : Alike c ((as.map h).forM f) (as.forM g) := by
  induction as with
  | nil => exact refl _
  | cons a as ih => exact bind (hf a) fun _ => ih

end Alike

end Alike

/-! ### The check -/

theorem Scope.lookUp_erase (scope : Scope) (name : Name) :
    Agree (scope.lookUp name.erase) (scope.lookUp name) := by
  obtain ⟨x, span⟩ := name
  unfold lookUp Located.erase
  cases scope[x]? with
  | some ty => exact .refl _
  | none => exact .error rfl

theorem checkFits_agree (target source : Ty) (name : String) (span span' : Span) :
    Agree (checkFits target source name span) (checkFits target source name span') := by
  unfold checkFits
  split
  · exact .refl _
  · exact .error rfl

namespace Expr

theorem typeOf_erase (scope : Scope) (e : Expr) :
    Agree (e.erase.typeOf scope) (e.typeOf scope) := by
  induction e with
  | binary op left right span ihl ihr =>
      rw [erase, typeOf, typeOf, Located.erase]
      refine .bind ihl fun l => .bind ihr fun r => ?_
      cases op.val.resultTy? l r with
      | some ty => exact .refl _
      | none => exact .error rfl
  | unary op operand span ih =>
      rw [erase, typeOf, typeOf, Located.erase]
      refine .bind ih fun t => ?_
      cases op.val.resultTy? t with
      | some ty => exact .refl _
      | none => exact .error rfl
  | paren inner span ih => exact ih
  | var x span => exact scope.lookUp_erase ⟨x, span⟩
  | literal v span => exact .refl _

theorem checkCondition_erase (scope : Scope) (e : Expr) :
    Agree (e.erase.checkCondition scope) (e.checkCondition scope) := by
  refine .bind (e.typeOf_erase scope) fun ty => ?_
  split
  · exact .refl _
  · exact .error rfl

end Expr

namespace Check

theorem inspect_alike {α : Type} {f g : Scope → Except Error α}
    (h : ∀ scope, Agree (f scope) (g scope)) :
    Alike Error.cause (Check.inspect f) (Check.inspect g) := by
  funext scope
  unfold EStateM.adaptExcept Check.inspect
  obtain ⟨a, hf, hg⟩ | ⟨e, e', hf, hg, hcause⟩ := (h scope).both
  · rw [hf, hg]
  · rw [hf, hg]
    exact congrArg (EStateM.Result.error · scope) hcause

theorem declarator_erase (ty : Ty) (d : Declarator) :
    Alike Error.cause (Check.declarator ty d.erase) (Check.declarator ty d) := by
  funext scope
  obtain ⟨⟨x, span⟩, init⟩ := d
  unfold EStateM.adaptExcept Check.declarator Declarator.erase Located.erase
  by_cases hx : scope.contains x = true
  · rw [if_pos hx, if_pos hx]
    rfl
  · rw [if_neg hx, if_neg hx]
    cases init with
    | none => rfl
    | some init =>
        have hfits : Agree
            (init.erase.typeOf scope >>= fun source => checkFits ty source x init.erase.span)
            (init.typeOf scope >>= fun source => checkFits ty source x init.span) :=
          .bind (init.typeOf_erase scope) fun source => checkFits_agree ..
        dsimp only [Option.map_some]
        obtain ⟨_, hf, hg⟩ | ⟨e, e', hf, hg, hcause⟩ := hfits.both
        · rw [hf, hg]
        · rw [hf, hg]
          exact congrArg (EStateM.Result.error · scope) hcause

end Check

mutual

theorem Stmt.check_erase (s : Stmt) : Alike Error.cause s.erase.check s.check := by
  match s with
  | .declare ty vars span => exact .forM (Check.declarator_erase ty)
  | .assign targets value span =>
      refine Check.inspect_alike fun scope => .bind (value.typeOf_erase scope) fun source => ?_
      refine .forM fun name => .bind (scope.lookUp_erase name) fun target => ?_
      exact checkFits_agree ..
  | .display items span =>
      refine Check.inspect_alike fun scope => .forM fun item => ?_
      cases item with
      | newline span => exact .refl _
      | expr e => exact .bind (e.typeOf_erase scope) fun _ => .refl _
  | .scan targets span =>
      exact Check.inspect_alike fun scope => .forM fun name =>
        .bind (scope.lookUp_erase name) fun _ => .refl _
  | .ifThen cond body otherwise span =>
      exact .bind (Check.inspect_alike cond.checkCondition_erase) fun _ =>
        .bind (checkStmts_erase body) fun _ => otherwise.check_erase
  | .loop cond body span =>
      exact .bind (Check.inspect_alike cond.checkCondition_erase) fun _ => checkStmts_erase body

theorem Otherwise.check_erase (o : Otherwise) : Alike Error.cause o.erase.check o.check := by
  match o with
  | .nothing => exact .refl _
  | .elseIf cond body otherwise =>
      exact .bind (Check.inspect_alike cond.checkCondition_erase) fun _ =>
        .bind (checkStmts_erase body) fun _ => otherwise.check_erase
  | .bare body => exact checkStmts_erase body

theorem checkStmts_erase (stmts : List Stmt) :
    Alike Error.cause (checkStmts (eraseStmts stmts)) (checkStmts stmts) := by
  match stmts with
  | [] => exact .refl _
  | s :: rest => exact .bind s.check_erase fun _ => checkStmts_erase rest

end

theorem Program.analyze_erase (p : Program) : Agree p.erase.analyze p.analyze := by
  have h : Alike Error.cause p.erase.check p.check := checkStmts_erase p.body
  unfold Program.analyze
  cases hp : p.check {} with
  | ok _ scope =>
      rw [h.ok hp]
      exact .refl _
  | error e scope =>
      obtain ⟨e', he', hcause⟩ := h.error hp
      rw [he']
      exact .error hcause

/-! ### Values -/

theorem OperandFault.locate_agree (span span' : Span) (result : Except OperandFault Value) :
    Agree (OperandFault.locate span result) (OperandFault.locate span' result) := by
  cases result <;> rfl

namespace Expr

theorem eval_erase (store : Store) (e : Expr) : Agree (e.erase.eval store) (e.eval store) := by
  induction e with
  | binary op left right span ihl ihr =>
      exact .bind ihl fun l => .bind ihr fun r => OperandFault.locate_agree ..
  | unary op operand span ih => exact .bind ih fun v => OperandFault.locate_agree ..
  | paren inner span ih => exact ih
  | var x span =>
      unfold erase eval
      match store.get? x with
      | none => exact .error rfl
      | some ⟨_, none⟩ => exact .error rfl
      | some ⟨_, some v⟩ => exact .refl _
  | literal v span => exact .refl _

theorem evalCondition_erase (store : Store) (e : Expr) :
    Agree (e.erase.evalCondition store) (e.evalCondition store) := by
  refine .bind (e.eval_erase store) fun v => ?_
  cases v.bool? with
  | some b => exact .refl _
  | none => exact .error rfl

end Expr

theorem Item.eval_erase (store : Store) (item : Item) :
    Agree (item.erase.eval store) (item.eval store) := by
  cases item with
  | newline span => exact .refl _
  | expr e => exact .bind (e.eval_erase store) fun v => .refl _

/-! ### Runs -/

/-- The cause of a failure; out of fuel is none. -/
def Stop.cause? : Stop → Option Cause
  | .failed e => some e.cause
  | .outOfFuel => none

section

variable {ι σ α : Type}

/-- Where one of two runs fails, the other fails for the same cause. -/
theorem Alike.failed {x y : Run ι σ α} (h : Alike Stop.cause? x y) {m m' : Machine ι σ}
    {cause : Cause} (hy : ∃ span, y m = .error (.failed ⟨cause, span⟩) m') :
    ∃ span, x m = .error (.failed ⟨cause, span⟩) m' := by
  obtain ⟨span, hy⟩ := hy
  obtain ⟨stop, hx, hcause⟩ := h.error hy
  cases stop with
  | outOfFuel => cases hcause
  | failed e =>
      obtain rfl : e.cause = cause := Option.some.inj hcause
      exact ⟨e.span, hx⟩

namespace Run

theorem inspect_alike {f g : Store → Except Error α} (h : ∀ store, Agree (f store) (g store)) :
    Alike Stop.cause? (inspect f : Run ι σ α) (inspect g) := by
  funext m
  unfold EStateM.adaptExcept inspect
  obtain ⟨a, hf, hg⟩ | ⟨e, e', hf, hg, hcause⟩ := (h m.store).both
  · rw [hf, hg]
  · rw [hf, hg]
    exact congrArg (fun cause => EStateM.Result.error (some cause) m) hcause

theorem fail_alike (fault : RunFault) (span span' : Span) :
    Alike Stop.cause? (fail fault span : Run ι σ α) (fail fault span') :=
  rfl

theorem fit_agree (ty : Ty) (name : String) (value : Value) (span span' : Span) :
    Agree (fit ty name value span) (fit ty name value span') := by
  unfold fit
  cases value.coerce? ty with
  | some v => exact .refl _
  | none => exact .error rfl

theorem initial_erase (ty : Ty) (d : Declarator) (store : Store) :
    Agree (initial ty d.erase store) (initial ty d store) := by
  obtain ⟨⟨x, span⟩, init⟩ := d
  cases init with
  | none => exact .refl _
  | some init =>
      refine .bind (init.eval_erase store) fun v => ?_
      exact .bind (fit_agree ..) fun _ => .refl _

theorem tyOf_erase (name : Name) (store : Store) :
    Agree (tyOf name.erase store) (tyOf name store) := by
  obtain ⟨x, span⟩ := name
  unfold tyOf Located.erase
  cases store.ty? x with
  | some ty => exact .refl _
  | none => exact .error rfl

theorem fitted_erase (value : Value) (span span' : Span) (name : Name) (store : Store) :
    Agree (fitted value span name.erase store) (fitted value span' name store) :=
  .bind (tyOf_erase name store) fun _ => fit_agree ..

theorem declare_erase (name : Name) (ty : Ty) (value : Option Value) :
    Alike Stop.cause? (declare name.erase ty value : Run ι σ Unit) (declare name ty value) := by
  refine .bind (.refl _) fun m => ?_
  unfold Located.erase
  cases m.store.declare? name.val ty value with
  | some store => exact .refl _
  | none => exact fail_alike ..

theorem congruence : Congruence fun _ (x x' : Run ι σ _) => Alike Stop.cause? x' x where
  pure _ := .refl _
  bind hx hf := .bind hx hf
  outOfFuel := .refl _

end Run

namespace Stmt

variable {s : Stmt}

/-- What a statement looks up without its places is what it looks up with them. -/
theorem Looks.erase {f f' : Store → Except Error α} (h : s.Looks α f f') (store : Store) :
    Agree (f' store) (f store) := by
  cases h with
  | initial _ => exact Run.initial_erase _ _ store
  | value => exact Expr.eval_erase store _
  | fitted v _ => exact Run.fitted_erase v _ _ _ store
  | texts => exact .mapM (Item.eval_erase store)
  | tyOf _ => exact Run.tyOf_erase _ store
  | field v _ => exact Run.fitted_erase v _ _ _ store
  | clause _ => exact Expr.evalCondition_erase store _
  | round => exact Expr.evalCondition_erase store _

theorem Step.erase [LineSource ι] [ByteSink σ] {x x' : Run ι σ α} (h : s.Step α x x') :
    Alike Stop.cause? x' x := by
  cases h with
  | inspect h => exact Run.inspect_alike h.erase
  | declare _ ty value => exact Run.declare_erase _ ty value
  | put _ v => exact .refl _
  | write text => exact .bind (.refl _) (Run.congruence.proceed _ _ fun _ => Run.fail_alike ..)
  | readLine => exact .bind (.refl _) (Run.congruence.received _ _ fun _ => Run.fail_alike ..)
  | miscounted => exact Run.fail_alike ..

end Stmt

end

namespace Program

variable {ι σ : Type} [LineSource ι] [ByteSink σ]

theorem exec_erase (fuel : Nat) (p : Program) :
    Alike Stop.cause? (p.erase.exec fuel : Run ι σ Unit) (p.exec fuel) :=
  p.exec_holds Run.congruence fuel (fun _ _ _ _ _ h => h.erase)
    (.bind (.refl _) (Run.congruence.proceed _ _ fun _ => Run.fail_alike ..))

/-! ### Texts -/

/-- **Programs that differ in places only have runs that are alike.** -/
theorem run_alike {source source' : String} {p q : Program} (hp : parse source = .ok p)
    (hq : parse source' = .ok q) (h : p.erase = q.erase) (fuel : Nat) :
    Alike Stop.cause? (run fuel source : Run ι σ Unit) (run fuel source') := by
  -- Both are alike to the run of the one program without its places.
  have herase : ∀ r : Program, Alike Stop.cause?
      (Run.inspect (fun _ => r.erase.analyze) >>= fun _ => r.erase.exec fuel : Run ι σ Unit)
      (Run.inspect (fun _ => r.analyze) >>= fun _ => r.exec fuel) :=
    fun r => .bind (Run.inspect_alike fun _ => r.analyze_erase) fun _ => r.exec_erase fuel
  rw [run_of_parse hp, run_of_parse hq]
  refine (herase p).symm.trans ?_
  rw [h]
  exact herase q

/-- **The canonical text of a program means the same.**  Its run ends just when the run of
the text does that the program was read from, and in the same state, so with the same output
and the same input left.  Both succeed, or both fail for the same cause, which is what gives
an error its kind and its message. -/
theorem run_render {source : String} {p : Program} (hp : parse source = .ok p)
    (hfinite : ∀ t ∈ Token.ofSource source, t.isFinite = true) (fuel : Nat) (m m' : Machine ι σ) :
    (run fuel source m = .ok () m' ↔ run fuel p.render m = .ok () m') ∧
      ∀ cause, (∃ span, run fuel source m = .error (.failed ⟨cause, span⟩) m') ↔
        ∃ span, run fuel p.render m = .error (.failed ⟨cause, span⟩) m' := by
  obtain ⟨q, hq, herase⟩ := parse_render hp hfinite
  have halike := run_alike (ι := ι) (σ := σ) hq hp herase fuel
  exact ⟨⟨halike.ok, halike.symm.ok⟩, fun cause => ⟨halike.failed, halike.symm.failed⟩⟩

/-- Counts down from what it reads, and then divides by what is left. -/
def countdownText : String :=
  "BEGIN CODE # from n\nINT n\n\nSCAN:n\nWHILE(n>0)\nBEGIN WHILE\nDISPLAY:n\nn=n-1\nEND WHILE\n" ++
    "DISPLAY:8/n&0.5\nEND CODE"

/-- The program of that text. -/
def countdown : Program where
  body :=
    [.declare .int [⟨⟨"n", ⟨2, 5, 1⟩⟩, none⟩] ⟨2, 1, 3⟩,
    .scan [⟨"n", ⟨4, 6, 1⟩⟩] ⟨4, 1, 4⟩,
    .loop
      (.paren (.binary ⟨.compare .gt, ⟨5, 8, 1⟩⟩ (.var "n" ⟨5, 7, 1⟩)
        (.literal (.int 0) ⟨5, 9, 1⟩) ⟨5, 7, 3⟩) ⟨5, 6, 5⟩)
      [.display [.expr (.var "n" ⟨7, 9, 1⟩)] ⟨7, 1, 7⟩,
      .assign [⟨"n", ⟨8, 1, 1⟩⟩] (.binary ⟨.arith .sub, ⟨8, 4, 1⟩⟩ (.var "n" ⟨8, 3, 1⟩)
        (.literal (.int 1) ⟨8, 5, 1⟩) ⟨8, 3, 3⟩) ⟨8, 1, 1⟩]
      ⟨5, 1, 5⟩,
    .display
      [.expr (.binary ⟨.arith .div, ⟨10, 10, 1⟩⟩ (.literal (.int 8) ⟨10, 9, 1⟩)
        (.var "n" ⟨10, 11, 1⟩) ⟨10, 9, 3⟩),
      .expr (.literal (.float (.ofDecimal false 5 1)) ⟨10, 13, 3⟩)] ⟨10, 1, 7⟩]
  span := ⟨1, 1, 5⟩

/-- The machine on which it fails, when it has read a 2. -/
def countdownEnd : Machine Input Sink where
  store := ⟨({} : Std.TreeMap String Variable).insert "n" ⟨.int, some (.int 0)⟩⟩
  input := .ofText "left"
  sink := { written := #[50, 49] }

set_option maxRecDepth 4096 in
theorem run_render_countdown :
    ∃ span, run 3 countdown.render (.start (.ofText "2\nleft")) =
      .error (.failed ⟨.runtime (.operand .divisionByZero), span⟩) countdownEnd := by
  have hread : parse countdownText = .ok countdown := rfl
  have hfinite : ∀ t ∈ Token.ofSource countdownText, t.isFinite = true := by decide +kernel
  have hrun : run 3 countdownText (.start (.ofText "2\nleft")) =
      .error (.failed ⟨.runtime (.operand .divisionByZero), ⟨10, 10, 1⟩⟩) countdownEnd := by
    rw [run_of_parse hread]
    rfl
  exact ((run_render hread hfinite 3 _ _).2 _).1 ⟨_, hrun⟩

end Program

end Pseudocode

/-
The check refuses nothing that runs.

This is the other half of what ties the check to a run.  When an operator has a value for
its operands, the check has a type for theirs, and it is the type of that value; a variable
that takes a value is of a type that accepts it.  So a value is always a proof that the check
accepts the expression it came from, and a statement that has run is one that the check lets
pass.

For a whole program this needs that every statement of it has run.  An IF or a WHILE may leave
statements out, and the check looks at those as well; without them a program that has run to
its end is one that the check accepts.
-/
import Pseudocode.Proofs.TypedRun
import Pseudocode.Proofs.TypedStore

namespace Pseudocode

/-! ### Operators -/

theorem BinOp.resultTy?_of_apply {op : BinOp} {a b v : Value} (h : op.apply a b = .ok v) :
    op.resultTy? a.ty b.ty = some v.ty := by
  cases op with
  | arith op =>
      cases a <;> cases b <;> simp only [BinOp.apply, Value.single?] at h
      case int.int m n =>
        cases hres : op.onInt? m n with
        | some k =>
            rw [hres] at h
            cases h
            rfl
        | none =>
            rw [hres] at h
            cases h
      all_goals first
        | (cases h; rfl)
        | cases h
  | compare op =>
      cases a <;> cases b <;> simp only [BinOp.apply, Value.order?, Value.single?] at h <;>
        cases h <;> rfl
  | connect op =>
      cases a <;> cases b <;> simp only [BinOp.apply, Value.bool?] at h <;> cases h
      rfl

theorem UnOp.resultTy?_of_apply {op : UnOp} {a v : Value} (h : op.apply a = .ok v) :
    op.resultTy? a.ty = some v.ty := by
  cases op <;> cases a <;> cases h <;> rfl

theorem OperandFault.locate_eq_ok {span : Span} {result : Except OperandFault Value} {v : Value} :
    locate span result = .ok v ↔ result = .ok v := by
  cases result with
  | ok w => rw [locate_ok]; simp
  | error fault => rw [locate_error]; simp

/-- A value that a variable takes is of a type that it accepts. -/
theorem Value.accepts_of_coerce? {v w : Value} {t : Ty} (h : v.coerce? t = some w) :
    t.accepts v.ty = true := by
  rcases Value.coerce?_eq_some_iff.1 h with ⟨rfl, rfl⟩ | ⟨n, rfl, rfl, -⟩
  · simp [Ty.accepts]
  · rfl

theorem Run.accepts_of_fit {t : Ty} {x : String} {v w : Value} {span : Span}
    (h : fit t x v span = .ok w) : t.accepts v.ty = true := by
  unfold fit at h
  cases hc : v.coerce? t with
  | none =>
      rw [hc] at h
      cases h
  | some u => exact Value.accepts_of_coerce? hc

/-! ### Expressions -/

namespace Expr

/-- **What has a value has the type of that value.** -/
theorem typeOf_of_eval {bare : String → Prop} {scope : Scope} {store : Store}
    (hfit : store.Fits bare scope) {e : Expr} :
    ∀ {v : Value}, e.eval store = .ok v → e.typeOf scope = .ok v.ty := by
  induction e with
  | binary op left right span ihl ihr =>
      intro v h
      obtain ⟨a, ha, h⟩ := bind_eq_ok.1 h
      obtain ⟨b, hb, h⟩ := bind_eq_ok.1 h
      have happly := OperandFault.locate_eq_ok.1 h
      exact typeOf_binary_eq_ok.2
        ⟨a.ty, b.ty, ihl ha, ihr hb, BinOp.resultTy?_of_apply happly⟩
  | unary op operand span ih =>
      intro v h
      obtain ⟨a, ha, h⟩ := bind_eq_ok.1 h
      have happly := OperandFault.locate_eq_ok.1 h
      exact typeOf_unary_eq_ok.2 ⟨a.ty, ih ha, UnOp.resultTy?_of_apply happly⟩
  | paren inner span ih =>
      intro v h
      exact ih h
  | var x span =>
      intro v h
      rw [eval] at h
      rcases hget : store.get? x with _ | ⟨t, _ | w⟩ <;> rw [hget] at h <;> cases h
      have hscope : scope[x]? = some t := by
        rw [← hfit.ty x, Store.ty?, hget, Option.map_some]
      rw [typeOf_var_eq_ok, hscope, hfit.typed x t v hget]
  | literal w span =>
      intro v h
      cases h
      rfl

end Expr

/-! ### Statements -/

namespace Run

variable {ι σ : Type}

/-- The store of a machine agrees with the scope: the same names with the same types, and
values of those types.  Any variable may be without a value. -/
abbrev Agrees (scope : Scope) (m : Machine ι σ) : Prop :=
  Fit (fun _ => True) scope m

/-- When the run succeeds, so does the check, and the scope and the store that they leave
agree again. -/
def Foretold (check : Check Unit) (x : Run ι σ Unit) : Prop :=
  ∀ scope m m', Agrees scope m → x m = .ok () m' →
    ∃ scope', check scope = .ok () scope' ∧ Agrees scope' m'

theorem Foretold.pure : Foretold (ι := ι) (σ := σ) (pure ()) (pure ()) := by
  intro scope m m' hm h
  obtain ⟨-, rfl⟩ := state_pure_eq_ok.1 h
  exact ⟨scope, rfl, hm⟩

theorem Foretold.seq {c d : Check Unit} {x y : Run ι σ Unit} (h : Foretold c x)
    (h' : Foretold d y) :
    Foretold (c >>= fun _ => d) (x >>= fun _ => y) := by
  intro scope m m' hm hrun
  obtain ⟨_, mid, hx, hy⟩ := state_bind_eq_ok.1 hrun
  obtain ⟨scope₁, hc, hmid⟩ := h scope m mid hm hx
  obtain ⟨scope₂, hd, hend⟩ := h' scope₁ mid m' hmid hy
  exact ⟨scope₂, state_bind_eq_ok.2 ⟨(), scope₁, hc, hd⟩, hend⟩

theorem Foretold.forM {α : Type} {f : α → Check Unit} {g : α → Run ι σ Unit}
    (h : ∀ a, Foretold (f a) (g a)) (as : List α) : Foretold (as.forM f) (as.forM g) := by
  induction as with
  | nil => exact .pure
  | cons a as ih => exact (h a).seq ih

/-- A check that declares nothing foretells a run that keeps to the scope and shows what the
check asks for. -/
theorem Foretold.inspect {f : Scope → Except Error Unit} {x : Run ι σ Unit}
    (h : ∀ scope m m', Agrees scope m → x m = .ok () m' → f scope = .ok () ∧ Agrees scope m') :
    Foretold (Check.inspect f) x := by
  intro scope m m' hm hrun
  obtain ⟨hf, hend⟩ := h scope m m' hm hrun
  exact ⟨scope, Check.inspect_eq_ok.2 ⟨hf, rfl⟩, hend⟩

/-- What a safe step keeps, it has kept when it succeeds. -/
theorem Safe.of_ok {α : Type} {allowed : Error → Prop} {pre : Machine ι σ → Prop} {x : Run ι σ α}
    {post : α → Machine ι σ → Prop} (h : Safe allowed pre x post) {m m' : Machine ι σ} {a : α}
    (hm : pre m) (hx : x m = .ok a m') : post a m' := by
  have hend := h m hm
  rw [hx] at hend
  exact hend

theorem declarator_foretold (ty : Ty) (d : Declarator) :
    Foretold (ι := ι) (σ := σ) (Check.declarator ty d) (declarator ty d) := by
  intro scope m m' hm h
  obtain ⟨value, mid, hvalue, hdeclare⟩ := state_bind_eq_ok.1 h
  obtain ⟨hvalue, rfl⟩ := inspect_eq_ok.1 hvalue
  have hnew : scope.contains d.name.val = false := by
    rw [Std.TreeMap.contains_eq_isSome_getElem?, ← hm.ty, Store.ty?, Option.isSome_map,
      Option.isSome_eq_false_iff, Option.isNone_iff_eq_none]
    cases hdecl : mid.store.declare? d.name.val ty value with
    | some store => exact (Store.declare?_eq_some_iff.1 hdecl).1
    | none =>
        rw [declare_of_none hdecl] at hdeclare
        cases hdeclare
  have hcheck : Check.declarator ty d scope = .ok () (scope.insert d.name.val ty) := by
    unfold initial at hvalue
    unfold Check.declarator
    rw [if_neg (by simp [hnew])]
    cases hd : d.init with
    | none => rfl
    | some init =>
        rw [hd] at hvalue
        obtain ⟨v, hv, hvalue⟩ := bind_eq_ok.1 hvalue
        obtain ⟨w, hw, -⟩ := bind_eq_ok.1 hvalue
        have htype := Expr.typeOf_of_eval hm hv
        have hfits : checkFits ty v.ty d.name.val init.span = .ok () :=
          checkFits_eq_ok.2 (accepts_of_fit hw)
        simp only [htype, ok_bind, hfits]
  have hsafe : Safe (ι := ι) (σ := σ) (fun _ => True) (Agrees scope) (declarator ty d) fun _ =>
      Agrees (scope.insert d.name.val ty) :=
    declarator_safe hcheck (fun _ => trivial) fun _ _ _ _ => trivial
  exact ⟨_, hcheck, hsafe.of_ok hm h⟩

/-- A variable that has taken a value is declared with a type that accepts it. -/
theorem assign_accepts {v : Value} {span : Span} {name : Name} {scope : Scope}
    {m m' : Machine ι σ} (hm : Agrees scope m) (h : assign v span name m = .ok () m') :
    (∃ t, scope[name.val]? = some t ∧ t.accepts v.ty = true) ∧ Agrees scope m' := by
  obtain ⟨w, mid, hw, -⟩ := state_bind_eq_ok.1 h
  obtain ⟨hw, rfl⟩ := inspect_eq_ok.1 hw
  obtain ⟨t, ht, hfit⟩ := bind_eq_ok.1 hw
  have hscope : scope[name.val]? = some t := (hm.ty _).symm.trans (tyOf_eq_ok.1 ht)
  refine ⟨⟨t, hscope, accepts_of_fit hfit⟩, ?_⟩
  have hsafe : Safe (ι := ι) (σ := σ) (fun _ => True) (Agrees scope) (assign v span name)
      fun _ => Agrees scope :=
    assign_safe hscope fun _ => trivial
  exact hsafe.of_ok hm h

/-- What every step shows and keeps, a sequence of steps shows of all its members. -/
theorem forM_agrees {α : Type} {shown : α → Prop} {f : α → Run ι σ Unit} {scope : Scope}
    (hf : ∀ a m m', Agrees scope m → f a m = .ok () m' → shown a ∧ Agrees scope m') :
    ∀ (as : List α) {m m' : Machine ι σ}, Agrees scope m → as.forM f m = .ok () m' →
      (∀ a ∈ as, shown a) ∧ Agrees scope m' := by
  intro as
  induction as with
  | nil =>
      intro m m' hm h
      obtain rfl := state_forM_nil_eq_ok.1 h
      exact ⟨by simp, hm⟩
  | cons a as ih =>
      intro m m' hm h
      obtain ⟨mid, ha, has⟩ := state_forM_cons_eq_ok.1 h
      obtain ⟨hshown, hmid⟩ := hf a m mid hm ha
      obtain ⟨hall, hend⟩ := ih hmid has
      exact ⟨List.forall_mem_cons.2 ⟨hshown, hall⟩, hend⟩

theorem scan_declared [LineSource ι] {targets : List Name} {span : Span} {scope : Scope}
    {m m' : Machine ι σ} (hm : Agrees scope m) (h : scan targets span m = .ok () m') :
    (∀ name ∈ targets, ∃ t, scope[name.val]? = some t) ∧ Agrees scope m' := by
  obtain ⟨line, mid, hline, h⟩ := state_bind_eq_ok.1 h
  have hread : Safe (ι := ι) (σ := σ) (fun _ => True) (Agrees scope) (readLine span)
      fun _ => Agrees scope :=
    .readLine (fun _ _ hm => hm) trivial fun _ _ _ => trivial
  have hmid : Agrees scope mid := hread.of_ok hm hline
  dsimp only at h
  by_cases hlength : (Field.ofLine line).length = targets.length
  · rw [if_pos hlength] at h
    have hstep : ∀ (pair : Name × List Char) (m m' : Machine ι σ), Agrees scope m →
        receive pair.1 pair.2 m = .ok () m' →
          (∃ t, scope[pair.1.val]? = some t) ∧ Agrees scope m' := by
      intro pair m m' hm h
      obtain ⟨ty, mid, hty, hassign⟩ := state_bind_eq_ok.1 h
      obtain ⟨-, rfl⟩ := inspect_eq_ok.1 hty
      obtain ⟨⟨t, ht, -⟩, hend⟩ := assign_accepts hm hassign
      exact ⟨⟨t, ht⟩, hend⟩
    obtain ⟨hall, hend⟩ := forM_agrees hstep _ hmid h
    refine ⟨fun name hname => ?_, hend⟩
    -- There is a field for every target, so every target has taken one.
    have hfst : (targets.zip (Field.ofLine line)).map Prod.fst = targets :=
      List.map_fst_zip (Nat.le_of_eq hlength.symm)
    rw [← hfst] at hname
    obtain ⟨pair, hpair, rfl⟩ := List.mem_map.1 hname
    exact hall pair hpair
  · rw [if_neg hlength] at h
    cases h

end Run

/-- Neither an IF nor a WHILE. -/
def Stmt.isStraight : Stmt → Bool
  | .ifThen .. | .loop .. => false
  | _ => true

section

variable {ι σ : Type} [LineSource ι] [ByteSink σ]

theorem Stmt.exec_foretold {s : Stmt} (hs : s.isStraight = true) (fuel : Nat) :
    Run.Foretold (ι := ι) (σ := σ) s.check (s.exec fuel) := by
  cases s with
  | declare ty vars span => exact .forM (Run.declarator_foretold ty) vars
  | assign targets value span =>
      refine .inspect fun scope m m' hm h => ?_
      obtain ⟨v, mid, hv, htargets⟩ := state_bind_eq_ok.1 h
      obtain ⟨hv, rfl⟩ := Run.inspect_eq_ok.1 hv
      obtain ⟨hall, hend⟩ := Run.forM_agrees (f := Run.assign v span)
        (fun _ _ _ => Run.assign_accepts) targets hm htargets
      refine ⟨bind_eq_ok.2 ⟨v.ty, Expr.typeOf_of_eval hm hv, ?_⟩, hend⟩
      exact checkTargets_eq_ok.2 hall
  | display items span =>
      refine .inspect fun scope m m' hm h => ?_
      obtain ⟨texts, mid, htexts, hwrite⟩ := state_bind_eq_ok.1 h
      obtain ⟨htexts, rfl⟩ := Run.inspect_eq_ok.1 htexts
      refine ⟨forM_eq_ok.2 fun item hitem => ?_, ?_⟩
      · have hmem := List.mem_map_of_mem (f := Item.eval mid.store) hitem
        rw [mapM_eq_ok htexts] at hmem
        obtain ⟨text, -, htext⟩ := List.mem_map.1 hmem
        cases item with
        | newline span => rfl
        | expr e =>
            obtain ⟨v, hv, -⟩ := bind_eq_ok.1 htext.symm
            exact bind_eq_ok.2 ⟨v.ty, Expr.typeOf_of_eval hm hv, rfl⟩
      · have hsafe : Run.Safe (ι := ι) (σ := σ) (fun _ => True) (Run.Agrees scope)
            (Run.write (String.join texts) span) fun _ => Run.Agrees scope :=
          .write (fun _ _ hm => hm) fun _ _ _ _ => trivial
        exact hsafe.of_ok hm hwrite
  | scan targets span =>
      refine .inspect fun scope m m' hm h => ?_
      obtain ⟨hall, hend⟩ := Run.scan_declared hm h
      refine ⟨forM_eq_ok.2 fun name hname => ?_, hend⟩
      obtain ⟨t, ht⟩ := hall name hname
      exact bind_eq_ok.2 ⟨t, Scope.lookUp_eq_ok.2 ht, rfl⟩
  | ifThen cond body otherwise span => cases hs
  | loop cond body span => cases hs

theorem execStmts_foretold (fuel : Nat) {body : List Stmt}
    (hbody : ∀ s ∈ body, s.isStraight = true) :
    Run.Foretold (ι := ι) (σ := σ) (checkStmts body) (execStmts fuel body) := by
  induction body with
  | nil => exact .pure
  | cons s rest ih =>
      obtain ⟨hs, hrest⟩ := List.forall_mem_cons.1 hbody
      exact (s.exec_foretold hs fuel).seq (ih hrest)

end

namespace Program

/-- **The check refuses nothing that runs.**  If the same names have the same types in a scope
and in a store whose values are of those types, an expression that has a value has its type.
So a program without IF and WHILE that runs to its end, on whatever input and sink, is one
that the check accepts. -/
theorem analyze_of_exec :
    (∀ (scope : Scope) (store : Store), (∀ x, store.ty? x = scope[x]?) → store.Typed →
      ∀ (e : Expr) (v : Value), e.eval store = .ok v → e.typeOf scope = .ok v.ty) ∧
    ∀ (ι σ : Type) [LineSource ι] [ByteSink σ] (p : Program) (fuel : Nat) (input : ι) (sink : σ)
      (m : Machine ι σ), (∀ s ∈ p.body, s.isStraight = true) →
      p.exec fuel { input := input, sink := sink } = .ok () m → p.analyze = .ok () := by
  refine ⟨fun scope store hty htyped e v h => ?_, fun ι σ _ _ p fuel input sink m hp h => ?_⟩
  · have hfit : store.Fits (fun _ => True) scope := ⟨hty, htyped, fun _ _ _ => trivial⟩
    exact Expr.typeOf_of_eval hfit h
  · obtain ⟨_, mid, hbody, -⟩ := state_bind_eq_ok.1 h
    have hempty : Run.Agrees {} ({ input := input, sink := sink } : Machine ι σ) :=
      Store.Fits.empty
    obtain ⟨scope, hcheck, -⟩ := execStmts_foretold fuel hp {} _ mid hempty hbody
    unfold analyze check
    rw [hcheck]

/-- A store with `INT n` and `FLOAT x`, both set. -/
def intAndFloat : Store :=
  ⟨(({} : Std.TreeMap String Variable).insert "n" ⟨.int, some (.int 7)⟩).insert "x"
    ⟨.float, some (.float (.ofInt 2))⟩⟩

/-- `n + x` -/
def intPlusFloat : Expr :=
  .binary ⟨.arith .add, ⟨1, 3, 1⟩⟩ (.var "n" ⟨1, 1, 1⟩) (.var "x" ⟨1, 5, 1⟩) ⟨1, 1, 5⟩

/-- Every kind of statement that is no IF and no WHILE. -/
def straightText : String :=
  "BEGIN CODE\nFLOAT x=1\nBOOL b='a'<>'b'\nINT n\nSCAN:n\nx=n=7%n\nDISPLAY:NOT b&n\nEND CODE"

/-- The program of that text. -/
def straight : Program where
  body :=
    [.declare .float [⟨⟨"x", ⟨2, 7, 1⟩⟩, some (.literal (.int 1) ⟨2, 9, 1⟩)⟩] ⟨2, 1, 5⟩,
    .declare .bool
      [⟨⟨"b", ⟨3, 6, 1⟩⟩, some (.binary ⟨.compare .ne, ⟨3, 11, 2⟩⟩ (.literal (.char 'a') ⟨3, 8, 3⟩)
        (.literal (.char 'b') ⟨3, 13, 3⟩) ⟨3, 8, 8⟩)⟩] ⟨3, 1, 4⟩,
    .declare .int [⟨⟨"n", ⟨4, 5, 1⟩⟩, none⟩] ⟨4, 1, 3⟩,
    .scan [⟨"n", ⟨5, 6, 1⟩⟩] ⟨5, 1, 4⟩,
    .assign [⟨"x", ⟨6, 1, 1⟩⟩, ⟨"n", ⟨6, 3, 1⟩⟩] (.binary ⟨.arith .rem, ⟨6, 6, 1⟩⟩
      (.literal (.int 7) ⟨6, 5, 1⟩) (.var "n" ⟨6, 7, 1⟩) ⟨6, 5, 3⟩) ⟨6, 1, 1⟩,
    .display [.expr (.unary ⟨.not, ⟨7, 9, 3⟩⟩ (.var "b" ⟨7, 13, 1⟩) ⟨7, 9, 5⟩),
      .expr (.var "n" ⟨7, 15, 1⟩)] ⟨7, 1, 7⟩]
  span := ⟨1, 1, 5⟩

theorem analyze_of_exec_straight :
    intPlusFloat.typeOf (({} : Scope).insert "n" .int |>.insert "x" .float) = .ok .float ∧
      parse straightText = .ok straight ∧ straight.analyze = .ok () := by
  have hfit : intAndFloat.Fits (fun _ => True)
      (({} : Scope).insert "n" .int |>.insert "x" .float) := by
    have hint : Store.Fits (fun _ => True) (({} : Scope).insert "n" .int)
        ⟨({} : Std.TreeMap String Variable).insert "n" ⟨.int, some (.int 7)⟩⟩ :=
      Store.Fits.empty.declare rfl (by simp [Value.ty]) (by simp)
    exact hint.declare rfl (by simp [Value.ty]) (by simp)
  refine ⟨?_, rfl, ?_⟩
  · exact analyze_of_exec.1 _ intAndFloat hfit.ty hfit.typed intPlusFloat _ rfl
  · exact analyze_of_exec.2 Input Sink straight 0 (.ofText "4\n") {} _ (by decide) rfl

end Program

end Pseudocode

/-
Checked programs run safely.

The check and a run both go through a program statement by statement, the one with a
scope and the other with a store.  As long as the store fits the scope, a statement that
the check accepted does its work and leaves a store that fits the scope behind it, or it
fails in one of the ways that no check can exclude: a division by zero, a variable without
a value, an input that is missing or does not fit, an error of the input or of the sink.

The argument needs that a declaration is met by the check exactly when it is met by the
run.  Inside of IF and WHILE that would fail, for a branch is checked whether it runs or
not; a program that was read has no declarations there, so a branch leaves the scope as it
is.  Behind one program the next one starts with the scope and the store it left, and so
all of this goes on over a whole session.
-/
import Pseudocode.Program.Run
import Pseudocode.Proofs.Acceptance
import Pseudocode.Proofs.TypedEval

namespace Pseudocode

/-! ### Scopes grow -/

/-- The second scope knows all that the first one knows. -/
def Scope.Extends (small large : Scope) : Prop :=
  ∀ (x : String) (t : Ty), small[x]? = some t → large[x]? = some t

namespace Scope.Extends

theorem refl (scope : Scope) : scope.Extends scope :=
  fun _ _ h => h

theorem trans {a b c : Scope} (hab : a.Extends b) (hbc : b.Extends c) : a.Extends c :=
  fun x t h => hbc x t (hab x t h)

theorem insert {scope : Scope} {x : String} {t : Ty} (hx : scope.contains x = false) :
    scope.Extends (scope.insert x t) := by
  intro y t' h
  rw [Std.TreeMap.getElem?_insert]
  have hne : ¬ compare x y = .eq := by
    rw [Std.LawfulEqCmp.compare_eq_iff_eq]
    rintro rfl
    rw [Std.TreeMap.contains_eq_isSome_getElem?, h] at hx
    cases hx
  rw [if_neg hne, h]

end Scope.Extends

namespace Expr

variable {bare : String → Prop} {small large : Scope}

theorem typeOf_extends (hext : small.Extends large) {e : Expr} {t : Ty}
    (h : e.typeOf small = .ok t) : e.typeOf large = .ok t := by
  induction e generalizing t with
  | binary op left right span ihl ihr =>
      obtain ⟨l, r, hl, hr, hres⟩ := typeOf_binary_eq_ok.1 h
      exact typeOf_binary_eq_ok.2 ⟨l, r, ihl hl, ihr hr, hres⟩
  | unary op operand span ih =>
      obtain ⟨t', ht', hres⟩ := typeOf_unary_eq_ok.1 h
      exact typeOf_unary_eq_ok.2 ⟨t', ih ht', hres⟩
  | paren inner span ih => exact ih h
  | var x span => exact typeOf_var_eq_ok.2 (hext x t (typeOf_var_eq_ok.1 h))
  | literal v span => exact h

theorem Failure.extend (hext : small.Extends large) {e : Expr} {err : Error}
    (h : Failure bare small e err) : Failure bare large e err := by
  cases h with
  | divisionByZero h hop hleft hright =>
      exact .divisionByZero h hop (typeOf_extends hext hleft) (typeOf_extends hext hright)
  | unset h hx => exact .unset h hx

end Expr

/-! ### What the check finds out -/

theorem Scope.lookUp_eq_ok {scope : Scope} {name : Name} {t : Ty} :
    scope.lookUp name = .ok t ↔ scope[name.val]? = some t := by
  unfold Scope.lookUp
  cases scope[name.val]? <;> simp

theorem checkFits_eq_ok {target source : Ty} {name : String} {span : Span} :
    checkFits target source name span = .ok () ↔ target.accepts source = true := by
  unfold checkFits
  split <;> simp_all

theorem checkTargets_eq_ok {scope : Scope} {targets : List Name} {source : Ty} {span : Span} :
    checkTargets scope targets source span = .ok () ↔
      ∀ name ∈ targets, ∃ t, scope[name.val]? = some t ∧ t.accepts source = true := by
  unfold checkTargets
  rw [forM_eq_ok]
  refine forall₂_congr fun name _ => ?_
  rw [bind_eq_ok]
  refine exists_congr fun t => ?_
  rw [checkFits_eq_ok, Scope.lookUp_eq_ok]

namespace Check

theorem inspect_eq_ok {α : Type} {f : Scope → Except Error α} {a : α} {scope scope' : Scope} :
    inspect f scope = .ok a scope' ↔ f scope = .ok a ∧ scope' = scope := by
  unfold inspect
  cases f scope <;> simp [eq_comm]

theorem declarator_eq_ok {ty : Ty} {d : Declarator} {scope scope' : Scope}
    (h : declarator ty d scope = .ok () scope') :
    scope.contains d.name.val = false ∧
      (∀ init ∈ d.init, ∃ source, init.typeOf scope = .ok source ∧ ty.accepts source = true) ∧
      scope' = scope.insert d.name.val ty := by
  unfold declarator at h
  split at h
  · cases h
  · rename_i hnew
    dsimp only at h
    cases hd : d.init with
    | none =>
        simp only [hd] at h
        cases h
        exact ⟨Bool.eq_false_iff.2 hnew, by simp, rfl⟩
    | some init =>
        simp only [hd] at h
        split at h
        · rename_i hfits
          cases h
          obtain ⟨source, hsource, hfits⟩ := bind_eq_ok.1 hfits
          refine ⟨Bool.eq_false_iff.2 hnew, ?_, rfl⟩
          intro e he
          cases he
          exact ⟨source, hsource, checkFits_eq_ok.1 hfits⟩
        · cases h

end Check

theorem Check.declarators_extends {ty : Ty} {vars : List Declarator} {scope scope' : Scope}
    (h : vars.forM (Check.declarator ty) scope = .ok () scope') : scope.Extends scope' := by
  induction vars generalizing scope with
  | nil =>
      obtain rfl := state_forM_nil_eq_ok.1 h
      exact .refl _
  | cons d vars ih =>
      obtain ⟨_, hfirst, hrest⟩ := state_forM_cons_eq_ok.1 h
      obtain ⟨hnew, -, rfl⟩ := Check.declarator_eq_ok hfirst
      exact (Scope.Extends.insert hnew).trans (ih hrest)

mutual

/-- Without declarations the check leaves the scope as it is. -/
theorem Stmt.check_plain {scope scope' : Scope} (s : Stmt) (hplain : s.Plain)
    (h : s.check scope = .ok () scope') : scope' = scope := by
  match s with
  | .declare ty vars span =>
      have := hplain _ (Stmt.mem_parts_self _)
      cases this
  | .assign .. =>
      rw [Stmt.check, Check.inspect_eq_ok] at h
      exact h.2
  | .display .. =>
      rw [Stmt.check, Check.inspect_eq_ok] at h
      exact h.2
  | .scan .. =>
      rw [Stmt.check, Check.inspect_eq_ok] at h
      exact h.2
  | .ifThen cond body otherwise span =>
      rw [Stmt.check, state_bind_eq_ok] at h
      obtain ⟨_, _, hcond, h⟩ := h
      obtain ⟨_, _, hbody, hrest⟩ := state_bind_eq_ok.1 h
      rw [Stmt.Plain, Stmt.parts, List.forall_mem_cons, List.forall_mem_append] at hplain
      rw [Otherwise.check_plain otherwise hplain.2.2 hrest, checkStmts_plain body hplain.2.1 hbody]
      exact (Check.inspect_eq_ok.1 hcond).2
  | .loop cond body span =>
      rw [Stmt.check, state_bind_eq_ok] at h
      obtain ⟨_, _, hcond, hbody⟩ := h
      rw [Stmt.Plain, Stmt.parts, List.forall_mem_cons] at hplain
      rw [checkStmts_plain body hplain.2 hbody]
      exact (Check.inspect_eq_ok.1 hcond).2

theorem Otherwise.check_plain {scope scope' : Scope} (o : Otherwise)
    (hplain : ∀ d ∈ o.parts, d.isDeclaration = false) (h : o.check scope = .ok () scope') :
    scope' = scope := by
  match o with
  | .nothing => exact (state_pure_eq_ok.1 h).2.symm
  | .elseIf cond body otherwise =>
      rw [Otherwise.check, state_bind_eq_ok] at h
      obtain ⟨_, _, hcond, h⟩ := h
      obtain ⟨_, _, hbody, hrest⟩ := state_bind_eq_ok.1 h
      rw [Otherwise.parts, List.forall_mem_append] at hplain
      rw [Otherwise.check_plain otherwise hplain.2 hrest, checkStmts_plain body hplain.1 hbody]
      exact (Check.inspect_eq_ok.1 hcond).2
  | .bare body => exact checkStmts_plain body hplain h

theorem checkStmts_plain {scope scope' : Scope} (body : List Stmt)
    (hplain : ∀ d ∈ stmtParts body, d.isDeclaration = false)
    (h : checkStmts body scope = .ok () scope') : scope' = scope := by
  match body with
  | [] => exact (state_pure_eq_ok.1 h).2.symm
  | s :: rest =>
      rw [checkStmts, state_bind_eq_ok] at h
      obtain ⟨_, _, hfirst, hrest⟩ := h
      rw [stmtParts, List.forall_mem_append] at hplain
      rw [checkStmts_plain rest hplain.2 hrest]
      exact Stmt.check_plain s hplain.1 hfirst

end

theorem Stmt.check_ifThen {scope scope' : Scope} {cond : Expr} {body : List Stmt}
    {otherwise : Otherwise} {span : Span} (hplain : (Stmt.ifThen cond body otherwise span).Plain)
    (h : (Stmt.ifThen cond body otherwise span).check scope = .ok () scope') :
    cond.checkCondition scope = .ok () ∧
      ((∀ d ∈ stmtParts body, d.isDeclaration = false) ∧ checkStmts body scope = .ok () scope) ∧
      (∀ d ∈ otherwise.parts, d.isDeclaration = false) ∧
      otherwise.check scope = .ok () scope := by
  rw [Stmt.Plain, Stmt.parts, List.forall_mem_cons, List.forall_mem_append] at hplain
  obtain ⟨-, hbodyPlain, hrestPlain⟩ := hplain
  rw [Stmt.check, state_bind_eq_ok] at h
  obtain ⟨_, _, hcond, h⟩ := h
  obtain ⟨hcond, rfl⟩ := Check.inspect_eq_ok.1 hcond
  obtain ⟨_, _, hbody, hrest⟩ := state_bind_eq_ok.1 h
  obtain rfl := checkStmts_plain body hbodyPlain hbody
  obtain rfl := Otherwise.check_plain otherwise hrestPlain hrest
  exact ⟨hcond, ⟨hbodyPlain, hbody⟩, hrestPlain, hrest⟩

theorem Otherwise.check_elseIf {scope scope' : Scope} {cond : Expr} {body : List Stmt}
    {otherwise : Otherwise}
    (hplain : ∀ d ∈ (Otherwise.elseIf cond body otherwise).parts, d.isDeclaration = false)
    (h : (Otherwise.elseIf cond body otherwise).check scope = .ok () scope') :
    cond.checkCondition scope = .ok () ∧
      ((∀ d ∈ stmtParts body, d.isDeclaration = false) ∧ checkStmts body scope = .ok () scope) ∧
      (∀ d ∈ otherwise.parts, d.isDeclaration = false) ∧
      otherwise.check scope = .ok () scope := by
  rw [Otherwise.parts, List.forall_mem_append] at hplain
  obtain ⟨hbodyPlain, hrestPlain⟩ := hplain
  rw [Otherwise.check, state_bind_eq_ok] at h
  obtain ⟨_, _, hcond, h⟩ := h
  obtain ⟨hcond, rfl⟩ := Check.inspect_eq_ok.1 hcond
  obtain ⟨_, _, hbody, hrest⟩ := state_bind_eq_ok.1 h
  obtain rfl := checkStmts_plain body hbodyPlain hbody
  obtain rfl := Otherwise.check_plain otherwise hrestPlain hrest
  exact ⟨hcond, ⟨hbodyPlain, hbody⟩, hrestPlain, hrest⟩

theorem Stmt.check_loop {scope scope' : Scope} {cond : Expr} {body : List Stmt} {span : Span}
    (hplain : (Stmt.loop cond body span).Plain)
    (h : (Stmt.loop cond body span).check scope = .ok () scope') :
    cond.checkCondition scope = .ok () ∧
      (∀ d ∈ stmtParts body, d.isDeclaration = false) ∧ checkStmts body scope = .ok () scope := by
  rw [Stmt.Plain, Stmt.parts, List.forall_mem_cons] at hplain
  rw [Stmt.check, state_bind_eq_ok] at h
  obtain ⟨_, _, hcond, hbody⟩ := h
  obtain ⟨hcond, rfl⟩ := Check.inspect_eq_ok.1 hcond
  obtain rfl := checkStmts_plain body hplain.2 hbody
  exact ⟨hcond, hplain.2, hbody⟩

/-! ### How a checked program may fail -/

/-- The ways in which a checked program may fail, with an input and a sink of given kinds. -/
inductive Program.Failure (ι σ : Type) [LineSource ι] [ByteSink σ] (bare : String → Prop)
    (scope : Scope) (p : Program) : Error → Prop
  /-- An expression of the program divides by zero or uses a name without a value. -/
  | expr {s : Stmt} {e : Expr} {err : Error} (hs : s ∈ p.stmts) (he : e ∈ s.heads)
      (h : e.Failure bare scope err) : Failure ι σ bare scope p err
  /-- The input has no line left for a SCAN, or one with the wrong number of fields. -/
  | missingInput {targets : List Name} {span : Span} (hs : .scan targets span ∈ p.stmts) :
      Failure ι σ bare scope p (RunFault.missingInput.at span)
  /-- The input fails, in its own words, when a SCAN asks it for a line. -/
  | inputFailed {targets : List Name} {span : Span} {input : ι} {message : String}
      (hs : .scan targets span ∈ p.stmts)
      (h : (LineSource.nextLine input).1 = .failed message) :
      Failure ι σ bare scope p ((RunFault.device message).at span)
  /-- A field does not fit the variable that a SCAN gives it to. -/
  | misfit {targets : List Name} {span : Span} {name : Name} {ty : Ty}
      (hs : .scan targets span ∈ p.stmts) (hname : name ∈ targets) :
      Failure ι σ bare scope p ((RunFault.binding (.mismatch ty name.val)).at name.span)
  /-- The sink fails, in its own words, to take what a DISPLAY shows. -/
  | writeFailed {items : List Item} {span : Span} {sink : σ} {bytes : List UInt8}
      {message : String} (hs : .display items span ∈ p.stmts)
      (h : (ByteSink.writeAll sink bytes).1 = some message) :
      Failure ι σ bare scope p ((RunFault.device message).at span)
  /-- The sink fails, in its own words, to pass on what was written. -/
  | flushFailed {sink : σ} {message : String} (h : (ByteSink.flush sink).1 = some message) :
      Failure ι σ bare scope p ((RunFault.device message).at p.span)

namespace Run

variable {ι σ : Type} {allowed : Error → Prop} {bare : String → Prop} {scope : Scope}

/-- The store of a machine fits the scope. -/
def Fit (bare : String → Prop) (scope : Scope) (m : Machine ι σ) : Prop :=
  m.store.Fits bare scope

/-! ### Single steps -/

theorem eval_safe {e : Expr} {t : Ty} (he : e.typeOf scope = .ok t)
    (hfail : ∀ err, e.Failure bare scope err → allowed err) :
    Safe (ι := ι) (σ := σ) allowed (Fit bare scope) (inspect e.eval)
      fun v m => Fit bare scope m ∧ v.ty = t := by
  refine .inspect (fun m v hm hv => ?_) fun m err hm herr => ?_
  · rcases Expr.eval_typed hm he with ⟨w, hw, hty⟩ | ⟨err, herr, -⟩
    · rw [hw] at hv
      cases hv
      exact ⟨hm, hty⟩
    · rw [herr] at hv
      cases hv
  · rcases Expr.eval_typed hm he with ⟨w, hw, -⟩ | ⟨err', herr', hf⟩
    · rw [hw] at herr
      cases herr
    · rw [herr'] at herr
      cases herr
      exact hfail _ hf

theorem condition_safe {cond : Expr} (hcond : cond.checkCondition scope = .ok ())
    (hfail : ∀ err, cond.Failure bare scope err → allowed err) :
    Safe (ι := ι) (σ := σ) allowed (Fit bare scope) (condition cond) fun _ => Fit bare scope := by
  have hty : cond.typeOf scope = .ok .bool := by
    obtain ⟨t, ht, h⟩ := bind_eq_ok.1 hcond
    by_cases hb : t = .bool
    · rw [ht, hb]
    · simp [hb] at h
  have hbool : ∀ v : Value, v.ty = .bool → ∃ b, v.bool? = some b := by
    intro v hv
    cases v <;> simp_all [Value.ty, Value.bool?]
  refine .inspect (fun m _ hm _ => hm) fun m err hm herr => ?_
  rcases Expr.eval_typed hm hty with ⟨v, hv, hvty⟩ | ⟨err', herr', hf⟩
  · obtain ⟨b, hb⟩ := hbool v hvty
    simp [Expr.evalCondition, hv, hb] at herr
  · simp only [Expr.evalCondition, herr', bind, Except.bind, Except.error.injEq] at herr
    exact hfail err (herr ▸ hf)

theorem fit_eq_error {t : Ty} {x : String} {v : Value} {span : Span} {err : Error}
    (h : fit t x v span = .error err) :
    t.accepts v.ty = false ∧ err = (RunFault.binding (.mismatch v.ty x)).at span := by
  unfold fit at h
  cases hc : v.coerce? t with
  | some u => simp [hc] at h
  | none =>
      simp only [hc, Except.error.injEq] at h
      refine ⟨?_, h.symm⟩
      by_contra ha
      rw [Bool.not_eq_false] at ha
      obtain ⟨w, hw, -⟩ := Value.coerce?_typed ha
      rw [hc] at hw
      cases hw

/-- A variable that is given a value of its type leaves the store fitting. -/
theorem put_fit {x : String} {v : Value} {m : Machine ι σ} (hm : Fit bare scope m)
    (hx : scope[x]? = some v.ty) :
    Fit bare scope { m with store := (m.store.assign? x v).getD m.store } := by
  obtain ⟨value, hget⟩ := hm.get? hx
  have hassign : m.store.assign? x v = some ⟨m.store.byName.insert x ⟨v.ty, some v⟩⟩ :=
    Store.assign?_eq_some_iff.2 ⟨_, hget, rfl⟩
  rw [hassign]
  exact hm.assign hx hassign

/-- A declared variable takes a value of a type it accepts; any other value is refused. -/
theorem assign_safe {name : Name} {t : Ty} {v : Value} {span : Span}
    (hname : scope[name.val]? = some t)
    (hfail : t.accepts v.ty = false →
      allowed ((RunFault.binding (.mismatch v.ty name.val)).at span)) :
    Safe (ι := ι) (σ := σ) allowed (Fit bare scope) (assign v span name)
      fun _ => Fit bare scope := by
  have htyOf : ∀ m : Machine ι σ, Fit bare scope m → tyOf name m.store = .ok t := by
    intro m hm
    have hty : m.store.ty? name.val = some t := (hm.ty name.val).trans hname
    simp [tyOf, hty]
  refine .bind (q := fun w m => Fit bare scope m ∧ w.ty = t) ?_ fun w => ?_
  · refine .inspect (fun m w hm hw => ?_) fun m err hm herr => ?_
    · rw [fitted, htyOf m hm] at hw
      exact ⟨hm, fit_eq_ok hw⟩
    · rw [fitted, htyOf m hm] at herr
      obtain ⟨ha, rfl⟩ := fit_eq_error herr
      exact hfail ha
  · rintro m ⟨hm, rfl⟩
    exact put_fit hm hname

theorem declarator_safe {ty : Ty} {d : Declarator} {scope' : Scope}
    (hcheck : Check.declarator ty d scope = .ok () scope')
    (hbare : d.init = none → bare d.name.val)
    (hfail : ∀ e ∈ d.init, ∀ err, e.Failure bare scope err → allowed err) :
    Safe (ι := ι) (σ := σ) allowed (Fit bare scope) (declarator ty d)
      fun _ => Fit bare scope' := by
  obtain ⟨hnew, hinit, rfl⟩ := Check.declarator_eq_ok hcheck
  refine .bind (q := fun value m => Fit bare scope m ∧ (∀ v, value = some v → v.ty = ty) ∧
    (value = none → bare d.name.val)) ?_ fun value => ?_
  · refine .inspect (fun m value hm hv => ?_) fun m err hm herr => ?_
    · obtain ⟨htyped, hnone⟩ := initial_eq_ok hv
      exact ⟨hm, htyped, fun h => hbare (hnone h)⟩
    · unfold initial at herr
      cases hd : d.init with
      | none =>
          rw [hd] at herr
          cases herr
      | some init =>
          rw [hd] at herr
          obtain ⟨source, hsource, haccepts⟩ := hinit init hd
          rcases Expr.eval_typed hm hsource with ⟨v, hv, rfl⟩ | ⟨err', herr', hf⟩
          · obtain ⟨w, hw, -⟩ := Value.coerce?_typed haccepts
            simp [hv, fit, hw, pure, Except.pure] at herr
          · simp only [herr', bind, Except.bind, Except.error.injEq] at herr
            exact hfail init hd err (herr ▸ hf)
  · have hget : ∀ m : Machine ι σ, Fit bare scope m → m.store.get? d.name.val = none := by
      intro m hm
      have hty := hm.ty d.name.val
      rw [Std.TreeMap.contains_eq_isSome_getElem?, ← hty, Store.ty?, Option.isSome_map] at hnew
      exact Option.not_isSome_iff_eq_none.1 (by simp [hnew])
    refine .declare ?_ ?_
    · rintro m store ⟨hm, htyped, hunset⟩ hdecl
      exact hm.declare hdecl htyped hunset
    · rintro m ⟨hm, -⟩ hdecl
      rw [Store.declare?_eq_some_iff.2 ⟨hget m hm, rfl⟩] at hdecl
      cases hdecl

theorem scan_safe [LineSource ι] {targets : List Name} {span : Span}
    (htargets : ∀ name ∈ targets, ∃ t, scope[name.val]? = some t)
    (hmissing : allowed (RunFault.missingInput.at span))
    (hinput : ∀ (input : ι) message, (LineSource.nextLine input).1 = .failed message →
      allowed ((RunFault.device message).at span))
    (hmisfit : ∀ name ∈ targets, ∀ ty,
      allowed ((RunFault.binding (.mismatch ty name.val)).at name.span)) :
    Safe (ι := ι) (σ := σ) allowed (Fit bare scope) (scan targets span)
      fun _ => Fit bare scope := by
  refine .bind (.readLine (fun _ _ hm => hm) hmissing hinput) fun line => ?_
  dsimp only
  split
  · refine .forM fun ⟨name, field⟩ hmem => ?_
    have hname : name ∈ targets := (List.of_mem_zip hmem).1
    obtain ⟨t, ht⟩ := htargets name hname
    refine .bind (q := fun _ => Fit bare scope) ?_ fun ty => ?_
    · refine .inspect (fun m _ hm _ => hm) fun m err hm herr => ?_
      have hty : m.store.ty? name.val = some t := (hm.ty name.val).trans ht
      simp [tyOf, hty] at herr
    · exact assign_safe ht fun _ => hmisfit name hname _
  · exact .fail hmissing

theorem display_safe [ByteSink σ] {items : List Item} {span : Span}
    (hitems : ∀ e ∈ items.filterMap Item.expr?, ∃ t, e.typeOf scope = .ok t)
    (hfail : ∀ e ∈ items.filterMap Item.expr?, ∀ err, e.Failure bare scope err → allowed err)
    (hsink : ∀ (sink : σ) bytes message, (ByteSink.writeAll sink bytes).1 = some message →
      allowed ((RunFault.device message).at span)) :
    Safe (ι := ι) (σ := σ) allowed (Fit bare scope)
      (do
        let texts ← inspect fun store => items.mapM (Item.eval store)
        write (String.join texts) span)
      fun _ => Fit bare scope := by
  refine .bind (q := fun _ => Fit bare scope) ?_ fun texts => .write (fun _ _ hm => hm) hsink
  refine .inspect (fun m _ hm _ => hm) fun m err hm herr => ?_
  obtain ⟨before, texts, item, after, hsplit, -, hitem⟩ := mapM_eq_error herr
  have hmem : item ∈ items := by simp [hsplit]
  cases item with
  | newline span => cases hitem
  | expr e =>
      have he : e ∈ items.filterMap Item.expr? := List.mem_filterMap.2 ⟨_, hmem, rfl⟩
      obtain ⟨t, ht⟩ := hitems e he
      rcases Expr.eval_typed hm ht with ⟨v, hv, -⟩ | ⟨err', herr', hf⟩
      · simp [Item.eval, hv, pure, Except.pure] at hitem
      · simp only [Item.eval, herr', bind, Except.bind, Except.error.injEq] at hitem
        exact hfail e he err (hitem ▸ hf)

end Run

/-! ### Statements without declarations -/

section Plain

open Run

variable {ι σ : Type} [LineSource ι] [ByteSink σ] {bare : String → Prop} {top : Scope}
  {p : Program}

/-- A failure of an expression that stands in a statement is a failure of the program. -/
theorem Program.Failure.of_head {scope : Scope} (hext : scope.Extends top) {s : Stmt}
    (hs : s ∈ p.stmts) {e : Expr} (he : e ∈ s.heads) {err : Error} (h : e.Failure bare scope err) :
    p.Failure ι σ bare top err :=
  .expr hs he (h.extend hext)

/-- A clause: its condition is checked, and then its body or the rest runs. -/
theorem clause_safe {ι σ : Type} {bare : String → Prop} {scope : Scope} {allowed : Error → Prop}
    {cond : Expr} {body rest : Run ι σ Unit} (hcond : cond.checkCondition scope = .ok ())
    (hfail : ∀ err, cond.Failure bare scope err → allowed err)
    (hbody : Safe allowed (Fit bare scope) body fun _ => Fit bare scope)
    (hrest : Safe allowed (Fit bare scope) rest fun _ => Fit bare scope) :
    Safe allowed (Fit bare scope) (do if ← condition cond then body else rest)
      fun _ => Fit bare scope := by
  refine .bind (condition_safe hcond hfail) fun b => ?_
  cases b with
  | true => exact hbody
  | false => exact hrest

mutual

theorem Stmt.exec_safe {scope scope' : Scope} (hext : scope.Extends top) (fuel : Nat) (s : Stmt)
    (hplain : s.Plain) (hmem : ∀ d ∈ s.parts, d ∈ p.stmts)
    (hcheck : s.check scope = .ok () scope') :
    Safe (ι := ι) (σ := σ) (p.Failure ι σ bare top) (Fit bare scope) (s.exec fuel)
      fun _ => Fit bare scope := by
  have hs : s ∈ p.stmts := hmem s s.mem_parts_self
  match s with
  | .declare ty vars span =>
      have := hplain _ (Stmt.mem_parts_self _)
      cases this
  | .assign targets value span =>
      rw [Stmt.check, Check.inspect_eq_ok, bind_eq_ok] at hcheck
      obtain ⟨⟨source, hsource, htargets⟩, -⟩ := hcheck
      rw [Stmt.exec]
      refine .bind (eval_safe hsource fun err => .of_head hext hs (by simp [Stmt.heads]))
        fun v => ?_
      rintro m ⟨hm, rfl⟩
      refine Safe.forM (fun name hname => ?_) m hm
      obtain ⟨t, ht, haccepts⟩ := checkTargets_eq_ok.1 htargets name hname
      exact assign_safe ht fun hno => absurd haccepts (by simp [hno])
  | .display items span =>
      rw [Stmt.check, Check.inspect_eq_ok, forM_eq_ok] at hcheck
      rw [Stmt.exec]
      refine display_safe (fun e he => ?_) (fun e he err => .of_head hext hs he)
        fun _ _ _ h => .writeFailed hs h
      obtain ⟨item, hitem, hexpr⟩ := List.mem_filterMap.1 he
      cases item with
      | newline span => cases hexpr
      | expr e' =>
          cases hexpr
          obtain ⟨t, ht, -⟩ := bind_eq_ok.1 (hcheck.1 _ hitem)
          exact ⟨t, ht⟩
  | .scan targets span =>
      rw [Stmt.check, Check.inspect_eq_ok, forM_eq_ok] at hcheck
      rw [Stmt.exec]
      refine scan_safe (fun name hname => ?_) (.missingInput hs)
        (fun _ _ h => .inputFailed hs h) fun name hname ty => .misfit hs hname
      obtain ⟨t, ht, -⟩ := bind_eq_ok.1 (hcheck.1 name hname)
      exact ⟨t, Scope.lookUp_eq_ok.1 ht⟩
  | .ifThen cond body otherwise span =>
      obtain ⟨hcond, ⟨hbody, hbodyCheck⟩, hrest, hrestCheck⟩ := Stmt.check_ifThen hplain hcheck
      rw [Stmt.parts, List.forall_mem_cons, List.forall_mem_append] at hmem
      rw [Stmt.exec]
      refine clause_safe hcond (fun err => .of_head hext hs (by simp [Stmt.heads])) ?_ ?_
      · exact execStmts_safe hext fuel body hbody hmem.2.1 hbodyCheck
      · refine Otherwise.exec_safe hext fuel otherwise hrest hmem.2.2
          (fun e he err => ?_) hrestCheck
        exact .of_head hext hs (List.mem_cons_of_mem _ he)
  | .loop cond body span =>
      obtain ⟨hcond, hbody, hbodyCheck⟩ := Stmt.check_loop hplain hcheck
      rw [Stmt.parts, List.forall_mem_cons] at hmem
      rw [Stmt.exec]
      refine .loop (condition_safe hcond fun err => ?_) ?_ fuel
      · exact .of_head hext hs (by simp [Stmt.heads])
      · exact execStmts_safe hext fuel body hbody hmem.2 hbodyCheck

theorem Otherwise.exec_safe {scope scope' : Scope} (hext : scope.Extends top) (fuel : Nat)
    (o : Otherwise) (hplain : ∀ d ∈ o.parts, d.isDeclaration = false)
    (hmem : ∀ d ∈ o.parts, d ∈ p.stmts)
    (hconds : ∀ e ∈ o.conditions, ∀ err, e.Failure bare scope err → p.Failure ι σ bare top err)
    (hcheck : o.check scope = .ok () scope') :
    Safe (ι := ι) (σ := σ) (p.Failure ι σ bare top) (Fit bare scope) (o.exec fuel)
      fun _ => Fit bare scope := by
  match o with
  | .nothing => exact .pure fun m hm => hm
  | .elseIf cond body otherwise =>
      obtain ⟨hcond, ⟨hbody, hbodyCheck⟩, hrest, hrestCheck⟩ :=
        Otherwise.check_elseIf hplain hcheck
      rw [Otherwise.parts, List.forall_mem_append] at hmem
      rw [Otherwise.conditions, List.forall_mem_cons] at hconds
      rw [Otherwise.exec]
      refine clause_safe hcond hconds.1 ?_ ?_
      · exact execStmts_safe hext fuel body hbody hmem.1 hbodyCheck
      · exact Otherwise.exec_safe hext fuel otherwise hrest hmem.2 hconds.2 hrestCheck
  | .bare body => exact execStmts_safe hext fuel body hplain hmem hcheck

theorem execStmts_safe {scope scope' : Scope} (hext : scope.Extends top) (fuel : Nat)
    (body : List Stmt) (hplain : ∀ d ∈ stmtParts body, d.isDeclaration = false)
    (hmem : ∀ d ∈ stmtParts body, d ∈ p.stmts)
    (hcheck : checkStmts body scope = .ok () scope') :
    Safe (ι := ι) (σ := σ) (p.Failure ι σ bare top) (Fit bare scope) (execStmts fuel body)
      fun _ => Fit bare scope := by
  match body with
  | [] => exact .pure fun m hm => hm
  | s :: rest =>
      rw [checkStmts, state_bind_eq_ok] at hcheck
      obtain ⟨_, _, hfirst, hrest⟩ := hcheck
      rw [stmtParts, List.forall_mem_append] at hplain hmem
      obtain rfl := Stmt.check_plain s hplain.1 hfirst
      rw [execStmts]
      refine .bind (Stmt.exec_safe hext fuel s hplain.1 hmem.1 hfirst) fun _ => ?_
      exact execStmts_safe hext fuel rest hplain.2 hmem.2 hrest

end

end Plain

/-! ### Programs -/

section Session

open Run

variable {ι σ : Type} [LineSource ι] [ByteSink σ] {bare : String → Prop} {top : Scope}
  {p : Program}

theorem declarators_safe {scope scope' : Scope} {ty : Ty} {vars : List Declarator}
    (hext : scope'.Extends top) (hcheck : vars.forM (Check.declarator ty) scope = .ok () scope')
    (hbare : ∀ d ∈ vars, d.init = none → bare d.name.val)
    (hfail : ∀ d ∈ vars, ∀ e ∈ d.init, ∀ err, e.Failure bare top err → p.Failure ι σ bare top err) :
    Safe (ι := ι) (σ := σ) (p.Failure ι σ bare top) (Fit bare scope) (vars.forM (Run.declarator ty))
      fun _ => Fit bare scope' := by
  induction vars generalizing scope with
  | nil =>
      obtain rfl := state_forM_nil_eq_ok.1 hcheck
      exact .pure fun m hm => hm
  | cons d vars ih =>
      -- A first value is checked where its own name is not yet known.
      have hall := (Check.declarators_extends hcheck).trans hext
      obtain ⟨_, hfirst, hrest⟩ := state_forM_cons_eq_ok.1 hcheck
      obtain ⟨hbare, hbares⟩ := List.forall_mem_cons.1 hbare
      obtain ⟨hfail, hfails⟩ := List.forall_mem_cons.1 hfail
      refine .bind (declarator_safe hfirst hbare fun e he err h => ?_) fun _ => ?_
      · exact hfail e he err (h.extend hall)
      · exact ih hrest hbares hfails

/-- The statements of a program at the outermost level. -/
theorem execStmts_outermost_safe {scope scope' : Scope} (hext : scope'.Extends top) (fuel : Nat)
    {body : List Stmt} (hlevel : ∀ s ∈ body, s.isDeclaration = true ∨ s.Plain)
    (hmem : ∀ d ∈ stmtParts body, d ∈ p.stmts)
    (hbare : ∀ s ∈ p.stmts, ∀ d ∈ s.declared, d.init = none → bare d.name.val)
    (hcheck : checkStmts body scope = .ok () scope') :
    scope.Extends scope' ∧
      Safe (ι := ι) (σ := σ) (p.Failure ι σ bare top) (Fit bare scope) (execStmts fuel body)
        fun _ => Fit bare scope' := by
  induction body generalizing scope with
  | nil =>
      obtain ⟨-, rfl⟩ := state_pure_eq_ok.1 hcheck
      exact ⟨.refl _, .pure fun m hm => hm⟩
  | cons s rest ih =>
      rw [checkStmts, state_bind_eq_ok] at hcheck
      obtain ⟨_, _, hfirst, hrest⟩ := hcheck
      rw [stmtParts, List.forall_mem_append] at hmem
      obtain ⟨hlevel, hlevels⟩ := List.forall_mem_cons.1 hlevel
      obtain ⟨hgrow, hsafe⟩ := ih hlevels hmem.2 hrest
      have hmid := hgrow.trans hext
      rw [execStmts]
      rcases hlevel with hdecl | hplain
      · cases s with
        | declare ty vars span =>
            have hs := hmem.1 _ (Stmt.mem_parts_self _)
            refine ⟨(Check.declarators_extends hfirst).trans hgrow, .bind ?_ fun _ => hsafe⟩
            refine declarators_safe hmid hfirst (hbare _ hs) fun d hd e he err h => ?_
            exact .expr hs (List.mem_filterMap.2 ⟨d, hd, he⟩) h
        | _ => cases hdecl
      · obtain rfl := Stmt.check_plain s hplain hfirst
        exact ⟨hgrow, .bind (Stmt.exec_safe hmid fuel s hplain hmem.1 hfirst) fun _ => hsafe⟩

/-- **A checked program runs safely.**  From a store that fits the scope in front of it, it
ends with one that fits the scope behind it, or it fails in one of the ways listed. -/
theorem Program.exec_safe {scope scope' : Scope} (fuel : Nat)
    (hlevel : ∀ s ∈ p.body, s.isDeclaration = true ∨ s.Plain)
    (hbare : ∀ s ∈ p.stmts, ∀ d ∈ s.declared, d.init = none → bare d.name.val)
    (hcheck : p.check scope = .ok () scope') :
    Safe (ι := ι) (σ := σ) (p.Failure ι σ bare scope') (Fit bare scope) (p.exec fuel)
      fun _ => Fit bare scope' := by
  obtain ⟨-, hsafe⟩ :=
    execStmts_outermost_safe (ι := ι) (σ := σ) (.refl scope') fuel hlevel (fun d hd => hd) hbare
      hcheck
  exact .bind hsafe fun _ => .flush (fun _ _ hm => hm) fun _ _ h => .flushFailed h

/-! ### Sessions -/

/-- A machine runs programs one after another, each to its end. -/
inductive Program.RunsAll : List Program → Machine ι σ → Machine ι σ → Prop
  | nil {m : Machine ι σ} : RunsAll [] m m
  | cons {q : Program} {qs : List Program} {m m' m'' : Machine ι σ} (fuel : Nat)
      (h : q.exec fuel m = .ok () m') (hs : RunsAll qs m' m'') : RunsAll (q :: qs) m m''

/-- A name that some program declares without a first value. -/
def Program.DeclaredBare (programs : List Program) (x : String) : Prop :=
  ∃ q ∈ programs, ∃ s ∈ q.stmts, ∃ d ∈ s.declared, d.name.val = x ∧ d.init = none

theorem Program.RunsAll.fit {programs : List Program} {m m' : Machine ι σ}
    (hrun : RunsAll programs m m') {scope scope' : Scope}
    (hlevel : ∀ q ∈ programs, ∀ s ∈ q.body, s.isDeclaration = true ∨ s.Plain)
    (hbare : ∀ q ∈ programs, ∀ s ∈ q.stmts, ∀ d ∈ s.declared, d.init = none → bare d.name.val)
    (hcheck : programs.forM Program.check scope = .ok () scope') (hm : Fit bare scope m) :
    Fit bare scope' m' := by
  induction hrun generalizing scope with
  | nil =>
      obtain rfl := state_forM_nil_eq_ok.1 hcheck
      exact hm
  | @cons q qs m mid m' fuel h hs ih =>
      obtain ⟨_, hfirst, hrest⟩ := state_forM_cons_eq_ok.1 hcheck
      obtain ⟨hlevel, hlevels⟩ := List.forall_mem_cons.1 hlevel
      obtain ⟨hbare, hbares⟩ := List.forall_mem_cons.1 hbare
      have hend := Program.exec_safe fuel hlevel hbare hfirst m hm
      rw [h] at hend
      exact ih hlevels hbares hrest hend

/-- **Soundness of the check.**  Programs are read and checked one after another in one
scope, and all but the last have run on one machine, which started without variables.  If
the last one fails, it fails in one of the ways listed in `Program.Failure`.  No name that is
not declared or declared twice is among them, no operator on operands of the wrong type, no
condition that is not BOOL, and no value that does not fit its variable but for SCAN.  The
input and the sink may be of any kind, and fail in any words. -/
theorem Program.failure_of_checked_session {earlier : List Program} {p : Program} {scope : Scope}
    {input : ι} {sink : σ} {m m' : Machine ι σ} {fuel : Nat} {e : Error}
    (hread : ∀ q ∈ earlier ++ [p], ∃ source, Program.parse source = .ok q)
    (hcheck : (earlier ++ [p]).forM Program.check {} = .ok () scope)
    (hrun : RunsAll earlier { input := input, sink := sink } m)
    (hfail : p.exec fuel m = .error (.failed e) m') :
    p.Failure ι σ (DeclaredBare (earlier ++ [p])) scope e := by
  have hlevel : ∀ q ∈ earlier ++ [p], ∀ s ∈ q.body, s.isDeclaration = true ∨ s.Plain := by
    intro q hq
    obtain ⟨source, hsource⟩ := hread q hq
    exact (Program.parse_eq_ok_iff.1 hsource).declaration_or_plain
  have hbare : ∀ q ∈ earlier ++ [p], ∀ s ∈ q.stmts, ∀ d ∈ s.declared, d.init = none →
      DeclaredBare (earlier ++ [p]) d.name.val :=
    fun q hq s hs d hd hinit => ⟨q, hq, s, hs, d, hd, rfl, hinit⟩
  obtain ⟨scope', hcheck, hlast⟩ := state_forM_concat_eq_ok.1 hcheck
  obtain ⟨hlevels, hlevel⟩ := List.forall_mem_append.1 hlevel
  obtain ⟨hbares, hbare⟩ := List.forall_mem_append.1 hbare
  have hfit := hrun.fit hlevels hbares hcheck Store.Fits.empty
  have hend := Program.exec_safe fuel (hlevel p (by simp)) (hbare p (by simp)) hlast m hfit
  rw [hfail] at hend
  exact hend

/-- `INT x, y=4` -/
def Program.sessionStart : Program where
  body :=
    [.declare .int
      [⟨⟨"x", ⟨2, 5, 1⟩⟩, none⟩, ⟨⟨"y", ⟨2, 8, 1⟩⟩, some (.literal (.int 4) ⟨2, 10, 1⟩)⟩] ⟨2, 1, 3⟩]
  span := ⟨1, 1, 5⟩

/-- `y` counts down to zero, and then 8 is divided by it. -/
def Program.sessionEnd : Program where
  body :=
    [.loop
      (.paren (.binary ⟨.compare .ne, ⟨2, 10, 2⟩⟩ (.var "y" ⟨2, 8, 1⟩)
        (.literal (.int 0) ⟨2, 13, 1⟩) ⟨2, 8, 6⟩) ⟨2, 7, 8⟩)
      [.assign [⟨"y", ⟨4, 1, 1⟩⟩] (.binary ⟨.arith .sub, ⟨4, 7, 1⟩⟩ (.var "y" ⟨4, 5, 1⟩)
        (.literal (.int 2) ⟨4, 9, 1⟩) ⟨4, 5, 5⟩) ⟨4, 1, 1⟩]
      ⟨2, 1, 5⟩,
    .display [.expr (.binary ⟨.arith .rem, ⟨6, 12, 1⟩⟩ (.literal (.int 8) ⟨6, 10, 1⟩)
      (.var "y" ⟨6, 14, 1⟩) ⟨6, 10, 5⟩)] ⟨6, 1, 7⟩]
  span := ⟨1, 1, 5⟩

/-- The machine between the two, where `y` holds a value and `x` none. -/
def Machine.betweenPrograms (y : Int32) : Machine Input Sink where
  store := ⟨(({} : Std.TreeMap String Variable).insert "x" ⟨.int, none⟩).insert "y"
    ⟨.int, some (.int y)⟩⟩
  input := .ofText ""
  sink := {}

theorem Program.failure_of_checked_session_division :
    Program.sessionEnd.exec 3 (.betweenPrograms 4) =
        .error (.failed ((RunFault.operand .divisionByZero).at ⟨6, 12, 1⟩)) (.betweenPrograms 0) ∧
      Program.sessionEnd.Failure Input Sink
        (DeclaredBare [Program.sessionStart, Program.sessionEnd])
        ((({} : Scope).insert "x" .int).insert "y" .int)
        ((RunFault.operand .divisionByZero).at ⟨6, 12, 1⟩) := by
  have hread : ∀ q ∈ [Program.sessionStart] ++ [Program.sessionEnd],
      ∃ source, Program.parse source = .ok q := by
    intro q hq
    rcases List.mem_cons.1 hq with rfl | hq
    · exact ⟨"BEGIN CODE\nINT x, y=4\nEND CODE", rfl⟩
    · obtain rfl := List.mem_singleton.1 hq
      exact ⟨"BEGIN CODE\nWHILE (y <> 0)\nBEGIN WHILE\ny = y - 2\nEND WHILE\nDISPLAY: 8 % y\n" ++
        "END CODE", rfl⟩
  have hcheck : ([Program.sessionStart] ++ [Program.sessionEnd]).forM Program.check {} =
      .ok () ((({} : Scope).insert "x" .int).insert "y" .int) := rfl
  have hrun : RunsAll [Program.sessionStart] (.start (.ofText "")) (.betweenPrograms 4) :=
    .cons 0 rfl .nil
  have hfail : Program.sessionEnd.exec 3 (.betweenPrograms 4) =
      .error (.failed ((RunFault.operand .divisionByZero).at ⟨6, 12, 1⟩)) (.betweenPrograms 0) :=
    rfl
  exact ⟨hfail, failure_of_checked_session hread hcheck hrun hfail⟩

end Session

end Pseudocode

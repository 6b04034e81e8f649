/-
What errors point at.

An error that the check or a run finds in a program stands at a place of that program: at an
operator, a name, an expression or a statement.  None of the steps makes up a place, or has
one left over from elsewhere.

The judgement `Blames P x` says that the errors of the computation `x` stand at places with
the property `P`.  It goes along with the ways in which computations are put together, so
there is a lemma for each function of the check and for each step of a run, under the
condition that the places in its program have the property.
-/
import Pseudocode.Program.Run
import Pseudocode.Proofs.Judgement
import Pseudocode.Proofs.Provenance

namespace Pseudocode

variable {α β : Type} {P : Span → Prop}

/-- The error of a computation, if it ends with one, stands at a place with the property. -/
def Blames (P : Span → Prop) (x : Except Error α) : Prop :=
  ∀ e, x = .error e → P e.span

namespace Blames

theorem ok (a : α) : Blames P (.ok a) := by
  intro e h
  cases h

theorem error {e : Error} (h : P e.span) : Blames P (.error e : Except Error α) := by
  intro e' he
  cases he
  exact h

theorem bind {x : Except Error α} {f : α → Except Error β} (hx : Blames P x)
    (hf : ∀ a, Blames P (f a)) : Blames P (x >>= f) := by
  cases x with
  | ok a => exact hf a
  | error e => exact error (hx e rfl)

theorem forM {f : α → Except Error Unit} {as : List α} (h : ∀ a ∈ as, Blames P (f a)) :
    Blames P (as.forM f) := by
  induction as with
  | nil => exact ok ()
  | cons a as ih =>
      obtain ⟨ha, has⟩ := List.forall_mem_cons.1 h
      exact bind ha fun _ => ih has

theorem mapM {f : α → Except Error β} {as : List α} (h : ∀ a ∈ as, Blames P (f a)) :
    Blames P (as.mapM f) := by
  induction as with
  | nil => exact ok []
  | cons a as ih =>
      obtain ⟨ha, has⟩ := List.forall_mem_cons.1 h
      rw [List.mapM_cons]
      exact bind ha fun _ => bind (ih has) fun _ => ok _

end Blames

/-! ### The check -/

theorem Scope.lookUp_blames {scope : Scope} {name : Name} (h : P name.span) :
    Blames P (scope.lookUp name) := by
  unfold Scope.lookUp
  split
  · exact .ok _
  · exact .error h

namespace Expr

theorem typeOf_blames {scope : Scope} {e : Expr} (h : ∀ s ∈ e.spans, P s) :
    Blames P (e.typeOf scope) := by
  induction e with
  | binary op left right span ihl ihr =>
      simp only [spans, List.forall_mem_cons, List.forall_mem_append] at h
      obtain ⟨-, hop, hleft, hright⟩ := h
      refine .bind (ihl hleft) fun l => .bind (ihr hright) fun r => ?_
      split
      · exact .ok _
      · exact .error hop
  | unary op operand span ih =>
      simp only [spans, List.forall_mem_cons] at h
      obtain ⟨-, hop, hoperand⟩ := h
      refine .bind (ih hoperand) fun t => ?_
      split
      · exact .ok _
      · exact .error hop
  | paren inner span ih => exact ih (List.forall_mem_cons.1 h).2
  | var x span => exact Scope.lookUp_blames (List.forall_mem_singleton.1 h)
  | literal v span => exact .ok _

/-- The place of an expression is one of its places. -/
theorem span_mem_spans (e : Expr) : e.span ∈ e.spans := by
  cases e <;> simp [span, spans]

theorem checkCondition_blames {scope : Scope} {e : Expr} (h : ∀ s ∈ e.spans, P s) :
    Blames P (e.checkCondition scope) := by
  refine .bind (typeOf_blames h) fun ty => ?_
  split
  · exact .ok _
  · exact .error (h _ e.span_mem_spans)

end Expr

theorem checkFits_blames {target source : Ty} {name : String} {span : Span} (h : P span) :
    Blames P (checkFits target source name span) := by
  unfold checkFits
  split
  · exact .ok _
  · exact .error h

theorem checkTargets_blames {scope : Scope} {targets : List Name} {source : Ty} {span : Span}
    (htargets : ∀ n ∈ targets, P n.span) (h : P span) :
    Blames P (checkTargets scope targets source span) :=
  .forM fun n hn => .bind (Scope.lookUp_blames (htargets n hn)) fun _ => checkFits_blames h

namespace Check

/-- The errors of a check stand at places with the property. -/
def Blames (P : Span → Prop) (x : Check α) : Prop :=
  ∀ scope e scope', x scope = .error e scope' → P e.span

namespace Blames

theorem pure (a : α) : Blames P (pure a) := by
  intro scope e scope' h
  cases h

theorem bind {x : Check α} {f : α → Check β} (hx : Blames P x) (hf : ∀ a, Blames P (f a)) :
    Blames P (x >>= f) := by
  intro scope e scope' h
  change EStateM.bind x f scope = _ at h
  unfold EStateM.bind at h
  cases hres : x scope with
  | ok a s =>
      rw [hres] at h
      exact hf a s e scope' h
  | error e' s =>
      rw [hres] at h
      cases h
      exact hx scope e scope' hres

theorem forM {f : α → Check Unit} {as : List α} (h : ∀ a ∈ as, Blames P (f a)) :
    Blames P (as.forM f) := by
  induction as with
  | nil => exact pure ()
  | cons a as ih =>
      obtain ⟨ha, has⟩ := List.forall_mem_cons.1 h
      exact bind ha fun _ => ih has

theorem inspect {f : Scope → Except Error α} (h : ∀ scope, Pseudocode.Blames P (f scope)) :
    Blames P (Check.inspect f) := by
  intro scope e scope' he
  unfold Check.inspect at he
  cases hres : f scope with
  | ok a =>
      rw [hres] at he
      cases he
  | error e' =>
      rw [hres] at he
      cases he
      exact h scope e hres

end Blames

theorem declarator_blames {ty : Ty} {d : Declarator} (h : ∀ s ∈ d.spans, P s) :
    Blames P (declarator ty d) := by
  obtain ⟨hname, hinit⟩ := List.forall_mem_cons.1 h
  intro scope e scope' he
  unfold declarator at he
  split at he
  · cases he
    exact hname
  · cases hd : d.init with
    | none =>
        rw [hd] at he
        cases he
    | some init =>
        rw [hd] at he hinit
        have hfits : Pseudocode.Blames P (do
            let source ← init.typeOf scope
            checkFits ty source d.name.val init.span) :=
          .bind (Expr.typeOf_blames hinit) fun _ =>
            checkFits_blames (hinit _ init.span_mem_spans)
        dsimp only at he
        split at he
        · cases he
        · rename_i herr
          cases he
          exact hfits _ herr

end Check

mutual

theorem Stmt.check_blames (s : Stmt) (h : ∀ span ∈ s.spans, P span) :
    Check.Blames P s.check := by
  match s with
  | .declare ty vars span =>
      rw [Stmt.check]
      refine .forM fun d hd => Check.declarator_blames fun span' hspan => ?_
      refine h span' ?_
      rw [Stmt.spans]
      exact List.mem_cons_of_mem _ (List.mem_flatMap.2 ⟨d, hd, hspan⟩)
  | .assign targets value span =>
      simp only [Stmt.spans, List.forall_mem_cons, List.forall_mem_append, List.forall_mem_map] at h
      rw [Stmt.check]
      refine .inspect fun scope => .bind (Expr.typeOf_blames h.2.2) fun source => ?_
      exact checkTargets_blames h.2.1 (h.2.2 _ value.span_mem_spans)
  | .display items span =>
      rw [Stmt.check]
      refine .inspect fun scope => .forM fun item hitem => ?_
      cases item with
      | newline _ => exact .ok _
      | expr e =>
          refine .bind (Expr.typeOf_blames fun span' hspan => h span' ?_) fun _ => .ok _
          rw [Stmt.spans]
          exact List.mem_cons_of_mem _ (List.mem_flatMap.2 ⟨_, hitem, hspan⟩)
  | .scan targets span =>
      simp only [Stmt.spans, List.forall_mem_cons, List.forall_mem_map] at h
      rw [Stmt.check]
      exact .inspect fun scope => .forM fun n hn =>
        .bind (Scope.lookUp_blames (h.2 n hn)) fun _ => .ok _
  | .ifThen cond body otherwise span =>
      simp only [Stmt.spans, List.forall_mem_cons, List.forall_mem_append] at h
      rw [Stmt.check]
      refine .bind (.inspect fun scope => Expr.checkCondition_blames h.2.1.1) fun _ => ?_
      exact .bind (checkStmts_blames body h.2.1.2) fun _ => otherwise.check_blames h.2.2
  | .loop cond body span =>
      simp only [Stmt.spans, List.forall_mem_cons, List.forall_mem_append] at h
      rw [Stmt.check]
      refine .bind (.inspect fun scope => Expr.checkCondition_blames h.2.1) fun _ => ?_
      exact checkStmts_blames body h.2.2

theorem Otherwise.check_blames (o : Otherwise) (h : ∀ span ∈ o.spans, P span) :
    Check.Blames P o.check := by
  match o with
  | .nothing =>
      rw [Otherwise.check]
      exact .pure ()
  | .elseIf cond body otherwise =>
      simp only [Otherwise.spans, List.forall_mem_append] at h
      rw [Otherwise.check]
      refine .bind (.inspect fun scope => Expr.checkCondition_blames h.1.1) fun _ => ?_
      exact .bind (checkStmts_blames body h.1.2) fun _ => otherwise.check_blames h.2
  | .bare body =>
      rw [Otherwise.check]
      exact checkStmts_blames body h

theorem checkStmts_blames (stmts : List Stmt) (h : ∀ span ∈ stmtSpans stmts, P span) :
    Check.Blames P (checkStmts stmts) := by
  match stmts with
  | [] =>
      rw [checkStmts]
      exact .pure ()
  | s :: rest =>
      simp only [stmtSpans, List.forall_mem_append] at h
      rw [checkStmts]
      exact .bind (s.check_blames h.1) fun _ => checkStmts_blames rest h.2

end

theorem Program.analyze_blames {p : Program} (h : ∀ span ∈ p.spans, P span) :
    Blames P p.analyze := by
  intro e he
  unfold Program.analyze at he
  split at he
  · cases he
  · rename_i e' scope hcheck
    cases he
    exact checkStmts_blames p.body (List.forall_mem_cons.1 h).2 _ _ _ hcheck

/-! ### Runs -/

theorem OperandFault.locate_blames {span : Span} {result : Except OperandFault Value}
    (h : P span) : Blames P (locate span result) := by
  cases result with
  | ok v => exact .ok v
  | error fault => exact .error h

namespace Expr

theorem eval_blames {store : Store} {e : Expr} (h : ∀ s ∈ e.spans, P s) :
    Blames P (e.eval store) := by
  induction e with
  | binary op left right span ihl ihr =>
      simp only [spans, List.forall_mem_cons, List.forall_mem_append] at h
      obtain ⟨-, hop, hleft, hright⟩ := h
      exact .bind (ihl hleft) fun l => .bind (ihr hright) fun r => OperandFault.locate_blames hop
  | unary op operand span ih =>
      simp only [spans, List.forall_mem_cons] at h
      obtain ⟨-, hop, hoperand⟩ := h
      exact .bind (ih hoperand) fun v => OperandFault.locate_blames hop
  | paren inner span ih => exact ih (List.forall_mem_cons.1 h).2
  | var x span =>
      have hspan := List.forall_mem_singleton.1 h
      unfold eval
      split
      · exact .error hspan
      · exact .error hspan
      · exact .ok _
  | literal v span => exact .ok _

theorem evalCondition_blames {store : Store} {e : Expr} (h : ∀ s ∈ e.spans, P s) :
    Blames P (e.evalCondition store) := by
  refine .bind (eval_blames h) fun v => ?_
  split
  · exact .ok _
  · exact .error (h _ e.span_mem_spans)

end Expr

theorem Item.eval_blames {store : Store} {item : Item} (h : ∀ s ∈ item.spans, P s) :
    Blames P (item.eval store) := by
  cases item with
  | newline span => exact .ok _
  | expr e => exact .bind (Expr.eval_blames h) fun v => .ok _

theorem Run.fit_blames {ty : Ty} {name : String} {value : Value} {span : Span} (h : P span) :
    Blames P (fit ty name value span) := by
  unfold fit
  split
  · exact .ok _
  · exact .error h

theorem Run.tyOf_blames {name : Name} {store : Store} (h : P name.span) :
    Blames P (tyOf name store) := by
  unfold tyOf
  split
  · exact .ok _
  · exact .error h

theorem Run.fitted_blames {value : Value} {span : Span} {name : Name} {store : Store}
    (hname : P name.span) (h : P span) : Blames P (fitted value span name store) :=
  .bind (tyOf_blames hname) fun _ => fit_blames h

theorem Run.initial_blames {ty : Ty} {d : Declarator} {store : Store} (h : ∀ s ∈ d.spans, P s) :
    Blames P (initial ty d store) := by
  replace h := (List.forall_mem_cons.1 h).2
  unfold initial
  cases hd : d.init with
  | none => exact .ok _
  | some init =>
      rw [hd] at h
      exact .bind (Expr.eval_blames h) fun v =>
        .bind (fit_blames (h _ init.span_mem_spans)) fun _ => .ok _

/-- The places in a condition are among those of its ELSE clauses. -/
theorem Otherwise.spans_subset_of_mem_conditions {o : Otherwise} {e : Expr}
    (he : e ∈ o.conditions) : e.spans ⊆ o.spans := by
  match o with
  | .nothing => cases he
  | .elseIf cond body otherwise =>
      rw [Otherwise.spans]
      obtain rfl | he := List.mem_cons.1 he
      · exact List.subset_append_of_subset_left _ (List.subset_append_left _ _)
      · exact List.subset_append_of_subset_right _ (spans_subset_of_mem_conditions he)
  | .bare body => cases he

namespace Stmt

variable {s : Stmt}

/-- The errors of what a statement looks up stand at its places. -/
theorem Looks.blames {f f' : Store → Except Error α} (h : s.Looks α f f')
    (hs : ∀ span ∈ s.spans, P span) (store : Store) : Blames P (f store) := by
  cases h with
  | initial hd =>
      refine Run.initial_blames fun span hspan => hs span ?_
      exact List.mem_cons_of_mem _ (List.mem_flatMap.2 ⟨_, hd, hspan⟩)
  | value => exact Expr.eval_blames (List.forall_mem_append.1 (List.forall_mem_cons.1 hs).2).2
  | fitted v hname =>
      refine Run.fitted_blames (hs _ ?_) (List.forall_mem_cons.1 hs).1
      exact List.mem_cons_of_mem _ (List.mem_append_left _ (List.mem_map_of_mem hname))
  | texts =>
      refine .mapM fun item hitem => Item.eval_blames fun span hspan => hs span ?_
      exact List.mem_cons_of_mem _ (List.mem_flatMap.2 ⟨item, hitem, hspan⟩)
  | tyOf hname =>
      exact Run.tyOf_blames (hs _ (List.mem_cons_of_mem _ (List.mem_map_of_mem hname)))
  | field v hname =>
      have hspan := hs _ (List.mem_cons_of_mem _ (List.mem_map_of_mem hname))
      exact Run.fitted_blames hspan hspan
  | clause he =>
      simp only [spans, List.forall_mem_cons, List.forall_mem_append] at hs
      obtain rfl | he := List.mem_cons.1 he
      · exact Expr.evalCondition_blames hs.2.1.1
      · exact Expr.evalCondition_blames fun span hspan =>
          hs.2.2 span (Otherwise.spans_subset_of_mem_conditions he hspan)
  | round =>
      exact Expr.evalCondition_blames (List.forall_mem_append.1 (List.forall_mem_cons.1 hs).2).1

theorem spans_subset_of_mem_declared {d : Declarator} (hd : d ∈ s.declared) :
    d.spans ⊆ s.spans := by
  cases s with
  | declare ty vars span =>
      exact fun _ h => List.mem_cons_of_mem _ (List.mem_flatMap.2 ⟨d, hd, h⟩)
  | _ => cases hd

end Stmt

mutual

/-- The places in a statement are among those of the statement it stands in. -/
theorem Stmt.spans_subset_of_mem_parts (s : Stmt) {d : Stmt} (hd : d ∈ s.parts) :
    d.spans ⊆ s.spans := by
  match s with
  | .declare .. | .assign .. | .display .. | .scan .. =>
      rw [List.mem_singleton.1 hd]
      exact List.Subset.refl _
  | .ifThen cond body otherwise span =>
      rw [Stmt.parts, List.mem_cons, List.mem_append] at hd
      obtain rfl | hd | hd := hd
      · exact List.Subset.refl _
      · exact fun x hx => by simp [Stmt.spans, stmtSpans_subset_of_mem_parts body hd hx]
      · exact fun x hx => by simp [Stmt.spans, otherwise.spans_subset_of_mem_parts hd hx]
  | .loop cond body span =>
      rw [Stmt.parts, List.mem_cons] at hd
      obtain rfl | hd := hd
      · exact List.Subset.refl _
      · exact fun x hx => by simp [Stmt.spans, stmtSpans_subset_of_mem_parts body hd hx]

theorem Otherwise.spans_subset_of_mem_parts (o : Otherwise) {d : Stmt} (hd : d ∈ o.parts) :
    d.spans ⊆ o.spans := by
  match o with
  | .nothing => cases hd
  | .elseIf cond body otherwise =>
      rw [Otherwise.parts, List.mem_append] at hd
      obtain hd | hd := hd
      · exact fun x hx => by simp [Otherwise.spans, stmtSpans_subset_of_mem_parts body hd hx]
      · exact fun x hx => by simp [Otherwise.spans, otherwise.spans_subset_of_mem_parts hd hx]
  | .bare body => exact stmtSpans_subset_of_mem_parts body hd

theorem stmtSpans_subset_of_mem_parts (body : List Stmt) {d : Stmt} (hd : d ∈ stmtParts body) :
    d.spans ⊆ stmtSpans body := by
  match body with
  | [] => cases hd
  | s :: rest =>
      rw [stmtParts, List.mem_append] at hd
      obtain hd | hd := hd
      · exact fun x hx => by simp [stmtSpans, s.spans_subset_of_mem_parts hd hx]
      · exact fun x hx => by simp [stmtSpans, stmtSpans_subset_of_mem_parts rest hd hx]

end

namespace Run

variable {ι σ : Type}

/-- The errors of a run stand at places with the property. -/
abbrev Blames (P : Span → Prop) (x : Run ι σ α) : Prop :=
  Safe (fun e => P e.span) (fun _ => True) x fun _ _ => True

namespace Blames

theorem inspect {f : Store → Except Error α} (h : ∀ store, Pseudocode.Blames P (f store)) :
    Blames (ι := ι) (σ := σ) P (Run.inspect f) :=
  Safe.inspect (fun _ _ _ _ => trivial) fun m e _ he => h m.store e he

theorem judgement : Judgement fun _ (x : Run ι σ _) => Blames P x where
  pure _ := .pure fun _ _ => trivial
  bind hx hf := .bind hx hf
  outOfFuel := fun _ _ => trivial

theorem step [LineSource ι] [ByteSink σ] {s : Stmt} (hs : ∀ span ∈ s.spans, P span)
    {x x' : Run ι σ α} (h : s.Step α x x') : Blames P x := by
  cases h with
  | inspect h => exact inspect fun store => h.blames hs store
  | declare hd ty value =>
      have hname := hs _ (Stmt.spans_subset_of_mem_declared hd List.mem_cons_self)
      exact .declare (fun _ _ _ _ => trivial) fun _ _ _ => hname
  | put _ v => exact fun _ _ => trivial
  | write text =>
      exact .write (fun _ _ _ => trivial) fun _ _ _ _ => (List.forall_mem_cons.1 hs).1
  | readLine =>
      have hspan := (List.forall_mem_cons.1 hs).1
      exact .readLine (fun _ _ _ => trivial) hspan fun _ _ _ => hspan
  | miscounted => exact .fail (List.forall_mem_cons.1 hs).1

end Blames

end Run

theorem Program.exec_blames {ι σ : Type} [LineSource ι] [ByteSink σ] (fuel : Nat) {p : Program}
    (h : ∀ span ∈ p.spans, P span) : Run.Blames (ι := ι) (σ := σ) P (p.exec fuel) := by
  obtain ⟨hspan, hbody⟩ := List.forall_mem_cons.1 h
  refine p.exec_holds Run.Blames.judgement fuel (fun s hs _ _ _ hstep => ?_) ?_
  · refine Run.Blames.step (fun span hspan => hbody span ?_) hstep
    exact stmtSpans_subset_of_mem_parts p.body hs hspan
  · exact Run.Safe.flush (fun _ _ _ => trivial) fun _ _ _ => hspan

/-- **What a run fails with stands at a place of the program, or is an error of reading.** -/
theorem Program.run_blames {ι σ : Type} [LineSource ι] [ByteSink σ] (fuel : Nat)
    {source : String} (hparse : Blames P (parse source))
    (h : ∀ p, parse source = .ok p → ∀ span ∈ p.spans, P span) :
    Run.Blames (ι := ι) (σ := σ) P (run fuel source) := by
  refine .bind (q := fun p _ => parse source = .ok p) ?_ fun p => ?_
  · exact .inspect (fun _ _ _ hp => hp) fun _ e _ he => hparse e he
  · intro m hp
    have hcheck : Run.Blames (ι := ι) (σ := σ) P (Run.inspect fun _ => p.analyze) :=
      .inspect fun _ => analyze_blames (h p hp)
    exact Run.Safe.bind hcheck (fun _ => exec_blames fuel (h p hp)) m trivial

end Pseudocode

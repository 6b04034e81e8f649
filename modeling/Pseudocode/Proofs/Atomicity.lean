/-
Assignments and DISPLAY are done as a whole, or not at all.

An assignment evaluates its value once and then gives it to its targets, one after another.
Each of them could refuse it, and then those in front of it would have changed already.  The
check has looked at every target, but it did so before the run, with a scope and not with a
store.  What is needed is that the two agree whenever the assignment comes to run.

So every state of the run is compared with the check.  The tasks that are left are those of a
program that the check accepts, in the scope that agrees with the store by now; a step does
the first task, and what it puts in its place is accepted again.  An IF or a WHILE may skip
statements that the check has looked at, but no declaration is among them.
-/
import Pseudocode.Proofs.Leniency
import Pseudocode.Proofs.Receiving

namespace Pseudocode

/-! ### Tasks and the check -/

namespace Task

/-- The check accepts a task in the first scope, and the second one is behind it.  Of a target
it is only asked that it is declared: a field of the input may still not fit it. -/
def Checks : Task → Scope → Scope → Prop
  | .stmt s, scope, scope' =>
    (s.isDeclaration = true ∨ s.Plain) ∧ s.check scope = .ok () scope'
  | .clauses o, scope, scope' =>
    (∀ d ∈ o.parts, d.isDeclaration = false) ∧ o.check scope = .ok () scope'
  | .declare ty d, scope, scope' => Check.declarator ty d scope = .ok () scope'
  | .assign _ _ name, scope, scope' => (∃ t, scope[name.val]? = some t) ∧ scope' = scope
  | .field name _, scope, scope' => (∃ t, scope[name.val]? = some t) ∧ scope' = scope
  | .put x v, scope, scope' => scope[x]? = some v.ty ∧ scope' = scope
  | .flush _, scope, scope' => scope' = scope

/-- The check accepts tasks, each in the scope behind the one before it. -/
inductive ChecksAll : List Task → Scope → Scope → Prop
  | nil {scope : Scope} : ChecksAll [] scope scope
  | cons {t : Task} {ts : List Task} {scope mid scope' : Scope} (h : t.Checks scope mid)
      (hs : ChecksAll ts mid scope') : ChecksAll (t :: ts) scope scope'

namespace ChecksAll

variable {scope scope' mid : Scope}

theorem append {ts us : List Task} (h : ChecksAll ts scope mid) (h' : ChecksAll us mid scope') :
    ChecksAll (ts ++ us) scope scope' := by
  induction h with
  | nil => exact h'
  | cons ht _ ih => exact .cons ht (ih h')

/-- Tasks that declare nothing. -/
theorem of_forall {ts : List Task} (h : ∀ t ∈ ts, t.Checks scope scope) :
    ChecksAll ts scope scope := by
  induction ts with
  | nil => exact .nil
  | cons t ts ih =>
      obtain ⟨ht, hts⟩ := List.forall_mem_cons.1 h
      exact .cons ht (ih hts)

theorem declarators {ty : Ty} {vars : List Declarator}
    (h : vars.forM (Check.declarator ty) scope = .ok () scope') :
    ChecksAll (vars.map (.declare ty)) scope scope' := by
  induction vars generalizing scope with
  | nil =>
      obtain rfl := state_forM_nil_eq_ok.1 h
      exact .nil
  | cons d vars ih =>
      obtain ⟨_, hfirst, hrest⟩ := state_forM_cons_eq_ok.1 h
      exact .cons hfirst (ih hrest)

theorem stmts {body : List Stmt} (hlevel : ∀ s ∈ body, s.isDeclaration = true ∨ s.Plain)
    (h : checkStmts body scope = .ok () scope') :
    ChecksAll (body.map .stmt) scope scope' := by
  induction body generalizing scope with
  | nil =>
      obtain ⟨-, rfl⟩ := state_pure_eq_ok.1 h
      exact .nil
  | cons s rest ih =>
      rw [checkStmts, state_bind_eq_ok] at h
      obtain ⟨_, _, hfirst, hrest⟩ := h
      obtain ⟨hs, hlevel⟩ := List.forall_mem_cons.1 hlevel
      exact .cons ⟨hs, hfirst⟩ (ih hlevel hrest)

/-- The statements inside of an IF or a WHILE. -/
theorem body {body : List Stmt} (hplain : ∀ d ∈ stmtParts body, d.isDeclaration = false)
    (h : checkStmts body scope = .ok () scope) : ChecksAll (body.map .stmt) scope scope := by
  refine stmts (fun s hs => Or.inr ?_) h
  intro d hd
  exact hplain d (mem_stmtParts.2 ⟨s, hs, hd⟩)

end ChecksAll

/-! ### What a step leaves to do -/

open Run

section

variable {ι σ : Type}

/-- The tasks lead on to the scope, from one that agrees with the machine. -/
def LeadTo (scope' : Scope) (ts : List Task) (m : Machine ι σ) : Prop :=
  ∃ scope, Agrees scope m ∧ ChecksAll ts scope scope'

/-- From a machine that agrees with the scope, the step leaves tasks that lead on. -/
abbrev Advances (scope scope' : Scope) (x : Run ι σ (List Task)) : Prop :=
  Safe (fun _ => True) (Agrees scope) x (LeadTo scope')

variable {scope scope' : Scope}

theorem advances_pure {ts : List Task} (h : ChecksAll ts scope scope') :
    Advances (ι := ι) (σ := σ) scope scope' (pure ts) :=
  .pure fun _ hm => ⟨scope, hm, h⟩

theorem advances_clause {cond : Expr} {ts us : List Task}
    (hcond : cond.checkCondition scope = .ok ()) (hts : ChecksAll ts scope scope')
    (hus : ChecksAll us scope scope') :
    Advances (ι := ι) (σ := σ) scope scope'
      (do if ← condition cond then return ts else return us) := by
  refine .bind (condition_safe hcond fun _ _ => trivial) fun b => ?_
  cases b with
  | true => exact advances_pure hts
  | false => exact advances_pure hus

variable [LineSource ι] [ByteSink σ]

theorem stmt_advances {s : Stmt} (h : (Task.stmt s).Checks scope scope') :
    Advances (ι := ι) (σ := σ) scope scope' (Task.stmt s).step := by
  obtain ⟨hlevel, hcheck⟩ := h
  cases s with
  | declare ty vars span => exact advances_pure (.declarators hcheck)
  | assign targets value span =>
      rw [Stmt.check, Check.inspect_eq_ok, bind_eq_ok] at hcheck
      obtain ⟨⟨source, hsource, htargets⟩, rfl⟩ := hcheck
      refine .bind (eval_safe hsource fun _ _ => trivial) fun v => .pure ?_
      rintro m ⟨hm, -⟩
      refine ⟨_, hm, .of_forall fun t ht => ?_⟩
      obtain ⟨name, hname, rfl⟩ := List.mem_map.1 ht
      obtain ⟨ty, hty, -⟩ := checkTargets_eq_ok.1 htargets name hname
      exact ⟨⟨ty, hty⟩, rfl⟩
  | display items span =>
      rw [Stmt.check, Check.inspect_eq_ok] at hcheck
      obtain ⟨-, rfl⟩ := hcheck
      refine .bind (q := fun _ => Agrees scope') ?_ fun texts => ?_
      · exact .inspect (fun m _ hm _ => hm) fun _ _ _ _ => trivial
      · refine .bind (.write (fun _ _ hm => hm) fun _ _ _ _ => trivial) fun _ => ?_
        exact advances_pure .nil
  | scan targets span =>
      rw [Stmt.check, Check.inspect_eq_ok, forM_eq_ok] at hcheck
      obtain ⟨htargets, rfl⟩ := hcheck
      refine .bind (.readLine (fun _ _ hm => hm) trivial fun _ _ _ => trivial) fun line => ?_
      dsimp only
      split
      · refine advances_pure (.of_forall fun t ht => ?_)
        obtain ⟨⟨name, field⟩, hmem, rfl⟩ := List.mem_map.1 ht
        obtain ⟨ty, hty, -⟩ := bind_eq_ok.1 (htargets name (List.of_mem_zip hmem).1)
        exact ⟨⟨ty, Scope.lookUp_eq_ok.1 hty⟩, rfl⟩
      · exact .fail trivial
  | ifThen cond body otherwise span =>
      have hplain := hlevel.resolve_left (by simp [Stmt.isDeclaration])
      obtain rfl := Stmt.check_plain _ hplain hcheck
      obtain ⟨hcond, ⟨hbody, hbodyCheck⟩, hrest⟩ := Stmt.check_ifThen hplain hcheck
      exact advances_clause hcond (.body hbody hbodyCheck) (.cons hrest .nil)
  | loop cond body span =>
      have hplain := hlevel.resolve_left (by simp [Stmt.isDeclaration])
      obtain rfl := Stmt.check_plain _ hplain hcheck
      obtain ⟨hcond, hbody, hbodyCheck⟩ := Stmt.check_loop hplain hcheck
      -- The loop itself is left to do behind its body, in the scope it was accepted in.
      have hagain : ChecksAll [.stmt (.loop cond body span)] scope' scope' :=
        .cons ⟨hlevel, hcheck⟩ .nil
      exact advances_clause hcond ((ChecksAll.body hbody hbodyCheck).append hagain) .nil

theorem clauses_advances {o : Otherwise} (h : (Task.clauses o).Checks scope scope') :
    Advances (ι := ι) (σ := σ) scope scope' (Task.clauses o).step := by
  obtain ⟨hplain, hcheck⟩ := h
  obtain rfl := Otherwise.check_plain o hplain hcheck
  cases o with
  | nothing => exact advances_pure .nil
  | elseIf cond body otherwise =>
      obtain ⟨hcond, ⟨hbody, hbodyCheck⟩, hrest⟩ := Otherwise.check_elseIf hplain hcheck
      exact advances_clause hcond (.body hbody hbodyCheck) (.cons hrest .nil)
  | bare body => exact advances_pure (.body hplain hcheck)

/-- **What a step puts in the place of its task is accepted again.** -/
theorem step_advances {t : Task} (h : t.Checks scope scope') :
    Advances (ι := ι) (σ := σ) scope scope' t.step := by
  cases t with
  | stmt s => exact stmt_advances h
  | clauses o => exact clauses_advances h
  | declare ty d =>
      refine .bind (declarator_safe h (fun _ => trivial) fun _ _ _ _ => trivial) fun _ => ?_
      exact advances_pure .nil
  | assign value span name =>
      obtain ⟨⟨ty, hty⟩, rfl⟩ := h
      refine .bind (q := fun v m => Agrees scope' m ∧ v.ty = ty) ?_ fun v => .pure ?_
      · refine .inspect (fun m v hm hv => ?_) fun _ _ _ _ => trivial
        obtain ⟨ty', hty', hfit⟩ := bind_eq_ok.1 hv
        have hsame : some ty' = some ty := by rw [← tyOf_eq_ok.1 hty', hm.ty, hty]
        cases hsame
        exact ⟨hm, fit_eq_ok hfit⟩
      · rintro m ⟨hm, rfl⟩
        exact ⟨_, hm, .cons ⟨hty, rfl⟩ .nil⟩
  | field name text =>
      obtain ⟨hname, rfl⟩ := h
      refine .bind (q := fun _ => Agrees scope') ?_ fun ty => ?_
      · exact .inspect (fun m _ hm _ => hm) fun _ _ _ _ => trivial
      · exact advances_pure (.cons ⟨hname, rfl⟩ .nil)
  | put x v =>
      obtain ⟨hx, rfl⟩ := h
      refine .bind (q := fun _ => Agrees scope') ?_ fun _ => advances_pure .nil
      intro m hm
      exact put_fit hm hx
  | flush span =>
      obtain rfl := h
      refine .bind (.flush (fun _ _ hm => hm) fun _ _ _ => trivial) fun _ => ?_
      exact advances_pure .nil

end

end Task

/-! ### Every state of a run -/

namespace Session

variable {ι σ : Type}

/-- What is left of the last program is accepted by the check, or nothing is left. -/
structure Checked (s : Session ι σ) : Prop where
  last : s.programs = []
  tasks : s.tasks = [] ∨ ∃ scope, Task.LeadTo scope s.tasks s.machine

theorem Step.checked [LineSource ι] [ByteSink σ] {s s' : Session ι σ} (h : Step s s')
    (hs : s.Checked) : s'.Checked := by
  cases h with
  | task h =>
      refine ⟨hs.last, Or.inr ?_⟩
      obtain ⟨scope', scope, hm, hall⟩ := hs.tasks.resolve_left (List.cons_ne_nil _ _)
      cases hall with
      | cons ht hrest =>
          obtain ⟨mid, hm', hnew⟩ := (Task.step_advances ht).of_ok hm h
          exact ⟨scope', mid, hm', hnew.append hrest⟩
  | stop h => exact ⟨hs.last, Or.inl rfl⟩
  | start => cases hs.last

theorem Reaches.checked [LineSource ι] [ByteSink σ] {s s' : Session ι σ} (h : s.Reaches s')
    (hs : s.Checked) : s'.Checked := by
  induction h with
  | refl => exact hs
  | tail _ hstep ih => exact hstep.checked ih

theorem checked_start {source : String} {p : Program} (hread : Program.parse source = .ok p)
    (hcheck : p.analyze = .ok ()) (input : ι) (sink : σ) :
    Checked ⟨{ input := input, sink := sink }, p.tasks, []⟩ := by
  obtain ⟨scope, hscope⟩ : ∃ scope, checkStmts p.body {} = .ok () scope := by
    unfold Program.analyze at hcheck
    cases hres : p.check {} with
    | ok _ scope => exact ⟨scope, hres⟩
    | error e scope =>
        rw [hres] at hcheck
        cases hcheck
  have hlevel := (Program.parse_eq_ok_iff.1 hread).declaration_or_plain
  refine ⟨rfl, Or.inr ⟨scope, {}, Store.Fits.empty, ?_⟩⟩
  exact (Task.ChecksAll.stmts hlevel hscope).append (.cons rfl .nil)

/-- A statement that is next was accepted in a scope that agrees with the store. -/
theorem Checked.next {s : Session ι σ} (hs : s.Checked) {st : Stmt} {rest : List Task}
    (h : s.tasks = .stmt st :: rest) :
    ∃ scope scope', Run.Agrees scope s.machine ∧ st.check scope = .ok () scope' := by
  have hne : s.tasks ≠ [] := by simp [h]
  obtain ⟨scope', scope, hm, hall⟩ := hs.tasks.resolve_left hne
  rw [h] at hall
  cases hall with
  | cons ht _ => exact ⟨scope, _, hm, ht.2⟩

end Session

/-! ### Assignments -/

/-- One value, offered to a target. -/
def Offer.ofValue (v : Value) (span : Span) (name : Name) : Offer :=
  ⟨name, fun _ => v, span⟩

namespace Run

variable {ι σ : Type}

theorem assign_eq_offer (v : Value) (span : Span) (name : Name) :
    (assign v span name : Run ι σ Unit) = offer (.ofValue v span name) := by
  funext m
  cases hty : tyOf name m.store with
  | ok ty => exact (inspect_bind_of_ok (k := fun _ => assign v span name) hty).symm
  | error e =>
      refine Eq.trans (inspect_bind_of_error ?_) (inspect_bind_of_error hty).symm
      rw [fitted, hty]
      rfl

/-- The two ways in which an assignment ends. -/
inductive AssignEnds (m : Machine ι σ) (targets : List Name) (value : Expr) :
    EStateM.Result Stop (Machine ι σ) Unit → Prop
  /-- There is no value, and nothing has changed. -/
  | failed {e : Error} (h : value.eval m.store = .error e) :
      AssignEnds m targets value (.error (.failed e) m)
  /-- Every target holds the value, each in its own type, and nothing else has changed. -/
  | set {v : Value} {store : Store} (hvalue : value.eval m.store = .ok v)
      (htargets : ∀ name ∈ targets, ∃ ty w, m.store.ty? name.val = some ty ∧
        v.coerce? ty = some w ∧ store.get? name.val = some ⟨ty, some w⟩)
      (hothers : ∀ x, (∀ name ∈ targets, name.val ≠ x) → store.get? x = m.store.get? x) :
      AssignEnds m targets value (.ok () { m with store := store })

/-- If every target is declared with a type that takes the value, all of them take it. -/
theorem AssignEnds.of_accepts {m : Machine ι σ} {targets : List Name} {value : Expr} {v : Value}
    (span : Span) (hvalue : value.eval m.store = .ok v)
    (haccepts : ∀ name ∈ targets, m.store.Accepts (.ofValue v span name)) :
    AssignEnds m targets value (targets.forM (assign v span) m) := by
  have heq : (targets.forM (assign v span) : Run ι σ Unit) =
      (targets.map (.ofValue v span)).forM offer := by
    rw [funext (assign_eq_offer v span), List.forM_eq_forM, List.forM_eq_forM, List.forM_map]
  have hends := forM_offer (targets.map (.ofValue v span)) m
  rw [← heq] at hends
  generalize targets.forM (assign v span) m = result at hends
  cases hends with
  | all _ hstore =>
      refine .set hvalue (fun name hname => ?_) fun x hx => ?_
      · obtain ⟨ty, w, hty, hw⟩ := haccepts name hname
        obtain ⟨var, hvar, rfl⟩ := Option.map_eq_some_iff.1 hty
        refine ⟨var.ty, w, hty, hw, ?_⟩
        refine hstore.get?_of_forall_worth (List.mem_map_of_mem hname) hvar fun o ho => ?_
        obtain ⟨name', -, rfl⟩ := List.mem_map.1 ho
        exact hw
      · refine hstore.get?_of_forall_ne fun o ho => ?_
        obtain ⟨name, hname, rfl⟩ := List.mem_map.1 ho
        exact hx name hname
  | @upTo done later o store hoffers _ ho _ =>
      have hmem : o ∈ targets.map (.ofValue v span) := by simp [hoffers]
      obtain ⟨name, hname, rfl⟩ := List.mem_map.1 hmem
      exact absurd (haccepts name hname) ho

end Run

section

variable {ι σ : Type} [LineSource ι] [ByteSink σ]

theorem Stmt.exec_assign_ends {scope scope' : Scope} {m : Machine ι σ} {targets : List Name}
    {value : Expr} {span : Span} (hm : Run.Agrees scope m)
    (hcheck : (Stmt.assign targets value span).check scope = .ok () scope') (fuel : Nat) :
    Run.AssignEnds m targets value ((Stmt.assign targets value span).exec fuel m) := by
  rw [Stmt.check, Check.inspect_eq_ok, bind_eq_ok] at hcheck
  obtain ⟨⟨source, hsource, htargets⟩, -⟩ := hcheck
  rw [Stmt.exec]
  rcases Expr.eval_typed hm hsource with ⟨v, hv, rfl⟩ | ⟨e, he, -⟩
  · rw [Run.inspect_bind_of_ok hv]
    refine .of_accepts span hv fun name hname => ?_
    obtain ⟨ty, hty, haccepts⟩ := checkTargets_eq_ok.1 htargets name hname
    obtain ⟨w, hw, -⟩ := Value.coerce?_typed haccepts
    exact ⟨ty, w, (hm.ty _).trans hty, hw⟩
  · rw [Run.inspect_bind_of_error he]
    exact .failed he

/-! ### DISPLAY -/

/-- The ways in which a DISPLAY ends. -/
inductive Run.DisplayEnds (m : Machine ι σ) (items : List Item) (span : Span) :
    EStateM.Result Stop (Machine ι σ) Unit → Prop
  /-- The first item without a text is where it fails, and nothing has changed. -/
  | failed {before after : List Item} {texts : List String} {item : Item} {e : Error}
      (hitems : items = before ++ item :: after)
      (hbefore : before.map (Item.eval m.store) = texts.map .ok)
      (hitem : item.eval m.store = .error e) :
      DisplayEnds m items span (.error (.failed e) m)
  /-- The texts of the items are written at once. -/
  | written {texts : List String} {sink : σ}
      (htexts : items.map (Item.eval m.store) = texts.map .ok)
      (hwrite : ByteSink.writeAll m.sink (Text.toBytes (String.join texts)) = (none, sink)) :
      DisplayEnds m items span (.ok () { m with sink := sink })
  /-- They are written at once, to a sink that fails. -/
  | refused {texts : List String} {sink : σ} {message : String}
      (htexts : items.map (Item.eval m.store) = texts.map .ok)
      (hwrite : ByteSink.writeAll m.sink (Text.toBytes (String.join texts)) =
        (some message, sink)) :
      DisplayEnds m items span
        (.error (.failed ((RunFault.device message).at span)) { m with sink := sink })

/-- This needs no check: what is written is known before the first of it is. -/
theorem Stmt.exec_display_ends (fuel : Nat) (items : List Item) (span : Span)
    (m : Machine ι σ) : Run.DisplayEnds m items span ((Stmt.display items span).exec fuel m) := by
  rw [Stmt.exec]
  cases hitems : items.mapM (Item.eval m.store) with
  | error e =>
      obtain ⟨before, texts, item, after, hsplit, hbefore, hitem⟩ := mapM_eq_error hitems
      rw [Run.inspect_bind_of_error hitems]
      exact .failed hsplit hbefore hitem
  | ok texts =>
      have htexts := mapM_eq_ok hitems
      rw [Run.inspect_bind_of_ok hitems, Run.write_eq]
      rcases hwrite : ByteSink.writeAll m.sink (Text.toBytes (String.join texts)) with
        ⟨answer, sink⟩
      cases answer with
      | none => exact .written htexts hwrite
      | some message => exact .refused htexts hwrite

end

/-! ### Checked programs -/

namespace Program

variable {ι σ : Type} [LineSource ι] [ByteSink σ]

/-- **Assignment and DISPLAY are done as a whole, or not at all.**  Take any state on the way of
a checked program, on whatever input and sink.  If an assignment is next, it fails for want of
a value and changes nothing, or all its targets hold the value that its expression has there,
each in its own type, and nothing else changes.  If a DISPLAY is next, it fails at its first
item without a value and changes nothing, or the sink gets the texts of all items at once.
The steps of the session are those of the runs: it goes on to where the run of the next
statement ends, and comes to where the run of the program ends. -/
theorem assign_display_atomic {source : String} {p : Program} {input : ι} {sink : σ}
    {s : Session ι σ} (hread : parse source = .ok p) (hcheck : p.analyze = .ok ())
    (hs : Session.Reaches ⟨{ input := input, sink := sink }, p.tasks, []⟩ s) (fuel : Nat) :
    (∀ targets value span rest, s.tasks = .stmt (.assign targets value span) :: rest →
      Run.AssignEnds s.machine targets value
        ((Stmt.assign targets value span).exec fuel s.machine)) ∧
    (∀ items span rest, s.tasks = .stmt (.display items span) :: rest →
      Run.DisplayEnds s.machine items span
        ((Stmt.display items span).exec fuel s.machine)) ∧
    (∀ st rest, s.tasks = .stmt st :: rest →
      ∃ s', s.Reaches s' ∧ Session.Stands rest [] (st.exec fuel s.machine) s') ∧
    ∃ s', Session.Reaches ⟨{ input := input, sink := sink }, p.tasks, []⟩ s' ∧
      Session.Stands [] [] (p.exec fuel { input := input, sink := sink }) s' := by
  have hchecked := Session.Reaches.checked hs (Session.checked_start hread hcheck input sink)
  refine ⟨?_, ?_, ?_, ?_⟩
  · intro targets value span rest htasks
    obtain ⟨scope, scope', hm, hstmt⟩ := hchecked.next htasks
    exact Stmt.exec_assign_ends hm hstmt fuel
  · intro items span rest _
    exact Stmt.exec_display_ends fuel items span s.machine
  · intro st rest htasks
    have hgoes := st.exec_performs fuel s.machine rest []
    rw [List.singleton_append, ← htasks, ← hchecked.last] at hgoes
    rw [← hchecked.last]
    exact hgoes
  · have hends := p.exec_performs fuel { input := input, sink := sink } [] []
    rwa [List.append_nil] at hends

/-- `n` is halved, and `x` gets the same value as a FLOAT. -/
def halvingText : String :=
  "BEGIN CODE\nINT n=7\nFLOAT x\nn=x=n=n/2\nDISPLAY:n&$\nEND CODE"

/-- `n=x=n` -/
def halvingTargets : List Name :=
  [⟨"n", ⟨4, 1, 1⟩⟩, ⟨"x", ⟨4, 3, 1⟩⟩, ⟨"n", ⟨4, 5, 1⟩⟩]

/-- `n/2` -/
def halvingValue : Expr :=
  .binary ⟨.arith .div, ⟨4, 8, 1⟩⟩ (.var "n" ⟨4, 7, 1⟩) (.literal (.int 2) ⟨4, 9, 1⟩) ⟨4, 7, 3⟩

/-- `n&$` -/
def halvingItems : List Item :=
  [.expr (.var "n" ⟨5, 9, 1⟩), .newline ⟨5, 11, 1⟩]

/-- The statements of that text in front of the DISPLAY; the declarations are the first two. -/
def halvingBody : List Stmt :=
  [.declare .int [⟨⟨"n", ⟨2, 5, 1⟩⟩, some (.literal (.int 7) ⟨2, 7, 1⟩)⟩] ⟨2, 1, 3⟩,
    .declare .float [⟨⟨"x", ⟨3, 7, 1⟩⟩, none⟩] ⟨3, 1, 5⟩,
    .assign halvingTargets halvingValue ⟨4, 1, 1⟩]

/-- The machine with these values of `n` and `x`. -/
def halvingMachine (n : Int32) (x : Option Value) : Machine Input Sink where
  store := ⟨(({} : Std.TreeMap String Variable).insert "n" ⟨.int, some (.int n)⟩).insert "x"
    ⟨.float, x⟩⟩
  input := .ofText ""
  sink := {}

theorem assign_display_atomic_halving :
    Run.AssignEnds (halvingMachine 7 none) halvingTargets halvingValue
        (.ok () (halvingMachine 3 (some (.float (.ofInt 3))))) ∧
      Run.DisplayEnds (halvingMachine 3 (some (.float (.ofInt 3)))) halvingItems ⟨5, 1, 7⟩
        (.ok () { halvingMachine 3 (some (.float (.ofInt 3))) with
          sink := (Sink.write {} "3\n").2 }) := by
  have hread : parse halvingText =
      .ok ⟨halvingBody ++ [.display halvingItems ⟨5, 1, 7⟩], ⟨1, 1, 5⟩⟩ := rfl
  have hcheck : Program.analyze ⟨halvingBody ++ [.display halvingItems ⟨5, 1, 7⟩], ⟨1, 1, 5⟩⟩ =
      .ok () := rfl
  have hdeclared : execStmts 0 (halvingBody.take 2) (.start (.ofText "")) =
      .ok () (halvingMachine 7 none) := rfl
  have hassigned : execStmts 0 halvingBody (.start (.ofText "")) =
      .ok () (halvingMachine 3 (some (.float (.ofInt 3)))) := rfl
  constructor
  · obtain ⟨s, hreach, hs⟩ := execStmts_performs 0 (halvingBody.take 2) (.start (.ofText ""))
      [.stmt (.assign halvingTargets halvingValue ⟨4, 1, 1⟩),
        .stmt (.display halvingItems ⟨5, 1, 7⟩), .flush ⟨1, 1, 5⟩] []
    rw [hdeclared] at hs
    obtain rfl := hs
    exact (assign_display_atomic hread hcheck hreach 0).1 halvingTargets halvingValue _ _ rfl
  · obtain ⟨s, hreach, hs⟩ := execStmts_performs 0 halvingBody (.start (.ofText ""))
      [.stmt (.display halvingItems ⟨5, 1, 7⟩), .flush ⟨1, 1, 5⟩] []
    rw [hassigned] at hs
    obtain rfl := hs
    exact (assign_display_atomic hread hcheck hreach 0).2.1 halvingItems _ _ rfl

end Program

end Pseudocode

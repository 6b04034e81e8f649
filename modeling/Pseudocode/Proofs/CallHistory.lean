/-
A store and the calls that made it.

A store is changed by two kinds of calls, declarations and assignments, and a call that is
refused changes nothing.  What the store says of a name can be told from the calls alone: the
first declaration gives the type, the last assignment behind it the value, and calls about
other names have no part in it.

The last point carries the others.  A call looks at the variable of its own name and at no
other, so the history of a name is that of the calls about it, in whatever way calls about
other names are mixed in; and two calls about different names can change places.
-/
import Pseudocode.Proofs.Receiving

namespace Pseudocode

namespace Store

/-- A call that changes a store, if it is accepted. -/
inductive Call where
  | declare (name : String) (ty : Ty) (value : Option Value)
  | assign (name : String) (value : Value)
  deriving DecidableEq, Repr

namespace Call

/-- The name that a call is about. -/
def name : Call → String
  | .declare name _ _ => name
  | .assign name _ => name

/-- The store that a call makes of another one; nothing when it is refused. -/
def result? (c : Call) (s : Store) : Option Store :=
  match c with
  | .declare name ty value => s.declare? name ty value
  | .assign name value => s.assign? name value

/-- Whether a call is accepted, and the store behind it. -/
def perform (c : Call) (s : Store) : Bool × Store :=
  ((c.result? s).isSome, (c.result? s).getD s)

/-- What a call makes of the variable of its name. -/
def onVariable : Call → Option Variable → Option Variable
  | .declare _ ty value, var => var.or (some ⟨ty, value⟩)
  | .assign _ value, var => var.map fun var => ⟨var.ty, some value⟩

/-- The value that a call assigns to a name. -/
def assigned? (x : String) : Call → Option Value
  | .declare _ _ _ => none
  | .assign name value => if name = x then some value else none

/-- The value that the last of the assignments to a name assigns. -/
def lastAssigned? (x : String) (calls : List Call) : Option Value :=
  calls.reverse.findSome? (assigned? x)

/-- One of the calls declares the name. -/
def Declared (x : String) (calls : List Call) : Prop :=
  ∃ ty value, declare x ty value ∈ calls

theorem lastAssigned?_cons (x : String) (c : Call) (calls : List Call) :
    lastAssigned? x (c :: calls) = (lastAssigned? x calls).or (c.assigned? x) := by
  simp [lastAssigned?, List.findSome?_append]

theorem declared_cons {x : String} {c : Call} {calls : List Call} :
    Declared x (c :: calls) ↔ (∃ ty value, c = declare x ty value) ∨ Declared x calls := by
  simp only [Declared, List.mem_cons, exists_or, eq_comm]

end Call

open Call

/-- The store behind some calls. -/
def after (s : Store) (calls : List Call) : Store :=
  calls.foldl (fun s c => (c.perform s).2) s

/-- Whether a call is accepted by the store that some calls have made. -/
def acceptedAfter (calls : List Call) (c : Call) : Bool :=
  (c.perform (after {} calls)).1

/-- Both stores have the same variables. -/
def Alike (s t : Store) : Prop :=
  ∀ x, s.get? x = t.get? x

/-! ### One call -/

theorem declare?_eq_none_iff {s : Store} {x : String} {ty : Ty} {value : Option Value} :
    s.declare? x ty value = none ↔ (s.get? x).isSome = true := by
  unfold declare? isDeclared
  cases s.get? x <;> simp

/-- A call changes the variable of its name and no other. -/
theorem get?_perform (c : Call) (s : Store) (x : String) :
    (c.perform s).2.get? x = if c.name = x then c.onVariable (s.get? x) else s.get? x := by
  cases c with
  | assign name value => exact get?_put s name value x
  | declare name ty value =>
      unfold perform result?
      dsimp only
      cases h : s.declare? name ty value with
      | some t =>
          rw [Option.getD_some, get?_of_declare? h, Call.name]
          by_cases hx : name = x
          · subst hx
            rw [if_pos rfl, if_pos rfl, (declare?_eq_some_iff.1 h).1]
            rfl
          · rw [if_neg (Ne.symm hx), if_neg hx]
      | none =>
          rw [Option.getD_none, Call.name]
          by_cases hx : name = x
          · subst hx
            rw [if_pos rfl, onVariable, Option.or_of_isSome (declare?_eq_none_iff.1 h)]
          · rw [if_neg hx]

theorem perform_declare (s : Store) (x : String) (ty : Ty) (value : Option Value) :
    ((declare x ty value).perform s).1 = (s.get? x).isNone := by
  rw [perform, result?, Bool.eq_iff_iff, ← Option.ne_none_iff_isSome, Ne, declare?_eq_none_iff]
  simp

theorem perform_assign (s : Store) (x : String) (value : Value) :
    ((assign x value).perform s).1 = (s.get? x).isSome := by
  rw [perform, result?, assign?, Option.isSome_map]

/-- Whether a call is accepted depends on the variable of its name. -/
theorem perform_fst_congr {s t : Store} {c : Call} (h : s.get? c.name = t.get? c.name) :
    (c.perform s).1 = (c.perform t).1 := by
  cases c with
  | declare x ty value => rw [perform_declare, perform_declare, show s.get? x = t.get? x from h]
  | assign x value => rw [perform_assign, perform_assign, show s.get? x = t.get? x from h]

/-- A declared variable keeps its type, and its value unless another one is assigned. -/
theorem get?_perform_of_some {s : Store} {x : String} {var : Variable} (h : s.get? x = some var)
    (c : Call) :
    (c.perform s).2.get? x = some ⟨var.ty, (c.assigned? x).or var.value⟩ := by
  rw [get?_perform, h]
  cases c with
  | declare name ty value => exact ite_self _
  | assign name value =>
      rw [Call.name, assigned?]
      by_cases hx : name = x
      · rw [if_pos hx, if_pos hx]
        rfl
      · rw [if_neg hx, if_neg hx]
        rfl

/-! ### Many calls -/

theorem after_cons (s : Store) (c : Call) (calls : List Call) :
    s.after (c :: calls) = (c.perform s).2.after calls :=
  rfl

theorem after_append (s : Store) (calls later : List Call) :
    s.after (calls ++ later) = (s.after calls).after later :=
  List.foldl_append

/-- The variable of a name is what the calls about this name have made of it. -/
theorem get?_after (s : Store) (calls : List Call) (x : String) :
    (s.after calls).get? x =
      (calls.filter fun c => c.name = x).foldl (fun var c => c.onVariable var) (s.get? x) := by
  induction calls generalizing s with
  | nil => rfl
  | cons c calls ih =>
      rw [after_cons, ih, get?_perform]
      by_cases hc : c.name = x
      · rw [if_pos hc, List.filter_cons_of_pos (by simpa using hc), List.foldl_cons]
      · rw [if_neg hc, List.filter_cons_of_neg (by simpa using hc)]

/-- A declared variable has the value that was assigned to it last. -/
theorem get?_after_of_some {s : Store} {x : String} {var : Variable} (h : s.get? x = some var)
    (calls : List Call) :
    (s.after calls).get? x = some ⟨var.ty, (lastAssigned? x calls).or var.value⟩ := by
  induction calls generalizing s var with
  | nil => exact h
  | cons c calls ih =>
      rw [after_cons, ih (get?_perform_of_some h c), lastAssigned?_cons, Option.or_assoc]

/-- A name is declared by a declaration and by nothing else. -/
theorem get?_after_eq_none {s : Store} {x : String} (h : s.get? x = none) (calls : List Call) :
    (s.after calls).get? x = none ↔ ¬ Declared x calls := by
  induction calls generalizing s with
  | nil => simp [after, h, Declared]
  | cons c calls ih =>
      have hc := get?_perform c s x
      rw [h] at hc
      rw [after_cons, declared_cons]
      by_cases hdecl : ∃ ty value, c = declare x ty value
      · obtain ⟨ty, value, rfl⟩ := hdecl
        rw [Call.name, if_pos rfl] at hc
        rw [get?_after_of_some hc]
        simp
      · have hnone : (c.perform s).2.get? x = none := by
          rw [hc]
          cases c with
          | assign name value => exact ite_self _
          | declare name ty value =>
              exact if_neg fun hx => hdecl ⟨ty, value, congrArg (declare · ty value) hx⟩
        simp only [ih hnone, hdecl, false_or]

/-- Of all the calls, those about a name decide on its variable. -/
theorem get?_after_filter (s : Store) (calls : List Call) (x : String) :
    (s.after (calls.filter fun c => c.name = x)).get? x = (s.after calls).get? x := by
  rw [get?_after, get?_after, List.filter_filter]
  simp only [Bool.and_self]

/-- Two calls about different names in a row can change places. -/
theorem after_swap (s : Store) (before later : List Call) {a b : Call} (hab : a.name ≠ b.name) :
    Alike (s.after (before ++ a :: b :: later)) (s.after (before ++ b :: a :: later)) := by
  intro x
  -- At most one of the two is about `x`, so the calls about `x` stay in their order.
  have hfilter : ((before ++ a :: b :: later).filter fun c => c.name = x) =
      (before ++ b :: a :: later).filter fun c => c.name = x := by
    rw [List.filter_append, List.filter_append]
    by_cases ha : a.name = x
    · have hb : b.name ≠ x := fun hb => hab (ha.trans hb.symm)
      simp [ha, hb]
    · simp [List.filter_cons, ha]
  rw [get?_after, get?_after, hfilter]

/-! ### The store as its history tells it -/

theorem get?_empty (x : String) : (({} : Store).get? x) = none := by
  simp [get?]

theorem acceptedAfter_declare (calls : List Call) (x : String) (ty : Ty) (value : Option Value) :
    acceptedAfter calls (.declare x ty value) = true ↔ ¬ Declared x calls := by
  rw [acceptedAfter, perform_declare, Option.isNone_iff_eq_none,
    get?_after_eq_none (get?_empty x)]

theorem acceptedAfter_assign (calls : List Call) (x : String) (value : Value) :
    acceptedAfter calls (.assign x value) = true ↔ Declared x calls := by
  rw [acceptedAfter, perform_assign, ← Option.ne_none_iff_isSome, Ne,
    get?_after_eq_none (get?_empty x), Classical.not_not]

/-- A variable has the type of its first declaration, and the value that was assigned to it last
since then, or else the one it was declared with. -/
theorem get?_after_declare {before : List Call} {x : String} (hfirst : ¬ Declared x before)
    (ty : Ty) (value : Option Value) (later : List Call) :
    (after {} (before ++ .declare x ty value :: later)).get? x =
      some ⟨ty, (lastAssigned? x later).or value⟩ := by
  have hnone := (get?_after_eq_none (get?_empty x) before).2 hfirst
  have hdecl := get?_perform (.declare x ty value) (after {} before) x
  rw [Call.name, if_pos rfl, hnone] at hdecl
  rw [after_append, after_cons, get?_after_of_some hdecl]

/-- Behind the same calls, two calls have the same answers and the same effect in either
order. -/
structure Exchangeable (before : List Call) (a b : Call) : Prop where
  first : acceptedAfter (before ++ [b]) a = acceptedAfter before a
  second : acceptedAfter (before ++ [a]) b = acceptedAfter before b
  alike : ∀ later,
    Alike (after {} (before ++ a :: b :: later)) (after {} (before ++ b :: a :: later))
  next : ∀ later c,
    acceptedAfter (before ++ a :: b :: later) c = acceptedAfter (before ++ b :: a :: later) c

/-- A call has the same answer before and behind one about another name. -/
theorem acceptedAfter_concat (before : List Call) {a b : Call} (hab : a.name ≠ b.name) :
    acceptedAfter (before ++ [b]) a = acceptedAfter before a := by
  refine perform_fst_congr ?_
  rw [after_append, after_cons]
  exact (get?_perform b _ _).trans (if_neg (Ne.symm hab))

theorem exchangeable (before : List Call) {a b : Call} (hab : a.name ≠ b.name) :
    Exchangeable before a b where
  first := acceptedAfter_concat before hab
  second := acceptedAfter_concat before (Ne.symm hab)
  alike later := after_swap {} before later hab
  next later c := perform_fst_congr (after_swap {} before later hab c.name)

/-- **A store is what its history says.**  A name is declared when one of the calls has declared
it.  A declaration is accepted when there was none before, and an assignment when there was
one.  The variable has the type of the first declaration and the value of the last assignment
behind it, or else the value it was declared with.  Only calls about the name have a part in
this, and calls about different names can be exchanged. -/
theorem after_empty_refines (calls : List Call) (x : String) :
    ((after {} calls).isDeclared x = true ↔ Declared x calls) ∧
      (∀ ty value, acceptedAfter calls (.declare x ty value) = true ↔ ¬ Declared x calls) ∧
      (∀ value, acceptedAfter calls (.assign x value) = true ↔ Declared x calls) ∧
      (∀ before ty value later, calls = before ++ .declare x ty value :: later →
        ¬ Declared x before →
        (after {} calls).get? x = some ⟨ty, (lastAssigned? x later).or value⟩) ∧
      ((after {} (calls.filter fun c => c.name = x)).get? x = (after {} calls).get? x ∧
        ∀ c : Call, c.name = x →
          acceptedAfter (calls.filter fun c => c.name = x) c = acceptedAfter calls c) ∧
      ∀ a b : Call, a.name ≠ b.name → Exchangeable calls a b := by
  have hfilter := get?_after_filter {} calls x
  refine ⟨?_, acceptedAfter_declare calls x, acceptedAfter_assign calls x, ?_, ⟨hfilter, ?_⟩,
    fun a b => exchangeable calls⟩
  · rw [isDeclared, ← Option.ne_none_iff_isSome, Ne, get?_after_eq_none (get?_empty x),
      Classical.not_not]
  · rintro before ty value later rfl hfirst
    exact get?_after_declare hfirst ty value later
  · rintro c rfl
    exact perform_fst_congr hfilter

/-- A name that is declared a second time, and assigned to before and behind that, among calls
about another name that is assigned to too early. -/
theorem after_empty_refines_mixed :
    let before : List Call := [.assign "b" (.bool true), .declare "b" .bool none]
    let later : List Call := [.assign "a" (.int 5), .declare "a" .float none,
      .assign "b" (.bool false), .assign "a" (.int 7), .assign "b" (.bool true)]
    let calls := before ++ .declare "a" .int (some (.int 1)) :: later
    (after {} calls).get? "a" = some ⟨.int, some (.int 7)⟩ ∧
      acceptedAfter [] (.assign "b" (.bool true)) = false ∧
      Exchangeable calls (.declare "c" .char none) (.assign "a" (.int 9)) := by
  intro before later calls
  obtain ⟨-, -, -, hvariable, -, hexchange⟩ := after_empty_refines calls "a"
  obtain ⟨-, -, hassign, -⟩ := after_empty_refines [] "b"
  refine ⟨?_, ?_, hexchange _ _ (by decide)⟩
  · exact hvariable before .int (some (.int 1)) later rfl (by simp [Declared, before])
  · rw [← Bool.not_eq_true, hassign]
    simp [Declared]

end Store

end Pseudocode

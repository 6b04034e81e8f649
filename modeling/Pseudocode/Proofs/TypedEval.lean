/-
Values have the types that the check foretells.

A store fits a scope when both know the same names with the same types, and every
variable that has a value has one of its type.  An expression that the check accepts in
the scope then has a value of the type it was given, or it fails for one of two reasons
that the check does not look at: an INT is divided by zero, or a variable has no value yet.

Which variables may have no value is a parameter, `bare`: the names that were declared
without a first value.
-/
import Pseudocode.Proofs.Occurrence
import Pseudocode.Proofs.Sequencing
import Pseudocode.Typing

namespace Pseudocode

/-! ### Operators -/

/-- An operator on operands it is checked for gives a value of the type foretold, or it
divides an INT by zero. -/
theorem BinOp.apply_typed {op : BinOp} {a b : Value} {t : Ty}
    (h : op.resultTy? a.ty b.ty = some t) :
    (∃ v, op.apply a b = .ok v ∧ v.ty = t) ∨
      (op.apply a b = .error .divisionByZero ∧ (op = .arith .div ∨ op = .arith .rem) ∧
        a.ty = .int ∧ b.ty = .int) := by
  cases op with
  | arith op =>
      cases a <;> cases b <;>
        simp only [BinOp.resultTy?, Value.ty, Ty.unify, Ty.isNumeric] at h <;>
        cases h
      case int.int.refl m n =>
        cases hres : op.onInt? m n with
        | some k => exact Or.inl ⟨.int k, by simp only [BinOp.apply, hres], rfl⟩
        | none =>
            refine Or.inr ⟨by simp only [BinOp.apply, hres], ?_, rfl, rfl⟩
            cases op <;> simp_all [Arith.onInt?]
      all_goals exact Or.inl ⟨_, rfl, rfl⟩
  | compare op =>
      cases a <;> cases b <;>
        simp only [BinOp.resultTy?, Value.ty, Ty.unify, Ty.isNumeric] at h <;>
        cases h <;> exact Or.inl ⟨_, rfl, rfl⟩
  | connect op =>
      cases a <;> cases b <;>
        simp only [BinOp.resultTy?, Value.ty, Ty.unify, Ty.isNumeric] at h <;>
        cases h <;> exact Or.inl ⟨_, rfl, rfl⟩

theorem UnOp.apply_typed {op : UnOp} {a : Value} {t : Ty} (h : op.resultTy? a.ty = some t) :
    ∃ v, op.apply a = .ok v ∧ v.ty = t := by
  cases op <;> cases a <;>
    simp only [UnOp.resultTy?, Value.ty, Ty.isNumeric] at h <;>
    cases h <;> exact ⟨_, rfl, rfl⟩

/-- A variable takes a value of a type it accepts, and then holds one of its own type. -/
theorem Value.coerce?_typed {v : Value} {t : Ty} (h : t.accepts v.ty = true) :
    ∃ w, v.coerce? t = some w ∧ w.ty = t := by
  revert h
  cases v <;> cases t <;> simp [Ty.accepts, Value.ty, Value.coerce?]

theorem Value.ty_of_coerce? {v w : Value} {t : Ty} (h : v.coerce? t = some w) : w.ty = t := by
  rcases Value.coerce?_eq_some_iff.1 h with ⟨-, hty⟩ | ⟨n, -, rfl, rfl⟩
  · exact hty
  · rfl

theorem Run.fit_eq_ok {t : Ty} {x : String} {v w : Value} {span : Span}
    (h : fit t x v span = .ok w) : w.ty = t := by
  unfold fit at h
  cases hc : v.coerce? t with
  | none => simp [hc] at h
  | some u =>
      simp only [hc, Except.ok.injEq] at h
      rw [← h]
      exact Value.ty_of_coerce? hc

/-- A first value is of the type of its variable, and only a name without one has none. -/
theorem Run.initial_eq_ok {ty : Ty} {d : Declarator} {store : Store} {value : Option Value}
    (h : initial ty d store = .ok value) :
    (∀ v, value = some v → v.ty = ty) ∧ (value = none → d.init = none) := by
  unfold initial at h
  cases hd : d.init with
  | none =>
      rw [hd] at h
      cases h
      exact ⟨by simp, fun _ => rfl⟩
  | some init =>
      rw [hd] at h
      obtain ⟨u, -, h⟩ := bind_eq_ok.1 h
      obtain ⟨w, hw, h⟩ := bind_eq_ok.1 h
      cases h
      refine ⟨fun v hv => ?_, by simp⟩
      cases hv
      exact fit_eq_ok hw

/-! ### Stores that fit a scope -/

/-- The store and the scope know the same names with the same types, values are of the
type of their variable, and only bare names have none. -/
structure Store.Fits (bare : String → Prop) (scope : Scope) (store : Store) : Prop where
  ty : ∀ x, store.ty? x = scope[x]?
  typed : ∀ x t v, store.get? x = some ⟨t, some v⟩ → v.ty = t
  unset : ∀ x t, store.get? x = some ⟨t, none⟩ → bare x

namespace Store.Fits

variable {bare : String → Prop} {scope : Scope} {store store' : Store}

theorem empty : Fits bare {} {} where
  ty x := by simp [ty?, get?]
  typed x t v h := by simp [get?] at h
  unset x t h := by simp [get?] at h

theorem get? (hfit : Fits bare scope store) {x : String} {t : Ty} (hx : scope[x]? = some t) :
    ∃ value, store.get? x = some ⟨t, value⟩ := by
  have hty := hfit.ty x
  rw [hx, Store.ty?, Option.map_eq_some_iff] at hty
  obtain ⟨⟨t', value⟩, hget, rfl⟩ := hty
  exact ⟨value, hget⟩

theorem declare (hfit : Fits bare scope store) {x : String} {t : Ty} {value : Option Value}
    (hdecl : store.declare? x t value = some store') (htyped : ∀ v, value = some v → v.ty = t)
    (hbare : value = none → bare x) : Fits bare (scope.insert x t) store' := by
  have hget := get?_of_declare? hdecl
  refine ⟨fun y => ?_, fun y t' v h => ?_, fun y t' h => ?_⟩
  · rw [Store.ty?, hget, Std.TreeMap.getElem?_insert]
    by_cases hy : y = x
    · simp [hy]
    · have hne : ¬ compare x y = .eq := by
        rw [Std.LawfulEqCmp.compare_eq_iff_eq]
        exact fun h => hy h.symm
      rw [if_neg hy, if_neg hne]
      exact hfit.ty y
  · rw [hget] at h
    by_cases hy : y = x
    · rw [if_pos hy] at h
      cases h
      exact htyped v rfl
    · rw [if_neg hy] at h
      exact hfit.typed y t' v h
  · rw [hget] at h
    by_cases hy : y = x
    · rw [if_pos hy] at h
      cases h
      exact hy ▸ hbare rfl
    · rw [if_neg hy] at h
      exact hfit.unset y t' h

theorem assign (hfit : Fits bare scope store) {x : String} {v : Value}
    (hx : scope[x]? = some v.ty) (hassign : store.assign? x v = some store') :
    Fits bare scope store' := by
  have hget := get?_of_assign? hassign
  obtain ⟨value, hold⟩ := hfit.get? hx
  rw [hold] at hget
  refine ⟨fun y => ?_, fun y t' w h => ?_, fun y t' h => ?_⟩
  · by_cases hy : y = x
    · rw [Store.ty?, hget, if_pos hy, hy, hx]
      rfl
    · rw [Store.ty?, hget, if_neg hy]
      exact hfit.ty y
  · rw [hget] at h
    by_cases hy : y = x
    · rw [if_pos hy] at h
      cases h
      rfl
    · rw [if_neg hy] at h
      exact hfit.typed y t' w h
  · rw [hget] at h
    by_cases hy : y = x
    · rw [if_pos hy] at h
      cases h
    · rw [if_neg hy] at h
      exact hfit.unset y t' h

end Store.Fits

/-! ### Expressions -/

namespace Expr

/-- How an expression that is well typed may fail: at a division of an INT by an INT, or at
a name that has no value yet. -/
inductive Failure (bare : String → Prop) (scope : Scope) (e : Expr) : Error → Prop
  | divisionByZero {op : Located BinOp} {left right : Expr} {span : Span}
      (h : .binary op left right span ∈ e.parts)
      (hop : op.val = .arith .div ∨ op.val = .arith .rem)
      (hleft : left.typeOf scope = .ok .int) (hright : right.typeOf scope = .ok .int) :
      Failure bare scope e ((RunFault.operand .divisionByZero).at op.span)
  | unset {x : String} {span : Span} (h : .var x span ∈ e.parts) (hx : bare x) :
      Failure bare scope e ((RunFault.unset x).at span)

variable {bare : String → Prop} {scope : Scope} {store : Store}

theorem Failure.of_parts {e e' : Expr} {err : Error} (h : Failure bare scope e err)
    (hsub : ∀ n ∈ e.parts, n ∈ e'.parts) : Failure bare scope e' err := by
  cases h with
  | divisionByZero h hop hleft hright => exact .divisionByZero (hsub _ h) hop hleft hright
  | unset h hx => exact .unset (hsub _ h) hx

theorem typeOf_binary_eq_ok {op : Located BinOp} {left right : Expr} {span : Span} {t : Ty} :
    (Expr.binary op left right span).typeOf scope = .ok t ↔
      ∃ l r, left.typeOf scope = .ok l ∧ right.typeOf scope = .ok r ∧
        op.val.resultTy? l r = some t := by
  rw [typeOf, bind_eq_ok]
  constructor
  · rintro ⟨l, hl, h⟩
    obtain ⟨r, hr, h⟩ := bind_eq_ok.1 h
    cases hres : op.val.resultTy? l r with
    | none => simp [hres] at h
    | some t' =>
        simp only [hres, Except.ok.injEq] at h
        exact ⟨l, r, hl, hr, by rw [hres, h]⟩
  · rintro ⟨l, r, hl, hr, hres⟩
    exact ⟨l, hl, by simp [hr, hres]⟩

theorem typeOf_unary_eq_ok {op : Located UnOp} {operand : Expr} {span : Span} {t : Ty} :
    (Expr.unary op operand span).typeOf scope = .ok t ↔
      ∃ t', operand.typeOf scope = .ok t' ∧ op.val.resultTy? t' = some t := by
  rw [typeOf, bind_eq_ok]
  constructor
  · rintro ⟨t', ht', h⟩
    cases hres : op.val.resultTy? t' with
    | none => simp [hres] at h
    | some t'' =>
        simp only [hres, Except.ok.injEq] at h
        exact ⟨t', ht', by rw [hres, h]⟩
  · rintro ⟨t', ht', hres⟩
    exact ⟨t', ht', by simp [hres]⟩

theorem typeOf_var_eq_ok {x : String} {span : Span} {t : Ty} :
    (Expr.var x span).typeOf scope = .ok t ↔ scope[x]? = some t := by
  rw [typeOf, Scope.lookUp]
  cases scope[x]? <;> simp

/-- **A well-typed expression has a value of its type, or fails as foreseen.** -/
theorem eval_typed (hfit : store.Fits bare scope) {e : Expr} {t : Ty}
    (h : e.typeOf scope = .ok t) :
    (∃ v, e.eval store = .ok v ∧ v.ty = t) ∨
      ∃ err, e.eval store = .error err ∧ e.Failure bare scope err := by
  induction e generalizing t with
  | binary op left right span ihl ihr =>
      obtain ⟨l, r, hl, hr, hres⟩ := typeOf_binary_eq_ok.1 h
      rcases ihl hl with ⟨v, hv, rfl⟩ | ⟨err, herr, hfail⟩
      · rcases ihr hr with ⟨w, hw, rfl⟩ | ⟨err, herr, hfail⟩
        · rcases BinOp.apply_typed hres with ⟨u, hu, rfl⟩ | ⟨hzero, hop, hv', hw'⟩
          · refine Or.inl ⟨u, ?_, rfl⟩
            simp [eval, hv, hw, hu]
          · rw [hv'] at hl
            rw [hw'] at hr
            refine Or.inr ⟨_, ?_, .divisionByZero (mem_parts_self _) hop hl hr⟩
            simp [eval, hv, hw, hzero]
        · refine Or.inr ⟨err, ?_, hfail.of_parts fun n hn => by simp [parts, hn]⟩
          simp [eval, hv, herr, bind, Except.bind]
      · refine Or.inr ⟨err, ?_, hfail.of_parts fun n hn => by simp [parts, hn]⟩
        simp [eval, herr, bind, Except.bind]
  | unary op operand span ih =>
      obtain ⟨t', ht', hres⟩ := typeOf_unary_eq_ok.1 h
      rcases ih ht' with ⟨v, hv, rfl⟩ | ⟨err, herr, hfail⟩
      · obtain ⟨u, hu, rfl⟩ := UnOp.apply_typed hres
        refine Or.inl ⟨u, ?_, rfl⟩
        simp [eval, hv, hu]
      · refine Or.inr ⟨err, ?_, hfail.of_parts fun n hn => by simp [parts, hn]⟩
        simp [eval, herr, bind, Except.bind]
  | paren inner span ih =>
      rcases ih h with hok | ⟨err, herr, hfail⟩
      · exact Or.inl hok
      · exact Or.inr ⟨err, herr, hfail.of_parts fun n hn => by simp [parts, hn]⟩
  | var x span =>
      obtain ⟨value, hget⟩ := hfit.get? (typeOf_var_eq_ok.1 h)
      cases value with
      | some v => exact Or.inl ⟨v, by simp [eval, hget], hfit.typed x t v hget⟩
      | none =>
          refine Or.inr ⟨_, ?_, .unset (mem_parts_self _) (hfit.unset x t hget)⟩
          simp [eval, hget]
  | literal v span =>
      refine Or.inl ⟨v, rfl, ?_⟩
      simpa [typeOf] using h

end Expr

end Pseudocode

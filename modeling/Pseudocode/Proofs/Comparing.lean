/-
Comparison of values.

All six comparisons are answered from one thing, how the two operands stand to each other:
the first is less, equal or greater, or there is no order between them, as between numbers of
which one is not a number.  Whether that is known at all depends on the types of the operands
alone, so either all six have an answer or none has.  And with the operands exchanged it is
known the other way round.  The laws that tie the six together follow from these two facts,
whatever is compared.

What is left to say of the single types is that all but FLOAT have an order between any two
values, and which order it is.
-/
import Pseudocode.Typing
import Pseudocode.Value.Operation

namespace Pseudocode

/-! ### How two values stand to each other -/

namespace Single

/-- Exchanged, two numbers compare the other way round. -/
theorem order_swap (x y : Single) : y.order x = (x.order y).map Ordering.swap := by
  cases x with
  | nan => cases y <;> rfl
  | signed s m =>
      cases y with
      | nan => rfl
      | signed t n => exact congrArg some Std.OrientedOrd.eq_swap

end Single

namespace Value

variable {a b c : Value}

/-- Exchanged, two values stand to each other the other way round. -/
theorem order?_swap (a b : Value) :
    b.order? a = (a.order? b).map (Option.map Ordering.swap) := by
  cases a <;> cases b <;>
    simp only [order?, single?, Option.map_some, Option.map_none, Option.some.injEq]
  case int.int | char.char | bool.bool | string.string => exact Std.OrientedOrd.eq_swap
  all_goals exact Single.order_swap _ _

/-- Whether two values compare depends on their types alone. -/
theorem order?_isSome (a b : Value) : (a.order? b).isSome = (a.ty.unify b.ty).isSome := by
  cases a <;> cases b <;> rfl

/-- Values of one type have an order, unless they are FLOAT. -/
theorem exists_order? (hty : a.ty = b.ty) (hfloat : a.ty ≠ .float) :
    ∃ order, a.order? b = some (some order) := by
  cases a <;> cases b <;> cases hty
  case float.float => exact absurd rfl hfloat
  all_goals exact ⟨_, rfl⟩

/-- What is less than something less is less. -/
theorem order?_trans (hab : a.ty = b.ty) (hbc : b.ty = c.ty) (hfloat : a.ty ≠ .float)
    (h : a.order? b = some (some .lt)) (h' : b.order? c = some (some .lt)) :
    a.order? c = some (some .lt) := by
  cases a <;> cases b <;> cases hab <;> cases c <;> cases hbc
  case float.float.refl.float.refl => exact absurd rfl hfloat
  all_goals
    simp only [order?, Option.some.injEq] at h h' ⊢
    exact Std.TransCmp.lt_trans h h'

/-- A text is less than another when it comes first in the lexicographic order by code
points. -/
theorem order?_string_eq_lt {s t : String} :
    (Value.string s).order? (.string t) = some (some .lt) ↔
      List.Lex (fun c d : Char => c.toNat < d.toNat) s.toList t.toList := by
  simp only [order?, Option.some.injEq]
  exact compareOfLessAndEq_eq_lt

end Value

/-! ### The six comparisons -/

namespace Comparison

/-- The comparison of `a` with `b` has the answer `p`. -/
def Answers (op : Comparison) (a b : Value) (p : Bool) : Prop :=
  (BinOp.compare op).apply a b = .ok (.bool p)

/-- The comparison of `a` with `b` has no answer. -/
def Fails (op : Comparison) (a b : Value) : Prop :=
  ∃ fault, (BinOp.compare op).apply a b = .error fault

/-- The ways for two values to stand to each other. -/
def relations : List Comparison := [.lt, .eq, .gt]

/-- The answers of the six comparisons for two operands, and for the same operands exchanged,
go together. -/
structure Coherent (forth back : Comparison → Bool) : Prop where
  ne : forth .ne = !forth .eq
  le : forth .le = (forth .lt || forth .eq)
  ge : forth .ge = (forth .gt || forth .eq)
  gt : forth .gt = back .lt
  eq : forth .eq = back .eq
  exclusive : ∀ op ∈ relations, ∀ other ∈ relations,
    forth op = true → forth other = true → op = other

/-- Of the ways to stand to each other exactly one is the case. -/
def Decided (a b : Value) : Prop :=
  ∃ op ∈ relations, op.Answers a b true ∧ ∀ other ∈ relations, other ≠ op → other.Answers a b false

variable {op : Comparison} {a b : Value}

theorem answers_holds {order : Option Ordering} (h : a.order? b = some order) (op : Comparison) :
    op.Answers a b (op.holds order) := by
  simp only [Answers, BinOp.apply, h]

theorem fails_of_order? (h : a.order? b = none) (op : Comparison) : op.Fails a b :=
  ⟨.binary (.compare op) a.ty b.ty, by simp only [BinOp.apply, h]⟩

theorem lt_answers_true : lt.Answers a b true ↔ a.order? b = some (some .lt) := by
  cases h : a.order? b with
  | none => simp [Answers, BinOp.apply, h]
  | some order => cases order <;> simp [Answers, BinOp.apply, h, holds]

/-- The answers go together, however the operands stand to each other. -/
theorem coherent_holds (order : Option Ordering) :
    Coherent (fun op => op.holds order) (fun op => op.holds (order.map Ordering.swap)) := by
  rcases order with - | order
  · constructor <;> decide
  · cases order <;> constructor <;> decide

/-- With an order between the operands one of the relations is the case, and then no other. -/
theorem decided_of_order? {order : Ordering} (h : a.order? b = some (some order)) :
    Decided a b := by
  obtain ⟨op, hop, htrue⟩ : ∃ op ∈ relations, op.holds (some order) = true := by
    cases order <;> decide
  refine ⟨op, hop, htrue ▸ answers_holds h op, fun other hother hne => ?_⟩
  have hfalse : other.holds (some order) = false := by
    rw [← Bool.not_eq_true]
    exact fun hholds => hne ((coherent_holds _).exclusive other hother op hop hholds htrue)
  exact hfalse ▸ answers_holds h other

/-- **Comparisons agree with each other.**  Where the types of two operands fit together, all
six comparisons have answers, for the operands exchanged as well, and the answers are coherent;
where they do not, none has an answer.  Two values of the same type, other than FLOAT, stand to
each other in exactly one way, and what is less than something less is less.  Texts are ordered
lexicographically by code points. -/
theorem answers_coherent (a b : Value) :
    ((a.ty.unify b.ty).isSome = true ∧
        (∃ forth back : Comparison → Bool, Coherent forth back ∧
          ∀ op : Comparison, op.Answers a b (forth op) ∧ op.Answers b a (back op)) ∨
      (a.ty.unify b.ty).isSome = false ∧ ∀ op : Comparison, op.Fails a b ∧ op.Fails b a) ∧
    (a.ty = b.ty → a.ty ≠ .float →
      Decided a b ∧
        ∀ c : Value, b.ty = c.ty → lt.Answers a b true → lt.Answers b c true →
          lt.Answers a c true) ∧
    ∀ s t : String, lt.Answers (.string s) (.string t) true ↔
      List.Lex (fun c d : Char => c.toNat < d.toNat) s.toList t.toList := by
  refine ⟨?_, fun hty hfloat => ⟨?_, fun c hbc hab h => ?_⟩, fun s t => ?_⟩
  · rw [← Value.order?_isSome]
    have hswap := Value.order?_swap a b
    cases h : a.order? b with
    | none =>
        rw [h] at hswap
        exact Or.inr ⟨rfl, fun op => ⟨fails_of_order? h op, fails_of_order? hswap op⟩⟩
    | some order =>
        rw [h] at hswap
        exact Or.inl ⟨rfl, _, _, coherent_holds order,
          fun op => ⟨answers_holds h op, answers_holds hswap op⟩⟩
  · obtain ⟨order, horder⟩ := Value.exists_order? hty hfloat
    exact decided_of_order? horder
  · rw [lt_answers_true] at hab h ⊢
    exact Value.order?_trans hty hbc hfloat hab h
  · rw [lt_answers_true]
    exact Value.order?_string_eq_lt

/-- A text, a longer one that begins with it, and one with a later letter. -/
theorem answers_coherent_texts :
    let a := Value.string "é"
    let b := Value.string "é1"
    let c := Value.string "ü"
    Decided a b ∧ lt.Answers a c true := by
  intro a b c
  obtain ⟨-, hordered, hlex⟩ := answers_coherent a b
  obtain ⟨hdecided, htrans⟩ := hordered rfl (by decide)
  refine ⟨hdecided, htrans c rfl ((hlex _ _).2 ?_) ((hlex _ _).2 ?_)⟩
  · exact .cons .nil
  · exact .rel (by decide)

end Comparison

end Pseudocode

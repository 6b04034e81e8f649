/-
The variables of a program, with their types and values.

A name is declared once; later declarations of it are refused and change nothing.  Its
type never changes, and it has no value until one is assigned.
-/
import Pseudocode.Value
import Std.Data.TreeMap

namespace Pseudocode

/-- A variable. -/
structure Variable where
  /-- The type it was declared with. -/
  ty : Ty
  /-- What it holds; nothing before the first assignment. -/
  value : Option Value
  deriving DecidableEq, Repr

/-- The declared variables, by name. -/
structure Store where
  byName : Std.TreeMap String Variable := {}

namespace Store

/-- The variable of a name. -/
def get? (s : Store) (name : String) : Option Variable :=
  s.byName[name]?

/-- The type of a name. -/
def ty? (s : Store) (name : String) : Option Ty :=
  (s.get? name).map Variable.ty

/-- Whether a name is declared. -/
def isDeclared (s : Store) (name : String) : Bool :=
  (s.get? name).isSome

/-- The store with one more variable; nothing when the name is taken. -/
def declare? (s : Store) (name : String) (ty : Ty) (value : Option Value) : Option Store :=
  if s.isDeclared name then none else some ⟨s.byName.insert name ⟨ty, value⟩⟩

/-- The store in which a declared variable holds another value; nothing when the name is
not declared. -/
def assign? (s : Store) (name : String) (value : Value) : Option Store :=
  (s.get? name).map fun v => ⟨s.byName.insert name ⟨v.ty, some value⟩⟩

/-! ### What a name stands for after a change -/

theorem declare?_eq_some_iff {s t : Store} {name : String} {ty : Ty} {value : Option Value} :
    s.declare? name ty value = some t ↔
      s.get? name = none ∧ t = ⟨s.byName.insert name ⟨ty, value⟩⟩ := by
  unfold declare? isDeclared
  cases s.get? name <;> simp [eq_comm]

theorem get?_of_declare? {s t : Store} {name : String} {ty : Ty} {value : Option Value}
    (h : s.declare? name ty value = some t) (other : String) :
    t.get? other = if other = name then some ⟨ty, value⟩ else s.get? other := by
  obtain ⟨-, rfl⟩ := declare?_eq_some_iff.1 h
  simp only [get?, Std.TreeMap.getElem?_insert, Std.LawfulEqCmp.compare_eq_iff_eq,
    eq_comm (a := name)]

theorem assign?_eq_some_iff {s t : Store} {name : String} {value : Value} :
    s.assign? name value = some t ↔
      ∃ v, s.get? name = some v ∧ t = ⟨s.byName.insert name ⟨v.ty, some value⟩⟩ := by
  unfold assign?
  cases s.get? name <;> simp [eq_comm]

theorem get?_of_assign? {s t : Store} {name : String} {value : Value}
    (h : s.assign? name value = some t) (other : String) :
    t.get? other =
      if other = name then (s.get? name).map fun v => ⟨v.ty, some value⟩ else s.get? other := by
  obtain ⟨v, hv, rfl⟩ := assign?_eq_some_iff.1 h
  rw [hv]
  simp only [get?, Std.TreeMap.getElem?_insert, Std.LawfulEqCmp.compare_eq_iff_eq,
    eq_comm (a := name), Option.map_some]

end Store

end Pseudocode

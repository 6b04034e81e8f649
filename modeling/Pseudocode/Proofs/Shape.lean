/-
The shape of programs that were read.

The check, the interpreter and the printer are written for trees of a certain shape, and none
of them looks whether it has got one.  Reading makes no others: all declarations stand in
front, lists of names and items are not empty, conditions are in parentheses, and the values
of literals are such that a text can spell them.

Which clauses an IF may have is no question of reading but of the type `Otherwise`, which has
no room for a clause behind a bare ELSE.
-/
import Pseudocode.Proofs.Extent

namespace Pseudocode

/-! ### What is said of the shape -/

/-- A clause of an IF, with its condition; a bare ELSE has none. -/
structure Clause where
  cond : Option Expr
  body : List Stmt

/-- The ELSE clauses in order. -/
def Otherwise.clauses : Otherwise → List Clause
  | .nothing => []
  | .elseIf cond body otherwise => ⟨some cond, body⟩ :: otherwise.clauses
  | .bare body => [⟨none, body⟩]

namespace Stmt

/-- The clauses of an IF in order. -/
def clauses : Stmt → List Clause
  | .ifThen cond body otherwise _ => ⟨some cond, body⟩ :: otherwise.clauses
  | _ => []

/-- The conditions of an IF or a WHILE. -/
def conditions : Stmt → List Expr
  | .ifThen cond _ otherwise _ => cond :: otherwise.conditions
  | .loop cond _ _ => [cond]
  | _ => []

/-- There is something to declare, a target or something to show. -/
def Concerned : Stmt → Prop
  | .declare _ vars _ => vars ≠ []
  | .assign targets _ _ => targets ≠ []
  | .display items _ => items ≠ []
  | .scan targets _ => targets ≠ []
  | .ifThen .. => True
  | .loop .. => True

end Stmt

/-- The shape of programs. -/
structure Program.WellFormed (p : Program) : Prop where
  /-- Declarations stand in front, and there is none behind them at any depth. -/
  declarations : ∃ front rest, p.body = front ++ rest ∧
    (∀ s ∈ front, s.isDeclaration = true) ∧ ∀ s ∈ stmtParts rest, s.isDeclaration = false
  /-- An IF has a first clause, which has a condition, and only its last one may have none. -/
  clauses : ∀ cond body otherwise span, .ifThen cond body otherwise span ∈ p.stmts →
    ∃ first others, (Stmt.ifThen cond body otherwise span).clauses = first :: others ∧
      first.cond.isSome ∧ ∀ c ∈ (first :: others).dropLast, c.cond.isSome
  /-- Conditions are in parentheses. -/
  conditions : ∀ s ∈ p.stmts, ∀ cond ∈ s.conditions, ∃ inner span, cond = .paren inner span
  /-- No declaration, assignment, DISPLAY or SCAN is empty. -/
  concerned : ∀ s ∈ p.stmts, s.Concerned
  /-- A literal stands for a value that can be spelled, or for the smallest INT. -/
  literals : ∀ s ∈ p.stmts, ∀ e ∈ s.heads, ∀ v span, .literal v span ∈ e.parts →
    v.Legible ∨ v = .int Int32.minValue

/-! ### Why it holds -/

/-- Only the last clause may be without a condition. -/
theorem Otherwise.cond_of_mem_dropLast (o : Otherwise) :
    ∀ c ∈ o.clauses.dropLast, c.cond.isSome := by
  match o with
  | .nothing => simp [clauses]
  | .bare body => simp [clauses]
  | .elseIf cond body otherwise =>
      have ih := cond_of_mem_dropLast otherwise
      intro c hc
      rw [clauses] at hc
      cases hrest : otherwise.clauses with
      | nil =>
          rw [hrest] at hc
          simp at hc
      | cons d others =>
          rw [hrest] at hc ih
          rw [List.dropLast_cons_cons, List.mem_cons] at hc
          rcases hc with rfl | hc
          · rfl
          · exact ih c hc

namespace Derivation

theorem Sequence.declarations_first {n : Naming} {known : List String} {ts : List Token}
    {body : List Stmt} (h : Sequence n known ts body) :
    ∃ front rest, body = front ++ rest ∧ (∀ s ∈ front, s.isDeclaration = true) ∧
      ∀ s ∈ stmtParts rest, s.isDeclaration = false := by
  induction h with
  | @block known ts body h => exact ⟨[], body, rfl, by simp, h.plain⟩
  | @declare known t nl ty ns ts us vars rest _ _ _ _ _ ih =>
      obtain ⟨front, rest, rfl, hfront, hrest⟩ := ih
      refine ⟨.declare ty vars t.span :: front, rest, rfl, ?_, hrest⟩
      exact List.forall_mem_cons.2 ⟨rfl, hfront⟩

theorem Whole.declarations_first {n : Naming} {ts : List Token} {p : Program}
    (h : Whole n ts p) :
    ∃ front rest, p.body = front ++ rest ∧ (∀ s ∈ front, s.isDeclaration = true) ∧
      ∀ s ∈ stmtParts rest, s.isDeclaration = false := by
  cases h with
  | mk _ _ _ _ h _ _ _ _ => exact h.declarations_first

theorem Separated.ne_nil {α : Type} {sign : Sign} {rule : List Token → α → Prop}
    {ts : List Token} {as : List α} (h : Separated sign rule ts as) : as ≠ [] := by
  cases h <;> simp

theorem Condition.paren {isName : Token → Prop} {ts : List Token} {e : Expr}
    (h : Condition isName ts e) : ∃ inner span, e = .paren inner span := by
  cases h with
  | mk _ _ _ => exact ⟨_, _, rfl⟩

theorem Entry.conditions {n : Naming} {ts : List Token} {s : Stmt} (h : Entry n ts s) :
    ∀ cond ∈ s.conditions, ∃ inner span, cond = .paren inner span := by
  intro cond hcond
  cases h with
  | declaration h => cases hcond
  | statement h =>
      cases h with
      | assign _ _ _ _ => cases hcond
      | display _ _ _ _ => cases hcond
      | scan _ _ _ _ => cases hcond
      | ifThen _ hc _ _ ho =>
          rcases List.mem_cons.1 hcond with rfl | hcond
          · exact hc.paren
          · obtain ⟨us, -, hc⟩ := ho.conditions cond hcond
            exact hc.paren
      | loop _ hc _ _ =>
          rw [List.mem_singleton.1 hcond]
          exact hc.paren

theorem Entry.concerned {n : Naming} {ts : List Token} {s : Stmt} (h : Entry n ts s) :
    s.Concerned := by
  cases h with
  | declaration h =>
      show _ ≠ []
      cases h <;> simp
  | statement h =>
      cases h with
      | assign _ _ _ _ => exact List.cons_ne_nil _ _
      | display _ _ h _ => exact h.ne_nil
      | scan _ _ h _ => exact h.ne_nil
      | ifThen _ _ _ _ _ => trivial
      | loop _ _ _ _ => trivial

end Derivation

/-- A literal has the value of a token, or it is the smallest INT. -/
theorem Expr.Built.literal_value {isName : Token → Prop} {us : List Token} {v : Value}
    {span : Span} (h : Built isName us (.literal v span)) :
    (∃ t ∈ us, t.kind.value? = some v) ∨ v = .int Int32.minValue := by
  cases h with
  | @literal t _ ht => exact Or.inl ⟨t, by simp, ht⟩
  | smallest _ _ _ => exact Or.inr rfl

namespace Program

open Derivation

/-- **Every program that was read is well formed.** -/
theorem wellFormed_of_parse {source : String} {p : Program} (h : parse source = .ok p) :
    p.WellFormed := by
  have hwhole := parse_eq_ok_iff.1 h
  refine ⟨hwhole.declarations_first, ?_, ?_, ?_, ?_⟩
  · intro cond body otherwise span _
    refine ⟨⟨some cond, body⟩, otherwise.clauses, rfl, rfl, ?_⟩
    -- An IF is one more ELSE IF clause in front.
    exact (Otherwise.elseIf cond body otherwise).cond_of_mem_dropLast
  · intro s hs
    obtain ⟨us, -, hentry⟩ := hwhole.entries s hs
    exact hentry.conditions
  · intro s hs
    obtain ⟨us, -, hentry⟩ := hwhole.entries s hs
    exact hentry.concerned
  · intro s hs e he v span hpart
    obtain ⟨ts, hts, hbuilt⟩ := builtIn_of_parse h s hs e he
    obtain ⟨us, hus, hliteral⟩ := (hbuilt.parts _ hpart).widen hts
    rcases hliteral.literal_value with ⟨t, ht, hv⟩ | hv
    · exact Or.inl (Token.legible_of_mem (hus.subset ht) hv)
    · exact Or.inr hv

/-- A WHILE inside of an IF, and literals at the edge of what can be spelled. -/
def branchingText : String :=
  "BEGIN CODE\nINT a=-2147483648\nIF (a)\nBEGIN IF\nWHILE (a)\nBEGIN WHILE\na = a = 0\n" ++
    "END WHILE\nEND IF\nELSE\nBEGIN IF\nDISPLAY: \"[#]TRUE\" & $\nEND IF\nEND CODE"

def branching : Program where
  body :=
    [.declare .int
      [⟨⟨"a", ⟨2, 5, 1⟩⟩, some (.literal (.int Int32.minValue) ⟨2, 7, 11⟩)⟩] ⟨2, 1, 3⟩,
    .ifThen (.paren (.var "a" ⟨3, 5, 1⟩) ⟨3, 4, 3⟩)
      [.loop (.paren (.var "a" ⟨5, 8, 1⟩) ⟨5, 7, 3⟩)
        [.assign [⟨"a", ⟨7, 1, 1⟩⟩, ⟨"a", ⟨7, 5, 1⟩⟩] (.literal (.int 0) ⟨7, 9, 1⟩) ⟨7, 1, 1⟩]
        ⟨5, 1, 5⟩]
      (.bare
        [.display [.expr (.literal (.string "#TRUE") ⟨12, 10, 9⟩), .newline ⟨12, 22, 1⟩]
          ⟨12, 1, 7⟩])
      ⟨3, 1, 2⟩]
  span := ⟨1, 1, 5⟩

set_option maxRecDepth 2000 in
theorem wellFormed_of_parse_branchingText :
    parse branchingText = .ok branching ∧ branching.WellFormed := by
  have hparse : parse branchingText = .ok branching := rfl
  exact ⟨hparse, wellFormed_of_parse hparse⟩

end Program

end Pseudocode

/-
What stands where in a program.

An expression has parts, which are expressions; a statement has parts, which are
statements, at any depth of IF and WHILE, and it has heads, the expressions that stand in
it but in none of the statements inside of it.  So the expressions of a program are the
parts of the heads of its statements.

In a program that was read from a text, every statement stands on tokens of its own, some of
those of the statement around it.  No statement inside of another one is a declaration: the
rules of the grammar have declarations only at the outermost level.
-/
import Pseudocode.Proofs.Derivation

namespace Pseudocode

/-- An expression and all expressions in it. -/
def Expr.parts : Expr → List Expr
  | .binary op left right span => .binary op left right span :: (left.parts ++ right.parts)
  | .unary op operand span => .unary op operand span :: operand.parts
  | .paren inner span => .paren inner span :: inner.parts
  | e => [e]

theorem Expr.mem_parts_self (e : Expr) : e ∈ e.parts := by
  cases e <;> simp [parts]

mutual

/-- A statement and all statements in it. -/
def Stmt.parts : Stmt → List Stmt
  | .ifThen cond body otherwise span =>
    .ifThen cond body otherwise span :: (stmtParts body ++ otherwise.parts)
  | .loop cond body span => .loop cond body span :: stmtParts body
  | s => [s]

/-- All statements in the ELSE clauses. -/
def Otherwise.parts : Otherwise → List Stmt
  | .nothing => []
  | .elseIf _ body otherwise => stmtParts body ++ otherwise.parts
  | .bare body => stmtParts body

/-- Some statements and all statements in them. -/
def stmtParts : List Stmt → List Stmt
  | [] => []
  | s :: rest => s.parts ++ stmtParts rest

end

theorem Stmt.mem_parts_self (s : Stmt) : s ∈ s.parts := by
  cases s <;> simp [parts]

/-- The conditions of ELSE IF clauses. -/
def Otherwise.conditions : Otherwise → List Expr
  | .nothing => []
  | .elseIf cond _ otherwise => cond :: otherwise.conditions
  | .bare _ => []

/-- The expression that DISPLAY shows, if it is one. -/
def Item.expr? : Item → Option Expr
  | .newline _ => none
  | .expr e => some e

namespace Stmt

/-- The expressions that stand in a statement, but in no statement inside of it. -/
def heads : Stmt → List Expr
  | .declare _ vars _ => vars.filterMap Declarator.init
  | .assign _ value _ => [value]
  | .display items _ => items.filterMap Item.expr?
  | .scan .. => []
  | .ifThen cond _ otherwise _ => cond :: otherwise.conditions
  | .loop cond _ _ => [cond]

/-- The names that a statement declares. -/
def declared : Stmt → List Declarator
  | .declare _ vars _ => vars
  | _ => []

/-- No statement in this one is a declaration. -/
def Plain (s : Stmt) : Prop :=
  ∀ d ∈ s.parts, d.isDeclaration = false

end Stmt

/-- All statements of a program, at any depth. -/
def Program.stmts (p : Program) : List Stmt :=
  stmtParts p.body

theorem mem_stmtParts {d : Stmt} {body : List Stmt} :
    d ∈ stmtParts body ↔ ∃ s ∈ body, d ∈ s.parts := by
  induction body with
  | nil => simp [stmtParts]
  | cons s rest ih => simp [stmtParts, ih]

/-! ### Statements inside of statements

A statement at any depth is read, by the rule for statements, from some of the tokens of the
one that it stands in.  So whatever follows from that rule alone holds at every depth.
-/

namespace Derivation

section

variable {isName : Token → Prop}

/-- The statement is read from a part of the tokens. -/
def StatementIn (isName : Token → Prop) (ts : List Token) (s : Stmt) : Prop :=
  ∃ us, us <:+: ts ∧ Statement isName us s

theorem StatementIn.widen {us ts : List Token} {s : Stmt} (hus : us <:+: ts)
    (h : StatementIn isName us s) : StatementIn isName ts s := by
  obtain ⟨vs, hvs, h⟩ := h
  exact ⟨vs, hvs.trans hus, h⟩

mutual

theorem Statement.parts {ts : List Token} {s : Stmt} (h : Statement isName ts s) :
    ∀ d ∈ s.parts, StatementIn isName ts d := by
  have hself : StatementIn isName ts s := ⟨ts, List.infix_refl ts, h⟩
  match h with
  | .assign .. => exact List.forall_mem_singleton.2 hself
  | .display .. => exact List.forall_mem_singleton.2 hself
  | .scan .. => exact List.forall_mem_singleton.2 hself
  | @Statement.ifThen _ t nl ts us vs cond body o _ _ hb _ ho =>
      rw [Stmt.parts, List.forall_mem_cons, List.forall_mem_append]
      refine ⟨hself, fun d hd => ?_, fun d hd => ?_⟩
      · exact (hb.parts d hd).widen ⟨t :: ts, nl :: vs, by simp⟩
      · exact (ho.parts d hd).widen ⟨t :: ts ++ us ++ [nl], [], by simp⟩
  | @Statement.loop _ t nl ts us cond body _ _ hb _ =>
      rw [Stmt.parts, List.forall_mem_cons]
      refine ⟨hself, fun d hd => ?_⟩
      exact (hb.parts d hd).widen ⟨t :: ts, [nl], by simp⟩

theorem Clauses.parts {ts : List Token} {o : Otherwise} (h : Clauses isName ts o) :
    ∀ d ∈ o.parts, StatementIn isName ts d := by
  match h with
  | .nothing => simp [Otherwise.parts]
  | @Clauses.elseIf _ t i nl ns ts us vs cond body o _ _ _ _ hb _ ho =>
      rw [Otherwise.parts, List.forall_mem_append]
      refine ⟨fun d hd => ?_, fun d hd => ?_⟩
      · exact (hb.parts d hd).widen ⟨ns ++ t :: i :: ts, nl :: vs, by simp⟩
      · exact (ho.parts d hd).widen ⟨ns ++ t :: i :: ts ++ us ++ [nl], [], by simp⟩
  | @Clauses.bare _ t nl ns us body _ _ hb _ =>
      rw [Otherwise.parts]
      intro d hd
      exact (hb.parts d hd).widen ⟨ns ++ [t], [nl], by simp⟩

theorem Body.parts {k : Keyword} {ts : List Token} {body : List Stmt}
    (h : Body isName k ts body) : ∀ d ∈ stmtParts body, StatementIn isName ts d := by
  match h with
  | @Body.mk _ _ b bk nl e ek ns ts body _ _ _ _ h _ _ =>
      intro d hd
      exact (h.parts d hd).widen ⟨ns ++ [b, bk, nl], [e, ek], by simp⟩

theorem Block.parts {ts : List Token} {body : List Stmt} (h : Block isName ts body) :
    ∀ d ∈ stmtParts body, StatementIn isName ts d := by
  match h with
  | .nil _ => simp [stmtParts]
  | @Block.cons _ ns ts us s rest _ h hs =>
      rw [stmtParts, List.forall_mem_append]
      refine ⟨fun d hd => ?_, fun d hd => ?_⟩
      · exact (h.parts d hd).widen ⟨ns, us, by simp⟩
      · exact (hs.parts d hd).widen ⟨ns ++ ts, [], by simp⟩

end

/-- No statement of a block, at any depth, is a declaration. -/
theorem Block.plain {ts : List Token} {body : List Stmt} (h : Block isName ts body) :
    ∀ d ∈ stmtParts body, d.isDeclaration = false := by
  intro d hd
  obtain ⟨us, -, hd⟩ := h.parts d hd
  exact hd.isDeclaration

end

/-! ### Declarations stand at the outermost level -/

theorem Sequence.declaration_or_plain {n : Naming} {known : List String} {ts : List Token}
    {body : List Stmt} (h : Sequence n known ts body) :
    ∀ s ∈ body, s.isDeclaration = true ∨ s.Plain := by
  induction h with
  | block h =>
      intro s hs
      exact Or.inr fun d hd => h.plain d (mem_stmtParts.2 ⟨s, hs, hd⟩)
  | declare hns ht h hn hs ih =>
      rw [List.forall_mem_cons]
      exact ⟨Or.inl rfl, ih⟩

/-- **Every statement of a program is a declaration, or there is none in it.** -/
theorem Whole.declaration_or_plain {n : Naming} {ts : List Token} {p : Program}
    (h : Whole n ts p) : ∀ s ∈ p.body, s.isDeclaration = true ∨ s.Plain := by
  cases h with
  | mk _ _ _ _ h _ _ _ _ => exact h.declaration_or_plain

/-! ### The statements of a program and their tokens -/

/-- A statement, which may be a declaration, and the tokens it is read from. -/
inductive Entry (n : Naming) : List Token → Stmt → Prop
  | declaration {known : List String} {ts : List Token} {ty : Ty} {vars : List Declarator}
      {span : Span} (h : Declaration n known ts vars) : Entry n ts (.declare ty vars span)
  | statement {known : List String} {ts : List Token} {s : Stmt}
      (h : Statement (n.isName known) ts s) : Entry n ts s

theorem Sequence.entries {n : Naming} {known : List String} {ts : List Token}
    {body : List Stmt} (h : Sequence n known ts body) :
    ∀ d ∈ stmtParts body, ∃ us, us <:+: ts ∧ Entry n us d := by
  induction h with
  | block h =>
      intro d hd
      obtain ⟨us, hus, hd⟩ := h.parts d hd
      exact ⟨us, hus, .statement hd⟩
  | @declare known t nl ty ns ts us vars rest hns ht h hn hs ih =>
      rw [stmtParts, List.forall_mem_append]
      refine ⟨?_, fun d hd => ?_⟩
      · exact List.forall_mem_singleton.2 ⟨ts, ⟨ns ++ [t], nl :: us, by simp⟩, .declaration h⟩
      · obtain ⟨vs, hvs, hd⟩ := ih d hd
        exact ⟨vs, hvs.trans ⟨ns ++ t :: ts ++ [nl], [], by simp⟩, hd⟩

/-- **Every statement of a program is read from a part of the tokens.** -/
theorem Whole.entries {n : Naming} {ts : List Token} {p : Program} (h : Whole n ts p) :
    ∀ d ∈ p.stmts, ∃ us, us <:+: ts ∧ Entry n us d := by
  cases h with
  | @mk b bc nl e ec eof ns ts ms body _ _ _ _ h _ _ _ _ =>
      intro d hd
      obtain ⟨us, hus, hd⟩ := h.entries d hd
      exact ⟨us, hus.trans ⟨ns ++ [b, bc, nl], e :: ec :: ms ++ [eof], by simp⟩, hd⟩

end Derivation

end Pseudocode

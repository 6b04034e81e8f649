/-
Programs without their places.

Erasing a program puts every span of it to the same place, which is no place in any text.
Two programs are the same but for where they stand when they are equal once erased: the
same statements, names, operators, parentheses and values.  The canonical text is a matter
of the erased program alone.

Grouping a chain of operators looks at the operators and not at the places, so it can be
done before erasing or after.
-/
import Pseudocode.Expr.Chain
import Pseudocode.Program.Render

namespace Pseudocode

/-- A place in no text. -/
def Span.nowhere : Span := ⟨0, 0, 0⟩

/-- What stands at a place, without the place. -/
def Located.erase {α : Type} (x : Located α) : Located α :=
  ⟨x.val, .nowhere⟩

namespace Expr

/-- An expression without its places. -/
def erase : Expr → Expr
  | .binary op left right _ => .binary op.erase left.erase right.erase .nowhere
  | .unary op operand _ => .unary op.erase operand.erase .nowhere
  | .paren inner _ => .paren inner.erase .nowhere
  | .var x _ => .var x .nowhere
  | .literal v _ => .literal v .nowhere

theorem span_erase (e : Expr) : e.erase.span = .nowhere := by
  cases e <;> rfl

end Expr

/-- A declared name without its places. -/
def Declarator.erase (d : Declarator) : Declarator :=
  ⟨d.name.erase, d.init.map Expr.erase⟩

/-- A part of what DISPLAY shows, without its places. -/
def Item.erase : Item → Item
  | .newline _ => .newline .nowhere
  | .expr e => .expr e.erase

mutual

/-- A statement without its places. -/
def Stmt.erase : Stmt → Stmt
  | .declare ty vars _ => .declare ty (vars.map Declarator.erase) .nowhere
  | .assign targets value _ => .assign (targets.map Located.erase) value.erase .nowhere
  | .display items _ => .display (items.map Item.erase) .nowhere
  | .scan targets _ => .scan (targets.map Located.erase) .nowhere
  | .ifThen cond body otherwise _ =>
    .ifThen cond.erase (eraseStmts body) otherwise.erase .nowhere
  | .loop cond body _ => .loop cond.erase (eraseStmts body) .nowhere

/-- ELSE clauses without their places. -/
def Otherwise.erase : Otherwise → Otherwise
  | .nothing => .nothing
  | .elseIf cond body otherwise => .elseIf cond.erase (eraseStmts body) otherwise.erase
  | .bare body => .bare (eraseStmts body)

/-- Statements without their places. -/
def eraseStmts : List Stmt → List Stmt
  | [] => []
  | s :: rest => s.erase :: eraseStmts rest

end

/-- A program without its places. -/
def Program.erase (p : Program) : Program :=
  ⟨eraseStmts p.body, .nowhere⟩

/-! ### The canonical text -/

theorem Expr.render_erase (e : Expr) : e.erase.render = e.render := by
  induction e with
  | binary op left right span ihl ihr => simp [erase, render, ihl, ihr, Located.erase]
  | unary op operand span ih => simp [erase, render, ih, Located.erase]
  | paren inner span ih => simp [erase, render, ih]
  | var x span => rfl
  | literal v span => rfl

theorem Declarator.render_erase (d : Declarator) : d.erase.render = d.render := by
  cases h : d.init <;> simp [erase, render, h, Expr.render_erase, Located.erase]

theorem Item.render_erase (item : Item) : item.erase.render = item.render := by
  cases item with
  | newline span => rfl
  | expr e => exact e.render_erase

mutual

theorem Stmt.render_erase (depth : Nat) (s : Stmt) : s.erase.render depth = s.render depth := by
  match s with
  | .declare ty vars span =>
      simp [Stmt.erase, Stmt.render, Function.comp_def, Declarator.render_erase]
  | .assign targets value span =>
      simp [Stmt.erase, Stmt.render, Function.comp_def, Located.erase, Expr.render_erase]
  | .display items span =>
      simp [Stmt.erase, Stmt.render, Function.comp_def, Item.render_erase]
  | .scan targets span => simp [Stmt.erase, Stmt.render, Function.comp_def, Located.erase]
  | .ifThen cond body otherwise span =>
      simp [Stmt.erase, Stmt.render, Expr.render_erase, renderStmts_erase (depth + 1) body,
        Otherwise.render_erase depth otherwise]
  | .loop cond body span =>
      simp [Stmt.erase, Stmt.render, Expr.render_erase, renderStmts_erase (depth + 1) body]

theorem Otherwise.render_erase (depth : Nat) (o : Otherwise) :
    o.erase.render depth = o.render depth := by
  match o with
  | .nothing => simp [Otherwise.erase]
  | .elseIf cond body otherwise =>
      simp [Otherwise.erase, Otherwise.render, Expr.render_erase,
        renderStmts_erase (depth + 1) body, Otherwise.render_erase depth otherwise]
  | .bare body =>
      simp [Otherwise.erase, Otherwise.render, renderStmts_erase (depth + 1) body]

theorem renderStmts_erase (depth : Nat) (body : List Stmt) :
    renderStmts depth (eraseStmts body) = renderStmts depth body := by
  match body with
  | [] => simp [eraseStmts]
  | s :: rest =>
      simp [eraseStmts, renderStmts, Stmt.render_erase depth s, renderStmts_erase depth rest]

end

/-- **The canonical text says nothing of places.** -/
theorem Program.render_erase (p : Program) : p.erase.render = p.render := by
  rw [Program.render, Program.erase, renderStmts_erase, Program.render]

/-! ### Chains -/

/-- A link of a chain without its places. -/
def Link.erase (link : Link) : Link :=
  ⟨link.op.erase, link.operand.erase⟩

namespace Expr

theorem erase_join (left : Expr) (op : Located BinOp) (right : Expr) :
    (join left op right).erase = join left.erase op.erase right.erase := by
  have hspan : Span.nowhere.to .nowhere = .nowhere := rfl
  rw [join, join, erase, span_erase, span_erase, hspan]

theorem erase_prepend (left : Expr) (op : Located BinOp) (right : Expr) :
    (prepend left op right).erase = prepend left.erase op.erase right.erase := by
  fun_induction prepend left op right with
  | case1 root l r s hlt ih =>
      have hlt' : root.erase.val.precedence < op.erase.val.precedence := hlt
      rw [erase_join, ih, erase, prepend, if_pos hlt']
  | case2 root l r s hge =>
      have hge' : ¬ root.erase.val.precedence < op.erase.val.precedence := hge
      rw [erase_join, erase, prepend, if_neg hge']
  | case3 right hno =>
      rw [erase_join]
      cases right with
      | binary root l r s => exact absurd rfl (hno root l r s)
      | _ => rfl

theorem erase_ofChain (first : Expr) (links : List Link) :
    (ofChain first links).erase = ofChain first.erase (links.map Link.erase) := by
  induction links generalizing first with
  | nil => rfl
  | cons link links ih =>
      rw [ofChain, erase_prepend, ih, List.map_cons, ofChain]
      rfl

end Expr

end Pseudocode

/-
The places of expressions are exact.

The place of an expression goes from the start of its first token to the end of its last
one.  Places are joined two at a time while a tree is put together, and a join of two places
that are not on one line, or not in order, would silently keep the first one only.  It never
comes to that: the tokens of an expression follow one another on one line, and `Built` says
of every tree, however its operators are grouped, that its operands come from the tokens in
the order of the text.

From exact places it follows how the places in a tree lie to each other.  Those of the parts
lie inside that of the whole, and those of two operands lie on the two sides of their
operator.
-/
import Pseudocode.Proofs.Occurrence
import Pseudocode.Proofs.Provenance

namespace Pseudocode

/-! ### Places side by side and inside of one another -/

namespace Span

/-- The first place lies inside of the second one. -/
def Inside (a b : Span) : Prop :=
  a.line = b.line ∧ b.col ≤ a.col ∧ a.col + a.len ≤ b.col + b.len

/-- The first place ends before the second one starts. -/
def Before (a b : Span) : Prop :=
  a.line = b.line ∧ a.col + a.len ≤ b.col

end Span

namespace Token

/-- The tokens fill the place: they all stand on its line, the first one starts where it
starts, and the last one ends where it ends. -/
structure Fills (us : List Token) (s : Span) : Prop where
  line : ∀ u ∈ us, u.span.line = s.line
  first : ∃ t, us.head? = some t ∧ t.span.col = s.col
  last : ∃ t, us.getLast? = some t ∧ t.span.col + t.span.len = s.col + s.len

theorem fills_singleton (t : Token) : Fills [t] t.span where
  line := List.forall_mem_singleton.2 rfl
  first := ⟨t, rfl, rfl⟩
  last := ⟨t, rfl, rfl⟩

theorem Row.le_last {us : List Token} {u last : Token} (h : Row us) (hu : u ∈ us)
    (hlast : us.getLast? = some last) :
    u.span.col + u.span.len ≤ last.span.col + last.span.len := by
  obtain ⟨init, rfl⟩ := List.getLast?_eq_some_iff.1 hlast
  rcases List.mem_append.1 hu with hu | hu
  · obtain ⟨-, hcol⟩ := (List.pairwise_append.1 h).2.2 u hu last (by simp)
    omega
  · rw [List.mem_singleton.1 hu]

/-- Some of the tokens of a row fill a place inside of that of the row. -/
theorem Fills.inside {us ts : List Token} {a b : Span} (hus : Fills us a) (hts : Fills ts b)
    (hrow : Row ts) (hsub : us ⊆ ts) : a.Inside b := by
  obtain ⟨first, hfirst, hcol⟩ := hus.first
  obtain ⟨last, hlast, hend⟩ := hus.last
  have hmem : first ∈ ts := hsub (List.mem_of_head? hfirst)
  have hmem' : last ∈ ts := hsub (List.mem_of_getLast? hlast)
  have hline : a.line = b.line := by
    rw [← hus.line first (List.mem_of_head? hfirst), hts.line first hmem]
  refine ⟨hline, ?_, ?_⟩
  · obtain ⟨start, hstart, hstartCol⟩ := hts.first
    obtain ⟨rest, rfl⟩ := List.head?_eq_some_iff.1 hstart
    have hle := (hrow.head_le hmem).2
    omega
  · obtain ⟨stop, hstop, hstopEnd⟩ := hts.last
    have hle := hrow.le_last hmem' hstop
    omega

/-- What fills one part of a row ends before what fills a later part starts. -/
theorem Fills.before {us vs : List Token} {a b : Span} (hus : Fills us a) (hvs : Fills vs b)
    (hrow : Row (us ++ vs)) : a.Before b := by
  obtain ⟨last, hlast, hend⟩ := hus.last
  obtain ⟨first, hfirst, hcol⟩ := hvs.first
  have hmem : last ∈ us := List.mem_of_getLast? hlast
  have hmem' : first ∈ vs := List.mem_of_head? hfirst
  obtain ⟨hline, hle⟩ := (List.pairwise_append.1 hrow).2.2 last hmem first hmem'
  refine ⟨?_, by omega⟩
  rw [← hus.line last hmem, ← hvs.line first hmem']
  exact hline

end Token

/-! ### The tokens of an expression and of its parts -/

namespace Expr

open Token

variable {isName : Token → Prop}

/-- The expression is built from a part of the tokens. -/
def BuiltIn (isName : Token → Prop) (ts : List Token) (e : Expr) : Prop :=
  ∃ us, us <:+: ts ∧ Built isName us e

theorem BuiltIn.widen {us ts : List Token} {e : Expr} (hus : us <:+: ts)
    (h : BuiltIn isName us e) : BuiltIn isName ts e := by
  obtain ⟨vs, hvs, h⟩ := h
  exact ⟨vs, hvs.trans hus, h⟩

theorem Built.mono {isName' : Token → Prop} (hname : ∀ t, isName t → isName' t)
    {us : List Token} {e : Expr} (h : Built isName us e) : Built isName' us e := by
  induction h with
  | binary _ ht _ ihl ihr => exact .binary ihl ht ihr
  | unary ht _ ih => exact .unary ht ih
  | paren ht _ hc ih => exact .paren ht ih hc
  | var ht => exact .var (hname _ ht)
  | literal ht => exact .literal ht
  | smallest ht hm hv => exact .smallest ht hm hv

/-- Every part of an expression is built from a part of its tokens. -/
theorem Built.parts {us : List Token} {e : Expr} (h : Built isName us e) :
    ∀ part ∈ e.parts, BuiltIn isName us part := by
  have hself : BuiltIn isName us e := ⟨us, List.infix_refl us, h⟩
  induction h with
  | @binary us vs t op left right hl _ hr ihl ihr =>
      rw [join, Expr.parts, List.forall_mem_cons, List.forall_mem_append]
      refine ⟨hself, fun part hpart => ?_, fun part hpart => ?_⟩
      · refine (ihl ⟨us, List.infix_refl us, hl⟩ part hpart).widen ?_
        exact (List.prefix_append us (t :: vs)).isInfix
      · refine (ihr ⟨vs, List.infix_refl vs, hr⟩ part hpart).widen ?_
        exact ⟨us ++ [t], [], by simp⟩
  | @unary us t op e _ h ih =>
      rw [Expr.parts, List.forall_mem_cons]
      refine ⟨hself, fun part hpart => ?_⟩
      refine (ih ⟨us, List.infix_refl us, h⟩ part hpart).widen ?_
      exact (List.suffix_cons t us).isInfix
  | @paren us t c e _ h _ ih =>
      rw [Expr.parts, List.forall_mem_cons]
      refine ⟨hself, fun part hpart => ?_⟩
      exact (ih ⟨us, List.infix_refl us, h⟩ part hpart).widen ⟨[t], [c], by simp⟩
  | var _ => exact List.forall_mem_singleton.2 hself
  | literal _ => exact List.forall_mem_singleton.2 hself
  | smallest _ _ _ => exact List.forall_mem_singleton.2 hself

/-- No expression goes over a line end. -/
theorem Built.newline_ne (hname : ∀ t, isName t → t.kind ≠ .newline) {us : List Token}
    {e : Expr} (h : Built isName us e) : ∀ t ∈ us, t.kind ≠ .newline := by
  induction h with
  | binary _ ht _ ihl ihr =>
      rw [List.forall_mem_append, List.forall_mem_cons]
      refine ⟨ihl, ?_, ihr⟩
      intro hk
      simp [hk, Token.Kind.binOp?] at ht
  | unary ht _ ih =>
      refine List.forall_mem_cons.2 ⟨?_, ih⟩
      intro hk
      simp [hk, Token.Kind.unOp?] at ht
  | paren ht _ hc ih =>
      rw [List.cons_append, List.forall_mem_cons, List.forall_mem_append,
        List.forall_mem_singleton]
      exact ⟨by simp [ht], ih, by simp [hc]⟩
  | var ht => exact List.forall_mem_singleton.2 (hname _ ht)
  | literal ht =>
      refine List.forall_mem_singleton.2 ?_
      intro hk
      simp [hk, Token.Kind.value?] at ht
  | smallest ht hm _ =>
      rw [List.forall_mem_cons, List.forall_mem_singleton]
      exact ⟨by simp [ht], by simp [hm]⟩

/-! ### Exact places and their order -/

/-- The tokens of an expression fill its place. -/
theorem Built.fills {us : List Token} {e : Expr} (h : Built isName us e) (hrow : Row us) :
    Fills us e.span := by
  obtain ⟨first, last, hends, hspan⟩ := h.span_eq hrow
  have hcol := (hends.row hrow hends.last_mem).2
  rw [hspan]
  refine ⟨?_, ⟨first, hends.1, rfl⟩, ⟨last, hends.2, ?_⟩⟩
  · intro u hu
    exact (hends.row hrow hu).1.symm
  · show _ = first.span.col + (last.span.col + last.span.len - first.span.col)
    omega

/-- How the places of a node, of its operator and of its operands lie to each other. -/
def Nested : Expr → Prop
  | .binary op left right span =>
    left.span.Inside span ∧ op.span.Inside span ∧ right.span.Inside span ∧
      left.span.Before op.span ∧ op.span.Before right.span
  | .unary op operand span =>
    op.span.Inside span ∧ operand.span.Inside span ∧ op.span.Before operand.span
  | .paren inner span => inner.span.Inside span
  | .var .. => True
  | .literal .. => True

theorem Built.nested {us : List Token} {e : Expr} (h : Built isName us e) (hrow : Row us) :
    e.Nested := by
  have hfills := h.fills hrow
  cases h with
  | @binary us vs t op left right hl ht hr =>
      have hus : us <:+: us ++ t :: vs := (List.prefix_append ..).isInfix
      have htvs : t :: vs <:+: us ++ t :: vs := (List.suffix_append ..).isInfix
      have hust : us ++ [t] <:+: us ++ t :: vs := ⟨[], vs, by simp⟩
      have hvs : vs <:+: us ++ t :: vs := ⟨us ++ [t], [], by simp⟩
      have hleft := hl.fills (hrow.part hus)
      have hright := hr.fills (hrow.part hvs)
      have hop := fills_singleton t
      refine ⟨hleft.inside hfills hrow hus.subset, hop.inside hfills hrow (by simp),
        hright.inside hfills hrow hvs.subset, ?_, ?_⟩
      · exact hleft.before hop (hrow.part hust)
      · exact hop.before hright (hrow.part htvs)
  | @unary us t op e ht h =>
      have hus : us <:+: t :: us := (List.suffix_cons ..).isInfix
      have hinner := h.fills (hrow.part hus)
      have hop := fills_singleton t
      exact ⟨hop.inside hfills hrow (by simp), hinner.inside hfills hrow hus.subset,
        hop.before hinner hrow⟩
  | @paren us t c e ht h hc =>
      have hus : us <:+: t :: us ++ [c] := ⟨[t], [c], by simp⟩
      exact (h.fills (hrow.part hus)).inside hfills hrow hus.subset
  | var ht => trivial
  | literal ht => trivial
  | smallest ht hm hv => trivial

end Expr

/-! ### The expressions of a program -/

namespace Derivation

open Expr

/-- Each of the phrases between the signs stands on a part of the tokens. -/
theorem Separated.mem {α : Type} {sign : Sign} {rule : List Token → α → Prop}
    {ts : List Token} {as : List α} (h : Separated sign rule ts as) :
    ∀ a ∈ as, ∃ us, us <:+: ts ∧ rule us a := by
  induction h with
  | @one ts a h => exact List.forall_mem_singleton.2 ⟨ts, List.infix_refl ts, h⟩
  | @cons ts us c a as h _ _ ih =>
      rw [List.forall_mem_cons]
      refine ⟨⟨ts, (List.prefix_append ..).isInfix, h⟩, fun b hb => ?_⟩
      obtain ⟨vs, hvs, hb⟩ := ih b hb
      exact ⟨vs, hvs.trans ⟨ts ++ [c], [], by simp⟩, hb⟩

theorem Declaration.mem {n : Naming} {known : List String} {ts : List Token}
    {vars : List Declarator} (h : Declaration n known ts vars) :
    ∀ d ∈ vars, ∃ known us, us <:+: ts ∧ Declared n known us d := by
  induction h with
  | @one known ts d h => exact List.forall_mem_singleton.2 ⟨known, ts, List.infix_refl ts, h⟩
  | @cons known ts us c d vars h _ _ ih =>
      rw [List.forall_mem_cons]
      refine ⟨⟨known, ts, (List.prefix_append ..).isInfix, h⟩, fun d' hd' => ?_⟩
      obtain ⟨known', vs, hvs, hd'⟩ := ih d' hd'
      exact ⟨known', vs, hvs.trans ⟨ts ++ [c], [], by simp⟩, hd'⟩

theorem Assigned.value_mem {isName : Token → Prop} {ts : List Token} {targets : List Name}
    {e : Expr} (h : Assigned isName ts targets e) :
    ∃ us, us <:+: ts ∧ Expression isName us e := by
  induction h with
  | @value ts e h => exact ⟨ts, List.infix_refl ts, h⟩
  | @target t a ts targets e _ _ _ ih =>
      obtain ⟨us, hus, h⟩ := ih
      exact ⟨us, hus.trans ⟨[t, a], [], by simp⟩, h⟩

theorem Clauses.conditions {isName : Token → Prop} {ts : List Token} {o : Otherwise}
    (h : Clauses isName ts o) : ∀ e ∈ o.conditions, ∃ us, us <:+: ts ∧ Condition isName us e := by
  cases h with
  | nothing => simp [Otherwise.conditions]
  | @elseIf t i nl ns ts us vs cond body o _ _ _ hc _ _ ho =>
      rw [Otherwise.conditions, List.forall_mem_cons]
      refine ⟨⟨ts, ⟨ns ++ [t, i], us ++ nl :: vs, by simp⟩, hc⟩, fun e he => ?_⟩
      obtain ⟨ws, hws, he⟩ := ho.conditions e he
      exact ⟨ws, hws.trans ⟨ns ++ t :: i :: ts ++ us ++ [nl], [], by simp⟩, he⟩
  | bare _ _ _ _ => simp [Otherwise.conditions]

/-- The expressions of a statement are built from its tokens. -/
theorem Statement.heads {isName : Token → Prop} {ts : List Token} {s : Stmt}
    (h : Statement isName ts s) : ∀ e ∈ s.heads, BuiltIn isName ts e := by
  cases h with
  | @assign t a nl ts targets e _ _ h _ =>
      obtain ⟨us, hus, he⟩ := h.value_mem
      exact List.forall_mem_singleton.2 ⟨us, hus.trans ⟨[t, a], [nl], by simp⟩, he.built⟩
  | @display t c nl ts items _ _ h _ =>
      intro e he
      obtain ⟨item, hitem, hexpr⟩ := List.mem_filterMap.1 he
      obtain ⟨us, hus, hshown⟩ := h.mem item hitem
      cases hshown with
      | newline _ => cases hexpr
      | expr h =>
          cases hexpr
          exact ⟨us, hus.trans ⟨[t, c], [nl], by simp⟩, h.built⟩
  | scan _ _ _ _ => simp [Stmt.heads]
  | @ifThen t nl ts us vs cond body o _ hc _ _ ho =>
      rw [Stmt.heads, List.forall_mem_cons]
      refine ⟨⟨ts, ⟨[t], us ++ nl :: vs, by simp⟩, hc.built⟩, fun e he => ?_⟩
      obtain ⟨ws, hws, he⟩ := ho.conditions e he
      exact ⟨ws, hws.trans ⟨t :: ts ++ us ++ [nl], [], by simp⟩, he.built⟩
  | @loop t nl ts us cond body _ hc _ _ =>
      exact List.forall_mem_singleton.2 ⟨ts, ⟨[t], us ++ [nl], by simp⟩, hc.built⟩

theorem Entry.heads {n : Naming} {isName : Token → Prop}
    (hname : ∀ known t, n.isName known t → isName t) {ts : List Token} {s : Stmt}
    (h : Entry n ts s) : ∀ e ∈ s.heads, BuiltIn isName ts e := by
  intro e he
  cases h with
  | declaration h =>
      obtain ⟨d, hd, hinit⟩ := List.mem_filterMap.1 he
      obtain ⟨known, us, hus, hd⟩ := h.mem d hd
      cases hd with
      | bare _ => cases hinit
      | @init t a ts e _ _ h =>
          cases hinit
          refine ⟨ts, List.IsInfix.trans ⟨[t, a], [], by simp⟩ hus, ?_⟩
          exact h.built.mono (hname _)
  | statement h =>
      obtain ⟨us, hus, hbuilt⟩ := h.heads e he
      exact ⟨us, hus, hbuilt.mono (hname _)⟩

end Derivation

namespace Program

open Derivation Expr Token

theorem isNew_of_isName (known : List String) (t : Token)
    (h : Naming.written.isName known t) : Naming.written.isNew t := by
  rcases h with h | ⟨h, -⟩
  · exact Or.inl h
  · exact Or.inr h

theorem newline_ne_of_isNew (t : Token) (h : Naming.written.isNew t) : t.kind ≠ .newline := by
  intro hk
  rcases h with h | ⟨r, h⟩
  · rw [show t.kind = .name from h] at hk
    cases hk
  · rw [h] at hk
    cases hk

/-- Every expression of a program is built from tokens of the text, one behind the other. -/
theorem builtIn_of_parse {source : String} {p : Program} (h : parse source = .ok p) :
    ∀ s ∈ p.stmts, ∀ e ∈ s.heads, BuiltIn Naming.written.isNew (Token.ofSource source) e := by
  intro s hs e he
  obtain ⟨us, hus, hentry⟩ := (parse_eq_ok_iff.1 h).entries s hs
  exact (hentry.heads isNew_of_isName e he).widen hus

/-- **The places of expressions are exact.**  Every node of every expression of a program is
built from tokens that follow one another in the text.  Whatever such tokens are taken, all
stand on the line of the node, the first one starts where its place starts, and the last one
ends where its place ends.  The places of the operands and of the operator lie inside of that
of the node, with the operator before its operand or between the two. -/
theorem places_of_parse {source : String} {p : Program} (h : parse source = .ok p) :
    ∀ s ∈ p.stmts, ∀ root ∈ s.heads, ∀ e ∈ root.parts,
      BuiltIn Naming.written.isNew (Token.ofSource source) e ∧
      (∀ us, us <:+: Token.ofSource source → Built Naming.written.isNew us e →
        Fills us e.span) ∧
      e.Nested := by
  intro s hs root hroot e he
  obtain ⟨ts, hts, hbuilt⟩ := builtIn_of_parse h s hs root hroot
  obtain ⟨us, hus, hbuilt⟩ := (hbuilt.parts e he).widen hts
  have hrow : ∀ vs, vs <:+: Token.ofSource source → Built Naming.written.isNew vs e → Row vs :=
    fun vs hvs hb => rows_ofSource source vs hvs (hb.newline_ne newline_ne_of_isNew)
  refine ⟨⟨us, hus, hbuilt⟩, fun vs hvs hb => hb.fills (hrow vs hvs hb), ?_⟩
  exact hbuilt.nested (hrow us hus hbuilt)

/-- One expression with every kind of node; the smallest INT takes two tokens. -/
def spacedText : String :=
  "BEGIN CODE\nDISPLAY: NOT (1 + 2 * - 2147483648 < x)\nEND CODE"

/-- `1 + 2 * - 2147483648` at its place in the text. -/
def spacedSum : Expr :=
  .binary ⟨.arith .add, ⟨2, 17, 1⟩⟩ (.literal (.int 1) ⟨2, 15, 1⟩)
    (.binary ⟨.arith .mul, ⟨2, 21, 1⟩⟩ (.literal (.int 2) ⟨2, 19, 1⟩)
      (.literal (.int Int32.minValue) ⟨2, 23, 12⟩) ⟨2, 19, 16⟩) ⟨2, 15, 20⟩

/-- What is shown, around the sum. -/
def spacedShown : Expr :=
  .unary ⟨.not, ⟨2, 10, 3⟩⟩
    (.paren (.binary ⟨.compare .lt, ⟨2, 36, 1⟩⟩ spacedSum (.var "x" ⟨2, 38, 1⟩) ⟨2, 15, 24⟩)
      ⟨2, 14, 26⟩) ⟨2, 10, 30⟩

theorem places_of_parse_spacedText :
    parse spacedText = .ok ⟨[.display [.expr spacedShown] ⟨2, 1, 7⟩], ⟨1, 1, 5⟩⟩ ∧
      spacedSum ∈ spacedShown.parts ∧ spacedSum.Nested ∧
      ∃ us, us <:+: Token.ofSource spacedText ∧ Built Naming.written.isNew us spacedSum ∧
        Fills us ⟨2, 15, 20⟩ := by
  have hparse : parse spacedText =
      .ok ⟨[.display [.expr spacedShown] ⟨2, 1, 7⟩], ⟨1, 1, 5⟩⟩ := rfl
  have hpart : spacedSum ∈ spacedShown.parts := by decide
  obtain ⟨⟨us, hus, hbuilt⟩, hfills, hnested⟩ := places_of_parse hparse
    (.display [.expr spacedShown] ⟨2, 1, 7⟩) (by simp [stmts, stmtParts, Stmt.parts])
    spacedShown (by simp [Stmt.heads, Item.expr?]) spacedSum hpart
  exact ⟨hparse, hpart, hnested, us, hus, hbuilt, hfills us hus hbuilt⟩

end Program

end Pseudocode

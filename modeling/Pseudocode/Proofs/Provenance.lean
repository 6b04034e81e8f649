/-
Where the places in a program come from.

Every place in a program that was read from a text is a stretch from one token of the text
to another one on the same line.  For an expression these are the first and the last token
it is built from.  That the grouping of operators moves operands around does not matter,
for it keeps their order; `Built` says this of whole trees, and then the place of a tree
follows from how it is put together.

The check and a run make up no places of their own.  An error in a program stands at one of
its places, so it, too, stands at a stretch between two tokens.
-/
import Pseudocode.Proofs.Acceptance
import Pseudocode.Proofs.Positions

namespace Pseudocode

/-! ### Stretches between tokens -/

namespace Token

/-- The place from the start of one token to the end of another. -/
def stretch (t u : Token) : Span :=
  ⟨t.span.line, t.span.col, u.span.col + u.span.len - t.span.col⟩

/-- A place from the start of one of the tokens to its own end or that of a later one on the
same line. -/
def Covers (ts : List Token) (s : Span) : Prop :=
  ∃ front t back u, ts = front ++ t :: back ∧ u ∈ t :: back ∧ t.span.line = u.span.line ∧
    s = t.stretch u

/-- The tokens follow one another on one line. -/
def Row (ts : List Token) : Prop :=
  ts.Pairwise fun t u => t.span.line = u.span.line ∧ t.span.col + t.span.len ≤ u.span.col

/-- Wherever there is no line end, the tokens follow one another on one line. -/
def Rows (ts : List Token) : Prop :=
  ∀ us, us <:+: ts → (∀ u ∈ us, u.kind ≠ .newline) → Row us

@[simp] theorem stretch_self (t : Token) : t.stretch t = t.span := by
  unfold stretch
  rw [Nat.add_sub_cancel_left]

theorem covers_of_mem {ts : List Token} {t : Token} (h : t ∈ ts) : Covers ts t.span := by
  obtain ⟨front, back, rfl⟩ := List.append_of_mem h
  exact ⟨front, t, back, t, rfl, by simp, rfl, (stretch_self t).symm⟩

theorem Covers.widen {us ts : List Token} {s : Span} (h : Covers us s) (hus : us <:+: ts) :
    Covers ts s := by
  obtain ⟨front, t, back, u, rfl, hu, hline, hs⟩ := h
  obtain ⟨before, after, rfl⟩ := hus
  refine ⟨before ++ front, t, back ++ after, u, by simp, ?_, hline, hs⟩
  rw [← List.cons_append]
  exact List.mem_append_left _ hu

theorem Rows.part {us ts : List Token} (h : Rows ts) (hus : us <:+: ts) : Rows us :=
  fun vs hvs => h vs (hvs.trans hus)

theorem Row.part {us ts : List Token} (h : Row ts) (hus : us <:+: ts) : Row us :=
  h.sublist hus.sublist

theorem Row.head_le {t u : Token} {ts : List Token} (h : Row (t :: ts)) (hu : u ∈ t :: ts) :
    t.span.line = u.span.line ∧ t.span.col ≤ u.span.col := by
  rcases List.mem_cons.1 hu with rfl | hu
  · exact ⟨rfl, Nat.le_refl _⟩
  · obtain ⟨hline, hcol⟩ := (List.pairwise_cons.1 h).1 u hu
    exact ⟨hline, by omega⟩

/-- The tokens of a text stand in rows. -/
theorem rows_ofSource (source : String) : Rows (Token.ofSource source) := by
  rintro us ⟨before, after, hts⟩ hus
  have hlaid := Scanner.laid_ofSource source
  rw [← hts] at hlaid
  have hpairwise := hlaid.pairwise
  by_cases hne : us ++ after = []
  · rw [(List.append_eq_nil_iff.1 hne).1]
    exact List.Pairwise.nil
  rw [List.append_assoc] at hlaid hpairwise
  obtain ⟨front, rest, -, hrest⟩ := hlaid.suffix hne
  have hline := hrest.line_eq hus
  have hus' := (List.pairwise_append.1 (List.pairwise_append.1 hpairwise).2.1).1
  refine hus'.imp_of_mem fun {t u} ht hu h => ?_
  have heq : t.span.line = u.span.line := (hline t ht).trans (hline u hu).symm
  exact ⟨heq, by omega⟩

end Token

/-! ### Expressions and the tokens they are built from -/

namespace Expr

open Token

/-- All places in an expression, those of its operators included. -/
def spans : Expr → List Span
  | .binary op left right span => span :: op.span :: (left.spans ++ right.spans)
  | .unary op operand span => span :: op.span :: operand.spans
  | .paren inner span => span :: inner.spans
  | .var _ span => [span]
  | .literal _ span => [span]

/-- The expression is built from the tokens: they spell it, and its places are theirs.  The
rules of the grammar say more, how operators are grouped; here any grouping will do. -/
inductive Built (isName : Token → Prop) : List Token → Expr → Prop
  | binary {us vs : List Token} {t : Token} {op : BinOp} {left right : Expr}
      (hleft : Built isName us left) (ht : t.kind.binOp? = some op)
      (hright : Built isName vs right) :
      Built isName (us ++ t :: vs) (left.join ⟨op, t.span⟩ right)
  | unary {us : List Token} {t : Token} {op : UnOp} {e : Expr} (ht : t.kind.unOp? = some op)
      (h : Built isName us e) :
      Built isName (t :: us) (.unary ⟨op, t.span⟩ e (t.span.to e.span))
  | paren {us : List Token} {t c : Token} {e : Expr} (ht : t.kind = .sign .openParen)
      (h : Built isName us e) (hc : c.kind = .sign .closeParen) :
      Built isName (t :: us ++ [c]) (.paren e (t.span.to c.span))
  | var {t : Token} (ht : isName t) : Built isName [t] (.var t.lexeme t.span)
  | literal {t : Token} {v : Value} (ht : t.kind.value? = some v) :
      Built isName [t] (.literal v t.span)
  | smallest {t m : Token} (ht : t.kind = .sign (.arith .sub))
      (hm : m.kind = .fault .intOutOfRange)
      (hv : Numeral.read m.lexeme.toList = .whole (2 ^ 31)) :
      Built isName [t, m] (.literal (.int Int32.minValue) (t.span.to m.span))

variable {isName : Token → Prop}

/-- Putting an operand in front of a tree keeps the tokens in order. -/
theorem Built.prepend {us vs : List Token} {t : Token} {op : BinOp} {left right : Expr}
    (hleft : Built isName us left) (ht : t.kind.binOp? = some op)
    (hright : Built isName vs right) :
    Built isName (us ++ t :: vs) (left.prepend ⟨op, t.span⟩ right) := by
  induction hright with
  | @binary us' vs' t' op' l r hl ht' hr ihl _ =>
      rw [join, Expr.prepend]
      split
      · rw [← List.cons_append, ← List.append_assoc]
        exact .binary ihl ht' hr
      · exact .binary hleft ht (.binary hl ht' hr)
  | unary ht' h => exact .binary hleft ht (.unary ht' h)
  | paren ht' h hc => exact .binary hleft ht (.paren ht' h hc)
  | var ht' => exact .binary hleft ht (.var ht')
  | literal ht' => exact .binary hleft ht (.literal ht')
  | smallest ht' hm hv => exact .binary hleft ht (.smallest ht' hm hv)

/-- The first and the last of some tokens. -/
def Ends (us : List Token) (first last : Token) : Prop :=
  us.head? = some first ∧ us.getLast? = some last

theorem Ends.row {us : List Token} {first last u : Token} (h : Ends us first last)
    (hrow : Row us) (hu : u ∈ us) :
    first.span.line = u.span.line ∧ first.span.col ≤ u.span.col := by
  obtain ⟨rest, rfl⟩ := List.head?_eq_some_iff.1 h.1
  exact hrow.head_le hu

theorem Ends.first_mem {us : List Token} {first last : Token} (h : Ends us first last) :
    first ∈ us :=
  List.mem_of_head? h.1

theorem Ends.last_mem {us : List Token} {first last : Token} (h : Ends us first last) :
    last ∈ us :=
  List.mem_of_getLast? h.2

/-- Two stretches on a line, one behind the other, are joined to one. -/
theorem stretch_to {t u v w : Token} (hline : t.span.line = v.span.line)
    (hcol : t.span.col ≤ v.span.col) (hw : v.span.col ≤ w.span.col) :
    (t.stretch u).to (v.stretch w) = t.stretch w := by
  unfold Span.to
  rw [if_pos ⟨hline, hcol⟩]
  simp only [stretch, Span.mk.injEq, true_and]
  omega

theorem Built.span_eq {us : List Token} {e : Expr} (h : Built isName us e) (hrow : Row us) :
    ∃ first last, Ends us first last ∧ e.span = first.stretch last := by
  induction h with
  | @binary us vs t op left right _ _ _ ihl ihr =>
      obtain ⟨f, l, hends, hspan⟩ := ihl (hrow.part (List.prefix_append ..).isInfix)
      have hvs : vs <:+: us ++ t :: vs := ⟨us ++ [t], [], by simp⟩
      obtain ⟨f', l', hends', hspan'⟩ := ihr (hrow.part hvs)
      have hwhole : Ends (us ++ t :: vs) f l' := by
        refine ⟨?_, ?_⟩
        · rw [List.head?_append, hends.1]
          rfl
        · rw [List.getLast?_append, List.getLast?_cons, hends'.2]
          rfl
      obtain ⟨hline, hcol⟩ := hwhole.row hrow (hvs.subset hends'.first_mem)
      obtain ⟨-, hcol'⟩ := hends'.row (hrow.part hvs) hends'.last_mem
      refine ⟨f, l', hwhole, ?_⟩
      rw [join, Expr.span, hspan, hspan']
      exact stretch_to hline hcol hcol'
  | @unary us t op e _ _ ih =>
      have hus : us <:+: t :: us := (List.suffix_cons ..).isInfix
      obtain ⟨f, l, hends, hspan⟩ := ih (hrow.part hus)
      have hwhole : Ends (t :: us) t l := ⟨rfl, by rw [List.getLast?_cons, hends.2]; rfl⟩
      obtain ⟨hline, hcol⟩ := hwhole.row hrow (hus.subset hends.first_mem)
      obtain ⟨-, hcol'⟩ := hends.row (hrow.part hus) hends.last_mem
      refine ⟨t, l, hwhole, ?_⟩
      rw [Expr.span, hspan, ← stretch_self t]
      exact stretch_to hline hcol hcol'
  | @paren us t c e _ _ _ _ =>
      have hwhole : Ends (t :: us ++ [c]) t c := ⟨rfl, List.getLast?_concat ..⟩
      obtain ⟨hline, hcol⟩ := hwhole.row hrow hwhole.last_mem
      refine ⟨t, c, hwhole, ?_⟩
      rw [Expr.span, ← stretch_self t, ← stretch_self c]
      exact stretch_to hline hcol (Nat.le_refl _)
  | @var t _ => exact ⟨t, t, ⟨rfl, rfl⟩, (stretch_self t).symm⟩
  | @literal t v _ => exact ⟨t, t, ⟨rfl, rfl⟩, (stretch_self t).symm⟩
  | @smallest t m _ _ _ =>
      have hwhole : Ends [t, m] t m := ⟨rfl, rfl⟩
      obtain ⟨hline, hcol⟩ := hwhole.row hrow hwhole.last_mem
      refine ⟨t, m, hwhole, ?_⟩
      rw [Expr.span, ← stretch_self t, ← stretch_self m]
      exact stretch_to hline hcol (Nat.le_refl _)

theorem Built.covers_span {us : List Token} {e : Expr} (h : Built isName us e) (hrow : Row us) :
    Covers us e.span := by
  obtain ⟨first, last, hends, hspan⟩ := h.span_eq hrow
  obtain ⟨rest, rfl⟩ := List.head?_eq_some_iff.1 hends.1
  exact ⟨[], first, rest, last, rfl, hends.last_mem, (hends.row hrow hends.last_mem).1, hspan⟩

/-- Every place in an expression is a stretch between two of the tokens it is built
from. -/
theorem Built.covers {us : List Token} {e : Expr} (h : Built isName us e) (hrow : Row us) :
    ∀ s ∈ e.spans, Covers us s := by
  have hspan := h.covers_span hrow
  induction h with
  | @binary us vs t op left right hl _ hr ihl ihr =>
      have hus : us <:+: us ++ t :: vs := (List.prefix_append ..).isInfix
      have hvs : vs <:+: us ++ t :: vs := ⟨us ++ [t], [], by simp⟩
      rw [join, spans]
      simp only [List.forall_mem_cons, List.forall_mem_append]
      refine ⟨hspan, covers_of_mem (by simp), fun s hs => ?_, fun s hs => ?_⟩
      · exact (ihl (hrow.part hus) (hl.covers_span (hrow.part hus)) s hs).widen hus
      · exact (ihr (hrow.part hvs) (hr.covers_span (hrow.part hvs)) s hs).widen hvs
  | @unary us t op e _ h ih =>
      have hus : us <:+: t :: us := (List.suffix_cons ..).isInfix
      rw [spans]
      simp only [List.forall_mem_cons]
      refine ⟨hspan, covers_of_mem (by simp), fun s hs => ?_⟩
      exact (ih (hrow.part hus) (h.covers_span (hrow.part hus)) s hs).widen hus
  | @paren us t c e _ h _ ih =>
      have hus : us <:+: t :: us ++ [c] := ⟨[t], [c], by simp⟩
      rw [spans]
      simp only [List.forall_mem_cons]
      refine ⟨hspan, fun s hs => ?_⟩
      exact (ih (hrow.part hus) (h.covers_span (hrow.part hus)) s hs).widen hus
  | var => exact List.forall_mem_singleton.2 hspan
  | literal => exact List.forall_mem_singleton.2 hspan
  | smallest => exact List.forall_mem_singleton.2 hspan

end Expr

/-! ### Statements and the tokens they are read from -/

namespace Derivation

open Token Expr

section

variable {isName : Token → Prop}

mutual

theorem Operand.built {ts : List Token} {e : Expr} (h : Operand isName ts e) :
    Built isName ts e := by
  match h with
  | .lead ht h => exact .unary ht h.built
  | .smallest ht hm hv => exact .smallest ht hm hv
  | .name ht => exact .var ht
  | .literal ht => exact .literal (by rw [ht, Token.Kind.value?])
  | .escape ht => exact .literal (by rw [ht, Token.Kind.value?])
  | .paren ht h hc => exact .paren ht h.built hc

theorem Links.built {ts us : List Token} {links : List Link} {first : Expr}
    (h : Links isName ts links) (hfirst : Built isName us first) :
    Built isName (us ++ ts) (ofChain first links) := by
  match h with
  | .nil => simpa [ofChain] using hfirst
  | .cons ht h hs => exact hfirst.prepend ht (hs.built h.built)

theorem Expression.built {ts : List Token} {e : Expr} (h : Expression isName ts e) :
    Built isName ts e := by
  match h with
  | .chain h hs => exact hs.built h.built

end

theorem Condition.built {ts : List Token} {e : Expr} (h : Condition isName ts e) :
    Built isName ts e := by
  cases h with
  | mk ht h hc => exact .paren ht h.built hc

end

end Derivation

/-- All places in a declared name and its first value. -/
def Declarator.spans (d : Declarator) : List Span :=
  d.name.span :: (d.init.map Expr.spans).getD []

/-- All places in a part of what DISPLAY shows. -/
def Item.spans : Item → List Span
  | .newline span => [span]
  | .expr e => e.spans

mutual

/-- All places in a statement. -/
def Stmt.spans : Stmt → List Span
  | .declare _ vars span => span :: vars.flatMap Declarator.spans
  | .assign targets value span => span :: (targets.map Located.span ++ value.spans)
  | .display items span => span :: items.flatMap Item.spans
  | .scan targets span => span :: targets.map Located.span
  | .ifThen cond body otherwise span =>
    span :: (cond.spans ++ stmtSpans body ++ otherwise.spans)
  | .loop cond body span => span :: (cond.spans ++ stmtSpans body)

/-- All places in ELSE clauses. -/
def Otherwise.spans : Otherwise → List Span
  | .nothing => []
  | .elseIf cond body otherwise => cond.spans ++ stmtSpans body ++ otherwise.spans
  | .bare body => stmtSpans body

/-- All places in some statements. -/
def stmtSpans : List Stmt → List Span
  | [] => []
  | s :: rest => s.spans ++ stmtSpans rest

end

/-- All places in a program. -/
def Program.spans (p : Program) : List Span :=
  p.span :: stmtSpans p.body

namespace Derivation

open Token

section

variable {isName : Token → Prop}

theorem newline_ne_of_calm {t : Token} (h : Calm true t) : t.kind ≠ .newline := by
  intro hk
  simp [Calm, hk] at h

theorem Expression.covers (hname : ∀ t, isName t → Calm true t) {ts : List Token} {e : Expr}
    (h : Expression isName ts e) (hrows : Rows ts) : ∀ s ∈ e.spans, Covers ts s :=
  h.built.covers (hrows ts (List.infix_refl ts) fun t ht => newline_ne_of_calm (h.calm hname t ht))

theorem Condition.covers (hname : ∀ t, isName t → Calm true t) {ts : List Token} {e : Expr}
    (h : Condition isName ts e) (hrows : Rows ts) : ∀ s ∈ e.spans, Covers ts s := by
  refine h.built.covers (hrows ts (List.infix_refl ts) fun t ht => ?_)
  cases h with
  | @mk o c us e ho he hc =>
      simp only [List.cons_append, List.mem_cons, List.mem_append, List.not_mem_nil, or_false] at ht
      rcases ht with rfl | ht | rfl
      · simp [ho]
      · exact newline_ne_of_calm (he.calm hname t ht)
      · simp [hc]

/-- What some of the tokens cover, all of them cover. -/
theorem covers_within {us ts : List Token} {ss : List Span} (hus : us <:+: ts) (hrows : Rows ts)
    (h : Rows us → ∀ s ∈ ss, Covers us s) : ∀ s ∈ ss, Covers ts s :=
  fun s hs => (h (hrows.part hus) s hs).widen hus

theorem Separated.covers {α : Type} {sign : Sign} {rule : List Token → α → Prop}
    {spans : α → List Span}
    (hrule : ∀ us a, rule us a → Rows us → ∀ s ∈ spans a, Covers us s) {ts : List Token}
    {as : List α} (h : Separated sign rule ts as) (hrows : Rows ts) :
    ∀ a ∈ as, ∀ s ∈ spans a, Covers ts s := by
  induction h with
  | one h => exact List.forall_mem_singleton.2 (hrule _ _ h hrows)
  | @cons ts us c a as h hc hs ih =>
      have hus : us <:+: ts ++ c :: us := ⟨ts ++ [c], [], by simp⟩
      refine List.forall_mem_cons.2 ⟨?_, fun b hb => ?_⟩
      · exact covers_within (List.prefix_append ..).isInfix hrows (hrule _ _ h)
      · exact covers_within hus hrows fun hrows' => ih hrows' b hb

theorem Reference.covers {ts : List Token} {n : Name} (h : Reference isName ts n) :
    Covers ts n.span := by
  cases h with
  | mk _ => exact covers_of_mem (by simp)

theorem Shown.covers (hname : ∀ t, isName t → Calm true t) {ts : List Token} {i : Item}
    (h : Shown isName ts i) (hrows : Rows ts) : ∀ s ∈ i.spans, Covers ts s := by
  cases h with
  | newline _ => exact List.forall_mem_singleton.2 (covers_of_mem (by simp))
  | expr h => exact h.covers hname hrows

theorem Assigned.covers (hname : ∀ t, isName t → Calm true t) {ts : List Token}
    {targets : List Name} {e : Expr} (h : Assigned isName ts targets e) (hrows : Rows ts) :
    (∀ n ∈ targets, Covers ts n.span) ∧ ∀ s ∈ e.spans, Covers ts s := by
  induction h with
  | value h => exact ⟨by simp, h.covers hname hrows⟩
  | @target t a ts targets e ht ha h ih =>
      have hts : ts <:+: t :: a :: ts := ⟨[t, a], [], by simp⟩
      obtain ⟨htargets, hvalue⟩ := ih (hrows.part hts)
      refine ⟨List.forall_mem_cons.2 ⟨covers_of_mem (by simp), fun n hn => ?_⟩, fun s hs => ?_⟩
      · exact (htargets n hn).widen hts
      · exact (hvalue s hs).widen hts

mutual

theorem Statement.covers (hname : ∀ t, isName t → Calm true t) {ts : List Token} {s : Stmt}
    (h : Statement isName ts s) (hrows : Rows ts) : ∀ span ∈ s.spans, Covers ts span := by
  match h with
  | @Statement.assign _ t a nl ts targets e ht ha h hn =>
      have hts : ts <:+: t :: a :: ts ++ [nl] := ⟨[t, a], [nl], by simp⟩
      obtain ⟨htargets, hvalue⟩ := h.covers hname (hrows.part hts)
      rw [Stmt.spans]
      simp only [List.map_cons, List.cons_append, List.forall_mem_cons, List.forall_mem_append,
        List.forall_mem_map]
      refine ⟨covers_of_mem (by simp), covers_of_mem (by simp), fun n hn => ?_, fun s hs => ?_⟩
      · exact (htargets n hn).widen hts
      · exact (hvalue s hs).widen hts
  | @Statement.display _ t c nl ts items ht hc h hn =>
      have hts : ts <:+: t :: c :: ts ++ [nl] := ⟨[t, c], [nl], by simp⟩
      have hitems := h.covers (fun _ _ hi hr => hi.covers hname hr) (hrows.part hts)
      rw [Stmt.spans]
      refine List.forall_mem_cons.2 ⟨covers_of_mem (by simp), fun s hs => ?_⟩
      obtain ⟨i, hi, hs⟩ := List.mem_flatMap.1 hs
      exact (hitems i hi s hs).widen hts
  | @Statement.scan _ t c nl ts targets ht hc h hn =>
      have hts : ts <:+: t :: c :: ts ++ [nl] := ⟨[t, c], [nl], by simp⟩
      have hnames : ∀ n ∈ targets, ∀ s ∈ [n.span], Covers ts s :=
        h.covers (fun _ _ hr _ => List.forall_mem_singleton.2 hr.covers) (hrows.part hts)
      rw [Stmt.spans]
      simp only [List.forall_mem_cons, List.forall_mem_map]
      exact ⟨covers_of_mem (by simp), fun n hn => (hnames n hn _ (by simp)).widen hts⟩
  | @Statement.ifThen _ t nl ts us vs cond body o ht hc hb hn ho =>
      rw [Stmt.spans]
      simp only [List.forall_mem_cons, List.forall_mem_append]
      refine ⟨covers_of_mem (by simp), ⟨?_, ?_⟩, ?_⟩
      · exact covers_within ⟨[t], us ++ nl :: vs, by simp⟩ hrows (hc.covers hname)
      · exact covers_within ⟨t :: ts, nl :: vs, by simp⟩ hrows (hb.covers hname)
      · exact covers_within ⟨t :: ts ++ us ++ [nl], [], by simp⟩ hrows (ho.covers hname)
  | @Statement.loop _ t nl ts us cond body ht hc hb hn =>
      rw [Stmt.spans]
      simp only [List.forall_mem_cons, List.forall_mem_append]
      refine ⟨covers_of_mem (by simp), ?_, ?_⟩
      · exact covers_within ⟨[t], us ++ [nl], by simp⟩ hrows (hc.covers hname)
      · exact covers_within ⟨t :: ts, [nl], by simp⟩ hrows (hb.covers hname)

theorem Clauses.covers (hname : ∀ t, isName t → Calm true t) {ts : List Token} {o : Otherwise}
    (h : Clauses isName ts o) (hrows : Rows ts) : ∀ span ∈ o.spans, Covers ts span := by
  match h with
  | .nothing => simp [Otherwise.spans]
  | @Clauses.elseIf _ t i nl ns ts us vs cond body o hns ht hi hc hb hn ho =>
      rw [Otherwise.spans]
      simp only [List.forall_mem_append]
      refine ⟨⟨?_, ?_⟩, ?_⟩
      · exact covers_within ⟨ns ++ [t, i], us ++ nl :: vs, by simp⟩ hrows (hc.covers hname)
      · exact covers_within ⟨ns ++ t :: i :: ts, nl :: vs, by simp⟩ hrows (hb.covers hname)
      · exact covers_within ⟨ns ++ t :: i :: ts ++ us ++ [nl], [], by simp⟩ hrows
          (ho.covers hname)
  | @Clauses.bare _ t nl ns us body hns ht hb hn =>
      rw [Otherwise.spans]
      exact covers_within ⟨ns ++ [t], [nl], by simp⟩ hrows (hb.covers hname)

theorem Body.covers (hname : ∀ t, isName t → Calm true t) {k : Keyword} {ts : List Token}
    {body : List Stmt} (h : Body isName k ts body) (hrows : Rows ts) :
    ∀ span ∈ stmtSpans body, Covers ts span := by
  match h with
  | @Body.mk _ _ b bk nl e ek ns ts body hns hb hbk hn h he hek =>
      exact covers_within ⟨ns ++ [b, bk, nl], [e, ek], by simp⟩ hrows (h.covers hname)

theorem Block.covers (hname : ∀ t, isName t → Calm true t) {ts : List Token} {body : List Stmt}
    (h : Block isName ts body) (hrows : Rows ts) : ∀ span ∈ stmtSpans body, Covers ts span := by
  match h with
  | .nil _ => simp [stmtSpans]
  | @Block.cons _ ns ts us s rest hns h hs =>
      rw [stmtSpans]
      simp only [List.forall_mem_append]
      refine ⟨?_, ?_⟩
      · exact covers_within ⟨ns, us, by simp⟩ hrows (h.covers hname)
      · exact covers_within ⟨ns ++ ts, [], by simp⟩ hrows (hs.covers hname)

end

end

section

variable {n : Naming} {known : List String}

theorem Declared.covers (hname : ∀ known t, n.isName known t → Calm true t) {ts : List Token}
    {d : Declarator} (h : Declared n known ts d) (hrows : Rows ts) :
    ∀ s ∈ d.spans, Covers ts s := by
  cases h with
  | bare _ => exact List.forall_mem_singleton.2 (covers_of_mem (by simp))
  | @init t a ts e ht ha h =>
      refine List.forall_mem_cons.2 ⟨covers_of_mem (by simp), ?_⟩
      exact covers_within ⟨[t, a], [], by simp⟩ hrows (h.covers (hname _))

theorem Declaration.covers (hname : ∀ known t, n.isName known t → Calm true t)
    {ts : List Token} {vars : List Declarator} (h : Declaration n known ts vars)
    (hrows : Rows ts) : ∀ d ∈ vars, ∀ s ∈ d.spans, Covers ts s := by
  induction h with
  | one h => exact List.forall_mem_singleton.2 (h.covers hname hrows)
  | @cons known ts us c d vars h hc hs ih =>
      refine List.forall_mem_cons.2 ⟨?_, fun d' hd' => ?_⟩
      · exact covers_within (List.prefix_append ..).isInfix hrows (h.covers hname)
      · exact covers_within ⟨ts ++ [c], [], by simp⟩ hrows fun hrows' => ih hrows' d' hd'

theorem Sequence.covers (hname : ∀ known t, n.isName known t → Calm true t) {ts : List Token}
    {body : List Stmt} (h : Sequence n known ts body) (hrows : Rows ts) :
    ∀ span ∈ stmtSpans body, Covers ts span := by
  induction h with
  | block h => exact h.covers (hname _) hrows
  | @declare known t nl ty ns ts us vars rest hns ht h hn hs ih =>
      rw [stmtSpans, Stmt.spans]
      simp only [List.cons_append, List.forall_mem_cons, List.forall_mem_append]
      refine ⟨covers_of_mem (by simp), fun s hs => ?_, ?_⟩
      · obtain ⟨d, hd, hs⟩ := List.mem_flatMap.1 hs
        exact covers_within ⟨ns ++ [t], nl :: us, by simp⟩ hrows
          (fun hrows' => h.covers hname hrows' d hd) s hs
      · exact covers_within ⟨ns ++ t :: ts ++ [nl], [], by simp⟩ hrows ih

theorem Whole.covers (hname : ∀ known t, n.isName known t → Calm true t) {ts : List Token}
    {p : Program} (h : Whole n ts p) (hrows : Rows ts) : ∀ span ∈ p.spans, Covers ts span := by
  cases h with
  | @mk b bc nl e ec eof ns ts ms body hns hb hbc hn h he hec hms heof =>
      refine List.forall_mem_cons.2 ⟨covers_of_mem (by simp), ?_⟩
      exact covers_within ⟨ns ++ [b, bc, nl], e :: ec :: ms ++ [eof], by simp⟩ hrows
        (h.covers hname)

end

end Derivation

/-- **Every place in a program is a stretch between two tokens of its text.** -/
theorem Program.covers_of_parse {source : String} {p : Program} (h : parse source = .ok p) :
    ∀ span ∈ p.spans, Token.Covers (Token.ofSource source) span :=
  (parse_eq_ok_iff.1 h).covers Derivation.calm_of_written (Token.rows_ofSource source)

end Pseudocode

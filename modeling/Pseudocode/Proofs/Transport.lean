/-
Carrying a derivation over to other tokens, one by one.

A rule looks at a token in two ways: it asks for a kind, or it asks whether the token is a
name.  When the tokens of a phrase are replaced by tokens that answer both questions alike,
and that have the same spelling and place, the phrase is still derivable, and with the
same tree.
-/
import Mathlib.Data.List.Forall2
import Pseudocode.Proofs.Derivation

namespace Pseudocode.Derivation

/-- `t'` can stand for `t` in a derivation with other names. -/
structure Replaces (isName isName' : Token → Prop) (t t' : Token) : Prop where
  lexeme : t'.lexeme = t.lexeme
  span : t'.span = t.span
  name : isName t → isName' t'
  kind : (∀ r, t.kind ≠ .fault (.wrongCase r)) → t.kind ≠ .name → t'.kind = t.kind

variable {isName isName' : Token → Prop}

theorem Replaces.of_kind {t t' : Token} {k : Token.Kind} (h : Replaces isName isName' t t')
    (hk : t.kind = k) (hwrong : ∀ r, k ≠ .fault (.wrongCase r)) (hname : k ≠ .name) :
    t'.kind = k := by
  rw [h.kind (by rw [hk]; exact hwrong) (by rw [hk]; exact hname), hk]

theorem forall₂_append_inv {α β : Type} {R : α → β → Prop} {as bs : List α} {cs : List β}
    (h : List.Forall₂ R (as ++ bs) cs) :
    ∃ xs ys, cs = xs ++ ys ∧ List.Forall₂ R as xs ∧ List.Forall₂ R bs ys := by
  refine ⟨cs.take as.length, cs.drop as.length, (List.take_append_drop _ _).symm, ?_, ?_⟩
  · simpa using List.forall₂_take as.length h
  · simpa using List.forall₂_drop as.length h

theorem forall₂_cons_inv {α β : Type} {R : α → β → Prop} {a : α} {as : List α} {cs : List β}
    (h : List.Forall₂ R (a :: as) cs) :
    ∃ x xs, cs = x :: xs ∧ R a x ∧ List.Forall₂ R as xs := by
  cases h with
  | cons hx hxs => exact ⟨_, _, rfl, hx, hxs⟩

theorem forall₂_singleton_inv {α β : Type} {R : α → β → Prop} {a : α} {cs : List β}
    (h : List.Forall₂ R [a] cs) : ∃ x, cs = [x] ∧ R a x := by
  obtain ⟨x, xs, rfl, hx, hxs⟩ := forall₂_cons_inv h
  cases hxs
  exact ⟨x, rfl, hx⟩

/-! ### Expressions -/

mutual

theorem Operand.transport {ts us : List Token} {e : Expr} (h : Operand isName ts e)
    (hr : List.Forall₂ (Replaces isName isName') ts us) : Operand isName' us e := by
  match h with
  | @Operand.lead _ t op ts e ht h =>
      obtain ⟨u, us, rfl, hu, hus⟩ := forall₂_cons_inv hr
      have hk : u.kind = t.kind := by
        refine hu.kind (fun r hc => ?_) (fun hc => ?_)
        all_goals
          rw [hc] at ht
          simp [Token.Kind.unOp?] at ht
      rw [← hu.span]
      exact .lead (by rw [hk]; exact ht) (h.transport hus)
  | @Operand.smallest _ t m ht hm hv =>
      obtain ⟨u, us, rfl, hu, hus⟩ := forall₂_cons_inv hr
      obtain ⟨w, rfl, hw⟩ := forall₂_singleton_inv hus
      rw [← hu.span, ← hw.span]
      exact .smallest (hu.of_kind ht (by simp) (by simp)) (hw.of_kind hm (by simp) (by simp))
        (by rw [hw.lexeme]; exact hv)
  | @Operand.name _ t ht =>
      obtain ⟨u, rfl, hu⟩ := forall₂_singleton_inv hr
      rw [← hu.span, ← hu.lexeme]
      exact .name (hu.name ht)
  | @Operand.literal _ t v ht =>
      obtain ⟨u, rfl, hu⟩ := forall₂_singleton_inv hr
      rw [← hu.span]
      exact .literal (hu.of_kind ht (by simp) (by simp))
  | @Operand.escape _ t c ht =>
      obtain ⟨u, rfl, hu⟩ := forall₂_singleton_inv hr
      rw [← hu.span]
      exact .escape (hu.of_kind ht (by simp) (by simp))
  | @Operand.paren _ t c ts e ht h hc =>
      obtain ⟨u, us, rfl, hu, hus⟩ := forall₂_cons_inv hr
      obtain ⟨vs, ws, rfl, hvs, hws⟩ := forall₂_append_inv hus
      obtain ⟨w, rfl, hw⟩ := forall₂_singleton_inv hws
      rw [← hu.span, ← hw.span]
      exact .paren (hu.of_kind ht (by simp) (by simp)) (h.transport hvs)
        (hw.of_kind hc (by simp) (by simp))

theorem Links.transport {ts us : List Token} {links : List Link} (h : Links isName ts links)
    (hr : List.Forall₂ (Replaces isName isName') ts us) : Links isName' us links := by
  match h with
  | .nil =>
      obtain rfl := List.forall₂_nil_left_iff.1 hr
      exact .nil
  | @Links.cons _ t op ts vs e links ht h hs =>
      obtain ⟨u, us, rfl, hu, hus⟩ := forall₂_cons_inv hr
      obtain ⟨xs, ys, rfl, hxs, hys⟩ := forall₂_append_inv hus
      have hk : u.kind = t.kind := by
        refine hu.kind (fun r hc => ?_) (fun hc => ?_)
        all_goals
          rw [hc] at ht
          simp [Token.Kind.binOp?] at ht
      rw [← hu.span]
      exact .cons (by rw [hk]; exact ht) (h.transport hxs) (hs.transport hys)

theorem Expression.transport {ts us : List Token} {e : Expr} (h : Expression isName ts e)
    (hr : List.Forall₂ (Replaces isName isName') ts us) : Expression isName' us e := by
  match h with
  | .chain h hs =>
      obtain ⟨xs, ys, rfl, hxs, hys⟩ := forall₂_append_inv hr
      exact .chain (h.transport hxs) (hs.transport hys)

end

/-! ### Statements -/

theorem Separated.transport {α : Type} {sign : Sign} {rule rule' : List Token → α → Prop}
    (hrule : ∀ ts us a, rule ts a → List.Forall₂ (Replaces isName isName') ts us → rule' us a)
    {ts us : List Token} {as : List α} (h : Separated sign rule ts as)
    (hr : List.Forall₂ (Replaces isName isName') ts us) : Separated sign rule' us as := by
  induction h generalizing us with
  | one h => exact .one (hrule _ _ _ h hr)
  | cons h hc _ ih =>
      obtain ⟨xs, ys, rfl, hxs, hys⟩ := forall₂_append_inv hr
      obtain ⟨u, us, rfl, hu, hus⟩ := forall₂_cons_inv hys
      exact .cons (hrule _ _ _ h hxs) (hu.of_kind hc (by simp) (by simp)) (ih hus)

theorem Shown.transport {ts us : List Token} {i : Item} (h : Shown isName ts i)
    (hr : List.Forall₂ (Replaces isName isName') ts us) : Shown isName' us i := by
  cases h with
  | @newline t ht =>
      obtain ⟨u, rfl, hu⟩ := forall₂_singleton_inv hr
      rw [← hu.span]
      exact .newline (hu.of_kind ht (by simp) (by simp))
  | expr h => exact .expr (h.transport hr)

theorem Reference.transport {ts us : List Token} {n : Name} (h : Reference isName ts n)
    (hr : List.Forall₂ (Replaces isName isName') ts us) : Reference isName' us n := by
  cases h with
  | @mk t ht =>
      obtain ⟨u, rfl, hu⟩ := forall₂_singleton_inv hr
      rw [← hu.span, ← hu.lexeme]
      exact .mk (hu.name ht)

theorem Assigned.transport {ts us : List Token} {targets : List Name} {e : Expr}
    (h : Assigned isName ts targets e) (hr : List.Forall₂ (Replaces isName isName') ts us) :
    Assigned isName' us targets e := by
  induction h generalizing us with
  | value h => exact .value (h.transport hr)
  | @target t a ts targets e ht ha h ih =>
      obtain ⟨u, us, rfl, hu, hus⟩ := forall₂_cons_inv hr
      obtain ⟨w, ws, rfl, hw, hws⟩ := forall₂_cons_inv hus
      rw [← hu.span, ← hu.lexeme]
      exact .target (hu.name ht) (hw.of_kind ha (by simp) (by simp)) (ih hws)

theorem Condition.transport {ts us : List Token} {e : Expr} (h : Condition isName ts e)
    (hr : List.Forall₂ (Replaces isName isName') ts us) : Condition isName' us e := by
  cases h with
  | @mk t c ts e ht h hc =>
      obtain ⟨u, us, rfl, hu, hus⟩ := forall₂_cons_inv hr
      obtain ⟨vs, ws, rfl, hvs, hws⟩ := forall₂_append_inv hus
      obtain ⟨w, rfl, hw⟩ := forall₂_singleton_inv hws
      rw [← hu.span, ← hw.span]
      exact .mk (hu.of_kind ht (by simp) (by simp)) (h.transport hvs)
        (hw.of_kind hc (by simp) (by simp))

theorem Newlines.transport {ns us : List Token} (h : Newlines ns)
    (hr : List.Forall₂ (Replaces isName isName') ns us) : Newlines us := by
  induction hr with
  | nil => exact h
  | @cons t u ns us hu hus ih =>
      intro w hw
      rcases List.mem_cons.1 hw with rfl | hw
      · exact hu.of_kind (h t (by simp)) (by simp) (by simp)
      · exact ih (fun v hv => h v (by simp [hv])) w hw

mutual

theorem Statement.transport {ts us : List Token} {s : Stmt} (h : Statement isName ts s)
    (hr : List.Forall₂ (Replaces isName isName') ts us) : Statement isName' us s := by
  match h with
  | @Statement.assign _ t a nl ts targets e ht ha h hn =>
      obtain ⟨u, us, rfl, hu, hus⟩ := forall₂_cons_inv hr
      obtain ⟨w, ws, rfl, hw, hws⟩ := forall₂_cons_inv hus
      obtain ⟨vs, xs, rfl, hvs, hxs⟩ := forall₂_append_inv hws
      obtain ⟨x, rfl, hx⟩ := forall₂_singleton_inv hxs
      rw [← hu.span, ← hu.lexeme]
      exact .assign (hu.name ht) (hw.of_kind ha (by simp) (by simp)) (h.transport hvs)
        (hx.of_kind hn (by simp) (by simp))
  | @Statement.display _ t c nl ts items ht hc h hn =>
      obtain ⟨u, us, rfl, hu, hus⟩ := forall₂_cons_inv hr
      obtain ⟨w, ws, rfl, hw, hws⟩ := forall₂_cons_inv hus
      obtain ⟨vs, xs, rfl, hvs, hxs⟩ := forall₂_append_inv hws
      obtain ⟨x, rfl, hx⟩ := forall₂_singleton_inv hxs
      rw [← hu.span]
      exact .display (hu.of_kind ht (by simp) (by simp)) (hw.of_kind hc (by simp) (by simp))
        (h.transport (fun _ _ _ h hr => h.transport hr) hvs) (hx.of_kind hn (by simp) (by simp))
  | @Statement.scan _ t c nl ts targets ht hc h hn =>
      obtain ⟨u, us, rfl, hu, hus⟩ := forall₂_cons_inv hr
      obtain ⟨w, ws, rfl, hw, hws⟩ := forall₂_cons_inv hus
      obtain ⟨vs, xs, rfl, hvs, hxs⟩ := forall₂_append_inv hws
      obtain ⟨x, rfl, hx⟩ := forall₂_singleton_inv hxs
      rw [← hu.span]
      exact .scan (hu.of_kind ht (by simp) (by simp)) (hw.of_kind hc (by simp) (by simp))
        (h.transport (fun _ _ _ h hr => h.transport hr) hvs) (hx.of_kind hn (by simp) (by simp))
  | @Statement.ifThen _ t nl ts us vs cond body o ht hc hb hn ho =>
      obtain ⟨front, ys, rfl, hfront, hys⟩ := forall₂_append_inv hr
      obtain ⟨x, ys, rfl, hx, hys⟩ := forall₂_cons_inv hys
      obtain ⟨front, ws, rfl, hfront, hws⟩ := forall₂_append_inv hfront
      obtain ⟨u, cs, rfl, hu, hcs⟩ := forall₂_cons_inv hfront
      rw [← hu.span]
      exact .ifThen (hu.of_kind ht (by simp) (by simp)) (hc.transport hcs) (hb.transport hws)
        (hx.of_kind hn (by simp) (by simp)) (ho.transport hys)
  | @Statement.loop _ t nl ts us cond body ht hc hb hn =>
      obtain ⟨front, ys, rfl, hfront, hys⟩ := forall₂_append_inv hr
      obtain ⟨x, rfl, hx⟩ := forall₂_singleton_inv hys
      obtain ⟨front, ws, rfl, hfront, hws⟩ := forall₂_append_inv hfront
      obtain ⟨u, cs, rfl, hu, hcs⟩ := forall₂_cons_inv hfront
      rw [← hu.span]
      exact .loop (hu.of_kind ht (by simp) (by simp)) (hc.transport hcs) (hb.transport hws)
        (hx.of_kind hn (by simp) (by simp))

theorem Clauses.transport {ts us : List Token} {o : Otherwise} (h : Clauses isName ts o)
    (hr : List.Forall₂ (Replaces isName isName') ts us) : Clauses isName' us o := by
  match h with
  | .nothing =>
      cases hr
      exact .nothing
  | @Clauses.elseIf _ t i nl ns ts us vs cond body o hns ht hi hc hb hn ho =>
      obtain ⟨front, ys, rfl, hfront, hys⟩ := forall₂_append_inv hr
      obtain ⟨x, ys, rfl, hx, hys⟩ := forall₂_cons_inv hys
      obtain ⟨front, ws, rfl, hfront, hws⟩ := forall₂_append_inv hfront
      obtain ⟨ms, front, rfl, hms, hfront⟩ := forall₂_append_inv hfront
      obtain ⟨u, front, rfl, hu, hfront⟩ := forall₂_cons_inv hfront
      obtain ⟨w, cs, rfl, hw, hcs⟩ := forall₂_cons_inv hfront
      exact .elseIf (hns.transport hms) (hu.of_kind ht (by simp) (by simp))
        (hw.of_kind hi (by simp) (by simp)) (hc.transport hcs) (hb.transport hws)
        (hx.of_kind hn (by simp) (by simp)) (ho.transport hys)
  | @Clauses.bare _ t nl ns us body hns ht hb hn =>
      obtain ⟨front, ys, rfl, hfront, hys⟩ := forall₂_append_inv hr
      obtain ⟨x, rfl, hx⟩ := forall₂_singleton_inv hys
      obtain ⟨ms, front, rfl, hms, hfront⟩ := forall₂_append_inv hfront
      obtain ⟨u, ws, rfl, hu, hws⟩ := forall₂_cons_inv hfront
      exact .bare (hns.transport hms) (hu.of_kind ht (by simp) (by simp)) (hb.transport hws)
        (hx.of_kind hn (by simp) (by simp))

theorem Body.transport {k : Keyword} {ts us : List Token} {body : List Stmt}
    (h : Body isName k ts body) (hr : List.Forall₂ (Replaces isName isName') ts us) :
    Body isName' k us body := by
  match h with
  | @Body.mk _ k b bk nl e ek ns ts body hns hb hbk hn h he hek =>
      obtain ⟨front, ys, rfl, hfront, hys⟩ := forall₂_append_inv hr
      obtain ⟨y, ys, rfl, hy, hys⟩ := forall₂_cons_inv hys
      obtain ⟨z, rfl, hz⟩ := forall₂_singleton_inv hys
      obtain ⟨ms, front, rfl, hms, hfront⟩ := forall₂_append_inv hfront
      obtain ⟨u, front, rfl, hu, hfront⟩ := forall₂_cons_inv hfront
      obtain ⟨w, front, rfl, hw, hfront⟩ := forall₂_cons_inv hfront
      obtain ⟨x, vs, rfl, hx, hvs⟩ := forall₂_cons_inv hfront
      exact .mk (hns.transport hms) (hu.of_kind hb (by simp) (by simp))
        (hw.of_kind hbk (by simp) (by simp)) (hx.of_kind hn (by simp) (by simp))
        (h.transport hvs) (hy.of_kind he (by simp) (by simp)) (hz.of_kind hek (by simp) (by simp))

theorem Block.transport {ts us : List Token} {body : List Stmt} (h : Block isName ts body)
    (hr : List.Forall₂ (Replaces isName isName') ts us) : Block isName' us body := by
  match h with
  | .nil hns => exact .nil (hns.transport hr)
  | .cons hns h hs =>
      obtain ⟨front, ys, rfl, hfront, hys⟩ := forall₂_append_inv hr
      obtain ⟨ms, xs, rfl, hms, hxs⟩ := forall₂_append_inv hfront
      exact .cons (hns.transport hms) (h.transport hxs) (hs.transport hys)

end

end Pseudocode.Derivation

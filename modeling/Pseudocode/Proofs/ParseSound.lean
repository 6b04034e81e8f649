/-
What is read is derivable.

The tokens that reading a phrase takes off the front spell that phrase by the rules of
the grammar, and the tree read is the one the rules give.  The proof follows the
reading: a lemma for each of its functions, by induction on the bound where the function
has one.

Two things are taken out of step.  A statement that is not followed by a line end is
accepted when it is followed by the end of input; then no END can follow, so the block
around it is refused, and `AtEnd` carries this case up to there.  And reading an IF takes
the empty lines behind it, which the rules leave to the block.
-/
import Pseudocode.Proofs.GrammarSteps

namespace Pseudocode

open Grammar Derivation

namespace Expr

/-! ### Expressions -/

theorem primary_reads {expression : Phrase Expr}
    (hexpr : Reads expression (Expression Token.IsName)) {t : Token} {ts rest : List Token}
    {e : Expr} (h : primary expression t ts = .ok (e, rest)) :
    ∃ us, ts = us ++ rest ∧ Operand Token.IsName (t :: us) e := by
  unfold primary at h
  cases hk : t.kind with
  | name =>
      rw [hk] at h
      cases h
      exact ⟨[], rfl, .name hk⟩
  | literal v =>
      rw [hk] at h
      cases h
      exact ⟨[], rfl, .literal hk⟩
  | escape c =>
      rw [hk] at h
      cases h
      exact ⟨[], rfl, .escape hk⟩
  | sign sign =>
      rw [hk] at h
      cases sign with
      | openParen =>
          obtain ⟨⟨e', us⟩, he, h⟩ := bind_eq_ok.1 h
          obtain ⟨⟨c, ws⟩, hc, h⟩ := bind_eq_ok.1 h
          simp only [pure_eq_ok, Prod.mk.injEq] at h
          obtain ⟨rfl, rfl⟩ := h
          obtain ⟨vs, rfl, hv⟩ := hexpr _ _ _ he
          obtain ⟨rfl, hck⟩ := (expect_eq_ok (by decide)).1 hc
          exact ⟨vs ++ [c], by simp, .paren hk hv hck⟩
      | _ => cases h
  | _ =>
      rw [hk] at h
      cases h

theorem operand_reads {expression : Phrase Expr}
    (hexpr : Reads expression (Expression Token.IsName)) :
    Reads (operand expression) (Operand Token.IsName) := by
  intro ts
  induction ts with
  | nil => intro e rest h; simp [operand] at h
  | cons t ts ih =>
      intro e rest h
      rw [operand] at h
      split at h
      · rename_i op hop
        split at h
        · -- A minus sign and the digits of the smallest INT.
          rename_i hmin
          simp only [isSmallestMagnitude, Bool.and_eq_true, decide_eq_true_eq] at hmin
          obtain ⟨rfl, hkind, hread⟩ := hmin
          simp only [Except.ok.injEq, Prod.mk.injEq] at h
          obtain ⟨rfl, rfl⟩ := h
          cases ts with
          | nil => simp at hkind
          | cons m ts =>
              refine ⟨[t, m], rfl, .smallest ?_ hkind hread⟩
              generalize t.kind = k at hop
              unfold Token.Kind.unOp? at hop
              split at hop <;> simp at hop
              rfl
        · obtain ⟨⟨e', us⟩, he, h⟩ := bind_eq_ok.1 h
          simp only [pure_eq_ok, Prod.mk.injEq] at h
          obtain ⟨rfl, rfl⟩ := h
          obtain ⟨vs, rfl, hv⟩ := ih _ _ he
          exact ⟨t :: vs, rfl, .lead hop hv⟩
      · obtain ⟨us, rfl, hu⟩ := primary_reads hexpr h
        exact ⟨t :: us, rfl, hu⟩

theorem many_link_reads {expression : Phrase Expr}
    (hexpr : Reads expression (Expression Token.IsName)) (fuel : Nat) :
    Reads (many (fun ts => (peek ts).kind.binOp?.isSome) (link expression) fuel)
      (Links Token.IsName) := by
  induction fuel with
  | zero =>
      intro ts links rest h
      simp only [many, Except.ok.injEq, Prod.mk.injEq] at h
      obtain ⟨rfl, rfl⟩ := h
      exact ⟨[], rfl, .nil⟩
  | succ fuel ih =>
      intro ts links rest h
      rw [many] at h
      split at h
      · obtain ⟨⟨l, us⟩, hl, h⟩ := bind_eq_ok.1 h
        obtain ⟨⟨ls, vs⟩, hls, h⟩ := bind_eq_ok.1 h
        simp only [pure_eq_ok, Prod.mk.injEq] at h
        obtain ⟨rfl, rfl⟩ := h
        obtain ⟨ws, rfl, hw⟩ := ih _ _ _ hls
        simp only [link] at hl
        split at hl
        · simp at hl
        · rename_i op hop
          obtain ⟨⟨e, xs⟩, he, hl⟩ := bind_eq_ok.1 hl
          simp only [pure_eq_ok, Prod.mk.injEq] at hl
          obtain ⟨rfl, rfl⟩ := hl
          cases ts with
          | nil => simp [Token.Kind.binOp?] at hop
          | cons t ts =>
              obtain ⟨ys, hy, hoperand⟩ := operand_reads hexpr _ _ _ he
              rw [List.tail_cons] at hy
              exact ⟨t :: ys ++ ws, by rw [hy]; simp, .cons hop hoperand hw⟩
      · simp only [Except.ok.injEq, Prod.mk.injEq] at h
        obtain ⟨rfl, rfl⟩ := h
        exact ⟨[], rfl, .nil⟩

theorem parseWithin_reads (fuel : Nat) :
    Reads (parseWithin fuel) (Expression Token.IsName) := by
  induction fuel with
  | zero => intro ts e rest h; simp [parseWithin] at h
  | succ fuel ih =>
      intro ts e rest h
      obtain ⟨⟨first, us⟩, hfirst, h⟩ := bind_eq_ok.1 h
      obtain ⟨⟨links, vs⟩, hlinks, h⟩ := bind_eq_ok.1 h
      simp only [pure_eq_ok, Prod.mk.injEq] at h
      obtain ⟨rfl, rfl⟩ := h
      obtain ⟨xs, rfl, hx⟩ := operand_reads ih _ _ _ hfirst
      obtain ⟨ys, rfl, hy⟩ := many_link_reads ih _ _ _ _ hlinks
      exact ⟨xs ++ ys, by simp, .chain hx hy⟩

theorem parse_reads : Reads Expr.parse (Expression Token.IsName) := by
  intro ts e rest h
  exact parseWithin_reads _ ts e rest h

end Expr

/-! ### Statements on one line -/

/-- Only a name on its own spells a variable. -/
theorem Derivation.Expression.var_inv {isName : Token → Prop} {ts : List Token} {x : String}
    {s : Span} (h : Expression isName ts (.var x s)) :
    ∃ t, ts = [t] ∧ isName t ∧ x = t.lexeme ∧ s = t.span := by
  generalize he : Expr.var x s = e at h
  cases h with
  | @chain ts us first links h hs =>
      cases hs with
      | nil =>
          rw [Expr.ofChain] at he
          subst he
          cases h with
          | @name t ht => exact ⟨t, rfl, ht, rfl, rfl⟩
      | @cons c op vs ws e links hc h hs =>
          -- A chain with an operator in it is never a variable.
          exfalso
          rw [Expr.ofChain] at he
          generalize Expr.ofChain e links = right at he
          cases right <;> simp only [Expr.prepend] at he
          · split at he <;> simp [Expr.join] at he
          all_goals simp [Expr.join] at he

namespace Stmt

theorem name_reads : Reads Grammar.name (Reference Token.IsName) := by
  intro ts n rest h
  obtain ⟨t, rfl, ht, rfl⟩ := name_eq_ok.1 h
  exact ⟨[t], rfl, .mk ht⟩

theorem declarator_reads : Reads declarator (Declared .settled []) := by
  intro ts d rest h
  obtain ⟨⟨n, us⟩, hn, h⟩ := bind_eq_ok.1 h
  obtain ⟨t, rfl, ht, rfl⟩ := name_eq_ok.1 hn
  simp only at h
  split at h
  · rename_i hassign
    obtain ⟨⟨e, vs⟩, he, h⟩ := bind_eq_ok.1 h
    simp only [pure_eq_ok, Prod.mk.injEq] at h
    obtain ⟨rfl, rfl⟩ := h
    cases us with
    | nil => simp at hassign
    | cons a us =>
        obtain ⟨ws, hw, hexpr⟩ := Expr.parse_reads _ _ _ he
        rw [List.tail_cons] at hw
        exact ⟨t :: a :: ws, by rw [hw]; rfl, .init ht hassign hexpr⟩
  · simp only [pure_eq_ok, Prod.mk.injEq] at h
    obtain ⟨rfl, rfl⟩ := h
    exact ⟨[t], rfl, .bare ht⟩

/-- Settled names do not depend on what is known, so declared names with commas between
them are a declaration. -/
theorem declaration_of_separated {ts : List Token} {vars : List Declarator}
    (h : Separated .comma (Declared .settled []) ts vars) :
    ∀ known, Declaration .settled known ts vars := by
  induction h with
  | one h =>
      intro known
      cases h with
      | bare ht => exact .one (.bare ht)
      | init ht ha he => exact .one (.init ht ha he)
  | cons h hc _ ih =>
      intro known
      cases h with
      | bare ht => exact .cons (.bare ht) hc (ih _)
      | init ht ha he => exact .cons (.init ht ha he) hc (ih _)

theorem assigned_reads (fuel : Nat) :
    Reads (assigned fuel) fun ts p => Assigned Token.IsName ts p.1 p.2 := by
  induction fuel with
  | zero => intro ts p rest h; simp [assigned] at h
  | succ fuel ih =>
      intro ts p rest h
      obtain ⟨⟨value, us⟩, hvalue, hnext⟩ := bind_eq_ok.1 h
      obtain ⟨vs, rfl, hexpr⟩ := Expr.parse_reads _ _ _ hvalue
      simp only at hnext
      split at hnext
      · rename_i hassign
        cases us with
        | nil => simp at hassign
        | cons a us =>
            split at hnext
            · rename_i x s
              obtain ⟨⟨⟨targets, e⟩, ws⟩, hrest, hnext⟩ := bind_eq_ok.1 hnext
              simp only [pure_eq_ok, Prod.mk.injEq] at hnext
              obtain ⟨rfl, rfl⟩ := hnext
              obtain ⟨t, rfl, ht, rfl, rfl⟩ := hexpr.var_inv
              obtain ⟨xs, hx, hassigned⟩ := ih _ _ _ hrest
              rw [List.tail_cons] at hx
              exact ⟨t :: a :: xs, by rw [hx]; rfl, .target ht hassign hassigned⟩
            · simp at hnext
      · simp only [pure_eq_ok, Prod.mk.injEq] at hnext
        obtain ⟨rfl, rfl⟩ := hnext
        exact ⟨vs, rfl, .value hexpr⟩

theorem item_reads : Reads item (Shown Token.IsName) := by
  intro ts i rest h
  simp only [item] at h
  split at h
  · rename_i hdollar
    simp only [Except.ok.injEq, Prod.mk.injEq] at h
    obtain ⟨rfl, rfl⟩ := h
    cases ts with
    | nil => simp at hdollar
    | cons t ts => exact ⟨[t], rfl, .newline hdollar⟩
  · obtain ⟨⟨e, us⟩, he, h⟩ := bind_eq_ok.1 h
    simp only [pure_eq_ok, Prod.mk.injEq] at h
    obtain ⟨rfl, rfl⟩ := h
    obtain ⟨vs, rfl, hexpr⟩ := Expr.parse_reads _ _ _ he
    exact ⟨vs, rfl, .expr hexpr⟩

theorem condition_reads : Reads condition (Condition Token.IsName) := by
  intro ts e rest h
  obtain ⟨⟨t, us⟩, ht, h⟩ := bind_eq_ok.1 h
  obtain ⟨⟨e', vs⟩, he, h⟩ := bind_eq_ok.1 h
  obtain ⟨⟨c, ws⟩, hc, h⟩ := bind_eq_ok.1 h
  simp only [pure_eq_ok, Prod.mk.injEq] at h
  obtain ⟨rfl, rfl⟩ := h
  obtain ⟨rfl, htk⟩ := (expect_eq_ok (by decide)).1 ht
  obtain ⟨xs, rfl, hexpr⟩ := Expr.parse_reads _ _ _ he
  obtain ⟨rfl, hck⟩ := (expect_eq_ok (by decide)).1 hc
  exact ⟨t :: xs ++ [c], by simp, .mk htk hexpr hck⟩

/-! ### Statements with blocks -/

/-- What reads the statements of a block: they spell a block, and there are none at the
end of input. -/
structure ReadsBlock (statements : Phrase (List Stmt)) : Prop where
  reads : Reads statements (Block Token.IsName)
  notAtEnd : ∀ ts body rest, statements ts = .ok (body, rest) → ¬ AtEnd ts

section

variable {statements : Phrase (List Stmt)}

theorem block_reads (hs : ReadsBlock statements) (k : Keyword) :
    Reads (block statements k) (Body Token.IsName k) := by
  intro ts body rest h
  obtain ⟨ns, hns, hskip⟩ := skipNewlines_spec ts
  obtain ⟨⟨b, us₁⟩, hb, h⟩ := bind_eq_ok.1 h
  obtain ⟨⟨bk, us₂⟩, hbk, h⟩ := bind_eq_ok.1 h
  obtain ⟨us₃, hnl, h⟩ := bind_eq_ok.1 h
  obtain ⟨⟨body', us₄⟩, hbody, h⟩ := bind_eq_ok.1 h
  obtain ⟨⟨e, us₅⟩, he, h⟩ := bind_eq_ok.1 h
  obtain ⟨⟨ek, us₆⟩, hek, h⟩ := bind_eq_ok.1 h
  simp only [pure_eq_ok, Prod.mk.injEq] at h
  obtain ⟨rfl, rfl⟩ := h
  obtain ⟨hb, hbkind⟩ := (expect_eq_ok (by decide)).1 hb
  obtain ⟨rfl, hbkkind⟩ := (expect_eq_ok (by simp)).1 hbk
  obtain ⟨rfl, hekind⟩ := (expect_eq_ok (by decide)).1 he
  obtain ⟨rfl, hekkind⟩ := (expect_eq_ok (by simp)).1 hek
  rcases lineEnd_eq_ok hnl with ⟨nl, hnlkind, rfl⟩ | hend
  · obtain ⟨vs, rfl, hblock⟩ := hs.reads _ _ _ hbody
    refine ⟨ns ++ b :: bk :: nl :: vs ++ [e, ek], ?_,
      .mk hns hbkind hbkkind hnlkind hblock hekind hekkind⟩
    rw [hskip, hb]
    simp
  · exact absurd hend (hs.notAtEnd _ _ _ hbody)

theorem clauseBody_reads (hs : ReadsBlock statements) {ts rest : List Token} {body : List Stmt}
    (h : clauseBody statements ts = .ok (body, rest)) :
    AtEnd rest ∨ ∃ us nl ns, ts = us ++ nl :: ns ++ rest ∧ Body Token.IsName .IF us body ∧
      nl.kind = .newline ∧ Newlines ns := by
  obtain ⟨⟨body', us⟩, hbody, h⟩ := bind_eq_ok.1 h
  obtain ⟨vs, hnl, h⟩ := bind_eq_ok.1 h
  simp only [pure_eq_ok, Prod.mk.injEq] at h
  obtain ⟨rfl, rfl⟩ := h
  rcases lineEnd_eq_ok hnl with ⟨nl, hnlkind, rfl⟩ | hend
  · obtain ⟨ws, rfl, hb⟩ := block_reads hs .IF _ _ _ hbody
    obtain ⟨ns, hns, hskip⟩ := skipNewlines_spec vs
    refine Or.inr ⟨ws, nl, ns, ?_, hb, hnlkind, hns⟩
    rw [List.append_assoc, List.cons_append, ← hskip]
  · exact Or.inl (skipNewlines_atEnd hend)

/-- At the end of input there are no ELSE clauses. -/
theorem otherwise_atEnd {fuel : Nat} {ts rest : List Token} {o : Otherwise} (hend : AtEnd ts)
    (h : otherwise statements fuel ts = .ok (o, rest)) : AtEnd rest := by
  have hts : rest = ts := by
    cases fuel with
    | zero =>
        simp only [otherwise, Except.ok.injEq, Prod.mk.injEq] at h
        exact h.2.symm
    | succ fuel =>
        have hpeek : (peek ts).kind = .endOfInput := hend
        simp only [otherwise, hpeek, reduceCtorEq, if_false, Except.ok.injEq,
          Prod.mk.injEq] at h
        exact h.2.symm
  rw [hts]
  exact hend

theorem otherwise_reads (hs : ReadsBlock statements) (fuel : Nat) :
    ∀ (ts rest : List Token) (o : Otherwise), otherwise statements fuel ts = .ok (o, rest) →
      AtEnd rest ∨
        ∃ us ns, ts = us ++ ns ++ rest ∧ Clauses Token.IsName us o ∧ Newlines ns := by
  induction fuel with
  | zero =>
      intro ts rest o h
      simp only [otherwise, Except.ok.injEq, Prod.mk.injEq] at h
      obtain ⟨rfl, rfl⟩ := h
      exact Or.inr ⟨[], [], rfl, .nothing, newlines_nil⟩
  | succ fuel ih =>
      intro ts rest o h
      simp only [otherwise] at h
      split at h
      · rename_i helse
        cases ts with
        | nil => simp at helse
        | cons t ts =>
            rw [List.tail_cons] at h
            split at h
            · rename_i hif
              cases ts with
              | nil => simp at hif
              | cons i ts =>
                  obtain ⟨⟨cond, us₁⟩, hcond, h⟩ := bind_eq_ok.1 h
                  obtain ⟨⟨body, us₂⟩, hbody, h⟩ := bind_eq_ok.1 h
                  obtain ⟨⟨o', us₃⟩, ho, h⟩ := bind_eq_ok.1 h
                  simp only [pure_eq_ok, Prod.mk.injEq] at h
                  obtain ⟨rfl, rfl⟩ := h
                  obtain ⟨cs, hcs, hc⟩ := condition_reads _ _ _ hcond
                  rw [List.tail_cons] at hcs
                  rcases clauseBody_reads hs hbody with hend | ⟨bs, nl, ms, rfl, hb, hnl, hms⟩
                  · exact Or.inl (otherwise_atEnd hend ho)
                  · rcases ih _ _ _ ho with hend | ⟨vs, ns, rfl, hclauses, hns⟩
                    · exact Or.inl hend
                    · obtain ⟨vs', ns', heq, hclauses', hns'⟩ := hclauses.absorb hms hns
                      refine Or.inr ⟨[] ++ t :: i :: cs ++ bs ++ nl :: vs', ns', ?_,
                        .elseIf (newlines_nil) helse hif hc hb hnl hclauses', hns'⟩
                      rw [hcs]
                      simp [heq]
            · obtain ⟨⟨body, us₁⟩, hbody, h⟩ := bind_eq_ok.1 h
              simp only at h
              split at h
              · simp at h
              · simp only [pure_eq_ok, Prod.mk.injEq] at h
                obtain ⟨rfl, rfl⟩ := h
                rcases clauseBody_reads hs hbody with hend | ⟨bs, nl, ms, rfl, hb, hnl, hms⟩
                · exact Or.inl hend
                · exact Or.inr ⟨[] ++ t :: bs ++ [nl], ms, by simp,
                    .bare (newlines_nil) helse hb hnl, hms⟩
      · simp only [Except.ok.injEq, Prod.mk.injEq] at h
        obtain ⟨rfl, rfl⟩ := h
        exact Or.inr ⟨[], [], rfl, .nothing, newlines_nil⟩

/-! ### All statements -/

/-- What it means that a statement was read. -/
inductive StatementRead (declarations : Bool) (ts rest : List Token) : Stmt → Prop
  /-- The input ends behind it. -/
  | atEnd {s : Stmt} (hend : AtEnd rest) : StatementRead declarations ts rest s
  /-- It is no declaration, and empty lines behind it may have been taken, too. -/
  | statement {s : Stmt} {us ns : List Token} (hts : ts = us ++ ns ++ rest)
      (h : Statement Token.IsName us s) (hns : Newlines ns) :
      StatementRead declarations ts rest s
  /-- It is a declaration, where declarations may stand. -/
  | declaration {t nl : Token} {ty : Ty} {us : List Token} {vars : List Declarator}
      (hd : declarations = true) (ht : t.kind = .typeName ty) (hts : ts = t :: us ++ nl :: rest)
      (h : ∀ known, Declaration .settled known us vars) (hn : nl.kind = .newline) :
      StatementRead declarations ts rest (.declare ty vars t.span)

theorem statement_reads (hs : ReadsBlock statements) {ts rest : List Token} {s : Stmt}
    {declarations : Bool} (h : statement statements declarations ts = .ok (s, rest)) :
    StatementRead declarations ts rest s := by
  cases ts with
  | nil => simp [statement] at h
  | cons t ts =>
      simp only [statement, peek, List.tail_cons] at h
      split at h
      · rename_i ty ht
        split at h
        · rename_i hd
          obtain ⟨⟨vars, us₁⟩, hvars, h⟩ := bind_eq_ok.1 h
          obtain ⟨us₂, hnl, h⟩ := bind_eq_ok.1 h
          simp only [pure_eq_ok, Prod.mk.injEq] at h
          obtain ⟨rfl, rfl⟩ := h
          obtain ⟨vs, rfl, hv⟩ := separated_reads declarator_reads _ _ _ hvars
          rcases lineEnd_eq_ok hnl with ⟨nl, hnlk, rfl⟩ | hend
          · exact .declaration hd ht (by simp) (declaration_of_separated hv) hnlk
          · exact .atEnd hend
        · simp at h
      · rename_i ht
        obtain ⟨⟨a, us₁⟩, ha, h⟩ := bind_eq_ok.1 h
        obtain ⟨⟨⟨targets, e⟩, us₂⟩, hassigned, h⟩ := bind_eq_ok.1 h
        obtain ⟨us₃, hnl, h⟩ := bind_eq_ok.1 h
        simp only [pure_eq_ok, Prod.mk.injEq] at h
        obtain ⟨rfl, rfl⟩ := h
        obtain ⟨rfl, hak⟩ := (expect_eq_ok (by decide)).1 ha
        obtain ⟨vs, rfl, hv⟩ := assigned_reads _ _ _ _ hassigned
        rcases lineEnd_eq_ok hnl with ⟨nl, hnlk, rfl⟩ | hend
        · exact .statement (by simp) (.assign ht hak hv hnlk) newlines_nil
        · exact .atEnd hend
      · rename_i ht
        obtain ⟨⟨c, us₁⟩, hc, h⟩ := bind_eq_ok.1 h
        obtain ⟨⟨items, us₂⟩, hitems, h⟩ := bind_eq_ok.1 h
        obtain ⟨us₃, hnl, h⟩ := bind_eq_ok.1 h
        simp only [pure_eq_ok, Prod.mk.injEq] at h
        obtain ⟨rfl, rfl⟩ := h
        obtain ⟨rfl, hck⟩ := (expect_eq_ok (by decide)).1 hc
        obtain ⟨vs, rfl, hv⟩ := separated_reads item_reads _ _ _ hitems
        rcases lineEnd_eq_ok hnl with ⟨nl, hnlk, rfl⟩ | hend
        · exact .statement (by simp) (.display ht hck hv hnlk) newlines_nil
        · exact .atEnd hend
      · rename_i ht
        obtain ⟨⟨c, us₁⟩, hc, h⟩ := bind_eq_ok.1 h
        obtain ⟨⟨targets, us₂⟩, htargets, h⟩ := bind_eq_ok.1 h
        obtain ⟨us₃, hnl, h⟩ := bind_eq_ok.1 h
        simp only [pure_eq_ok, Prod.mk.injEq] at h
        obtain ⟨rfl, rfl⟩ := h
        obtain ⟨rfl, hck⟩ := (expect_eq_ok (by decide)).1 hc
        obtain ⟨vs, rfl, hv⟩ := separated_reads name_reads _ _ _ htargets
        rcases lineEnd_eq_ok hnl with ⟨nl, hnlk, rfl⟩ | hend
        · exact .statement (by simp) (.scan ht hck hv hnlk) newlines_nil
        · exact .atEnd hend
      · rename_i ht
        obtain ⟨⟨cond, us₁⟩, hcond, h⟩ := bind_eq_ok.1 h
        obtain ⟨⟨body, us₂⟩, hbody, h⟩ := bind_eq_ok.1 h
        obtain ⟨⟨o, us₃⟩, ho, h⟩ := bind_eq_ok.1 h
        simp only [pure_eq_ok, Prod.mk.injEq] at h
        obtain ⟨rfl, rfl⟩ := h
        obtain ⟨cs, rfl, hc⟩ := condition_reads _ _ _ hcond
        rcases clauseBody_reads hs hbody with hend | ⟨bs, nl, ms, rfl, hb, hnl, hms⟩
        · exact .atEnd (otherwise_atEnd hend ho)
        · rcases otherwise_reads hs _ _ _ _ ho with hend | ⟨vs, ns, rfl, hclauses, hns⟩
          · exact .atEnd hend
          · obtain ⟨vs', ns', heq, hclauses', hns'⟩ := hclauses.absorb hms hns
            exact .statement (by simp [heq]) (.ifThen ht hc hb hnl hclauses') hns'
      · rename_i ht
        obtain ⟨⟨cond, us₁⟩, hcond, h⟩ := bind_eq_ok.1 h
        obtain ⟨⟨body, us₂⟩, hbody, h⟩ := bind_eq_ok.1 h
        obtain ⟨us₃, hnl, h⟩ := bind_eq_ok.1 h
        simp only [pure_eq_ok, Prod.mk.injEq] at h
        obtain ⟨rfl, rfl⟩ := h
        obtain ⟨cs, rfl, hc⟩ := condition_reads _ _ _ hcond
        obtain ⟨bs, rfl, hb⟩ := block_reads hs _ _ _ _ hbody
        rcases lineEnd_eq_ok hnl with ⟨nl, hnlk, rfl⟩ | hend
        · exact .statement (by simp) (.loop ht hc hb hnlk) newlines_nil
        · exact .atEnd hend
      · simp at h

end

theorem statements_notAtEnd (fuel : Nat) (declarations : Bool) (ts : List Token)
    (body : List Stmt) (rest : List Token)
    (h : statements fuel declarations ts = .ok (body, rest)) : ¬ AtEnd ts := by
  intro hend
  cases fuel with
  | zero => simp [statements] at h
  | succ fuel =>
      have hpeek : (peek (skipNewlines ts)).kind = .endOfInput := skipNewlines_atEnd hend
      simp only [statements, hpeek, reduceCtorEq] at h

/-- Statements where no declaration may stand are a block; where declarations may stand
they are a sequence, whatever is known in front of it. -/
theorem statements_reads (fuel : Nat) :
    Reads (statements fuel false) (Block Token.IsName) ∧
      ∀ known, Reads (statements fuel true) (Sequence .settled known) := by
  induction fuel with
  | zero =>
      refine ⟨?_, ?_⟩
      · intro ts body rest h
        simp [statements] at h
      · intro known ts body rest h
        simp [statements] at h
  | succ fuel ih =>
      obtain ⟨ihblock, ihsequence⟩ := ih
      have hs : ReadsBlock (statements fuel false) :=
        ⟨ihblock, statements_notAtEnd fuel false⟩
      refine ⟨?_, ?_⟩
      · intro ts body rest h
        obtain ⟨ns, hns, hskip⟩ := skipNewlines_spec ts
        simp only [statements] at h
        split at h
        · simp only [Except.ok.injEq, Prod.mk.injEq] at h
          obtain ⟨rfl, rfl⟩ := h
          exact ⟨ns, hskip, .nil hns⟩
        · simp at h
        · obtain ⟨⟨s, us⟩, hstmt, h⟩ := bind_eq_ok.1 h
          obtain ⟨⟨others, vs⟩, hrest, h⟩ := bind_eq_ok.1 h
          simp only [pure_eq_ok, Prod.mk.injEq] at h
          obtain ⟨rfl, rfl⟩ := h
          rw [Bool.false_and] at hrest
          cases statement_reads hs hstmt with
          | atEnd hend => exact absurd hend (statements_notAtEnd _ _ _ _ _ hrest)
          | @statement _ xs ms hts hx hms =>
              obtain ⟨ys, rfl, hblock⟩ := ihblock _ _ _ hrest
              refine ⟨ns ++ xs ++ (ms ++ ys), ?_, .cons hns hx (hblock.prepend hms)⟩
              rw [hskip, hts]
              simp
          | declaration hd => simp at hd
      · intro known ts body rest h
        obtain ⟨ns, hns, hskip⟩ := skipNewlines_spec ts
        simp only [statements] at h
        split at h
        · simp only [Except.ok.injEq, Prod.mk.injEq] at h
          obtain ⟨rfl, rfl⟩ := h
          exact ⟨ns, hskip, .block (.nil hns)⟩
        · simp at h
        · obtain ⟨⟨s, us⟩, hstmt, h⟩ := bind_eq_ok.1 h
          obtain ⟨⟨others, vs⟩, hrest, h⟩ := bind_eq_ok.1 h
          simp only [pure_eq_ok, Prod.mk.injEq] at h
          obtain ⟨rfl, rfl⟩ := h
          rw [Bool.true_and] at hrest
          cases statement_reads hs hstmt with
          | atEnd hend => exact absurd hend (statements_notAtEnd _ _ _ _ _ hrest)
          | @statement _ xs ms hts hx hms =>
              rw [hx.isDeclaration] at hrest
              obtain ⟨ys, rfl, hblock⟩ := ihblock _ _ _ hrest
              refine ⟨ns ++ xs ++ (ms ++ ys), ?_, .block (.cons hns hx (hblock.prepend hms))⟩
              rw [hskip, hts]
              simp
          | @declaration t nl ty xs vars hd ht hts hx hn =>
              obtain ⟨ys, rfl, hseq⟩ := ihsequence (Derivation.declare known vars) _ _ _ hrest
              refine ⟨ns ++ t :: xs ++ nl :: ys, ?_, .declare hns ht (hx known) hn hseq⟩
              rw [hskip, hts]
              simp

end Stmt

/-! ### Programs -/

/-- Tokens of which the last one, and no other, is the end of input. -/
def Terminated (ts : List Token) : Prop :=
  ∃ init eof, ts = init ++ [eof] ∧ eof.kind = .endOfInput ∧ ∀ t ∈ init, t.kind ≠ .endOfInput

/-- From the end of input on there is only the end of input. -/
theorem Terminated.eq_singleton {us vs rest : List Token} (h : Terminated (us ++ vs ++ rest))
    (hvs : ∀ t ∈ vs, t.kind ≠ .endOfInput) (hne : vs ≠ []) (hend : AtEnd rest) :
    ∃ eof, rest = [eof] ∧ eof.kind = .endOfInput := by
  obtain ⟨init, eof, heq, heof, hinit⟩ := h
  rcases List.eq_nil_or_concat rest with rfl | ⟨front, last, rfl⟩
  · -- Without a rest, the end of input would be the last token of `vs`.
    exfalso
    rcases List.eq_nil_or_concat vs with rfl | ⟨front, last, rfl⟩
    · exact hne rfl
    · rw [List.append_nil, List.concat_eq_append, ← List.append_assoc] at heq
      obtain rfl : last = eof := by simpa using (List.append_inj' heq rfl).2
      exact hvs last (by simp) heof
  · rw [List.concat_eq_append, ← List.append_assoc] at heq
    obtain ⟨hfront, hlast⟩ := List.append_inj' heq rfl
    obtain rfl : last = eof := by simpa using hlast
    cases front with
    | nil => exact ⟨last, rfl, heof⟩
    | cons t front =>
        have ht : t.kind = .endOfInput := hend
        exact absurd ht (hinit t (by rw [← hfront]; simp))

namespace Program

/-- **A program that is read is derivable.** -/
theorem ofTokens_sound {ts : List Token} {p : Program} (hts : Terminated ts)
    (h : ofTokens ts = .ok p) : Whole .settled ts p := by
  obtain ⟨ns, hns, hskip⟩ := skipNewlines_spec ts
  obtain ⟨⟨b, us₁⟩, hb, h⟩ := bind_eq_ok.1 h
  obtain ⟨⟨bc, us₂⟩, hbc, h⟩ := bind_eq_ok.1 h
  obtain ⟨us₃, hnl, h⟩ := bind_eq_ok.1 h
  obtain ⟨⟨body, us₄⟩, hbody, h⟩ := bind_eq_ok.1 h
  obtain ⟨⟨e, us₅⟩, he, h⟩ := bind_eq_ok.1 h
  obtain ⟨⟨ec, us₆⟩, hec, h⟩ := bind_eq_ok.1 h
  obtain ⟨⟨eof, us₇⟩, heof, h⟩ := bind_eq_ok.1 h
  simp only [pure_eq_ok] at h
  subst h
  obtain ⟨hb, hbk⟩ := (expect_eq_ok (by decide)).1 hb
  obtain ⟨rfl, hbck⟩ := (expect_eq_ok (by decide)).1 hbc
  obtain ⟨rfl, hek⟩ := (expect_eq_ok (by decide)).1 he
  obtain ⟨rfl, heck⟩ := (expect_eq_ok (by decide)).1 hec
  rcases lineEnd_eq_ok hnl with ⟨nl, hnlk, rfl⟩ | hend
  · obtain ⟨vs, rfl, hseq⟩ := (Stmt.statements_reads _).2 [] _ _ _ hbody
    obtain ⟨ms, hms, hskip'⟩ := skipNewlines_spec us₆
    have hend : AtEnd (skipNewlines us₆) := by
      simp only [expect] at heof
      split at heof
      · assumption
      · simp at heof
    have hcat : ts = (ns ++ b :: bc :: nl :: vs ++ [e]) ++ (ec :: ms) ++ skipNewlines us₆ := by
      rw [hskip, hb]
      simp [← hskip']
    have hnot : ∀ t ∈ ec :: ms, t.kind ≠ .endOfInput := by
      intro t ht
      rcases List.mem_cons.1 ht with rfl | ht
      · rw [heck]
        decide
      · rw [hms t ht]
        decide
    rw [hcat] at hts
    obtain ⟨eof', hrest, heofk⟩ := hts.eq_singleton hnot (by simp) hend
    rw [hcat, hrest]
    have := Whole.mk hns hbk hbck hnlk hseq hek heck hms heofk
    simpa using this
  · exact absurd hend (Stmt.statements_notAtEnd _ _ _ _ _ hbody)

end Program

end Pseudocode

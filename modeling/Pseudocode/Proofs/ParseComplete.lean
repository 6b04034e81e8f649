/-
What is derivable is read.

Reading is greedy and bounded, and the rules are neither.  So each lemma asks for two
things besides a derivation: that the bound is at least the number of tokens, and that
what follows cannot be taken for a continuation of the phrase.  Behind an expression that
is any token but an operator; behind a statement, once its empty lines are skipped, any
token but ELSE.  Inside a program both always hold.
-/
import Pseudocode.Proofs.GrammarSteps

namespace Pseudocode

open Grammar

namespace Derivation

/-! ### First tokens -/

theorem Operand.head {ts : List Token} {e : Expr} (h : Operand Token.IsName ts e) :
    ∃ t us, ts = t :: us ∧ t.kind ≠ .fault .intOutOfRange ∧ t.kind ≠ .sign .dollar := by
  cases h with
  | @lead t op ts e ht h =>
      refine ⟨t, ts, rfl, fun hk => ?_, fun hk => ?_⟩
      all_goals
        rw [hk] at ht
        simp [Token.Kind.unOp?] at ht
  | @smallest t m ht => exact ⟨t, [m], rfl, by simp [ht], by simp [ht]⟩
  | @name t ht =>
      have hk : t.kind = .name := ht
      exact ⟨t, [], rfl, by simp [hk], by simp [hk]⟩
  | @literal t v ht => exact ⟨t, [], rfl, by simp [ht], by simp [ht]⟩
  | @escape t c ht => exact ⟨t, [], rfl, by simp [ht], by simp [ht]⟩
  | @paren t c ts e ht => exact ⟨t, ts ++ [c], rfl, by simp [ht], by simp [ht]⟩

theorem Expression.head {ts : List Token} {e : Expr} (h : Expression Token.IsName ts e) :
    ∃ t us, ts = t :: us ∧ t.kind ≠ .sign .dollar := by
  cases h with
  | @chain ts us first links h hs =>
      obtain ⟨t, vs, rfl, -, ht⟩ := h.head
      exact ⟨t, vs ++ us, rfl, ht⟩

/-! ### Expressions -/

/-- A reader of expressions that reads all the derivable ones of fewer than `n` tokens, up to
a token that is not an operator. -/
def Reads (n : Nat) (expression : Phrase Expr) : Prop :=
  ∀ ts e rest, Expression Token.IsName ts e → ts.length < n → (peek rest).kind.binOp? = none →
    expression (ts ++ rest) = .ok (e, rest)

section Operands

variable {n : Nat} {expression : Phrase Expr} (hexpression : Reads n expression)

include hexpression

/-- An expression in parentheses is shorter than the operand it makes. -/
theorem Operand.read {ts : List Token} {e : Expr} (h : Operand Token.IsName ts e)
    (hn : ts.length ≤ n) (rest : List Token) :
    Expr.operand expression (ts ++ rest) = .ok (e, rest) := by
  match h with
  | @Operand.lead _ t op ts e ht h =>
      rw [List.length_cons] at hn
      have hsub := h.read (by omega) rest
      obtain ⟨u, us, rfl, hu, -⟩ := h.head
      have hsmall : Expr.isSmallestMagnitude (peek (u :: us ++ rest)) = false := by
        simp [Expr.isSmallestMagnitude, hu]
      rw [List.cons_append, Expr.operand, ht]
      simp only [hsmall, Bool.and_false, Bool.false_eq_true, if_false]
      rw [hsub]
      rfl
  | @Operand.smallest _ t m ht hm hv =>
      have hsmall : Expr.isSmallestMagnitude m = true := by
        simp [Expr.isSmallestMagnitude, hm, hv]
      simp [Expr.operand, ht, Token.Kind.unOp?, hsmall]
  | @Operand.name _ t ht =>
      have hk : t.kind = .name := ht
      simp [Expr.operand, Expr.primary, hk, Token.Kind.unOp?]
  | .literal ht => simp [Expr.operand, Expr.primary, ht, Token.Kind.unOp?]
  | .escape ht => simp [Expr.operand, Expr.primary, ht, Token.Kind.unOp?]
  | @Operand.paren _ t c ts e ht h hc =>
      rw [List.length_append, List.length_cons, List.length_singleton] at hn
      have hsub := hexpression ts e (c :: rest) h (by omega) (by simp [hc, Token.Kind.binOp?])
      rw [List.cons_append, List.cons_append, Expr.operand, ht]
      simp only [Token.Kind.unOp?, Expr.primary, ht, List.append_assoc, List.singleton_append]
      rw [hsub, ok_bind]
      simp only [expect_cons hc, ok_bind]
      rfl

theorem Links.read {ts : List Token} {links : List Link} (h : Links Token.IsName ts links)
    (hn : ts.length ≤ n) (k : Nat) (hk : ts.length ≤ k) (rest : List Token)
    (hrest : (peek rest).kind.binOp? = none) :
    many (fun ts => (peek ts).kind.binOp?.isSome) (Expr.link expression) k
      (ts ++ rest) = .ok (links, rest) := by
  cases h with
  | nil =>
      cases k with
      | zero => rfl
      | succ k => simp [many, hrest]
  | @cons t op ts us e links ht h hs =>
      simp only [List.cons_append, List.length_cons, List.length_append] at hn hk
      obtain ⟨k, rfl⟩ : ∃ m, k = m + 1 := ⟨k - 1, by omega⟩
      have hoperand := h.read hexpression (by omega) (us ++ rest)
      have hlinks := hs.read (by omega) k (by omega) rest hrest
      rw [many]
      simp only [List.cons_append, List.append_assoc, peek, ht, Option.isSome_some, if_true,
        Expr.link, List.tail_cons, hoperand, ok_bind, pure_bind, hlinks]
      rfl

end Operands

theorem reads_parseWithin : ∀ fuel, Reads fuel (Expr.parseWithin fuel)
  | 0 => fun _ _ _ _ hfuel => absurd hfuel (Nat.not_lt_zero _)
  | fuel + 1 => by
      rintro _ _ rest (@⟨ts, us, first, links, h, hs⟩) hfuel hrest
      have ih := reads_parseWithin fuel
      rw [List.length_append] at hfuel
      have hfirst := h.read ih (by omega) (us ++ rest)
      have hlinks := hs.read ih (by omega) (us ++ rest).length (by simp) rest hrest
      rw [Expr.parseWithin, List.append_assoc, hfirst, ok_bind]
      simp only [hlinks, ok_bind]
      rfl

theorem Expression.parse {ts rest : List Token} {e : Expr} (h : Expression Token.IsName ts e)
    (hrest : (peek rest).kind.binOp? = none) : Expr.parse (ts ++ rest) = .ok (e, rest) := by
  rw [Expr.parse]
  exact reads_parseWithin _ ts e rest h (by rw [List.length_append]; omega) hrest

/-! ### Statements on one line -/

theorem Declared.read {known : List String} {ts rest : List Token} {d : Declarator}
    (h : Declared .settled known ts d)
    (hrest : (peek rest).kind = .sign .comma ∨ (peek rest).kind = .newline) :
    Stmt.declarator (ts ++ rest) = .ok (d, rest) := by
  cases h with
  | @bare t ht =>
      have hassign : (peek rest).kind ≠ .sign .assign := by
        rcases hrest with hk | hk <;> rw [hk] <;> decide
      rw [List.singleton_append, Stmt.declarator, name_cons ht, ok_bind]
      simp only [hassign, if_false]
      rfl
  | @init t a ts e ht ha h =>
      have hop : (peek rest).kind.binOp? = none := by
        rcases hrest with hk | hk <;> rw [hk] <;> rfl
      rw [List.cons_append, Stmt.declarator, name_cons ht, ok_bind]
      simp only [List.cons_append, peek, ha, if_true, List.tail_cons, Expression.parse h hop,
        ok_bind]
      rfl

/-- A declaration is a list of declared names with commas between them; which names are
known does not matter once they are settled. -/
theorem Declaration.separated {known : List String} {ts : List Token} {vars : List Declarator}
    (h : Declaration .settled known ts vars) :
    Separated .comma (Declared .settled []) ts vars := by
  induction h with
  | one h =>
      cases h with
      | bare ht => exact .one (.bare ht)
      | init ht ha he => exact .one (.init ht ha he)
  | cons h hc _ ih =>
      cases h with
      | bare ht => exact .cons (.bare ht) hc ih
      | init ht ha he => exact .cons (.init ht ha he) hc ih

theorem Assigned.read {ts : List Token} {targets : List Name} {e : Expr}
    (h : Assigned Token.IsName ts targets e) {rest : List Token}
    (hrest : (peek rest).kind = .newline) :
    ∀ fuel, ts.length < fuel → Stmt.assigned fuel (ts ++ rest) = .ok ((targets, e), rest) := by
  induction h with
  | @value ts e h =>
      intro fuel hfuel
      obtain ⟨fuel, rfl⟩ : ∃ f, fuel = f + 1 := ⟨fuel - 1, by omega⟩
      have hop : (peek rest).kind.binOp? = none := by rw [hrest]; rfl
      rw [Stmt.assigned, h.parse hop, ok_bind]
      simp only [hrest, reduceCtorEq, if_false]
      rfl
  | @target t a ts targets e ht ha h ih =>
      intro fuel hfuel
      obtain ⟨fuel, rfl⟩ : ∃ f, fuel = f + 1 := ⟨fuel - 1, by omega⟩
      -- The target is read as an expression that is a variable.
      have hvar : Expression Token.IsName [t] (.var t.lexeme t.span) :=
        .chain (.name ht) .nil
      have hop : (peek (a :: ts ++ rest)).kind.binOp? = none := by simp [ha, Token.Kind.binOp?]
      have hparse := hvar.parse hop
      rw [Stmt.assigned, List.cons_append, ← List.singleton_append, hparse, ok_bind]
      simp only [List.cons_append, peek, ha, if_true, List.tail_cons]
      rw [ih fuel (by simp at hfuel; omega), ok_bind]
      rfl

theorem Shown.read {ts rest : List Token} {i : Item} (h : Shown Token.IsName ts i)
    (hrest : (peek rest).kind = .sign .ampersand ∨ (peek rest).kind = .newline) :
    Stmt.item (ts ++ rest) = .ok (i, rest) := by
  cases h with
  | @newline t ht => simp [Stmt.item, ht]
  | @expr ts e h =>
      have hop : (peek rest).kind.binOp? = none := by
        rcases hrest with hk | hk <;> rw [hk] <;> rfl
      have hdollar : (peek (ts ++ rest)).kind ≠ .sign .dollar := by
        obtain ⟨t, us, rfl, ht⟩ := h.head
        exact ht
      simp only [Stmt.item, hdollar, if_false]
      rw [h.parse hop, ok_bind]
      rfl

theorem Reference.read {ts rest : List Token} {n : Name} (h : Reference Token.IsName ts n) :
    Grammar.name (ts ++ rest) = .ok (n, rest) := by
  cases h with
  | mk ht => exact name_cons ht rest

theorem Condition.read {ts rest : List Token} {e : Expr} (h : Condition Token.IsName ts e) :
    Stmt.condition (ts ++ rest) = .ok (e, rest) := by
  cases h with
  | @mk t c ts e ht h hc =>
      have hparse : Expr.parse (ts ++ c :: rest) = .ok (e, c :: rest) :=
        h.parse (by simp [hc, Token.Kind.binOp?])
      rw [List.cons_append, List.cons_append, Stmt.condition, expect_cons ht, ok_bind]
      simp only [List.append_assoc, List.singleton_append, hparse, ok_bind, expect_cons hc]
      rfl

/-! ### Statements with blocks

Reading an IF takes the empty lines behind it, so what is left behind a statement is only
known up to line ends.  The next statement skips them anyway.
-/

theorem Statement.head {ts : List Token} {s : Stmt} (h : Statement Token.IsName ts s) :
    ∃ t us, ts = t :: us ∧ t.kind ∈ [Token.Kind.name, .keyword .DISPLAY, .keyword .SCAN,
      .keyword .IF, .keyword .WHILE] := by
  cases h with
  | @assign t a nl ts targets e ht ha h hn =>
      have hk : t.kind = .name := ht
      exact ⟨t, a :: ts ++ [nl], rfl, by simp [hk]⟩
  | @display t c nl ts items ht => exact ⟨t, c :: ts ++ [nl], rfl, by simp [ht]⟩
  | @scan t c nl ts targets ht => exact ⟨t, c :: ts ++ [nl], rfl, by simp [ht]⟩
  | @ifThen t nl ts us vs cond body o ht => exact ⟨t, ts ++ us ++ nl :: vs, by simp, by simp [ht]⟩
  | @loop t nl ts us cond body ht => exact ⟨t, ts ++ us ++ [nl], by simp, by simp [ht]⟩

/-- Behind a block there is no ELSE, because the block ends with END and no statement starts
with ELSE. -/
theorem Block.peek_ne_else {ts rest : List Token} {body : List Stmt}
    (h : Block Token.IsName ts body) (hrest : (peek rest).kind = .keyword .END) :
    (peek (skipNewlines (ts ++ rest))).kind ≠ .keyword .ELSE := by
  cases h with
  | nil hns =>
      rw [skipNewlines_append hns]
      cases rest with
      | nil => simp at hrest
      | cons t rest =>
          have ht : t.kind = .keyword .END := hrest
          rw [skipNewlines_cons (by simp [ht])]
          simp [ht]
  | @cons ns ts us s rest' hns h hs =>
      obtain ⟨t, vs, rfl, ht⟩ := h.head
      simp only [List.mem_cons, List.not_mem_nil, or_false] at ht
      rw [List.append_assoc, List.append_assoc, skipNewlines_append hns, List.cons_append,
        skipNewlines_cons (by rintro hk; simp [hk] at ht)]
      rintro hk
      have hk : t.kind = .keyword .ELSE := hk
      simp [hk] at ht

/-- The body of a bare ELSE is not taken for the IF of an ELSE IF. -/
theorem Body.peek_ne_if {k : Keyword} {ts : List Token} {body : List Stmt}
    (h : Body Token.IsName k ts body) (rest : List Token) :
    (peek (ts ++ rest)).kind ≠ .keyword .IF := by
  cases h with
  | @mk k b bk nl e ek ns ts body hns hb =>
      cases ns with
      | nil => simp [hb]
      | cons n ns => simp [hns n (by simp)]

/-- Only the tokens behind the line ends in front matter. -/
theorem statements_congr {fuel : Nat} {declarations : Bool} {ts us : List Token}
    (h : skipNewlines ts = skipNewlines us) :
    Stmt.statements (fuel + 1) declarations ts = Stmt.statements (fuel + 1) declarations us := by
  rw [Stmt.statements, Stmt.statements, h]

mutual

theorem Statement.read {ts : List Token} {s : Stmt} (h : Statement Token.IsName ts s)
    (fuel : Nat) (hfuel : ts.length ≤ fuel) (declarations : Bool) (rest : List Token)
    (hrest : (peek (skipNewlines rest)).kind ≠ .keyword .ELSE) :
    ∃ rest', Stmt.statement (Stmt.statements fuel false) declarations (ts ++ rest)
        = .ok (s, rest') ∧ skipNewlines rest' = skipNewlines rest := by
  match h with
  | @Statement.assign _ t a nl ts targets e ht ha h hn =>
      have hk : t.kind = .name := ht
      have hread := h.read (show (peek (nl :: rest)).kind = .newline from hn)
        ((ts ++ nl :: rest).length + 1) (by rw [List.length_append]; omega)
      refine ⟨rest, ?_, rfl⟩
      simp only [List.cons_append, List.append_assoc, List.nil_append, Stmt.statement, peek,
        hk, List.tail_cons, expect_cons ha, ok_bind, hread, lineEnd_cons hn]
      rfl
  | @Statement.display _ t c nl ts items ht hc h hn =>
      have hread : separated .ampersand Stmt.item (ts ++ nl :: rest) = .ok (items, nl :: rest) :=
        separated_complete (fun h rest hrest => h.read hrest) h hn
      refine ⟨rest, ?_, rfl⟩
      simp only [List.cons_append, List.append_assoc, List.nil_append, Stmt.statement, peek,
        ht, List.tail_cons, expect_cons hc, ok_bind, hread, lineEnd_cons hn]
      rfl
  | @Statement.scan _ t c nl ts targets ht hc h hn =>
      have hread : separated .comma Grammar.name (ts ++ nl :: rest) = .ok (targets, nl :: rest) :=
        separated_complete (fun h rest _ => h.read) h hn
      refine ⟨rest, ?_, rfl⟩
      simp only [List.cons_append, List.append_assoc, List.nil_append, Stmt.statement, peek,
        ht, List.tail_cons, expect_cons hc, ok_bind, hread, lineEnd_cons hn]
      rfl
  | @Statement.ifThen _ t nl ts us vs cond body o ht hc hb hn ho =>
      simp only [List.cons_append, List.length_cons, List.length_append] at hfuel
      have hbody := hb.read fuel (by omega) (nl :: (vs ++ rest))
      have hclauses := ho.read fuel (by omega) _ rest hrest (Nat.le_refl _)
      refine ⟨skipNewlines rest, ?_, ?_⟩
      · simp only [List.cons_append, List.append_assoc, Stmt.statement, peek, ht, List.tail_cons,
          hc.read, ok_bind, Stmt.clauseBody, hbody, lineEnd_cons hn, pure_bind, hclauses]
        rfl
      · obtain ⟨ns, hns, hskip⟩ := skipNewlines_spec rest
        conv => rhs; rw [hskip, skipNewlines_append hns]
  | @Statement.loop _ t nl ts us cond body ht hc hb hn =>
      simp only [List.cons_append, List.length_cons, List.length_append] at hfuel
      have hbody := hb.read fuel (by omega) (nl :: rest)
      refine ⟨rest, ?_, rfl⟩
      simp only [List.cons_append, List.append_assoc, List.nil_append, Stmt.statement, peek,
        ht, List.tail_cons, hc.read, ok_bind, hbody, lineEnd_cons hn]
      rfl

theorem Clauses.read {vs : List Token} {o : Otherwise} (h : Clauses Token.IsName vs o)
    (fuel : Nat) (hfuel : vs.length ≤ fuel) (n : Nat) (rest : List Token)
    (hrest : (peek (skipNewlines rest)).kind ≠ .keyword .ELSE)
    (hn : (skipNewlines (vs ++ rest)).length ≤ n) :
    Stmt.otherwise (Stmt.statements fuel false) n (skipNewlines (vs ++ rest))
      = .ok (o, skipNewlines rest) := by
  match h with
  | .nothing =>
      cases n with
      | zero => rfl
      | succ n => simp [Stmt.otherwise, hrest]
  | @Clauses.elseIf _ t i nl ns ts us vs cond body o hns ht hi hc hb hnl ho =>
      simp only [List.length_cons, List.length_append] at hfuel
      have hskip : skipNewlines (ns ++ t :: i :: ts ++ us ++ nl :: vs ++ rest)
          = t :: i :: (ts ++ (us ++ nl :: (vs ++ rest))) := by
        simp only [List.append_assoc, List.cons_append]
        rw [skipNewlines_append hns, skipNewlines_cons (by simp [ht])]
      have hle := length_skipNewlines_le (vs ++ rest)
      rw [hskip] at hn ⊢
      simp only [List.length_cons, List.length_append] at hn hle
      obtain ⟨n, rfl⟩ : ∃ m, n = m + 1 := ⟨n - 1, by omega⟩
      have hbody := hb.read fuel (by omega) (nl :: (vs ++ rest))
      have hclauses := ho.read fuel (by omega) n rest hrest (by omega)
      simp only [Stmt.otherwise, peek, ht, hi, if_true, List.tail_cons, hc.read, ok_bind,
        Stmt.clauseBody, hbody, lineEnd_cons hnl, pure_bind, hclauses]
      rfl
  | @Clauses.bare _ t nl ns us body hns ht hb hnl =>
      simp only [List.length_cons, List.length_append] at hfuel
      have hskip : skipNewlines (ns ++ t :: us ++ [nl] ++ rest) = t :: (us ++ nl :: rest) := by
        simp only [List.append_assoc, List.cons_append, List.nil_append]
        rw [skipNewlines_append hns, skipNewlines_cons (by simp [ht])]
      rw [hskip] at hn ⊢
      simp only [List.length_cons, List.length_append] at hn
      obtain ⟨n, rfl⟩ : ∃ m, n = m + 1 := ⟨n - 1, by omega⟩
      have hbody := hb.read fuel (by omega) (nl :: rest)
      have hif : (peek (us ++ nl :: rest)).kind ≠ .keyword .IF := hb.peek_ne_if _
      simp only [Stmt.otherwise, peek, ht, if_true, List.tail_cons, hif, if_false,
        Stmt.clauseBody, hbody, ok_bind, lineEnd_cons hnl, pure_bind, hrest]
      rfl

theorem Body.read {k : Keyword} {ts : List Token} {body : List Stmt}
    (h : Body Token.IsName k ts body) (fuel : Nat) (hfuel : ts.length ≤ fuel)
    (rest : List Token) :
    Stmt.block (Stmt.statements fuel false) k (ts ++ rest) = .ok (body, rest) := by
  match h with
  | @Body.mk _ k b bk nl e ek ns ts body hns hb hbk hn h he hek =>
      simp only [List.length_cons, List.length_append, List.length_nil] at hfuel
      have hblock := h.read fuel (by omega) false (e :: ek :: rest) he
      have hskip : skipNewlines (ns ++ b :: bk :: nl :: ts ++ [e, ek] ++ rest)
          = b :: bk :: nl :: (ts ++ e :: ek :: rest) := by
        simp only [List.append_assoc, List.cons_append, List.nil_append]
        rw [skipNewlines_append hns, skipNewlines_cons (by simp [hb])]
      simp only [Stmt.block, hskip, expect_cons hb, ok_bind, expect_cons hbk, lineEnd_cons hn,
        hblock, expect_cons he, expect_cons hek]
      rfl

theorem Block.read {ts : List Token} {body : List Stmt} (h : Block Token.IsName ts body)
    (fuel : Nat) (hfuel : ts.length < fuel) (declarations : Bool) (rest : List Token)
    (hrest : (peek rest).kind = .keyword .END) :
    Stmt.statements fuel declarations (ts ++ rest) = .ok (body, rest) := by
  match h with
  | @Block.nil _ ns hns =>
      obtain ⟨fuel, rfl⟩ : ∃ f, fuel = f + 1 := ⟨fuel - 1, by omega⟩
      have hskip : skipNewlines (ns ++ rest) = rest := by
        rw [skipNewlines_append hns]
        cases rest with
        | nil => rfl
        | cons t rest =>
            have ht : t.kind = .keyword .END := hrest
            exact skipNewlines_cons (by simp [ht]) rest
      simp only [Stmt.statements, hskip, hrest]
  | @Block.cons _ ns ts us s others hns h hs =>
      simp only [List.length_append] at hfuel
      obtain ⟨t, vs, hts, ht⟩ := h.head
      have hpos : 0 < ts.length := by rw [hts]; simp
      obtain ⟨fuel, rfl⟩ : ∃ f, fuel = f + 2 := ⟨fuel - 2, by omega⟩
      obtain ⟨rest', hstmt, hrest'⟩ :=
        h.read (fuel + 1) (by omega) declarations (us ++ rest) (hs.peek_ne_else hrest)
      have hothers := hs.read (fuel + 1) (by omega) (declarations && s.isDeclaration) rest hrest
      rw [← statements_congr hrest'] at hothers
      have hskip : skipNewlines (ns ++ ts ++ us ++ rest) = ts ++ (us ++ rest) := by
        rw [List.append_assoc, List.append_assoc, skipNewlines_append hns, hts, List.cons_append,
          skipNewlines_cons (by rintro hk; simp [hk] at ht)]
      have hpeek : peek (ts ++ (us ++ rest)) = t := by rw [hts]; rfl
      rw [Stmt.statements]
      simp only [hskip, hpeek]
      simp only [List.mem_cons, List.not_mem_nil, or_false] at ht
      rcases ht with ht | ht | ht | ht | ht
      all_goals
        simp only [ht, hstmt, ok_bind, hothers]
        rfl

end

/-! ### Programs -/

theorem Sequence.read {known : List String} {ts : List Token} {body : List Stmt}
    (h : Sequence .settled known ts body) {rest : List Token}
    (hrest : (peek rest).kind = .keyword .END) :
    ∀ fuel, ts.length < fuel → Stmt.statements fuel true (ts ++ rest) = .ok (body, rest) := by
  induction h with
  | block h => intro fuel hfuel; exact Block.read h fuel hfuel true rest hrest
  | @declare known t nl ty ns ts us vars others hns ht h hn hs ih =>
      intro fuel hfuel
      simp only [List.length_append, List.length_cons] at hfuel
      obtain ⟨fuel, rfl⟩ : ∃ f, fuel = f + 1 := ⟨fuel - 1, by omega⟩
      have hvars : separated .comma Stmt.declarator (ts ++ nl :: (us ++ rest))
          = .ok (vars, nl :: (us ++ rest)) :=
        separated_complete (fun h rest hrest => h.read hrest) h.separated hn
      have hskip : skipNewlines (ns ++ t :: ts ++ nl :: us ++ rest)
          = t :: (ts ++ nl :: (us ++ rest)) := by
        simp only [List.append_assoc, List.cons_append]
        rw [skipNewlines_append hns, skipNewlines_cons (by simp [ht])]
      simp only [Stmt.statements, hskip, peek, ht, Stmt.statement, if_true, List.tail_cons, hvars,
        ok_bind, lineEnd_cons hn, pure_bind, Stmt.isDeclaration, Bool.and_true,
        ih fuel (by omega)]
      rfl

end Derivation

open Derivation in
/-- **A program that is derivable is read.** -/
theorem Program.ofTokens_complete {ts : List Token} {p : Program} (h : Whole .settled ts p) :
    Program.ofTokens ts = .ok p := by
  cases h with
  | @mk b bc nl e ec eof ns ts ms body hns hb hbc hn h he hec hms heof =>
      have hskip : skipNewlines (ns ++ b :: bc :: nl :: ts ++ e :: ec :: ms ++ [eof])
          = b :: bc :: nl :: (ts ++ e :: ec :: (ms ++ [eof])) := by
        simp only [List.append_assoc, List.cons_append]
        rw [skipNewlines_append hns, skipNewlines_cons (by simp [hb])]
      have hbody := h.read (show (peek (e :: ec :: (ms ++ [eof]))).kind = .keyword .END from he)
        ((ts ++ e :: ec :: (ms ++ [eof])).length + 1) (by rw [List.length_append]; omega)
      have hend : skipNewlines (ms ++ [eof]) = [eof] := by
        rw [skipNewlines_append hms, skipNewlines_cons (by simp [heof])]
      simp only [Program.ofTokens, hskip, expect_cons hb, ok_bind, expect_cons hbc,
        lineEnd_cons hn, hbody, expect_cons he, expect_cons hec, hend, expect_cons heof]
      rfl

end Pseudocode

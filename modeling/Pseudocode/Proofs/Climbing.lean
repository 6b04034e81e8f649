/-
Grouping while reading.

An expression is read off a list as a chain, and grouped afterwards.  Off a cursor it is grouped
on the way, by climbing: the tree on the left takes the next operator if that binds at least as
tightly as some bound, together with its right operand; and before that, the right operand takes
all the operators behind it that bind at least as tightly as the one in front of it.

Those are two loops, one inside of the other, and the inner one starts the outer one anew with
the precedence of the operator it sees as the bound.  Still both do the same: a tree takes
operators off the front, down to one that binds less than a bound.  What carries both is that
the operator in front always binds less than every operator that the tree has already taken,
so it is right to put it on top of them.  What results is grouped, and a chain has only one
grouped tree.

On the list, the loops take links off the front of the chain.  A loop ends with the error that
reading the links ends with, or it stops in front of an operator that binds too little.
-/
import Pseudocode.Proofs.Draws
import Pseudocode.Proofs.Grouping
import Pseudocode.Proofs.ParseComplete

namespace Pseudocode

open Grammar (Read Phrase peek)
open Derivation (Operand Links Expression)

/-! ### What a tree takes -/

namespace Expr

/-- `tree` is `left` with all the links that were taken, which bind at least as tightly as
`least`. -/
structure Absorbed (least : Nat) (left : Expr) (taken : List Link) (tree : Expr) : Prop where
  chain : tree.chain = (left.chain.1, left.chain.2 ++ taken)
  grouped : tree.Grouped
  tight : ∀ link ∈ taken, least ≤ link.precedence

namespace Absorbed

variable {least bound : Nat} {left tree tree' : Expr} {taken taken' : List Link}

theorem nothing (h : left.Grouped) : Absorbed least left [] left :=
  ⟨by rw [List.append_nil], h, by simp⟩

theorem trans (h : Absorbed bound left taken tree) (hbound : least ≤ bound)
    (h' : Absorbed least tree taken' tree') : Absorbed least left (taken ++ taken') tree' where
  chain := by rw [h'.chain, h.chain, List.append_assoc]
  grouped := h'.grouped
  tight := List.forall_mem_append.2
    ⟨fun link hlink => Nat.le_trans hbound (h.tight link hlink), h'.tight⟩

/-- What the tree has and what it has taken binds at least as tightly as the bound. -/
theorem bound_le (h : Absorbed bound left taken tree)
    (hleft : ∀ o ∈ left.operators, bound ≤ o.precedence) :
    ∀ o ∈ tree.operators, bound ≤ o.precedence := by
  refine forall_operators.2 ?_
  rw [h.chain]
  exact List.forall_mem_append.2 ⟨forall_operators.1 hleft, h.tight⟩

/-- An operator whose right operand has taken what it can goes on top of the tree. -/
theorem join {right : Expr} (link : Link) (hleft : left.Grouped)
    (hops : ∀ o ∈ left.operators, link.precedence < o.precedence)
    (hoperand : link.operand.isOperand = true)
    (h : Absorbed link.precedence link.operand taken right) :
    Absorbed link.precedence left (link :: taken) (Expr.join left link.op right) where
  chain := by rw [chain_join, h.chain, chain_of_isOperand hoperand]; rfl
  grouped := by
    refine .join hleft h.grouped hops (forall_operators.2 ?_)
    rw [h.chain, chain_of_isOperand hoperand]
    exact h.tight
  tight := List.forall_mem_cons.2 ⟨Nat.le_refl _, h.tight⟩

end Absorbed

theorem one_le_precedence (op : BinOp) : 1 ≤ op.precedence := by
  rcases op with op | op | op <;> cases op <;> decide

end Expr

namespace Pull

open Cursor

variable {source : String} {m n b : Nat} {expr : Phrase Expr} {c : Cursor} {ts us : List Token}
  {o : Option (Except Error Expr × Cursor)}

/-! ### Operands -/

/-- An expression is read off a cursor as it is read off the list, up to a number of tokens.  In
front of a token an expression, an operand and what it begins with are read one inside of the
other, so there is fuel three times for each token. -/
def Keeps (source : String) (m n : Nat) (expr : Phrase Expr) : Prop :=
  ∀ fuel ts o, Stands source m ts (expression fuel) o → ts.length ≤ n →
    3 * ts.length + 2 ≤ fuel → Follows source m ts.length (expr ts) o

/-- The same of an operand, given how the list is read in parentheses. -/
def KeepsOperand (source : String) (m n : Nat) (expr : Phrase Expr) : Prop :=
  ∀ fuel ts o, Stands source m ts (operand fuel) o → ts.length ≤ n →
    3 * ts.length + 1 ≤ fuel → Follows source m ts.length (Expr.operand expr ts) o

theorem primary_follows {fuel : Nat} (hexpr : Keeps source m n expr)
    (h : Stands source m ts (primary fuel) o) (hn : ts.length ≤ n + 1)
    (hfuel : 3 * ts.length ≤ fuel) :
    Follows source m ts.length (Expr.primary expr (peek ts) ts.tail) o := by
  obtain ⟨fuel, rfl⟩ := h.exists_succ (Nat.le_trans (by omega) hfuel)
  have htail := h.length_tail_lt
  rw [primary] at h
  replace h := h.view
  unfold Expr.primary
  unfold leaf? at h
  cases hk : (peek ts).kind with
  | name =>
      simp only [hk] at h
      exact (h.advance (by rw [hk]; rfl)).pure htail
  | literal v =>
      simp only [hk] at h
      exact (h.advance (by rw [hk]; rfl)).pure htail
  | escape d =>
      simp only [hk] at h
      exact (h.advance (by rw [hk]; rfl)).pure htail
  | sign s =>
      simp only [hk] at h
      cases s with
      | openParen =>
          rw [if_pos rfl] at h
          refine (h.advance (by rw [hk]; rfl)).bind
            (fun o h => hexpr fuel _ o h (by omega) (by omega)) fun e us o hus hlt => ?_
          refine hus.bind (fun o h => expect_follows h rfl) fun close vs o hvs hlt' => ?_
          exact hvs.pure (by omega)
      | _ => exact Stands.reject h
  | _ =>
      simp only [hk] at h
      exact Stands.reject h

theorem isOrdinary_of_unOp? {k : Token.Kind} {op : UnOp} (h : k.unOp? = some op) :
    k.isOrdinary = true := by
  cases k with
  | fault f => cases h
  | endOfInput => cases h
  | _ => rfl

theorem kind_of_minus {k : Token.Kind} (h : k.unOp? = some .minus) : k = .sign (.arith .sub) := by
  cases k with
  | sign s =>
      cases s with
      | arith op =>
          cases op with
          | sub => rfl
          | _ => cases h
      | _ => cases h
  | keyword k => cases k <;> cases h
  | _ => cases h

/-- Digits out of range are let pass behind a minus sign. -/
theorem refusal?_advance_of_minus {c : Cursor} (hminus : c.current.kind = .sign (.arith .sub))
    (hdigits : c.advance.current.kind = .fault .intOutOfRange) : c.advance.refusal? = none := by
  have hprevious : c.advance.previous.kind = .sign (.arith .sub) := hminus
  simp only [refusal?, hdigits, hprevious, and_self, if_true]

theorem operand_follows (hexpr : Keeps source m n expr) : KeepsOperand source m (n + 1) expr := by
  intro fuel ts
  induction ts generalizing fuel with
  | nil =>
      intro o h
      obtain ⟨c, hshows⟩ := h.shows
      cases hshows.eq_cons
  | cons t ts ih =>
      intro o h hn hfuel
      obtain ⟨fuel, rfl⟩ := h.exists_succ (Nat.le_trans (by omega) hfuel)
      rw [operand] at h
      replace h := h.view
      rw [Expr.operand]
      cases hop : t.kind.unOp? with
      | none =>
          simp only [hop] at h
          exact primary_follows hexpr h hn (Nat.le_of_succ_le_succ hfuel)
      | some op =>
          simp only [hop] at h ⊢
          have hk : (peek (t :: ts)).kind.isOrdinary = true := isOrdinary_of_unOp? hop
          rw [List.length_cons] at hn hfuel ⊢
          by_cases hsmall : (decide (op = .minus) && Expr.isSmallestMagnitude (peek ts)) = true
          · -- The digits do not stop the reading, because of the minus sign in front of them.
            obtain ⟨c, rfl, hshows⟩ := h.running hk
            obtain rfl : t = c.current := hshows.peek
            have hnext : Shows source c.advance ts :=
              hshows.advance fun hend => by rw [hend] at hop; cases hop
            rw [hnext.peek] at hsmall ⊢
            have hboth : op = .minus ∧ c.advance.current.kind = .fault .intOutOfRange := by
              simp only [Bool.and_eq_true, decide_eq_true_eq, Expr.isSmallestMagnitude] at hsmall
              exact ⟨hsmall.1, hsmall.2.1⟩
            obtain ⟨rfl, hdigits⟩ := hboth
            have hrun : Pull.advance c = some (.ok (), c.advance) := by
              rw [advance_eq]
              exact recover_of_none (refusal?_advance_of_minus (kind_of_minus hop) hdigits)
            rw [bind_of_ok hrun, view_bind, if_pos hsmall, if_pos hsmall]
            have htail := hnext.length_tail_lt
            refine Stands.pure ?_ (Nat.lt_succ_of_lt htail)
            exact .advance_of_shows hnext (by rw [hdigits]; simp) _
          · have hnext := (h.advance hk).view
            rw [List.tail_cons] at hnext
            rw [if_neg hsmall] at hnext ⊢
            refine hnext.bind (fun o h => ih fuel o h (by omega) (by omega))
              fun e us o hus hlt => ?_
            exact hus.pure (by omega)

theorem isOperand_of_primary {t : Token} {ts us : List Token} {e : Expr}
    (h : Expr.primary expr t ts = .ok (e, us)) : e.isOperand = true := by
  unfold Expr.primary at h
  cases hk : t.kind with
  | name | literal v | escape d =>
      rw [hk] at h
      cases h
      rfl
  | sign s =>
      rw [hk] at h
      cases s with
      | openParen =>
          obtain ⟨⟨inner, vs⟩, -, h⟩ := bind_eq_ok.1 h
          obtain ⟨⟨close, ws⟩, -, h⟩ := bind_eq_ok.1 h
          cases h
          rfl
      | _ => cases h
  | _ =>
      rw [hk] at h
      cases h

/-- An operand is no chain. -/
theorem isOperand_of_operand {ts us : List Token} {e : Expr}
    (h : Expr.operand expr ts = .ok (e, us)) : e.isOperand = true := by
  cases ts with
  | nil => cases h
  | cons t ts =>
      rw [Expr.operand] at h
      cases hop : t.kind.unOp? with
      | none =>
          rw [hop] at h
          exact isOperand_of_primary h
      | some op =>
          rw [hop] at h
          dsimp only at h
          split at h
          · cases h
            rfl
          · obtain ⟨⟨inner, vs⟩, -, h⟩ := bind_eq_ok.1 h
            cases h
            rfl

/-! ### Links -/

/-- The links that are read off the list, in up to `fuel` rounds. -/
def links (expr : Phrase Expr) (fuel : Nat) (ts : List Token) :
    Except Error (Read (List Link)) :=
  Grammar.many (fun ts => (peek ts).kind.binOp?.isSome) (Expr.link expr) fuel ts

/-- Reading links off the first list takes some of them and goes on with the second one. -/
def Leads (expr : Phrase Expr) (taken : List Link) (ts us : List Token) : Prop :=
  ∀ fuel, ts.length ≤ fuel → ∃ fuel', us.length ≤ fuel' ∧
    links expr fuel ts = (links expr fuel' us).map fun r => (taken ++ r.1, r.2)

/-- Reading links off the list ends with an error. -/
def Breaks (expr : Phrase Expr) (ts : List Token) (e : Error) : Prop :=
  ∀ fuel, ts.length ≤ fuel → links expr fuel ts = .error e

theorem Leads.refl (expr : Phrase Expr) (ts : List Token) : Leads expr [] ts ts := by
  intro fuel hfuel
  refine ⟨fuel, hfuel, ?_⟩
  cases links expr fuel ts <;> rfl

theorem Leads.trans {taken taken' : List Link} {ts us vs : List Token}
    (h : Leads expr taken ts us) (h' : Leads expr taken' us vs) :
    Leads expr (taken ++ taken') ts vs := by
  intro fuel hfuel
  obtain ⟨fuel', hfuel', heq⟩ := h fuel hfuel
  obtain ⟨fuel'', hfuel'', heq'⟩ := h' fuel' hfuel'
  refine ⟨fuel'', hfuel'', ?_⟩
  rw [heq, heq']
  cases links expr fuel'' vs with
  | error e => rfl
  | ok r =>
      have hassoc : taken ++ (taken' ++ r.1) = taken ++ taken' ++ r.1 :=
        (List.append_assoc _ _ _).symm
      exact congrArg (fun xs => Except.ok (xs, r.2)) hassoc

theorem Leads.breaks {taken : List Link} {ts us : List Token} {e : Error}
    (h : Leads expr taken ts us) (h' : Breaks expr us e) : Breaks expr ts e := by
  intro fuel hfuel
  obtain ⟨fuel', hfuel', heq⟩ := h fuel hfuel
  rw [heq, h' fuel' hfuel']
  rfl

/-- A link, and what is read behind it. -/
theorem leads_link {op : BinOp} {e : Expr} (hop : (peek ts).kind.binOp? = some op)
    (hread : Expr.operand expr ts.tail = .ok (e, us)) (hlt : us.length < ts.length) :
    Leads expr [⟨⟨op, (peek ts).span⟩, e⟩] ts us := by
  intro fuel hfuel
  obtain ⟨fuel, rfl⟩ : ∃ m, fuel = m + 1 := ⟨fuel - 1, by omega⟩
  refine ⟨fuel, by omega, ?_⟩
  have hlink : Expr.link expr ts = .ok (⟨⟨op, (peek ts).span⟩, e⟩, us) := by
    unfold Expr.link
    simp only [hop, hread, ok_bind]
    rfl
  have hround : links expr (fuel + 1) ts =
      (links expr fuel us >>= fun r => pure (⟨⟨op, (peek ts).span⟩, e⟩ :: r.1, r.2)) := by
    rw [links, Grammar.many, hop, hlink]
    rfl
  rw [hround]
  cases links expr fuel us <;> rfl

theorem breaks_link {op : BinOp} {e : Error} (hop : (peek ts).kind.binOp? = some op)
    (hread : Expr.operand expr ts.tail = .error e) (hne : ts ≠ []) : Breaks expr ts e := by
  intro fuel hfuel
  have hpos := List.length_pos_iff.2 hne
  obtain ⟨fuel, rfl⟩ : ∃ m, fuel = m + 1 := ⟨fuel - 1, by omega⟩
  have hlink : Expr.link expr ts = .error e := by
    unfold Expr.link
    simp only [hop, hread]
    rfl
  rw [links, Grammar.many, hop, hlink]
  rfl

/-! ### The two loops -/

/-- The operator in front, if it is to be taken, binds less than those that the tree has. -/
def Ready (least : Nat) (left : Expr) (ts : List Token) : Prop :=
  left.Grouped ∧ ∀ op, (peek ts).kind.binOp? = some op → least ≤ op.precedence →
    ∀ o ∈ left.operators, op.precedence < o.precedence

/-- On its way from the first list to the second one `left` has taken some links and become
`tree`, and the operator in front binds too little. -/
structure Takes (expr : Phrase Expr) (least : Nat) (left : Expr) (ts us : List Token)
    (taken : List Link) (tree : Expr) : Prop where
  leads : Leads expr taken ts us
  short : us.length + taken.length ≤ ts.length
  stays : taken = [] → us = ts
  operands : ∀ link ∈ taken, link.operand.isOperand = true
  stop : ∀ op, (peek us).kind.binOp? = some op → op.precedence < least
  absorbed : Ready least left ts → Expr.Absorbed least left taken tree

/-- A loop takes links, or it ends with the error that reading the links ends with. -/
def Climbs (source : String) (m : Nat) (expr : Phrase Expr) (least : Nat) (left : Expr)
    (ts : List Token) (o : Option (Except Error Expr × Cursor)) : Prop :=
  Comes source m (fun tree us => ∃ taken, Takes expr least left ts us taken tree)
    (Breaks expr ts) o

theorem Takes.nothing {least : Nat} {left : Expr}
    (hstop : ∀ op, (peek ts).kind.binOp? = some op → op.precedence < least) :
    Takes expr least left ts ts [] left where
  leads := .refl expr ts
  short := Nat.le_refl _
  stays _ := rfl
  operands := by simp
  stop := hstop
  absorbed hready := .nothing hready.1

/-- A loop goes on behind what was taken at its start. -/
theorem Takes.trans {least : Nat} {left tree tree' : Expr} {vs : List Token}
    {taken taken' : List Link} {op : BinOp} (hop : (peek ts).kind.binOp? = some op)
    (hle : least ≤ op.precedence) (h : Takes expr op.precedence left ts us taken tree)
    (h' : Takes expr least tree us vs taken' tree') :
    Takes expr least left ts vs (taken ++ taken') tree' where
  leads := h.leads.trans h'.leads
  short := by
    have := h.short
    have := h'.short
    rw [List.length_append]
    omega
  stays hnil := by
    obtain ⟨htaken, htaken'⟩ := List.append_eq_nil_iff.1 hnil
    rw [h'.stays htaken', h.stays htaken]
  operands := List.forall_mem_append.2 ⟨h.operands, h'.operands⟩
  stop := h'.stop
  absorbed hready := by
    have hops := hready.2 op hop hle
    have hfirst := h.absorbed ⟨hready.1, fun op' hop' _ => by
      obtain rfl : op = op' := Option.some.inj (hop.symm.trans hop')
      exact hops⟩
    have hbound := hfirst.bound_le fun o ho => Nat.le_of_lt (hops o ho)
    -- What is next has stopped the loop, and so it binds less than all that was taken.
    exact hfirst.trans hle (h'.absorbed ⟨hfirst.grouped, fun next hnext _ o ho =>
      Nat.lt_of_lt_of_le (h.stop next hnext) (hbound o ho)⟩)

/-- The operator in front goes on top of the tree, once its operand has taken what it can. -/
theorem Takes.link (left : Expr) {e right : Expr} {vs : List Token} {taken : List Link} {op : BinOp}
    (hop : (peek ts).kind.binOp? = some op) (hread : Expr.operand expr ts.tail = .ok (e, us))
    (hlt : us.length < ts.length) (h : Takes expr op.precedence e us vs taken right) :
    Takes expr op.precedence left ts vs (⟨⟨op, (peek ts).span⟩, e⟩ :: taken)
      (left.join ⟨op, (peek ts).span⟩ right) where
  leads := (leads_link hop hread hlt).trans h.leads
  short := by
    have := h.short
    rw [List.length_cons]
    omega
  stays hnil := absurd hnil (List.cons_ne_nil _ _)
  operands := List.forall_mem_cons.2 ⟨isOperand_of_operand hread, h.operands⟩
  stop := h.stop
  absorbed hready := by
    have he := isOperand_of_operand hread
    have hright := h.absorbed ⟨.operand he, by simp [Expr.operators_of_isOperand he]⟩
    exact .join ⟨⟨op, (peek ts).span⟩, e⟩ hready.1 (hready.2 op hop (Nat.le_refl _)) he hright

/-- A loop that starts with the precedence of the operator in front takes that operator:
otherwise the operator would bind less than itself. -/
theorem Takes.length_lt {left tree : Expr} {taken : List Link} {op : BinOp}
    (hop : (peek ts).kind.binOp? = some op) (h : Takes expr op.precedence left ts us taken tree) :
    us.length < ts.length := by
  cases taken with
  | nil =>
      obtain rfl := h.stays rfl
      exact absurd (h.stop op hop) (Nat.lt_irrefl _)
  | cons link taken =>
      have := h.short
      rw [List.length_cons] at this
      omega

section Loops

variable {least : Nat} {left tree : Expr} {taken : List Link} {op : BinOp}

theorem Climbs.nothing (h : Stands source m ts (pure left) o)
    (hstop : ∀ op, (peek ts).kind.binOp? = some op → op.precedence < least) :
    Climbs source m expr least left ts o :=
  Or.inl ⟨left, ts, ⟨[], .nothing hstop⟩, h⟩

theorem Climbs.behind (hop : (peek ts).kind.binOp? = some op) (hle : least ≤ op.precedence)
    (h : Takes expr op.precedence left ts us taken tree)
    (h' : Climbs source m expr least tree us o) : Climbs source m expr least left ts o := by
  rcases h' with ⟨tree', vs, ⟨taken', htakes⟩, hvs⟩ | ⟨e, c, hbreaks, ho, hon⟩
  · exact Or.inl ⟨tree', vs, ⟨taken ++ taken', h.trans hop hle htakes⟩, hvs⟩
  · exact Or.inr ⟨e, c, h.leads.breaks hbreaks, ho, hon⟩

/-- Both loops climb in front of the given tokens. -/
def LoopsClimb (source : String) (m : Nat) (expr : Phrase Expr) (ts : List Token) : Prop :=
  ∀ fuel least left o,
    (Stands source m ts (climb fuel least left) o → 3 * ts.length ≤ fuel →
      Climbs source m expr least left ts o) ∧
    (Stands source m ts (tighten fuel least left) o → 3 * ts.length + 1 ≤ fuel →
      Climbs source m expr least left ts o)

theorem isOrdinary_of_binOp? {k : Token.Kind} (h : k.binOp? = some op) : k.isOrdinary = true := by
  cases k with
  | fault f => cases h
  | endOfInput => cases h
  | _ => rfl

/-- A round of the outer loop: an operator, its operand, which the inner loop tightens, and the
rounds behind. -/
theorem climb_climbs {fuel : Nat} (hoperand : KeepsOperand source m n expr)
    (h : Stands source m ts (climb fuel least left) o) (hn : ts.length ≤ n)
    (hfuel : 3 * ts.length ≤ fuel)
    (ih : ∀ us, us.length < ts.length → LoopsClimb source m expr us) :
    Climbs source m expr least left ts o := by
  obtain ⟨fuel, rfl⟩ := h.exists_succ (Nat.le_trans (by omega) hfuel)
  have htail := h.length_tail_lt
  rw [climb] at h
  replace h := h.view
  cases hop : (peek ts).kind.binOp? with
  | none =>
      simp only [hop] at h
      exact .nothing h (by simp [hop])
  | some op =>
      simp only [hop] at h
      by_cases hlt : op.precedence < least
      · rw [if_pos hlt] at h
        exact .nothing h (by simp [hop, hlt])
      · rw [if_neg hlt] at h
        have hle := Nat.le_of_not_lt hlt
        have hnext := h.advance (isOrdinary_of_binOp? hop)
        rcases hnext.bind_cases fun o h => (hoperand fuel _ o h (by omega) (by omega)).comes with
          ⟨e, us, ⟨hread, hshort⟩, hus⟩ | ⟨error, c, hread, ho, hon⟩
        · have hshort' : us.length < ts.length := by omega
          rcases hus.bind_cases fun o h =>
              (ih us hshort' fuel op.precedence e o).2 h (by omega) with
            ⟨right, vs, ⟨taken, htakes⟩, hvs⟩ | ⟨error, c, hbreaks, ho, hon⟩
          · have hlink := Takes.link left hop hread hshort' htakes
            have hshort'' := hlink.length_lt hop
            exact .behind hop hle hlink ((ih vs hshort'' fuel least _ o).1 hvs (by omega))
          · exact Or.inr ⟨error, c, (leads_link hop hread hshort').breaks hbreaks, ho, hon⟩
        · have hne : ts ≠ [] := List.length_pos_iff.1 (by omega)
          exact Or.inr ⟨error, c, breaks_link hop hread hne, ho, hon⟩

/-- A round of the inner loop: the outer loop, started with the precedence of the operator in
front, and the rounds behind. -/
theorem tighten_climbs {fuel : Nat} (h : Stands source m ts (tighten fuel least left) o)
    (hfuel : 3 * ts.length + 1 ≤ fuel)
    (hclimb : ∀ fuel least left o, Stands source m ts (climb fuel least left) o →
      3 * ts.length ≤ fuel → Climbs source m expr least left ts o)
    (ih : ∀ us, us.length < ts.length → LoopsClimb source m expr us) :
    Climbs source m expr least left ts o := by
  obtain ⟨fuel, rfl⟩ := h.exists_succ (Nat.le_trans (by omega) hfuel)
  rw [tighten] at h
  replace h := h.view
  cases hop : (peek ts).kind.binOp? with
  | none =>
      simp only [hop] at h
      exact .nothing h (by simp [hop])
  | some op =>
      simp only [hop] at h
      by_cases hlt : op.precedence < least
      · rw [if_pos hlt] at h
        exact .nothing h (by simp [hop, hlt])
      · rw [if_neg hlt] at h
        rcases h.bind_cases fun o h => hclimb fuel op.precedence left o h (by omega) with
          ⟨right, us, ⟨taken, htakes⟩, hus⟩ | ⟨error, c, hbreaks, ho, hon⟩
        · have hshort := htakes.length_lt hop
          exact .behind hop (Nat.le_of_not_lt hlt) htakes
            ((ih us hshort fuel least _ o).2 hus (by omega))
        · exact Or.inr ⟨error, c, hbreaks, ho, hon⟩

/-- **Both loops end**, and what they take off the cursor is what is taken off the list. -/
theorem loopsClimb (hoperand : KeepsOperand source m n expr) (k : Nat) :
    ∀ ts : List Token, ts.length ≤ n → ts.length < k → LoopsClimb source m expr ts := by
  induction k with
  | zero => exact fun _ _ hk => absurd hk (Nat.not_lt_zero _)
  | succ k ih =>
      intro ts hn hk fuel least left o
      have hshorter : ∀ us, us.length < ts.length → LoopsClimb source m expr us :=
        fun us hlt => ih us (by omega) (by omega)
      have hclimb : ∀ fuel least left o, Stands source m ts (climb fuel least left) o →
          3 * ts.length ≤ fuel → Climbs source m expr least left ts o :=
        fun _ _ _ _ h hfuel => climb_climbs hoperand h hn hfuel hshorter
      exact ⟨hclimb fuel least left o, fun h hfuel => tighten_climbs h hfuel hclimb hshorter⟩

end Loops

/-! ### Expressions -/

/-- Climbing from the first operand takes the whole chain and groups it. -/
theorem Takes.ofChain {first tree : Expr} {taken : List Link} (hfirst : first.isOperand = true)
    (h : Takes expr 1 first ts us taken tree) : tree = Expr.ofChain first taken := by
  have habsorbed := h.absorbed ⟨.operand hfirst, by simp [Expr.operators_of_isOperand hfirst]⟩
  have hchain := habsorbed.chain
  rw [Expr.chain_of_isOperand hfirst, List.nil_append] at hchain
  have hoperands : Expr.Operands first taken := ⟨hfirst, h.operands⟩
  exact habsorbed.grouped.eq_of_chain (Expr.grouped_ofChain hoperands)
    (hchain.trans (Expr.chain_ofChain hoperands).symm)

/-- Behind what climbing has taken there is no further link. -/
theorem Takes.links_eq {first tree : Expr} {taken : List Link}
    (h : Takes expr 1 first ts us taken tree) : links expr ts.length ts = .ok (taken, us) := by
  obtain ⟨fuel, -, heq⟩ := h.leads ts.length (Nat.le_refl _)
  have hstop : (peek us).kind.binOp?.isSome = false := by
    cases hop : (peek us).kind.binOp? with
    | none => rfl
    | some op => exact absurd (h.stop op hop) (Nat.not_lt.2 (Expr.one_le_precedence op))
  rw [heq, links, Grammar.many_stop hstop]
  exact congrArg (fun taken => Except.ok (taken, us)) (List.append_nil taken)

theorem parseWithin_succ (fuel : Nat) (ts : List Token) :
    Expr.parseWithin (fuel + 1) ts = (Expr.operand (Expr.parseWithin fuel) ts >>= fun r =>
      links (Expr.parseWithin fuel) r.2.length r.2 >>= fun r' =>
        pure (Expr.ofChain r.1 r'.1, r'.2)) :=
  rfl

theorem keeps_parseWithin (levels : Nat) : Keeps source m levels (Expr.parseWithin levels) := by
  induction levels with
  | zero =>
      intro fuel ts o h hlevels
      have := h.length_tail_lt
      omega
  | succ levels ih =>
      intro fuel ts o h hlevels hfuel
      obtain ⟨fuel, rfl⟩ := h.exists_succ (Nat.le_trans (by omega) hfuel)
      have hoperand := operand_follows ih
      rw [expression] at h
      rw [parseWithin_succ]
      rcases h.bind_cases fun o h => (hoperand fuel ts o h hlevels (by omega)).comes with
        ⟨first, us, ⟨hread, hlt⟩, hus⟩ | ⟨e, c, hread, ho, hon⟩
      · rw [hread, ok_bind]
        have hloops := loopsClimb hoperand (us.length + 1) us (by omega) (Nat.lt_succ_self _)
        rcases (hloops fuel 1 first o).1 hus (by omega) with
          ⟨tree, vs, ⟨taken, htakes⟩, hvs⟩ | ⟨e, c, hbreaks, ho, hon⟩
        · have hshort := htakes.short
          obtain rfl := htakes.ofChain (isOperand_of_operand hread)
          dsimp only
          rw [htakes.links_eq, ok_bind]
          exact hvs.pure (by omega)
        · dsimp only
          rw [hbreaks us.length (Nat.le_refl _)]
          exact Or.inr ⟨e, c, rfl, ho, hon⟩
      · rw [hread]
        exact Or.inr ⟨e, c, rfl, ho, hon⟩

/-- **Expressions are read off a cursor as they are read off the list.** -/
theorem expression_follows {fuel : Nat} (h : Stands source m ts (expression fuel) o)
    (hfuel : 3 * ts.length + 2 ≤ fuel) : Follows source m ts.length (Expr.parse ts) o :=
  keeps_parseWithin _ fuel ts o h (Nat.le_succ _) hfuel
end Pull

/-! ### Chains -/

theorem Derivation.Operand.isOperand {isName : Token → Prop} {us : List Token} {e : Expr}
    (h : Operand isName us e) : e.isOperand = true := by
  cases h <;> rfl

theorem Derivation.Links.operands {isName : Token → Prop} {vs : List Token} {links : List Link}
    (h : Links isName vs links) : ∀ link ∈ links, link.operand.isOperand = true := by
  induction links generalizing vs with
  | nil => simp
  | cons link links ih =>
      cases h with
      | cons _ h hs => exact List.forall_mem_cons.2 ⟨h.isOperand, ih hs⟩

/-- An operand does not end with a minus sign. -/
theorem Derivation.Operand.last {us : List Token} {e : Expr} (h : Operand Token.IsName us e) :
    ∃ ws t, us = ws ++ [t] ∧ t.kind ≠ .sign (.arith .sub) := by
  match h with
  | .lead (t := t) _ h =>
      obtain ⟨ws, u, rfl, hu⟩ := h.last
      exact ⟨t :: ws, u, rfl, hu⟩
  | .smallest (t := t) (m := m) _ hm _ => exact ⟨[t], m, rfl, by simp [hm]⟩
  | .name (t := t) ht => exact ⟨[], t, rfl, by simp [show t.kind = .name from ht]⟩
  | .literal (t := t) ht => exact ⟨[], t, rfl, by simp [ht]⟩
  | .escape (t := t) ht => exact ⟨[], t, rfl, by simp [ht]⟩
  | .paren _ _ hc => exact ⟨_, _, rfl, by simp [hc]⟩

/-- Nor does a chain. -/
theorem Derivation.Links.last {us vs : List Token} {e : Expr} {links : List Link}
    (h : Links Token.IsName vs links) (he : Operand Token.IsName us e) :
    ∃ ws t, us ++ vs = ws ++ [t] ∧ t.kind ≠ .sign (.arith .sub) := by
  induction links generalizing us vs e with
  | nil =>
      cases h
      obtain ⟨ws, t, rfl, ht⟩ := he.last
      exact ⟨ws, t, List.append_nil _, ht⟩
  | cons link links ih =>
      cases h with
      | cons _ h hs =>
          obtain ⟨ws, u, heq, hu⟩ := ih hs h
          exact ⟨us ++ _ :: ws, u, by rw [List.cons_append, heq, List.append_assoc]; rfl, hu⟩

namespace Pull

open Cursor

/-- An expression that is read off the list is read off the cursor, unless the cursor stops at a
fault behind it. -/
theorem expression_of_parse {source : String} {c : Cursor} {ts rest : List Token} {tree : Expr}
    {fuel : Nat} (hc : Shows source c ts) (hparse : Expr.parse ts = .ok (tree, rest))
    (hfuel : 3 * ts.length + 2 ≤ fuel) :
    ∃ c', Shows source c' rest ∧
      expression fuel c = some (c'.refusal?.elim (.ok tree) .error, c') := by
  rcases expression_follows (.of_shows hc _) hfuel with ⟨p, hp, hstands, hlt⟩ | ⟨e, -, he, -⟩
  · obtain rfl : p = (tree, rest) := Except.ok.inj (hp.symm.trans hparse)
    rcases hstands with ⟨c', ho, hc', hopen⟩ | ⟨e, c', ho, hc', hrefusal⟩
    · exact ⟨c', hc', by rw [ho, hopen hlt]; rfl⟩
    · exact ⟨c', hc', by rw [ho, hrefusal]; rfl⟩
  · cases he.symm.trans hparse

/-- **An expression is grouped by precedence.**  A cursor stands in front of operands with
operators between them, and behind those there is a token that is not an operator.  Then climbing
takes exactly the chain, and it comes to the tree that is split at the leftmost operator of those
that bind least; no other tree with this chain is grouped.  If the token behind the chain is a
fault, reading stops with the error of this fault instead. -/
theorem expression_chain {source : String} {c : Cursor} {us vs rest : List Token} {first : Expr}
    {links : List Link} (hc : Shows source c (us ++ vs ++ rest))
    (hfirst : Operand Token.IsName us first) (hlinks : Links Token.IsName vs links)
    (hrest : (peek rest).kind.binOp? = none) :
    (∃ c', Shows source c' rest ∧ ∀ fuel, 3 * (us ++ vs ++ rest).length + 2 ≤ fuel →
      ((∀ f, (peek rest).kind ≠ .fault f) →
        expression fuel c = some (.ok (Expr.ofSplit first links), c')) ∧
      ∀ f, (peek rest).kind = .fault f → expression fuel c =
        some (.error ⟨.lexical f (peek rest).lexeme, (peek rest).span⟩, c')) ∧
    Expr.parse (us ++ vs ++ rest) = .ok (Expr.ofSplit first links, rest) ∧
    ∀ tree : Expr, (tree.chain = (first, links) ∧ tree.Grouped) ↔
      tree = Expr.ofSplit first links := by
  have hoperands : Expr.Operands first links := ⟨hfirst.isOperand, hlinks.operands⟩
  have hexpression : Expression Token.IsName (us ++ vs) (Expr.ofSplit first links) := by
    rw [← Expr.ofChain_eq_ofSplit hoperands]
    exact .chain hfirst hlinks
  have hparse := hexpression.parse hrest
  refine ⟨?_, hparse, Expr.grouped_iff_eq_ofSplit hoperands⟩
  obtain ⟨c', hc', -⟩ := expression_of_parse hc hparse (Nat.le_refl _)
  have hprevious : c'.previous.kind ≠ .sign (.arith .sub) := by
    obtain ⟨ws, t, heq, ht⟩ := hlinks.last hfirst
    rw [heq, List.append_assoc] at hc
    rw [hc.previous hc']
    exact ht
  refine ⟨c', hc', fun fuel hfuel => ?_⟩
  obtain ⟨c'', hc'', hrun⟩ := expression_of_parse hc hparse hfuel
  obtain rfl := hc'.unique hc''
  rw [hc'.peek]
  constructor
  · intro hk
    rw [hrun, refusal?_of_ne_fault hk]
    rfl
  · intro f hk
    rw [hrun, refusal?_of_fault hk hprevious]
    rfl

/-- `a OR b * c - d - e`: behind an operator stands one that binds tighter, one that binds less,
and one that binds equally. -/
def mixedText : String :=
  "a OR b * c - d - e"

theorem expression_chain_mixedText :
    let var (s : String) (col : Nat) : Expr := .var s ⟨1, col, 1⟩
    let product := Expr.join (var "b" 6) ⟨.arith .mul, ⟨1, 8, 1⟩⟩ (var "c" 10)
    let difference := Expr.join (var "d" 14) ⟨.arith .sub, ⟨1, 16, 1⟩⟩ (var "e" 18)
    ∃ c, c.current.kind = .endOfInput ∧ expression 32 (ofSource mixedText) =
      some (.ok (Expr.join (var "a" 1) ⟨.connect .or, ⟨1, 3, 2⟩⟩
        (Expr.join product ⟨.arith .sub, ⟨1, 12, 1⟩⟩ difference)), c) := by
  intro var product difference
  let word (s : String) (col : Nat) : Token := ⟨.name, s, ⟨1, col, 1⟩⟩
  let sign (op : Arith) (col : Nat) : Token := ⟨.sign (.arith op), op.text, ⟨1, col, 1⟩⟩
  have hname : ∀ s col, Operand Token.IsName [word s col] (var s col) := fun _ _ => .name rfl
  have hlinks := Links.cons (t := ⟨.keyword .OR, "OR", ⟨1, 3, 2⟩⟩) rfl (hname "b" 6) <|
    .cons (t := sign .mul 8) rfl (hname "c" 10) <|
    .cons (t := sign .sub 12) rfl (hname "d" 14) <|
    .cons (t := sign .sub 16) rfl (hname "e" 18) .nil
  have hsettled : settled mixedText = [word "a" 1, ⟨.keyword .OR, "OR", ⟨1, 3, 2⟩⟩, word "b" 6,
      sign .mul 8, word "c" 10, sign .sub 12, word "d" 14, sign .sub 16, word "e" 18,
      ⟨.endOfInput, "", ⟨1, 19, 0⟩⟩] := by decide +kernel
  have hc := Shows.start mixedText
  rw [hsettled] at hc
  have hrest : (peek [⟨.endOfInput, "", ⟨1, 19, 0⟩⟩]).kind.binOp? = none := rfl
  obtain ⟨⟨c, hc', hrun⟩, -, hunique⟩ := expression_chain hc (hname "a" 1) hlinks hrest
  have hoperand : ∀ s col, (var s col).Grouped := fun _ _ => .operand rfl
  have hproduct : product.Grouped :=
    .join (hoperand _ _) (hoperand _ _) (by decide) (by decide)
  have hdifference : difference.Grouped :=
    .join (hoperand _ _) (hoperand _ _) (by decide) (by decide)
  have htree := (hunique _).1
    ⟨rfl, .join (hoperand "a" 1) (.join hproduct hdifference (by decide) (by decide))
      (by decide) (by decide)⟩
  refine ⟨c, by rw [← hc'.peek], ?_⟩
  rw [htree]
  exact (hrun 32 (by decide)).1 (by simp)

/-- Behind the chain stands a sign that the language does not have. -/
def strayText : String :=
  "1+2@"

theorem expression_stops_at_strayText :
    ∃ us vs rest first links, settled strayText = us ++ vs ++ rest ∧
      Operand Token.IsName us first ∧ Links Token.IsName vs links ∧
      (peek rest).kind.binOp? = none ∧
      (expression 32 (ofSource strayText)).map Prod.fst =
        some (.error ⟨.lexical .unknownSymbol "@", ⟨1, 4, 1⟩⟩) := by
  let digit (n : Int32) (s : String) (col : Nat) : Token := ⟨.literal (.int n), s, ⟨1, col, 1⟩⟩
  have hdigit : ∀ n s col, Operand Token.IsName [digit n s col] (.literal (.int n) ⟨1, col, 1⟩) :=
    fun _ _ _ => .literal rfl
  refine ⟨_, _, [⟨.fault .unknownSymbol, "@", ⟨1, 4, 1⟩⟩, ⟨.endOfInput, "", ⟨1, 5, 0⟩⟩], _, _, ?_,
    hdigit 1 "1" 1, .cons (t := ⟨.sign (.arith .add), "+", ⟨1, 2, 1⟩⟩) rfl (hdigit 2 "2" 3) .nil,
    rfl, ?_⟩
  · decide +kernel
  · rfl

end Pull

end Pseudocode

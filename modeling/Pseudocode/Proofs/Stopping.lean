/-
Where reading stops.

Reading goes through the tokens from left to right and stops at the first one that does not
fit; the error is the one at that token.  All tokens in front of it have been taken, and a
fault is taken in one case only: the digits of the smallest INT behind a minus sign that
stands before an operand.  So no fault is passed over.  The one that reading stops at is
reported as what it is, and so is every other token that does not fit.

The proof follows the reading, with a lemma for each of its functions.  What the lemmas
carry along is which tokens have been taken (`Reached`), and of the last of these whether an
operand ends with it: that decides whether a minus sign behind it stands between two
operands or before one.

Reading sees the words in the wrong case that are names already settled as names.  Which
ones these are can be said of the tokens as they are written, and so can where reading
stops.
-/
import Pseudocode.Proofs.Acceptance
import Pseudocode.Proofs.Positions

namespace Pseudocode

namespace Token

/-! ### What stands to the left -/

/-- Something holds of the kind of the last token. -/
def Last (p : Kind → Prop) (before : List Token) : Prop :=
  ∃ front t, before = front ++ [t] ∧ p t.kind

/-- Whether an operand can end with a token of this kind.  A fault that is taken is a name,
or the digits of a literal. -/
def Kind.endsOperand : Kind → Bool
  | .name | .literal _ | .escape _ | .fault _ => true
  | .sign s => s = .closeParen
  | _ => false

/-- The last token is a minus sign, and no operand ends in front of it: it stands before an
operand. -/
def PrefixMinus (before : List Token) : Prop :=
  ∃ front t, before = front ++ [t] ∧ t.kind = .sign (.arith .sub) ∧
    ¬ Last (·.endsOperand = true) front

/-- Every fault among the tokens has a property, together with the tokens in front of it. -/
def Faults (P : List Token → Token → Prop) (ts : List Token) : Prop :=
  ∀ front t back, ts = front ++ t :: back → ∀ f, t.kind = .fault f → P front t

/-- No minus sign stands right to the left that waits for its operand. -/
def Steady (before : List Token) : Prop :=
  ¬ PrefixMinus before

/-- A token stands right to the left behind which an expression can start. -/
abbrev Opening (before : List Token) : Prop :=
  Last (fun k => k.endsOperand = false ∧ k ≠ .sign (.arith .sub)) before

/-- An operand ends right to the left. -/
abbrev Closing (before : List Token) : Prop :=
  Last (·.endsOperand = true) before

@[simp] theorem last_concat {p : Kind → Prop} {before : List Token} {t : Token} :
    Last p (before ++ [t]) ↔ p t.kind := by
  constructor
  · rintro ⟨front, u, h, hu⟩
    obtain ⟨-, rfl⟩ : before = front ∧ t = u := by simpa using h
    exact hu
  · exact fun h => ⟨before, t, rfl, h⟩

@[simp] theorem prefixMinus_concat {before : List Token} {t : Token} :
    PrefixMinus (before ++ [t]) ↔
      t.kind = .sign (.arith .sub) ∧ ¬ Last (·.endsOperand = true) before := by
  constructor
  · rintro ⟨front, u, h, hu, hfront⟩
    obtain ⟨rfl, rfl⟩ : before = front ∧ t = u := by simpa using h
    exact ⟨hu, hfront⟩
  · exact fun h => ⟨before, t, rfl, h⟩

theorem Last.imp {p q : Kind → Prop} {before : List Token} (h : Last p before)
    (hpq : ∀ k, p k → q k) : Last q before := by
  obtain ⟨front, t, rfl, ht⟩ := h
  exact ⟨front, t, rfl, hpq _ ht⟩

theorem Closing.steady {before : List Token} (h : Closing before) : Steady before := by
  obtain ⟨front, t, rfl, ht⟩ := h
  rw [Steady, prefixMinus_concat]
  rintro ⟨hk, -⟩
  rw [hk] at ht
  simp [Kind.endsOperand] at ht

theorem Opening.steady {before : List Token} (h : Opening before) : Steady before := by
  obtain ⟨front, t, rfl, -, ht⟩ := h
  rw [Steady, prefixMinus_concat]
  exact fun hminus => ht hminus.1

theorem Opening.not_closing {before : List Token} (h : Opening before) : ¬ Closing before := by
  obtain ⟨front, t, rfl, ht, -⟩ := h
  simp [ht]

theorem Last.steady {k : Kind} {before : List Token} (h : Last (· = k) before)
    (hk : k ≠ .sign (.arith .sub)) : Steady before := by
  obtain ⟨front, t, rfl, ht⟩ := h
  rw [Steady, prefixMinus_concat]
  exact fun hminus => hk (ht ▸ hminus.1)

/-- Where some tokens and one more can be split. -/
theorem concat_eq_append_cons {before front back : List Token} {t u : Token}
    (h : before ++ [t] = front ++ u :: back) :
    (front = before ∧ u = t ∧ back = []) ∨
      ∃ back', back = back' ++ [t] ∧ before = front ++ u :: back' := by
  rcases List.eq_nil_or_concat back with rfl | ⟨back, v, rfl⟩
  · obtain ⟨rfl, rfl⟩ : before = front ∧ t = u := by simpa using h
    exact Or.inl ⟨rfl, rfl, rfl⟩
  · rw [List.concat_eq_append, ← List.cons_append, ← List.append_assoc] at h
    obtain ⟨rfl, hv⟩ := List.append_inj' h rfl
    obtain rfl := List.singleton_inj.1 hv
    exact Or.inr ⟨back, by simp, rfl⟩

theorem faults_nil {P : List Token → Token → Prop} : Faults P [] := by
  intro front t back h
  simp at h

theorem faults_concat {P : List Token → Token → Prop} {ts : List Token} {t : Token} :
    Faults P (ts ++ [t]) ↔ Faults P ts ∧ ∀ f, t.kind = .fault f → P ts t := by
  constructor
  · intro h
    refine ⟨fun front u back hsplit => h front u (back ++ [t]) (by simp [hsplit]), ?_⟩
    exact h ts t [] rfl
  · rintro ⟨hts, ht⟩ front u back h
    rcases concat_eq_append_cons h with ⟨rfl, rfl, -⟩ | ⟨back', -, rfl⟩
    · exact ht
    · exact hts front u back' rfl

end Token

theorem Terminated.ne_nil {ts : List Token} (h : Terminated ts) : ts ≠ [] := by
  obtain ⟨init, eof, rfl, -, -⟩ := h
  simp

theorem Terminated.tail {t : Token} {ts : List Token} (h : Terminated (t :: ts))
    (ht : t.kind ≠ .endOfInput) : Terminated ts := by
  obtain ⟨init, eof, heq, heof, hinit⟩ := h
  cases init with
  | nil =>
      rw [List.nil_append, List.cons.injEq] at heq
      exact absurd (heq.1 ▸ heof) ht
  | cons u init =>
      rw [List.cons_append, List.cons.injEq] at heq
      exact ⟨init, eof, heq.2, heof, fun v hv => hinit v (List.mem_cons_of_mem _ hv)⟩

theorem Terminated.eq_nil {t : Token} {ts : List Token} (h : Terminated (t :: ts))
    (ht : t.kind = .endOfInput) : ts = [] := by
  obtain ⟨init, eof, heq, heof, hinit⟩ := h
  cases init with
  | nil =>
      rw [List.nil_append, List.cons.injEq] at heq
      exact heq.2
  | cons u init =>
      rw [List.cons_append, List.cons.injEq] at heq
      exact absurd (heq.1 ▸ ht) (hinit u (by simp))

namespace Grammar

open Token

/-! ### The tokens that have been taken -/

/-- A fault that reading takes: the digits of the smallest INT, with a minus sign before
them. -/
def Excused (before : List Token) (t : Token) : Prop :=
  Expr.isSmallestMagnitude t = true ∧ PrefixMinus before

/-- Of the tokens `all`, reading has taken `before` and goes on with `ts`. -/
structure Reached (all before ts : List Token) : Prop where
  split : all = before ++ ts
  taken : Faults Excused before
  ends : Terminated ts

/-- Reading goes on with `ts`, and something holds of the tokens it has taken. -/
def After (all : List Token) (P : List Token → Prop) (ts : List Token) : Prop :=
  ∃ before, Reached all before ts ∧ P before

/-- The error is the one at a token that is not taken, behind tokens that are. -/
def Stopped (all : List Token) (e : Error) : Prop :=
  ∃ before t rest fault, all = before ++ t :: rest ∧ Faults Excused before ∧
    ¬ Excused before t ∧ e = reject t fault

/-- Reading succeeds with `post`, or it stops at a token. -/
def Outcome {α : Type} (all : List Token) (post : α → Prop) : Except Error α → Prop
  | .ok a => post a
  | .error e => Stopped all e

section

variable {α β : Type} {all ts : List Token} {P Q : List Token → Prop}

/-- Reading takes the next token. -/
theorem Reached.take {before : List Token} {t : Token} (h : Reached all before (t :: ts))
    (hend : t.kind ≠ .endOfInput) (hfault : ∀ f, t.kind = .fault f → Excused before t) :
    Reached all (before ++ [t]) ts where
  split := by simp [h.split]
  taken := faults_concat.2 ⟨h.taken, hfault⟩
  ends := h.ends.tail hend

namespace After

theorem imp (h : After all P ts) (hPQ : ∀ before, P before → Q before) : After all Q ts := by
  obtain ⟨before, hreached, hbefore⟩ := h
  exact ⟨before, hreached, hPQ before hbefore⟩

/-- There is a next token. -/
theorem exists_cons (h : After all P ts) : ∃ t us, ts = t :: us := by
  obtain ⟨before, hreached, -⟩ := h
  exact List.exists_cons_of_ne_nil (hreached.ends.ne_nil)

theorem take {k : Kind} (h : After all P ts) (hk : (peek ts).kind = k) (hend : k ≠ .endOfInput)
    (hfault : ∀ f, k ≠ .fault f) : After all (Last (· = k)) ts.tail := by
  obtain ⟨t, us, rfl⟩ := h.exists_cons
  obtain ⟨before, hreached, -⟩ := h
  refine ⟨before ++ [t], hreached.take ?_ fun f hf => ?_, last_concat.2 hk⟩
  · exact fun h => hend (hk.symm.trans h)
  · exact absurd (hk.symm.trans hf) (hfault f)

/-- Reading stops at the next token. -/
theorem stopped (h : After all Steady ts) (fault : GrammarFault) :
    Stopped all (reject (peek ts) fault) := by
  obtain ⟨t, us, rfl⟩ := h.exists_cons
  obtain ⟨before, hreached, hsteady⟩ := h
  exact ⟨before, t, us, fault, hreached.split, hreached.taken, fun he => hsteady he.2, rfl⟩

theorem steady (h : After all Closing ts) : After all Steady ts :=
  h.imp fun _ => Closing.steady

theorem last_steady {k : Kind} (h : After all (Last (· = k)) ts) (hk : k ≠ .sign (.arith .sub)) :
    After all Steady ts :=
  h.imp fun _ hb => hb.steady hk

theorem closing {k : Kind} (h : After all (Last (· = k)) ts) (hk : k.endsOperand = true) :
    After all Closing ts :=
  h.imp fun _ hb => hb.imp fun _ hk' => hk' ▸ hk

theorem opening {k : Kind} (h : After all (Last (· = k)) ts) (hk : k.endsOperand = false)
    (hminus : k ≠ .sign (.arith .sub)) : After all Opening ts :=
  h.imp fun _ hb => hb.imp fun _ hk' => hk' ▸ ⟨hk, hminus⟩

end After

namespace Outcome

variable {post : β → Prop}

theorem bind {x : Except Error α} {f : α → Except Error β} {q : α → Prop}
    (hx : Outcome all q x) (hf : ∀ a, q a → Outcome all post (f a)) :
    Outcome all post (x >>= f) := by
  cases x with
  | ok a => exact hf a hx
  | error e => exact hx

theorem imp {x : Except Error β} {q : β → Prop} (hx : Outcome all q x)
    (hq : ∀ b, q b → post b) : Outcome all post x := by
  cases x with
  | ok b => exact hq b hx
  | error e => exact hx

end Outcome

/-! ### Steps of the grammar -/

theorem expect_outcome {k : Kind} (h : After all Steady ts) (hend : k ≠ .endOfInput)
    (hfault : ∀ f, k ≠ .fault f) :
    Outcome all (fun r => After all (Last (· = k)) r.2) (expect k ts) := by
  unfold expect
  by_cases hk : (peek ts).kind = k
  · rw [if_pos hk]
    exact h.take hk hend hfault
  · rw [if_neg hk]
    exact h.stopped _

theorem name_outcome (h : After all Steady ts) :
    Outcome all (fun r => After all Closing r.2) (name ts) := by
  refine Outcome.bind (expect_outcome h (by simp) (by simp)) fun r hr => ?_
  exact hr.closing rfl

theorem After.skipNewlines (h : After all Steady ts) : After all Steady (skipNewlines ts) := by
  induction ts with
  | nil => exact h
  | cons t ts ih =>
      by_cases ht : t.kind = .newline
      · rw [skipNewlines_newline ht]
        exact ih ((h.take ht (by simp) (by simp)).last_steady (by simp))
      · rwa [skipNewlines_cons ht]

theorem lineEnd_outcome (h : After all Steady ts) :
    Outcome all (After all Steady) (lineEnd ts) := by
  unfold lineEnd
  dsimp only
  split
  · rename_i hk
    exact (h.take hk (by simp) (by simp)).last_steady (by simp)
  · exact h
  · exact h.stopped _

/-- What every round keeps, all rounds keep. -/
theorem many_outcome (inv : List Token → Prop) {more : List Token → Bool} {phrase : Phrase α}
    (hphrase : ∀ ts, inv ts → more ts = true → Outcome all (fun r => inv r.2) (phrase ts))
    (fuel : Nat) : ∀ ts, inv ts → Outcome all (fun r => inv r.2) (many more phrase fuel ts) := by
  induction fuel with
  | zero => exact fun ts hts => hts
  | succ fuel ih =>
      intro ts hts
      rw [many]
      by_cases hmore : more ts = true
      · rw [if_pos hmore]
        exact Outcome.bind (hphrase ts hts hmore) fun r hr =>
          Outcome.bind (ih _ hr) fun r' hr' => hr'
      · rw [if_neg hmore]
        exact hts

theorem separated_outcome {sign : Sign} {phrase : Phrase α}
    (hphrase : ∀ ts, After all Opening ts → Outcome all (fun r => After all Steady r.2) (phrase ts))
    (hclose : sign ≠ .closeParen) (hminus : sign ≠ .arith .sub) (h : After all Opening ts) :
    Outcome all (fun r => After all Steady r.2) (separated sign phrase ts) := by
  refine Outcome.bind (hphrase ts h) fun r hr => ?_
  refine Outcome.bind (many_outcome (After all Steady) ?_ _ _ hr) fun r' hr' => hr'
  intro us hus hmore
  have hsign := hus.take (k := .sign sign) (by simpa using hmore) (by simp) (by simp)
  refine hphrase _ (hsign.opening ?_ (by simpa using hminus))
  cases sign <;> simp_all [Kind.endsOperand]

end

end Grammar

open Grammar Token

/-! ### Expressions -/

theorem Token.Kind.endsOperand_of_unOp? {k : Kind} {op : UnOp} (h : k.unOp? = some op) :
    k.endsOperand = false ∧ (k = .sign (.arith .sub) → op = .minus) := by
  unfold unOp? at h
  split at h <;> simp_all [endsOperand]

theorem Token.Kind.unOp?_eq_minus {k : Kind} (h : k.unOp? = some .minus) :
    k = .sign (.arith .sub) := by
  unfold unOp? at h
  split at h <;> simp_all

theorem Token.Kind.endsOperand_of_binOp? {k : Kind} {op : BinOp} (h : k.binOp? = some op) :
    k.endsOperand = false ∧ k ≠ .endOfInput := by
  unfold binOp? at h
  split at h <;> simp_all [endsOperand]

namespace Expr

section

variable {all : List Token} {expression : Phrase Expr}

/-- Reads an expression or stops. -/
def Careful (all : List Token) (expression : Phrase Expr) : Prop :=
  ∀ ts, After all Opening ts → Outcome all (fun r => After all Closing r.2) (expression ts)

theorem primary_outcome (hexpr : Careful all expression) {P : List Token → Prop} {t : Token}
    {ts : List Token} (h : After all P (t :: ts)) (hstop : ∀ fault, Stopped all (reject t fault)) :
    Outcome all (fun r => After all Closing r.2) (primary expression t ts) := by
  unfold primary
  cases hk : t.kind with
  | name => exact (h.take hk (by simp) (by simp)).closing rfl
  | literal v => exact (h.take hk (by simp) (by simp)).closing rfl
  | escape c => exact (h.take hk (by simp) (by simp)).closing rfl
  | sign sign =>
      cases sign with
      | openParen =>
          have hopen := (h.take hk (by simp) (by simp)).opening rfl (by simp)
          refine Outcome.bind (hexpr _ hopen) fun r hr => ?_
          refine Outcome.bind (expect_outcome hr.steady (by simp) (by simp)) fun r' hr' => ?_
          exact hr'.closing rfl
      | _ => exact hstop _
  | _ => exact hstop _

/-- No operand ends right to the left, and the next token is not excused. -/
structure Awaits (ts before : List Token) : Prop where
  noOperand : ¬ Closing before
  notExcused : ¬ Excused before (peek ts)

theorem operand_outcome (hexpr : Careful all expression) :
    ∀ ts, After all (Awaits ts) ts →
      Outcome all (fun r => After all Closing r.2) (operand expression ts) := by
  intro ts
  induction ts with
  | nil =>
      intro h
      obtain ⟨t, us, hnil⟩ := h.exists_cons
      cases hnil
  | cons t ts ih =>
      intro h
      obtain ⟨before, hreached, hawaits⟩ := h
      rw [operand]
      split
      · rename_i op hop
        obtain ⟨hoperand, hminus⟩ := Kind.endsOperand_of_unOp? hop
        have hnext : Reached all (before ++ [t]) ts :=
          hreached.take (fun hk => by simp [hk, Kind.unOp?] at hop)
            fun f hk => by simp [hk, Kind.unOp?] at hop
        split
        · -- The digits of the smallest INT are taken together with the sign.
          rename_i hmin
          simp only [isSmallestMagnitude, Bool.and_eq_true, decide_eq_true_eq] at hmin
          obtain ⟨rfl, hkind, hread⟩ := hmin
          have hsub : t.kind = .sign (.arith .sub) := Kind.unOp?_eq_minus hop
          cases ts with
          | nil => simp at hkind
          | cons m ts =>
              have hexcused : Excused (before ++ [t]) m := by
                refine ⟨by simp [isSmallestMagnitude, hkind, hread], ?_⟩
                exact prefixMinus_concat.2 ⟨hsub, hawaits.noOperand⟩
              refine ⟨_, hnext.take (by simp [hkind]) fun _ _ => hexcused, ?_⟩
              exact last_concat.2 (by simp [hkind, Kind.endsOperand])
        · rename_i hnot
          refine Outcome.bind (ih ⟨_, hnext, ?_, ?_⟩) fun r hr => hr
          · simp [hoperand]
          · rintro ⟨hsmallest, hprefix⟩
            rw [prefixMinus_concat] at hprefix
            exact hnot (by simp [hminus hprefix.1, hsmallest])
      · refine primary_outcome hexpr ⟨before, hreached, hawaits⟩ fun fault => ?_
        exact ⟨before, t, ts, fault, hreached.split, hreached.taken, hawaits.notExcused, rfl⟩

/-- Behind an operand a minus sign stands between two operands. -/
theorem link_outcome (hexpr : Careful all expression) (ts : List Token)
    (h : After all Closing ts) (hmore : (peek ts).kind.binOp?.isSome = true) :
    Outcome all (fun r => After all Closing r.2) (link expression ts) := by
  obtain ⟨t, us, rfl⟩ := h.exists_cons
  obtain ⟨op, hop⟩ := Option.isSome_iff_exists.1 hmore
  obtain ⟨hoperand, hend⟩ := Kind.endsOperand_of_binOp? hop
  obtain ⟨before, hreached, hclosing⟩ := h
  have hnext : Reached all (before ++ [t]) us :=
    hreached.take hend fun f hk => by simp [hk, Kind.binOp?] at hop
  simp only [link, hop, List.tail_cons]
  refine Outcome.bind (operand_outcome hexpr _ ⟨_, hnext, ?_, ?_⟩) fun r hr => hr
  · simp [hoperand]
  · rintro ⟨-, hprefix⟩
    exact (prefixMinus_concat.1 hprefix).2 hclosing

theorem parseWithin_outcome (fuel : Nat) : Careful all (parseWithin fuel) := by
  induction fuel with
  | zero => exact fun ts h => (h.imp fun _ => Opening.steady).stopped _
  | succ fuel ih =>
      intro ts h
      have hawaits : After all (Awaits ts) ts := h.imp fun before hb =>
        ⟨Opening.not_closing hb, fun he => Opening.steady hb he.2⟩
      refine Outcome.bind (operand_outcome ih ts hawaits) fun r hr => ?_
      exact Outcome.bind (many_outcome _ (link_outcome ih) _ _ hr) fun r' hr' => hr'

theorem parse_outcome : Careful all Expr.parse :=
  fun ts h => parseWithin_outcome _ ts h

end

end Expr

/-! ### Statements -/

namespace Stmt

section

variable {all ts : List Token}

theorem declarator_outcome (h : After all Steady ts) :
    Outcome all (fun r => After all Steady r.2) (declarator ts) := by
  refine Outcome.bind (name_outcome h) fun ⟨n, us⟩ hr => ?_
  dsimp only
  split
  · rename_i hassign
    have hopen := (hr.take hassign (by simp) (by simp)).opening rfl (by simp)
    exact Outcome.bind (Expr.parse_outcome _ hopen) fun r' hr' => hr'.steady
  · exact hr.steady

theorem assigned_outcome (fuel : Nat) :
    ∀ ts, After all Opening ts →
      Outcome all (fun r => After all Steady r.2) (assigned fuel ts) := by
  induction fuel with
  | zero => exact fun ts h => (h.imp fun _ => Opening.steady).stopped _
  | succ fuel ih =>
      intro ts h
      refine Outcome.bind (Expr.parse_outcome ts h) fun r hr => ?_
      dsimp only
      split
      · rename_i hassign
        split
        · have hopen := (hr.take hassign (by simp) (by simp)).opening rfl (by simp)
          exact Outcome.bind (ih _ hopen) fun r' hr' => hr'
        · exact hr.steady.stopped _
      · exact hr.steady

theorem item_outcome (h : After all Opening ts) :
    Outcome all (fun r => After all Steady r.2) (item ts) := by
  unfold item
  dsimp only
  split
  · rename_i hdollar
    exact (h.take hdollar (by simp) (by simp)).last_steady (by simp)
  · exact Outcome.bind (Expr.parse_outcome ts h) fun r hr => hr.steady

theorem condition_outcome (h : After all Steady ts) :
    Outcome all (fun r => After all Steady r.2) (condition ts) := by
  refine Outcome.bind (expect_outcome h (by simp) (by simp)) fun r hr => ?_
  refine Outcome.bind (Expr.parse_outcome _ (hr.opening rfl (by simp))) fun r' hr' => ?_
  refine Outcome.bind (expect_outcome hr'.steady (by simp) (by simp)) fun r'' hr'' => ?_
  exact hr''.last_steady (by simp)

/-- Reads statements or stops. -/
def Careful (all : List Token) (statements : Phrase (List Stmt)) : Prop :=
  ∀ ts, After all Steady ts → Outcome all (fun r => After all Steady r.2) (statements ts)

variable {statements : Phrase (List Stmt)}

theorem keyword_outcome (h : After all Steady ts) (k : Keyword) :
    Outcome all (fun r => After all Steady r.2) (expect (.keyword k) ts) :=
  (expect_outcome h (by simp) (by simp)).imp fun _ hr => hr.last_steady (by simp)

theorem block_outcome (hs : Careful all statements) (k : Keyword) (h : After all Steady ts) :
    Outcome all (fun r => After all Steady r.2) (block statements k ts) := by
  refine Outcome.bind (keyword_outcome h.skipNewlines .BEGIN) fun r₁ h₁ => ?_
  refine Outcome.bind (keyword_outcome h₁ k) fun r₂ h₂ => ?_
  refine Outcome.bind (lineEnd_outcome h₂) fun us h₃ => ?_
  refine Outcome.bind (hs us h₃) fun r₄ h₄ => ?_
  refine Outcome.bind (keyword_outcome h₄ .END) fun r₅ h₅ => ?_
  exact Outcome.bind (keyword_outcome h₅ k) fun r₆ h₆ => h₆

theorem clauseBody_outcome (hs : Careful all statements) (h : After all Steady ts) :
    Outcome all (fun r => After all Steady r.2) (clauseBody statements ts) := by
  refine Outcome.bind (block_outcome hs .IF h) fun r hr => ?_
  exact Outcome.bind (lineEnd_outcome hr) fun us hus => hus.skipNewlines

theorem otherwise_outcome (hs : Careful all statements) (fuel : Nat) :
    ∀ ts, After all Steady ts →
      Outcome all (fun r => After all Steady r.2) (otherwise statements fuel ts) := by
  induction fuel with
  | zero => exact fun ts h => h
  | succ fuel ih =>
      intro ts h
      simp only [otherwise]
      split
      · rename_i helse
        have hafter := (h.take helse (by simp) (by simp)).last_steady (by simp)
        split
        · rename_i hif
          have hafter := (hafter.take hif (by simp) (by simp)).last_steady (by simp)
          refine Outcome.bind (condition_outcome hafter) fun r hr => ?_
          refine Outcome.bind (clauseBody_outcome hs hr) fun r' hr' => ?_
          exact Outcome.bind (ih _ hr') fun r'' hr'' => hr''
        · refine Outcome.bind (clauseBody_outcome hs hafter) fun ⟨body, us⟩ hr => ?_
          dsimp only
          split
          · exact hr.stopped _
          · exact hr
      · exact h

/-- A statement that ends with its line. -/
theorem lineEnd_bind_outcome {α : Type} (a : α) (h : After all Steady ts) :
    Outcome all (fun r => After all Steady r.2) (do return (a, ← lineEnd ts)) :=
  Outcome.bind (lineEnd_outcome h) fun _ hus => hus

theorem statement_outcome (hs : Careful all statements) (declarations : Bool)
    (h : After all Steady ts) :
    Outcome all (fun r => After all Steady r.2) (statement statements declarations ts) := by
  unfold statement
  dsimp only
  split
  · rename_i ty hk
    split
    · have hopen := (h.take hk (by simp) (by simp)).opening rfl (by simp)
      refine Outcome.bind (separated_outcome (fun us hus => ?_) (by simp) (by simp) hopen)
        fun r hr => lineEnd_bind_outcome _ hr
      exact declarator_outcome (hus.imp fun _ => Opening.steady)
    · exact h.stopped _
  · rename_i hk
    have hafter := (h.take hk (by simp) (by simp)).last_steady (by simp)
    refine Outcome.bind (expect_outcome hafter (by simp) (by simp)) fun r hr => ?_
    exact Outcome.bind (assigned_outcome _ _ (hr.opening rfl (by simp)))
      fun r' hr' => lineEnd_bind_outcome _ hr'
  · rename_i hk
    have hafter := (h.take hk (by simp) (by simp)).last_steady (by simp)
    refine Outcome.bind (expect_outcome hafter (by simp) (by simp)) fun r hr => ?_
    exact Outcome.bind
      (separated_outcome (fun us hus => item_outcome hus) (by simp) (by simp)
        (hr.opening rfl (by simp)))
      fun r' hr' => lineEnd_bind_outcome _ hr'
  · rename_i hk
    have hafter := (h.take hk (by simp) (by simp)).last_steady (by simp)
    refine Outcome.bind (expect_outcome hafter (by simp) (by simp)) fun r hr => ?_
    refine Outcome.bind (separated_outcome (fun us hus => ?_) (by simp) (by simp)
      (hr.opening rfl (by simp))) fun r' hr' => lineEnd_bind_outcome _ hr'
    exact (name_outcome (hus.imp fun _ => Opening.steady)).imp fun _ hn => hn.steady
  · rename_i hk
    have hafter := (h.take hk (by simp) (by simp)).last_steady (by simp)
    refine Outcome.bind (condition_outcome hafter) fun r hr => ?_
    refine Outcome.bind (clauseBody_outcome hs hr) fun r' hr' => ?_
    exact Outcome.bind (otherwise_outcome hs _ _ hr') fun r'' hr'' => hr''
  · rename_i hk
    have hafter := (h.take hk (by simp) (by simp)).last_steady (by simp)
    refine Outcome.bind (condition_outcome hafter) fun r hr => ?_
    exact Outcome.bind (block_outcome hs .WHILE hr) fun r' hr' => lineEnd_bind_outcome _ hr'
  · exact h.stopped _

theorem statements_outcome (fuel : Nat) :
    ∀ declarations, Careful all (Stmt.statements fuel declarations) := by
  induction fuel with
  | zero => exact fun _ ts h => h.stopped _
  | succ fuel ih =>
      intro declarations ts h
      simp only [Stmt.statements]
      split
      · exact h.skipNewlines
      · exact h.skipNewlines.stopped _
      · refine Outcome.bind (statement_outcome (ih false) declarations h.skipNewlines)
          fun r hr => ?_
        exact Outcome.bind (ih _ _ hr) fun r' hr' => hr'

end

end Stmt

namespace Program

/-- Reading takes all tokens up to the end of input, or it stops at one of them. -/
theorem ofTokens_outcome {ts : List Token} (hts : Terminated ts) :
    Outcome ts (fun _ => Faults Excused ts) (ofTokens ts) := by
  have hstart : After ts Steady ts :=
    ⟨[], ⟨rfl, faults_nil, hts⟩, by rintro ⟨front, t, h, -⟩; simp at h⟩
  refine Outcome.bind (Stmt.keyword_outcome hstart.skipNewlines .BEGIN) fun r₁ h₁ => ?_
  refine Outcome.bind (Stmt.keyword_outcome h₁ .CODE) fun r₂ h₂ => ?_
  refine Outcome.bind (lineEnd_outcome h₂) fun us h₃ => ?_
  refine Outcome.bind (Stmt.statements_outcome _ true us h₃) fun r₄ h₄ => ?_
  refine Outcome.bind (Stmt.keyword_outcome h₄ .END) fun r₅ h₅ => ?_
  refine Outcome.bind (Stmt.keyword_outcome h₅ .CODE) fun r₆ h₆ => ?_
  have hlast := h₆.skipNewlines
  unfold expect
  dsimp only
  split
  · rename_i hend
    -- The end of input is the last token, so all others have been taken.
    obtain ⟨eof, rest, hrest⟩ := hlast.exists_cons
    obtain ⟨before, hreached, -⟩ := hlast
    rw [hrest] at hend hreached
    have hends := hreached.ends.eq_nil hend
    rw [hreached.split, hends]
    exact faults_concat.2 ⟨hreached.taken, fun f hf => by rw [hend] at hf; cases hf⟩
  · exact hlast.stopped _

end Program

end Pseudocode

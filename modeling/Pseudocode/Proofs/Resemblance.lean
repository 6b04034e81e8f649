/-
Reading without looking at places.

Two lists of tokens match when they are the same tokens at other places, with any number of
line ends wherever the other list has some.  Matching tokens are read alike: both readings
succeed, with programs that are the same once their places are erased, or both fail for the
same cause.

The proof runs both readings side by side, with a lemma for each function.  A line end is
only ever taken at the end of a statement, and what comes next skips all further ones; so
behind a statement the tokens that are left match only once their line ends are skipped,
which is `Loose`.  The bounds of the two readings are not the same, since the lists have
different lengths; each is enough for its own list, so the lemmas have two of them.
-/
import Pseudocode.Proofs.Erasure
import Pseudocode.Proofs.GrammarSteps
import Pseudocode.Proofs.Naming

namespace Pseudocode

open Grammar

namespace Token

/-- The tokens differ in their places only. -/
def Resembles (t u : Token) : Prop :=
  t.kind = u.kind ∧ t.lexeme = u.lexeme

/-- The same tokens, up to their places and the number of line ends in a row. -/
inductive Matches : List Token → List Token → Prop
  | nil : Matches [] []
  | cons {t u : Token} {ts us : List Token} (hface : t.Resembles u) (ht : t.kind ≠ .newline)
      (h : Matches ts us) : Matches (t :: ts) (u :: us)
  | newline {t u : Token} {ts us : List Token} (hface : t.Resembles u) (ht : t.kind = .newline)
      (h : Matches (skipNewlines ts) (skipNewlines us)) : Matches (t :: ts) (u :: us)

/-- Behind any line ends the tokens match. -/
def Loose (ts us : List Token) : Prop :=
  Matches (skipNewlines ts) (skipNewlines us)

namespace Matches

variable {ts us : List Token}

theorem peek (h : Matches ts us) : (peek ts).Resembles (Grammar.peek us) := by
  cases h with
  | nil => exact ⟨rfl, rfl⟩
  | cons hface _ _ => exact hface
  | newline hface _ _ => exact hface

/-- At the end of input, if it is left out, there is nothing on both sides. -/
theorem cases_kind (h : Matches ts us) (hend : (Grammar.peek ts).kind ≠ .endOfInput)
    (hline : (Grammar.peek ts).kind ≠ .newline) :
    ∃ t u ts' us', ts = t :: ts' ∧ us = u :: us' ∧ t.Resembles u ∧ Matches ts' us' := by
  cases h with
  | nil => exact absurd rfl hend
  | cons hface _ h => exact ⟨_, _, _, _, rfl, rfl, hface, h⟩
  | newline _ ht _ => exact absurd ht hline

theorem loose (h : Matches ts us) : Loose ts us := by
  cases h with
  | nil => exact .nil
  | @cons t u ts us hface ht h =>
      rw [Loose, skipNewlines_cons ht, skipNewlines_cons (hface.1 ▸ ht)]
      exact .cons hface ht h
  | @newline t u ts us hface ht h =>
      rw [Loose, skipNewlines_newline ht, skipNewlines_newline (hface.1 ▸ ht)]
      exact h

end Matches

theorem Resembles.binOp? {t u : Token} (h : t.Resembles u) : t.kind.binOp? = u.kind.binOp? := by
  rw [h.1]

theorem Resembles.isSmallestMagnitude {t u : Token} (h : t.Resembles u) :
    Expr.isSmallestMagnitude t = Expr.isSmallestMagnitude u := by
  rw [Expr.isSmallestMagnitude, Expr.isSmallestMagnitude, h.1, h.2]

end Token

namespace Grammar

open Token

/-! ### Two readings side by side -/

variable {α β γ : Type}

/-- Both readings succeed with `post`, or both fail for the same cause. -/
def Parallel (post : α → β → Prop) : Except Error α → Except Error β → Prop
  | .ok a, .ok b => post a b
  | .error e, .error e' => e.cause = e'.cause
  | _, _ => False

theorem Parallel.cases {post : α → β → Prop} {x : Except Error α} {y : Except Error β}
    (h : Parallel post x y) :
    (∃ a b, x = .ok a ∧ y = .ok b ∧ post a b) ∨
      ∃ e e', x = .error e ∧ y = .error e' ∧ e.cause = e'.cause := by
  cases x with
  | ok a =>
      cases y with
      | ok b => exact Or.inl ⟨a, b, rfl, rfl, h⟩
      | error e => exact h.elim
  | error e =>
      cases y with
      | ok b => exact h.elim
      | error e' => exact Or.inr ⟨e, e', rfl, rfl, h⟩

/-- Two phrases that are the same under `f`, with tokens left over that are related, fewer
than `n` and `m` of them. -/
structure Took (left : List Token → List Token → Prop) (f : α → γ) (n m : Nat)
    (r r' : Read α) : Prop where
  value : f r.1 = f r'.1
  rest : left r.2 r'.2
  short : r.2.length < n
  short' : r'.2.length < m

theorem Parallel.bind {δ : Type} {q : α → β → Prop} {post : γ → δ → Prop} {x : Except Error α}
    {y : Except Error β} {f : α → Except Error γ} {g : β → Except Error δ} (h : Parallel q x y)
    (hfg : ∀ a b, q a b → Parallel post (f a) (g b)) : Parallel post (x >>= f) (y >>= g) := by
  rcases h.cases with ⟨a, b, rfl, rfl, hab⟩ | ⟨e, e', rfl, rfl, hcause⟩
  · exact hfg a b hab
  · exact hcause

theorem Parallel.imp {q post : α → β → Prop} {x : Except Error α} {y : Except Error β}
    (h : Parallel q x y) (hpost : ∀ a b, q a b → post a b) : Parallel post x y := by
  rcases h.cases with ⟨a, b, rfl, rfl, hab⟩ | ⟨e, e', rfl, rfl, hcause⟩
  · exact hpost a b hab
  · exact hcause

/-- One phrase read on both sides, and then what follows it. -/
theorem Parallel.read {δ : Type} {left : List Token → List Token → Prop} {f : α → γ} {n m : Nat}
    {post : δ → δ → Prop} {x y : Except Error (Read α)} {g g' : Read α → Except Error δ}
    (h : Parallel (Took left f n m) x y)
    (hg : ∀ a b ts us, f a = f b → left ts us → ts.length < n → us.length < m →
      Parallel post (g (a, ts)) (g' (b, us))) : Parallel post (x >>= g) (y >>= g') :=
  h.bind fun ⟨a, ts⟩ ⟨b, us⟩ hr => hg a b ts us hr.value hr.rest hr.short hr.short'

theorem Took.mono {left : List Token → List Token → Prop} {f : α → γ} {n m n' m' : Nat}
    {r r' : Read α} (h : Took left f n m r r') (hn : n ≤ n') (hm : m ≤ m') :
    Took left f n' m' r r' :=
  ⟨h.value, h.rest, Nat.lt_of_lt_of_le h.short hn, Nat.lt_of_lt_of_le h.short' hm⟩

theorem reject_cause_eq {t u : Token} (h : t.Resembles u) (fault : GrammarFault) :
    (reject t fault).cause = (reject u fault).cause := by
  unfold reject
  rw [← h.1]
  split
  · rw [h.2]
  · rfl

/-- Tokens that resemble each other are rejected alike. -/
theorem Parallel.reject {post : α → β → Prop} {t u : Token} (h : t.Resembles u)
    {fault fault' : GrammarFault} (hfault : fault = fault') :
    Parallel post (.error (reject t fault)) (.error (Grammar.reject u fault')) := by
  subst hfault
  exact reject_cause_eq h fault

theorem Parallel.unexpected {post : α → β → Prop} {t u : Token} (h : t.Resembles u)
    (expected : Expected) :
    Parallel post (.error (unexpected t expected)) (.error (Grammar.unexpected u expected)) :=
  .reject h (by rw [h.1])

section

variable {ts us : List Token}

/-- A token of a given kind is there on both sides or on none. -/
theorem expect_parallel {k : Kind} (h : Matches ts us) (hend : k ≠ .endOfInput)
    (hline : k ≠ .newline) :
    Parallel (Took Matches (fun t => (t.kind, t.lexeme)) ts.length us.length)
      (expect k ts) (expect k us) := by
  have hpeek := h.peek
  unfold expect
  dsimp only
  by_cases hk : (peek ts).kind = k
  · obtain ⟨t, u, ts', us', rfl, rfl, hface, htail⟩ :=
      h.cases_kind (by rw [hk]; exact hend) (by rw [hk]; exact hline)
    rw [if_pos hk, if_pos (hpeek.1 ▸ hk)]
    exact ⟨by rw [hface.1, hface.2], htail, by simp, by simp⟩
  · rw [if_neg hk, if_neg (hpeek.1 ▸ hk)]
    exact .unexpected hpeek _

theorem name_parallel (h : Matches ts us) :
    Parallel (Took Matches Located.erase ts.length us.length) (name ts) (name us) := by
  refine (expect_parallel h (by simp) (by simp)).read
    fun t u ts' us' hface hrest hshort hshort' => ?_
  have hlexeme : t.lexeme = u.lexeme := (Prod.mk.inj hface).2
  exact ⟨by rw [Located.erase, Located.erase, hlexeme], hrest, hshort, hshort'⟩

/-- A line end, or the end of input. -/
theorem lineEnd_parallel (h : Matches ts us) :
    Parallel (fun ts' us' => Loose ts' us' ∧ ts'.length ≤ ts.length ∧ us'.length ≤ us.length)
      (lineEnd ts) (lineEnd us) := by
  have hpeek := h.peek
  unfold lineEnd
  dsimp only
  rw [← hpeek.1]
  split
  · rename_i hk
    cases h with
    | nil => cases hk
    | cons _ ht _ => exact absurd hk ht
    | newline _ _ h => exact ⟨h, by simp, by simp⟩
  · exact ⟨h.loose, Nat.le_refl _, Nat.le_refl _⟩
  · exact .unexpected hpeek _

/-- Rounds side by side.  A round takes a token on both sides, so as many rounds as there are
tokens are enough on each. -/
theorem many_parallel {more : List Token → Bool} {phrase phrase' : Phrase α} {f : α → γ}
    {N M : Nat} (hmore : ∀ ts us, Matches ts us → more ts = more us) (hnil : more [] = false)
    (hphrase : ∀ ts us, Matches ts us → more ts = true → ts.length < N → us.length < M →
      Parallel (Took Matches f ts.length us.length) (phrase ts) (phrase' us)) (n : Nat) :
    ∀ (m : Nat) (ts us : List Token), Matches ts us → ts.length < N → us.length < M →
      ts.length ≤ n → us.length ≤ m →
      Parallel (Took Matches (List.map f) (ts.length + 1) (us.length + 1))
        (many more phrase n ts) (many more phrase' m us) := by
  induction n with
  | zero =>
      intro m ts us h hN hM hn hm
      obtain rfl : ts = [] := List.eq_nil_of_length_eq_zero (by omega)
      rw [many_stop hnil, many_stop (hmore _ _ h ▸ hnil)]
      exact ⟨rfl, h, by simp, by simp⟩
  | succ n ih =>
      intro m ts us h hN hM hn hm
      by_cases hts : more ts = true
      · cases m with
        | zero =>
            obtain rfl : us = [] := List.eq_nil_of_length_eq_zero (by omega)
            rw [hmore _ _ h, hnil] at hts
            cases hts
        | succ m =>
            rw [many, many, if_pos hts, if_pos (hmore _ _ h ▸ hts)]
            refine (hphrase ts us h hts hN hM).read
              fun a b ts' us' hvalue hrest hshort hshort' => ?_
            refine (ih m ts' us' hrest (by omega) (by omega) (by omega) (by omega)).read
              fun as bs ts'' us'' hvalues hrest' hn' hm' => ?_
            refine ⟨?_, hrest', by simp only; omega, by simp only; omega⟩
            rw [List.map_cons, List.map_cons, hvalue, hvalues]
      · rw [Bool.not_eq_true] at hts
        rw [many_stop hts, many_stop (hmore _ _ h ▸ hts)]
        exact ⟨rfl, h, by simp, by simp⟩

theorem separated_parallel {sign : Sign} {phrase : Phrase α} {f : α → γ}
    (hphrase : ∀ ts us, Matches ts us →
      Parallel (Took Matches f ts.length us.length) (phrase ts) (phrase us))
    (h : Matches ts us) :
    Parallel (Took Matches (List.map f) ts.length us.length)
      (separated sign phrase ts) (separated sign phrase us) := by
  refine (hphrase ts us h).read fun a b ts' us' hvalue hrest hshort hshort' => ?_
  refine (many_parallel (f := f) (N := ts.length) (M := us.length) ?_ ?_ ?_ _ _ _ _ hrest hshort
    hshort' (Nat.le_refl _) (Nat.le_refl _)).read fun as bs ts'' us'' hvalues hrest' hn' hm' => ?_
  · intro vs ws hvs
    rw [hvs.peek.1]
  · simp
  · intro vs ws hvs hmore _ _
    have hk : (peek vs).kind = .sign sign := by simpa using hmore
    obtain ⟨v, w, vs', ws', rfl, rfl, -, htail⟩ :=
      hvs.cases_kind (by simp [hk]) (by simp [hk])
    exact (hphrase vs' ws' htail).imp fun _ _ hr => hr.mono (by simp) (by simp)
  · refine ⟨?_, hrest', by simp only; omega, by simp only; omega⟩
    rw [List.map_cons, List.map_cons, hvalue, hvalues]

end

end Grammar

open Token

/-! ### Expressions -/

namespace Expr

section

variable {expression expression' : Phrase Expr} {N M : Nat}

/-- Matching tokens, fewer than the bounds, are read alike. -/
def ReadsAlike (N M : Nat) (expression expression' : Phrase Expr) : Prop :=
  ∀ ts us, Matches ts us → ts.length < N → us.length < M →
    Parallel (Took Matches erase ts.length us.length) (expression ts) (expression' us)

theorem primary_parallel (hexpr : ReadsAlike N M expression expression') {t u : Token}
    {ts us : List Token} (hface : t.Resembles u) (htail : t.kind ≠ .newline → Matches ts us)
    (hN : ts.length < N) (hM : us.length < M) :
    Parallel (Took Matches erase (ts.length + 1) (us.length + 1))
      (primary expression t ts) (primary expression' u us) := by
  unfold primary
  rw [← hface.1]
  cases hk : t.kind with
  | name => exact ⟨by simp [erase, hface.2], htail (by simp [hk]), by simp, by simp⟩
  | literal v => exact ⟨by simp [erase], htail (by simp [hk]), by simp, by simp⟩
  | escape c => exact ⟨by simp [erase], htail (by simp [hk]), by simp, by simp⟩
  | sign sign =>
      cases sign with
      | openParen =>
          have hmatches := htail (by simp [hk])
          refine (hexpr ts us hmatches hN hM).read fun e e' ts' us' hvalue hrest hn hm => ?_
          refine (expect_parallel hrest (by simp) (by simp)).read
            fun c c' ts'' us'' _ hrest' hn' hm' => ?_
          exact ⟨by simp [erase, hvalue], hrest', by simp only; omega, by simp only; omega⟩
      | _ => exact .unexpected hface _
  | _ => exact .unexpected hface _

theorem operand_parallel (hexpr : ReadsAlike N M expression expression') :
    ∀ ts us, Matches ts us → ts.length ≤ N → us.length ≤ M →
      Parallel (Took Matches erase ts.length us.length)
        (operand expression ts) (operand expression' us) := by
  intro ts
  induction ts with
  | nil =>
      intro us h _ _
      cases h
      exact .unexpected ⟨rfl, rfl⟩ _
  | cons t ts ih =>
      intro us h hN hM
      have hpeek := h.peek
      obtain ⟨u, us, rfl⟩ : ∃ u us', us = u :: us' := by
        cases h <;> exact ⟨_, _, rfl⟩
      have htail : t.kind ≠ .newline → Matches ts us := by
        intro ht
        cases h with
        | cons _ _ h => exact h
        | newline _ ht' _ => exact absurd ht' ht
      have hface : t.Resembles u := hpeek
      simp only [List.length_cons] at hN hM ⊢
      rw [operand, operand, ← hface.1]
      split
      · rename_i op hop
        have hmatches : Matches ts us := htail fun hk => by simp [hk, Kind.unOp?] at hop
        rw [← hmatches.peek.isSmallestMagnitude]
        split
        · -- The digits of the smallest INT are there on both sides.
          rename_i hmin
          simp only [isSmallestMagnitude, Bool.and_eq_true, decide_eq_true_eq] at hmin
          obtain ⟨-, hkind, -⟩ := hmin
          obtain ⟨d, d', ts', us', rfl, rfl, -, hrest⟩ :=
            hmatches.cases_kind (by simp [hkind]) (by simp [hkind])
          refine ⟨by simp [erase], hrest, ?_, ?_⟩
          · simp only [List.tail_cons, List.length_cons]
            omega
          · simp only [List.tail_cons, List.length_cons]
            omega
        · refine (ih us hmatches (by omega) (by omega)).read
            fun e e' ts' us' hvalue hrest hn hm => ?_
          refine ⟨?_, hrest, by simp only; omega, by simp only; omega⟩
          simp [erase, hvalue, Located.erase]
      · exact primary_parallel hexpr hface htail (by omega) (by omega)

theorem link_parallel (hexpr : ReadsAlike N M expression expression') {ts us : List Token}
    (h : Matches ts us) (hmore : (peek ts).kind.binOp?.isSome = true) (hN : ts.length ≤ N)
    (hM : us.length ≤ M) :
    Parallel (Took Matches Link.erase ts.length us.length)
      (link expression ts) (link expression' us) := by
  obtain ⟨op, hop⟩ := Option.isSome_iff_exists.1 hmore
  obtain ⟨t, u, ts, us, rfl, rfl, hface, htail⟩ :=
    h.cases_kind (fun hk => by simp [hk, Kind.binOp?] at hop)
      fun hk => by simp [hk, Kind.binOp?] at hop
  have hop' : u.kind.binOp? = some op := hface.binOp? ▸ hop
  simp only [List.length_cons] at hN hM
  simp only [link, hop, hop', List.tail_cons, List.length_cons]
  refine (operand_parallel hexpr ts us htail (by omega) (by omega)).read
    fun e e' ts' us' hvalue hrest hn hm => ?_
  refine ⟨?_, hrest, by simp only; omega, by simp only; omega⟩
  simp [Link.erase, Located.erase, hvalue]

theorem parseWithin_parallel (n : Nat) : ∀ m, ReadsAlike n m (parseWithin n) (parseWithin m) := by
  induction n with
  | zero =>
      intro m ts us h hn hm
      omega
  | succ n ih =>
      intro m ts us h hn hm
      obtain ⟨m, rfl⟩ : ∃ m', m = m' + 1 := ⟨m - 1, by omega⟩
      refine (operand_parallel (ih m) ts us h (by omega) (by omega)).read
        fun e e' ts' us' hvalue hrest hn' hm' => ?_
      refine (many_parallel (f := Link.erase) (N := n + 1) (M := m + 1) ?_ ?_ ?_ _ _ _ _ hrest
        (by omega) (by omega) (Nat.le_refl _) (Nat.le_refl _)).read
        fun links links' ts'' us'' hlinks hrest' hn'' hm'' => ?_
      · intro vs ws hvs
        rw [hvs.peek.binOp?]
      · simp [Kind.binOp?]
      · intro vs ws hvs hmore hN hM
        exact link_parallel (ih m) hvs hmore (by omega) (by omega)
      · refine ⟨?_, hrest', by simp only; omega, by simp only; omega⟩
        simp only [erase_ofChain, hvalue, hlinks]

end

theorem parse_parallel {ts us : List Token} (h : Matches ts us) :
    Parallel (Took Matches erase ts.length us.length) (Expr.parse ts) (Expr.parse us) :=
  parseWithin_parallel _ _ ts us h (Nat.lt_succ_self _) (Nat.lt_succ_self _)

end Expr

/-! ### Statements on one line -/

namespace Stmt

section

variable {ts us : List Token}

theorem declarator_parallel (h : Matches ts us) :
    Parallel (Took Matches Declarator.erase ts.length us.length)
      (declarator ts) (declarator us) := by
  refine (name_parallel h).read fun n n' ts us hname hrest hn hm => ?_
  dsimp only
  rw [← hrest.peek.1]
  split
  · rename_i hassign
    obtain ⟨a, a', ts, us, rfl, rfl, -, hrest⟩ :=
      hrest.cases_kind (by simp [hassign]) (by simp [hassign])
    simp only [List.length_cons] at hn hm
    refine (Expr.parse_parallel hrest).read fun e e' ts us hvalue hrest' hn' hm' => ?_
    exact ⟨by simp [Declarator.erase, hname, hvalue], hrest', by simp only; omega,
      by simp only; omega⟩
  · exact ⟨by simp [Declarator.erase, hname], hrest, hn, hm⟩

theorem erase_eq_var {e : Expr} {x : String} {s : Span} (h : e.erase = .var x s) :
    ∃ s', e = .var x s' := by
  cases e <;> simp_all [Expr.erase]

theorem assigned_parallel (n : Nat) :
    ∀ (m : Nat) (ts us : List Token), Matches ts us → ts.length < n → us.length < m →
      Parallel (Took Matches (fun p => (p.1.map Located.erase, p.2.erase)) ts.length us.length)
        (assigned n ts) (assigned m us) := by
  induction n with
  | zero =>
      intro m ts us h hn hm
      omega
  | succ n ih =>
      intro m ts us h hn hm
      obtain ⟨m, rfl⟩ : ∃ m', m = m' + 1 := ⟨m - 1, by omega⟩
      refine (Expr.parse_parallel h).read fun e e' ts' us' hvalue hrest hn' hm' => ?_
      have hpeek := hrest.peek
      dsimp only
      rw [← hpeek.1]
      split
      · rename_i hassign
        obtain ⟨a, a', ts', us', rfl, rfl, -, hrest⟩ :=
          hrest.cases_kind (by simp [hassign]) (by simp [hassign])
        simp only [List.length_cons] at hn' hm'
        cases e with
        | var x s =>
            obtain ⟨s', rfl⟩ := erase_eq_var hvalue.symm
            refine (ih m ts' us' hrest (by omega) (by omega)).read
              fun p p' ts'' us'' hp hrest' hn'' hm'' => ?_
            obtain ⟨htargets, hvalue'⟩ := Prod.mk.inj hp
            refine ⟨?_, hrest', by simp only; omega, by simp only; omega⟩
            simp [htargets, hvalue', Located.erase]
        | _ =>
            have hreject : ∀ x s, e' ≠ .var x s := by
              rintro x s rfl
              simp [Expr.erase] at hvalue
            cases e' with
            | var x s => exact absurd rfl (hreject x s)
            | _ => exact .reject hpeek rfl
      · exact ⟨by simp [hvalue], hrest, hn', hm'⟩

theorem item_parallel (h : Matches ts us) :
    Parallel (Took Matches Item.erase ts.length us.length) (item ts) (item us) := by
  unfold item
  dsimp only
  rw [← h.peek.1]
  split
  · rename_i hdollar
    obtain ⟨t, u, ts, us, rfl, rfl, -, hrest⟩ :=
      h.cases_kind (by simp [hdollar]) (by simp [hdollar])
    exact ⟨rfl, hrest, by simp, by simp⟩
  · refine (Expr.parse_parallel h).read fun e e' ts us hvalue hrest hn hm => ?_
    exact ⟨by simp [Item.erase, hvalue], hrest, hn, hm⟩

theorem condition_parallel (h : Matches ts us) :
    Parallel (Took Matches Expr.erase ts.length us.length) (condition ts) (condition us) := by
  refine (expect_parallel h (by simp) (by simp)).read fun t t' ts us _ hrest hn hm => ?_
  refine (Expr.parse_parallel hrest).read fun e e' ts us hvalue hrest hn' hm' => ?_
  refine (expect_parallel hrest (by simp) (by simp)).read fun c c' ts us _ hrest hn'' hm'' => ?_
  exact ⟨by simp [Expr.erase, hvalue], hrest, by simp only; omega, by simp only; omega⟩

/-! ### Statements with blocks -/

variable {statements statements' : Phrase (List Stmt)} {N M : Nat}

/-- Statements are read alike from tokens that match behind their line ends, fewer than the
bounds. -/
def ReadsAlike (N M : Nat) (statements statements' : Phrase (List Stmt)) : Prop :=
  ∀ ts us, Loose ts us → ts.length < N → us.length < M →
    Parallel (Took Matches eraseStmts (ts.length + 1) (us.length + 1))
      (statements ts) (statements' us)

theorem block_parallel (hs : ReadsAlike N M statements statements') (k : Keyword)
    (h : Loose ts us) (hN : ts.length ≤ N) (hM : us.length ≤ M) :
    Parallel (Took Matches eraseStmts ts.length us.length)
      (block statements k ts) (block statements' k us) := by
  have hts := length_skipNewlines_le ts
  have hus := length_skipNewlines_le us
  refine (expect_parallel h (by simp) (by simp)).read fun _ _ ts₁ us₁ _ h₁ hn₁ hm₁ => ?_
  refine (expect_parallel h₁ (by simp) (by simp)).read fun _ _ ts₂ us₂ _ h₂ hn₂ hm₂ => ?_
  refine (lineEnd_parallel h₂).bind fun ts₃ us₃ ⟨h₃, hn₃, hm₃⟩ => ?_
  refine (hs ts₃ us₃ h₃ (by omega) (by omega)).read fun body body' ts₄ us₄ hbody h₄ hn₄ hm₄ => ?_
  refine (expect_parallel h₄ (by simp) (by simp)).read fun _ _ ts₅ us₅ _ h₅ hn₅ hm₅ => ?_
  refine (expect_parallel h₅ (by simp) (by simp)).read fun _ _ ts₆ us₆ _ h₆ hn₆ hm₆ => ?_
  exact ⟨hbody, h₆, by simp only; omega, by simp only; omega⟩

theorem clauseBody_parallel (hs : ReadsAlike N M statements statements') (h : Loose ts us)
    (hN : ts.length ≤ N) (hM : us.length ≤ M) :
    Parallel (Took Matches eraseStmts ts.length us.length)
      (clauseBody statements ts) (clauseBody statements' us) := by
  refine (block_parallel hs .IF h hN hM).read fun body body' ts₁ us₁ hbody h₁ hn₁ hm₁ => ?_
  refine (lineEnd_parallel h₁).bind fun ts₂ us₂ ⟨h₂, hn₂, hm₂⟩ => ?_
  have hts := length_skipNewlines_le ts₂
  have hus := length_skipNewlines_le us₂
  exact ⟨hbody, h₂, by simp only; omega, by simp only; omega⟩

theorem otherwise_stop {ts : List Token} (h : (peek ts).kind ≠ .keyword .ELSE)
    (statements : Phrase (List Stmt)) (fuel : Nat) :
    otherwise statements fuel ts = .ok (.nothing, ts) := by
  cases fuel with
  | zero => rfl
  | succ fuel => rw [otherwise, if_neg h]

theorem otherwise_parallel (hs : ReadsAlike N M statements statements') (n : Nat) :
    ∀ (m : Nat) (ts us : List Token), Matches ts us → ts.length ≤ N → us.length ≤ M →
      ts.length ≤ n → us.length ≤ m →
      Parallel (Took Matches Otherwise.erase (ts.length + 1) (us.length + 1))
        (otherwise statements n ts) (otherwise statements' m us) := by
  induction n with
  | zero =>
      intro m ts us h hN hM hn hm
      obtain rfl : ts = [] := List.eq_nil_of_length_eq_zero (by omega)
      cases h
      rw [otherwise_stop (by simp) statements' m]
      exact ⟨rfl, .nil, by simp, by simp⟩
  | succ n ih =>
      intro m ts us h hN hM hn hm
      by_cases helse : (peek ts).kind = .keyword .ELSE
      · obtain ⟨t, u, ts, us, rfl, rfl, hface, h⟩ :=
          h.cases_kind (by simp [helse]) (by simp [helse])
        simp only [List.length_cons] at hN hM hn hm
        obtain ⟨m, rfl⟩ : ∃ m', m = m' + 1 := ⟨m - 1, by omega⟩
        have helse' : (peek (u :: us)).kind = .keyword .ELSE := hface.1 ▸ helse
        rw [otherwise, otherwise, if_pos helse, if_pos helse', List.length_cons, List.length_cons]
        show Parallel _ (if (peek ts).kind = .keyword .IF then _ else _)
          (if (peek us).kind = .keyword .IF then _ else _)
        by_cases hif : (peek ts).kind = .keyword .IF
        · rw [if_pos hif, if_pos (h.peek.1 ▸ hif)]
          obtain ⟨i, j, ts, us, rfl, rfl, -, h⟩ := h.cases_kind (by simp [hif]) (by simp [hif])
          simp only [List.length_cons] at hN hM hn hm
          refine (condition_parallel h).read fun cond cond' ts₁ us₁ hcond h₁ hn₁ hm₁ => ?_
          refine (clauseBody_parallel hs h₁.loose (by omega) (by omega)).read
            fun body body' ts₂ us₂ hbody h₂ hn₂ hm₂ => ?_
          refine (ih m ts₂ us₂ h₂ (by omega) (by omega) (by omega) (by omega)).read
            fun o o' ts₃ us₃ ho h₃ hn₃ hm₃ => ?_
          refine ⟨?_, h₃, by simp only [List.length_cons]; omega,
            by simp only [List.length_cons]; omega⟩
          simp [Otherwise.erase, hcond, hbody, ho]
        · rw [if_neg hif, if_neg (h.peek.1 ▸ hif)]
          refine (clauseBody_parallel hs h.loose (by omega) (by omega)).read
            fun body body' ts₁ us₁ hbody h₁ hn₁ hm₁ => ?_
          have hpeek := h₁.peek
          dsimp only
          rw [← hpeek.1]
          split
          · exact .reject hpeek rfl
          · refine ⟨?_, h₁, by simp only; omega, by simp only; omega⟩
            simp [Otherwise.erase, hbody]
      · rw [otherwise_stop helse, otherwise_stop (h.peek.1 ▸ helse)]
        exact ⟨rfl, h, by simp, by simp⟩

/-! ### All statements -/

/-- A statement that ends with its line. -/
theorem lineEnd_bind_parallel {α γ : Type} {f : α → γ} {a b : α} {n m : Nat} (hab : f a = f b)
    (h : Matches ts us) (hn : ts.length < n) (hm : us.length < m) :
    Parallel (Took Loose f n m) (do return (a, ← lineEnd ts)) (do return (b, ← lineEnd us)) := by
  refine (lineEnd_parallel h).bind fun ts' us' ⟨h', hn', hm'⟩ => ?_
  exact ⟨hab, h', by simp only; omega, by simp only; omega⟩

theorem statement_parallel (hs : ReadsAlike N M statements statements') (declarations : Bool)
    (h : Matches ts us) (hN : ts.length ≤ N) (hM : us.length ≤ M) :
    Parallel (Took Loose Stmt.erase ts.length us.length)
      (statement statements declarations ts) (statement statements' declarations us) := by
  have hpeek := h.peek
  have htail : (peek ts).kind ≠ .endOfInput → (peek ts).kind ≠ .newline →
      Matches ts.tail us.tail ∧ ts.tail.length < ts.length ∧ us.tail.length < us.length := by
    intro hend hline
    obtain ⟨t, u, ts, us, rfl, rfl, -, h⟩ := h.cases_kind hend hline
    exact ⟨h, by simp, by simp⟩
  unfold statement
  dsimp only
  rw [← hpeek.1]
  split
  · rename_i ty hk
    obtain ⟨h₁, hn₁, hm₁⟩ := htail (by simp [hk]) (by simp [hk])
    split
    · refine (separated_parallel (fun _ _ => declarator_parallel) h₁).read
        fun vars vars' ts₂ us₂ hvars h₂ hn₂ hm₂ => ?_
      dsimp only
      exact lineEnd_bind_parallel (by simp [Stmt.erase, hvars]) h₂ (by omega) (by omega)
    · exact .reject hpeek rfl
  · rename_i hk
    obtain ⟨h₁, hn₁, hm₁⟩ := htail (by simp [hk]) (by simp [hk])
    refine (expect_parallel h₁ (by simp) (by simp)).read fun _ _ ts₂ us₂ _ h₂ hn₂ hm₂ => ?_
    refine (assigned_parallel _ _ _ _ h₂ (Nat.lt_succ_self _) (Nat.lt_succ_self _)).read
      fun p p' ts₃ us₃ hp h₃ hn₃ hm₃ => ?_
    obtain ⟨htargets, hvalue⟩ := Prod.mk.inj hp
    dsimp only
    refine lineEnd_bind_parallel ?_ h₃ (by omega) (by omega)
    simp [Stmt.erase, Located.erase, hpeek.2, htargets, hvalue]
  · rename_i hk
    obtain ⟨h₁, hn₁, hm₁⟩ := htail (by simp [hk]) (by simp [hk])
    refine (expect_parallel h₁ (by simp) (by simp)).read fun _ _ ts₂ us₂ _ h₂ hn₂ hm₂ => ?_
    refine (separated_parallel (fun _ _ => item_parallel) h₂).read
      fun items items' ts₃ us₃ hitems h₃ hn₃ hm₃ => ?_
    dsimp only
    exact lineEnd_bind_parallel (by simp [Stmt.erase, hitems]) h₃ (by omega) (by omega)
  · rename_i hk
    obtain ⟨h₁, hn₁, hm₁⟩ := htail (by simp [hk]) (by simp [hk])
    refine (expect_parallel h₁ (by simp) (by simp)).read fun _ _ ts₂ us₂ _ h₂ hn₂ hm₂ => ?_
    refine (separated_parallel (fun _ _ => name_parallel) h₂).read
      fun names names' ts₃ us₃ hnames h₃ hn₃ hm₃ => ?_
    dsimp only
    exact lineEnd_bind_parallel (by simp [Stmt.erase, hnames]) h₃ (by omega) (by omega)
  · rename_i hk
    obtain ⟨h₁, hn₁, hm₁⟩ := htail (by simp [hk]) (by simp [hk])
    refine (condition_parallel h₁).read fun cond cond' ts₂ us₂ hcond h₂ hn₂ hm₂ => ?_
    refine (clauseBody_parallel hs h₂.loose (by omega) (by omega)).read
      fun body body' ts₃ us₃ hbody h₃ hn₃ hm₃ => ?_
    refine (otherwise_parallel hs _ _ _ _ h₃ (by omega) (by omega) (Nat.le_refl _)
      (Nat.le_refl _)).read fun o o' ts₄ us₄ ho h₄ hn₄ hm₄ => ?_
    refine ⟨?_, h₄.loose, by simp only; omega, by simp only; omega⟩
    simp [Stmt.erase, hcond, hbody, ho]
  · rename_i hk
    obtain ⟨h₁, hn₁, hm₁⟩ := htail (by simp [hk]) (by simp [hk])
    refine (condition_parallel h₁).read fun cond cond' ts₂ us₂ hcond h₂ hn₂ hm₂ => ?_
    refine (block_parallel hs .WHILE h₂.loose (by omega) (by omega)).read
      fun body body' ts₃ us₃ hbody h₃ hn₃ hm₃ => ?_
    dsimp only
    exact lineEnd_bind_parallel (by simp [Stmt.erase, hcond, hbody]) h₃ (by omega) (by omega)
  · exact .reject hpeek (by rw [hpeek.2])

theorem isDeclaration_erase (s : Stmt) : s.erase.isDeclaration = s.isDeclaration := by
  cases s <;> simp [Stmt.erase, Stmt.isDeclaration]

theorem statements_parallel (n : Nat) :
    ∀ (m : Nat) (declarations : Bool),
      ReadsAlike n m (Stmt.statements n declarations) (Stmt.statements m declarations) := by
  induction n with
  | zero =>
      intro m declarations ts us h hn hm
      omega
  | succ n ih =>
      intro m declarations ts us h hn hm
      obtain ⟨m, rfl⟩ : ∃ m', m = m' + 1 := ⟨m - 1, by omega⟩
      have hts := length_skipNewlines_le ts
      have hus := length_skipNewlines_le us
      have hpeek := Matches.peek h
      simp only [Stmt.statements]
      rw [← hpeek.1]
      split
      · exact ⟨rfl, h, by simp only; omega, by simp only; omega⟩
      · exact .reject hpeek rfl
      · refine (statement_parallel (ih m false) declarations h (by omega) (by omega)).read
          fun s s' ts₁ us₁ hs h₁ hn₁ hm₁ => ?_
        have hdeclaration : s.isDeclaration = s'.isDeclaration := by
          rw [← isDeclaration_erase s, hs, isDeclaration_erase]
        dsimp only
        rw [← hdeclaration]
        refine (ih m _ ts₁ us₁ h₁ (by omega) (by omega)).read
          fun rest rest' ts₂ us₂ hrest h₂ hn₂ hm₂ => ?_
        refine ⟨?_, h₂, by simp only; omega, by simp only; omega⟩
        simp [eraseStmts, hs, hrest]

end

end Stmt

namespace Program

/-- **Matching tokens are read alike.** -/
theorem ofTokens_parallel {ts us : List Token} (h : Matches ts us) :
    Parallel (fun p q => p.erase = q.erase) (ofTokens ts) (ofTokens us) := by
  refine (expect_parallel h.loose (by simp) (by simp)).read fun _ _ ts₁ us₁ _ h₁ _ _ => ?_
  refine (expect_parallel h₁ (by simp) (by simp)).read fun _ _ ts₂ us₂ _ h₂ _ _ => ?_
  refine (lineEnd_parallel h₂).bind fun ts₃ us₃ ⟨h₃, _, _⟩ => ?_
  refine (Stmt.statements_parallel _ _ true ts₃ us₃ h₃ (Nat.lt_succ_self _)
    (Nat.lt_succ_self _)).read fun body body' ts₄ us₄ hbody h₄ _ _ => ?_
  refine (expect_parallel h₄ (by simp) (by simp)).read fun _ _ ts₅ us₅ _ h₅ _ _ => ?_
  refine (expect_parallel h₅ (by simp) (by simp)).read fun _ _ ts₆ us₆ _ h₆ _ _ => ?_
  have hpeek := Matches.peek h₆.loose
  have hlast : Parallel (fun _ _ => True) (expect .endOfInput (skipNewlines ts₆))
      (expect .endOfInput (skipNewlines us₆)) := by
    unfold expect
    dsimp only
    rw [← hpeek.1]
    split
    · trivial
    · exact .unexpected hpeek _
  refine hlast.bind fun _ _ _ => ?_
  exact congrArg (Program.mk · .nowhere) hbody

end Program

/-! ### Settling names -/

namespace Token

/-- A line end leaves a context that is the same behind further line ends. -/
theorem Context.after_newline (ctx : Context) {t : Token} (ht : t.kind = .newline) :
    ctx.after t = .idle false (ctx.fresh.toList ++ ctx.declared) := by
  simp [Context.after, Context.idle, ht]

theorem resolve_eq_newline_iff (ctx : Context) {t : Token} :
    ctx.resolve t = .newline ↔ t.kind = .newline := by
  constructor
  · intro h
    have heq := Derivation.eq_of_resolve h (by simp) (by simp)
    rw [← heq]
    exact h
  · intro h
    simp [Context.resolve, h]

theorem skipNewlines_resolveNames (known : List String) (ts : List Token) :
    skipNewlines (resolveNames (.idle false known) ts) =
      resolveNames (.idle false known) (skipNewlines ts) := by
  induction ts with
  | nil => rfl
  | cons t ts ih =>
      rw [resolveNames]
      by_cases ht : t.kind = .newline
      · have ht' := (resolve_eq_newline_iff (.idle false known)).2 ht
        rw [skipNewlines_newline ht', Context.after_newline _ ht', skipNewlines_newline ht]
        exact ih
      · rw [skipNewlines_cons (mt (resolve_eq_newline_iff _).1 ht), skipNewlines_cons ht,
          ← resolveNames]

/-- Tokens that match still do once their names are settled. -/
theorem Matches.resolveNames {ts us : List Token} (h : Matches ts us) (ctx : Context) :
    Matches (Token.resolveNames ctx ts) (Token.resolveNames ctx us) := by
  induction h generalizing ctx with
  | nil => exact .nil
  | @cons t u ts us hface ht h ih =>
      have hresolve : ctx.resolve t = ctx.resolve u := by
        simp only [Context.resolve, hface.1, hface.2]
      have hafter : ctx.after { t with kind := ctx.resolve t } =
          ctx.after { u with kind := ctx.resolve u } := by
        simp only [Context.after, hresolve, hface.2]
      rw [Token.resolveNames, Token.resolveNames, hafter]
      exact .cons ⟨hresolve, hface.2⟩ (mt (resolve_eq_newline_iff _).1 ht) (ih _)
  | @newline t u ts us hface ht h ih =>
      have hu : u.kind = .newline := hface.1 ▸ ht
      have ht' := (resolve_eq_newline_iff ctx).2 ht
      have hu' := (resolve_eq_newline_iff ctx).2 hu
      rw [Token.resolveNames, Token.resolveNames, ctx.after_newline ht', ctx.after_newline hu']
      refine .newline ⟨ht'.trans hu'.symm, hface.2⟩ ht' ?_
      rw [skipNewlines_resolveNames, skipNewlines_resolveNames]
      exact ih _

end Token

end Pseudocode

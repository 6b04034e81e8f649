/-
How many tokens are drawn.

A reading ends, and it draws no more tokens than the text has, and one more.  Nothing in the
definition of the readings says so: a loop goes round as long as the token in view asks for it,
and a block holds statements that hold blocks.  It follows because every round of a loop takes a
token off those that are left, and so does every phrase that is read inside of another one,
except the statements of a block: there may be none, and then BEGIN and END are what is taken.  An
amount of fuel in proportion to the number of tokens is therefore enough, and what is read with
that much fuel is read with any that does not run out.

The end of input is drawn as the last token of a text.  Only the last step of reading a program
goes beyond it, and no other phrase does: at the end of a statement it stays in view.

Reading statements is compared with the list as in `Pseudocode.Proofs.Draws`, by induction on
the number of tokens left.
-/
import Pseudocode.Proofs.Climbing

namespace Pseudocode

open Grammar (Read Phrase peek)

namespace Pull

open Cursor

variable {α β : Type} {source : String} {b m n fuel : Nat} {c c' : Cursor} {ts us : List Token}

/-! ### Statements on one line -/

theorem declarator_follows {o : Option (Except Error Declarator × Cursor)}
    (h : Stands source m ts (declarator fuel) o) (hfuel : 3 * ts.length + 2 ≤ fuel) :
    Follows source m ts.length (Stmt.declarator ts) o := by
  refine h.bind (fun _ h => name_follows h) fun name us o hus hlt => ?_
  replace hus := hus.view
  dsimp only
  by_cases hk : (peek us).kind = .sign .assign
  · have htail := hus.length_tail_lt
    rw [if_pos hk] at hus ⊢
    refine (hus.advance (by rw [hk]; rfl)).bind (fun _ h => expression_follows h (by omega))
      fun init vs o hvs hlt' => ?_
    exact hvs.pure (by omega)
  · rw [if_neg hk] at hus ⊢
    exact hus.pure hlt

/-- What is read as an expression is a target if a sign of assignment is behind it. -/
theorem targets_follows (rounds : Nat) :
    ∀ fuel fuel' ts o, Stands source m ts (expression fuel >>= targets fuel') o →
      ts.length < rounds → 3 * ts.length + 2 ≤ fuel → 3 * ts.length ≤ fuel' + 2 →
      Follows source m ts.length (Stmt.assigned rounds ts) o := by
  induction rounds with
  | zero => exact fun _ _ _ _ _ hrounds => absurd hrounds (Nat.not_lt_zero _)
  | succ rounds ih =>
      intro fuel fuel' ts o h hrounds hfuel hfuel'
      refine h.bind (fun _ h => expression_follows h hfuel) fun value us o hus hlt => ?_
      obtain ⟨fuel', rfl⟩ := hus.exists_succ (show us.length ≤ fuel' by omega)
      have htail := hus.length_tail_lt
      rw [targets] at hus
      replace hus := hus.view
      dsimp only
      by_cases hk : (peek us).kind = .sign .assign
      · rw [if_pos hk] at hus ⊢
        cases value with
        | var name span =>
            have hnext := hus.advance (by rw [hk]; rfl)
            rw [← bind_assoc] at hnext
            refine hnext.bind (fun o h => ih fuel' fuel' us.tail o h (by omega) (by omega)
              (by omega)) fun found vs o hvs hlt' => ?_
            exact hvs.pure (by omega)
        | _ => exact hus.reject
      · rw [if_neg hk] at hus ⊢
        exact hus.pure hlt

theorem item_follows {o : Option (Except Error Item × Cursor)}
    (h : Stands source m ts (item fuel) o) (hfuel : 3 * ts.length + 2 ≤ fuel) :
    Follows source m ts.length (Stmt.item ts) o := by
  have htail := h.length_tail_lt
  rw [item] at h
  replace h := h.view
  unfold Stmt.item
  dsimp only
  by_cases hk : (peek ts).kind = .sign .dollar
  · rw [if_pos hk] at h ⊢
    exact (h.advance (by rw [hk]; rfl)).pure htail
  · rw [if_neg hk] at h ⊢
    exact h.bind (fun _ h => expression_follows h hfuel) fun _ _ _ hus hlt => hus.pure hlt

theorem condition_follows {o : Option (Except Error Expr × Cursor)}
    (h : Stands source m ts (condition fuel) o) (hfuel : 3 * ts.length ≤ fuel + 1) :
    Follows source m ts.length (Stmt.condition ts) o := by
  refine h.bind (fun _ h => expect_follows h rfl) fun opening us o hus hlt => ?_
  refine hus.bind (fun _ h => expression_follows h (by omega)) fun e vs o hvs hlt' => ?_
  refine hvs.bind (fun _ h => expect_follows h rfl) fun closing ws o hws hlt'' => ?_
  exact hws.pure (by omega)

/-! ### Blocks -/

/-- The statements of an inner block are read off a cursor as they are read off a list with fewer
tokens than `n`. -/
def KeepsInner (source : String) (m n : Nat) (stmts : Phrase (List Stmt)) : Prop :=
  ∀ fuel ts o, Stands source m ts (statements fuel false) o → ts.length < n →
    3 * ts.length + 1 ≤ fuel → Follows source m (ts.length + 1) (stmts ts) o

variable {stmts : Phrase (List Stmt)} {o : Option (Except Error (List Stmt) × Cursor)}

theorem block_follows (hstmts : KeepsInner source m n stmts) (k : Keyword)
    (h : Stands source m ts (block fuel k) o) (hn : ts.length ≤ n) (hfuel : 3 * ts.length ≤ fuel) :
    Follows source m ts.length (Stmt.block stmts k ts) o := by
  have htail := h.length_tail_lt
  obtain ⟨fuel, rfl⟩ := h.exists_succ (Nat.le_trans (by omega) hfuel)
  have hskip := Grammar.length_skipNewlines_le ts
  rw [block] at h
  replace h := h.skipNewlines (by omega)
  refine h.bind (fun _ h => expect_follows h rfl) fun _ ts₂ o h₂ hlt₂ => ?_
  refine h₂.bind (fun _ h => expect_follows h rfl) fun _ ts₃ o h₃ hlt₃ => ?_
  refine lineEnd_agrees h₃ fun ts₄ o h₄ hle₄ => ?_
  refine h₄.bind (fun o h => hstmts fuel ts₄ o h (by omega) (by omega)) fun body ts₅ o h₅ hlt₅ => ?_
  refine h₅.bind (fun _ h => expect_follows h rfl) fun _ ts₆ o h₆ hlt₆ => ?_
  refine h₆.bind (fun _ h => expect_follows h rfl) fun _ ts₇ o h₇ hlt₇ => ?_
  exact h₇.pure (by omega)

theorem clauseBody_follows (hstmts : KeepsInner source m n stmts)
    (h : Stands source m ts (clauseBody fuel) o) (hn : ts.length ≤ n)
    (hfuel : 3 * ts.length + 1 ≤ fuel) :
    Follows source m ts.length (Stmt.clauseBody stmts ts) o := by
  obtain ⟨fuel, rfl⟩ := h.exists_succ (Nat.le_trans (by omega) hfuel)
  rw [clauseBody] at h
  refine h.bind (fun _ h => block_follows hstmts .IF h hn (by omega)) fun body us o hus hlt => ?_
  refine lineEnd_agrees hus fun vs o hvs hle => ?_
  have hskip := Grammar.length_skipNewlines_le vs
  exact (hvs.skipNewlines (by omega)).pure (by omega)

theorem otherwise_follows (hstmts : KeepsInner source m n stmts) (rounds : Nat) :
    ∀ fuel ts o, Stands source m ts (otherwise fuel) o → ts.length ≤ rounds → ts.length ≤ n →
      3 * ts.length + 1 ≤ fuel →
      Follows source m (ts.length + 1) (Stmt.otherwise stmts rounds ts) o := by
  induction rounds with
  | zero =>
      intro fuel ts o h hrounds
      have := h.length_tail_lt
      omega
  | succ rounds ih =>
      intro fuel ts o h hrounds hn hfuel
      have htail := h.length_tail_lt
      obtain ⟨fuel, rfl⟩ : ∃ m, fuel = m + 1 + 1 := ⟨fuel - 2, by omega⟩
      rw [otherwise] at h
      replace h := h.view
      rw [Stmt.otherwise]
      by_cases helse : (peek ts).kind = .keyword .ELSE
      · -- The list has no clauses of its own; its two cases are those of `clause`.
        rw [if_pos helse, clause, bind_assoc] at h
        have hnext := h.advance (by rw [helse]; rfl)
        have htail' := hnext.length_tail_lt
        rw [bind_assoc] at hnext
        replace hnext := hnext.view
        rw [if_pos helse]
        dsimp -iota only
        by_cases hif : (peek ts.tail).kind = .keyword .IF
        · rw [if_pos hif, bind_assoc] at hnext
          replace hnext := hnext.advance (by rw [hif]; rfl)
          rw [bind_assoc] at hnext
          rw [if_pos hif]
          refine hnext.bind (fun _ h => condition_follows h (by omega)) fun cond us o hus hlt => ?_
          rw [bind_assoc] at hus
          refine hus.bind (fun _ h => clauseBody_follows hstmts h (by omega) (by omega))
            fun body vs o hvs hlt' => ?_
          rw [pure_bind] at hvs
          refine hvs.bind (fun o h => ih (fuel + 1) vs o h (by omega) (by omega) (by omega))
            fun rest ws o hws hlt'' => ?_
          exact hws.pure (by omega)
        · rw [if_neg hif, bind_assoc] at hnext
          rw [if_neg hif]
          refine hnext.bind (fun _ h => clauseBody_follows hstmts h (by omega) (by omega))
            fun body us o hus hlt => ?_
          rw [pure_bind] at hus
          replace hus := hus.view
          dsimp only
          by_cases helse' : (peek us).kind = .keyword .ELSE
          · rw [if_pos helse'] at hus ⊢
            exact hus.reject
          · rw [if_neg helse'] at hus ⊢
            exact hus.pure (by omega)
      · rw [if_neg helse] at h ⊢
        exact h.pure (Nat.lt_succ_self _)

/-! ### All statements -/

theorem statement_follows {o : Option (Except Error Stmt × Cursor)}
    (hstmts : KeepsInner source m n stmts) (declarations : Bool)
    (h : Stands source m ts (statement fuel declarations) o) (hn : ts.length ≤ n)
    (hfuel : 3 * ts.length ≤ fuel) :
    Follows source m ts.length (Stmt.statement stmts declarations ts) o := by
  have htail := h.length_tail_lt
  obtain ⟨fuel, rfl⟩ := h.exists_succ (Nat.le_trans (by omega) hfuel)
  -- Each statement on one line ends in the same way.
  have hline : ∀ (s : Stmt) us o, Stands source m us (do lineEnd; return s) o →
      us.length < ts.tail.length →
      Follows source m ts.length (Grammar.lineEnd us >>= fun vs => pure (s, vs)) o := by
    intro s us o hus hlt
    refine lineEnd_agrees hus fun vs o hvs hle => ?_
    exact hvs.pure (by omega)
  rw [statement] at h
  replace h := h.view
  unfold Stmt.statement
  dsimp -iota only
  cases hk : (peek ts).kind with
  | typeName ty =>
      simp only [hk] at h
      cases declarations with
      | false => exact Stands.reject h
      | true =>
          have hnext := Stands.advance h (by rw [hk]; rfl)
          have hphrase : ∀ us o, Stands source m us (declarator fuel) o →
              us.length ≤ ts.tail.length → Follows source m us.length (Stmt.declarator us) o :=
            fun us o hus hle => declarator_follows hus (by omega)
          refine hnext.bind (fun _ h => separated_follows hphrase h (Nat.le_refl _) (by omega))
            fun vars us o hus hlt => ?_
          exact hline _ us o hus hlt
  | name =>
      simp only [hk] at h
      have hnext := h.advance (by rw [hk]; rfl)
      refine hnext.bind (fun _ h => expect_follows h rfl) fun _ us o hus hlt => ?_
      dsimp only
      rw [← bind_assoc] at hus
      refine hus.bind (fun o h => targets_follows _ fuel fuel us o h (Nat.lt_succ_self _) (by omega)
        (by omega)) fun found vs o hvs hlt' => ?_
      exact hline _ vs o hvs (by omega)
  | keyword k =>
      rw [hk] at h
      cases k with
      | DISPLAY =>
          have hnext := Stands.advance h (by rw [hk]; rfl)
          refine hnext.bind (fun _ h => expect_follows h rfl) fun _ us o hus hlt => ?_
          have hphrase : ∀ vs o, Stands source m vs (item fuel) o → vs.length ≤ us.length →
              Follows source m vs.length (Stmt.item vs) o :=
            fun vs o hvs hle => item_follows hvs (by omega)
          refine hus.bind (fun _ h => separated_follows hphrase h (Nat.le_refl _) (by omega))
            fun items vs o hvs hlt' => ?_
          exact hline _ vs o hvs (by omega)
      | SCAN =>
          have hnext := Stands.advance h (by rw [hk]; rfl)
          refine hnext.bind (fun _ h => expect_follows h rfl) fun _ us o hus hlt => ?_
          refine hus.bind (fun _ h => separated_follows (fun _ _ h _ => name_follows h) h
            (Nat.le_refl _) (by omega)) fun names vs o hvs hlt' => ?_
          exact hline _ vs o hvs (by omega)
      | IF =>
          have hnext := Stands.advance h (by rw [hk]; rfl)
          refine hnext.bind (fun _ h => condition_follows h (by omega)) fun cond us o hus hlt => ?_
          refine hus.bind (fun _ h => clauseBody_follows hstmts h (by omega) (by omega))
            fun body vs o hvs hlt' => ?_
          refine hvs.bind (fun o h => otherwise_follows hstmts _ fuel vs o h (Nat.le_refl _)
            (by omega) (by omega)) fun rest ws o hws hlt'' => ?_
          exact hws.pure (by omega)
      | WHILE =>
          have hnext := Stands.advance h (by rw [hk]; rfl)
          refine hnext.bind (fun _ h => condition_follows h (by omega)) fun cond us o hus hlt => ?_
          refine hus.bind (fun _ h => block_follows hstmts .WHILE h (by omega) (by omega))
            fun body vs o hvs hlt' => ?_
          exact hline _ vs o hvs (by omega)
      | _ => exact Stands.reject h
  | _ =>
      rw [hk] at h
      exact Stands.reject h

/-- **Statements are read off a cursor as they are read off the list.** -/
theorem statements_follows (rounds : Nat) :
    ∀ (declarations : Bool) fuel ts o, Stands source m ts (statements fuel declarations) o →
      ts.length < rounds → 3 * ts.length + 1 ≤ fuel →
      Follows source m (ts.length + 1) (Stmt.statements rounds declarations ts) o := by
  induction rounds with
  | zero => exact fun _ _ _ _ _ hrounds => absurd hrounds (Nat.not_lt_zero _)
  | succ rounds ih =>
      intro declarations fuel ts o h hrounds hfuel
      obtain ⟨fuel, rfl⟩ := h.exists_succ (Nat.le_trans (by omega) hfuel)
      have hskip := Grammar.length_skipNewlines_le ts
      have hstmts : KeepsInner source m rounds (Stmt.statements rounds false) := ih false
      rw [statements] at h
      replace h := h.skipNewlines (by omega)
      have hmore : Stands source m (Grammar.skipNewlines ts) (do
            let s ← statement fuel declarations
            let rest ← statements fuel (declarations && s.isDeclaration)
            return s :: rest) o →
          Follows source m (ts.length + 1)
          (Stmt.statement (Stmt.statements rounds false) declarations (Grammar.skipNewlines ts) >>=
            fun r => Stmt.statements rounds (declarations && r.1.isDeclaration) r.2 >>= fun r' =>
              pure (r.1 :: r'.1, r'.2)) o := by
        intro h
        refine h.bind (fun _ h => statement_follows hstmts declarations h (by omega) (by omega))
          fun s us o hus hlt => ?_
        refine hus.bind (fun o h => ih _ fuel us o h (by omega) (by omega))
          fun rest vs o hvs hlt' => ?_
        exact hvs.pure (by omega)
      replace h := h.view
      unfold Stmt.statements
      dsimp only
      cases hk : (peek (Grammar.skipNewlines ts)).kind with
      | keyword k =>
          rw [hk] at h
          cases k with
          | END => exact Stands.pure h (by omega)
          | _ => exact hmore h
      | endOfInput =>
          rw [hk] at h
          exact Stands.reject h
      | _ =>
          rw [hk] at h
          exact hmore h

/-! ### Programs -/

/-- As much fuel as no reading in the text uses up. -/
def enough (source : String) : Nat :=
  3 * (Token.ofSource source).length + 2

theorem length_le_enough (h : Shows source c ts) : 3 * ts.length + 2 ≤ enough source := by
  have hdrawn := h.drawn
  have hpos : 0 < c.drawn := by
    obtain ⟨k, rfl, -⟩ := h
    rw [drawn_nth]
    exact Nat.succ_pos k
  rw [enough]
  omega

/-- The cursor has left the end of input, which was in view right before. -/
def Beyond (source : String) (c : Cursor) : Prop :=
  ∃ last, On source last ∧ last.current.kind = .endOfInput ∧ c = last.advance

/-- Behind the end of input there is nothing but the end of input. -/
theorem kind_advance_draw {s : Scanner} {ctx : Token.Context} {t : Token}
    (h : (draw s ctx t n).current.kind = .endOfInput) :
    (draw s ctx t n).advance.current.kind = .endOfInput := by
  have hs : s.next.1.kind = .endOfInput := resolve_eq_endOfInput_iff.1 h
  refine resolve_eq_endOfInput_iff.2 ?_
  have hstay : s.next.2.next = s.next := (Scanner.next_of_endOfInput hs).1
  exact (congrArg (fun r => r.1.kind) hstay).trans hs

/-- So no fault is drawn there. -/
theorem refusal?_advance_of_endOfInput (h : Shows source c ts)
    (hend : c.current.kind = .endOfInput) : c.advance.refusal? = none := by
  have hnext : c.advance.current.kind = .endOfInput := by
    obtain ⟨k, rfl, -⟩ := h
    cases k with
    | zero => exact kind_advance_draw hend
    | succ k => exact kind_advance_draw hend
  exact refusal?_of_ne_fault (by simp [hnext])

theorem endOfInput_agrees {p : Program} {o : Option (Except Error Program × Cursor)}
    (h : Stands source m ts (do let _ ← expect .endOfInput; return p) o) :
    Agrees source (fun q o => ∃ c, o = some (.ok q, c) ∧ Beyond source c)
      (Grammar.expect .endOfInput ts >>= fun _ => pure p) o := by
  rw [expect, bind_assoc] at h
  replace h := h.view
  rw [Grammar.expect]
  by_cases hk : (peek ts).kind = .endOfInput
  · rw [if_pos hk] at h ⊢
    rcases h with ⟨c, rfl, hshows, -⟩ | ⟨e, c, -, hshows, hrefusal⟩
    · rw [hshows.peek] at hk
      refine Or.inl ⟨p, rfl, c.advance, ?_, c, hshows.on, hk, rfl⟩
      have hrun : Pull.advance c = some (.ok (), c.advance) := by
        rw [advance_eq]
        exact recover_of_none (refusal?_advance_of_endOfInput hshows hk)
      rw [bind_assoc, bind_of_ok hrun]
      rfl
    · obtain ⟨⟨f, hf⟩, -⟩ := reject_of_refusal? hrefusal
      rw [hshows.peek, hf] at hk
      cases hk
  · rw [if_neg hk] at h ⊢
    exact Stands.reject h

/-- **A program is read off a cursor as it is read off the list**, and the end of input is left
only behind all of the program. -/
theorem program_agrees (source : String) :
    Agrees source (fun q o => ∃ c, o = some (.ok q, c) ∧ Beyond source c) (Program.parse source)
      (program (enough source) (.ofSource source)) := by
  have hlength {α : Type} {ts} {x : Pull α} {o} (h : Stands source 0 ts x o) :
      3 * ts.length + 2 ≤ enough source := by
    obtain ⟨c, hc⟩ := h.shows
    exact length_le_enough hc
  have hstart := Stands.recover (m := 0) (Shows.start source) fun _ => do
    skipNewlines (enough source)
    let start ← expect (.keyword .BEGIN)
    let _ ← expect (.keyword .CODE)
    lineEnd
    let body ← statements (enough source) true
    let _ ← expect (.keyword .END)
    let _ ← expect (.keyword .CODE)
    skipNewlines (enough source)
    let _ ← expect .endOfInput
    return ({ body := body, span := start.span } : Program)
  have h₁ := hstart.skipNewlines (by have := hlength hstart; omega)
  refine h₁.bind (fun _ h => expect_follows h rfl) fun start ts₂ o h₂ _ => ?_
  refine h₂.bind (fun _ h => expect_follows h rfl) fun _ ts₃ o h₃ _ => ?_
  refine lineEnd_agrees h₃ fun ts₄ o h₄ _ => ?_
  refine h₄.bind (fun o h => statements_follows _ true _ ts₄ o h (Nat.lt_succ_self _)
    (Nat.le_of_succ_le (hlength h₄))) fun body ts₅ o h₅ _ => ?_
  refine h₅.bind (fun _ h => expect_follows h rfl) fun _ ts₆ o h₆ _ => ?_
  refine h₆.bind (fun _ h => expect_follows h rfl) fun _ ts₇ o h₇ _ => ?_
  exact endOfInput_agrees (h₇.skipNewlines (by have := hlength h₇; omega))

/-! ### Results whatever the fuel -/

/-- From `c` the reading comes to this result and leaves the cursor at `c'`.  Any amount of fuel
will do that is enough for the text, and with any other the reading is cut off at most. -/
def Ends (source : String) (x : Nat → Pull α) (c : Cursor) (r : Except Error α) (c' : Cursor) :
    Prop :=
  ∀ fuel, x fuel c = some (r, c') ∨ fuel < enough source ∧ x fuel c = none

theorem Ends.of_extends {x : Nat → Pull α} {r : Except Error α}
    (hx : ∀ fuel, Extends (x fuel) (x (fuel + 1))) (h : x (enough source) c = some (r, c')) :
    Ends source x c r c' := by
  intro fuel
  by_cases hle : enough source ≤ fuel
  · obtain ⟨k, rfl⟩ := Nat.exists_eq_add_of_le hle
    exact Or.inl (Extends.add hx _ k c _ h)
  · -- What comes out with less fuel comes out with enough of it.
    have hlt := Nat.lt_of_not_le hle
    cases hrun : x fuel c with
    | none => exact Or.inr ⟨hlt, rfl⟩
    | some p =>
        obtain ⟨k, hk⟩ := Nat.exists_eq_add_of_le (Nat.le_of_lt hlt)
        have hmore := Extends.add hx fuel k c p hrun
        rw [← hk, h] at hmore
        exact Or.inl hmore.symm

/-- Where the token in view is such a one, reading ends and leaves the cursor on a token of the
text; and if it gives a phrase, it has drawn `k` tokens or more. -/
def Draws (source : String) (k : Nat) (more : Token → Prop) (x : Nat → Pull α) : Prop :=
  ∀ c, On source c → more c.current →
    ∃ r c', Ends source x c r c' ∧ On source c' ∧ ∀ a, r = .ok a → c.drawn + k ≤ c'.drawn

/-- Any token may be in view. -/
def anyToken (_ : Token) : Prop :=
  True

namespace Draws

variable {k k' : Nat} {more : Token → Prop} {x : Nat → Pull α}

theorem of_follows (hx : ∀ fuel, Extends (x fuel) (x (fuel + 1)))
    (h : ∀ ts o, Stands source ts.length ts (x (enough source)) o → more (peek ts) →
      3 * ts.length + 2 ≤ enough source →
      ∃ b r, b + k ≤ ts.length + 1 ∧ Follows source ts.length b r o) :
    Draws source k more x := by
  intro c hon hmore
  obtain ⟨ts, hts⟩ := hon.shows
  have hdrawn := hts.drawn
  rw [← hts.peek] at hmore
  obtain ⟨b, r, hb, ⟨p, -, hstands, hlt⟩ | ⟨e, c', -, ho, hon'⟩⟩ :=
    h ts _ (.of_shows hts _) hmore (length_le_enough hts)
  · rcases hstands with ⟨c', ho, hus, -⟩ | ⟨e, c', ho, hus, -⟩
    · have hdrawn' := hus.drawn
      exact ⟨.ok p.1, c', .of_extends hx ho, hus.on, fun _ _ => by omega⟩
    · exact ⟨.error e, c', .of_extends hx ho, hus.on, by simp⟩
  · exact ⟨.error e, c', .of_extends hx ho, hon', by simp⟩

/-- A phrase that is read off a list as well takes a token. -/
theorem phrase (hx : ∀ fuel, Extends (x fuel) (x (fuel + 1)))
    (h : ∀ ts o, Stands source ts.length ts (x (enough source)) o →
      3 * ts.length + 2 ≤ enough source → ∃ r, Follows source ts.length ts.length r o) :
    Draws source 1 anyToken x := by
  refine of_follows hx fun ts o hts _ hfuel => ?_
  obtain ⟨r, hr⟩ := h ts o hts hfuel
  exact ⟨ts.length, r, Nat.le_refl _, hr⟩

theorem advance (hmore : ∀ t, more t → t.kind.isOrdinary = true) :
    Draws source 1 more fun _ => advance := by
  intro c hon hc
  obtain ⟨ts, hts⟩ := hon.shows
  have hend : c.current.kind ≠ .endOfInput := by
    intro hend
    have hordinary := hmore _ hc
    rw [hend] at hordinary
    cases hordinary
  have hon' := (hts.advance hend).on
  cases hrefusal : c.advance.refusal? with
  | none =>
      exact ⟨.ok (), c.advance, fun _ => Or.inl (recover_of_none hrefusal), hon',
        fun _ _ => Nat.le_refl _⟩
  | some e =>
      exact ⟨.error e, c.advance, fun _ => Or.inl (recover_of_some hrefusal), hon', by simp⟩

theorem bind {f : Nat → α → Pull β} (hx : Draws source k more x)
    (hf : ∀ a, Draws source k' anyToken fun fuel => f fuel a) :
    Draws source (k + k') more fun fuel => x fuel >>= f fuel := by
  intro c hon hc
  obtain ⟨r, c₁, hends, hon₁, hdrawn⟩ := hx c hon hc
  cases r with
  | error e =>
      refine ⟨.error e, c₁, fun fuel => ?_, hon₁, by simp⟩
      rcases hends fuel with hrun | ⟨hlt, hrun⟩
      · exact Or.inl (bind_of_error hrun)
      · exact Or.inr ⟨hlt, bind_of_none hrun⟩
  | ok a =>
      obtain ⟨r, c₂, hends', hon₂, hdrawn'⟩ := hf a c₁ hon₁ trivial
      have hstep := hdrawn a rfl
      refine ⟨r, c₂, fun fuel => ?_, hon₂, fun b hb => ?_⟩
      · rcases hends fuel with hrun | ⟨hlt, hrun⟩
        · have hbind : (x fuel >>= f fuel) c = f fuel a c₁ := bind_of_ok hrun
          rcases hends' fuel with hrun' | ⟨hlt, hrun'⟩
          · exact Or.inl (hbind.trans hrun')
          · exact Or.inr ⟨hlt, hbind.trans hrun'⟩
        · exact Or.inr ⟨hlt, bind_of_none hrun⟩
      · have hstep' := hdrawn' b hb
        omega

end Draws

/-! ### Tokens taken -/

/-- A list of phrases with signs between them: the first phrase takes a token, and each further
one takes its sign and more. -/
structure Listed (source : String) (sign : Sign) (x : Nat → Pull α) : Prop where
  first : Draws source 1 anyToken x
  further : Draws source 2 (fun t => t.kind = .sign sign) fun fuel => do advance; x fuel

theorem Listed.of_draws {x : Nat → Pull α} (h : Draws source 1 anyToken x) (sign : Sign) :
    Listed source sign x where
  first := h
  further := .bind (.advance fun t ht => by rw [ht]; rfl) fun _ => h

/-- The readings take tokens: a round of each loop does, and so does each phrase inside of
another one, except the statements of a block. -/
structure Thrifty (source : String) : Prop where
  /-- Reading statements goes round by one statement. -/
  statement : ∀ declarations, Draws source 1 anyToken fun fuel => statement fuel declarations
  newline : Draws source 1 (fun t => t.kind = .newline) fun _ => advance
  declarators : Listed source .comma declarator
  targets : Listed source .assign expression
  items : Listed source .ampersand item
  names : Listed source .comma fun _ => name
  clause : Draws source 2 (fun t => t.kind = .keyword .ELSE) clause
  /-- The outer loop over operators goes round by an operator and its tightened operand. -/
  operator : ∀ op, Draws source 2 (fun t => t.kind.binOp? = some op) fun fuel => do
    advance
    let right ← operand fuel
    tighten fuel op.precedence right
  /-- The inner loop goes round by the outer one, started with the operator in view. -/
  climb : ∀ op right, Draws source 1 (fun t => t.kind.binOp? = some op) fun fuel =>
    climb fuel op.precedence right
  primary : Draws source 1 anyToken primary
  operand : Draws source 1 anyToken operand
  expression : Draws source 1 anyToken expression
  condition : Draws source 1 anyToken condition
  block : ∀ k, Draws source 1 anyToken fun fuel => block fuel k
  clauseBody : Draws source 1 anyToken clauseBody
  /-- A block may be empty, and then nothing is taken between its BEGIN and its END. -/
  statements : ∀ declarations, Draws source 0 anyToken fun fuel => statements fuel declarations

/-! ### Rounds of the loops over operators -/

theorem loopsClimb_parseWithin (ts : List Token) :
    LoopsClimb source m (Expr.parseWithin ts.length) ts :=
  loopsClimb (operand_follows (keeps_parseWithin _)) (ts.length + 1) ts (Nat.le_succ _)
    (Nat.lt_succ_self _)

theorem Climbs.follows {expr : Phrase Expr} {least : Nat} {left : Expr}
    {o : Option (Except Error Expr × Cursor)} (h : Climbs source m expr least left ts o)
    (hb : ∀ us taken tree, Takes expr least left ts us taken tree → us.length < b) :
    ∃ r, Follows source m b r o := by
  rcases h with ⟨tree, us, ⟨taken, htakes⟩, hus⟩ | ⟨e, c, -, ho, hon⟩
  · exact ⟨.ok (tree, us), hus.pure (hb us taken tree htakes)⟩
  · exact ⟨.error e, Or.inr ⟨e, c, rfl, ho, hon⟩⟩

theorem draws_tighten (least : Nat) (e : Expr) :
    Draws source 0 anyToken fun fuel => tighten fuel least e := by
  refine .of_follows (fun fuel => (expressionsExtend fuel).tighten least e)
    fun ts o hts _ hfuel => ?_
  have hclimbs := (loopsClimb_parseWithin ts (enough source) least e o).2 hts
    (Nat.le_of_succ_le hfuel)
  obtain ⟨r, hr⟩ := hclimbs.follows fun us taken tree htakes =>
    Nat.lt_succ_of_le (Nat.le_trans (Nat.le_add_right _ _) htakes.short)
  exact ⟨ts.length + 1, r, Nat.le_refl _, hr⟩

theorem draws_climb (op : BinOp) (e : Expr) :
    Draws source 1 (fun t => t.kind.binOp? = some op) fun fuel => climb fuel op.precedence e := by
  refine .of_follows (fun fuel => (expressionsExtend fuel).climb _ e) fun ts o hts hop hfuel => ?_
  have hclimbs := (loopsClimb_parseWithin ts (enough source) op.precedence e o).1 hts (by omega)
  obtain ⟨r, hr⟩ := hclimbs.follows fun us taken tree htakes => htakes.length_lt hop
  exact ⟨ts.length, r, Nat.le_refl _, hr⟩

theorem draws_operand : Draws source 1 anyToken operand :=
  .phrase (fun fuel => (expressionsExtend fuel).operand) fun ts o hts hfuel =>
    ⟨_, operand_follows (keeps_parseWithin _) _ ts o hts (Nat.le_succ _) (Nat.le_of_succ_le hfuel)⟩

/-! ### Rounds of the other loops -/

theorem keepsInner (n : Nat) : KeepsInner source m n (Stmt.statements n false) :=
  statements_follows n false

theorem clause_follows {o : Option (Except Error (Option Expr × List Stmt) × Cursor)}
    (h : Stands source m ts (clause fuel) o) (helse : (peek ts).kind = .keyword .ELSE)
    (hfuel : 3 * ts.length + 2 ≤ fuel) : ∃ r, Follows source m ts.tail.length r o := by
  have htail := h.length_tail_lt
  obtain ⟨fuel, rfl⟩ := h.exists_succ (Nat.le_trans (by omega) hfuel)
  rw [clause] at h
  replace h := h.advance (by rw [helse]; rfl)
  have htail' := h.length_tail_lt
  replace h := h.view
  by_cases hif : (peek ts.tail).kind = .keyword .IF
  · rw [if_pos hif] at h
    refine ⟨Stmt.condition ts.tail.tail >>= fun r =>
      Stmt.clauseBody (Stmt.statements ts.length false) r.2 >>= fun r' =>
        pure ((some r.1, r'.1), r'.2), ?_⟩
    refine (h.advance (by rw [hif]; rfl)).bind (fun _ h => condition_follows h (by omega))
      fun cond us o hus hlt => ?_
    dsimp only
    refine hus.bind (fun _ h => clauseBody_follows (keepsInner _) h (by omega) (by omega))
      fun body vs o hvs hlt' => ?_
    exact hvs.pure (by omega)
  · rw [if_neg hif] at h
    refine ⟨Stmt.clauseBody (Stmt.statements ts.length false) ts.tail >>= fun r =>
      pure ((none, r.1), r.2), ?_⟩
    refine h.bind (fun _ h => clauseBody_follows (keepsInner _) h (Nat.le_of_lt htail) (by omega))
      fun body us o hus hlt => ?_
    exact hus.pure hlt

theorem draws_clause : Draws source 2 (fun t => t.kind = .keyword .ELSE) clause := by
  refine .of_follows (fun fuel => (statementsExtend fuel).clause) fun ts o hts helse hfuel => ?_
  obtain ⟨r, hr⟩ := clause_follows hts helse hfuel
  have htail := hts.length_tail_lt
  exact ⟨ts.tail.length, r, by omega, hr⟩

theorem thrifty (source : String) : Thrifty source where
  statement declarations :=
    .phrase (fun fuel => (statementsExtend fuel).statement declarations) fun _ _ hts hfuel =>
      ⟨_, statement_follows (keepsInner _) declarations hts (Nat.le_refl _) (by omega)⟩
  newline := .advance fun t ht => by rw [ht]; rfl
  declarators := .of_draws (.phrase extends_declarator fun _ _ hts hfuel =>
    ⟨_, declarator_follows hts hfuel⟩) .comma
  targets := .of_draws (.phrase extends_expression fun _ _ hts hfuel =>
    ⟨_, expression_follows hts hfuel⟩) .assign
  items := .of_draws (.phrase extends_item fun _ _ hts hfuel =>
    ⟨_, item_follows hts hfuel⟩) .ampersand
  names := .of_draws (.phrase (fun _ => .refl name) fun _ _ hts _ => ⟨_, name_follows hts⟩) .comma
  clause := draws_clause
  operator op := .bind (.advance fun t => isOrdinary_of_binOp?) fun _ =>
    draws_operand.bind fun right => draws_tighten op.precedence right
  climb := draws_climb
  primary := .phrase (fun fuel => (expressionsExtend fuel).primary) fun _ _ hts hfuel =>
    ⟨_, primary_follows (keeps_parseWithin _) hts (Nat.le_succ _) (by omega)⟩
  operand := draws_operand
  expression := .phrase extends_expression fun _ _ hts hfuel => ⟨_, expression_follows hts hfuel⟩
  condition := .phrase extends_condition fun _ _ hts hfuel =>
    ⟨_, condition_follows hts (by omega)⟩
  block k := .phrase (fun fuel => (statementsExtend fuel).block k) fun _ _ hts hfuel =>
    ⟨_, block_follows (keepsInner _) k hts (Nat.le_refl _) (by omega)⟩
  clauseBody := .phrase (fun fuel => (statementsExtend fuel).clauseBody) fun _ _ hts hfuel =>
    ⟨_, clauseBody_follows (keepsInner _) hts (Nat.le_refl _) (by omega)⟩
  statements declarations :=
    .of_follows (fun fuel => (statementsExtend fuel).statements declarations)
      fun ts o hts _ hfuel => ⟨_, _, Nat.le_refl _, statements_follows _ declarations _ ts o hts
        (Nat.lt_succ_self _) (Nat.le_of_succ_le hfuel)⟩

end Pull

/-! ### Reading ends -/

/-- The end of input is the last token that is drawn on the way through a text. -/
theorem Cursor.On.drawn {source : String} {c : Cursor} (h : On source c) :
    c.drawn ≤ (Token.ofSource source).length ∧
      (c.current.kind = .endOfInput ↔ c.drawn = (Token.ofSource source).length) := by
  obtain ⟨ts, hts⟩ := h.shows
  have hdrawn := hts.drawn
  have hlength := congrArg List.length hts.eq_cons
  rw [List.length_cons] at hlength
  refine ⟨by omega, fun hend => ?_, fun hlast => ?_⟩
  · rw [coming, if_pos hend, List.length_nil] at hlength
    omega
  · apply Classical.byContradiction
    intro hend
    have hrest := (hts.advance hend).length_tail_lt
    have htail := List.length_tail (l := ts)
    omega

/-- **Reading a program ends, and not beyond the end of input.**  Drawn one at a time, the tokens
of a text give the same program, or the same error, as the list of all of them.  Of a program all
the tokens are drawn, and one more in place of the end of input, which is left in the last step;
where there is an error, the cursor is still on a token of the text.  On the way there each round
of a loop takes a token, and so does each phrase but the statements of a block, of which there
may be none. -/
theorem Program.parse_ends (source : String) :
    (∃ c, Pull.Ends source Pull.program (.ofSource source) (Program.parse source) c ∧
      c.drawn ≤ (Token.ofSource source).length + 1 ∧
      (∀ p, Program.parse source = .ok p → Pull.Beyond source c ∧
        c.drawn = (Token.ofSource source).length + 1) ∧
      ∀ e, Program.parse source = .error e → Cursor.On source c) ∧
    (∀ c, Cursor.On source c → c.drawn ≤ (Token.ofSource source).length ∧
      (c.current.kind = .endOfInput ↔ c.drawn = (Token.ofSource source).length)) ∧
    Pull.Thrifty source := by
  refine ⟨?_, fun c hc => hc.drawn, Pull.thrifty source⟩
  rcases Pull.program_agrees source with
    ⟨p, hparse, c, hrun, hbeyond⟩ | ⟨e, c, hparse, hrun, hon⟩
  · have hdrawn : c.drawn = (Token.ofSource source).length + 1 := by
      obtain ⟨last, hlast, hend, rfl⟩ := hbeyond
      exact congrArg (· + 1) (hlast.drawn.2.1 hend)
    rw [hparse]
    exact ⟨c, .of_extends Pull.extends_program hrun, Nat.le_of_eq hdrawn,
      fun _ _ => ⟨hbeyond, hdrawn⟩, by simp⟩
  · rw [hparse]
    exact ⟨c, .of_extends Pull.extends_program hrun, Nat.le_succ_of_le hon.drawn.1, by simp,
      fun _ _ => hon⟩

end Pseudocode

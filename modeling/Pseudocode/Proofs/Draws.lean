/-
Drawing tokens and reading a list of them.

Reading with one token in view does what reading the list of all tokens does.  A cursor is
determined by the number of draws that led to it, and it shows what the list still holds: the
token in view, and those that will be drawn.  So a phrase is read off the list and off the cursor
in the same way, with the same error if there is one, and the two go on from the same place; that
is the judgement `Follows`, and it goes along with the ways in which phrases are put together.

There is one difference.  A fault stops the cursor as soon as it comes into view, while the list
is read on until some phrase asks for another token.  But in front of a fault a phrase can only be
empty, or end with the error of this fault.  So a reading that has been stopped is taken along as
if it stood in front of the fault (`Stands`), and sooner or later the list comes to the same error.

The list gets shorter by exactly the tokens that are drawn.  Whatever takes a token off the list
draws one, so a number of rounds for each token is enough fuel for all loops; and the end of
input, which no phrase takes off the list, stays in view.
-/
import Pseudocode.Proofs.Acceptance
import Pseudocode.Proofs.Pulling
import Pseudocode.Proofs.Requests

namespace Pseudocode

open Grammar (Read Phrase peek)

/-! ### What a cursor shows -/

namespace Cursor

/-- The tokens that reading sees: those of a text, with their kinds settled. -/
def settled (source : String) : List Token :=
  Token.resolveNames {} (Token.ofSource source)

/-- The cursor after some draws, of which the first one is not counted. -/
def nth (source : String) : Nat → Cursor
  | 0 => ofSource source
  | k + 1 => (nth source k).advance

/-- The cursor stands on a token of the text, at most on the end of input. -/
def On (source : String) (c : Cursor) : Prop :=
  ∃ k, k < (Token.ofSource source).length ∧ c = nth source k

/-- What is left of the tokens begins with the token in view. -/
def Shows (source : String) (c : Cursor) (ts : List Token) : Prop :=
  ∃ k, c = nth source k ∧ ts = (settled source).drop k ∧ ts ≠ []

/-- The tokens that will be drawn, up to the end of input. -/
def coming (c : Cursor) : List Token :=
  if c.current.kind = .endOfInput then [] else Token.resolveNames c.context c.scanner.ahead

/-- Drawing a token takes it off those ahead. -/
theorem resolveNames_ahead (s : Scanner) (ctx : Token.Context) (t : Token) (n : Nat) :
    Token.resolveNames ctx s.ahead = (draw s ctx t n).current :: (draw s ctx t n).coming := by
  have hend : (draw s ctx t n).current.kind = .endOfInput ↔ s.next.1.kind = .endOfInput :=
    resolve_eq_endOfInput_iff
  by_cases h : s.next.1.kind = .endOfInput
  · rw [(Scanner.ahead_of_endOfInput h).1, coming, if_pos (hend.2 h)]
    rfl
  · rw [Scanner.ahead_of_ne h, coming, if_neg (mt hend.1 h)]
    rfl

theorem length_settled (source : String) :
    (settled source).length = (Token.ofSource source).length :=
  Token.length_resolveNames _ _

theorem drop_settled (source : String) (k : Nat) (h : (settled source).drop k ≠ []) :
    (settled source).drop k = (nth source k).current :: (nth source k).coming := by
  induction k with
  | zero => exact resolveNames_ahead (.ofSource source) {} (peek []) 0
  | succ k ih =>
      have hdrop : (settled source).drop (k + 1) = ((settled source).drop k).tail :=
        List.tail_drop.symm
      rw [hdrop] at h ⊢
      have hne : (settled source).drop k ≠ [] := by
        intro hnil
        rw [hnil] at h
        exact h rfl
      rw [ih hne, List.tail_cons] at h ⊢
      have hmore : (nth source k).current.kind ≠ .endOfInput := fun hend => h (if_pos hend)
      rw [coming, if_neg hmore]
      exact resolveNames_ahead _ _ _ _

theorem drawn_nth (source : String) (k : Nat) : (nth source k).drawn = k + 1 := by
  induction k with
  | zero => rfl
  | succ k ih => exact congrArg (· + 1) ih

namespace Shows

variable {source : String} {c : Cursor} {t : Token} {ts us : List Token}

theorem start (source : String) : Shows source (ofSource source) (settled source) := by
  refine ⟨0, rfl, rfl, ?_⟩
  rw [settled, ← Scanner.ahead_ofSource, resolveNames_ahead _ _ (Grammar.peek []) 0]
  exact List.cons_ne_nil _ _

theorem eq_cons (h : Shows source c ts) : ts = c.current :: c.coming := by
  obtain ⟨k, rfl, rfl, hne⟩ := h
  exact drop_settled source k hne

theorem peek (h : Shows source c ts) : Grammar.peek ts = c.current := by
  rw [h.eq_cons]

theorem drawn (h : Shows source c ts) :
    c.drawn + ts.length = (Token.ofSource source).length + 1 := by
  obtain ⟨k, rfl, rfl, hne⟩ := h
  have hlt := List.length_pos_iff.2 hne
  rw [List.length_drop, length_settled] at hlt ⊢
  rw [drawn_nth]
  omega

theorem on (h : Shows source c ts) : On source c := by
  obtain ⟨k, rfl, rfl, hne⟩ := h
  have hlt := List.length_pos_iff.2 hne
  rw [List.length_drop, length_settled] at hlt
  exact ⟨k, by omega, rfl⟩

/-- Behind any token but the end of input there is another one. -/
theorem advance (h : Shows source c ts) (hend : c.current.kind ≠ .endOfInput) :
    Shows source c.advance ts.tail := by
  have hcoming := h.eq_cons
  obtain ⟨k, rfl, rfl, hne⟩ := h
  refine ⟨k + 1, rfl, List.tail_drop, ?_⟩
  rw [hcoming, List.tail_cons, coming, if_neg hend, resolveNames_ahead _ _ (Grammar.peek []) 0]
  exact List.cons_ne_nil _ _

/-- What is left of the tokens tells where the cursor stands. -/
theorem unique {c' : Cursor} (h : Shows source c ts) (h' : Shows source c' ts) : c = c' := by
  obtain ⟨k, rfl, rfl, hne⟩ := h
  obtain ⟨k', rfl, heq, -⟩ := h'
  have hpos := List.length_pos_iff.2 hne
  have hlen := congrArg List.length heq
  simp only [List.length_drop] at hpos hlen
  obtain rfl : k = k' := by omega
  rfl

/-- The token that was in view before is the last one of those taken off the list. -/
theorem previous {c' : Cursor} (h : Shows source c (us ++ t :: ts)) (h' : Shows source c' ts) :
    c'.previous = t := by
  obtain ⟨k, rfl, hk, -⟩ := h
  have hne : ts ≠ [] := by
    rw [h'.eq_cons]
    exact List.cons_ne_nil _ _
  have hdrop : t :: ts = (settled source).drop (k + us.length) := by
    rw [← List.drop_drop, ← hk, List.drop_left]
  have hlast : Shows source (nth source (k + us.length)) (t :: ts) :=
    ⟨_, rfl, hdrop, List.cons_ne_nil _ _⟩
  have hnext : Shows source (nth source (k + us.length + 1)) ts :=
    ⟨_, rfl, by rw [← List.tail_drop, ← hdrop, List.tail_cons], hne⟩
  rw [h'.unique hnext]
  exact hlast.peek.symm

end Shows

theorem Shows.length_tail_lt {source : String} {c : Cursor} {ts : List Token}
    (h : Shows source c ts) : ts.tail.length < ts.length := by
  rw [h.eq_cons]
  exact Nat.lt_succ_self _

/-- A fault in view that is not let pass is reported as what it is. -/
theorem reject_of_refusal? {c : Cursor} {e : Error} (h : c.refusal? = some e) :
    (∃ f, c.current.kind = .fault f) ∧ ∀ fault, Grammar.reject c.current fault = e := by
  unfold refusal? at h
  cases hk : c.current.kind with
  | fault f =>
      simp only [hk] at h
      split at h
      · cases h
      · cases h
        exact ⟨⟨f, rfl⟩, fun fault => by simp only [Grammar.reject, hk]⟩
  | _ =>
      simp only [hk] at h
      cases h

/-- Behind anything but a minus sign no fault is let pass. -/
theorem refusal?_of_fault {c : Cursor} {f : Fault} (h : c.current.kind = .fault f)
    (hprevious : c.previous.kind ≠ .sign (.arith .sub)) :
    c.refusal? = some ⟨.lexical f c.current.lexeme, c.current.span⟩ := by
  simp only [refusal?, h]
  exact if_neg fun hpass => hprevious hpass.2

theorem refusal?_of_ne_fault {c : Cursor} (h : ∀ f, c.current.kind ≠ .fault f) :
    c.refusal? = none := by
  unfold refusal?
  cases hk : c.current.kind with
  | fault f => exact absurd hk (h f)
  | _ => rfl

theorem On.shows {source : String} {c : Cursor} (h : On source c) : ∃ ts, Shows source c ts := by
  obtain ⟨k, hk, rfl⟩ := h
  refine ⟨_, k, rfl, rfl, ?_⟩
  rw [← List.length_pos_iff, List.length_drop, length_settled]
  omega

end Cursor

/-! ### Readings side by side -/

/-- A token that is neither a fault nor the end of input. -/
def Token.Kind.isOrdinary : Token.Kind → Bool
  | .fault _ => false
  | .endOfInput => false
  | _ => true

namespace Pull

open Cursor

variable {α β ρ : Type} {source : String} {b b' m : Nat} {c c' : Cursor} {ts us : List Token}

/-- Of a reading that started with `m` tokens, `x` is to come in front of `ts`, and it comes to
`o`: the cursor shows `ts`, and unless it has not moved yet the token in view is let pass; or a
fault has stopped the reading there, and that is what it comes to. -/
def Stands (source : String) (m : Nat) (ts : List Token) (x : Pull α)
    (o : Option (Except Error α × Cursor)) : Prop :=
  (∃ c, o = x c ∧ Shows source c ts ∧ (ts.length < m → c.refusal? = none)) ∨
    ∃ e c, o = some (.error e, c) ∧ Shows source c ts ∧ c.refusal? = some e

/-- A reading does what is done with a list: where the list gives a result, this and what the
reading comes to are as `done` says, and otherwise both stop with the same error. -/
def Agrees (source : String) (done : ρ → Option (Except Error α × Cursor) → Prop)
    (r : Except Error ρ) (o : Option (Except Error α × Cursor)) : Prop :=
  (∃ p, r = .ok p ∧ done p o) ∨ ∃ e c, r = .error e ∧ o = some (.error e, c) ∧ On source c

/-- A phrase is read off the list and off the cursor: both readings go on from the same place,
with fewer than `b` tokens left. -/
def Follows (source : String) (m b : Nat) (r : Except Error (Read α))
    (o : Option (Except Error α × Cursor)) : Prop :=
  Agrees source (fun p o => Stands source m p.2 (Pure.pure p.1) o ∧ p.2.length < b) r o

/-- A reading comes to a phrase in front of tokens, of which `found` holds, or to an error of
which `failed` does. -/
def Comes (source : String) (m : Nat) (found : α → List Token → Prop) (failed : Error → Prop)
    (o : Option (Except Error α × Cursor)) : Prop :=
  (∃ a us, found a us ∧ Stands source m us (Pure.pure a) o) ∨
    ∃ e c, failed e ∧ o = some (.error e, c) ∧ On source c

theorem Follows.comes {r : Except Error (Read α)} {o : Option (Except Error α × Cursor)}
    (h : Follows source m b r o) :
    Comes source m (fun a us => r = .ok (a, us) ∧ us.length < b) (fun e => r = .error e) o := by
  rcases h with ⟨⟨a, us⟩, hr, hstands, hlt⟩ | herror
  · exact Or.inl ⟨a, us, ⟨hr, hlt⟩, hstands⟩
  · exact Or.inr herror

theorem Follows.mono {r : Except Error (Read α)} {o : Option (Except Error α × Cursor)}
    (h : Follows source m b r o) (hb : b ≤ b') : Follows source m b' r o := by
  rcases h with ⟨p, hr, hstands, hlt⟩ | herror
  · exact Or.inl ⟨p, hr, hstands, Nat.lt_of_lt_of_le hlt hb⟩
  · exact Or.inr herror

namespace Stands

variable {x : Pull α} {g : α → Pull β} {o : Option (Except Error α × Cursor)}
  {q : Option (Except Error β × Cursor)}

theorem of_shows (h : Shows source c ts) (x : Pull α) : Stands source ts.length ts x (x c) :=
  Or.inl ⟨c, rfl, h, fun hlt => absurd hlt (Nat.lt_irrefl _)⟩

/-- Whether the reading has been stopped or not, the cursor shows the tokens. -/
theorem shows (h : Stands source m ts x o) : ∃ c, Shows source c ts := by
  rcases h with ⟨c, -, hshows, -⟩ | ⟨e, c, -, hshows, -⟩ <;> exact ⟨c, hshows⟩

theorem length_tail_lt (h : Stands source m ts x o) : ts.tail.length < ts.length := by
  obtain ⟨c, hshows⟩ := h.shows
  exact hshows.length_tail_lt

/-- With a token left there is fuel left. -/
theorem exists_succ {fuel : Nat} (h : Stands source m ts x o) (hfuel : ts.length ≤ fuel) :
    ∃ k, fuel = k + 1 := by
  have := h.length_tail_lt
  exact ⟨fuel - 1, by omega⟩

theorem view {g : Token → Pull α} (h : Stands source m ts (Pull.view >>= g) o) :
    Stands source m ts (g (peek ts)) o := by
  rcases h with ⟨c, rfl, hshows, hopen⟩ | hstopped
  · exact Or.inl ⟨c, by rw [view_bind, hshows.peek], hshows, hopen⟩
  · exact Or.inr hstopped

/-- A fault that comes into view stops the reading. -/
theorem recover (h : Shows source c ts) (g : Unit → Pull β) :
    Stands source m ts (g ()) ((Pull.recover >>= g) c) := by
  cases hrefusal : c.refusal? with
  | some e =>
      exact Or.inr ⟨e, c, bind_of_error (recover_of_some hrefusal), h, hrefusal⟩
  | none =>
      exact Or.inl ⟨c, bind_of_ok (recover_of_none hrefusal), h, fun _ => hrefusal⟩

theorem advance_of_shows (h : Shows source c ts) (hend : c.current.kind ≠ .endOfInput)
    (g : Unit → Pull β) : Stands source m ts.tail (g ()) ((Pull.advance >>= g) c) := by
  have hbind : (Pull.advance >>= g) c = (Pull.recover >>= g) c.advance := by
    rw [Pull.advance, bind_assoc]
    rfl
  rw [hbind]
  exact recover (h.advance hend) g

/-- No reading has been stopped at an ordinary token. -/
theorem running (h : Stands source m ts x o) (hk : (peek ts).kind.isOrdinary = true) :
    ∃ c, o = x c ∧ Shows source c ts := by
  rcases h with ⟨c, ho, hshows, -⟩ | ⟨e, c, -, hshows, hrefusal⟩
  · exact ⟨c, ho, hshows⟩
  · obtain ⟨⟨f, hf⟩, -⟩ := reject_of_refusal? hrefusal
    rw [hshows.peek, hf] at hk
    cases hk

theorem advance {g : Unit → Pull β} (h : Stands source m ts (Pull.advance >>= g) q)
    (hk : (peek ts).kind.isOrdinary = true) : Stands source m ts.tail (g ()) q := by
  obtain ⟨c, rfl, hshows⟩ := h.running hk
  rw [hshows.peek] at hk
  refine advance_of_shows hshows (fun hend => ?_) g
  rw [hend] at hk
  cases hk

/-- The token in front does not fit. -/
theorem reject {done : ρ → Option (Except Error α × Cursor) → Prop} {fault : GrammarFault}
    (h : Stands source m ts (throw (Grammar.reject (peek ts) fault)) o) :
    Agrees source done (.error (Grammar.reject (peek ts) fault)) o := by
  rcases h with ⟨c, rfl, hshows, -⟩ | ⟨e, c, rfl, hshows, hrefusal⟩
  · exact Or.inr ⟨_, c, rfl, rfl, hshows.on⟩
  · rw [hshows.peek, (reject_of_refusal? hrefusal).2]
    exact Or.inr ⟨e, c, rfl, rfl, hshows.on⟩

theorem pure {a : α} (h : Stands source m ts (Pure.pure a) o) (hb : ts.length < b) :
    Follows source m b (.ok (a, ts)) o :=
  Or.inl ⟨(a, ts), rfl, h, hb⟩

/-- A reading that goes on behind another one.  If a fault has stopped it in front of `ts`, then
the first part comes to nothing else, and what follows is in front of the same fault. -/
theorem bind_cases {found : α → List Token → Prop} {failed : Error → Prop}
    (h : Stands source m ts (x >>= g) q)
    (hx : ∀ o, Stands source m ts x o → Comes source m found failed o) :
    (∃ a us, found a us ∧ Stands source m us (g a) q) ∨
      ∃ e c, failed e ∧ q = some (.error e, c) ∧ On source c := by
  rcases h with ⟨c, rfl, hshows, hopen⟩ | ⟨e, c, rfl, hshows, hrefusal⟩
  · rcases hx _ (Or.inl ⟨c, rfl, hshows, hopen⟩) with
      ⟨a, us, hfound, ⟨c', hrun, hus, hopen'⟩ | ⟨e, c', hrun, hus, hrefusal⟩⟩ |
      ⟨e, c', hfailed, hrun, hon⟩
    · exact Or.inl ⟨a, us, hfound, Or.inl ⟨c', bind_of_ok hrun, hus, hopen'⟩⟩
    · exact Or.inl ⟨a, us, hfound, Or.inr ⟨e, c', bind_of_error hrun, hus, hrefusal⟩⟩
    · exact Or.inr ⟨e, c', hfailed, bind_of_error hrun, hon⟩
  · rcases hx _ (Or.inr ⟨e, c, rfl, hshows, hrefusal⟩) with
      ⟨a, us, hfound, ⟨c', hrun, -, -⟩ | ⟨e', c', hrun, hus, hrefusal'⟩⟩ |
      ⟨e', c', hfailed, hrun, hon⟩
    · cases hrun
    · cases hrun
      exact Or.inl ⟨a, us, hfound, Or.inr ⟨e, c, rfl, hus, hrefusal'⟩⟩
    · cases hrun
      exact Or.inr ⟨e, c, hfailed, rfl, hon⟩

/-- A phrase, and what is read behind it. -/
theorem bind {done : ρ → Option (Except Error β × Cursor) → Prop} {r : Except Error (Read α)}
    {f : Read α → Except Error ρ} (h : Stands source m ts (x >>= g) q)
    (hx : ∀ o, Stands source m ts x o → Follows source m b r o)
    (hfg : ∀ a us o, Stands source m us (g a) o → us.length < b →
      Agrees source done (f (a, us)) o) :
    Agrees source done (r >>= f) q := by
  rcases h.bind_cases fun o ho => (hx o ho).comes with ⟨a, us, ⟨rfl, hlt⟩, hus⟩ |
    ⟨e, c, rfl, hq, hon⟩
  · exact hfg a us q hus hlt
  · exact Or.inr ⟨e, c, rfl, hq, hon⟩

end Stands

/-! ### Steps -/

section Steps

variable {o : Option (Except Error α × Cursor)}

theorem expect_follows {k : Token.Kind} {o : Option (Except Error Token × Cursor)}
    (h : Stands source m ts (expect k) o) (hk : k.isOrdinary = true) :
    Follows source m ts.length (Grammar.expect k ts) o := by
  have h' := Stands.view h
  rw [Grammar.expect]
  by_cases hkind : (peek ts).kind = k
  · rw [if_pos hkind] at h' ⊢
    exact (h'.advance (by rw [hkind, hk])).pure h.length_tail_lt
  · rw [if_neg hkind] at h' ⊢
    exact h'.reject

theorem name_follows {o : Option (Except Error (Located String) × Cursor)}
    (h : Stands source m ts name o) : Follows source m ts.length (Grammar.name ts) o :=
  h.bind (fun _ h => expect_follows h rfl) fun _ _ _ hus hlt => hus.pure hlt

/-- The end of a statement may be the end of input, and then nothing is taken. -/
theorem lineEnd_agrees {x : Pull α} {done : ρ → Option (Except Error α × Cursor) → Prop}
    {f : List Token → Except Error ρ} (h : Stands source m ts (lineEnd >>= fun _ => x) o)
    (hf : ∀ us o, Stands source m us x o → us.length ≤ ts.length → Agrees source done (f us) o) :
    Agrees source done (Grammar.lineEnd ts >>= f) o := by
  have htail := h.length_tail_lt
  rw [lineEnd, bind_assoc] at h
  have h' := h.view
  unfold Grammar.lineEnd
  dsimp only
  cases hk : (peek ts).kind with
  | newline =>
      simp only [hk] at h'
      exact hf _ _ (h'.advance (by rw [hk]; rfl)) (Nat.le_of_lt htail)
  | endOfInput =>
      simp only [hk, pure_bind] at h'
      exact hf _ _ h' (Nat.le_refl _)
  | _ =>
      simp only [hk] at h'
      exact Stands.reject h'

/-- The rounds of a loop, given what each round does.  Each takes a token, so there is fuel for
all of them. -/
theorem many_follows (more : Token → Bool) {phrase : Phrase α} {x : Pull α} {n : Nat}
    (hphrase : ∀ ts o, Stands source m ts x o → more (peek ts) = true → ts.length ≤ n →
      Follows source m ts.length (phrase ts) o) (rounds : Nat) :
    ∀ fuel ts o, Stands source m ts (many more x fuel) o → ts.length ≤ rounds →
      ts.length ≤ fuel → ts.length ≤ n →
      Follows source m (ts.length + 1)
        (Grammar.many (fun ts => more (peek ts)) phrase rounds ts) o := by
  induction rounds with
  | zero =>
      intro fuel ts o h hrounds
      have := h.length_tail_lt
      omega
  | succ rounds ih =>
      intro fuel ts o h hrounds hfuel hn
      obtain ⟨fuel, rfl⟩ := h.exists_succ hfuel
      rw [many] at h
      replace h := h.view
      rw [Grammar.many]
      by_cases hmore : more (peek ts) = true
      · rw [if_pos hmore] at h ⊢
        refine h.bind (fun o h => hphrase ts o h hmore hn) fun a us o hus hlt => ?_
        refine hus.bind (fun o h => ih fuel us o h (by omega) (by omega) (by omega))
          fun as vs o hvs hlt' => ?_
        exact hvs.pure (by omega)
      · rw [if_neg hmore] at h ⊢
        exact h.pure (Nat.lt_succ_self _)

/-- Line ends in front are gone behind. -/
theorem Stands.skipNewlines {x : Pull α} {fuel : Nat}
    (h : Stands source m ts (skipNewlines fuel >>= fun _ => x) o) (hfuel : ts.length ≤ fuel) :
    Stands source m (Grammar.skipNewlines ts) x o := by
  have hmany : ∀ fuel ts (g : List Unit → Pull α), (∀ us, g us = x) →
      Stands source m ts (many (fun t => t.kind = .newline) Pull.advance fuel >>= g) o →
      ts.length ≤ fuel → Stands source m (Grammar.skipNewlines ts) x o := by
    intro fuel
    induction fuel with
    | zero =>
        intro ts g _ h hfuel
        have := h.length_tail_lt
        omega
    | succ fuel ih =>
        intro ts g hg h hfuel
        have htail := h.length_tail_lt
        obtain ⟨c, hshows⟩ := h.shows
        rw [many, bind_assoc] at h
        replace h := h.view
        by_cases hk : (peek ts).kind = .newline
        · rw [if_pos (decide_eq_true hk), bind_assoc] at h
          have hnext := h.advance (by rw [hk]; rfl)
          rw [bind_assoc] at hnext
          have hskip : Grammar.skipNewlines ts = Grammar.skipNewlines ts.tail := by
            rw [hshows.peek] at hk
            rw [hshows.eq_cons, Grammar.skipNewlines_newline hk]
            rfl
          rw [hskip]
          exact ih ts.tail _ (fun us => by rw [pure_bind, hg]) hnext (by omega)
        · rw [if_neg (by simpa using hk), pure_bind, hg] at h
          have hskip : Grammar.skipNewlines ts = ts := by
            rw [hshows.peek] at hk
            rw [hshows.eq_cons, Grammar.skipNewlines_cons hk]
          rwa [hskip]
  rw [Pull.skipNewlines, bind_assoc] at h
  exact hmany fuel ts _ (fun us => pure_bind ..) h hfuel

theorem separated_follows {sign : Sign} {phrase : Phrase α} {x : Pull α} {n fuel : Nat}
    {o : Option (Except Error (List α) × Cursor)}
    (hphrase : ∀ ts o, Stands source m ts x o → ts.length ≤ n →
      Follows source m ts.length (phrase ts) o)
    (h : Stands source m ts (separated sign x fuel) o) (hn : ts.length ≤ n)
    (hfuel : ts.length ≤ fuel) :
    Follows source m ts.length (Grammar.separated sign phrase ts) o := by
  refine h.bind (fun o h => hphrase ts o h hn) fun first us o hus hlt => ?_
  have hround : ∀ vs o, Stands source m vs (do advance; x) o →
      decide ((peek vs).kind = .sign sign) = true → vs.length ≤ us.length →
      Follows source m vs.length (phrase vs.tail) o := by
    intro vs o hvs hsign hle
    have hkind := of_decide_eq_true hsign
    have htail := hvs.length_tail_lt
    have hnext := hvs.advance (by rw [hkind]; rfl)
    exact (hphrase _ _ hnext (by omega)).mono (Nat.le_of_lt htail)
  refine hus.bind (fun o h => many_follows (fun t => t.kind = .sign sign) hround _ fuel us o h
    (Nat.le_refl _) (by omega) (Nat.le_refl _)) fun others vs o hvs hlt' => ?_
  exact hvs.pure (by omega)

end Steps

end Pull

end Pseudocode

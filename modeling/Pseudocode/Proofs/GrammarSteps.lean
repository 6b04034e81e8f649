/-
What the steps of the grammar take.

Each lemma says of one step what it means that the step succeeds: which tokens it took
off the front, and of which kinds they are.  The proofs about phrases use only these
lemmas and never look into a step again.

The end of a line is the one step that may succeed without taking a token: at the end of
input it stays where it is.  A list that starts with the end of input is therefore kept
apart as `AtEnd`; nothing but the end of a program can be read from there.
-/
import Pseudocode.Proofs.Derivation
import Pseudocode.Proofs.Sequencing

namespace Pseudocode

namespace Grammar

open Derivation (Newlines Separated)

/-- Reading a phrase takes tokens that spell it. -/
def Reads {α : Type} (phrase : Phrase α) (rule : List Token → α → Prop) : Prop :=
  ∀ ts a rest, phrase ts = .ok (a, rest) → ∃ us, ts = us ++ rest ∧ rule us a

/-! ### Single tokens -/

theorem expect_eq_ok {kind : Token.Kind} {ts rest : List Token} {t : Token}
    (hkind : kind ≠ .endOfInput) :
    expect kind ts = .ok (t, rest) ↔ ts = t :: rest ∧ t.kind = kind := by
  cases ts with
  | nil =>
      have hne : ¬ Token.Kind.endOfInput = kind := fun h => hkind h.symm
      simp [expect, hne]
  | cons u us =>
      by_cases hu : u.kind = kind
      · simp only [expect, hu, if_true, Except.ok.injEq, Prod.mk.injEq, List.tail_cons,
          List.cons.injEq]
        constructor
        · rintro ⟨rfl, rfl⟩
          exact ⟨⟨rfl, rfl⟩, hu⟩
        · rintro ⟨⟨rfl, rfl⟩, -⟩
          exact ⟨rfl, rfl⟩
      · simp only [expect, hu, if_false, reduceCtorEq, false_iff, List.cons.injEq, not_and]
        rintro ⟨rfl, -⟩
        exact hu

theorem expect_cons {kind : Token.Kind} {t : Token} (ht : t.kind = kind) (ts : List Token) :
    expect kind (t :: ts) = .ok (t, ts) := by
  simp [expect, ht]

theorem name_eq_ok {ts rest : List Token} {n : Name} :
    name ts = .ok (n, rest) ↔ ∃ t, ts = t :: rest ∧ t.kind = .name ∧ n = ⟨t.lexeme, t.span⟩ := by
  unfold name
  rw [bind_eq_ok]
  constructor
  · rintro ⟨⟨t, us⟩, ht, h⟩
    rw [expect_eq_ok (by decide)] at ht
    simp only [pure_eq_ok, Prod.mk.injEq] at h
    obtain ⟨rfl, rfl⟩ := h
    exact ⟨t, ht.1, ht.2, rfl⟩
  · rintro ⟨t, rfl, ht, rfl⟩
    exact ⟨(t, rest), expect_cons ht rest, rfl⟩

theorem name_cons {t : Token} (ht : t.kind = .name) (ts : List Token) :
    name (t :: ts) = .ok (⟨t.lexeme, t.span⟩, ts) :=
  name_eq_ok.2 ⟨t, rfl, ht, rfl⟩

/-! ### Line ends -/

/-- Nothing is left but the end of input. -/
def AtEnd (ts : List Token) : Prop :=
  (peek ts).kind = .endOfInput

theorem lineEnd_eq_ok {ts rest : List Token} (h : lineEnd ts = .ok rest) :
    (∃ t, t.kind = .newline ∧ ts = t :: rest) ∨ AtEnd rest := by
  simp only [lineEnd] at h
  split at h
  · rename_i hk
    cases ts with
    | nil => simp at hk
    | cons t us =>
        simp only [List.tail_cons, Except.ok.injEq] at h
        exact Or.inl ⟨t, hk, by rw [h]⟩
  · rename_i hk
    simp only [Except.ok.injEq] at h
    exact Or.inr (by rw [AtEnd, ← h]; exact hk)
  · simp at h

theorem lineEnd_cons {t : Token} (ht : t.kind = .newline) (ts : List Token) :
    lineEnd (t :: ts) = .ok ts := by
  simp [lineEnd, ht]

theorem skipNewlines_spec (ts : List Token) :
    ∃ ns, Newlines ns ∧ ts = ns ++ skipNewlines ts := by
  refine ⟨ts.takeWhile fun t => t.kind = .newline, ?_, ?_⟩
  · intro t ht
    simpa using List.all_eq_true.1 List.all_takeWhile t ht
  · exact List.takeWhile_append_dropWhile.symm

theorem skipNewlines_append {ns : List Token} (h : Newlines ns) (ts : List Token) :
    skipNewlines (ns ++ ts) = skipNewlines ts := by
  induction ns with
  | nil => rfl
  | cons t ns ih =>
      have ht : t.kind = .newline := h t (by simp)
      rw [List.cons_append, skipNewlines, List.dropWhile_cons_of_pos (by simp [ht])]
      exact ih fun u hu => h u (by simp [hu])

theorem skipNewlines_cons {t : Token} (ht : t.kind ≠ .newline) (ts : List Token) :
    skipNewlines (t :: ts) = t :: ts := by
  rw [skipNewlines, List.dropWhile_cons_of_neg (by simp [ht])]

theorem skipNewlines_newline {t : Token} (ht : t.kind = .newline) (ts : List Token) :
    skipNewlines (t :: ts) = skipNewlines ts := by
  rw [skipNewlines, List.dropWhile_cons_of_pos (by simp [ht]), ← skipNewlines]

theorem length_skipNewlines_le (ts : List Token) : (skipNewlines ts).length ≤ ts.length :=
  (List.dropWhile_suffix _).length_le

theorem skipNewlines_atEnd {ts : List Token} (h : AtEnd ts) : AtEnd (skipNewlines ts) := by
  cases ts with
  | nil => exact h
  | cons t us =>
      have ht : t.kind = .endOfInput := h
      rw [skipNewlines_cons (by rw [ht]; decide)]
      exact h

/-! ### Repetition -/

theorem many_stop {α : Type} {more : List Token → Bool} {ts : List Token}
    (h : more ts = false) (phrase : Phrase α) (fuel : Nat) : many more phrase fuel ts = .ok ([], ts) := by
  cases fuel with
  | zero => rfl
  | succ fuel => rw [many, if_neg (by simp [h])]

section Separated

variable {α : Type} {sign : Sign} {phrase : Phrase α} {rule : List Token → α → Prop}

/-- The rounds behind a first phrase, joined to it. -/
theorem many_separated (hphrase : Reads phrase rule) :
    ∀ (fuel : Nat) (ts rest : List Token) (others : List α),
      many (fun ts => (peek ts).kind = .sign sign) (fun ts => phrase ts.tail) fuel ts
        = .ok (others, rest) →
      ∀ us a, rule us a → ∃ vs, ts = vs ++ rest ∧ Separated sign rule (us ++ vs) (a :: others) := by
  intro fuel
  induction fuel with
  | zero =>
      intro ts rest others h us a ha
      simp only [many, Except.ok.injEq, Prod.mk.injEq] at h
      obtain ⟨rfl, rfl⟩ := h
      exact ⟨[], rfl, by simpa using Separated.one ha⟩
  | succ fuel ih =>
      intro ts rest others h us a ha
      rw [many] at h
      split at h
      · rename_i hmore
        obtain ⟨⟨b, ts₁⟩, hb, h⟩ := bind_eq_ok.1 h
        obtain ⟨⟨bs, ts₂⟩, hbs, h⟩ := bind_eq_ok.1 h
        simp only [pure_eq_ok, Prod.mk.injEq] at h
        obtain ⟨rfl, rfl⟩ := h
        cases ts with
        | nil => simp at hmore
        | cons c ts =>
            obtain ⟨ws, hws, hrule⟩ := hphrase _ _ _ hb
            obtain ⟨vs, hvs, hsep⟩ := ih _ _ _ hbs ws b hrule
            refine ⟨c :: (ws ++ vs), ?_, Separated.cons ha (by simpa using hmore) hsep⟩
            rw [List.tail_cons] at hws
            rw [hws, hvs]
            simp
      · simp only [Except.ok.injEq, Prod.mk.injEq] at h
        obtain ⟨rfl, rfl⟩ := h
        exact ⟨[], rfl, by simpa using Separated.one ha⟩

theorem separated_reads (hphrase : Reads phrase rule) :
    Reads (separated sign phrase) (Separated sign rule) := by
  intro ts as rest h
  obtain ⟨⟨first, ts₁⟩, hfirst, h⟩ := bind_eq_ok.1 h
  obtain ⟨⟨others, ts₂⟩, hothers, h⟩ := bind_eq_ok.1 h
  simp only [pure_eq_ok, Prod.mk.injEq] at h
  obtain ⟨rfl, rfl⟩ := h
  obtain ⟨us, rfl, hrule⟩ := hphrase _ _ _ hfirst
  obtain ⟨vs, rfl, hsep⟩ := many_separated hphrase _ _ _ _ hothers us first hrule
  exact ⟨us ++ vs, by simp, hsep⟩

/-- The rounds that read what is derivable.  A round takes at least the sign, so as many
rounds as tokens are enough. -/
theorem many_complete (hpeek : ∀ {us a}, rule us a → ∀ rest, (peek rest).kind = .sign sign ∨
      (peek rest).kind = .newline → phrase (us ++ rest) = .ok (a, rest))
    {rest : List Token} (hrest : (peek rest).kind = .newline) :
    ∀ {us : List Token} {as : List α}, Separated sign rule us as →
      ∀ (c : Token), c.kind = .sign sign → ∀ fuel, us.length < fuel →
      many (fun ts => (peek ts).kind = .sign sign) (fun ts => phrase ts.tail) fuel
        (c :: us ++ rest) = .ok (as, rest) := by
  have hstop : ∀ fuel,
      many (fun ts => (peek ts).kind = .sign sign) (fun ts => phrase ts.tail) fuel rest
        = .ok ([], rest) := by
    intro fuel
    cases fuel with
    | zero => rfl
    | succ fuel => rw [many]; simp [hrest]
  intro us as h
  induction h with
  | @one ts a h =>
      intro c hc fuel hfuel
      obtain ⟨fuel, rfl⟩ : ∃ f, fuel = f + 1 := ⟨fuel - 1, by omega⟩
      rw [many, List.cons_append]
      simp only [peek, hc, decide_true, if_true, List.tail_cons]
      rw [hpeek h rest (Or.inr hrest), ok_bind]
      simp only [hstop, ok_bind]
      rfl
  | @cons ts vs d a as h hd hs ih =>
      intro c hc fuel hfuel
      obtain ⟨fuel, rfl⟩ : ∃ f, fuel = f + 1 := ⟨fuel - 1, by omega⟩
      rw [List.length_append, List.length_cons] at hfuel
      rw [many, List.cons_append]
      simp only [peek, hc, decide_true, if_true, List.tail_cons, List.append_assoc]
      rw [hpeek h (d :: vs ++ rest) (Or.inl hd), ok_bind]
      simp only [ih d hd fuel (by omega), ok_bind]
      rfl

theorem separated_complete (hpeek : ∀ {us a}, rule us a → ∀ rest, (peek rest).kind = .sign sign ∨
      (peek rest).kind = .newline → phrase (us ++ rest) = .ok (a, rest))
    {us rest : List Token} {as : List α} (h : Separated sign rule us as)
    (hrest : (peek rest).kind = .newline) :
    separated sign phrase (us ++ rest) = .ok (as, rest) := by
  cases h with
  | one h =>
      rw [separated, hpeek h rest (Or.inr hrest), ok_bind]
      have hlen : ∃ n, rest.length = n + 1 := by
        cases rest with
        | nil => simp at hrest
        | cons t ts => exact ⟨ts.length, rfl⟩
      obtain ⟨n, hn⟩ := hlen
      simp only [hn, many, hrest]
      rfl
  | @cons ts vs c a as h hc hs =>
      rw [separated, List.append_assoc, hpeek h (c :: vs ++ rest) (Or.inl hc), ok_bind]
      have hmany := many_complete hpeek hrest hs c hc (c :: vs ++ rest).length
        (by simp only [List.length_append, List.length_cons]; omega)
      simp only [hmany, ok_bind]
      rfl

end Separated

end Grammar

end Pseudocode

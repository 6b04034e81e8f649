/-
Patterns of whole texts.

A pattern is a sequence of parts, each of which is a class of characters and how many of them
may stand in a row.  A text fits if it can be cut into stretches, one for each part in turn.
A part is tried with as many characters as it can have first, and with fewer when the parts
behind it do not fit then.
-/

namespace Pseudocode.Text

/-- How many characters in a row a part of a pattern has. -/
inductive Repeat where
  | once
  | atMostOnce
  | any
  | atLeastOnce
  deriving DecidableEq, Repr

/-- Whether there may be `n` in a row. -/
def Repeat.allows : Repeat → Nat → Bool
  | .once, n => n = 1
  | .atMostOnce, n => n ≤ 1
  | .any, _ => true
  | .atLeastOnce, n => 1 ≤ n

/-- Characters of one class, in a row. -/
structure Part where
  accepts : Char → Bool
  times : Repeat

namespace Part

/-- One character of the part, and then what `behind` takes. -/
def one (accepts : Char → Bool) (behind : List Char → Bool) : List Char → Bool
  | [] => false
  | c :: cs => accepts c && behind cs

/-- Characters of the part, as many as possible, and then what `behind` takes. -/
def many (accepts : Char → Bool) (behind : List Char → Bool) : List Char → Bool
  | [] => behind []
  | c :: cs => accepts c && many accepts behind cs || behind (c :: cs)

/-- The part, and then what `behind` takes. -/
def taken (part : Part) (behind : List Char → Bool) (cs : List Char) : Bool :=
  match part.times with
  | .once => one part.accepts behind cs
  | .atMostOnce => one part.accepts behind cs || behind cs
  | .any => many part.accepts behind cs
  | .atLeastOnce => one part.accepts (many part.accepts behind) cs

end Part

/-- Whether a whole text fits the parts of a pattern in turn. -/
def fits (parts : List Part) : List Char → Bool :=
  parts.foldr Part.taken List.isEmpty

/-! ### The language of a pattern -/

namespace Part

/-- A stretch of text that makes up the part. -/
def Spans (part : Part) (stretch : List Char) : Prop :=
  (∀ c ∈ stretch, part.accepts c = true) ∧ part.times.allows stretch.length = true

variable {accepts : Char → Bool} {behind : List Char → Bool}

theorem one_iff {cs : List Char} :
    one accepts behind cs = true ↔
      ∃ c rest, cs = c :: rest ∧ accepts c = true ∧ behind rest = true := by
  cases cs with
  | nil => simp [one]
  | cons c cs =>
      rw [one, Bool.and_eq_true]
      constructor
      · exact fun h => ⟨c, cs, rfl, h⟩
      · rintro ⟨c, cs, ⟨⟩, h⟩
        exact h

theorem many_iff {cs : List Char} :
    many accepts behind cs = true ↔
      ∃ stretch rest, cs = stretch ++ rest ∧ (∀ c ∈ stretch, accepts c = true) ∧
        behind rest = true := by
  induction cs with
  | nil =>
      constructor
      · exact fun h => ⟨[], [], rfl, nofun, h⟩
      · rintro ⟨stretch, rest, hsplit, -, hrest⟩
        rwa [(List.append_eq_nil_iff.1 hsplit.symm).2] at hrest
  | cons c cs ih =>
      rw [many, Bool.or_eq_true, Bool.and_eq_true, ih]
      constructor
      · rintro (⟨hc, stretch, rest, rfl, hstretch, hrest⟩ | hrest)
        · exact ⟨c :: stretch, rest, rfl, List.forall_mem_cons.2 ⟨hc, hstretch⟩, hrest⟩
        · exact ⟨[], c :: cs, rfl, nofun, hrest⟩
      · rintro ⟨stretch, rest, hsplit, hstretch, hrest⟩
        cases stretch with
        | nil =>
            rw [List.nil_append] at hsplit
            exact Or.inr (hsplit ▸ hrest)
        | cons d stretch =>
            obtain ⟨rfl, rfl⟩ := List.cons.inj hsplit
            obtain ⟨hc, hstretch⟩ := List.forall_mem_cons.1 hstretch
            exact Or.inl ⟨hc, stretch, rest, rfl, hstretch, hrest⟩

/-- A part takes some stretch that makes it up, whichever one lets the rest fit. -/
theorem taken_iff (part : Part) {cs : List Char} :
    part.taken behind cs = true ↔
      ∃ stretch rest, cs = stretch ++ rest ∧ part.Spans stretch ∧ behind rest = true := by
  obtain ⟨accepts, times⟩ := part
  cases times with
  | once =>
      simp only [taken, one_iff, Spans, Repeat.allows]
      constructor
      · rintro ⟨c, rest, rfl, hc, hrest⟩
        exact ⟨[c], rest, rfl, by simp [hc], hrest⟩
      · rintro ⟨stretch, rest, rfl, ⟨hall, hlength⟩, hrest⟩
        obtain ⟨c, rfl⟩ := List.length_eq_one_iff.1 (of_decide_eq_true hlength)
        exact ⟨c, rest, rfl, hall c List.mem_cons_self, hrest⟩
  | atMostOnce =>
      simp only [taken, Bool.or_eq_true, one_iff, Spans, Repeat.allows]
      constructor
      · rintro (⟨c, rest, rfl, hc, hrest⟩ | hrest)
        · exact ⟨[c], rest, rfl, by simp [hc], hrest⟩
        · exact ⟨[], cs, rfl, by simp, hrest⟩
      · rintro ⟨stretch, rest, rfl, ⟨hall, hlength⟩, hrest⟩
        cases stretch with
        | nil => exact Or.inr hrest
        | cons c stretch =>
            obtain rfl : stretch = [] := by simpa using hlength
            exact Or.inl ⟨c, rest, rfl, hall c List.mem_cons_self, hrest⟩
  | any => simp only [taken, many_iff, Spans, Repeat.allows, and_true]
  | atLeastOnce =>
      simp only [taken, one_iff, many_iff, Spans, Repeat.allows]
      constructor
      · rintro ⟨c, cs, rfl, hc, stretch, rest, rfl, hall, hrest⟩
        exact ⟨c :: stretch, rest, rfl, ⟨List.forall_mem_cons.2 ⟨hc, hall⟩, by simp⟩, hrest⟩
      · rintro ⟨stretch, rest, rfl, ⟨hall, hlength⟩, hrest⟩
        cases stretch with
        | nil => simp at hlength
        | cons c stretch =>
            obtain ⟨hc, hall⟩ := List.forall_mem_cons.1 hall
            exact ⟨c, stretch ++ rest, rfl, hc, stretch, rest, rfl, hall, hrest⟩

end Part

@[simp] theorem fits_nil {cs : List Char} : fits [] cs = true ↔ cs = [] :=
  List.isEmpty_iff

/-- **What fits a pattern** is a stretch for its first part in front of what fits the others. -/
theorem fits_cons {part : Part} {parts : List Part} {cs : List Char} :
    fits (part :: parts) cs = true ↔
      ∃ stretch rest, cs = stretch ++ rest ∧ part.Spans stretch ∧ fits parts rest = true :=
  part.taken_iff

/-- Every character of a text that fits is accepted by some part. -/
theorem accepts_of_fits {parts : List Part} {cs : List Char} (h : fits parts cs = true) {c : Char}
    (hc : c ∈ cs) : ∃ part ∈ parts, part.accepts c = true := by
  induction parts generalizing cs with
  | nil =>
      rw [fits_nil.1 h] at hc
      cases hc
  | cons part parts ih =>
      obtain ⟨stretch, rest, rfl, hspans, hrest⟩ := fits_cons.1 h
      rcases List.mem_append.1 hc with hc | hc
      · exact ⟨part, List.mem_cons_self, hspans.1 c hc⟩
      · obtain ⟨part', hpart, haccepts⟩ := ih hrest hc
        exact ⟨part', List.mem_cons_of_mem _ hpart, haccepts⟩

end Pseudocode.Text

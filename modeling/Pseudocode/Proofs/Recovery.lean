/-
Which faults of a text are no errors.

A fault is recovered when reading takes it after all: a reserved word in the wrong case as
a name, or the digits of the smallest INT behind the minus sign before them.  This module
says of the tokens as they are written which ones those are, without the pass that settles
names.  A word is a name behind the type of a declaration or a comma on its line; and it is
one where such a name was introduced before, except right behind it.

Then reading drops no fault silently: in a text that is read every fault is recovered, and
if reading stops at a token, every fault in front of it is, and the error is a lexical one
exactly when the token is a fault that is not.
-/
import Pseudocode.Proofs.Stopping

namespace Pseudocode

namespace Token

/-! ### Names by what stands to the left -/

/-- A declaration has started: there is a type to the left, and no line end behind it. -/
def Declaring (before : List Token) : Prop :=
  ∃ front t back, before = front ++ t :: back ∧ (∃ ty, t.kind = .typeName ty) ∧
    ∀ u ∈ back, u.kind ≠ .newline

/-- A declaration introduces a name here: behind its type, or behind a comma. -/
def NameSlot (before : List Token) : Prop :=
  ∃ front t, before = front ++ [t] ∧
    ((∃ ty, t.kind = .typeName ty) ∨ t.kind = .sign .comma ∧ Declaring front)

/-- A declaration to the left introduces the name `x`. -/
def Introduces (before : List Token) (x : String) : Prop :=
  ∃ front t back, before = front ++ t :: back ∧ NameSlot front ∧ Naming.written.isNew t ∧
    t.lexeme = x

/-- A fault that reading takes after all.  A name right to the left is not declared yet. -/
def Recovered (before : List Token) (t : Token) : Prop :=
  (∃ r, t.kind = .fault (.wrongCase r)) ∧
      (NameSlot before ∨ Introduces before.dropLast t.lexeme) ∨
    t.kind = .fault .intOutOfRange ∧ Numeral.read t.lexeme.toList = .whole (2 ^ 31) ∧
      PrefixMinus before

theorem exists_split_concat {P : List Token → Token → List Token → Prop} {before : List Token}
    {t : Token} :
    (∃ front u back, before ++ [t] = front ++ u :: back ∧ P front u back) ↔
      (∃ front u back, before = front ++ u :: back ∧ P front u (back ++ [t])) ∨
        P before t [] := by
  constructor
  · rintro ⟨front, u, back, h, hP⟩
    rcases concat_eq_append_cons h with ⟨rfl, rfl, rfl⟩ | ⟨back', rfl, rfl⟩
    · exact Or.inr hP
    · exact Or.inl ⟨front, u, back', rfl, hP⟩
  · rintro (⟨front, u, back, rfl, hP⟩ | hP)
    · exact ⟨front, u, back ++ [t], by simp, hP⟩
    · exact ⟨before, t, [], rfl, hP⟩

theorem declaring_concat {before : List Token} {t : Token} :
    Declaring (before ++ [t]) ↔
      (∃ ty, t.kind = .typeName ty) ∨ t.kind ≠ .newline ∧ Declaring before := by
  rw [Declaring, exists_split_concat, or_comm]
  refine or_congr (by simp) ?_
  constructor
  · rintro ⟨front, u, back, rfl, hu, hback⟩
    simp only [List.forall_mem_append, List.forall_mem_singleton] at hback
    exact ⟨hback.2, front, u, back, rfl, hu, hback.1⟩
  · rintro ⟨ht, front, u, back, rfl, hu, hback⟩
    refine ⟨front, u, back, rfl, hu, ?_⟩
    simp only [List.forall_mem_append, List.forall_mem_singleton]
    exact ⟨hback, ht⟩

theorem nameSlot_concat {before : List Token} {t : Token} :
    NameSlot (before ++ [t]) ↔
      (∃ ty, t.kind = .typeName ty) ∨ t.kind = .sign .comma ∧ Declaring before := by
  constructor
  · rintro ⟨front, u, h, hu⟩
    obtain ⟨rfl, rfl⟩ : before = front ∧ t = u := by simpa using h
    exact hu
  · exact fun h => ⟨before, t, rfl, h⟩

theorem introduces_concat {before : List Token} {t : Token} {x : String} :
    Introduces (before ++ [t]) x ↔
      Introduces before x ∨ NameSlot before ∧ Naming.written.isNew t ∧ t.lexeme = x := by
  rw [Introduces, exists_split_concat]
  rfl

/-! ### The pass that settles names -/

/-- What the pass knows is what stands to the left. -/
structure Context.Reflects (ctx : Context) (before : List Token) : Prop where
  declaring : ctx.declaring = true ↔ Declaring before
  slot : ctx.slot = true ↔ NameSlot before
  declared : ∀ x, x ∈ ctx.declared ↔ Introduces before.dropLast x
  known : ∀ x, ctx.fresh = some x ∨ x ∈ ctx.declared ↔ Introduces before x

/-- Settling makes names only, and only of words in the wrong case. -/
theorem Context.resolve_eq_iff {ctx : Context} {t : Token} {k : Kind} (hname : k ≠ .name)
    (hfault : ∀ f, k ≠ .fault f) : ctx.resolve t = k ↔ t.kind = k := by
  unfold Context.resolve
  split
  · rename_i r hr
    rw [hr]
    have hk := hfault (.wrongCase r)
    split
    · exact ⟨fun h => absurd h.symm hname, fun h => absurd h.symm hk⟩
    · exact Iff.rfl
  · exact Iff.rfl

/-- A token that is settled as a fault is that fault. -/
theorem Context.kind_of_resolve_eq_fault {ctx : Context} {t : Token} {f : Fault}
    (h : ctx.resolve t = .fault f) : t.kind = .fault f := by
  unfold Context.resolve at h
  split at h
  · rename_i r hr
    split at h
    · cases h
    · rw [hr, h]
  · exact h

theorem Context.resolve_eq_name_of_slot {ctx : Context} {t : Token} (h : ctx.slot = true) :
    ctx.resolve t = .name ↔ Naming.written.isNew t := by
  unfold Context.resolve
  simp only [Naming.written, IsName]
  split
  · rename_i r hr
    simp [Context.takesAsName, h, hr]
  · rename_i hwrong
    refine ⟨Or.inl, fun h => h.resolve_right ?_⟩
    rintro ⟨r, hr⟩
    exact hwrong r hr

theorem Context.reflects_nil : Context.Reflects {} [] where
  declaring := by simp [Declaring]
  slot := by simp [NameSlot]
  declared := by simp [Introduces]
  known := by simp [Introduces]

namespace Context

variable {ctx : Context} {t : Token}

theorem after_declaring : (ctx.after t).declaring = true ↔
    (∃ ty, t.kind = .typeName ty) ∨ t.kind ≠ .newline ∧ ctx.declaring = true := by
  unfold after
  dsimp only
  split <;> simp_all

theorem after_slot : (ctx.after t).slot = true ↔
    (∃ ty, t.kind = .typeName ty) ∨ t.kind = .sign .comma ∧ ctx.declaring = true := by
  unfold after
  dsimp only
  split <;> simp_all

theorem after_fresh {x : String} :
    (ctx.after t).fresh = some x ↔ ctx.slot = true ∧ t.kind = .name ∧ t.lexeme = x := by
  simp [after, and_assoc]

theorem after_declared {x : String} :
    x ∈ (ctx.after t).declared ↔ ctx.fresh = some x ∨ x ∈ ctx.declared := by
  simp [after]

/-- What the pass does at a token is what the token changes. -/
theorem Reflects.after {before : List Token} (h : ctx.Reflects before) (t : Token) :
    (ctx.after { t with kind := ctx.resolve t }).Reflects (before ++ [t]) where
  declaring := by
    rw [after_declaring, declaring_concat, h.declaring]
    simp only [resolve_eq_iff, ne_eq, reduceCtorEq, not_false_eq_true, implies_true]
  slot := by
    rw [after_slot, nameSlot_concat, h.declaring]
    simp only [resolve_eq_iff, ne_eq, reduceCtorEq, not_false_eq_true, implies_true]
  declared x := by rw [after_declared, List.dropLast_concat, h.known]
  known x := by
    rw [after_fresh, after_declared, introduces_concat, ← h.known, ← h.slot, or_comm]
    refine or_congr Iff.rfl (and_congr_right fun hslot => ?_)
    rw [resolve_eq_name_of_slot hslot]

theorem reflects_through (before : List Token) :
    (({} : Context).through before).Reflects before := by
  induction before using List.reverseRecOn with
  | nil => exact reflects_nil
  | append_singleton before t ih =>
      rw [through_append]
      exact ih.after t

end Context

/-- A word in the wrong case stays a fault unless it is recovered. -/
theorem resolve_wrongCase {before : List Token} {t : Token} {r : Reserved}
    (ht : t.kind = .fault (.wrongCase r)) :
    (∃ f, (({} : Context).through before).resolve t = .fault f) ↔ ¬ Recovered before t := by
  have hreflects := Context.reflects_through before
  have htakes : (({} : Context).through before).takesAsName t.lexeme = true ↔
      NameSlot before ∨ Introduces before.dropLast t.lexeme := by
    rw [Context.takesAsName, Bool.or_eq_true, List.contains_iff_mem, hreflects.slot,
      hreflects.declared]
  simp only [Recovered, ht, Context.resolve, ← htakes]
  split <;> simp_all

/-- Settling changes no token between an operand's end and something else. -/
theorem endsOperand_resolve (ctx : Context) (t : Token) :
    (ctx.resolve t).endsOperand = t.kind.endsOperand := by
  unfold Context.resolve
  split
  · rename_i r hr
    rw [hr]
    split <;> rfl
  · rfl

theorem resolveNames_concat (ctx : Context) (before : List Token) (t : Token) :
    resolveNames ctx (before ++ [t]) =
      resolveNames ctx before ++ [{ t with kind := (ctx.through before).resolve t }] := by
  rw [resolveNames_append]
  rfl

theorem closing_resolveNames {ctx : Context} {before : List Token} :
    Closing (resolveNames ctx before) ↔ Closing before := by
  rcases List.eq_nil_or_concat before with rfl | ⟨front, t, rfl⟩
  · exact Iff.rfl
  · rw [List.concat_eq_append, resolveNames_concat]
    simp [endsOperand_resolve]

theorem prefixMinus_resolveNames {ctx : Context} {before : List Token} :
    PrefixMinus (resolveNames ctx before) ↔ PrefixMinus before := by
  rcases List.eq_nil_or_concat before with rfl | ⟨front, t, rfl⟩
  · exact Iff.rfl
  · rw [List.concat_eq_append, resolveNames_concat, prefixMinus_concat, prefixMinus_concat,
      Context.resolve_eq_iff (by simp) (by simp)]
    exact and_congr_right fun _ => not_congr closing_resolveNames

end Token

open Token Grammar

/-- The faults that reading does not take are those that are not recovered. -/
theorem resolve_fault_iff (before : List Token) (t : Token) :
    ((∃ f, (({} : Context).through before).resolve t = .fault f) ∧
        ¬ Excused (resolveNames {} before)
          { t with kind := (({} : Context).through before).resolve t }) ↔
      (∃ f, t.kind = .fault f) ∧ ¬ Recovered before t := by
  by_cases hwrong : ∃ r, t.kind = .fault (.wrongCase r)
  · obtain ⟨r, hr⟩ := hwrong
    rw [resolve_wrongCase hr]
    have hnot : ¬ Excused (resolveNames {} before)
        { t with kind := (({} : Context).through before).resolve t } := by
      rintro ⟨hsmallest, -⟩
      simp only [Expr.isSmallestMagnitude, Context.resolve, hr] at hsmallest
      split at hsmallest <;> simp at hsmallest
    exact ⟨fun h => ⟨⟨_, hr⟩, h.1⟩, fun h => ⟨h.2, hnot⟩⟩
  · -- Every other token keeps its kind.
    have hkind : (({} : Context).through before).resolve t = t.kind := by
      unfold Context.resolve
      split
      · rename_i r hr
        exact absurd ⟨r, hr⟩ hwrong
      · rfl
    rw [hkind, Excused, prefixMinus_resolveNames]
    refine and_congr_right fun _ => not_congr ?_
    simp [Recovered, hwrong, Expr.isSmallestMagnitude, and_assoc]

theorem faults_recovered {ts : List Token} (h : Faults Excused (resolveNames {} ts)) :
    Faults Recovered ts := by
  rintro front t back rfl f hf
  by_contra hnot
  obtain ⟨⟨g, hg⟩, hexcused⟩ := (resolve_fault_iff front t).2 ⟨⟨f, hf⟩, hnot⟩
  rw [resolveNames_append] at h
  exact hexcused (h _ _ _ rfl g hg)

theorem reject_span (t : Token) (fault : GrammarFault) : (reject t fault).span = t.span := by
  unfold reject
  split <;> rfl

/-- The error at a token that does not fit is a lexical one exactly when the token is a
fault, and then it says which. -/
theorem reject_cause (t : Token) (fault : GrammarFault) :
    (∃ f, t.kind = .fault f ∧ (reject t fault).cause = .lexical f t.lexeme) ∨
      (∀ f, t.kind ≠ .fault f) ∧ (reject t fault).cause = .grammar fault := by
  unfold reject
  split
  · rename_i f hf
    exact Or.inl ⟨f, hf, rfl⟩
  · rename_i hf
    exact Or.inr ⟨hf, rfl⟩

/-- The error `e` is the right one at the token `t` behind `before`: no fault was dropped
before, and a fault is reported as what it is, unless it is recovered. -/
structure StopsAt (before : List Token) (t : Token) (e : Error) : Prop where
  recovered : Faults Recovered before
  lexical : e.cause.stage = .lexical ↔ (∃ f, t.kind = .fault f) ∧ ¬ Recovered before t
  message : ∀ f, t.kind = .fault f → e.cause.stage = .lexical →
    e.cause.message = f.message t.lexeme
  grammar : e.cause.stage ≠ .lexical → e.cause.stage = .grammar

theorem stopsAt_of_stopped {ts : List Token} {e : Error}
    (h : Stopped (resolveNames {} ts) e) :
    ∃ before t after, ts = before ++ t :: after ∧ e.span = t.span ∧ StopsAt before t e := by
  obtain ⟨before', u, rest, fault, hsplit, htaken, hexcused, rfl⟩ := h
  obtain ⟨before, ts', rfl, rfl, hrest⟩ := resolveNames_eq_append hsplit
  obtain ⟨t, after, rfl, rfl, -⟩ := resolveNames_eq_cons hrest
  refine ⟨before, t, after, rfl, reject_span _ _, ?_⟩
  have hiff := resolve_fault_iff before t
  have htaken' := faults_recovered htaken
  rcases reject_cause { t with kind := (({} : Context).through before).resolve t } fault with
    ⟨f, hf, hcause⟩ | ⟨hf, hcause⟩
  · refine ⟨htaken', ?_, fun g hg _ => ?_, fun hstage => ?_⟩
    · rw [hcause, ← hiff]
      exact iff_of_true rfl ⟨⟨f, hf⟩, hexcused⟩
    · obtain rfl : g = f := by
        have := hg.symm.trans (Context.kind_of_resolve_eq_fault hf)
        simpa using this
      rw [hcause]
      rfl
    · exact absurd (by rw [hcause]; rfl) hstage
  · refine ⟨htaken', ?_, fun g _ hstage => ?_, fun _ => by rw [hcause]; rfl⟩
    · rw [hcause, ← hiff]
      exact iff_of_false (by simp [Cause.stage]) fun ⟨⟨f, hf'⟩, _⟩ => hf f hf'
    · rw [hcause] at hstage
      cases hstage

/-- No two tokens of a text carry the same place. -/
theorem split_unique_of_span {ts : List Token}
    (hts : ts.Pairwise fun t u => t.span ≠ u.span) {before before' after after' : List Token}
    {t t' : Token} (h : ts = before ++ t :: after) (h' : ts = before' ++ t' :: after')
    (hspan : t.span = t'.span) : before = before' ∧ t = t' := by
  induction before generalizing ts before' with
  | nil =>
      subst h
      cases before' with
      | nil => exact ⟨rfl, by simpa using (List.cons.inj h').1⟩
      | cons u before' =>
          obtain ⟨rfl, rfl⟩ := List.cons.inj h'
          exact absurd hspan ((List.pairwise_cons.1 hts).1 t' (by simp))
  | cons u before ih =>
      subst h
      cases before' with
      | nil =>
          obtain ⟨rfl, rfl⟩ := List.cons.inj h'
          exact absurd hspan.symm ((List.pairwise_cons.1 hts).1 t (by simp))
      | cons v before' =>
          obtain ⟨rfl, htail⟩ := List.cons.inj h'
          obtain ⟨rfl, rfl⟩ := ih (List.pairwise_cons.1 hts).2 rfl htail
          exact ⟨rfl, rfl⟩

theorem pairwise_span_ne (source : String) :
    (Token.ofSource source).Pairwise fun t u => t.span ≠ u.span := by
  refine (Scanner.laid_ofSource source).pairwise.imp fun h heq => ?_
  rw [heq] at h
  omega

namespace Program

theorem parse_outcome (source : String) :
    Outcome (resolveNames {} (Token.ofSource source))
      (fun _ => Faults Excused (resolveNames {} (Token.ofSource source))) (parse source) :=
  ofTokens_outcome (Terminated.resolveNames (Scanner.cut_ofSource source).terminated)

/-- An error of reading is the one at a token where reading stops. -/
theorem parse_eq_error {source : String} {e : Error} (h : parse source = .error e) :
    ∃ before t after, Token.ofSource source = before ++ t :: after ∧ e.span = t.span ∧
      StopsAt before t e := by
  have houtcome := parse_outcome source
  rw [h] at houtcome
  exact stopsAt_of_stopped houtcome

/-- **No fault is dropped silently.**  In a text that is read every fault is recovered.  An
error of reading stands at a token of the text; every fault in front of that token is
recovered, and the error is a lexical one, with the wording of the fault, exactly when the
token is a fault that is not recovered, and an error of the grammar otherwise. -/
theorem parse_drops_no_fault (source : String) :
    (∀ p, parse source = .ok p → Faults Recovered (Token.ofSource source)) ∧
      ∀ e, parse source = .error e →
        (∃ t ∈ Token.ofSource source, e.span = t.span) ∧
          ∀ before t after, Token.ofSource source = before ++ t :: after → e.span = t.span →
            StopsAt before t e := by
  refine ⟨fun p hp => ?_, fun e he => ?_⟩
  · have houtcome := parse_outcome source
    rw [hp] at houtcome
    exact faults_recovered houtcome
  · obtain ⟨before, t, after, hsplit, hspan, hstops⟩ := parse_eq_error he
    refine ⟨⟨t, by simp [hsplit], hspan⟩, fun before' t' after' hsplit' hspan' => ?_⟩
    obtain ⟨rfl, rfl⟩ := split_unique_of_span (pairwise_span_ne source) hsplit hsplit'
      (hspan.symm.trans hspan')
    exact hstops

/-- A result that is an error whatever is done with a success. -/
theorem eq_error_of_bind {ε α : Type} {x : Except ε α} {e : ε}
    (h : (x >>= fun _ => (pure () : Except ε Unit)) = .error e) : x = .error e := by
  cases x with
  | ok a => cases h
  | error e' => simpa [bind, Except.bind] using h

/-- Two words in the wrong case and the digits of the smallest INT are recovered; where a
minus sign stands between two operands, the digits are not. -/
def digitsText : String :=
  "BEGIN CODE\nINT if, x = -2147483648\nx = if - 2147483648\nEND CODE"

theorem parse_drops_no_fault_digitsText :
    ∃ before t after e, Token.ofSource digitsText = before ++ t :: after ∧
      parse digitsText = .error e ∧ e.span = t.span ∧ e.cause.stage = .lexical ∧
      StopsAt before t e := by
  have hparse : parse digitsText = .error ⟨.lexical .intOutOfRange "2147483648", ⟨3, 10, 10⟩⟩ :=
    eq_error_of_bind (by decide +kernel)
  have hsplit : Token.ofSource digitsText = (Token.ofSource digitsText).take 15 ++
      ⟨.fault .intOutOfRange, "2147483648", ⟨3, 10, 10⟩⟩ ::
        (Token.ofSource digitsText).drop 16 := by decide +kernel
  exact ⟨_, _, _, _, hsplit, hparse, rfl, rfl,
    ((parse_drops_no_fault digitsText).2 _ hparse).2 _ _ _ hsplit rfl⟩

/-- The name of a declaration, and once more right behind it. -/
def doubledText : String :=
  "BEGIN CODE\nINT if if\nEND CODE"

/-- Right behind the name that a declaration introduces, the same word is still an error. -/
theorem parse_rejects_word_behind_its_declaration :
    ∃ before t after e, Token.ofSource doubledText = before ++ t :: after ∧
      (∃ r, t.kind = .fault (.wrongCase r)) ∧ Introduces before t.lexeme ∧
      parse doubledText = .error e ∧ e.span = t.span ∧ e.cause.stage = .lexical := by
  have hparse : parse doubledText =
      .error ⟨.lexical (.wrongCase (.keyword .IF)) "if", ⟨2, 8, 2⟩⟩ :=
    eq_error_of_bind (by decide +kernel)
  have hsplit : Token.ofSource doubledText =
      ((Token.ofSource doubledText).take 3 ++ [⟨.typeName .int, "INT", ⟨2, 1, 3⟩⟩] ++
          [⟨.fault (.wrongCase (.keyword .IF)), "if", ⟨2, 5, 2⟩⟩]) ++
        ⟨.fault (.wrongCase (.keyword .IF)), "if", ⟨2, 8, 2⟩⟩ ::
          (Token.ofSource doubledText).drop 6 := by decide +kernel
  refine ⟨_, _, _, _, hsplit, ⟨_, rfl⟩, ?_, hparse, rfl, rfl⟩
  rw [introduces_concat, nameSlot_concat]
  exact Or.inr ⟨Or.inl ⟨_, rfl⟩, Or.inr ⟨_, rfl⟩, rfl⟩

end Program

end Pseudocode

/-
Which texts are programs.

A text is read in three steps: it is cut into tokens, the reserved words in the wrong case
that are names are settled as names, and the grammar is applied.  What comes out is the
grammar on the tokens as they were cut: a text is read as the program `p` exactly when the
rules for written names derive `p` from its tokens.  So reading refuses no derivable text
and accepts no other one.

The last token of a text is the end of input and no other token is, which is what keeps
the reading from stopping early.
-/
import Pseudocode.Proofs.Naming
import Pseudocode.Proofs.ParseComplete
import Pseudocode.Proofs.ParseSound
import Pseudocode.Proofs.Scanning

namespace Pseudocode

open Derivation Token

/-- Settling names neither makes nor removes an end of input. -/
theorem resolve_eq_endOfInput_iff {ctx : Context} {t : Token} :
    ctx.resolve t = .endOfInput ↔ t.kind = .endOfInput := by
  unfold Context.resolve
  split
  · rename_i r hr
    rw [hr]
    split <;> simp
  · exact Iff.rfl

theorem Terminated.resolveNames {ctx : Context} {ts : List Token} (h : Terminated ts) :
    Terminated (Token.resolveNames ctx ts) := by
  obtain ⟨init, eof, rfl, heof, hinit⟩ := h
  rw [resolveNames_append]
  refine ⟨_, _, rfl, resolve_eq_endOfInput_iff.2 heof, ?_⟩
  clear heof
  induction init generalizing ctx with
  | nil => simp [Token.resolveNames]
  | cons t init ih =>
      obtain ⟨ht, hinit⟩ := List.forall_mem_cons.1 hinit
      rw [Token.resolveNames]
      exact List.forall_mem_cons.2 ⟨fun hk => ht (resolve_eq_endOfInput_iff.1 hk), ih hinit⟩

namespace Program

/-- **A text is read as a program exactly when its tokens derive that program.** -/
theorem parse_eq_ok_iff {source : String} {p : Program} :
    parse source = .ok p ↔ Whole .written (Token.ofSource source) p := by
  have hend : Terminated (Token.resolveNames {} (Token.ofSource source)) :=
    Terminated.resolveNames (Scanner.cut_ofSource source).terminated
  rw [← whole_resolveNames]
  exact ⟨ofTokens_sound hend, ofTokens_complete⟩

/-- **Reading accepts exactly the language of the grammar.** -/
theorem parse_succeeds_iff_derivable (source : String) :
    (∃ p, parse source = .ok p) ↔ ∃ p, Whole .written (Token.ofSource source) p := by
  constructor
  · rintro ⟨p, hp⟩
    exact ⟨p, parse_eq_ok_iff.1 hp⟩
  · rintro ⟨p, hp⟩
    exact ⟨p, parse_eq_ok_iff.2 hp⟩

end Program

end Pseudocode

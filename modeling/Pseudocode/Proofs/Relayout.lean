/-
Writing a text with another layout.

`Relaid ts cs` says that the characters `cs` are the lexemes of the tokens `ts` in order, each
with blanks behind it, where line ends may be repeated, and a comment may stand where a line
or the text ends.  Such a text says the same as the one that the tokens came from: the two are
read as the same program, or both are refused in the same words.

A blank behind a token must not change what the token is.  It does not if the scanner takes
the same characters in front of it as it took in front of what stood there before, which
holds of all tokens but two: a malformed CHAR and a STRING that is not closed go on up to
something that the other layout may have moved.
-/
import Pseudocode.Proofs.Positions
import Pseudocode.Proofs.Resemblance
import Pseudocode.Proofs.Spelling

namespace Pseudocode

open Grammar Derivation Text

namespace Token

/-! ### Other layouts -/

/-- One or more line ends, with blanks and comments in front of each. -/
inductive LineEnds : List Char → Prop
  | last {gap : List Char} (hgap : Gap gap ['\n']) : LineEnds (gap ++ ['\n'])
  | more {gap cs : List Char} (hgap : Gap gap ['\n']) (h : LineEnds cs) :
      LineEnds (gap ++ '\n' :: cs)

/-- The characters are the lexemes of the tokens, laid out in some way: blanks behind every
token, and any number of line ends where there are some. -/
inductive Relaid : List Token → List Char → Prop
  | stop {t : Token} {gap : List Char} (hk : t.kind = .endOfInput) (hgap : Gap gap []) :
      Relaid [t] gap
  | token {t : Token} {ts : List Token} {blanks cs : List Char} (hline : t.kind ≠ .newline)
      (hend : t.kind ≠ .endOfInput) (hblanks : Blanks blanks) (hne : blanks ≠ [])
      (h : Relaid ts cs) : Relaid (t :: ts) (t.lexeme.toList ++ (blanks ++ cs))
  | lines {ns ts : List Token} {ends blanks cs : List Char} (hns : Newlines ns) (hne : ns ≠ [])
      (hends : LineEnds ends) (hblanks : Blanks blanks) (h : Relaid ts cs) :
      Relaid (ns ++ ts) (ends ++ (blanks ++ cs))

/-- Line ends and the end of input have one lexeme each. -/
def Regular (t : Token) : Prop :=
  (t.kind = .newline → t.lexeme = "\n") ∧ (t.kind = .endOfInput → t.lexeme = "")

end Token

namespace Scanner

open Token

theorem Laid.regular {front rest : List Char} {ts : List Token} (h : Laid front rest ts) :
    ∀ t ∈ ts, t.Regular := by
  induction h with
  | @stop front gap t hgap hk hx hs =>
      simp only [List.mem_singleton, forall_eq]
      exact ⟨fun hline => by simp [hk] at hline, fun _ => String.toList_inj.1 hx⟩
  | @step front gap lexeme rest t ts hgap hk hx hne hline hs h ih =>
      refine List.forall_mem_cons.2 ⟨⟨fun hnewline => ?_, fun hend => absurd hend hk⟩, ih⟩
      rcases hline with ⟨-, hlexeme⟩ | ⟨hother, -⟩
      · exact String.toList_inj.1 (hx.trans hlexeme)
      · exact absurd hnewline hother

/-! ### Skipping layout -/

theorem layout_comment_append {text rest : List Char} (htext : '\n' ∉ text)
    (hrest : AtLineEnd rest) : layout true (text ++ rest) = text.length := by
  induction text with
  | nil =>
      rcases hrest with rfl | ⟨rest, rfl⟩ <;> rfl
  | cons c text ih =>
      rw [List.mem_cons, not_or] at htext
      rw [List.cons_append, layout, if_pos rfl, if_neg (Ne.symm htext.1), ih htext.2,
        List.length_cons]

theorem layout_blanks_append {blanks : List Char} (h : Blanks blanks) (rest : List Char) :
    layout false (blanks ++ rest) = blanks.length + layout false rest := by
  induction blanks with
  | nil => simp
  | cons c blanks ih =>
      obtain ⟨hc, hblanks⟩ := List.forall_mem_cons.1 h
      have hstep : layout false (c :: (blanks ++ rest)) = layout false (blanks ++ rest) + 1 := by
        rcases hc with rfl | rfl | rfl <;> rfl
      rw [List.cons_append, hstep, ih hblanks, List.length_cons]
      omega

/-- Layout in front is skipped. -/
theorem drop_layout_gap {gap rest : List Char} (h : Gap gap rest) :
    (gap ++ rest).drop (layout false (gap ++ rest)) = rest.drop (layout false rest) := by
  obtain ⟨blanks, comment, rfl, hblanks, hcomment⟩ := h
  rw [List.append_assoc, layout_blanks_append hblanks, List.drop_append, List.drop_of_length_le,
    List.nil_append, Nat.add_sub_cancel_left]
  · rcases hcomment with rfl | ⟨⟨text, rfl, htext⟩, hend⟩
    · rfl
    · have hcomment : layout false ('#' :: (text ++ rest)) = text.length + 1 := by
        rw [← layout_comment_append htext hend]
        rfl
      have hrest : layout false rest = 0 := by
        rcases hend with rfl | ⟨rest, rfl⟩ <;> rfl
      rw [List.cons_append, hcomment, hrest, List.drop_succ_cons, List.drop_left, List.drop_zero]
  · omega

/-- Layout at one line end could stand at any other. -/
theorem gap_atLineEnd {gap rest rest' : List Char} (h : Gap gap rest) (hrest : AtLineEnd rest') :
    Gap gap rest' := by
  obtain ⟨blanks, comment, hgap, hblanks, hcomment⟩ := h
  exact ⟨blanks, comment, hgap, hblanks, hcomment.imp_right fun h => ⟨h.1, hrest⟩⟩

theorem gap_of_blanks {blanks : List Char} (h : Blanks blanks) (rest : List Char) :
    Gap blanks rest :=
  ⟨blanks, [], (List.append_nil blanks).symm, h, Or.inl rfl⟩

theorem Cut.gap {gap rest : List Char} {ts : List Token} (hgap : Gap gap rest)
    (h : Cut (gap ++ rest) ts) : Cut rest ts := by
  have hdrop := drop_layout_gap hgap
  cases h with
  | stop hcs hk => exact .stop (hdrop ▸ hcs) hk
  | step hcs hk hx h => exact .step (hdrop ▸ hcs) hk hx h

/-- What the scanner looks at next is no layout. -/
theorem layout_drop (cs : List Char) : layout false (cs.drop (layout false cs)) = 0 := by
  induction cs with
  | nil => rfl
  | cons c cs ih =>
      rw [layout, if_neg Bool.false_ne_true]
      split_ifs with hhash hblank
      · rw [List.drop_succ_cons]
        rcases (layout_comment cs).2 with h | ⟨rest, h⟩ <;> rw [h] <;> rfl
      · exact ih
      · rw [List.drop_zero, layout, if_neg Bool.false_ne_true, if_neg hhash, if_neg hblank]

theorem layout_cons_eq_zero {c : Char} {cs ds : List Char} (h : layout false (c :: cs) = 0) :
    layout false (c :: ds) = 0 := by
  rw [layout, if_neg Bool.false_ne_true] at h ⊢
  split_ifs at h ⊢
  rfl

/-! ### A blank behind a piece -/

/-- With a blank behind what it takes, `piece` takes the same. -/
structure Standalone (piece : List Char → Token.Kind × Nat) (cs : List Char) : Prop where
  bound : (piece cs).2 ≤ cs.length
  same : ∀ b ∈ [' ', '\t', '\r'], ∀ rest,
    piece (cs.take (piece cs).2 ++ b :: rest) = piece cs

theorem single_standalone (k : Token.Kind) (cs : List Char) : Standalone (fun _ => (k, 0)) cs :=
  ⟨Nat.zero_le _, fun _ _ _ => rfl⟩

/-- A sign of two characters, in front of other signs with the same first one. -/
theorem double_standalone {second : Char} (hsecond : second ∉ [' ', '\t', '\r']) (k : Token.Kind)
    {other : List Char → Token.Kind × Nat} {cs : List Char} (hother : Standalone other cs) :
    Standalone (fun cs => if cs.head? = some second then (k, 1) else other cs) cs := by
  by_cases h : cs.head? = some second
  · obtain ⟨rest, rfl⟩ := List.head?_eq_some_iff.1 h
    exact ⟨by simp, by simp⟩
  · refine ⟨by simpa only [if_neg h] using hother.bound, fun b hb rest => ?_⟩
    have hhead : (cs.take (other cs).2 ++ b :: rest).head? ≠ some second := by
      rw [List.head?_append, List.head?_take]
      split_ifs
      · exact fun heq => hsecond (Option.some.inj heq ▸ hb)
      · cases hcs : cs.head? with
        | none => exact fun heq => hsecond (Option.some.inj heq ▸ hb)
        | some c =>
            rw [hcs] at h
            exact h
    simp only [if_neg h, if_neg hhead]
    exact hother.same b hb rest

theorem signPiece_standalone {second : Char} (hsecond : second ∉ [' ', '\t', '\r'])
    (short long : Sign) (cs : List Char) : Standalone (signPiece · short second long) cs :=
  double_standalone hsecond _ (single_standalone _ cs)

theorem takeWhile_standalone {p : Char → Bool} (hp : ∀ b ∈ [' ', '\t', '\r'], p b = false)
    {b : Char} (hb : b ∈ [' ', '\t', '\r']) (cs rest : List Char) :
    (cs.take (cs.takeWhile p).length ++ b :: rest).takeWhile p = cs.takeWhile p := by
  rw [take_length_takeWhile]
  refine takeWhile_append_stop (fun c hc => List.all_eq_true.1 List.all_takeWhile c hc) ?_
  simp [hp b hb]

/-- A run of characters that a blank ends. -/
theorem run_standalone {p : Char → Bool} (hp : ∀ b ∈ [' ', '\t', '\r'], p b = false)
    (kind : List Char → Token.Kind) (cs : List Char) :
    Standalone (fun cs => (kind (cs.takeWhile p), (cs.takeWhile p).length)) cs := by
  refine ⟨(List.takeWhile_prefix p).length_le, fun b hb rest => ?_⟩
  simp only [takeWhile_standalone hp hb]

theorem escapePiece_eq_fault {cs : List Char}
    (h : ∀ c rest, cs = c :: ']' :: rest → Text.isEscapable c = false) :
    escapePiece cs =
      (.fault .invalidEscape, (cs.takeWhile fun c => !Text.isBlank c).length) := by
  unfold escapePiece
  dsimp only
  split
  · rename_i c rest
    rw [if_neg (by simp [h c rest rfl])]
  · rfl

theorem escapePiece_standalone (cs : List Char) : Standalone escapePiece cs := by
  have hblank : ∀ b ∈ [' ', '\t', '\r'], (!Text.isBlank b) = false :=
    forall_mem_of_all (by decide)
  have hplain : ∀ b ∈ [' ', '\t', '\r'], Text.isEscapable b = false ∧ b ≠ ']' :=
    forall_mem_of_all (by decide)
  by_cases hclosed : ∃ c rest, cs = c :: ']' :: rest ∧ Text.isEscapable c = true
  · obtain ⟨c, rest, rfl, hc⟩ := hclosed
    exact ⟨by simp [escapePiece, hc], by simp [escapePiece, hc]⟩
  · have hopen : ∀ c rest, cs = c :: ']' :: rest → Text.isEscapable c = false :=
      fun c rest hcs => Bool.eq_false_iff.2 fun hc => hclosed ⟨c, rest, hcs, hc⟩
    have hfault := escapePiece_eq_fault hopen
    have hrun := run_standalone hblank (fun _ => .fault .invalidEscape) cs
    refine ⟨hfault ▸ hrun.bound, fun b hb rest => ?_⟩
    rw [hfault]
    refine Eq.trans (escapePiece_eq_fault fun c back hcs => ?_) (hrun.same b hb rest)
    -- Two characters of the run stood there before, and a blank closes nothing.
    obtain ⟨behind, hbehind⟩ := List.takeWhile_prefix (l := cs) (fun c => !Text.isBlank c)
    rw [take_length_takeWhile] at hcs
    match hmatch : cs.takeWhile fun c => !Text.isBlank c with
    | [] =>
        rw [hmatch, List.nil_append, List.cons.injEq] at hcs
        exact hcs.1 ▸ (hplain b hb).1
    | [x] =>
        rw [hmatch, List.singleton_append, List.cons.injEq, List.cons.injEq] at hcs
        exact absurd hcs.2.1 (hplain b hb).2
    | x :: y :: run =>
        rw [hmatch] at hcs hbehind
        simp only [List.cons_append, List.cons.injEq] at hcs
        refine hopen c (run ++ behind) ?_
        rw [← hbehind, ← hcs.1, ← hcs.2.1, List.cons_append, List.cons_append]

theorem charPiece_standalone {cs : List Char} (h : (charPiece cs).1 ≠ .fault .invalidChar) :
    Standalone charPiece cs := by
  unfold charPiece at h
  split at h
  · rename_i c rest
    by_cases hc : Text.isEscapable c = true
    · exact ⟨by simp [charPiece, hc], by simp [charPiece, hc]⟩
    · exact absurd (by rw [if_neg hc]; rfl) h
  · rename_i c rest _
    by_cases hc : (c ≠ '\n' && !Text.isEscapable c) = true
    · simp only [Bool.and_eq_true, decide_eq_true_eq, Bool.not_eq_true'] at hc
      have hliteral := charPiece_unbracketed hc.1 hc.2
      refine ⟨by simp [hliteral], fun b hb back => ?_⟩
      rw [hliteral]
      exact hliteral (b :: back)
    · exact absurd (by rw [if_neg hc]; rfl) h
  · exact absurd rfl h

theorem quotedPiece_standalone {cs : List Char}
    (h : (quotedPiece cs).1 ≠ .fault .unterminatedString) : Standalone quotedPiece cs := by
  generalize hinside : cs.takeWhile (fun c => c ≠ '"' && c ≠ '\n') = inside
  have hclosed : (cs.drop inside.length).head? = some '"' := by
    by_contra hopen
    exact h (by simp only [quotedPiece, hinside]; rw [if_neg hopen])
  obtain ⟨rest, hrest⟩ := List.head?_eq_some_iff.1 hclosed
  have hin : ∀ c ∈ inside, c ≠ '"' ∧ c ≠ '\n' := by
    intro c hc
    rw [← hinside] at hc
    simpa using List.all_eq_true.1 List.all_takeWhile c hc
  have hcs : cs = inside ++ '"' :: rest := by
    have htake := take_length_takeWhile (fun c => c ≠ '"' && c ≠ '\n') cs
    have happend := List.take_append_drop inside.length cs
    rw [hinside] at htake
    rw [htake, hrest] at happend
    exact happend.symm
  have hliteral := quotedPiece_closed hin
  refine ⟨by simp [hcs, hliteral], fun b hb back => ?_⟩
  rw [hcs, hliteral, List.take_append, List.take_of_length_le (Nat.le_succ _),
    Nat.add_sub_cancel_left, List.append_assoc]
  exact hliteral (b :: back)

/-- **A blank behind a token does not change it**, if it is no malformed CHAR and no STRING
that is not closed. -/
theorem piece_standalone (c : Char) (cs : List Char) :
    (piece c cs).1 ≠ .fault .invalidChar → (piece c cs).1 ≠ .fault .unterminatedString →
      Standalone (piece c) cs := by
  have hnumeral : ∀ b ∈ [' ', '\t', '\r'], Numeral.isNumeralChar b = false :=
    forall_mem_of_all (by decide)
  have hname : ∀ b ∈ [' ', '\t', '\r'], isNameChar b = false :=
    forall_mem_of_all (by decide)
  unfold piece
  split
  case h_7 => exact fun _ _ => signPiece_standalone (by decide) _ _ cs
  case h_8 =>
    exact fun _ _ => double_standalone (by decide) _ (signPiece_standalone (by decide) _ _ cs)
  case h_9 => exact fun _ _ => signPiece_standalone (by decide) _ _ cs
  case h_16 => exact fun _ _ => escapePiece_standalone cs
  case h_17 => exact fun h _ => charPiece_standalone h
  case h_18 => exact fun _ h => quotedPiece_standalone h
  case h_19 =>
    intro _ _
    split
    · exact run_standalone hnumeral (fun digits => numeralKind (c :: digits)) cs
    · split
      · exact run_standalone hname
          (fun word => .ofWord (.classify (String.ofList (c :: word)))) cs
      · exact single_standalone _ cs
  all_goals exact fun _ _ => single_standalone _ cs

/-! ### The tokens of both texts -/

namespace Cut

theorem behind {front ts : List Token} (hfront : ∀ t ∈ front, t.kind ≠ .endOfInput)
    {cs : List Char} (h : Cut cs (front ++ ts)) : ∃ rest, Cut rest ts := by
  induction front generalizing cs with
  | nil => exact ⟨cs, h⟩
  | cons t front ih =>
      obtain ⟨ht, hfront⟩ := List.forall_mem_cons.1 hfront
      rw [List.cons_append] at h
      generalize hvs : front ++ ts = vs at h
      cases h with
      | stop _ hk => exact absurd hk ht
      | step _ _ _ h => exact ih hfront (hvs ▸ h)

/-- A token with blanks behind it is cut off as it was. -/
theorem token {cs cs' blanks : List Char} {t : Token} {ts us : List Token} (h : Cut cs (t :: ts))
    (hend : t.kind ≠ .endOfInput)
    (hquotes : t.kind ≠ .fault .invalidChar ∧ t.kind ≠ .fault .unterminatedString)
    (hblanks : Blanks blanks) (hne : blanks ≠ [])
    (h' : Cut (t.lexeme.toList ++ (blanks ++ cs')) us) : Next t.Resembles cs' us := by
  cases h with
  | stop _ hk => exact absurd hk hend
  | @step cs rest c t ts hcs hk hx h =>
      obtain ⟨b, bs, rfl⟩ := List.exists_cons_of_ne_nil hne
      obtain ⟨hbound, hsame⟩ := piece_standalone c rest (hk ▸ hquotes.1) (hk ▸ hquotes.2)
      have hpiece : Scanner.piece c (rest.take (Scanner.piece c rest).2 ++ (b :: bs ++ cs')) =
          ((Scanner.piece c rest).1, (Scanner.piece c rest).2) :=
        hsame b (by simpa using hblanks b (by simp)) (bs ++ cs')
      have hlayout : layout false (c :: rest) = 0 := hcs ▸ layout_drop cs
      have hlength : (rest.take (Scanner.piece c rest).2).length = (Scanner.piece c rest).2 :=
        List.length_take_of_le hbound
      rw [hx, String.toList_ofList, List.cons_append] at h'
      obtain ⟨u, us, rfl, ⟨hk', hx'⟩, hus⟩ := h'.piece (layout_cons_eq_zero hlayout) hpiece
      rw [List.take_left' hlength] at hx'
      rw [List.drop_left' hlength] at hus
      exact ⟨u, us, rfl, ⟨hk.trans hk'.symm, hx.trans hx'.symm⟩,
        hus.gap (gap_of_blanks hblanks cs')⟩

theorem lineEnds {ends cs : List Char} (hends : LineEnds ends) {us : List Token}
    (h : Cut (ends ++ cs) us) :
    ∃ ms us', us = ms ++ us' ∧ ms ≠ [] ∧ Newlines ms ∧ Cut cs us' := by
  induction hends generalizing us with
  | @last gap hgap =>
      rw [List.append_assoc] at h
      obtain ⟨m, us, rfl, hm, hus⟩ :=
        (h.gap (gap_atLineEnd hgap (Or.inr ⟨_, rfl⟩))).single rfl rfl
      exact ⟨[m], us, rfl, by simp, by simpa [Newlines] using hm, hus⟩
  | @more gap cs' hgap hends ih =>
      rw [List.append_assoc, List.cons_append] at h
      obtain ⟨m, us, rfl, hm, hus⟩ :=
        (h.gap (gap_atLineEnd hgap (Or.inr ⟨_, rfl⟩))).single rfl rfl
      obtain ⟨ms, us, rfl, -, hms, hus⟩ := ih hus
      exact ⟨m :: ms, us, rfl, by simp, List.forall_mem_cons.2 ⟨hm, hms⟩, hus⟩

end Cut

/-- Where nothing but layout is left, the end of input matches. -/
theorem matches_stop {cs : List Char} {t : Token} {us : List Token}
    (hcs : cs.drop (layout false cs) = []) (hk : t.kind = .endOfInput) (ht : t.Regular)
    (h : Cut cs us) (hus : ∀ u ∈ us, u.Regular) : Matches [t] us := by
  cases h with
  | @stop _ u _ hk' =>
      have hlexeme : t.lexeme = u.lexeme := by rw [ht.2 hk, (hus u (by simp)).2 hk']
      exact .cons ⟨hk.trans hk'.symm, hlexeme⟩ (by simp [hk]) .nil
  | step hcs' =>
      rw [hcs] at hcs'
      cases hcs'

/-- Runs of line ends match, whatever their lengths. -/
theorem matches_newlines {ns ms ts us : List Token} (hns : Newlines ns) (hms : Newlines ms)
    (hns_ne : ns ≠ []) (hms_ne : ms ≠ []) (hts : ∀ t ∈ ns, t.Regular) (hus : ∀ t ∈ ms, t.Regular)
    (h : Matches ts us) : Matches (ns ++ ts) (ms ++ us) := by
  obtain ⟨n, ns, rfl⟩ := List.exists_cons_of_ne_nil hns_ne
  obtain ⟨m, ms, rfl⟩ := List.exists_cons_of_ne_nil hms_ne
  obtain ⟨hn, hns⟩ := List.forall_mem_cons.1 hns
  obtain ⟨hm, hms⟩ := List.forall_mem_cons.1 hms
  have hlexeme : n.lexeme = m.lexeme := by
    rw [(hts n (by simp)).1 hn, (hus m (by simp)).1 hm]
  rw [List.cons_append, List.cons_append]
  refine .newline ⟨hn.trans hm.symm, hlexeme⟩ hn ?_
  rw [skipNewlines_append hns, skipNewlines_append hms]
  exact h.loose

/-- **Tokens that are laid out anew are cut off again.** -/
theorem matches_of_relaid {ts : List Token} {cs' : List Char} (h : Relaid ts cs') :
    ∀ {cs : List Char} {us : List Token}, Cut cs ts → Cut cs' us →
      (∀ t ∈ ts, t.kind ≠ .fault .invalidChar ∧ t.kind ≠ .fault .unterminatedString) →
      (∀ t ∈ ts, t.Regular) → (∀ t ∈ us, t.Regular) → Matches ts us := by
  induction h with
  | @stop t gap hk hgap =>
      intro cs us _ h' _ hts hus
      rw [← List.append_nil gap] at h'
      exact matches_stop rfl hk (hts t (by simp)) (h'.gap hgap) hus
  | @token t ts blanks cs' hline hend hblanks hne h ih =>
      intro cs us hcut h' hquotes hts hus
      obtain ⟨hquote, hquotes⟩ := List.forall_mem_cons.1 hquotes
      have hsplit : Cut cs ([t] ++ ts) := hcut
      obtain ⟨rest, hrest⟩ := hsplit.behind (by simpa using hend)
      obtain ⟨u, us, rfl, hface, hcut'⟩ := hcut.token hend hquote hblanks hne h'
      exact .cons hface hline (ih hrest hcut' hquotes (fun t ht => hts t (by simp [ht]))
        fun t ht => hus t (by simp [ht]))
  | @lines ns ts ends blanks cs' hns hne hends hblanks h ih =>
      intro cs us hcut h' hquotes hts hus
      obtain ⟨rest, hrest⟩ := hcut.behind fun t ht => by simp [hns t ht]
      obtain ⟨ms, us, rfl, hms_ne, hms, hcut'⟩ := h'.lineEnds hends
      have hmatches := ih hrest (hcut'.gap (gap_of_blanks hblanks cs'))
        (fun t ht => hquotes t (by simp [ht])) (fun t ht => hts t (by simp [ht]))
        fun t ht => hus t (by simp [ht])
      exact matches_newlines hns hms hne hms_ne (fun t ht => hts t (by simp [ht]))
        (fun t ht => hus t (by simp [ht])) hmatches

end Scanner

namespace Program

open Token Scanner

/-- **The layout of a text does not matter.**  Written with another layout a text is read as
the same program but for the places in it, or it is refused at the same stage in the same
words. -/
theorem parse_relaid {source source' : String}
    (hquotes : ∀ t ∈ Token.ofSource source,
      t.kind ≠ .fault .invalidChar ∧ t.kind ≠ .fault .unterminatedString)
    (h : Relaid (Token.ofSource source) source'.toList) :
    (∃ p p', parse source = .ok p ∧ parse source' = .ok p' ∧ p.erase = p'.erase) ∨
      ∃ e e', parse source = .error e ∧ parse source' = .error e' ∧
        e.cause.stage = e'.cause.stage ∧ e.cause.message = e'.cause.message := by
  have hmatches : Matches (Token.ofSource source) (Token.ofSource source') :=
    matches_of_relaid h (cut_ofSource source) (cut_ofSource source') hquotes
      (laid_ofSource source).regular (laid_ofSource source').regular
  have hparallel : Parallel _ (parse source) (parse source') :=
    ofTokens_parallel (hmatches.resolveNames {})
  rcases hparallel.cases with hok | ⟨e, e', hparse, hparse', hcause⟩
  · exact Or.inl hok
  · exact Or.inr ⟨e, e', hparse, hparse', by rw [hcause], by rw [hcause]⟩

/-- A program without a blank more than it needs. -/
def denseText : String :=
  "BEGIN CODE\nDISPLAY:[#]\nEND CODE"

/-- The same program with tabs, empty lines and comments. -/
def airyText : String :=
  "BEGIN\tCODE # top\n\r\n DISPLAY : [#] \n END CODE #"

theorem relaid_airyText : Relaid (Token.ofSource denseText) airyText.toList := by
  have htokens : Token.ofSource denseText =
      ⟨.keyword .BEGIN, "BEGIN", ⟨1, 1, 5⟩⟩ :: ⟨.keyword .CODE, "CODE", ⟨1, 7, 4⟩⟩ ::
        ([⟨.newline, "\n", ⟨1, 11, 1⟩⟩] ++
          ⟨.keyword .DISPLAY, "DISPLAY", ⟨2, 1, 7⟩⟩ :: ⟨.sign .colon, ":", ⟨2, 8, 1⟩⟩ ::
            ⟨.escape '#', "[#]", ⟨2, 9, 3⟩⟩ ::
        ([⟨.newline, "\n", ⟨2, 12, 1⟩⟩] ++
          ⟨.keyword .END, "END", ⟨3, 1, 3⟩⟩ :: ⟨.keyword .CODE, "CODE", ⟨3, 5, 4⟩⟩ ::
            [⟨.endOfInput, "", ⟨3, 9, 0⟩⟩])) := by decide +kernel
  have htext : airyText.toList =
      "BEGIN".toList ++ ("\t".toList ++ ("CODE".toList ++ (" ".toList ++
        (("# top".toList ++ '\n' :: ("\r".toList ++ ['\n'])) ++ (" ".toList ++
          ("DISPLAY".toList ++ (" ".toList ++ (":".toList ++ (" ".toList ++
            ("[#]".toList ++ (" ".toList ++
        (([] ++ ['\n']) ++ (" ".toList ++
          ("END".toList ++ (" ".toList ++ ("CODE".toList ++ (" ".toList ++
            "#".toList))))))))))))))))) := by decide +kernel
  have hspace : Blanks " ".toList := by simp [Blanks]
  have hempty : Gap [] ['\n'] := gap_of_blanks (by simp [Blanks]) _
  have htop : Gap "# top".toList ['\n'] :=
    ⟨[], _, rfl, by simp [Blanks], Or.inr ⟨⟨" top".toList, rfl, by decide⟩, Or.inr ⟨[], rfl⟩⟩⟩
  have hreturn : Gap "\r".toList ['\n'] := gap_of_blanks (by simp [Blanks]) _
  have hlast : Gap "#".toList [] :=
    ⟨[], _, rfl, by simp [Blanks], Or.inr ⟨⟨[], rfl, by simp⟩, Or.inl rfl⟩⟩
  rw [htokens, htext]
  exact .token (by simp) (by simp) (by simp [Blanks]) (by simp) <|
    .token (by simp) (by simp) hspace (by simp) <|
    .lines (by simp [Newlines]) (by simp) (.more htop (.last hreturn)) hspace <|
    .token (by simp) (by simp) hspace (by simp) <|
    .token (by simp) (by simp) hspace (by simp) <|
    .token (by simp) (by simp) hspace (by simp) <|
    .lines (by simp [Newlines]) (by simp) (.last hempty) hspace <|
    .token (by simp) (by simp) hspace (by simp) <|
    .token (by simp) (by simp) hspace (by simp) <|
    .stop rfl hlast

theorem parse_relaid_airyText :
    Relaid (Token.ofSource denseText) airyText.toList ∧
      ∃ p p', parse denseText = .ok p ∧ parse airyText = .ok p' ∧ p.erase = p'.erase := by
  refine ⟨relaid_airyText, ?_⟩
  have hquotes : ∀ t ∈ Token.ofSource denseText,
      t.kind ≠ .fault .invalidChar ∧ t.kind ≠ .fault .unterminatedString :=
    forall_mem_of_all (by decide +kernel)
  have hok : (parse denseText).isOk = true := by decide +kernel
  rcases parse_relaid hquotes relaid_airyText with h | ⟨e, e', hparse, -⟩
  · exact h
  · rw [hparse] at hok
    cases hok

end Program

end Pseudocode

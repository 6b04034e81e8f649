/-
Asking a scanner for tokens.

There are two ways to ask.  One gives a token every time, at the end of the text the end of
input again and again; the other gives nothing any more once it has given the end of input.
Both go on from where the last token ended, so they can be mixed, and together they hand out
the tokens of the text in their order.

What a scanner will hand out is told by `ahead`: the tokens of the characters it has left.
Handing out a token takes it off these, except that the end of input stays.  Where the scanner
stands is told by its two counts, which stay positions of the text (`Tracks`).
-/
import Pseudocode.Proofs.Scanning

namespace Pseudocode

namespace Scanner

/-! ### How far a token reaches -/

theorem length_takeWhile_le (p : Char → Bool) (cs : List Char) :
    (cs.takeWhile p).length ≤ cs.length :=
  (List.takeWhile_prefix p).length_le

/-- A run of characters and one more behind it, if it is there. -/
theorem length_takeWhile_succ_le {p : Char → Bool} {cs : List Char} {c : Char}
    (h : (cs.drop (cs.takeWhile p).length).head? = some c) :
    (cs.takeWhile p).length + 1 ≤ cs.length := by
  obtain ⟨rest, hrest⟩ := List.head?_eq_some_iff.1 h
  have hlength := congrArg List.length hrest
  rw [List.length_drop, List.length_cons] at hlength
  omega

theorem escapePiece_le (cs : List Char) : (escapePiece cs).2 ≤ cs.length := by
  have hfault := length_takeWhile_le (fun c => !Text.isBlank c) cs
  unfold escapePiece
  dsimp only
  split
  · split
    · simp
    · exact hfault
  · exact hfault

theorem charFault_le (cs : List Char) : (charFault cs).2 ≤ cs.length := by
  unfold charFault
  dsimp only
  split
  · rename_i h
    exact length_takeWhile_succ_le h
  · exact length_takeWhile_le _ cs

theorem charPiece_le (cs : List Char) : (charPiece cs).2 ≤ cs.length := by
  unfold charPiece
  split
  · split
    · simp
    · exact charFault_le _
  · split
    · simp
    · exact charFault_le _
  · exact charFault_le _

theorem quotedPiece_le (cs : List Char) : (quotedPiece cs).2 ≤ cs.length := by
  unfold quotedPiece
  dsimp only
  split
  · rename_i h
    exact length_takeWhile_succ_le h
  · exact length_takeWhile_le _ cs

theorem signPiece_le (cs : List Char) (short : Sign) (second : Char) (long : Sign) :
    (signPiece cs short second long).2 ≤ cs.length := by
  unfold signPiece
  split
  · rename_i h
    cases cs with
    | nil => cases h
    | cons c cs => simp
  · exact Nat.zero_le _

/-- No token reaches beyond the end of the text. -/
theorem piece_le (c : Char) (cs : List Char) : (piece c cs).2 ≤ cs.length := by
  unfold piece
  split
  case h_7 => exact signPiece_le ..
  case h_8 =>
    split
    · rename_i h
      cases cs with
      | nil => cases h
      | cons c cs => simp
    · exact signPiece_le ..
  case h_9 => exact signPiece_le ..
  case h_16 => exact escapePiece_le cs
  case h_17 => exact charPiece_le cs
  case h_18 => exact quotedPiece_le cs
  case h_19 =>
    split
    · exact length_takeWhile_le _ cs
    · split
      · exact length_takeWhile_le _ cs
      · exact Nat.zero_le _
  all_goals exact Nat.zero_le _

/-! ### One token -/

/-- A token takes its characters off the front, behind some layout, and the counts of the
scanner go on by as many. -/
theorem next_takes (s : Scanner) :
    ∃ gap, s.rest = gap ++ (s.next.1.lexeme.toList ++ s.next.2.rest) ∧
      s.next.2.start = s.pos + gap.length ∧
      s.next.2.pos = s.next.2.start + s.next.1.lexeme.toList.length ∧
      s.next.1.span.len = s.next.1.lexeme.toList.length ∧
      (s.next.1.kind = .endOfInput ↔ s.next.1.lexeme.toList = []) := by
  refine ⟨s.rest.take (layout false s.rest), ?_⟩
  have hsplit := (List.take_append_drop (layout false s.rest) s.rest).symm
  rw [List.length_take_of_le (layout_le false s.rest)]
  cases h : s.rest.drop (layout false s.rest) with
  | nil =>
      rw [h] at hsplit
      simp only [next]
      rw [h]
      exact ⟨hsplit, rfl, rfl, rfl, by simp⟩
  | cons c cs =>
      obtain ⟨hk, hx, hrest⟩ := next_of_cons h
      have hcounts : s.next.2.start = s.pos + layout false s.rest ∧
          s.next.2.pos = s.next.2.start + ((piece c cs).2 + 1) ∧
          s.next.1.span.len = (c :: cs.take (piece c cs).2).length := by
        simp only [next]
        rw [h]
        dsimp only
        split <;> exact ⟨rfl, rfl, rfl⟩
      have hlexeme : (c :: cs.take (piece c cs).2).length = (piece c cs).2 + 1 := by
        rw [List.length_cons, List.length_take_of_le (piece_le c cs)]
      rw [hx, String.toList_ofList, hrest, hk, List.cons_append, List.take_append_drop, ← h,
        hlexeme]
      exact ⟨hsplit, hcounts.1, hcounts.2.1, hcounts.2.2.trans hlexeme,
        iff_of_false (piece_genuine c cs).1 (List.cons_ne_nil _ _)⟩

/-- At the end of the text a scanner stays where it is. -/
theorem next_of_endOfInput {s : Scanner} (h : s.next.1.kind = .endOfInput) :
    s.next.2.next = s.next ∧ s.next.2.rest = [] := by
  cases hrest : s.rest.drop (layout false s.rest) with
  | nil =>
      have hnext : s.next = (⟨.endOfInput, "", ⟨s.line, s.col + layout false s.rest, 0⟩⟩,
          { s with
            rest := []
            col := s.col + layout false s.rest
            start := s.pos + layout false s.rest
            pos := s.pos + layout false s.rest }) := by
        simp only [next]
        rw [hrest]
      rw [hnext]
      exact ⟨rfl, rfl⟩
  | cons c cs => exact absurd ((next_of_cons hrest).1.symm.trans h) (piece_genuine c cs).1

/-- Whether the end has been handed out makes no difference to the next token. -/
theorem next_finished (s : Scanner) (b : Bool) :
    ({ s with finished := b } : Scanner).next = (s.next.1, { s.next.2 with finished := b }) := by
  simp only [next]
  cases s.rest.drop (layout false s.rest) with
  | nil => rfl
  | cons c cs =>
      dsimp only
      split <;> rfl

/-! ### The tokens ahead -/

/-- The tokens of the characters that are left. -/
def ahead (s : Scanner) : List Token :=
  tokens (s.rest.length + 1) s

/-- A token other than the end of input takes a character. -/
theorem length_rest_next_lt {s : Scanner} (h : s.next.1.kind ≠ .endOfInput) :
    s.next.2.rest.length < s.rest.length := by
  obtain ⟨gap, hsplit, -, -, -, hend⟩ := s.next_takes
  have hpos := List.length_pos_iff.2 (mt hend.2 h)
  have hlength := congrArg List.length hsplit
  rw [List.length_append, List.length_append] at hlength
  omega

theorem tokens_succ (fuel : Nat) (s : Scanner) :
    tokens (fuel + 1) s =
      if s.next.1.kind = .endOfInput then [s.next.1] else s.next.1 :: tokens fuel s.next.2 :=
  rfl

theorem length_tokens_le (fuel : Nat) (s : Scanner) : (tokens fuel s).length ≤ fuel := by
  induction fuel generalizing s with
  | zero => exact Nat.le_refl 0
  | succ fuel ih =>
      rw [tokens_succ]
      split
      · simp
      · exact Nat.succ_le_succ (ih _)

/-- All numbers of steps that are larger than the number of characters give the same tokens. -/
theorem tokens_eq_tokens {fuel fuel' : Nat} {s : Scanner} (h : s.rest.length < fuel)
    (h' : s.rest.length < fuel') : tokens fuel s = tokens fuel' s := by
  induction fuel generalizing fuel' s with
  | zero => omega
  | succ fuel ih =>
      obtain ⟨fuel', rfl⟩ : ∃ n, fuel' = n + 1 := ⟨fuel' - 1, by omega⟩
      rw [tokens_succ, tokens_succ]
      by_cases hend : s.next.1.kind = .endOfInput
      · rw [if_pos hend, if_pos hend]
      · have hlt := length_rest_next_lt hend
        have htail : tokens fuel s.next.2 = tokens fuel' s.next.2 := ih (by omega) (by omega)
        rw [if_neg hend, if_neg hend, htail]

/-- At the end of the text nothing is ahead but the end of input, and that stays. -/
theorem ahead_of_endOfInput {s : Scanner} (h : s.next.1.kind = .endOfInput) :
    s.ahead = [s.next.1] ∧ s.next.2.ahead = [s.next.1] := by
  have hahead : ∀ s : Scanner, s.next.1.kind = .endOfInput → s.ahead = [s.next.1] :=
    fun s hs => (tokens_succ _ s).trans (if_pos hs)
  have hstay := (next_of_endOfInput h).1
  refine ⟨hahead s h, ?_⟩
  rw [hahead _ (by rw [hstay]; exact h), hstay]

theorem ahead_of_ne {s : Scanner} (h : s.next.1.kind ≠ .endOfInput) :
    s.ahead = s.next.1 :: s.next.2.ahead := by
  rw [ahead, tokens_succ, if_neg h,
    tokens_eq_tokens (length_rest_next_lt h) (Nat.lt_succ_self _), ahead]

theorem ahead_finished (s : Scanner) (b : Bool) :
    ({ s with finished := b } : Scanner).ahead = s.ahead := by
  have htokens : ∀ (fuel : Nat) (s : Scanner),
      tokens fuel { s with finished := b } = tokens fuel s := by
    intro fuel
    induction fuel with
    | zero => exact fun _ => rfl
    | succ fuel ih =>
        intro s
        rw [tokens_succ, tokens_succ, next_finished, ih]
  exact htokens _ s

theorem ahead_ofSource (source : String) : (ofSource source).ahead = Token.ofSource source :=
  rfl

theorem ahead_terminated (s : Scanner) :
    ∃ init eof, s.ahead = init ++ [eof] ∧ eof.kind = .endOfInput ∧
      ∀ t ∈ init, t.kind ≠ .endOfInput :=
  (cut_tokens (Nat.lt_succ_self _)).terminated

/-- The next token is the first of those ahead; only the end of input stays ahead. -/
theorem ahead_next {s : Scanner} {init : List Token} {eof : Token}
    (h : s.ahead = init ++ [eof]) :
    (init = [] ∧ s.next.1 = eof ∧ s.next.2.ahead = [eof]) ∨
      ∃ init', init = s.next.1 :: init' ∧ s.next.2.ahead = init' ++ [eof] := by
  by_cases hend : s.next.1.kind = .endOfInput
  · obtain ⟨hahead, hstay⟩ := ahead_of_endOfInput hend
    obtain ⟨rfl, rfl⟩ : init = [] ∧ eof = s.next.1 := by
      simpa [List.singleton_eq_append_iff] using hahead.symm.trans h
    exact Or.inl ⟨rfl, rfl, hstay⟩
  · rw [ahead_of_ne hend] at h
    cases init with
    | nil =>
        obtain ⟨front, last, hfront, -⟩ := s.next.2.ahead_terminated
        simp [hfront] at h
    | cons t init =>
        obtain ⟨rfl, htail⟩ := List.cons.inj h
        exact Or.inr ⟨init, rfl, htail⟩

/-! ### Requests -/

/-- The two ways to ask for a token. -/
inductive Request where
  /-- For the next token, in any case. -/
  | token
  /-- For the next one of the sequence of tokens, if there is one. -/
  | member
  deriving DecidableEq, Repr

/-- The answer of a scanner, and the scanner behind it. -/
def Request.serve : Request → Scanner → Option Token × Scanner
  | .token, s => (some s.next.1, s.next.2)
  | .member, s => s.next?

/-- The scanner behind some requests. -/
def after (s : Scanner) (requests : List Request) : Scanner :=
  requests.foldl (fun s r => (r.serve s).2) s

/-- The tokens that a scanner hands out on some requests. -/
def handed (s : Scanner) : List Request → List Token
  | [] => []
  | r :: requests => (r.serve s).1.toList ++ handed (r.serve s).2 requests

theorem next_snd_finished (s : Scanner) : s.next.2.finished = s.finished := by
  simp only [next]
  split
  · rfl
  · split <;> rfl

/-- A request is answered with the next token, unless it is one for the next of the sequence
and the sequence has ended; it ends when such a request is answered with the end of input. -/
theorem serve_cases (r : Request) (s : Scanner) :
    ((r = .member ∧ s.finished = true) ∧ r.serve s = (none, s)) ∨
      ¬ (r = .member ∧ s.finished = true) ∧
        ∃ b, r.serve s = (some s.next.1, { s.next.2 with finished := b }) ∧
          (b = true ↔ s.finished = true ∨ r = .member ∧ s.next.1.kind = .endOfInput) := by
  cases r with
  | token =>
      refine Or.inr ⟨by simp, s.finished, ?_, by simp⟩
      rw [← next_snd_finished]
      rfl
  | member =>
      by_cases hdone : s.finished = true
      · exact Or.inl ⟨⟨rfl, hdone⟩, if_pos hdone⟩
      · refine Or.inr ⟨by simp [hdone], s.next.1.kind = .endOfInput, if_neg hdone, ?_⟩
        simp [hdone]

theorem length_handed_le (requests : List Request) (s : Scanner) :
    (s.handed requests).length ≤ requests.length := by
  induction requests generalizing s with
  | nil => exact Nat.le_refl 0
  | cons r requests ih =>
      have htail := ih (r.serve s).2
      have hhead : (r.serve s).1.toList.length ≤ 1 := by cases (r.serve s).1 <;> simp
      rw [handed, List.length_append, List.length_cons]
      omega

/-- What is handed out is the tokens ahead, and then the end of input over and over. -/
theorem handed_eq_take {eof : Token} (requests : List Request) :
    ∀ (s : Scanner) (init : List Token), s.ahead = init ++ [eof] →
      ∀ n, (s.handed requests).length ≤ n →
        s.handed requests = (init ++ List.replicate n eof).take (s.handed requests).length := by
  induction requests with
  | nil =>
      intro s init _ n _
      rfl
  | cons r requests ih =>
      intro s init hinit n hn
      rcases serve_cases r s with ⟨-, hserve⟩ | ⟨-, b, hserve, -⟩
      · simp only [handed, hserve, Option.toList_none, List.nil_append] at hn ⊢
        exact ih s init hinit n hn
      · have hahead := ahead_finished s.next.2 b
        simp only [handed, hserve, Option.toList_some, List.singleton_append,
          List.length_cons] at hn ⊢
        rcases ahead_next hinit with ⟨rfl, hnext, hstay⟩ | ⟨init, rfl, htail⟩
        · obtain ⟨n, rfl⟩ : ∃ m, n = m + 1 := ⟨n - 1, by omega⟩
          rw [hnext, List.nil_append, List.replicate_succ, List.take_succ_cons]
          exact congrArg (eof :: ·) (ih _ [] (hahead.trans hstay) n (by omega))
        · rw [List.cons_append, List.take_succ_cons]
          exact congrArg (s.next.1 :: ·) (ih _ init (hahead.trans htail) n (by omega))

theorem after_cons (s : Scanner) (r : Request) (requests : List Request) :
    s.after (r :: requests) = (r.serve s).2.after requests :=
  rfl

/-- A request for the next of the sequence, among the given ones, was answered with the end of
input. -/
def Ended (s : Scanner) (requests : List Request) : Prop :=
  ∃ before later, requests = before ++ .member :: later ∧
    ∃ t, (Request.member.serve (s.after before)).1 = some t ∧ t.kind = .endOfInput

theorem ended_cons {s : Scanner} {r : Request} {requests : List Request} :
    s.Ended (r :: requests) ↔
      (r = .member ∧ ∃ t, (r.serve s).1 = some t ∧ t.kind = .endOfInput) ∨
        (r.serve s).2.Ended requests := by
  constructor
  · rintro ⟨before, later, hsplit, hanswer⟩
    cases before with
    | nil =>
        obtain ⟨rfl, rfl⟩ := List.cons.inj hsplit
        exact Or.inl ⟨rfl, hanswer⟩
    | cons r' before =>
        obtain ⟨rfl, rfl⟩ := List.cons.inj hsplit
        exact Or.inr ⟨before, later, rfl, hanswer⟩
  · rintro (⟨rfl, hanswer⟩ | ⟨before, later, rfl, hanswer⟩)
    · exact ⟨[], requests, rfl, hanswer⟩
    · exact ⟨r :: before, later, rfl, hanswer⟩

/-- The mark of the end is set by a request that was answered with it. -/
theorem finished_after (requests : List Request) (s : Scanner) :
    (s.after requests).finished = true ↔ s.finished = true ∨ s.Ended requests := by
  induction requests generalizing s with
  | nil => simp [after, Ended]
  | cons r requests ih =>
      rw [after_cons, ih, ended_cons]
      rcases serve_cases r s with ⟨⟨-, hdone⟩, hserve⟩ | ⟨-, b, hserve, hb⟩
      · simp [hserve, hdone]
      · simp [hserve, hb, or_assoc]

/-! ### Positions -/

/-- The counts of a scanner are positions in its text, and what is left stands behind the
second of them. -/
structure Tracks (source : String) (s : Scanner) : Prop where
  ordered : s.start ≤ s.pos
  inside : s.pos ≤ source.toList.length
  rest : s.rest = source.toList.drop s.pos

/-- From one scanner to another a token was taken, with the characters between the two counts
of the second one. -/
structure Takes (source : String) (s s' : Scanner) (t : Token) : Prop where
  behind : s.pos ≤ s'.start
  lexeme : t.lexeme.toList = (source.toList.drop s'.start).take (s'.pos - s'.start)
  len : t.span.len = s'.pos - s'.start
  progress : t.kind ≠ .endOfInput → s'.start < s'.pos

theorem tracks_ofSource (source : String) : (ofSource source).Tracks source :=
  ⟨Nat.le_refl _, Nat.zero_le _, rfl⟩

/-- A token is taken from where the scanner stands, and the scanner goes on inside of the
text. -/
theorem Tracks.next {source : String} {s : Scanner} (h : s.Tracks source) (b : Bool) :
    Tracks source { s.next.2 with finished := b } ∧
      Takes source s { s.next.2 with finished := b } s.next.1 := by
  obtain ⟨gap, hsplit, hstart, hpos, hlen, hend⟩ := s.next_takes
  have hlength := congrArg List.length (h.rest.symm.trans hsplit)
  rw [List.length_drop, List.length_append, List.length_append] at hlength
  have hinside := h.inside
  have hbehind : source.toList.drop s.next.2.start =
      s.next.1.lexeme.toList ++ s.next.2.rest := by
    rw [hstart, ← List.drop_drop, ← h.rest, hsplit, List.drop_left]
  have hcount : s.next.2.pos - s.next.2.start = s.next.1.lexeme.toList.length := by omega
  refine ⟨⟨?_, ?_, ?_⟩, ⟨?_, ?_, ?_, fun hk => ?_⟩⟩ <;> dsimp only
  · omega
  · omega
  · rw [hpos, ← List.drop_drop, hbehind, List.drop_left]
  · omega
  · rw [hbehind, hcount, List.take_left]
  · rw [hcount, hlen]
  · have := List.length_pos_iff.2 (mt hend.2 hk)
    omega

theorem Tracks.serve {source : String} {s : Scanner} (h : s.Tracks source) (r : Request) :
    (r.serve s).2.Tracks source := by
  rcases serve_cases r s with ⟨-, hserve⟩ | ⟨-, b, hserve, -⟩
  · rw [hserve]
    exact h
  · rw [hserve]
    exact (h.next b).1

theorem Tracks.after {source : String} {s : Scanner} (h : s.Tracks source)
    (requests : List Request) : (s.after requests).Tracks source := by
  induction requests generalizing s with
  | nil => exact h
  | cons r requests ih => exact ih (h.serve r)

/-! ### All requests -/

/-- **Requests are served with the tokens of the text.**  Neither layout nor a token reaches
beyond the end of the text.  Behind any requests, and behind a further one, the counts of the
scanner are positions of the text, in order.  The further request is answered with a token that
the scanner takes from where it stands, at least a character unless it is the end of input; or it
is a request for the next of the sequence, the end of which has been given to such a request
before, and then nothing happens.  All tokens together are those of the text, of which there are
no more than characters before the end of input, and from then on it is the end of input again
and again. -/
theorem requests_served (source : String) (requests : List Request) (r : Request) :
    let s := (ofSource source).after requests
    let s' := (r.serve s).2
    ((∀ cs, layout false cs ≤ cs.length) ∧ ∀ c cs, (piece c cs).2 ≤ cs.length) ∧
      (s.Tracks source ∧ s'.Tracks source) ∧
      ((∃ t, (r.serve s).1 = some t ∧ Takes source s s' t) ∧
          ¬ (r = .member ∧ (ofSource source).Ended requests) ∨
        (r.serve s).1 = none ∧ s' = s ∧ r = .member ∧ (ofSource source).Ended requests) ∧
      ∃ init eof, Token.ofSource source = init ++ [eof] ∧ eof.kind = .endOfInput ∧
        (∀ t ∈ init, t.kind ≠ .endOfInput) ∧ init.length ≤ source.toList.length ∧
        (ofSource source).handed requests =
          (init ++ List.replicate requests.length eof).take
            ((ofSource source).handed requests).length := by
  intro s s'
  have hfinished : s.finished = true ↔ (ofSource source).Ended requests := by
    rw [finished_after]
    simp [ofSource]
  have htracks : s.Tracks source := (tracks_ofSource source).after requests
  refine ⟨⟨layout_le false, piece_le⟩, ⟨htracks, htracks.serve r⟩, ?_, ?_⟩
  · rw [← hfinished]
    rcases serve_cases r s with ⟨⟨hr, hdone⟩, hserve⟩ | ⟨hopen, b, hserve, -⟩
    · exact Or.inr ⟨congrArg Prod.fst hserve, congrArg Prod.snd hserve, hr, hdone⟩
    · have hs' : s' = { s.next.2 with finished := b } := congrArg Prod.snd hserve
      rw [hs']
      exact Or.inl ⟨⟨s.next.1, congrArg Prod.fst hserve, (htracks.next b).2⟩, hopen⟩
  · obtain ⟨init, eof, hinit, heof, hne⟩ := (ofSource source).ahead_terminated
    have hlength := length_tokens_le (source.toList.length + 1) (ofSource source)
    have hcount := congrArg List.length hinit
    rw [List.length_append, List.length_singleton] at hcount
    refine ⟨init, eof, hinit, heof, hne, ?_, ?_⟩
    · rw [ahead_ofSource, Token.ofSource] at hcount
      omega
    · exact handed_eq_take requests _ init hinit _ (length_handed_le requests _)

end Scanner

end Pseudocode

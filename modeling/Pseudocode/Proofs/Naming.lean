/-
Names are settled as the grammar asks for.

Which reserved words in the wrong case are names is decided in one pass from left to
right, before the grammar is applied, with a context that knows nothing of phrases: it
sees types, commas and line ends go by.  The rules of the grammar decide the same
question by where a word stands in a phrase.  Both agree: a text is a program by the rules
for written names exactly when, after the pass, it is one by the rules for settled names.

Outside of declarations the context does not change at all.  A token that leaves it alone
is called calm; all tokens of an expression are calm, and so is everything behind the
declarations.  On calm tokens the pass is a map, `settle`, so there a derivation carries
over token by token, in both directions.
-/
import Pseudocode.Proofs.Transport

namespace Pseudocode

open Derivation

namespace Token

/-- A token that changes nothing in a context that waits for no name; inside of a
declaration, commas and line ends do. -/
def Calm (declaring : Bool) (t : Token) : Prop :=
  match t.kind with
  | .typeName _ => False
  | .newline => declaring = false
  | .sign .comma => declaring = false
  | _ => True

/-- Calm inside of a declaration is calm everywhere. -/
theorem Calm.outside {t : Token} (h : Calm true t) : Calm false t := by
  unfold Calm at h ⊢
  split at h <;> simp_all

namespace Context

/-- The context that waits for no name. -/
def idle (declaring : Bool) (known : List String) : Context :=
  { declaring := declaring, declared := known }

/-- The context behind a type, or behind a comma of its declaration. -/
def waiting (known : List String) : Context :=
  { declaring := true, slot := true, declared := known }

/-- The context behind a new name. -/
def introducing (known : List String) (x : String) : Context :=
  { declaring := true, fresh := some x, declared := known }

/-- The context behind some tokens. -/
def through (ctx : Context) : List Token → Context
  | [] => ctx
  | t :: ts => (ctx.after { t with kind := ctx.resolve t }).through ts

theorem through_append (ctx : Context) (ts us : List Token) :
    ctx.through (ts ++ us) = (ctx.through ts).through us := by
  induction ts generalizing ctx with
  | nil => rfl
  | cons t ts ih => exact ih _

theorem after_new {known : List String} {t : Token} (ht : t.kind = .name) :
    (waiting known).after t = introducing known t.lexeme := by
  simp [after, waiting, introducing, ht]

theorem after_typeName {declaring : Bool} {known : List String} {t : Token} {ty : Ty}
    (ht : t.kind = .typeName ty) : (idle declaring known).after t = waiting known := by
  simp [after, idle, waiting, ht]

theorem after_assign {known : List String} {x : String} {t : Token}
    (ht : t.kind = .sign .assign) :
    (introducing known x).after t = idle true (x :: known) := by
  simp [after, introducing, idle, ht]

end Context

theorem resolveNames_append (ctx : Context) (ts us : List Token) :
    resolveNames ctx (ts ++ us) = resolveNames ctx ts ++ resolveNames (ctx.through ts) us := by
  induction ts generalizing ctx with
  | nil => rfl
  | cons t ts ih =>
      rw [List.cons_append, resolveNames, resolveNames, ih]
      rfl

theorem length_resolveNames (ctx : Context) (ts : List Token) :
    (resolveNames ctx ts).length = ts.length := by
  induction ts generalizing ctx with
  | nil => rfl
  | cons t ts ih => rw [resolveNames, List.length_cons, ih, List.length_cons]

/-- What is settled in two parts was written in two parts. -/
theorem resolveNames_eq_append {ctx : Context} {ts us vs : List Token}
    (h : resolveNames ctx ts = us ++ vs) :
    ∃ ts₁ ts₂, ts = ts₁ ++ ts₂ ∧ resolveNames ctx ts₁ = us ∧
      resolveNames (ctx.through ts₁) ts₂ = vs := by
  have hlen : us.length ≤ ts.length := by
    have := congrArg List.length h
    rw [length_resolveNames, List.length_append] at this
    omega
  refine ⟨ts.take us.length, ts.drop us.length, (List.take_append_drop _ _).symm, ?_⟩
  rw [← List.take_append_drop us.length ts, resolveNames_append] at h
  exact List.append_inj h (by simp [length_resolveNames, hlen])

theorem resolveNames_eq_cons {ctx : Context} {ts us : List Token} {u : Token}
    (h : resolveNames ctx ts = u :: us) :
    ∃ t ts', ts = t :: ts' ∧ u = { t with kind := ctx.resolve t } ∧
      resolveNames (ctx.after u) ts' = us := by
  cases ts with
  | nil => simp [resolveNames] at h
  | cons t ts =>
      simp only [resolveNames, List.cons.injEq] at h
      obtain ⟨rfl, rfl⟩ := h
      exact ⟨t, ts, rfl, rfl, rfl⟩

/-! ### Calm tokens are settled one by one -/

/-- A token with its kind settled, where a word is a name only if it is known. -/
def settle (known : List String) (t : Token) : Token :=
  { t with kind := (Context.idle true known).resolve t }

theorem after_settle {declaring : Bool} {known : List String} {t : Token}
    (h : Calm declaring t) :
    (Context.idle declaring known).after (settle known t) = .idle declaring known := by
  unfold Calm at h
  unfold settle Context.after Context.resolve Context.idle
  cases hk : t.kind with
  | typeName ty => simp [hk] at h
  | newline =>
      simp only [hk] at h
      simp [h]
  | sign s =>
      cases s with
      | comma =>
          simp only [hk] at h
          simp [h]
      | _ => simp
  | fault f =>
      cases f with
      | wrongCase r =>
          by_cases hc : (Context.idle true known).takesAsName t.lexeme = true
          · simp [Context.idle] at hc
            simp [hc]
          · simp [Context.idle] at hc
            simp [hc]
      | _ => simp
  | _ => simp

theorem resolveNames_calm {declaring : Bool} {known : List String} {ts : List Token}
    (h : ∀ t ∈ ts, Calm declaring t) :
    resolveNames (.idle declaring known) ts = ts.map (settle known) ∧
      (Context.idle declaring known).through ts = .idle declaring known := by
  induction ts with
  | nil => exact ⟨rfl, rfl⟩
  | cons t ts ih =>
      have hafter : (Context.idle declaring known).after
          { t with kind := (Context.idle declaring known).resolve t } = .idle declaring known :=
        after_settle (h t (by simp))
      obtain ⟨hmap, hthrough⟩ := ih fun u hu => h u (by simp [hu])
      refine ⟨?_, ?_⟩
      · rw [resolveNames, List.map_cons]
        simp only [hafter, hmap]
        rfl
      · rw [Context.through, hafter]
        exact hthrough

theorem settle_replaces (known : List String) (t : Token) :
    Replaces (Naming.written.isName known) IsName t (settle known t) where
  lexeme := rfl
  span := rfl
  name := by
    rintro (hname | ⟨⟨r, hr⟩, hmem⟩)
    · have hk : t.kind = .name := hname
      simp [IsName, settle, Context.resolve, hk]
    · simp [IsName, settle, Context.resolve, hr, Context.takesAsName, Context.idle, hmem]
  kind := by
    intro hwrong _
    unfold settle Context.resolve
    dsimp only
    split
    · rename_i r hr
      exact absurd hr (hwrong r)
    · rfl

theorem replaces_settle (known : List String) (t : Token) :
    Replaces IsName (Naming.written.isName known) (settle known t) t where
  lexeme := rfl
  span := rfl
  name := by
    intro hname
    simp only [IsName, settle, Context.resolve] at hname
    split at hname
    · rename_i r hr
      refine Or.inr ⟨⟨r, hr⟩, ?_⟩
      split at hname
      · rename_i htakes
        simpa [Context.takesAsName, Context.idle] using htakes
      · simp at hname
    · exact Or.inl hname
  kind := by
    intro hwrong hname
    simp only [settle, Context.resolve] at hwrong hname ⊢
    split
    · rename_i r hr
      simp only [hr] at hwrong hname
      split at hname
      · simp at hname
      · rename_i htakes
        exact absurd (if_neg htakes) (hwrong r)
    · rfl

end Token

/-! ### Which tokens phrases consist of -/

namespace Derivation

open Token (Calm)

section Calm

variable {isName : Token → Prop}

theorem calm_of_kind {t : Token} {k : Token.Kind} (ht : t.kind = k) (htype : ∀ ty, k ≠ .typeName ty)
    (hnl : k ≠ .newline) (hcomma : k ≠ .sign .comma) : Calm true t := by
  subst ht
  unfold Calm
  split
  · rename_i ty hk
    exact htype ty hk
  · rename_i hk
    exact absurd hk hnl
  · rename_i hk
    exact absurd hk hcomma
  · trivial

theorem calm_of_unOp? {t : Token} {op : UnOp} (ht : t.kind.unOp? = some op) : Calm true t := by
  refine calm_of_kind rfl (fun ty hk => ?_) (fun hk => ?_) (fun hk => ?_)
  all_goals simp [hk, Token.Kind.unOp?] at ht

theorem calm_of_binOp? {t : Token} {op : BinOp} (ht : t.kind.binOp? = some op) : Calm true t := by
  refine calm_of_kind rfl (fun ty hk => ?_) (fun hk => ?_) (fun hk => ?_)
  all_goals simp [hk, Token.Kind.binOp?] at ht

mutual

theorem Operand.calm (hname : ∀ t, isName t → Calm true t) {ts : List Token} {e : Expr}
    (h : Operand isName ts e) : ∀ t ∈ ts, Calm true t := by
  match h with
  | .lead ht h =>
      exact List.forall_mem_cons.2 ⟨calm_of_unOp? ht, h.calm hname⟩
  | .smallest ht hm _ =>
      simp only [List.forall_mem_cons]
      exact ⟨calm_of_kind ht (by simp) (by simp) (by simp),
        calm_of_kind hm (by simp) (by simp) (by simp), by simp⟩
  | .name ht => exact List.forall_mem_singleton.2 (hname _ ht)
  | .literal ht =>
      exact List.forall_mem_singleton.2 (calm_of_kind ht (by simp) (by simp) (by simp))
  | .escape ht =>
      exact List.forall_mem_singleton.2 (calm_of_kind ht (by simp) (by simp) (by simp))
  | .paren ht h hc =>
      rw [List.cons_append, List.forall_mem_cons, List.forall_mem_append,
        List.forall_mem_singleton]
      exact ⟨calm_of_kind ht (by simp) (by simp) (by simp), h.calm hname,
        calm_of_kind hc (by simp) (by simp) (by simp)⟩

theorem Links.calm (hname : ∀ t, isName t → Calm true t) {ts : List Token} {links : List Link}
    (h : Links isName ts links) : ∀ t ∈ ts, Calm true t := by
  match h with
  | .nil => simp
  | .cons ht h hs =>
      rw [List.cons_append, List.forall_mem_cons, List.forall_mem_append]
      exact ⟨calm_of_binOp? ht, h.calm hname, hs.calm hname⟩

theorem Expression.calm (hname : ∀ t, isName t → Calm true t) {ts : List Token} {e : Expr}
    (h : Expression isName ts e) : ∀ t ∈ ts, Calm true t := by
  match h with
  | .chain h hs =>
      rw [List.forall_mem_append]
      exact ⟨h.calm hname, hs.calm hname⟩

end

/-- Outside of declarations only types are not calm. -/
theorem calm_outside {t : Token} {k : Token.Kind} (ht : t.kind = k)
    (htype : ∀ ty, k ≠ .typeName ty) : Calm false t := by
  subst ht
  unfold Calm
  split
  · rename_i ty hk
    exact htype ty hk
  all_goals trivial

theorem Newlines.calm {ns : List Token} (h : Newlines ns) : ∀ t ∈ ns, Calm false t :=
  fun t ht => calm_outside (h t ht) (by simp)

theorem Separated.calm {α : Type} {sign : Sign} {rule : List Token → α → Prop}
    (hrule : ∀ ts a, rule ts a → ∀ t ∈ ts, Calm false t) {ts : List Token} {as : List α}
    (h : Separated sign rule ts as) : ∀ t ∈ ts, Calm false t := by
  induction h with
  | one h => exact hrule _ _ h
  | cons h hc _ ih =>
      rw [List.forall_mem_append, List.forall_mem_cons]
      exact ⟨hrule _ _ h, calm_outside hc (by simp), ih⟩

theorem Expression.calm_outside (hname : ∀ t, isName t → Calm true t) {ts : List Token} {e : Expr}
    (h : Expression isName ts e) : ∀ t ∈ ts, Calm false t :=
  fun t ht => (h.calm hname t ht).outside

theorem Shown.calm (hname : ∀ t, isName t → Calm true t) {ts : List Token} {i : Item}
    (h : Shown isName ts i) : ∀ t ∈ ts, Calm false t := by
  cases h with
  | newline ht => exact List.forall_mem_singleton.2 (Derivation.calm_outside ht (by simp))
  | expr h => exact h.calm_outside hname

theorem Reference.calm (hname : ∀ t, isName t → Calm true t) {ts : List Token} {n : Name}
    (h : Reference isName ts n) : ∀ t ∈ ts, Calm false t := by
  cases h with
  | mk ht => exact List.forall_mem_singleton.2 (hname _ ht).outside

theorem Assigned.calm (hname : ∀ t, isName t → Calm true t) {ts : List Token}
    {targets : List Name} {e : Expr} (h : Assigned isName ts targets e) :
    ∀ t ∈ ts, Calm false t := by
  induction h with
  | value h => exact h.calm_outside hname
  | target ht ha _ ih =>
      rw [List.forall_mem_cons, List.forall_mem_cons]
      exact ⟨(hname _ ht).outside, Derivation.calm_outside ha (by simp), ih⟩

theorem Condition.calm (hname : ∀ t, isName t → Calm true t) {ts : List Token} {e : Expr}
    (h : Condition isName ts e) : ∀ t ∈ ts, Calm false t := by
  cases h with
  | mk ht h hc =>
      rw [List.cons_append, List.forall_mem_cons, List.forall_mem_append,
        List.forall_mem_singleton]
      exact ⟨Derivation.calm_outside ht (by simp), h.calm_outside hname,
        Derivation.calm_outside hc (by simp)⟩

mutual

theorem Statement.calm (hname : ∀ t, isName t → Calm true t) {ts : List Token} {s : Stmt}
    (h : Statement isName ts s) : ∀ t ∈ ts, Calm false t := by
  match h with
  | .assign ht ha h hn =>
      simp only [List.cons_append, List.forall_mem_cons, List.forall_mem_append,
        List.not_mem_nil, false_implies, implies_true, and_true]
      exact ⟨(hname _ ht).outside, calm_outside ha (by simp), h.calm hname,
        calm_outside hn (by simp)⟩
  | .display ht hc h hn =>
      simp only [List.cons_append, List.forall_mem_cons, List.forall_mem_append,
        List.not_mem_nil, false_implies, implies_true, and_true]
      exact ⟨calm_outside ht (by simp), calm_outside hc (by simp),
        h.calm (fun _ _ h => h.calm hname), calm_outside hn (by simp)⟩
  | .scan ht hc h hn =>
      simp only [List.cons_append, List.forall_mem_cons, List.forall_mem_append,
        List.not_mem_nil, false_implies, implies_true, and_true]
      exact ⟨calm_outside ht (by simp), calm_outside hc (by simp),
        h.calm (fun _ _ h => h.calm hname), calm_outside hn (by simp)⟩
  | .ifThen ht hc hb hn ho =>
      simp only [List.cons_append, List.forall_mem_cons, List.forall_mem_append]
      exact ⟨calm_outside ht (by simp), ⟨hc.calm hname, hb.calm hname⟩, calm_outside hn (by simp),
        ho.calm hname⟩
  | .loop ht hc hb hn =>
      simp only [List.cons_append, List.forall_mem_cons, List.forall_mem_append,
        List.not_mem_nil, false_implies, implies_true, and_true]
      exact ⟨calm_outside ht (by simp), ⟨hc.calm hname, hb.calm hname⟩, calm_outside hn (by simp)⟩

theorem Clauses.calm (hname : ∀ t, isName t → Calm true t) {ts : List Token} {o : Otherwise}
    (h : Clauses isName ts o) : ∀ t ∈ ts, Calm false t := by
  match h with
  | .nothing => simp
  | .elseIf hns ht hi hc hb hn ho =>
      simp only [List.forall_mem_append, List.forall_mem_cons]
      exact ⟨⟨⟨hns.calm, calm_outside ht (by simp), calm_outside hi (by simp), hc.calm hname⟩,
        hb.calm hname⟩, calm_outside hn (by simp), ho.calm hname⟩
  | .bare hns ht hb hn =>
      simp only [List.forall_mem_append, List.forall_mem_cons, List.not_mem_nil, false_implies,
        implies_true, and_true]
      exact ⟨⟨hns.calm, calm_outside ht (by simp), hb.calm hname⟩, calm_outside hn (by simp)⟩

theorem Body.calm (hname : ∀ t, isName t → Calm true t) {k : Keyword} {ts : List Token}
    {body : List Stmt} (h : Body isName k ts body) : ∀ t ∈ ts, Calm false t := by
  match h with
  | .mk hns hb hbk hn h he hek =>
      simp only [List.forall_mem_append, List.forall_mem_cons, List.not_mem_nil, false_implies,
        implies_true, and_true]
      exact ⟨⟨hns.calm, calm_outside hb (by simp), calm_outside hbk (by simp),
        calm_outside hn (by simp), h.calm hname⟩, calm_outside he (by simp),
        calm_outside hek (by simp)⟩

theorem Block.calm (hname : ∀ t, isName t → Calm true t) {ts : List Token} {body : List Stmt}
    (h : Block isName ts body) : ∀ t ∈ ts, Calm false t := by
  match h with
  | .nil hns => exact hns.calm
  | .cons hns h hs =>
      simp only [List.forall_mem_append]
      exact ⟨⟨hns.calm, h.calm hname⟩, hs.calm hname⟩

end

end Calm

/-! ### Both ways of telling names agree -/

open Token

theorem calm_of_isName (t : Token) (h : t.IsName) : Calm true t := by
  have hk : t.kind = .name := h
  exact calm_of_kind hk (by simp) (by simp) (by simp)

theorem calm_of_written (known : List String) (t : Token) (h : Naming.written.isName known t) :
    Calm true t := by
  rcases h with h | ⟨⟨r, hr⟩, -⟩
  · exact calm_of_isName t h
  · exact calm_of_kind hr (by simp) (by simp) (by simp)

/-- Settling a token changes it only if it is a reserved word in the wrong case. -/
theorem resolve_eq {ctx : Context} {t : Token} {k : Kind} (hk : t.kind = k)
    (hwrong : ∀ r, k ≠ .fault (.wrongCase r)) : { t with kind := ctx.resolve t } = t := by
  have : ctx.resolve t = t.kind := by
    unfold Context.resolve
    split
    · rename_i r hr
      exact absurd (hk.symm.trans hr) (hwrong r)
    · rfl
  rw [this]

theorem eq_of_resolve {ctx : Context} {t : Token} {k : Kind} (hk : ctx.resolve t = k)
    (hname : k ≠ .name) (hwrong : ∀ r, k ≠ .fault (.wrongCase r)) :
    { t with kind := ctx.resolve t } = t := by
  by_cases h : ∃ r, t.kind = .fault (.wrongCase r)
  · obtain ⟨r, hr⟩ := h
    exfalso
    simp only [Context.resolve, hr] at hk
    split at hk
    · exact hname hk.symm
    · exact hwrong r hk.symm
  · exact resolve_eq rfl fun r hr => h ⟨r, hr⟩

/-- A settled token that is no name stands so in the text. -/
theorem resolveNames_eq_cons_same {ctx : Context} {ts us : List Token} {u : Token} {k : Kind}
    (h : resolveNames ctx ts = u :: us) (hk : u.kind = k) (hname : k ≠ .name)
    (hwrong : ∀ r, k ≠ .fault (.wrongCase r)) :
    ∃ ts', ts = u :: ts' ∧ resolveNames (ctx.after u) ts' = us := by
  obtain ⟨t, ts', rfl, rfl, hrest⟩ := resolveNames_eq_cons h
  have heq := eq_of_resolve hk hname hwrong
  exact ⟨ts', by rw [heq], hrest⟩

/-- What is calm once it is settled was calm before. -/
theorem calm_of_resolveNames {declaring : Bool} {ts : List Token} :
    ∀ {ctx : Context}, (∀ u ∈ resolveNames ctx ts, Calm declaring u) →
      ∀ t ∈ ts, Calm declaring t := by
  induction ts with
  | nil => intro ctx _ t ht; simp at ht
  | cons t ts ih =>
      intro ctx h
      rw [resolveNames] at h
      obtain ⟨ht, hts⟩ := List.forall_mem_cons.1 h
      refine List.forall_mem_cons.2 ⟨?_, ih hts⟩
      by_cases hr : ∃ r, t.kind = .fault (.wrongCase r)
      · obtain ⟨r, hr⟩ := hr
        simp [Calm, hr]
      · rwa [resolve_eq rfl fun r hk => hr ⟨r, hk⟩] at ht

theorem forall₂_settle (known : List String) (ts : List Token) :
    List.Forall₂ (Replaces (Naming.written.isName known) IsName) ts (ts.map (settle known)) := by
  rw [List.forall₂_map_right_iff, List.forall₂_same]
  exact fun t _ => settle_replaces known t

theorem settle_forall₂ (known : List String) (ts : List Token) :
    List.Forall₂ (Replaces IsName (Naming.written.isName known)) (ts.map (settle known)) ts := by
  rw [List.forall₂_map_left_iff, List.forall₂_same]
  exact fun t _ => replaces_settle known t

/-- Rules for calm tokens that carry over token by token derive the same before names are
settled and after. -/
theorem calm_resolveNames_iff {declaring : Bool} {known : List String}
    (settled written : List Token → Prop)
    (hsettled : ∀ us, settled us → ∀ t ∈ us, Calm declaring t)
    (hwritten : ∀ us, written us → ∀ t ∈ us, Calm declaring t)
    (hfrom : ∀ us vs, List.Forall₂ (Replaces IsName (Naming.written.isName known)) us vs →
      settled us → written vs)
    (hto : ∀ us vs, List.Forall₂ (Replaces (Naming.written.isName known) IsName) us vs →
      written us → settled vs) (ts : List Token) :
    settled (resolveNames (.idle declaring known) ts) ↔ written ts := by
  constructor
  · intro h
    have hcalm := calm_of_resolveNames (hsettled _ h)
    rw [(resolveNames_calm hcalm).1] at h
    exact hfrom _ _ (settle_forall₂ known ts) h
  · intro h
    rw [(resolveNames_calm (hwritten _ h)).1]
    exact hto _ _ (forall₂_settle known ts) h

theorem expression_resolveNames {known : List String} {ts : List Token} {e : Expr} :
    Expression IsName (resolveNames (.idle true known) ts) e ↔
      Expression (Naming.written.isName known) ts e :=
  calm_resolveNames_iff (Expression IsName · e) (Expression (Naming.written.isName known) · e)
    (fun _ h => h.calm calm_of_isName) (fun _ h => h.calm (calm_of_written known))
    (fun _ _ hrep h => h.transport hrep) (fun _ _ hrep h => h.transport hrep) ts

theorem block_resolveNames {known : List String} {ts : List Token} {body : List Stmt} :
    Block IsName (resolveNames (.idle false known) ts) body ↔
      Block (Naming.written.isName known) ts body :=
  calm_resolveNames_iff (Block IsName · body) (Block (Naming.written.isName known) · body)
    (fun _ h => h.calm calm_of_isName) (fun _ h => h.calm (calm_of_written known))
    (fun _ _ hrep h => h.transport hrep) (fun _ _ hrep h => h.transport hrep) ts

/-! ### Declarations -/

theorem isNew_of_resolve {known : List String} {t : Token}
    (h : (Context.waiting known).resolve t = .name) : Naming.written.isNew t := by
  unfold Context.resolve at h
  split at h
  · rename_i r hr
    exact Or.inr ⟨r, hr⟩
  · exact Or.inl h

theorem resolve_of_isNew {known : List String} {t : Token} (h : Naming.written.isNew t) :
    (Context.waiting known).resolve t = .name := by
  rcases h with h | ⟨r, hr⟩
  · have hk : t.kind = .name := h
    simp [Context.resolve, hk]
  · simp [Context.resolve, hr, Context.takesAsName, Context.waiting]

theorem declared_resolveNames {known : List String} {ts : List Token} {d : Declarator} :
    Declared .settled known (resolveNames (.waiting known) ts) d ↔
      Declared .written known ts d := by
  constructor
  · intro h
    generalize hres : resolveNames (.waiting known) ts = us at h
    cases h with
    | @bare u hu =>
        obtain ⟨t, ts, rfl, rfl, hnil⟩ := resolveNames_eq_cons hres
        obtain rfl : ts = [] := by
          have := congrArg List.length hnil
          rw [length_resolveNames] at this
          exact List.length_eq_zero_iff.1 this
        exact .bare (isNew_of_resolve hu)
    | @init u a us e hu ha he =>
        obtain ⟨t, ts, rfl, rfl, hbehind⟩ := resolveNames_eq_cons hres
        obtain ⟨ts, rfl, hvalue⟩ := resolveNames_eq_cons_same hbehind ha (by simp) (by simp)
        rw [Context.after_new hu, Context.after_assign ha] at hvalue
        rw [← hvalue] at he
        exact .init (isNew_of_resolve hu) ha (expression_resolveNames.1 he)
  · intro h
    cases h with
    | @bare t ht => exact .bare (resolve_of_isNew ht)
    | @init t a ts e ht ha he =>
        have hu : ({ t with kind := (Context.waiting known).resolve t } : Token).kind = .name :=
          resolve_of_isNew ht
        rw [resolveNames, resolveNames, Context.after_new hu, resolve_eq ha (by simp),
          Context.after_assign ha]
        exact .init hu ha (expression_resolveNames.2 he)

/-- Behind a declared name and its first value, only a comma and a line end go on, and the
name counts from there. -/
theorem through_declared {known : List String} {ts : List Token} {d : Declarator}
    (h : Declared .written known ts d) (c : Token) :
    (c.kind = .sign .comma → ((Context.waiting known).through ts).after c =
      .waiting (d.name.val :: known)) ∧
    (c.kind = .newline → ((Context.waiting known).through ts).after c =
      .idle false (d.name.val :: known)) := by
  cases h with
  | @bare t ht =>
      have hu : ({ t with kind := (Context.waiting known).resolve t } : Token).kind = .name :=
        resolve_of_isNew ht
      rw [Context.through, Context.through, Context.after_new hu]
      constructor <;> intro hc <;>
        simp [Context.after, Context.introducing, Context.waiting, Context.idle, hc]
  | @init t a ts e ht ha he =>
      have hu : ({ t with kind := (Context.waiting known).resolve t } : Token).kind = .name :=
        resolve_of_isNew ht
      rw [Context.through, Context.through, Context.after_new hu, resolve_eq ha (by simp),
        Context.after_assign ha, (resolveNames_calm (he.calm (calm_of_written _))).2]
      constructor <;> intro hc <;>
        simp [Context.after, Context.waiting, Context.idle, hc]

theorem declaration_resolveNames {known : List String} {ts : List Token}
    {vars : List Declarator} :
    Declaration .settled known (resolveNames (.waiting known) ts) vars ↔
      Declaration .written known ts vars := by
  constructor
  · intro h
    generalize hres : resolveNames (.waiting known) ts = us at h
    induction h generalizing ts with
    | one h =>
        rw [← hres] at h
        exact .one (declared_resolveNames.1 h)
    | @cons known us vs c d vars h hc hs ih =>
        obtain ⟨ts, rest, rfl, rfl, hrest⟩ := resolveNames_eq_append hres
        obtain ⟨rest, rfl, htail⟩ := resolveNames_eq_cons_same hrest hc (by simp) (by simp)
        have hd := declared_resolveNames.1 h
        rw [(through_declared hd c).1 hc] at htail
        exact .cons hd hc (ih htail)
  · intro h
    induction h with
    | one h => exact .one (declared_resolveNames.2 h)
    | @cons known ts us c d vars h hc hs ih =>
        rw [resolveNames_append, resolveNames, resolve_eq hc (by simp),
          (through_declared h c).1 hc]
        exact .cons (declared_resolveNames.2 h) hc ih

theorem through_declaration {known : List String} {ts : List Token} {vars : List Declarator}
    (h : Declaration .written known ts vars) {nl : Token} (hn : nl.kind = .newline) :
    ((Context.waiting known).through ts).after nl = .idle false (declare known vars) := by
  induction h with
  | one h => exact (through_declared h nl).2 hn
  | @cons known ts us c d vars h hc hs ih =>
      rw [Context.through_append, Context.through, resolve_eq hc (by simp),
        (through_declared h c).1 hc]
      exact ih

/-! ### Whole programs -/

theorem through_newlines {known : List String} {ns : List Token} (h : Newlines ns) :
    (Context.idle false known).through ns = .idle false known :=
  (resolveNames_calm h.calm).2

/-- Tokens that no context changes. -/
def Fixed (ts : List Token) : Prop :=
  ∀ t ∈ ts, t.kind ≠ .name ∧ ∀ r, t.kind ≠ .fault (.wrongCase r)

theorem Newlines.fixed {ns : List Token} (h : Newlines ns) : Fixed ns := by
  intro t ht
  simp [h t ht]

theorem Fixed.resolveNames {ctx : Context} {ts : List Token} (h : Fixed ts) :
    resolveNames ctx ts = ts := by
  induction ts generalizing ctx with
  | nil => rfl
  | cons t ts ih =>
      rw [Token.resolveNames, resolve_eq rfl (h t (by simp)).2, ih fun u hu => h u (by simp [hu])]

theorem Fixed.of_resolveNames {ctx : Context} {ts : List Token}
    (h : Fixed (Token.resolveNames ctx ts)) : Token.resolveNames ctx ts = ts := by
  induction ts generalizing ctx with
  | nil => rfl
  | cons t ts ih =>
      rw [Token.resolveNames] at h ⊢
      obtain ⟨⟨hname, hwrong⟩, hts⟩ := List.forall_mem_cons.1 h
      rw [ih hts, eq_of_resolve rfl hname hwrong]

theorem sequence_resolveNames {known : List String} {ts : List Token} {body : List Stmt} :
    Sequence .settled known (resolveNames (.idle false known) ts) body ↔
      Sequence .written known ts body := by
  constructor
  · intro h
    generalize hres : resolveNames (.idle false known) ts = us at h
    induction h generalizing ts with
    | block h =>
        rw [← hres] at h
        exact .block (block_resolveNames.1 h)
    | @declare known t nl ty ns us vs vars rest hns ht h hn hs ih =>
        rw [List.append_assoc, List.cons_append] at hres
        obtain ⟨ms, ts, rfl, rfl, hts⟩ := resolveNames_eq_append hres
        rw [hns.fixed.of_resolveNames] at hns
        obtain ⟨ts, rfl, hdecl⟩ := resolveNames_eq_cons_same hts ht (by simp) (by simp)
        rw [through_newlines hns, Context.after_typeName ht] at hdecl
        obtain ⟨ts, rest, rfl, rfl, hrest⟩ := resolveNames_eq_append hdecl
        obtain ⟨rest, rfl, htail⟩ := resolveNames_eq_cons_same hrest hn (by simp) (by simp)
        have hd := declaration_resolveNames.1 h
        rw [through_declaration hd hn] at htail
        have := Sequence.declare hns ht hd hn (ih htail)
        simpa using this
  · intro h
    induction h with
    | block h => exact .block (block_resolveNames.2 h)
    | @declare known t nl ty ns ts us vars rest hns ht h hn hs ih =>
        rw [List.append_assoc, List.cons_append, resolveNames_append, hns.fixed.resolveNames,
          through_newlines hns, resolveNames, resolve_eq ht (by simp), Context.after_typeName ht,
          resolveNames_append, resolveNames, resolve_eq hn (by simp), through_declaration h hn]
        have := Sequence.declare hns ht (declaration_resolveNames.2 h) hn ih
        simpa using this

/-- Up to the first statement there is no name, and nothing that a context remembers. -/
theorem front_fixed {ns : List Token} {b bc nl : Token} (hns : Newlines ns)
    (hb : b.kind = .keyword .BEGIN) (hbc : bc.kind = .keyword .CODE) (hn : nl.kind = .newline) :
    Fixed (ns ++ [b, bc, nl]) ∧
      (Context.idle false []).through (ns ++ [b, bc, nl]) = .idle false [] := by
  have hcalm : ∀ t ∈ ns ++ [b, bc, nl], Calm false t := by
    simp only [List.forall_mem_append, List.forall_mem_cons, List.not_mem_nil, false_implies,
      implies_true, and_true]
    exact ⟨hns.calm, calm_outside hb (by simp), calm_outside hbc (by simp),
      calm_outside hn (by simp)⟩
  have hfixed : Fixed [b, bc, nl] := by simp [Fixed, hb, hbc, hn]
  exact ⟨List.forall_mem_append.2 ⟨hns.fixed, hfixed⟩, (resolveNames_calm hcalm).2⟩

/-- Behind the last statement there is no name either. -/
theorem back_fixed {ms : List Token} {e ec eof : Token} (he : e.kind = .keyword .END)
    (hec : ec.kind = .keyword .CODE) (hms : Newlines ms) (heof : eof.kind = .endOfInput) :
    Fixed (e :: ec :: ms ++ [eof]) := by
  have hend : Fixed [e, ec] := by simp [Fixed, he, hec]
  have hlast : Fixed [eof] := by simp [Fixed, heof]
  exact List.forall_mem_append.2 ⟨List.forall_mem_append.2 ⟨hend, hms.fixed⟩, hlast⟩

/-- **Settling the names and then deriving with settled names is deriving with written
names.** -/
theorem whole_resolveNames {ts : List Token} {p : Program} :
    Whole .settled (resolveNames {} ts) p ↔ Whole .written ts p := by
  constructor
  · intro h
    generalize hres : resolveNames {} ts = us at h
    cases h with
    | @mk b bc nl e ec eof ns us ms body hns hb hbc hn h he hec hms heof =>
        obtain ⟨hfront, hthrough⟩ := front_fixed hns hb hbc hn
        have hback := back_fixed he hec hms heof
        replace hres : resolveNames (.idle false []) ts =
            (ns ++ [b, bc, nl]) ++ (us ++ (e :: ec :: ms ++ [eof])) := by
          simpa [Context.idle] using hres
        obtain ⟨front, rest, rfl, hf, hrest⟩ := resolveNames_eq_append hres
        rw [← hf] at hfront
        rw [hfront.of_resolveNames] at hf
        rw [hf, hthrough] at hrest
        obtain ⟨ts, back, rfl, rfl, hb'⟩ := resolveNames_eq_append hrest
        rw [← hb'] at hback
        rw [hback.of_resolveNames] at hb'
        rw [hf, hb']
        have := Whole.mk hns hb hbc hn (sequence_resolveNames.1 h) he hec hms heof
        simpa using this
  · intro h
    cases h with
    | @mk b bc nl e ec eof ns ts ms body hns hb hbc hn h he hec hms heof =>
        obtain ⟨hfront, hthrough⟩ := front_fixed hns hb hbc hn
        have hback := back_fixed he hec hms heof
        have hsplit : ns ++ b :: bc :: nl :: ts ++ e :: ec :: ms ++ [eof] =
            (ns ++ [b, bc, nl]) ++ (ts ++ (e :: ec :: ms ++ [eof])) := by simp
        have hres : resolveNames (.idle false [])
              ((ns ++ [b, bc, nl]) ++ (ts ++ (e :: ec :: ms ++ [eof]))) =
            (ns ++ [b, bc, nl]) ++
              (resolveNames (.idle false []) ts ++ (e :: ec :: ms ++ [eof])) := by
          rw [resolveNames_append, hfront.resolveNames, hthrough, resolveNames_append,
            hback.resolveNames]
        have := Whole.mk hns hb hbc hn (sequence_resolveNames.2 h) he hec hms heof
        rw [hsplit]
        change Whole .settled (resolveNames (.idle false []) _) _
        rw [hres]
        simpa using this

end Derivation

end Pseudocode

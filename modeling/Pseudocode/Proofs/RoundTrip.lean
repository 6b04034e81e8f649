/-
A canonical text is read as the program it was made from.

The argument follows the derivation of the original text.  For each phrase, the canonical
text of its tree, in front of any characters that do not go on with it, is cut into tokens
of which the first ones derive the same tree, but for the places; what comes behind is cut
as it would be alone.  The tokens of the original are used only for what the scanner
promises of them: a name is spelled like one, and a value of a literal has a literal.

No parentheses are added, and none are needed: the canonical text has the same chain of
operands and operators as the original, and a chain is grouped in one way only.  A word in
the wrong case that is a name keeps its spelling and follows the same declarations, so it
is a name again.
-/
import Pseudocode.Proofs.Acceptance
import Pseudocode.Proofs.Erasure
import Pseudocode.Proofs.Spelling

namespace Pseudocode

open Derivation Scanner

/-- A token is no FLOAT literal, or one of a finite number. -/
def Token.isFinite (t : Token) : Bool :=
  match t.kind with
  | .literal (.float x) => x.isFinite
  | _ => true

/-- A token as texts have them, and finite. -/
def Token.Readable (t : Token) : Prop :=
  t.kind.Genuine t.lexeme.toList ∧ t.isFinite = true

namespace RoundTrip

/-- The first tokens have the property, and the others are cut from the characters behind
them. -/
def Begins (P : List Token → Prop) (rest : List Char) (ts : List Token) : Prop :=
  ∃ us vs, ts = us ++ vs ∧ P us ∧ Cut rest vs

theorem delimited_of_head {c : Char} {cs : List Char} (h : c ∈ [' ', ')', ',', ':', '\n']) :
    Delimited (c :: cs) := by
  rintro d ⟨⟩
  have hall : ∀ d ∈ [' ', ')', ',', ':', '\n'],
      isNameChar d = false ∧ Numeral.isNumeralChar d = false :=
    forall_mem_of_all (by decide)
  exact hall c h

/-! ### Names -/

section Names

variable {known : List String} {t : Token} {rest : List Char} {ts : List Token}

/-- A token that may be a name is read back as one of the same kind. -/
theorem cut_name (hr : t.Readable) (hk : t.IsName ∨ ∃ r, t.kind = .fault (.wrongCase r))
    (hrest : Delimited rest) (h : Cut (t.lexeme.toList ++ rest) ts) :
    Next (fun u => u.kind = t.kind ∧ u.lexeme = t.lexeme) rest ts := by
  obtain ⟨hword, hkind⟩ : IsWord t.lexeme.toList ∧
      t.kind = .ofWord (.classify (String.ofList t.lexeme.toList)) := by
    have hg := hr.1
    rcases hk with hk | ⟨r, hk⟩
    · have hk : t.kind = .name := hk
      rw [hk] at hg ⊢
      exact hg
    · rw [hk] at hg ⊢
      exact hg
  refine (h.word hword hrest).imp fun u hu => ?_
  rw [hkind, hu.1, hu.2, String.ofList_toList]
  exact ⟨rfl, rfl⟩

theorem cut_isName (hr : t.Readable) (ht : Naming.written.isName known t)
    (hrest : Delimited rest) (h : Cut (t.lexeme.toList ++ rest) ts) :
    Next (fun u => Naming.written.isName known u ∧ u.lexeme = t.lexeme) rest ts := by
  refine (cut_name hr (ht.imp_right And.left) hrest h).imp fun u hu => ⟨?_, hu.2⟩
  rcases ht with ht | ⟨⟨r, hk⟩, hmem⟩
  · exact Or.inl (hu.1.trans ht)
  · exact Or.inr ⟨⟨r, hu.1.trans hk⟩, hu.2 ▸ hmem⟩

theorem cut_isNew (hr : t.Readable) (ht : Naming.written.isNew t)
    (hrest : Delimited rest) (h : Cut (t.lexeme.toList ++ rest) ts) :
    Next (fun u => Naming.written.isNew u ∧ u.lexeme = t.lexeme) rest ts := by
  refine (cut_name hr ht hrest h).imp fun u hu => ⟨?_, hu.2⟩
  rcases ht with ht | ⟨r, hk⟩
  · exact Or.inl (hu.1.trans ht)
  · exact Or.inr ⟨r, hu.1.trans hk⟩

end Names

/-! ### Chains -/

/-- The canonical text of a link: the operator and the operand, each behind a blank. -/
def linkText (link : Link) : List Char :=
  ' ' :: (link.op.val.text.toList ++ ' ' :: link.operand.render.toList)

theorem render_prepend (left : Expr) (op : Located BinOp) (right : Expr) :
    (Expr.prepend left op right).render =
      left.render ++ " " ++ op.val.text ++ " " ++ right.render := by
  fun_induction Expr.prepend left op right with
  | case1 root l r s hlt ih => simp [Expr.join, Expr.render, ih, String.append_assoc]
  | case2 root l r s hge => simp [Expr.join, Expr.render]
  | case3 right hno => simp [Expr.join, Expr.render]

/-- The text of a chain is that of its operands and operators in order. -/
theorem toList_render_ofChain (first : Expr) (links : List Link) :
    (Expr.ofChain first links).render.toList =
      first.render.toList ++ links.flatMap linkText := by
  induction links generalizing first with
  | nil => simp [Expr.ofChain]
  | cons link links ih =>
      rw [Expr.ofChain, render_prepend, List.flatMap_cons]
      simp [ih, linkText]

theorem delimited_links {links : List Link} {rest : List Char} (hrest : Delimited rest) :
    Delimited (links.flatMap linkText ++ rest) := by
  cases links with
  | nil => exact hrest
  | cons link links => exact delimited_of_head (by simp)

/-! ### Expressions -/

/-- What is read back in front of any text is read back between parentheses, too. -/
theorem enclosed {rule : List Token → Expr → Prop} {e : Expr} {span : Span} {rest : List Char}
    {ts : List Token}
    (h : ∀ (rest : List Char) (ts : List Token), Delimited rest →
      Cut (e.render.toList ++ rest) ts →
      Begins (fun us => ∃ e', rule us e' ∧ e'.erase = e.erase) rest ts)
    (hcut : Cut ((Expr.paren e span).render.toList ++ rest) ts) :
    ∃ t us c vs e', ts = t :: us ++ [c] ++ vs ∧ t.kind = .sign .openParen ∧ rule us e' ∧
      c.kind = .sign .closeParen ∧ e'.erase = e.erase ∧ Cut rest vs := by
  have htext : (Expr.paren e span).render.toList ++ rest =
      '(' :: (e.render.toList ++ ')' :: rest) := by simp [Expr.render]
  rw [htext] at hcut
  obtain ⟨t, us, rfl, ht, hcut⟩ := Cut.single rfl rfl hcut
  obtain ⟨us, vs, rfl, ⟨e', he', herase⟩, hcut⟩ := h _ _ (delimited_of_head (by simp)) hcut
  obtain ⟨c, vs, rfl, hc, hvs⟩ := Cut.single rfl rfl hcut
  exact ⟨t, us, c, vs, e', by simp, ht, he', hc, herase, hvs⟩

section Expressions

-- The cases of a derivation are told apart without looking into the rendered texts.
attribute [local irreducible] String.toList

mutual

theorem operand {known : List String} {os : List Token} {e : Expr} {rest : List Char}
    {ts : List Token} (h : Operand (Naming.written.isName known) os e)
    (hr : ∀ t ∈ os, t.Readable) (hrest : Delimited rest)
    (hcut : Cut (e.render.toList ++ rest) ts) :
    Begins (fun us => ∃ e', Operand (Naming.written.isName known) us e' ∧ e'.erase = e.erase)
      rest ts := by
  match h with
  | @Operand.lead _ t op os e ht h =>
      rw [Expr.render, String.toList_append, List.append_assoc] at hcut
      obtain ⟨u, us, rfl, hu, hcut⟩ := hcut.unOp
      obtain ⟨us, vs, rfl, ⟨e', he', herase⟩, hvs⟩ :=
        operand h (fun t ht => hr t (by simp [ht])) hrest hcut
      exact ⟨u :: us, vs, rfl, ⟨_, .lead hu he', by simp [Expr.erase, Located.erase, herase]⟩, hvs⟩
  | .smallest ht hm hv =>
      obtain ⟨u, m, vs, rfl, hu, hm, hv, hvs⟩ := Cut.smallest hrest hcut
      exact ⟨[u, m], vs, rfl, ⟨_, .smallest hu hm hv, rfl⟩, hvs⟩
  | @Operand.name _ t ht =>
      obtain ⟨u, vs, rfl, ⟨hu, hx⟩, hvs⟩ := cut_isName (hr t (by simp)) ht hrest hcut
      exact ⟨[u], vs, rfl, ⟨_, .name hu, by simp [Expr.erase, hx]⟩, hvs⟩
  | @Operand.literal _ t v ht =>
      obtain ⟨hg, hfin⟩ := hr t (by simp)
      rw [ht] at hg
      have hfinite : ∀ x, v = .float x → x.isFinite = true := by
        rintro x rfl
        simpa [Token.isFinite, ht] using hfin
      obtain ⟨u, vs, rfl, hu, hvs⟩ := Cut.literal hg hfinite hrest hcut
      exact ⟨[u], vs, rfl, ⟨_, .literal hu, rfl⟩, hvs⟩
  | @Operand.escape _ t c ht =>
      -- A character in brackets becomes a literal.
      have hc : c ≠ '\n' := by
        rintro rfl
        have hg := (hr t (by simp)).1
        rw [ht] at hg
        cases hg
      obtain ⟨u, vs, rfl, hu, hvs⟩ := Cut.literal (v := .char c) hc (by simp) hrest hcut
      exact ⟨[u], vs, rfl, ⟨_, .literal hu, rfl⟩, hvs⟩
  | @Operand.paren _ t c os e ht h hc =>
      obtain ⟨u, us, c', vs, e', rfl, hu, he', hc', herase, hvs⟩ :=
        enclosed (fun _ _ => expression h fun t ht => hr t (by simp [ht])) hcut
      exact ⟨u :: us ++ [c'], vs, rfl, ⟨_, .paren hu he' hc', by simp [Expr.erase, herase]⟩, hvs⟩

theorem links {known : List String} {os : List Token} {ls : List Link} {rest : List Char}
    {ts : List Token} (h : Links (Naming.written.isName known) os ls)
    (hr : ∀ t ∈ os, t.Readable) (hrest : Delimited rest)
    (hcut : Cut (ls.flatMap linkText ++ rest) ts) :
    Begins (fun us => ∃ ls', Links (Naming.written.isName known) us ls' ∧
      ls'.map Link.erase = ls.map Link.erase) rest ts := by
  match h with
  | .nil => exact ⟨[], ts, rfl, ⟨[], .nil, rfl⟩, hcut⟩
  | @Links.cons _ t op os os' e ls ht h hs =>
      have htext : List.flatMap linkText (⟨⟨op, t.span⟩, e⟩ :: ls) ++ rest =
          ' ' :: (op.text.toList ++ ' ' :: (e.render.toList ++ (ls.flatMap linkText ++ rest))) := by
        simp [linkText]
      rw [htext] at hcut
      obtain ⟨u, us, rfl, hu, hcut⟩ := hcut.blank.binOp
      obtain ⟨us, vs, rfl, ⟨e', he', herase⟩, hcut⟩ :=
        operand h (fun t ht => hr t (by simp [ht])) (delimited_links hrest) hcut.blank
      obtain ⟨ws, vs, rfl, ⟨ls', hls', heraseLinks⟩, hvs⟩ :=
        links hs (fun t ht => hr t (by simp [ht])) hrest hcut
      refine ⟨u :: us ++ ws, vs, by simp, ⟨_, .cons hu he' hls', ?_⟩, hvs⟩
      simp [Link.erase, Located.erase, herase, heraseLinks]

theorem expression {known : List String} {os : List Token} {e : Expr} {rest : List Char}
    {ts : List Token} (h : Expression (Naming.written.isName known) os e)
    (hr : ∀ t ∈ os, t.Readable) (hrest : Delimited rest)
    (hcut : Cut (e.render.toList ++ rest) ts) :
    Begins (fun us => ∃ e', Expression (Naming.written.isName known) us e' ∧ e'.erase = e.erase)
      rest ts := by
  match h with
  | @Expression.chain _ os os' first ls h hs =>
      rw [toList_render_ofChain, List.append_assoc] at hcut
      obtain ⟨us, vs, rfl, ⟨first', hfirst, herase⟩, hcut⟩ :=
        operand h (fun t ht => hr t (by simp [ht])) (delimited_links hrest) hcut
      obtain ⟨ws, vs, rfl, ⟨ls', hls', heraseLinks⟩, hvs⟩ :=
        links hs (fun t ht => hr t (by simp [ht])) hrest hcut
      refine ⟨us ++ ws, vs, by simp, ⟨_, .chain hfirst hls', ?_⟩, hvs⟩
      rw [Expr.erase_ofChain, Expr.erase_ofChain, herase, heraseLinks]

end

end Expressions

/-! ### Statements on one line -/

section Signs

variable {cs : List Char} {ts : List Token}

/-- A text for a sign between two phrases: it ends a name or a numeral in front of it, and
it is cut off as the sign. -/
structure SignText (text : String) (sign : Sign) : Prop where
  delimited : ∀ cs, Delimited (text.toList ++ cs)
  cut : ∀ {cs ts}, Cut (text.toList ++ cs) ts → Next (fun u => u.kind = .sign sign) cs ts

theorem comma : SignText ", " .comma where
  delimited _ := delimited_of_head (c := ',') (by simp)
  cut h := by
    obtain ⟨u, us, rfl, hu, hcut⟩ := Cut.single rfl rfl h
    exact ⟨u, us, rfl, hu, hcut.blank⟩

/-- A sign of one character between blanks. -/
theorem spaced {c : Char} {sign : Sign} (hc : c ∉ ['#', ' ', '\t', '\r'])
    (hp : ∀ cs, Scanner.piece c (' ' :: cs) = (.sign sign, 0)) :
    SignText (String.ofList [' ', c, ' ']) sign where
  delimited _ := by
    rw [String.toList_ofList]
    exact delimited_of_head (by simp)
  cut h := by
    rw [String.toList_ofList] at h
    obtain ⟨u, us, rfl, hu, hcut⟩ := Cut.single (layout_cons _ hc) (hp _) (Cut.blank h)
    exact ⟨u, us, rfl, hu, hcut.blank⟩

theorem ampersand : SignText " & " .ampersand :=
  spaced (by decide) fun _ => rfl

theorem assignSign : SignText " = " .assign :=
  spaced (by decide) fun _ => rfl

theorem delimited_newline : Delimited ('\n' :: cs) :=
  delimited_of_head (by simp)

theorem cut_newline (h : Cut ('\n' :: cs) ts) : Next (fun u => u.kind = .newline) cs ts :=
  Cut.single rfl rfl h

end Signs

/-- Phrases with a sign between each two are read back one by one. -/
theorem separated {α : Type} {sign : Sign} {sep : String} {phrase : List Token → α → Prop}
    {text : α → String} {erase : α → α} {os : List Token} {as : List α} {rest : List Char}
    {ts : List Token} (hsep : SignText sep sign)
    (hphrase : ∀ (os : List Token) (a : α) (rest : List Char) (ts : List Token), phrase os a →
      (∀ t ∈ os, t.Readable) → Delimited rest → Cut ((text a).toList ++ rest) ts →
      Begins (fun us => ∃ a', phrase us a' ∧ erase a' = erase a) rest ts)
    (h : Separated sign phrase os as) (hr : ∀ t ∈ os, t.Readable) (hrest : Delimited rest)
    (hcut : Cut ((String.intercalate sep (as.map text)).toList ++ rest) ts) :
    Begins (fun us => ∃ as', Separated sign phrase us as' ∧ as'.map erase = as.map erase)
      rest ts := by
  induction h generalizing ts with
  | @one os a h =>
      rw [List.map_singleton, String.intercalate_singleton] at hcut
      obtain ⟨us, vs, rfl, ⟨a', ha', herase⟩, hvs⟩ := hphrase os a rest ts h hr hrest hcut
      exact ⟨us, vs, rfl, ⟨[a'], .one ha', by simp [herase]⟩, hvs⟩
  | @cons os os' c a as h hc hs ih =>
      have hne : as.map text ≠ [] := by cases hs <;> simp
      rw [List.map_cons, String.intercalate_cons_of_ne_nil hne] at hcut
      simp only [String.toList_append, List.append_assoc] at hcut
      obtain ⟨us, vs, rfl, ⟨a', ha', herase⟩, hcut⟩ :=
        hphrase os a _ ts h (fun t ht => hr t (by simp [ht])) (hsep.delimited _) hcut
      obtain ⟨u, vs, rfl, hu, hcut⟩ := hsep.cut hcut
      obtain ⟨ws, vs, rfl, ⟨as', has', herases⟩, hvs⟩ := ih (fun t ht => hr t (by simp [ht])) hcut
      exact ⟨us ++ u :: ws, vs, by simp, ⟨a' :: as', .cons ha' hu has', by simp [herase, herases]⟩,
        hvs⟩

theorem shown {known : List String} {os : List Token} {item : Item} {rest : List Char}
    {ts : List Token} (h : Shown (Naming.written.isName known) os item)
    (hr : ∀ t ∈ os, t.Readable) (hrest : Delimited rest)
    (hcut : Cut (item.render.toList ++ rest) ts) :
    Begins (fun us => ∃ item', Shown (Naming.written.isName known) us item' ∧
      item'.erase = item.erase) rest ts := by
  cases h with
  | newline ht =>
      rw [Item.render] at hcut
      obtain ⟨u, vs, rfl, hu, hvs⟩ := Cut.single rfl rfl hcut
      exact ⟨[u], vs, rfl, ⟨_, .newline hu, rfl⟩, hvs⟩
  | expr h =>
      obtain ⟨us, vs, rfl, ⟨e', he', herase⟩, hvs⟩ := expression h hr hrest hcut
      exact ⟨us, vs, rfl, ⟨_, .expr he', by simp [Item.erase, herase]⟩, hvs⟩

theorem reference {known : List String} {os : List Token} {name : Name} {rest : List Char}
    {ts : List Token} (h : Reference (Naming.written.isName known) os name)
    (hr : ∀ t ∈ os, t.Readable) (hrest : Delimited rest)
    (hcut : Cut (name.val.toList ++ rest) ts) :
    Begins (fun us => ∃ name', Reference (Naming.written.isName known) us name' ∧
      name'.erase = name.erase) rest ts := by
  cases h with
  | @mk t ht =>
      obtain ⟨u, vs, rfl, ⟨hu, hx⟩, hvs⟩ := cut_isName (hr t (by simp)) ht hrest hcut
      exact ⟨[u], vs, rfl, ⟨_, .mk hu, by simp [Located.erase, hx]⟩, hvs⟩

/-- What is assigned: the further targets, each with a sign behind it, and the value. -/
theorem assigned {known : List String} {os : List Token} {targets : List Name} {e : Expr}
    {rest : List Char} {ts : List Token}
    (h : Assigned (Naming.written.isName known) os targets e) (hr : ∀ t ∈ os, t.Readable)
    (hrest : Delimited rest)
    (hcut : Cut (targets.flatMap (fun name => name.val.toList ++ " = ".toList) ++
      (e.render.toList ++ rest)) ts) :
    Begins (fun us => ∃ targets' e', Assigned (Naming.written.isName known) us targets' e' ∧
      targets'.map Located.erase = targets.map Located.erase ∧ e'.erase = e.erase) rest ts := by
  induction h generalizing ts with
  | value h =>
      obtain ⟨us, vs, rfl, ⟨e', he', herase⟩, hvs⟩ := expression h hr hrest hcut
      exact ⟨us, vs, rfl, ⟨[], e', .value he', rfl, herase⟩, hvs⟩
  | @target t a os targets e ht ha h ih =>
      rw [List.flatMap_cons, List.append_assoc, List.append_assoc] at hcut
      obtain ⟨u, us, rfl, ⟨hu, hx⟩, hcut⟩ :=
        cut_isName (hr t (by simp)) ht (assignSign.delimited _) hcut
      obtain ⟨b, us, rfl, hb, hcut⟩ := assignSign.cut hcut
      obtain ⟨us, vs, rfl, ⟨targets', e', he', htargets, herase⟩, hvs⟩ :=
        ih (fun t ht => hr t (by simp [ht])) hcut
      refine ⟨u :: b :: us, vs, rfl, ⟨_, e', .target hu hb he', ?_, herase⟩, hvs⟩
      simp [Located.erase, hx, htargets]

/-- The targets of an assignment, written with a sign behind each. -/
theorem toList_targets (first : Name) (targets : List Name) (cs : List Char) :
    (String.intercalate " = " ((first :: targets).map Located.val)).toList ++
        (" = ".toList ++ cs) =
      first.val.toList ++ (" = ".toList ++
        (targets.flatMap (fun name => name.val.toList ++ " = ".toList) ++ cs)) := by
  induction targets generalizing first with
  | nil => rw [List.map_singleton, String.intercalate_singleton]; rfl
  | cons second targets ih =>
      have hne : (second :: targets).map Located.val ≠ [] := by simp
      rw [List.map_cons, String.intercalate_cons_of_ne_nil hne, String.toList_append,
        String.toList_append, List.append_assoc, List.append_assoc, ih second, List.flatMap_cons]
      simp only [List.append_assoc]

/-! ### Declarations -/

theorem declared {known : List String} {os : List Token} {d : Declarator} {rest : List Char}
    {ts : List Token} (h : Declared .written known os d) (hr : ∀ t ∈ os, t.Readable)
    (hrest : Delimited rest) (hcut : Cut (d.render.toList ++ rest) ts) :
    Begins (fun us => ∃ d', Declared .written known us d' ∧ d'.erase = d.erase) rest ts := by
  cases h with
  | @bare t ht =>
      obtain ⟨u, vs, rfl, ⟨hu, hx⟩, hvs⟩ := cut_isNew (hr t (by simp)) ht hrest hcut
      exact ⟨[u], vs, rfl, ⟨_, .bare hu, by simp [Declarator.erase, Located.erase, hx]⟩, hvs⟩
  | @init t a os e ht ha he =>
      have htext : (Declarator.mk ⟨t.lexeme, t.span⟩ (some e)).render.toList ++ rest =
          t.lexeme.toList ++ (" = ".toList ++ (e.render.toList ++ rest)) := by
        simp [Declarator.render]
      rw [htext] at hcut
      obtain ⟨u, us, rfl, ⟨hu, hx⟩, hcut⟩ :=
        cut_isNew (hr t (by simp)) ht (assignSign.delimited _) hcut
      obtain ⟨b, us, rfl, hb, hcut⟩ := assignSign.cut hcut
      obtain ⟨us, vs, rfl, ⟨e', he', herase⟩, hvs⟩ :=
        expression he (fun t ht => hr t (by simp [ht])) hrest hcut
      refine ⟨u :: b :: us, vs, rfl, ⟨_, .init hu hb (hx ▸ he'), ?_⟩, hvs⟩
      simp [Declarator.erase, Located.erase, hx, herase]

/-- The same but for the places is the same name. -/
theorem name_of_erase {d d' : Declarator} (h : d'.erase = d.erase) :
    d'.name.val = d.name.val := by
  have hname := congrArg (fun d : Declarator => d.name.val) h
  exact hname

theorem declaration {known : List String} {os : List Token} {vars : List Declarator}
    {rest : List Char} {ts : List Token} (h : Declaration .written known os vars)
    (hr : ∀ t ∈ os, t.Readable) (hrest : Delimited rest)
    (hcut : Cut ((String.intercalate ", " (vars.map Declarator.render)).toList ++ rest) ts) :
    Begins (fun us => ∃ vars', Declaration .written known us vars' ∧
      vars'.map Declarator.erase = vars.map Declarator.erase) rest ts := by
  induction h generalizing ts with
  | @one known os d h =>
      rw [List.map_singleton, String.intercalate_singleton] at hcut
      obtain ⟨us, vs, rfl, ⟨d', hd', herase⟩, hvs⟩ := declared h hr hrest hcut
      exact ⟨us, vs, rfl, ⟨[d'], .one hd', by simp [herase]⟩, hvs⟩
  | @cons known os os' c d vars h hc hs ih =>
      have hne : vars.map Declarator.render ≠ [] := by cases hs <;> simp
      rw [List.map_cons, String.intercalate_cons_of_ne_nil hne] at hcut
      simp only [String.toList_append, List.append_assoc] at hcut
      obtain ⟨us, vs, rfl, ⟨d', hd', herase⟩, hcut⟩ :=
        declared h (fun t ht => hr t (by simp [ht])) (comma.delimited _) hcut
      obtain ⟨u, vs, rfl, hu, hcut⟩ := comma.cut hcut
      obtain ⟨ws, vs, rfl, ⟨vars', hvars', herases⟩, hvs⟩ :=
        ih (fun t ht => hr t (by simp [ht])) hcut
      rw [← name_of_erase herase] at hvars'
      refine ⟨us ++ u :: ws, vs, by simp, ⟨d' :: vars', .cons hd' hu hvars', ?_⟩, hvs⟩
      simp [herase, herases]

theorem declare_of_erase {known : List String} {vars vars' : List Declarator}
    (h : vars'.map Declarator.erase = vars.map Declarator.erase) :
    declare known vars' = declare known vars := by
  have hnames : ∀ ds : List Declarator, declare known ds =
      (ds.map Declarator.erase).foldl (fun known d => d.name.val :: known) known := by
    intro ds
    rw [List.foldl_map]
    rfl
  rw [hnames, hnames, h]

/-! ### Lines and blocks -/

theorem cut_line {depth : Nat} {text : String} {rest : List Char} {ts : List Token}
    (h : Cut ((renderLine depth text).toList ++ rest) ts) :
    Cut (text.toList ++ '\n' :: rest) ts := by
  have htext : (renderLine depth text).toList ++ rest =
      List.replicate (4 * depth) ' ' ++ (text.toList ++ '\n' :: rest) := by
    simp [renderLine, indentation]
  rw [htext] at h
  exact h.blanks

theorem condition {known : List String} {os : List Token} {cond : Expr} {rest : List Char}
    {ts : List Token} (h : Condition (Naming.written.isName known) os cond)
    (hr : ∀ t ∈ os, t.Readable) (hcut : Cut (cond.render.toList ++ rest) ts) :
    Begins (fun us => ∃ cond', Condition (Naming.written.isName known) us cond' ∧
      cond'.erase = cond.erase) rest ts := by
  cases h with
  | @mk t c os e ht h hc =>
      obtain ⟨u, us, c', vs, e', rfl, hu, he', hc', herase, hvs⟩ :=
        enclosed (fun _ _ => expression h fun t ht => hr t (by simp [ht])) hcut
      exact ⟨u :: us ++ [c'], vs, rfl, ⟨_, .mk hu he' hc', by simp [Expr.erase, herase]⟩, hvs⟩

theorem renderBlock_eq (depth : Nat) (k : Keyword) (text : String) :
    renderBlock depth k text =
      renderLine depth (Keyword.BEGIN.text ++ " " ++ k.text) ++ text ++
        renderLine depth (Keyword.END.text ++ " " ++ k.text) :=
  rfl

/-- A line of two keywords. -/
theorem cut_keywords {depth : Nat} {k k' : Keyword} {rest : List Char} {ts : List Token}
    (h : Cut ((renderLine depth (k.text ++ " " ++ k'.text)).toList ++ rest) ts) :
    ∃ t t' us, ts = t :: t' :: us ∧ t.kind = .keyword k ∧ t'.kind = .keyword k' ∧
      Cut ('\n' :: rest) us := by
  have hline := cut_line h
  simp only [String.toList_append, List.append_assoc] at hline
  obtain ⟨t, us, rfl, ht, hcut⟩ := Cut.keyword (delimited_of_head (c := ' ') (by simp)) hline
  obtain ⟨t', us, rfl, ht', hcut⟩ := Cut.keyword delimited_newline (Cut.blank hcut)
  exact ⟨t, t', us, rfl, ht, ht', hcut⟩

/-- A keyword, a colon and phrases with signs between them, up to the end of the line. -/
theorem listed {α : Type} {k : Keyword} {sign : Sign} {sep : String}
    {phrase : List Token → α → Prop} {text : α → String} {erase : α → α} {os : List Token}
    {as : List α} {rest : List Char} {ts : List Token} (hsep : SignText sep sign)
    (hphrase : ∀ (os : List Token) (a : α) (rest : List Char) (ts : List Token), phrase os a →
      (∀ t ∈ os, t.Readable) → Delimited rest → Cut ((text a).toList ++ rest) ts →
      Begins (fun us => ∃ a', phrase us a' ∧ erase a' = erase a) rest ts)
    (h : Separated sign phrase os as) (hr : ∀ t ∈ os, t.Readable)
    (hcut : Cut ((k.text ++ ": " ++ String.intercalate sep (as.map text)).toList ++
      '\n' :: rest) ts) :
    ∃ t c us nl vs as', ts = t :: c :: us ++ [nl] ++ vs ∧ t.kind = .keyword k ∧
      c.kind = .sign .colon ∧ Separated sign phrase us as' ∧ nl.kind = .newline ∧
      as'.map erase = as.map erase ∧ Cut rest vs := by
  simp only [String.toList_append, List.append_assoc] at hcut
  obtain ⟨t, us, rfl, ht, hcut⟩ := Cut.keyword (delimited_of_head (c := ':') (by simp)) hcut
  obtain ⟨c, us, rfl, hc, hcut⟩ := Cut.single rfl rfl hcut
  obtain ⟨us, vs, rfl, ⟨as', has, herase⟩, hcut⟩ :=
    separated hsep hphrase h hr delimited_newline (Cut.blank hcut)
  obtain ⟨nl, vs, rfl, hnl, hvs⟩ := cut_newline hcut
  exact ⟨t, c, us, nl, vs, as', by simp, ht, hc, has, hnl, herase, hvs⟩

/-- A condition, the block that belongs to it, and the end of the last line. -/
theorem clause {known : List String} {k : Keyword} {os : List Token} {cond : Expr}
    {stmts : List Stmt} {text rest : List Char} {ts : List Token}
    (hc : Condition (Naming.written.isName known) os cond) (hr : ∀ t ∈ os, t.Readable)
    (hbody : ∀ ts, Cut ('\n' :: (text ++ rest)) ts →
      Begins (fun us => ∃ stmts', Body (Naming.written.isName known) k us stmts' ∧
        eraseStmts stmts' = eraseStmts stmts) ('\n' :: rest) ts)
    (hcut : Cut (cond.render.toList ++ '\n' :: (text ++ rest)) ts) :
    ∃ us ws nl vs cond' stmts', ts = us ++ (ws ++ nl :: vs) ∧
      Condition (Naming.written.isName known) us cond' ∧ cond'.erase = cond.erase ∧
      Body (Naming.written.isName known) k ws stmts' ∧ eraseStmts stmts' = eraseStmts stmts ∧
      nl.kind = .newline ∧ Cut rest vs := by
  obtain ⟨us, vs, rfl, ⟨cond', hcond, herase⟩, hcut⟩ := condition hc hr hcut
  obtain ⟨ws, vs, rfl, ⟨stmts', hstmts, herases⟩, hcut⟩ := hbody vs hcut
  obtain ⟨nl, vs, rfl, hnl, hvs⟩ := cut_newline hcut
  exact ⟨us, ws, nl, vs, cond', stmts', rfl, hcond, herase, hstmts, herases, hnl, hvs⟩

section Blocks

attribute [local irreducible] String.toList

mutual

theorem statement {known : List String} {os : List Token} {s : Stmt} {rest : List Char}
    {ts : List Token} (depth : Nat) (h : Statement (Naming.written.isName known) os s)
    (hr : ∀ t ∈ os, t.Readable) (hcut : Cut ((s.render depth).toList ++ rest) ts) :
    Begins (fun us => ∃ s', Statement (Naming.written.isName known) us s' ∧ s'.erase = s.erase)
      rest ts := by
  match h with
  | @Statement.assign _ t a nl os targets e ht ha h hn =>
      have hline := cut_line hcut
      rw [String.toList_append, String.toList_append, List.append_assoc, List.append_assoc,
        toList_targets] at hline
      obtain ⟨u, us, rfl, ⟨hu, hx⟩, hcut⟩ :=
        cut_isName (hr t (by simp)) ht (assignSign.delimited _) hline
      obtain ⟨b, us, rfl, hb, hcut⟩ := assignSign.cut hcut
      obtain ⟨us, vs, rfl, ⟨targets', e', he', htargets, herase⟩, hcut⟩ :=
        assigned h (fun t ht => hr t (by simp [ht])) delimited_newline hcut
      obtain ⟨n, vs, rfl, hn', hvs⟩ := cut_newline hcut
      refine ⟨u :: b :: us ++ [n], vs, by simp, ⟨_, .assign hu hb he' hn', ?_⟩, hvs⟩
      simp [Stmt.erase, Located.erase, hx, htargets, herase]
  | @Statement.display _ t c nl os items ht hc h hn =>
      obtain ⟨u, c', us, n, vs, items', rfl, hu, hc', hitems, hn', herase, hvs⟩ :=
        listed (k := .DISPLAY) ampersand (fun _ _ _ _ => shown) h
          (fun t ht => hr t (by simp [ht])) (cut_line hcut)
      refine ⟨u :: c' :: us ++ [n], vs, rfl, ⟨_, .display hu hc' hitems hn', ?_⟩, hvs⟩
      simp [Stmt.erase, herase]
  | @Statement.scan _ t c nl os targets ht hc h hn =>
      obtain ⟨u, c', us, n, vs, targets', rfl, hu, hc', htargets, hn', herase, hvs⟩ :=
        listed (k := .SCAN) comma (fun _ _ _ _ => reference) h
          (fun t ht => hr t (by simp [ht])) (cut_line hcut)
      refine ⟨u :: c' :: us ++ [n], vs, rfl, ⟨_, .scan hu hc' htargets hn', ?_⟩, hvs⟩
      simp [Stmt.erase, herase]
  | @Statement.ifThen _ t nl os os' os'' cond stmts otherwise ht hc hb hn ho =>
      rw [Stmt.render] at hcut
      simp only [String.toList_append, List.append_assoc] at hcut
      have hline := cut_line hcut
      have htext : ∀ cs, ("IF " ++ cond.render).toList ++ cs =
          Keyword.IF.text.toList ++ ' ' :: (cond.render.toList ++ cs) := by simp [Keyword.text]
      rw [htext] at hline
      obtain ⟨u, us, rfl, hu, hcut⟩ := Cut.keyword (delimited_of_head (by simp)) hline
      obtain ⟨us, ws, n, vs, cond', stmts', rfl, hcond, herase, hstmts, herases, hn', hcut⟩ :=
        clause hc (fun t ht => hr t (by simp [ht]))
          (fun _ => body depth hb fun t ht => hr t (by simp [ht])) hcut.blank
      obtain ⟨xs, vs, rfl, ⟨o', ho', heraseRest⟩, hvs⟩ :=
        clauses depth ho (fun t ht => hr t (by simp [ht])) hcut
      refine ⟨u :: us ++ ws ++ n :: xs, vs, by simp, ⟨_, .ifThen hu hcond hstmts hn' ho', ?_⟩, hvs⟩
      rw [Stmt.erase, Stmt.erase, herase, herases, heraseRest]
  | @Statement.loop _ t nl os os' cond stmts ht hc hb hn =>
      rw [Stmt.render] at hcut
      simp only [String.toList_append, List.append_assoc] at hcut
      have hline := cut_line hcut
      have htext : ∀ cs, ("WHILE " ++ cond.render).toList ++ cs =
          Keyword.WHILE.text.toList ++ ' ' :: (cond.render.toList ++ cs) := by simp [Keyword.text]
      rw [htext] at hline
      obtain ⟨u, us, rfl, hu, hcut⟩ := Cut.keyword (delimited_of_head (by simp)) hline
      obtain ⟨us, ws, n, vs, cond', stmts', rfl, hcond, herase, hstmts, herases, hn', hvs⟩ :=
        clause hc (fun t ht => hr t (by simp [ht]))
          (fun _ => body depth hb fun t ht => hr t (by simp [ht])) hcut.blank
      refine ⟨u :: us ++ ws ++ [n], vs, by simp, ⟨_, .loop hu hcond hstmts hn', ?_⟩, hvs⟩
      rw [Stmt.erase, Stmt.erase, herase, herases]

theorem clauses {known : List String} {os : List Token} {o : Otherwise} {rest : List Char}
    {ts : List Token} (depth : Nat) (h : Clauses (Naming.written.isName known) os o)
    (hr : ∀ t ∈ os, t.Readable) (hcut : Cut ((o.render depth).toList ++ rest) ts) :
    Begins (fun us => ∃ o', Clauses (Naming.written.isName known) us o' ∧ o'.erase = o.erase)
      rest ts := by
  match h with
  | .nothing =>
      rw [Otherwise.render, String.toList_empty, List.nil_append] at hcut
      exact ⟨[], ts, rfl, ⟨_, .nothing, rfl⟩, hcut⟩
  | @Clauses.elseIf _ t i nl ns os os' os'' cond stmts otherwise hns ht hi hc hb hn ho =>
      rw [Otherwise.render] at hcut
      simp only [String.toList_append, List.append_assoc] at hcut
      have hline := cut_line hcut
      have htext : ∀ cs, ("ELSE IF " ++ cond.render).toList ++ cs =
          Keyword.ELSE.text.toList ++ ' ' :: (Keyword.IF.text.toList ++ ' ' ::
            (cond.render.toList ++ cs)) := by simp [Keyword.text]
      rw [htext] at hline
      obtain ⟨u, us, rfl, hu, hcut⟩ := Cut.keyword (delimited_of_head (by simp)) hline
      obtain ⟨i', us, rfl, hi', hcut⟩ := Cut.keyword (delimited_of_head (by simp)) hcut.blank
      obtain ⟨us, ws, n, vs, cond', stmts', rfl, hcond, herase, hstmts, herases, hn', hcut⟩ :=
        clause hc (fun t ht => hr t (by simp [ht]))
          (fun _ => body depth hb fun t ht => hr t (by simp [ht])) hcut.blank
      obtain ⟨xs, vs, rfl, ⟨o', ho', heraseRest⟩, hvs⟩ :=
        clauses depth ho (fun t ht => hr t (by simp [ht])) hcut
      refine ⟨[] ++ u :: i' :: us ++ ws ++ n :: xs, vs, by simp,
        ⟨_, .elseIf newlines_nil hu hi' hcond hstmts hn' ho', ?_⟩, hvs⟩
      rw [Otherwise.erase, Otherwise.erase, herase, herases, heraseRest]
  | @Clauses.bare _ t nl ns os stmts hns ht hb hn =>
      rw [Otherwise.render] at hcut
      simp only [String.toList_append, List.append_assoc] at hcut
      have hline := cut_line hcut
      obtain ⟨u, us, rfl, hu, hcut⟩ := Cut.keyword (k := .ELSE) delimited_newline hline
      obtain ⟨us, vs, rfl, ⟨stmts', hstmts, herases⟩, hcut⟩ :=
        body depth hb (fun t ht => hr t (by simp [ht])) hcut
      obtain ⟨n, vs, rfl, hn', hvs⟩ := cut_newline hcut
      refine ⟨[] ++ u :: us ++ [n], vs, by simp, ⟨_, .bare newlines_nil hu hstmts hn', ?_⟩, hvs⟩
      rw [Otherwise.erase, Otherwise.erase, herases]

theorem body {known : List String} {k : Keyword} {os : List Token} {stmts : List Stmt}
    {rest : List Char} {ts : List Token} (depth : Nat)
    (h : Body (Naming.written.isName known) k os stmts) (hr : ∀ t ∈ os, t.Readable)
    (hcut : Cut ('\n' :: ((renderBlock depth k (renderStmts (depth + 1) stmts)).toList ++ rest))
      ts) :
    Begins (fun us => ∃ stmts', Body (Naming.written.isName known) k us stmts' ∧
      eraseStmts stmts' = eraseStmts stmts) ('\n' :: rest) ts := by
  match h with
  | @Body.mk _ k b bk nl e ek ns os stmts hns hb hbk hn h he hek =>
      rw [renderBlock_eq] at hcut
      simp only [String.toList_append, List.append_assoc] at hcut
      obtain ⟨n, us, rfl, hn', hcut⟩ := cut_newline hcut
      obtain ⟨b', bk', us, rfl, hb', hbk', hcut⟩ := cut_keywords hcut
      obtain ⟨nl', us, rfl, hnl', hcut⟩ := cut_newline hcut
      obtain ⟨us, vs, rfl, ⟨stmts', hstmts, herase⟩, hcut⟩ :=
        block (depth + 1) h (fun t ht => hr t (by simp [ht])) hcut
      obtain ⟨e', ek', vs, rfl, he', hek', hvs⟩ := cut_keywords hcut
      have hone : Newlines [n] := by simp [Newlines, hn']
      refine ⟨[n] ++ b' :: bk' :: nl' :: us ++ [e', ek'], vs, by simp, ⟨stmts', ?_, herase⟩, hvs⟩
      exact .mk hone hb' hbk' hnl' hstmts he' hek'

theorem block {known : List String} {os : List Token} {stmts : List Stmt} {rest : List Char}
    {ts : List Token} (depth : Nat) (h : Block (Naming.written.isName known) os stmts)
    (hr : ∀ t ∈ os, t.Readable) (hcut : Cut ((renderStmts depth stmts).toList ++ rest) ts) :
    Begins (fun us => ∃ stmts', Block (Naming.written.isName known) us stmts' ∧
      eraseStmts stmts' = eraseStmts stmts) rest ts := by
  match h with
  | .nil hns =>
      rw [renderStmts, String.toList_empty, List.nil_append] at hcut
      exact ⟨[], ts, rfl, ⟨[], .nil newlines_nil, rfl⟩, hcut⟩
  | @Block.cons _ ns os os' s stmts hns h hs =>
      rw [renderStmts, String.toList_append, List.append_assoc] at hcut
      obtain ⟨us, vs, rfl, ⟨s', hs', herase⟩, hcut⟩ :=
        statement depth h (fun t ht => hr t (by simp [ht])) hcut
      obtain ⟨ws, vs, rfl, ⟨stmts', hstmts, herases⟩, hvs⟩ :=
        block depth hs (fun t ht => hr t (by simp [ht])) hcut
      refine ⟨[] ++ us ++ ws, vs, by simp, ⟨s' :: stmts', .cons newlines_nil hs' hstmts, ?_⟩, hvs⟩
      rw [eraseStmts, eraseStmts, herase, herases]

end

end Blocks

/-! ### Programs -/

theorem sequence {known : List String} {os : List Token} {stmts : List Stmt} {rest : List Char}
    {ts : List Token} (h : Sequence .written known os stmts) (hr : ∀ t ∈ os, t.Readable)
    (hcut : Cut ((renderStmts 1 stmts).toList ++ rest) ts) :
    Begins (fun us => ∃ stmts', Sequence .written known us stmts' ∧
      eraseStmts stmts' = eraseStmts stmts) rest ts := by
  induction h generalizing ts with
  | block h =>
      obtain ⟨us, vs, rfl, ⟨stmts', hstmts, herases⟩, hvs⟩ := block 1 h hr hcut
      exact ⟨us, vs, rfl, ⟨stmts', .block hstmts, herases⟩, hvs⟩
  | @declare known t nl ty ns os os' vars stmts hns ht h hn hs ih =>
      rw [renderStmts, Stmt.render, String.toList_append, List.append_assoc] at hcut
      have hline := cut_line hcut
      simp only [String.toList_append, List.append_assoc] at hline
      obtain ⟨u, us, rfl, hu, hcut⟩ := Cut.typeName (delimited_of_head (c := ' ') (by simp)) hline
      obtain ⟨us, vs, rfl, ⟨vars', hvars, hnames⟩, hcut⟩ :=
        declaration h (fun t ht => hr t (by simp [ht])) delimited_newline (Cut.blank hcut)
      obtain ⟨n, vs, rfl, hn', hcut⟩ := cut_newline hcut
      obtain ⟨ws, vs, rfl, ⟨stmts', hstmts, herases⟩, hvs⟩ :=
        ih (fun t ht => hr t (by simp [ht])) hcut
      -- The names known behind the declaration are the same ones.
      rw [← declare_of_erase hnames] at hstmts
      refine ⟨[] ++ u :: us ++ n :: ws, vs, by simp,
        ⟨_, .declare newlines_nil hu hvars hn' hstmts, ?_⟩, hvs⟩
      rw [eraseStmts, eraseStmts, Stmt.erase, Stmt.erase, hnames, herases]

theorem whole {os ts : List Token} {p : Program} (h : Whole .written os p)
    (hr : ∀ t ∈ os, t.Readable) (hcut : Cut p.render.toList ts) :
    ∃ q, Whole .written ts q ∧ q.erase = p.erase := by
  cases h with
  | @mk b bc nl e ec eof ns os ms stmts hns hb hbc hn h he hec hms heof =>
      rw [Program.render, renderBlock_eq] at hcut
      rw [← List.append_nil (String.toList _)] at hcut
      simp only [String.toList_append, List.append_assoc] at hcut
      obtain ⟨b', bc', us, rfl, hb', hbc', hcut⟩ := cut_keywords hcut
      obtain ⟨n, us, rfl, hn', hcut⟩ := cut_newline hcut
      obtain ⟨us, vs, rfl, ⟨stmts', hstmts, herases⟩, hcut⟩ :=
        sequence h (fun t ht => hr t (by simp [ht])) hcut
      obtain ⟨e', ec', vs, rfl, he', hec', hcut⟩ := cut_keywords hcut
      obtain ⟨m, vs, rfl, hm, hcut⟩ := cut_newline hcut
      cases hcut with
      | @stop _ eof' _ heof' =>
          have hone : Newlines [m] := by simp [Newlines, hm]
          have := Whole.mk newlines_nil hb' hbc' hn' hstmts he' hec' hone heof'
          refine ⟨_, by simpa using this, ?_⟩
          rw [Program.erase, Program.erase, herases]
      | step hcs => cases hcs

end RoundTrip

namespace Program

/-- **The canonical text is read as the same program.** -/
theorem parse_render {source : String} {p : Program} (hp : parse source = .ok p)
    (hfinite : ∀ t ∈ Token.ofSource source, t.isFinite = true) :
    ∃ q, parse p.render = .ok q ∧ q.erase = p.erase := by
  have hr : ∀ t ∈ Token.ofSource source, t.Readable :=
    fun t ht => ⟨(cut_ofSource source).genuine t ht, hfinite t ht⟩
  obtain ⟨q, hq, herase⟩ := RoundTrip.whole (parse_eq_ok_iff.1 hp) hr (cut_ofSource p.render)
  exact ⟨q, parse_eq_ok_iff.2 hq, herase⟩

/-- **Canonical texts.**  The canonical text of a program that was read from a text with
finite FLOAT literals is read as the same program, but for the places, and so it is its own
canonical text. -/
theorem render_round_trip {source : String} {p : Program} (hp : parse source = .ok p)
    (hfinite : ∀ t ∈ Token.ofSource source, t.isFinite = true) :
    ∃ q, parse p.render = .ok q ∧ q.erase = p.erase ∧ q.render = p.render := by
  obtain ⟨q, hq, herase⟩ := parse_render hp hfinite
  refine ⟨q, hq, herase, ?_⟩
  rw [← q.render_erase, herase, p.render_erase]

/-- A text that is not canonical: it has comments and blanks of its own, and a name that is
a keyword but for its case. -/
def untidyText : String :=
  "# two names\n\nBEGIN  CODE\nINT If=-2147483648,n # If\nFLOAT f=00.50\n\nIF(If<n - 3-f)\n\n" ++
    "BEGIN IF\nn=If=-(7)\nDISPLAY:If&[$]&$&\"50[%]\"\nEND IF\n\nELSE\nBEGIN IF\nSCAN:n,If\n" ++
    "END IF\nEND CODE"

theorem render_round_trip_untidyText :
    ∃ p q, parse untidyText = .ok p ∧ parse p.render = .ok q ∧ q.erase = p.erase ∧
      q.render = p.render := by
  have hfinite : ∀ t ∈ Token.ofSource untidyText, t.isFinite = true := by decide +kernel
  have hread : (parse untidyText >>= fun _ => pure ()) = .ok () := by decide +kernel
  obtain ⟨p, hp, -⟩ := bind_eq_ok.1 hread
  obtain ⟨q, hq, hsame⟩ := render_round_trip hp hfinite
  exact ⟨p, q, hp, hq, hsame⟩

end Program

end Pseudocode

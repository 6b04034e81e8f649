/-
The tree of a chain of operators.

Three descriptions of the tree are compared here.  The first says how it is put together from
the right, operator by operator, which is how expressions are read.  The second says where to
split the chain: at the leftmost of the operators that bind least, and then each of the two
sides in the same way.  The third is a property that a tree has or has not: at every node, the
operators to the left of it bind tighter, and those to the right bind at least as tightly.

A tree with this property is determined by its chain, because the root can only be one of the
operators.  So the property fixes the tree, and to show that some way to build trees gives the
right one it is enough to show that it keeps the chain and has the property.
-/
import Mathlib.Data.List.TakeWhile
import Pseudocode.Expr.Chain

namespace Pseudocode

/-- How tightly the operator of a link binds. -/
def Link.precedence (link : Link) : Nat :=
  link.op.val.precedence

namespace Expr

/-! ### Chains and grouped trees -/

/-- An expression that is no operator between two operands. -/
def isOperand : Expr → Bool
  | .binary .. => false
  | _ => true

/-- The chain that a tree was made from: the operand on its left edge, and from there to the
right the operators that are in no operand, each with the operand behind it. -/
def chain : Expr → Expr × List Link
  | .binary op left right _ =>
    (left.chain.1, left.chain.2 ++ ⟨op, right.chain.1⟩ :: right.chain.2)
  | e => (e, [])

/-- The operators of a tree that are in no operand, so in particular in no parentheses. -/
def operators (e : Expr) : List BinOp :=
  e.chain.2.map fun link => link.op.val

/-- At every node the operators of the left side bind tighter than the node's, and those of
the right side bind at least as tightly; the node itself covers both sides. -/
inductive Grouped : Expr → Prop
  | operand {e : Expr} (h : e.isOperand = true) : Grouped e
  | join {left right : Expr} {op : Located BinOp} (hl : Grouped left) (hr : Grouped right)
      (hleft : ∀ o ∈ left.operators, op.val.precedence < o.precedence)
      (hright : ∀ o ∈ right.operators, op.val.precedence ≤ o.precedence) :
      Grouped (join left op right)

theorem chain_of_isOperand {e : Expr} (h : e.isOperand = true) : e.chain = (e, []) := by
  cases e with
  | binary op left right span => cases h
  | _ => rfl

theorem operators_of_isOperand {e : Expr} (h : e.isOperand = true) : e.operators = [] := by
  rw [operators, chain_of_isOperand h, List.map_nil]

theorem chain_join (left : Expr) (op : Located BinOp) (right : Expr) :
    (join left op right).chain =
      (left.chain.1, left.chain.2 ++ ⟨op, right.chain.1⟩ :: right.chain.2) :=
  rfl

theorem operators_join (left : Expr) (op : Located BinOp) (right : Expr) :
    (join left op right).operators = left.operators ++ op.val :: right.operators := by
  simp [operators, chain_join]

/-- Nothing binds less than the root. -/
theorem root_le {left right : Expr} {op : Located BinOp}
    (hleft : ∀ o ∈ left.operators, op.val.precedence < o.precedence)
    (hright : ∀ o ∈ right.operators, op.val.precedence ≤ o.precedence) :
    ∀ o ∈ (join left op right).operators, op.val.precedence ≤ o.precedence := by
  rw [operators_join]
  refine List.forall_mem_append.2 ⟨fun o ho => Nat.le_of_lt (hleft o ho), ?_⟩
  exact List.forall_mem_cons.2 ⟨Nat.le_refl _, hright⟩

/-! ### A grouped tree is determined by its chain -/

/-- There is one leftmost operator among those that bind least. -/
theorem split_unique {before after before' after' : List Link} {root root' : Link}
    (h : before ++ root :: after = before' ++ root' :: after')
    (hbefore : ∀ link ∈ before, root.precedence < link.precedence)
    (hafter : ∀ link ∈ after, root.precedence ≤ link.precedence)
    (hbefore' : ∀ link ∈ before', root'.precedence < link.precedence)
    (hafter' : ∀ link ∈ after', root'.precedence ≤ link.precedence) :
    before = before' ∧ root = root' ∧ after = after' := by
  rcases List.append_eq_append_iff.1 h with ⟨mid, hmid, hrest⟩ | ⟨mid, hmid, hrest⟩
  · cases mid with
    | nil =>
        obtain ⟨rfl, rfl⟩ := List.cons.inj hrest
        exact ⟨by rw [hmid, List.append_nil], rfl, rfl⟩
    | cons link mid =>
        -- The first root would stand to the left of the second one.
        obtain ⟨rfl, rfl⟩ := List.cons.inj hrest
        have hlt := hbefore' root (by simp [hmid])
        have hle := hafter root' (by simp)
        omega
  · cases mid with
    | nil =>
        obtain ⟨rfl, rfl⟩ := List.cons.inj hrest
        exact ⟨by rw [hmid, List.append_nil], rfl, rfl⟩
    | cons link mid =>
        obtain ⟨rfl, rfl⟩ := List.cons.inj hrest
        have hlt := hbefore root' (by simp [hmid])
        have hle := hafter' root (by simp)
        omega

theorem forall_operators {e : Expr} {P : Nat → Prop} :
    (∀ o ∈ e.operators, P o.precedence) ↔ ∀ link ∈ e.chain.2, P link.precedence := by
  simp only [operators, List.forall_mem_map]
  rfl

/-- **A grouped tree is determined by its chain.** -/
theorem Grouped.eq_of_chain {e : Expr} (h : e.Grouped) :
    ∀ {e' : Expr}, e'.Grouped → e.chain = e'.chain → e = e' := by
  induction h with
  | @operand e he =>
      intro e' h' hchain
      rw [chain_of_isOperand he] at hchain
      cases h' with
      | operand he' =>
          rw [chain_of_isOperand he'] at hchain
          exact (Prod.mk.inj hchain).1
      | join hl hr hleft hright =>
          rw [chain_join] at hchain
          simp at hchain
  | @join left right op hl hr hleft hright ihl ihr =>
      intro e' h' hchain
      rw [chain_join] at hchain
      cases h' with
      | operand he' =>
          rw [chain_of_isOperand he'] at hchain
          simp at hchain
      | @join left' right' op' hl' hr' hleft' hright' =>
          obtain ⟨hfirst, hlinks⟩ := Prod.mk.inj (hchain.trans (chain_join ..))
          obtain ⟨hbefore, hroot, hafter⟩ := split_unique hlinks (forall_operators.1 hleft)
            (forall_operators.1 hright) (forall_operators.1 hleft') (forall_operators.1 hright')
          obtain ⟨hop, hoperand⟩ := Link.mk.inj hroot
          rw [ihl hl' (Prod.ext hfirst hbefore), ihr hr' (Prod.ext hoperand hafter), hop]

/-! ### Building from the right -/

theorem prepend_of_isOperand {e : Expr} (he : e.isOperand = true) (left : Expr)
    (op : Located BinOp) : prepend left op e = join left op e := by
  cases e with
  | binary root l r s => cases he
  | _ => rfl

theorem chain_prepend (left : Expr) (op : Located BinOp) (e : Expr) :
    (prepend left op e).chain = (left.chain.1, left.chain.2 ++ ⟨op, e.chain.1⟩ :: e.chain.2) := by
  induction e with
  | binary root l r s ihl =>
      rw [prepend]
      split
      · rw [chain_join, ihl, chain]
        simp
      · rw [chain_join]
  | _ => rw [prepend_of_isOperand rfl, chain_join]

theorem Grouped.prepend {left : Expr} (hleft : left.isOperand = true) (op : Located BinOp)
    {e : Expr} (h : e.Grouped) : (prepend left op e).Grouped := by
  have hnone : ∀ o ∈ left.operators, op.val.precedence < o.precedence := by
    simp [operators_of_isOperand hleft]
  induction h with
  | operand he =>
      rw [prepend_of_isOperand he]
      exact .join (.operand hleft) (.operand he) hnone (by simp [operators_of_isOperand he])
  | @join l r root hl hr hl' hr' ihl =>
      rw [Expr.join, Expr.prepend]
      split
      · rename_i hlt
        refine .join ihl hr ?_ hr'
        -- What is to the left of the root now are the new operator and what was there before.
        rw [operators, chain_prepend, chain_of_isOperand hleft, List.nil_append, List.map_cons]
        exact List.forall_mem_cons.2 ⟨hlt, hl'⟩
      · rename_i hge
        refine .join (.operand hleft) (.join hl hr hl' hr') hnone fun o ho => ?_
        exact Nat.le_trans (Nat.le_of_not_lt hge) (root_le hl' hr' o ho)

/-- The operands of a chain are not chains themselves. -/
def Operands (first : Expr) (links : List Link) : Prop :=
  first.isOperand = true ∧ ∀ link ∈ links, link.operand.isOperand = true

theorem Operands.tail {first : Expr} {link : Link} {links : List Link}
    (h : Operands first (link :: links)) : Operands link.operand links :=
  List.forall_mem_cons.1 h.2

theorem chain_ofChain {first : Expr} {links : List Link} (h : Operands first links) :
    (ofChain first links).chain = (first, links) := by
  induction links generalizing first with
  | nil => exact chain_of_isOperand h.1
  | cons link links ih =>
      rw [ofChain, chain_prepend, ih h.tail, chain_of_isOperand h.1]
      rfl

theorem grouped_ofChain {first : Expr} {links : List Link} (h : Operands first links) :
    (ofChain first links).Grouped := by
  induction links generalizing first with
  | nil => exact .operand h.1
  | cons link links ih => exact (ih h.tail).prepend h.1 link.op

/-! ### Splitting -/

/-- Whether the operator of a link binds no tighter than any of the others. -/
def bindsLeast (links : List Link) (link : Link) : Bool :=
  links.all fun other => link.precedence ≤ other.precedence

/-- The tree of a chain that is split at the leftmost operator of those that bind least, and
then on both sides in the same way. -/
def ofSplit (first : Expr) (links : List Link) : Expr :=
  match _ : links.dropWhile fun link => !bindsLeast links link with
  | [] => first
  | root :: after =>
    join (ofSplit first (links.takeWhile fun link => !bindsLeast links link)) root.op
      (ofSplit root.operand after)
termination_by links.length
decreasing_by
  all_goals
    rename_i hdrop
    have hlength := congrArg List.length
      (List.takeWhile_append_dropWhile (p := fun link => !bindsLeast links link) (l := links))
    rw [hdrop, List.length_append, List.length_cons] at hlength
    omega

/-- Some operator of a chain binds least. -/
theorem exists_bindsLeast {links : List Link} (hne : links ≠ []) :
    ∃ link ∈ links, bindsLeast links link = true := by
  simp only [bindsLeast, List.all_eq_true, decide_eq_true_eq]
  induction links with
  | nil => exact absurd rfl hne
  | cons link links ih =>
      by_cases hnil : links = []
      · exact ⟨link, by simp, by simp [hnil]⟩
      obtain ⟨least, hmem, hleast⟩ := ih hnil
      by_cases hle : link.precedence ≤ least.precedence
      · refine ⟨link, by simp, List.forall_mem_cons.2 ⟨Nat.le_refl _, fun other hother => ?_⟩⟩
        exact Nat.le_trans hle (hleast other hother)
      · refine ⟨least, by simp [hmem], List.forall_mem_cons.2 ⟨?_, hleast⟩⟩
        exact Nat.le_of_lt (Nat.lt_of_not_le hle)

/-- Where a chain is split: in front of the root all operators bind tighter, and behind it all
bind at least as tightly. -/
theorem ofSplit_cases (first : Expr) (links : List Link) :
    (links = [] ∧ ofSplit first links = first) ∨
      ∃ before root after, links = before ++ root :: after ∧
        (∀ link ∈ before, root.precedence < link.precedence) ∧
        (∀ link ∈ after, root.precedence ≤ link.precedence) ∧
        ofSplit first links = join (ofSplit first before) root.op (ofSplit root.operand after) := by
  have hsplit := List.takeWhile_append_dropWhile
    (p := fun link => !bindsLeast links link) (l := links)
  rw [ofSplit]
  split
  · rename_i hdrop
    refine Or.inl ⟨?_, rfl⟩
    by_contra hne
    obtain ⟨link, hmem, hleast⟩ := exists_bindsLeast hne
    have hnone := List.dropWhile_eq_nil_iff.1 hdrop link hmem
    simp [hleast] at hnone
  · rename_i root after hdrop
    have hroot : bindsLeast links root = true := by
      have hhead := List.head?_dropWhile_not (fun link => !bindsLeast links link) links
      rw [hdrop] at hhead
      simpa using hhead
    have hle : ∀ link ∈ links, root.precedence ≤ link.precedence := by
      simpa [bindsLeast] using hroot
    rw [hdrop] at hsplit
    refine Or.inr ⟨_, root, after, hsplit.symm, fun link hlink => ?_, fun link hlink => ?_, rfl⟩
    · -- A link in front of the root is not one of those that bind least.
      have hno : bindsLeast links link = false := by
        simpa using List.all_eq_true.1 List.all_takeWhile link hlink
      by_contra hge
      have hall : bindsLeast links link = true := by
        simp only [bindsLeast, List.all_eq_true, decide_eq_true_eq]
        intro other hother
        have := hle other hother
        omega
      rw [hno] at hall
      cases hall
    · exact hle link (by rw [← hsplit]; simp [hlink])

theorem Operands.split {first : Expr} {before after : List Link} {root : Link}
    (h : Operands first (before ++ root :: after)) :
    Operands first before ∧ Operands root.operand after := by
  obtain ⟨hbefore, hrest⟩ := List.forall_mem_append.1 h.2
  exact ⟨⟨h.1, hbefore⟩, List.forall_mem_cons.1 hrest⟩

/-- What is split keeps its chain and is grouped. -/
theorem chain_ofSplit {first : Expr} {links : List Link} (h : Operands first links) :
    (ofSplit first links).chain = (first, links) ∧ (ofSplit first links).Grouped := by
  -- The sides of a split are shorter than the chain.
  induction hn : links.length using Nat.strongRecOn generalizing first links with
  | _ n ih =>
      rcases ofSplit_cases first links with ⟨rfl, htree⟩ | hsplit
      · rw [htree]
        exact ⟨chain_of_isOperand h.1, .operand h.1⟩
      · obtain ⟨before, root, after, rfl, hbefore, hafter, htree⟩ := hsplit
        rw [List.length_append, List.length_cons] at hn
        obtain ⟨hl, hr⟩ := h.split
        obtain ⟨hchainl, hgroupl⟩ := ih before.length (by omega) hl rfl
        obtain ⟨hchainr, hgroupr⟩ := ih after.length (by omega) hr rfl
        rw [htree]
        refine ⟨by rw [chain_join, hchainl, hchainr], .join hgroupl hgroupr ?_ ?_⟩
        · exact forall_operators.2 (by rwa [hchainl])
        · exact forall_operators.2 (by rwa [hchainr])

/-- **The grouped tree of a chain is the one that splitting gives**, and there is no other. -/
theorem grouped_iff_eq_ofSplit {first : Expr} {links : List Link} (h : Operands first links)
    (e : Expr) : (e.chain = (first, links) ∧ e.Grouped) ↔ e = ofSplit first links := by
  obtain ⟨hchain, hgrouped⟩ := chain_ofSplit h
  constructor
  · rintro ⟨hechain, he⟩
    exact he.eq_of_chain hgrouped (hechain.trans hchain.symm)
  · rintro rfl
    exact ⟨hchain, hgrouped⟩

theorem ofChain_eq_ofSplit {first : Expr} {links : List Link} (h : Operands first links) :
    ofChain first links = ofSplit first links :=
  (grouped_iff_eq_ofSplit h _).1 ⟨chain_ofChain h, grouped_ofChain h⟩

end Expr

end Pseudocode

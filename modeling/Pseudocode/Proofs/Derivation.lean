/-
The grammar of programs, as rules.

Each rule says which tokens, in which order, spell a phrase, and which tree the phrase
stands for.  There is no order of trying, no looking ahead and no bound on the depth:
a phrase is derivable or it is not.

    Program = NL* BEGIN CODE NL Sequence END CODE NL* EOF
    Sequence = (NL* Declaration NL)* Block
    Block = (NL* Statement)* NL*
    Statement = (Assignment | Display | Scan | Loop) NL | Conditional

What a name is depends on the names declared to the left, so the rules carry those
names along, and they take as a parameter which tokens count as names.  With
`Naming.written` that is said of the tokens of a text as they are, where a reserved word
in the wrong case may be a name; with `Naming.settled` it is said of tokens for which
that question has been answered.

Declarations come first: `Sequence` starts with all of them, and `Block`, which is also
what stands inside of IF and WHILE, has no rule for them.
-/
import Pseudocode.Program.Parse

namespace Pseudocode

/-- A token whose kind is that of a name. -/
def Token.IsName (t : Token) : Prop :=
  t.kind = .name

/-- Which tokens count as names. -/
structure Naming where
  /-- A token that refers to a name, given the names declared to the left of it. -/
  isName : List String → Token → Prop
  /-- A token that introduces a name. -/
  isNew : Token → Prop

namespace Naming

/-- Names in a text: any word that is not reserved; and a reserved word in the wrong
case where a declaration introduces it, or where it spells a name declared before. -/
def written : Naming where
  isName known t :=
    t.IsName ∨ (∃ r, t.kind = .fault (.wrongCase r)) ∧ t.lexeme ∈ known
  isNew t := t.IsName ∨ ∃ r, t.kind = .fault (.wrongCase r)

/-- Names among tokens whose kinds are settled: the tokens of that kind. -/
def settled : Naming where
  isName _ := Token.IsName
  isNew := Token.IsName

end Naming

namespace Derivation

/-- Any number of line ends. -/
def Newlines (ts : List Token) : Prop :=
  ∀ t ∈ ts, t.kind = .newline

/-- The names known behind some declared ones. -/
def declare (known : List String) (vars : List Declarator) : List String :=
  vars.foldl (fun known d => d.name.val :: known) known

/-! ### Expressions -/

mutual

/-- `(+ | - | NOT) Operand`, `-` and the digits of the smallest INT, a name, a literal, a
character in brackets, or `( Expression )`. -/
inductive Operand (isName : Token → Prop) : List Token → Expr → Prop
  | lead {t : Token} {op : UnOp} {ts : List Token} {e : Expr} (ht : t.kind.unOp? = some op)
      (h : Operand isName ts e) :
      Operand isName (t :: ts) (.unary ⟨op, t.span⟩ e (t.span.to e.span))
  | smallest {t m : Token} (ht : t.kind = .sign (.arith .sub))
      (hm : m.kind = .fault .intOutOfRange)
      (hv : Numeral.read m.lexeme.toList = .whole (2 ^ 31)) :
      Operand isName [t, m] (.literal (.int Int32.minValue) (t.span.to m.span))
  | name {t : Token} (ht : isName t) : Operand isName [t] (.var t.lexeme t.span)
  | literal {t : Token} {v : Value} (ht : t.kind = .literal v) :
      Operand isName [t] (.literal v t.span)
  | escape {t : Token} {c : Char} (ht : t.kind = .escape c) :
      Operand isName [t] (.literal (.char c) t.span)
  | paren {t c : Token} {ts : List Token} {e : Expr} (ht : t.kind = .sign .openParen)
      (h : Expression isName ts e) (hc : c.kind = .sign .closeParen) :
      Operand isName (t :: ts ++ [c]) (.paren e (t.span.to c.span))

/-- `(operator Operand)*` -/
inductive Links (isName : Token → Prop) : List Token → List Link → Prop
  | nil : Links isName [] []
  | cons {t : Token} {op : BinOp} {ts us : List Token} {e : Expr} {links : List Link}
      (ht : t.kind.binOp? = some op) (h : Operand isName ts e) (hs : Links isName us links) :
      Links isName (t :: ts ++ us) (⟨⟨op, t.span⟩, e⟩ :: links)

/-- `Operand (operator Operand)*` -/
inductive Expression (isName : Token → Prop) : List Token → Expr → Prop
  | chain {ts us : List Token} {first : Expr} {links : List Link}
      (h : Operand isName ts first) (hs : Links isName us links) :
      Expression isName (ts ++ us) (Expr.ofChain first links)

end

/-! ### Statements on one line -/

/-- One phrase or more, with a sign between each two. -/
inductive Separated {α : Type} (sign : Sign) (phrase : List Token → α → Prop) :
    List Token → List α → Prop
  | one {ts : List Token} {a : α} (h : phrase ts a) : Separated sign phrase ts [a]
  | cons {ts us : List Token} {c : Token} {a : α} {as : List α} (h : phrase ts a)
      (hc : c.kind = .sign sign) (hs : Separated sign phrase us as) :
      Separated sign phrase (ts ++ c :: us) (a :: as)

/-- `name` -/
inductive Reference (isName : Token → Prop) : List Token → Name → Prop
  | mk {t : Token} (ht : isName t) : Reference isName [t] ⟨t.lexeme, t.span⟩

/-- `name [= Expression]`; the new name is known in its own first value. -/
inductive Declared (n : Naming) (known : List String) : List Token → Declarator → Prop
  | bare {t : Token} (ht : n.isNew t) : Declared n known [t] ⟨⟨t.lexeme, t.span⟩, none⟩
  | init {t a : Token} {ts : List Token} {e : Expr} (ht : n.isNew t)
      (ha : a.kind = .sign .assign) (h : Expression (n.isName (t.lexeme :: known)) ts e) :
      Declared n known (t :: a :: ts) ⟨⟨t.lexeme, t.span⟩, some e⟩

/-- `Declared (, Declared)*` -/
inductive Declaration (n : Naming) :
    (known : List String) → List Token → List Declarator → Prop
  | one {known : List String} {ts : List Token} {d : Declarator} (h : Declared n known ts d) :
      Declaration n known ts [d]
  | cons {known : List String} {ts us : List Token} {c : Token} {d : Declarator}
      {vars : List Declarator} (h : Declared n known ts d) (hc : c.kind = .sign .comma)
      (hs : Declaration n (d.name.val :: known) us vars) :
      Declaration n known (ts ++ c :: us) (d :: vars)

/-- `(name =)* Expression`, behind the first sign of an assignment. -/
inductive Assigned (isName : Token → Prop) : List Token → List Name → Expr → Prop
  | value {ts : List Token} {e : Expr} (h : Expression isName ts e) : Assigned isName ts [] e
  | target {t a : Token} {ts : List Token} {targets : List Name} {e : Expr} (ht : isName t)
      (ha : a.kind = .sign .assign) (h : Assigned isName ts targets e) :
      Assigned isName (t :: a :: ts) (⟨t.lexeme, t.span⟩ :: targets) e

/-- `$ | Expression` -/
inductive Shown (isName : Token → Prop) : List Token → Item → Prop
  | newline {t : Token} (ht : t.kind = .sign .dollar) : Shown isName [t] (.newline t.span)
  | expr {ts : List Token} {e : Expr} (h : Expression isName ts e) : Shown isName ts (.expr e)

/-! ### Statements with blocks -/

/-- `( Expression )` -/
inductive Condition (isName : Token → Prop) : List Token → Expr → Prop
  | mk {t c : Token} {ts : List Token} {e : Expr} (ht : t.kind = .sign .openParen)
      (h : Expression isName ts e) (hc : c.kind = .sign .closeParen) :
      Condition isName (t :: ts ++ [c]) (.paren e (t.span.to c.span))

mutual

/-- Every statement but a declaration, with its line end. -/
inductive Statement (isName : Token → Prop) : List Token → Stmt → Prop
  | assign {t a nl : Token} {ts : List Token} {targets : List Name} {e : Expr} (ht : isName t)
      (ha : a.kind = .sign .assign) (h : Assigned isName ts targets e)
      (hn : nl.kind = .newline) :
      Statement isName (t :: a :: ts ++ [nl]) (.assign (⟨t.lexeme, t.span⟩ :: targets) e t.span)
  | display {t c nl : Token} {ts : List Token} {items : List Item}
      (ht : t.kind = .keyword .DISPLAY) (hc : c.kind = .sign .colon)
      (h : Separated .ampersand (Shown isName) ts items) (hn : nl.kind = .newline) :
      Statement isName (t :: c :: ts ++ [nl]) (.display items t.span)
  | scan {t c nl : Token} {ts : List Token} {targets : List Name}
      (ht : t.kind = .keyword .SCAN) (hc : c.kind = .sign .colon)
      (h : Separated .comma (Reference isName) ts targets) (hn : nl.kind = .newline) :
      Statement isName (t :: c :: ts ++ [nl]) (.scan targets t.span)
  | ifThen {t nl : Token} {ts us vs : List Token} {cond : Expr} {body : List Stmt}
      {otherwise : Otherwise} (ht : t.kind = .keyword .IF) (hc : Condition isName ts cond)
      (hb : Body isName .IF us body) (hn : nl.kind = .newline)
      (ho : Clauses isName vs otherwise) :
      Statement isName (t :: ts ++ us ++ nl :: vs) (.ifThen cond body otherwise t.span)
  | loop {t nl : Token} {ts us : List Token} {cond : Expr} {body : List Stmt}
      (ht : t.kind = .keyword .WHILE) (hc : Condition isName ts cond)
      (hb : Body isName .WHILE us body) (hn : nl.kind = .newline) :
      Statement isName (t :: ts ++ us ++ [nl]) (.loop cond body t.span)

/-- `(NL* ELSE IF Condition Body NL)* [NL* ELSE Body NL]` -/
inductive Clauses (isName : Token → Prop) : List Token → Otherwise → Prop
  | nothing : Clauses isName [] .nothing
  | elseIf {t i nl : Token} {ns ts us vs : List Token} {cond : Expr} {body : List Stmt}
      {otherwise : Otherwise} (hns : Newlines ns) (ht : t.kind = .keyword .ELSE)
      (hi : i.kind = .keyword .IF) (hc : Condition isName ts cond)
      (hb : Body isName .IF us body) (hn : nl.kind = .newline)
      (ho : Clauses isName vs otherwise) :
      Clauses isName (ns ++ t :: i :: ts ++ us ++ nl :: vs) (.elseIf cond body otherwise)
  | bare {t nl : Token} {ns us : List Token} {body : List Stmt} (hns : Newlines ns)
      (ht : t.kind = .keyword .ELSE) (hb : Body isName .IF us body) (hn : nl.kind = .newline) :
      Clauses isName (ns ++ t :: us ++ [nl]) (.bare body)

/-- `NL* BEGIN k NL Block END k` -/
inductive Body (isName : Token → Prop) : Keyword → List Token → List Stmt → Prop
  | mk {k : Keyword} {b bk nl e ek : Token} {ns ts : List Token} {body : List Stmt}
      (hns : Newlines ns) (hb : b.kind = .keyword .BEGIN) (hbk : bk.kind = .keyword k)
      (hn : nl.kind = .newline) (h : Block isName ts body) (he : e.kind = .keyword .END)
      (hek : ek.kind = .keyword k) :
      Body isName k (ns ++ b :: bk :: nl :: ts ++ [e, ek]) body

/-- `(NL* Statement)* NL*` -/
inductive Block (isName : Token → Prop) : List Token → List Stmt → Prop
  | nil {ns : List Token} (hns : Newlines ns) : Block isName ns []
  | cons {ns ts us : List Token} {s : Stmt} {rest : List Stmt} (hns : Newlines ns)
      (h : Statement isName ts s) (hs : Block isName us rest) :
      Block isName (ns ++ ts ++ us) (s :: rest)

end

/-! ### Programs -/

/-- `(NL* TYPE Declaration NL)* Block` -/
inductive Sequence (n : Naming) : (known : List String) → List Token → List Stmt → Prop
  | block {known : List String} {ts : List Token} {body : List Stmt}
      (h : Block (n.isName known) ts body) : Sequence n known ts body
  | declare {known : List String} {t nl : Token} {ty : Ty} {ns ts us : List Token}
      {vars : List Declarator} {rest : List Stmt} (hns : Newlines ns)
      (ht : t.kind = .typeName ty) (h : Declaration n known ts vars) (hn : nl.kind = .newline)
      (hs : Sequence n (declare known vars) us rest) :
      Sequence n known (ns ++ t :: ts ++ nl :: us) (.declare ty vars t.span :: rest)

/-- `NL* BEGIN CODE NL Sequence END CODE NL* EOF` -/
inductive Whole (n : Naming) : List Token → Program → Prop
  | mk {b bc nl e ec eof : Token} {ns ts ms : List Token} {body : List Stmt}
      (hns : Newlines ns) (hb : b.kind = .keyword .BEGIN) (hbc : bc.kind = .keyword .CODE)
      (hn : nl.kind = .newline) (h : Sequence n [] ts body) (he : e.kind = .keyword .END)
      (hec : ec.kind = .keyword .CODE) (hms : Newlines ms) (heof : eof.kind = .endOfInput) :
      Whole n (ns ++ b :: bc :: nl :: ts ++ e :: ec :: ms ++ [eof]) ⟨body, b.span⟩

/-! ### Line ends between phrases -/

theorem newlines_nil : Newlines [] := by
  intro t ht
  simp at ht

theorem Newlines.append {ns ms : List Token} (hns : Newlines ns) (hms : Newlines ms) :
    Newlines (ns ++ ms) := by
  intro t ht
  rcases List.mem_append.1 ht with h | h
  · exact hns t h
  · exact hms t h

variable {isName : Token → Prop}

/-- Line ends in front of ELSE clauses belong to the first of them; without any clause
they are empty lines behind the IF. -/
theorem Clauses.absorb {ms us ns : List Token} {o : Otherwise} (hms : Newlines ms)
    (h : Clauses isName us o) (hns : Newlines ns) :
    ∃ us' ns', (∀ rest, ms ++ (us ++ (ns ++ rest)) = us' ++ (ns' ++ rest)) ∧
      Clauses isName us' o ∧ Newlines ns' := by
  cases h with
  | nothing => exact ⟨[], ms ++ ns, by simp, .nothing, hms.append hns⟩
  | @elseIf t i nl ks ts us vs cond body o hks ht hi hc hb hn ho =>
      refine ⟨(ms ++ ks) ++ t :: i :: ts ++ us ++ nl :: vs, ns, by simp, ?_, hns⟩
      exact .elseIf (hms.append hks) ht hi hc hb hn ho
  | @bare t nl ks us body hks ht hb hn =>
      refine ⟨(ms ++ ks) ++ t :: us ++ [nl], ns, by simp, ?_, hns⟩
      exact .bare (hms.append hks) ht hb hn

theorem Block.prepend {ms us : List Token} {body : List Stmt} (hms : Newlines ms)
    (h : Block isName us body) : Block isName (ms ++ us) body := by
  cases h with
  | nil hns => exact .nil (hms.append hns)
  | @cons ns ts us s rest hns h hs =>
      have := Block.cons (hms.append hns) h hs
      simpa using this

theorem Statement.isDeclaration {us : List Token} {s : Stmt} (h : Statement isName us s) :
    s.isDeclaration = false := by
  cases h <;> rfl

end Derivation

end Pseudocode

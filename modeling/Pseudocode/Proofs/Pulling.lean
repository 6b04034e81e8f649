/-
Reading with one token in view.

A program is read from the list of its tokens.  Here it is read without that list: the tokens
are drawn from the text one at a time, and only the last one drawn is in view.  A phrase looks
at the token in view, and when that belongs to the phrase the next one is drawn in its place.
Expressions are grouped while they are read, by the two loops of climbing.

A fault stops a reading as soon as it is drawn, whatever would be read next.  Only digits out of
range right behind a minus sign are let pass, since the two may make up the smallest INT.

Nothing in the rules for reading says that it ends, or that no token is drawn behind the end of
input.  A loop goes round as long as the token in view asks for it, and an operand, a block or
the right side of an operator is read by reading further phrases.  So what bounds a reading here
has nothing to do with the text: it is `fuel`, which goes down by one with each round of a loop
and with each phrase inside of another one, and a reading that needs more is cut off without a
result.  More fuel changes no result.  That there is an amount of fuel with which no reading is
cut off, is shown in `Pseudocode.Proofs.DrawCount`.
-/
import Pseudocode.Program.Parse

namespace Pseudocode

open Grammar (reject unexpected)

/-- Where a reading stands in a text. -/
structure Cursor where
  /-- What further tokens are drawn from. -/
  scanner : Scanner
  /-- What the tokens drawn so far say about names. -/
  context : Token.Context
  /-- The token that was in view before. -/
  previous : Token
  /-- The token in view, which is the last one drawn. -/
  current : Token
  /-- How many tokens have been drawn. -/
  drawn : Nat

namespace Cursor

/-- Draws a token and settles its kind. -/
def draw (scanner : Scanner) (context : Token.Context) (previous : Token) (drawn : Nat) :
    Cursor :=
  let t := { scanner.next.1 with kind := context.resolve scanner.next.1 }
  ⟨scanner.next.2, context.after t, previous, t, drawn + 1⟩

/-- At the start of a text the first token is in view, and none was before it. -/
def ofSource (source : String) : Cursor :=
  draw (.ofSource source) {} (Grammar.peek []) 0

/-- The next token is drawn in place of the one in view. -/
def advance (c : Cursor) : Cursor :=
  draw c.scanner c.context c.current c.drawn

/-- The error of a fault that has come into view, unless it is let pass. -/
def refusal? (c : Cursor) : Option Error :=
  match c.current.kind with
  | .fault f =>
    if f = .intOutOfRange ∧ c.previous.kind = .sign (.arith .sub) then none
    else some { cause := .lexical f c.current.lexeme, span := c.current.span }
  | _ => none

end Cursor

/-- A reading: it may be cut off, and if it ends it leaves the cursor somewhere, with a phrase or
with an error. -/
abbrev Pull := ExceptT Error (StateT Cursor Option)

namespace Pull

/-- A reading that has run out of fuel. -/
def cutOff {α : Type} : Pull α :=
  ExceptT.mk fun _ => none

/-! ### Steps -/

/-- The token in view. -/
def view : Pull Token := do
  return (← get).current

/-- Stops at a fault. -/
def recover : Pull Unit := do
  match (← get).refusal? with
  | some e => throw e
  | none => return ()

/-- Goes on to the next token. -/
def advance : Pull Unit := do
  modify Cursor.advance
  recover

/-- A token of the given kind. -/
def expect (kind : Token.Kind) : Pull Token := do
  let t ← view
  if t.kind = kind then
    advance
    return t
  else throw (unexpected t (.token kind))

/-- A name at its place. -/
def name : Pull (Located String) := do
  let t ← expect .name
  return ⟨t.lexeme, t.span⟩

/-- The end of a statement: a line end, or the end of input, which stays in view. -/
def lineEnd : Pull Unit := do
  let t ← view
  match t.kind with
  | .newline => advance
  | .endOfInput => return ()
  | _ => throw (unexpected t (.token .newline))

/-- Phrases, one after another, as long as the token in view asks for more. -/
def many {α : Type} (more : Token → Bool) (phrase : Pull α) : (fuel : Nat) → Pull (List α)
  | 0 => cutOff
  | fuel + 1 => do
    if more (← view) then
      let a ← phrase
      let as ← many more phrase fuel
      return a :: as
    else return []

/-- Goes behind the line ends in view. -/
def skipNewlines (fuel : Nat) : Pull Unit := do
  let _ ← many (fun t => t.kind = .newline) advance fuel

/-- One phrase or more, with a sign between each two. -/
def separated {α : Type} (sign : Sign) (phrase : Pull α) (fuel : Nat) : Pull (List α) := do
  let first ← phrase
  let others ← many (fun t => t.kind = .sign sign) (do advance; phrase) fuel
  return first :: others

/-! ### Expressions -/

/-- The operand that a token is by itself. -/
def leaf? (t : Token) : Option Expr :=
  match t.kind with
  | .name => some (.var t.lexeme t.span)
  | .literal v => some (.literal v t.span)
  | .escape c => some (.literal (.char c) t.span)
  | _ => none

mutual

/-- An expression: an operand, and the operators that it takes. -/
def expression : (fuel : Nat) → Pull Expr
  | 0 => cutOff
  | fuel + 1 => do
    let first ← operand fuel
    climb fuel 1 first

/-- An operand, possibly with operators before it. -/
def operand : (fuel : Nat) → Pull Expr
  | 0 => cutOff
  | fuel + 1 => do
    let t ← view
    match t.kind.unOp? with
    | some op =>
      advance
      let u ← view
      if op = .minus && Expr.isSmallestMagnitude u then
        advance
        return .literal (.int Int32.minValue) (t.span.to u.span)
      else
        let e ← operand fuel
        return .unary ⟨op, t.span⟩ e (t.span.to e.span)
    | none => primary fuel

/-- An operand without an operator before it. -/
def primary : (fuel : Nat) → Pull Expr
  | 0 => cutOff
  | fuel + 1 => do
    let t ← view
    match leaf? t with
    | some e =>
      advance
      return e
    | none =>
      if t.kind = .sign .openParen then
        advance
        let e ← expression fuel
        let close ← expect (.sign .closeParen)
        return .paren e (t.span.to close.span)
      else throw (unexpected t .expression)

/-- The outer loop: `left` takes the operators in view that bind at least as tightly as
`least`, each with its operand, which is tightened before. -/
def climb : (fuel least : Nat) → (left : Expr) → Pull Expr
  | 0, _, _ => cutOff
  | fuel + 1, least, left => do
    let t ← view
    match t.kind.binOp? with
    | some op =>
      if op.precedence < least then return left
      else
        advance
        let right ← operand fuel
        let right ← tighten fuel op.precedence right
        climb fuel least (left.join ⟨op, t.span⟩ right)
    | none => return left

/-- The inner loop: an operand takes the operators in view that bind at least as tightly as
`least`, by climbing with the precedence of the operator in view. -/
def tighten : (fuel least : Nat) → (right : Expr) → Pull Expr
  | 0, _, _ => cutOff
  | fuel + 1, least, right => do
    match (← view).kind.binOp? with
    | some next =>
      if next.precedence < least then return right
      else
        let right ← climb fuel next.precedence right
        tighten fuel least right
    | none => return right

end

/-! ### Statements on one line -/

/-- A name with an optional first value. -/
def declarator (fuel : Nat) : Pull Declarator := do
  let name ← name
  if (← view).kind = .sign .assign then
    advance
    let init ← expression fuel
    return ⟨name, some init⟩
  else return ⟨name, none⟩

/-- What has been read is the value of an assignment, unless a further sign makes a target of
it. -/
def targets : (fuel : Nat) → (value : Expr) → Pull (List Name × Expr)
  | 0, _ => cutOff
  | fuel + 1, value => do
    let t ← view
    if t.kind = .sign .assign then
      match value with
      | .var name span =>
        advance
        let value ← expression fuel
        let (targets, value) ← targets fuel value
        return (⟨name, span⟩ :: targets, value)
      | _ => throw (reject t .invalidTarget)
    else return ([], value)

/-- A part of what DISPLAY shows. -/
def item (fuel : Nat) : Pull Item := do
  let t ← view
  if t.kind = .sign .dollar then
    advance
    return .newline t.span
  else return .expr (← expression fuel)

/-- A condition: an expression in parentheses. -/
def condition (fuel : Nat) : Pull Expr := do
  let opening ← expect (.sign .openParen)
  let e ← expression fuel
  let closing ← expect (.sign .closeParen)
  return .paren e (opening.span.to closing.span)

/-! ### All statements -/

mutual

/-- The statements up to the END of their block. -/
def statements : (fuel : Nat) → (declarations : Bool) → Pull (List Stmt)
  | 0, _ => cutOff
  | fuel + 1, declarations => do
    skipNewlines fuel
    let t ← view
    match t.kind with
    | .keyword .END => return []
    | .endOfInput => throw (reject t .missingEnd)
    | _ =>
      let s ← statement fuel declarations
      let rest ← statements fuel (declarations && s.isDeclaration)
      return s :: rest

/-- One statement. -/
def statement : (fuel : Nat) → (declarations : Bool) → Pull Stmt
  | 0, _ => cutOff
  | fuel + 1, declarations => do
    let t ← view
    match t.kind with
    | .typeName ty =>
      if declarations then
        advance
        let vars ← separated .comma (declarator fuel) fuel
        lineEnd
        return .declare ty vars t.span
      else throw (reject t .lateDeclaration)
    | .name =>
      advance
      let _ ← expect (.sign .assign)
      let value ← expression fuel
      let (others, value) ← targets fuel value
      lineEnd
      return .assign (⟨t.lexeme, t.span⟩ :: others) value t.span
    | .keyword .DISPLAY =>
      advance
      let _ ← expect (.sign .colon)
      let items ← separated .ampersand (item fuel) fuel
      lineEnd
      return .display items t.span
    | .keyword .SCAN =>
      advance
      let _ ← expect (.sign .colon)
      let names ← separated .comma name fuel
      lineEnd
      return .scan names t.span
    | .keyword .IF =>
      advance
      let cond ← condition fuel
      let body ← clauseBody fuel
      let rest ← otherwise fuel
      return .ifThen cond body rest t.span
    | .keyword .WHILE =>
      advance
      let cond ← condition fuel
      let body ← block fuel .WHILE
      lineEnd
      return .loop cond body t.span
    | _ => throw (reject t (.notAStatement t.lexeme))

/-- A block of the given keyword. -/
def block : (fuel : Nat) → (k : Keyword) → Pull (List Stmt)
  | 0, _ => cutOff
  | fuel + 1, k => do
    skipNewlines fuel
    let _ ← expect (.keyword .BEGIN)
    let _ ← expect (.keyword k)
    lineEnd
    let body ← statements fuel false
    let _ ← expect (.keyword .END)
    let _ ← expect (.keyword k)
    return body

/-- A block of an IF, its line end, and the empty lines behind it. -/
def clauseBody : (fuel : Nat) → Pull (List Stmt)
  | 0 => cutOff
  | fuel + 1 => do
    let body ← block fuel .IF
    lineEnd
    skipNewlines fuel
    return body

/-- An ELSE, with a condition of its own or without one. -/
def clause : (fuel : Nat) → Pull (Option Expr × List Stmt)
  | 0 => cutOff
  | fuel + 1 => do
    advance
    if (← view).kind = .keyword .IF then
      advance
      let cond ← condition fuel
      let body ← clauseBody fuel
      return (some cond, body)
    else
      let body ← clauseBody fuel
      return (none, body)

/-- The ELSE clauses behind a clause. -/
def otherwise : (fuel : Nat) → Pull Otherwise
  | 0 => cutOff
  | fuel + 1 => do
    if (← view).kind = .keyword .ELSE then
      match ← clause fuel with
      | (some cond, body) =>
        let rest ← otherwise fuel
        return .elseIf cond body rest
      | (none, body) =>
        let t ← view
        if t.kind = .keyword .ELSE then throw (reject t .clauseAfterElse)
        else return .bare body
    else return .nothing

end

/-- A program, up to and with the end of input. -/
def program (fuel : Nat) : Pull Program := do
  recover
  skipNewlines fuel
  let start ← expect (.keyword .BEGIN)
  let _ ← expect (.keyword .CODE)
  lineEnd
  let body ← statements fuel true
  let _ ← expect (.keyword .END)
  let _ ← expect (.keyword .CODE)
  skipNewlines fuel
  let _ ← expect .endOfInput
  return { body := body, span := start.span }

/-! ### Runs -/

section Runs

variable {α β : Type} {c c' : Cursor} {x : Pull α} {f : α → Pull β}

theorem bind_of_ok {a : α} (h : x c = some (.ok a, c')) : (x >>= f) c = f a c' := by
  simp only [bind, ExceptT.bind, ExceptT.mk, StateT.bind, ExceptT.bindCont, h]
  rfl

theorem bind_of_error {e : Error} (h : x c = some (.error e, c')) :
    (x >>= f) c = some (.error e, c') := by
  simp only [bind, ExceptT.bind, ExceptT.mk, StateT.bind, ExceptT.bindCont, h]
  rfl

theorem bind_of_none (h : x c = none) : (x >>= f) c = none := by
  simp only [bind, ExceptT.bind, ExceptT.mk, StateT.bind, h]
  rfl

theorem get_bind (f : Cursor → Pull α) (c : Cursor) : (get >>= f) c = f c c :=
  rfl

theorem view_bind (f : Token → Pull α) (c : Cursor) : (view >>= f) c = f c.current c :=
  rfl

theorem recover_of_some {e : Error} (h : c.refusal? = some e) : recover c = some (.error e, c) := by
  rw [recover, get_bind, h]
  rfl

theorem recover_of_none (h : c.refusal? = none) : recover c = some (.ok (), c) := by
  rw [recover, get_bind, h]
  rfl

theorem advance_eq (c : Cursor) : advance c = recover c.advance :=
  rfl

end Runs

/-! ### More fuel -/

section Fuel

variable {α β : Type} {x y : Pull α}

/-- What one reading comes to, the other one comes to as well. -/
def Extends (x y : Pull α) : Prop :=
  ∀ c p, x c = some p → y c = some p

theorem extends_cutOff (y : Pull α) : Extends cutOff y := by
  intro c p h
  cases h

theorem Extends.refl (x : Pull α) : Extends x x :=
  fun _ _ h => h

theorem Extends.bind {f g : α → Pull β} (hx : Extends x y) (hf : ∀ a, Extends (f a) (g a)) :
    Extends (x >>= f) (y >>= g) := by
  intro c p h
  cases hrun : x c with
  | none =>
      rw [bind_of_none hrun] at h
      cases h
  | some q =>
      obtain ⟨r, c'⟩ := q
      cases r with
      | error e =>
          rw [bind_of_error hrun] at h
          rw [bind_of_error (hx c _ hrun), h]
      | ok a =>
          rw [bind_of_ok hrun] at h
          rw [bind_of_ok (hx c _ hrun)]
          exact hf a c' p h

theorem Extends.behind (x : Pull α) {f g : α → Pull β} (hf : ∀ a, Extends (f a) (g a)) :
    Extends (x >>= f) (x >>= g) :=
  (Extends.refl x).bind hf

theorem Extends.ite {x' y' : Pull α} (p : Prop) [Decidable p] (hx : Extends x y)
    (hx' : Extends x' y') : Extends (if p then x else x') (if p then y else y') := by
  by_cases hp : p
  · rw [if_pos hp, if_pos hp]
    exact hx
  · rw [if_neg hp, if_neg hp]
    exact hx'

theorem Extends.add {x : Nat → Pull α} (hx : ∀ fuel, Extends (x fuel) (x (fuel + 1)))
    (fuel k : Nat) : Extends (x fuel) (x (fuel + k)) := by
  induction k with
  | zero => exact .refl _
  | succ k ih =>
      intro c p h
      exact hx (fuel + k) c p (ih c p h)

theorem Extends.many (more : Token → Bool) (hx : Extends x y) (fuel : Nat) :
    Extends (many more x fuel) (many more y (fuel + 1)) := by
  induction fuel with
  | zero => exact extends_cutOff _
  | succ fuel ih =>
      rw [Pull.many, Pull.many]
      refine .behind _ fun t => .ite _ ?_ (.refl _)
      exact hx.bind fun a => ih.bind fun as => .refl _

theorem Extends.separated (sign : Sign) (hx : Extends x y) (fuel : Nat) :
    Extends (separated sign x fuel) (separated sign y (fuel + 1)) :=
  hx.bind fun _ => ((Extends.behind advance fun _ => hx).many _ fuel).bind fun _ => .refl _

theorem extends_skipNewlines (fuel : Nat) :
    Extends (skipNewlines fuel) (skipNewlines (fuel + 1)) :=
  ((Extends.refl advance).many _ fuel).bind fun _ => .refl _

/-- More fuel changes nothing for the readings of expressions, but that they may be cut off
later. -/
structure ExpressionsExtend (fuel : Nat) : Prop where
  expression : Extends (expression fuel) (expression (fuel + 1))
  operand : Extends (operand fuel) (operand (fuel + 1))
  primary : Extends (primary fuel) (primary (fuel + 1))
  climb : ∀ least left, Extends (climb fuel least left) (climb (fuel + 1) least left)
  tighten : ∀ least right, Extends (tighten fuel least right) (tighten (fuel + 1) least right)

theorem expressionsExtend (fuel : Nat) : ExpressionsExtend fuel := by
  induction fuel with
  | zero =>
      exact ⟨extends_cutOff _, extends_cutOff _, extends_cutOff _, fun _ _ => extends_cutOff _,
        fun _ _ => extends_cutOff _⟩
  | succ fuel ih =>
      refine ⟨?_, ?_, ?_, fun least left => ?_, fun least right => ?_⟩
      · rw [expression, expression]
        exact ih.operand.bind fun first => ih.climb 1 first
      · rw [operand, operand]
        refine .behind _ fun t => ?_
        cases t.kind.unOp? with
        | none => exact ih.primary
        | some op =>
            refine .behind _ fun _ => .behind _ fun u => .ite _ (.refl _) ?_
            exact ih.operand.bind fun e => .refl _
      · rw [primary, primary]
        refine .behind _ fun t => ?_
        cases leaf? t with
        | none => exact .ite _ (.behind _ fun _ => ih.expression.bind fun e => .refl _) (.refl _)
        | some e => exact .refl _
      · rw [climb, climb]
        refine .behind _ fun t => ?_
        cases t.kind.binOp? with
        | none => exact .refl _
        | some op =>
            refine .ite _ (.refl _) (.behind _ fun _ => ih.operand.bind fun right => ?_)
            exact (ih.tighten op.precedence right).bind fun right => ih.climb least _
      · rw [tighten, tighten]
        refine .behind _ fun t => ?_
        cases t.kind.binOp? with
        | none => exact .refl _
        | some next =>
            refine .ite _ (.refl _) ?_
            exact (ih.climb next.precedence right).bind fun right => ih.tighten least right

theorem extends_expression (fuel : Nat) : Extends (expression fuel) (expression (fuel + 1)) :=
  (expressionsExtend fuel).expression

theorem extends_declarator (fuel : Nat) : Extends (declarator fuel) (declarator (fuel + 1)) :=
  .behind _ fun _ => .behind _ fun _ => .ite _
    (.behind _ fun _ => (extends_expression fuel).bind fun _ => .refl _) (.refl _)

theorem extends_item (fuel : Nat) : Extends (item fuel) (item (fuel + 1)) :=
  .behind _ fun _ => .ite _ (.refl _) ((extends_expression fuel).bind fun _ => .refl _)

theorem extends_condition (fuel : Nat) : Extends (condition fuel) (condition (fuel + 1)) :=
  .behind _ fun _ => (extends_expression fuel).bind fun _ => .refl _

theorem extends_targets (fuel : Nat) :
    ∀ value, Extends (targets fuel value) (targets (fuel + 1) value) := by
  induction fuel with
  | zero => exact fun _ => extends_cutOff _
  | succ fuel ih =>
      intro value
      rw [targets, targets]
      refine .behind _ fun t => .ite _ ?_ (.refl _)
      cases value with
      | var name span =>
          refine .behind _ fun _ => (extends_expression fuel).bind fun value => ?_
          exact (ih value).bind fun found => .refl _
      | _ => exact .refl _

/-- More fuel changes nothing for the readings of statements, but that they may be cut off
later. -/
structure StatementsExtend (fuel : Nat) : Prop where
  statements : ∀ declarations,
    Extends (statements fuel declarations) (statements (fuel + 1) declarations)
  statement : ∀ declarations,
    Extends (statement fuel declarations) (statement (fuel + 1) declarations)
  block : ∀ k, Extends (block fuel k) (block (fuel + 1) k)
  clauseBody : Extends (clauseBody fuel) (clauseBody (fuel + 1))
  clause : Extends (clause fuel) (clause (fuel + 1))
  otherwise : Extends (otherwise fuel) (otherwise (fuel + 1))

theorem StatementsExtend.statement_succ {fuel : Nat} (ih : StatementsExtend fuel)
    (declarations : Bool) :
    Extends (Pull.statement (fuel + 1) declarations)
      (Pull.statement (fuel + 1 + 1) declarations) := by
  rw [Pull.statement, Pull.statement]
  refine .behind _ fun t => ?_
  cases t.kind with
  | typeName ty =>
      refine .ite _ (.behind _ fun _ => ?_) (.refl _)
      exact ((extends_declarator fuel).separated .comma fuel).bind fun vars => .refl _
  | name =>
      refine .behind _ fun _ => .behind _ fun _ => (extends_expression fuel).bind fun value => ?_
      exact (extends_targets fuel value).bind fun found => .refl _
  | keyword k =>
      cases k with
      | DISPLAY =>
          refine .behind _ fun _ => .behind _ fun _ => ?_
          exact ((extends_item fuel).separated .ampersand fuel).bind fun items => .refl _
      | SCAN =>
          refine .behind _ fun _ => .behind _ fun _ => ?_
          exact ((Extends.refl Pull.name).separated .comma fuel).bind fun names => .refl _
      | IF =>
          refine .behind _ fun _ => (extends_condition fuel).bind fun cond => ?_
          exact ih.clauseBody.bind fun body => ih.otherwise.bind fun rest => .refl _
      | WHILE =>
          refine .behind _ fun _ => (extends_condition fuel).bind fun cond => ?_
          exact (ih.block .WHILE).bind fun body => .refl _
      | _ => exact .refl _
  | _ => exact .refl _

theorem StatementsExtend.statements_succ {fuel : Nat} (ih : StatementsExtend fuel)
    (declarations : Bool) :
    Extends (Pull.statements (fuel + 1) declarations)
      (Pull.statements (fuel + 1 + 1) declarations) := by
  rw [Pull.statements, Pull.statements]
  refine (extends_skipNewlines fuel).bind fun _ => .behind _ fun t => ?_
  have hmore := (ih.statement declarations).bind fun s =>
    (ih.statements (declarations && s.isDeclaration)).bind fun rest => .refl (pure (s :: rest))
  cases t.kind with
  | keyword k =>
      cases k with
      | END => exact .refl _
      | _ => exact hmore
  | endOfInput => exact .refl _
  | _ => exact hmore

theorem statementsExtend (fuel : Nat) : StatementsExtend fuel := by
  induction fuel with
  | zero =>
      exact ⟨fun _ => extends_cutOff _, fun _ => extends_cutOff _, fun _ => extends_cutOff _,
        extends_cutOff _, extends_cutOff _, extends_cutOff _⟩
  | succ fuel ih =>
      refine ⟨ih.statements_succ, ih.statement_succ, fun k => ?_, ?_, ?_, ?_⟩
      · rw [block, block]
        refine (extends_skipNewlines fuel).bind fun _ => .behind _ fun _ => .behind _ fun _ => ?_
        exact .behind _ fun _ => (ih.statements false).bind fun body => .refl _
      · rw [clauseBody, clauseBody]
        refine (ih.block .IF).bind fun body => .behind _ fun _ => ?_
        exact (extends_skipNewlines fuel).bind fun _ => .refl _
      · rw [clause, clause]
        refine .behind _ fun _ => .behind _ fun t => .ite _ (.behind _ fun _ => ?_) ?_
        · exact (extends_condition fuel).bind fun cond => ih.clauseBody.bind fun body => .refl _
        · exact ih.clauseBody.bind fun body => .refl _
      · rw [otherwise, otherwise]
        refine .behind _ fun t => .ite _ (ih.clause.bind fun found => ?_) (.refl _)
        obtain ⟨cond, body⟩ := found
        cases cond with
        | none => exact .refl _
        | some cond => exact ih.otherwise.bind fun rest => .refl _

theorem extends_program (fuel : Nat) : Extends (program fuel) (program (fuel + 1)) := by
  refine .behind _ fun _ => (extends_skipNewlines fuel).bind fun _ => .behind _ fun _ =>
    .behind _ fun _ => ?_
  refine .behind _ fun _ => ((statementsExtend fuel).statements true).bind fun body => ?_
  exact .behind _ fun _ => .behind _ fun _ => (extends_skipNewlines fuel).bind fun _ => .refl _

end Fuel

end Pull

end Pseudocode

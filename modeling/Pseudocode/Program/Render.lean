/-
The canonical text of a program.

One statement a line, inner blocks indented by four blanks, one blank around operators,
and no comments.  Literals are spelled so that they are read as the same value again:
a FLOAT always has a point, and characters with a meaning of their own are in brackets.
-/
import Pseudocode.Program
import Pseudocode.Text.Bracket
import Pseudocode.Word

namespace Pseudocode

namespace Value

/-- The literal for a value. -/
def literalText : Value → String
  | .int n => intText n.toInt
  | .float x => if x.text.contains '.' then x.text else x.text ++ ".0"
  | .char c => "'" ++ String.ofList (Text.bracket c) ++ "'"
  | .bool b => "\"" ++ boolText b ++ "\""
  | .string s => "\"" ++ String.ofList (Text.encodeBrackets s.toList) ++ "\""

end Value

namespace Expr

/-- The canonical text of an expression. -/
def render : Expr → String
  | .binary op left right _ => left.render ++ " " ++ op.val.text ++ " " ++ right.render
  | .unary op operand _ => op.val.lead ++ operand.render
  | .paren inner _ => "(" ++ inner.render ++ ")"
  | .var name _ => name
  | .literal v _ => v.literalText

end Expr

/-- A declared name with its first value. -/
def Declarator.render (d : Declarator) : String :=
  match d.init with
  | none => d.name.val
  | some init => d.name.val ++ " = " ++ init.render

/-- A part of what DISPLAY shows. -/
def Item.render : Item → String
  | .newline _ => "$"
  | .expr e => e.render

/-- The blanks in front of a line. -/
def indentation (depth : Nat) : String :=
  String.ofList (List.replicate (4 * depth) ' ')

/-- A line of text at some depth. -/
def renderLine (depth : Nat) (text : String) : String :=
  indentation depth ++ text ++ "\n"

/-- A block: its lines between the line that opens it and the line that closes it. -/
def renderBlock (depth : Nat) (k : Keyword) (body : String) : String :=
  renderLine depth ("BEGIN " ++ k.text) ++ body ++ renderLine depth ("END " ++ k.text)

mutual

/-- The lines of a statement. -/
def Stmt.render (depth : Nat) : Stmt → String
  | .declare ty vars _ =>
    renderLine depth (ty.text ++ " " ++ String.intercalate ", " (vars.map Declarator.render))
  | .assign targets value _ =>
    renderLine depth
      (String.intercalate " = " (targets.map Located.val) ++ " = " ++ value.render)
  | .display items _ =>
    renderLine depth ("DISPLAY: " ++ String.intercalate " & " (items.map Item.render))
  | .scan targets _ =>
    renderLine depth ("SCAN: " ++ String.intercalate ", " (targets.map Located.val))
  | .ifThen cond body otherwise _ =>
    renderLine depth ("IF " ++ cond.render) ++
      renderBlock depth .IF (renderStmts (depth + 1) body) ++ otherwise.render depth
  | .loop cond body _ =>
    renderLine depth ("WHILE " ++ cond.render) ++
      renderBlock depth .WHILE (renderStmts (depth + 1) body)

/-- The lines of the ELSE clauses. -/
def Otherwise.render (depth : Nat) : Otherwise → String
  | .nothing => ""
  | .elseIf cond body otherwise =>
    renderLine depth ("ELSE IF " ++ cond.render) ++
      renderBlock depth .IF (renderStmts (depth + 1) body) ++ otherwise.render depth
  | .bare body =>
    renderLine depth "ELSE" ++ renderBlock depth .IF (renderStmts (depth + 1) body)

/-- The lines of some statements. -/
def renderStmts (depth : Nat) : List Stmt → String
  | [] => ""
  | s :: rest => s.render depth ++ renderStmts depth rest

end

/-- The canonical text of a program. -/
def Program.render (p : Program) : String :=
  renderBlock 0 .CODE (renderStmts 1 p.body)

end Pseudocode

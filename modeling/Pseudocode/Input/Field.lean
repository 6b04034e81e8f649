/-
The fields of an input line, and the values they spell.

All blanks of a line are dropped, also inside quotes, and commas separate the fields.
For a STRING variable a field is its own text, without one pair of double quotes around
it.  For every other variable the form of the field alone decides what it is: a whole
number or a fraction with an optional sign, a character in single quotes, a truth value
in double quotes, or else text.  Whether the value fits the variable is not decided here.

The forms are looked at in turn, and the first one that fits decides.  The forms of numbers
take the digits of all scripts, while a number is read from those of ASCII.
-/
import Pseudocode.Text.Number
import Pseudocode.Text.Numeric
import Pseudocode.Text.Pattern
import Pseudocode.Value

namespace Pseudocode

namespace Field

/-- The parts of a text between commas; a text without commas is one part. -/
def splitCommas : List Char → List (List Char)
  | [] => [[]]
  | c :: cs =>
    if c = ',' then [] :: splitCommas cs
    else
      match splitCommas cs with
      | [] => [[c]]
      | field :: fields => (c :: field) :: fields

/-- The fields of a line. -/
def ofLine (line : String) : List (List Char) :=
  splitCommas (line.toList.filter (· ≠ ' '))

/-- The text of a field without one pair of double quotes around it. -/
def unquote (field : List Char) : List Char :=
  match field with
  | '"' :: rest => if rest.getLast? = some '"' then rest.dropLast else field
  | _ => field

/-! ### Forms -/

/-- A sign that may be missing. -/
def sign : Text.Part :=
  ⟨fun c => c = '+' || c = '-', .atMostOnce⟩

/-- Digits of any script. -/
def digits (times : Text.Repeat) : Text.Part :=
  ⟨Text.isDecimal, times⟩

/-- The given character. -/
def exactly (c : Char) : Text.Part :=
  ⟨(· = c), .once⟩

def intForm : List Text.Part :=
  [sign, digits .atLeastOnce]

def floatForm : List Text.Part :=
  [sign, digits .any, exactly '.', digits .atLeastOnce]

def charForm : List Text.Part :=
  [exactly '\'', ⟨(· ≠ '\n'), .once⟩, exactly '\'']

/-- The value that a field spells by its form.  A field that has the form of a number but cannot
be read as one, because it is out of range or has digits of another script, is text. -/
def byForm (field : List Char) : Value :=
  let text := .string (String.ofList field)
  if Text.fits intForm field then ((Text.int32? field).map .int).getD text
  else if Text.fits floatForm field then ((Text.single? field).map .float).getD text
  else if Text.fits charForm field then ((field.drop 1).head?.map .char).getD text
  else if field = "\"TRUE\"".toList then .bool true
  else if field = "\"FALSE\"".toList then .bool false
  else text

/-- The value of a field for a variable of type `ty`. -/
def value (ty : Ty) (field : List Char) : Value :=
  if ty = .string then .string (String.ofList (unquote field)) else byForm field

end Field

end Pseudocode

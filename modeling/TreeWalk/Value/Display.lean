import TreeWalk.Program.Printer
import TreeWalk.Value.Basic

/-!
# The text of a value

How a value is shown to the user.  A string is shown bare on its own and in quotes inside an array
or a hash; nothing in it is escaped.  A function is shown as the canonical text of its literal, and
a pending value as the value itself.
-/

set_option autoImplicit false

namespace TreeWalk

/-- The canonical text of the literal that a function value was made from. -/
def Closure.text (c : Closure) : String := c.lambda.toExpr.render

mutual

/-- The text of a value, as it stands inside an array or hash or on its own. -/
def Value.write (inside : Bool) : Value → String
  | .int n => toString n.toInt
  | .bool true => "true"
  | .bool false => "false"
  | .str s => if inside then "\"" ++ s ++ "\"" else s
  | .array items => "[" ++ Value.writeItems items ++ "]"
  | .hash entries => "\x7b" ++ Value.writeEntries entries ++ "\x7d"
  | .closure c => c.text
  | .builtin b => "builtin " ++ b.name
  | .pending v => v.write false
  | .null => "null"

/-- The texts of items, with commas between them. -/
def Value.writeItems : List Value → String
  | [] => ""
  | v :: vs => v.write true ++ Value.writeMoreItems vs

/-- The texts of items, with a comma before each. -/
def Value.writeMoreItems : List Value → String
  | [] => ""
  | v :: vs => ", " ++ v.write true ++ Value.writeMoreItems vs

/-- The texts of hash entries, with commas between them. -/
def Value.writeEntries : List (Key × Value × Value) → String
  | [] => ""
  | (_, k, v) :: rest => k.write true ++ ": " ++ v.write true ++ Value.writeMoreEntries rest

/-- The texts of hash entries, with a comma before each. -/
def Value.writeMoreEntries : List (Key × Value × Value) → String
  | [] => ""
  | (_, k, v) :: rest =>
    ", " ++ k.write true ++ ": " ++ v.write true ++ Value.writeMoreEntries rest

end

/-- The text of a value. -/
def Value.display (v : Value) : String := v.write false

end TreeWalk

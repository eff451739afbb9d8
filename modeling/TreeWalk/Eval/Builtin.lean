import TreeWalk.Eval.Outcome
import TreeWalk.Eval.Operators
import TreeWalk.Value.Display

/-!
# Builtins

The functions that are there without being defined.  Each first checks how many arguments it got.
-/

set_option autoImplicit false

namespace TreeWalk

/-- Accepts a number of arguments, or says how many `name` expects. -/
def Arity.check (arity : Arity) (name : String) (count : Nat) : Except RuntimeError Unit :=
  if arity.accepts count then .ok () else .error (.wrongArgumentCount name arity count)

namespace Builtin

/-- How many arguments a builtin takes. -/
def arity : Builtin → Arity
  | len => .exact 1
  | push => .atLeast 2
  | first => .exact 1
  | last => .exact 1
  | rest => .exact 1
  | puts => .atLeast 0

/-- The length of a string in characters, or of an array or a hash in entries. -/
def length (v : Value) : Except RuntimeError Value :=
  match v with
  | .str s => arithmetic (Checked.fit? s.length)
  | .array items => arithmetic (Checked.fit? items.length)
  | .hash entries => arithmetic (Checked.fit? entries.length)
  | v => .error (.invalidArgument len.name (.noLength v.kind))

/-- What a builtin makes of the items of the array that is its only argument. -/
def onItems (b : Builtin) (f : List Value → Value) (v : Value) : Except RuntimeError Value :=
  match v with
  | .array items => .ok (f items)
  | v => .error (.invalidArgument b.name (.notArray v.kind))

/-- The array without its first item; `null` if it is empty. -/
def tail : List Value → Value
  | [] => .null
  | _ :: items => .array items

/-- The value of a builtin on as many arguments as it accepts.  Printing is not part of it. -/
def value (b : Builtin) (args : List Value) : Except RuntimeError Value :=
  let arg := args.headD .null
  match b with
  | .len => length arg
  | .push =>
    match arg with
    | .array items => .ok (.array (items ++ args.tail))
    | v => .error (.invalidArgument push.name (.firstNotArray v.kind))
  | .first => b.onItems (·.headD .null) arg
  | .last => b.onItems (·.getLastD .null) arg
  | .rest => b.onItems tail arg
  | .puts => .ok .null

/-- The lines that a builtin prints. -/
def lines (b : Builtin) (args : List Value) : List String :=
  match b with
  | .puts => args.map Value.display
  | _ => []

/-- Calls a builtin. -/
def call (b : Builtin) (args : List Value) : Eval Value := do
  Eval.ofExcept (b.arity.check b.name args.length)
  Eval.print (b.lines args)
  Eval.ofExcept (b.value args)

end Builtin

end TreeWalk

import TreeWalk.Eval.Builtin

/-!
# Evaluation

The value of an expression, of statements and of a call.  Operands are evaluated from left to
right, and the first failure stops everything.

A `return` gives a pending value.  A pending value goes out of every expression that it turns up
in, instead of becoming an operand, and ends every block on its way; the function call or program
around it takes the value itself.

Evaluation goes one level deeper for every expression inside another one and for every call.  The
rules are given first, each in terms of `inner`, the evaluation one level deeper; `eval` then bounds
the levels.
-/

set_option autoImplicit false

namespace TreeWalk

namespace Eval

/-- Goes on with the value of an operand, unless a `return` is pending in it. -/
@[inline] def operand (m : Eval Value) (next : Value → Eval Value) : Eval Value := do
  match ← m with
  | .pending v => return .pending v
  | v => next v

section Rules

variable (inner : Nat → Expr → Eval Value) (scope : Nat)

/-- Goes on with the values of operands, evaluated in order. -/
def operands : List Expr → (List Value → Eval Value) → Eval Value
  | [], next => next []
  | e :: es, next => operand (inner scope e) fun v => operands es fun vs => next (v :: vs)

/-- The hash with the given entries and those of a literal.  A key is checked before its value is
evaluated, and of equal keys the last one counts. -/
def entries (filed : List (Key × Value × Value)) : List (Expr × Expr) → Eval Value
  | [] => return .hash filed
  | (key, value) :: rest =>
    operand (inner scope key) fun k => do
      let label ← ofExcept k.key
      operand (inner scope value) fun v => entries (SortedMap.insert label (k, v) filed) rest

/-- The value of a statement; a binding has the value that is bound. -/
def stmt : Stmt → Eval Value
  | .bind name value =>
    operand (inner scope value) fun v => do
      assign scope name v
      return v
  | .ret value => operand (inner scope value) fun v => return .pending v
  | .expr value => inner scope value

/-- The value of the last statement, or the given one if there is none. -/
def stmts (value : Value) : List Stmt → Eval Value
  | [] => return value
  | s :: rest => operand (stmt inner scope s) fun v => stmts v rest

/-- The value of a block.  A pending value ends it. -/
def block (b : Block) : Eval Value := stmts inner scope .null b

/-- The value of a name: what it is bound to, or else the builtin of that name. -/
def ident (name : String) : Eval Value := do
  match ← lookup scope name with
  | some v => return v
  | none =>
    match Builtin.ofName? name with
    | some b => return .builtin b
    | none => fail (.undefinedIdentifier name)

/-- The value of a conditional whose test has the given value. -/
def branch (test : Value) (yes : Block) (no : Option Block) : Eval Value :=
  match test with
  | .bool true => block inner scope yes
  | .bool false =>
    match no with
    | some b => block inner scope b
    | none => return .null
  | v => fail (.conditionNotBoolean v.kind)

end Rules

/-- The value of a call.  The body of a function is evaluated in a new scope inside the one in which
the function was made. -/
def apply (inner : Nat → Expr → Eval Value) (callee : Value) (args : List Value) : Eval Value :=
  match callee with
  | .closure c =>
    if args.length = c.lambda.params.length then do
      let scope ← enter c.scope (SortedMap.ofList (c.lambda.params.zip args))
      let v ← block inner scope c.lambda.body
      return v.settle
    else fail (.arityMismatch c.lambda.params.length args.length)
  | .builtin b => b.call args
  | v => fail (.notCallable v.kind)

/-- The value of an expression. -/
def expr (inner : Nat → Expr → Eval Value) (scope : Nat) : Expr → Eval Value
  | .ident name => ident scope name
  | .int n => return .int n
  | .bool b => return .bool b
  | .str s => return .str s
  | .array items => operands inner scope items fun vs => return .array vs
  | .hash es => entries inner scope [] es
  | .unary op e => operand (inner scope e) fun v => ofExcept (op.apply v)
  | .binary op l r =>
    operand (inner scope l) fun a => operand (inner scope r) fun b => ofExcept (op.apply a b)
  | .index c i =>
    operand (inner scope c) fun a => operand (inner scope i) fun b => ofExcept (a.index b)
  | .cond test yes no => operand (inner scope test) fun v => branch inner scope v yes no
  | .func params body => close scope ⟨params, body⟩
  | .call f args =>
    operand (inner scope f) fun callee =>
      operands inner scope args fun vs => apply inner callee vs

end Eval

/-- The value of an expression in a scope, going no deeper than the given number of levels. -/
def eval : Nat → Nat → Expr → Eval Value
  | 0, _, _ => Eval.exhausted
  | fuel + 1, scope, e => Eval.expr (eval fuel) scope e

/-- The value of a program in a scope: that of its last statement, or of the `return` that ended
it. -/
def Program.eval (fuel scope : Nat) (p : Program) : Eval Value := do
  let v ← Eval.block (TreeWalk.eval fuel) scope p
  return v.settle

/-- The value of a call. -/
def Value.call (fuel : Nat) (callee : Value) (args : List Value) : Eval Value :=
  Eval.apply (eval fuel) callee args

end TreeWalk

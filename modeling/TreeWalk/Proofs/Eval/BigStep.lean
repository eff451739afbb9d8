import TreeWalk.Eval.Basic

/-!
# What programs mean

A semantics of the language in big steps, as relations between where an evaluation starts and where
it ends.  It has no bound on the depth and no pending values: an evaluation ends **normally**, with
a value, or it **breaks off**, because a `return` is on its way or because of an error.

* Operands are evaluated from left to right: the callee before the arguments, the key of an entry
  and the check that it can be a key before the value.
* Whatever breaks off first breaks off everything around it; nothing after it is evaluated.
* A `return` breaks off all expressions and blocks up to the call or the program that it is in,
  which ends with the value that it carries (`Ending.close`).

In `RunsExpr scope s e r t out` and its companions the evaluation starts in the store `s`, ends as
`r` says in the store `t`, and prints the lines `out`.
-/

set_option autoImplicit false

namespace TreeWalk.BigStep

/-- Why an evaluation breaks off. -/
inductive Exit
  /-- A `return` carries this value out. -/
  | returning (v : Value)
  | failing (e : RuntimeError)

/-- How an evaluation ends. -/
inductive Ending (α : Type)
  | normal (a : α)
  | abrupt (x : Exit)

namespace Ending

variable {α β : Type}

/-- The same ending, with another value if there is one. -/
def map (f : α → β) : Ending α → Ending β
  | normal a => normal (f a)
  | abrupt x => abrupt x

/-- The ending of a step that has a value or an error. -/
def ofExcept : Except RuntimeError α → Ending α
  | .ok a => normal a
  | .error e => abrupt (.failing e)

/-- What a call or a program makes of the ending of its body.  A `return` goes no further. -/
def close : Ending Value → Except RuntimeError Value
  | normal v => .ok v
  | abrupt (.returning v) => .ok v
  | abrupt (.failing e) => .error e

end Ending

mutual

/-- The evaluation of an expression. -/
inductive RunsExpr : Nat → Store → Expr → Ending Value → Store → List String → Prop
  | int {scope : Nat} {s : Store} (n : Int64) : RunsExpr scope s (.int n) (.normal (.int n)) s []
  | bool {scope : Nat} {s : Store} (b : Bool) : RunsExpr scope s (.bool b) (.normal (.bool b)) s []
  | str {scope : Nat} {s : Store} (text : String) :
      RunsExpr scope s (.str text) (.normal (.str text)) s []
  | bound {scope : Nat} {s : Store} {name : String} {v : Value}
      (h : s.get? scope name = some v) : RunsExpr scope s (.ident name) (.normal v) s []
  /-- A builtin is found only under a name that is not bound. -/
  | builtin {scope : Nat} {s : Store} {name : String} {b : Builtin}
      (h : s.get? scope name = none) (hb : Builtin.ofName? name = some b) :
      RunsExpr scope s (.ident name) (.normal (.builtin b)) s []
  | undefined {scope : Nat} {s : Store} {name : String} (h : s.get? scope name = none)
      (hb : Builtin.ofName? name = none) :
      RunsExpr scope s (.ident name) (.abrupt (.failing (.undefinedIdentifier name))) s []
  | func {scope : Nat} {s : Store} (params : List String) (body : Block) :
      RunsExpr scope s (.func params body) (.normal (s.close scope ⟨params, body⟩).1)
        (s.close scope ⟨params, body⟩).2 []
  | array {scope : Nat} {s t : Store} {items : List Expr} {r : Ending (List Value)}
      {out : List String} (h : RunsItems scope s items r t out) :
      RunsExpr scope s (.array items) (r.map .array) t out
  | hash {scope : Nat} {s t : Store} {es : List (Expr × Expr)}
      {r : Ending (List (Key × Value × Value))} {out : List String}
      (h : RunsEntries scope s es r t out) :
      RunsExpr scope s (.hash es) (r.map fun entries => .hash (SortedMap.ofList entries)) t out
  | unary {scope : Nat} {s t : Store} {op : UnaryOp} {e : Expr} {v : Value} {out : List String}
      (h : RunsExpr scope s e (.normal v) t out) :
      RunsExpr scope s (.unary op e) (.ofExcept (op.apply v)) t out
  | unaryOperand {scope : Nat} {s t : Store} {op : UnaryOp} {e : Expr} {x : Exit}
      {out : List String} (h : RunsExpr scope s e (.abrupt x) t out) :
      RunsExpr scope s (.unary op e) (.abrupt x) t out
  | binary {scope : Nat} {s t u : Store} {op : BinaryOp} {l r : Expr} {a b : Value}
      {out out' : List String} (hl : RunsExpr scope s l (.normal a) t out)
      (hr : RunsExpr scope t r (.normal b) u out') :
      RunsExpr scope s (.binary op l r) (.ofExcept (op.apply a b)) u (out ++ out')
  | binaryLeft {scope : Nat} {s t : Store} {op : BinaryOp} {l r : Expr} {x : Exit}
      {out : List String} (hl : RunsExpr scope s l (.abrupt x) t out) :
      RunsExpr scope s (.binary op l r) (.abrupt x) t out
  | binaryRight {scope : Nat} {s t u : Store} {op : BinaryOp} {l r : Expr} {a : Value} {x : Exit}
      {out out' : List String} (hl : RunsExpr scope s l (.normal a) t out)
      (hr : RunsExpr scope t r (.abrupt x) u out') :
      RunsExpr scope s (.binary op l r) (.abrupt x) u (out ++ out')
  | index {scope : Nat} {s t u : Store} {c i : Expr} {a b : Value} {out out' : List String}
      (hc : RunsExpr scope s c (.normal a) t out) (hi : RunsExpr scope t i (.normal b) u out') :
      RunsExpr scope s (.index c i) (.ofExcept (a.index b)) u (out ++ out')
  | indexContainer {scope : Nat} {s t : Store} {c i : Expr} {x : Exit} {out : List String}
      (hc : RunsExpr scope s c (.abrupt x) t out) :
      RunsExpr scope s (.index c i) (.abrupt x) t out
  | indexPosition {scope : Nat} {s t u : Store} {c i : Expr} {a : Value} {x : Exit}
      {out out' : List String} (hc : RunsExpr scope s c (.normal a) t out)
      (hi : RunsExpr scope t i (.abrupt x) u out') :
      RunsExpr scope s (.index c i) (.abrupt x) u (out ++ out')
  | condTest {scope : Nat} {s t : Store} {test : Expr} {yes : Block} {no : Option Block} {x : Exit}
      {out : List String} (h : RunsExpr scope s test (.abrupt x) t out) :
      RunsExpr scope s (.cond test yes no) (.abrupt x) t out
  | condTrue {scope : Nat} {s t u : Store} {test : Expr} {yes : Block} {no : Option Block}
      {r : Ending Value} {out out' : List String}
      (h : RunsExpr scope s test (.normal (.bool true)) t out)
      (hyes : RunsBlock scope t yes r u out') :
      RunsExpr scope s (.cond test yes no) r u (out ++ out')
  | condFalse {scope : Nat} {s t u : Store} {test : Expr} {yes no : Block} {r : Ending Value}
      {out out' : List String} (h : RunsExpr scope s test (.normal (.bool false)) t out)
      (hno : RunsBlock scope t no r u out') :
      RunsExpr scope s (.cond test yes (some no)) r u (out ++ out')
  | condNone {scope : Nat} {s t : Store} {test : Expr} {yes : Block} {out : List String}
      (h : RunsExpr scope s test (.normal (.bool false)) t out) :
      RunsExpr scope s (.cond test yes none) (.normal .null) t out
  | condOther {scope : Nat} {s t : Store} {test : Expr} {yes : Block} {no : Option Block}
      {v : Value} {out : List String} (h : RunsExpr scope s test (.normal v) t out)
      (hv : ∀ b, v ≠ .bool b) :
      RunsExpr scope s (.cond test yes no) (.abrupt (.failing (.conditionNotBoolean v.kind))) t out
  | callCallee {scope : Nat} {s t : Store} {f : Expr} {args : List Expr} {x : Exit}
      {out : List String} (hf : RunsExpr scope s f (.abrupt x) t out) :
      RunsExpr scope s (.call f args) (.abrupt x) t out
  | callArgument {scope : Nat} {s t u : Store} {f : Expr} {args : List Expr} {callee : Value}
      {x : Exit} {out out' : List String} (hf : RunsExpr scope s f (.normal callee) t out)
      (hargs : RunsItems scope t args (.abrupt x) u out') :
      RunsExpr scope s (.call f args) (.abrupt x) u (out ++ out')
  | call {scope : Nat} {s t u w : Store} {f : Expr} {args : List Expr} {callee : Value}
      {vs : List Value} {r : Except RuntimeError Value} {out out' out'' : List String}
      (hf : RunsExpr scope s f (.normal callee) t out)
      (hargs : RunsItems scope t args (.normal vs) u out') (h : RunsCall u callee vs r w out'') :
      RunsExpr scope s (.call f args) (.ofExcept r) w (out ++ (out' ++ out''))

/-- The evaluation of operands, from left to right. -/
inductive RunsItems : Nat → Store → List Expr → Ending (List Value) → Store → List String → Prop
  | nil {scope : Nat} {s : Store} : RunsItems scope s [] (.normal []) s []
  | stop {scope : Nat} {s t : Store} {e : Expr} {es : List Expr} {x : Exit} {out : List String}
      (h : RunsExpr scope s e (.abrupt x) t out) : RunsItems scope s (e :: es) (.abrupt x) t out
  | cons {scope : Nat} {s t u : Store} {e : Expr} {es : List Expr} {v : Value}
      {r : Ending (List Value)} {out out' : List String}
      (h : RunsExpr scope s e (.normal v) t out) (hes : RunsItems scope t es r u out') :
      RunsItems scope s (e :: es) (r.map (v :: ·)) u (out ++ out')

/-- The evaluation of the entries of a hash, from left to right. -/
inductive RunsEntries :
    Nat → Store → List (Expr × Expr) → Ending (List (Key × Value × Value)) → Store → List String →
      Prop
  | nil {scope : Nat} {s : Store} : RunsEntries scope s [] (.normal []) s []
  | key {scope : Nat} {s t : Store} {k e : Expr} {es : List (Expr × Expr)} {x : Exit}
      {out : List String} (hk : RunsExpr scope s k (.abrupt x) t out) :
      RunsEntries scope s ((k, e) :: es) (.abrupt x) t out
  | unhashable {scope : Nat} {s t : Store} {k e : Expr} {es : List (Expr × Expr)} {v : Value}
      {out : List String} (hk : RunsExpr scope s k (.normal v) t out) (hkey : v.key? = none) :
      RunsEntries scope s ((k, e) :: es) (.abrupt (.failing (.unhashableKey v.kind))) t out
  | value {scope : Nat} {s t u : Store} {k e : Expr} {es : List (Expr × Expr)} {v : Value}
      {key : Key} {x : Exit} {out out' : List String} (hk : RunsExpr scope s k (.normal v) t out)
      (hkey : v.key? = some key) (he : RunsExpr scope t e (.abrupt x) u out') :
      RunsEntries scope s ((k, e) :: es) (.abrupt x) u (out ++ out')
  | cons {scope : Nat} {s t u w : Store} {k e : Expr} {es : List (Expr × Expr)} {v v' : Value}
      {key : Key} {r : Ending (List (Key × Value × Value))} {out out' out'' : List String}
      (hk : RunsExpr scope s k (.normal v) t out) (hkey : v.key? = some key)
      (he : RunsExpr scope t e (.normal v') u out') (hes : RunsEntries scope u es r w out'') :
      RunsEntries scope s ((k, e) :: es) (r.map ((key, v, v') :: ·)) w (out ++ (out' ++ out''))

/-- The evaluation of a statement. -/
inductive RunsStmt : Nat → Store → Stmt → Ending Value → Store → List String → Prop
  | bind {scope : Nat} {s t : Store} {name : String} {e : Expr} {v : Value} {out : List String}
      (h : RunsExpr scope s e (.normal v) t out) :
      RunsStmt scope s (.bind name e) (.normal v) (t.set scope name v) out
  | bindAbrupt {scope : Nat} {s t : Store} {name : String} {e : Expr} {x : Exit}
      {out : List String} (h : RunsExpr scope s e (.abrupt x) t out) :
      RunsStmt scope s (.bind name e) (.abrupt x) t out
  | ret {scope : Nat} {s t : Store} {e : Expr} {v : Value} {out : List String}
      (h : RunsExpr scope s e (.normal v) t out) :
      RunsStmt scope s (.ret e) (.abrupt (.returning v)) t out
  | retAbrupt {scope : Nat} {s t : Store} {e : Expr} {x : Exit} {out : List String}
      (h : RunsExpr scope s e (.abrupt x) t out) : RunsStmt scope s (.ret e) (.abrupt x) t out
  | expr {scope : Nat} {s t : Store} {e : Expr} {r : Ending Value} {out : List String}
      (h : RunsExpr scope s e r t out) : RunsStmt scope s (.expr e) r t out

/-- The evaluation of a block.  Its value is that of its last statement. -/
inductive RunsBlock : Nat → Store → Block → Ending Value → Store → List String → Prop
  | nil {scope : Nat} {s : Store} : RunsBlock scope s [] (.normal .null) s []
  | last {scope : Nat} {s t : Store} {st : Stmt} {r : Ending Value} {out : List String}
      (h : RunsStmt scope s st r t out) : RunsBlock scope s [st] r t out
  | stop {scope : Nat} {s t : Store} {st : Stmt} {ss : Block} {x : Exit} {out : List String}
      (h : RunsStmt scope s st (.abrupt x) t out) : RunsBlock scope s (st :: ss) (.abrupt x) t out
  | cons {scope : Nat} {s t u : Store} {st st' : Stmt} {ss : Block} {v : Value} {r : Ending Value}
      {out out' : List String} (h : RunsStmt scope s st (.normal v) t out)
      (hss : RunsBlock scope t (st' :: ss) r u out') :
      RunsBlock scope s (st :: st' :: ss) r u (out ++ out')

/-- A call.  The body of a function is evaluated in a new scope inside the one in which the function
was made. -/
inductive RunsCall :
    Store → Value → List Value → Except RuntimeError Value → Store → List String → Prop
  | closure {s t : Store} {c : Closure} {args : List Value} {bindings : List (String × Value)}
      {r : Ending Value} {out : List String} (hlength : args.length = c.lambda.params.length)
      (hbindings : bindings = SortedMap.ofList (c.lambda.params.zip args))
      (h : RunsBlock (s.openScope (some c.scope) bindings).1
        (s.openScope (some c.scope) bindings).2 c.lambda.body r t out) :
      RunsCall s (.closure c) args r.close t out
  | arityMismatch {s : Store} {c : Closure} {args : List Value}
      (hlength : args.length ≠ c.lambda.params.length) :
      RunsCall s (.closure c) args
        (.error (.arityMismatch c.lambda.params.length args.length)) s []
  | builtin {s : Store} {b : Builtin} {args : List Value}
      (hcount : b.arity.accepts args.length = true) :
      RunsCall s (.builtin b) args (b.value args) s (b.lines args)
  | wrongCount {s : Store} {b : Builtin} {args : List Value}
      (hcount : b.arity.accepts args.length = false) :
      RunsCall s (.builtin b) args (.error (.wrongArgumentCount b.name b.arity args.length)) s []
  | notCallable {s : Store} {callee : Value} {args : List Value}
      (hclosure : ∀ c, callee ≠ .closure c) (hbuiltin : ∀ b, callee ≠ .builtin b) :
      RunsCall s callee args (.error (.notCallable callee.kind)) s []

end

/-- The evaluation of a program. -/
inductive RunsProgram :
    Nat → Store → Program → Except RuntimeError Value → Store → List String → Prop
  | close {scope : Nat} {s t : Store} {p : Program} {r : Ending Value} {out : List String}
      (h : RunsBlock scope s p r t out) : RunsProgram scope s p r.close t out

end TreeWalk.BigStep

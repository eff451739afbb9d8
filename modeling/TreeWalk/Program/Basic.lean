/-!
# Programs

The tree that a source text stands for.  A program is a list of statements; everything else is an
expression, conditionals and function literals included, and these two hold statements again.

Parentheses are not part of the tree: the shape of the tree says how operators group.
-/

set_option autoImplicit false

namespace TreeWalk

/-- The operators of one operand. -/
inductive UnaryOp
  | neg
  | not
  deriving DecidableEq, Repr

/-- The operators of two operands. -/
inductive BinaryOp
  | add
  | sub
  | mul
  | div
  | eq
  | ne
  | lt
  | le
  | gt
  | ge
  deriving DecidableEq, Repr

mutual

/-- An expression. -/
inductive Expr
  | ident (name : String)
  /-- An integer literal.  A source has only literals that are not negative; `-1` is `neg`
  applied to `1`. -/
  | int (value : Int64)
  | bool (value : Bool)
  | str (value : String)
  | array (items : List Expr)
  /-- A hash literal, with its entries in the order of the source. -/
  | hash (entries : List (Expr × Expr))
  | unary (op : UnaryOp) (operand : Expr)
  | binary (op : BinaryOp) (left right : Expr)
  | index (container position : Expr)
  /-- A conditional; a missing `else` differs from an empty one. -/
  | cond (test : Expr) (yes : List Stmt) (no : Option (List Stmt))
  | func (params : List String) (body : List Stmt)
  | call (callee : Expr) (args : List Expr)

/-- A statement. -/
inductive Stmt
  /-- Binds a name in the current scope. -/
  | bind (name : String) (value : Expr)
  /-- Ends the enclosing function call, or the program. -/
  | ret (value : Expr)
  | expr (value : Expr)

end

/-- The statements between two braces. -/
abbrev Block := List Stmt

/-- A program: the statements of one source text. -/
abbrev Program := List Stmt

/-- The parameters and the body of a function literal. -/
structure Lambda where
  params : List String
  body : Block

end TreeWalk

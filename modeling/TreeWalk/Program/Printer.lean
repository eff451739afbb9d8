import TreeWalk.Program.Basic
import TreeWalk.Token.Piece

/-!
# The canonical text of a program

Every program has one canonical text: operators and index expressions in parentheses, one blank
around binary operators and after commas, each statement closed by a semicolon and statements
written back to back.

The text is defined through the pieces that it consists of (`Expr.pieces`, `Stmt.pieces`), so that
its tokens can be read off it without cutting it up again.
-/

set_option autoImplicit false

namespace TreeWalk

open Token (Piece Kind)

/-- The token kind by which an operator is written. -/
def UnaryOp.kind : UnaryOp → Kind
  | neg => .minus
  | not => .bang

/-- The symbol of an operator. -/
def UnaryOp.symbol (op : UnaryOp) : String := op.kind.text

/-- The token kind by which an operator is written. -/
def BinaryOp.kind : BinaryOp → Kind
  | add => .plus
  | sub => .minus
  | mul => .star
  | div => .slash
  | eq => .equalEqual
  | ne => .bangEqual
  | lt => .less
  | le => .lessEqual
  | gt => .greater
  | ge => .greaterEqual

/-- The symbol of an operator. -/
def BinaryOp.symbol (op : BinaryOp) : String := op.kind.text

/-- A comma and a blank. -/
def commaPieces : List Piece := [.mark .comma, .space]

/-- The pieces of a parameter list, without its parentheses. -/
def paramPieces : List String → List Piece
  | [] => []
  | p :: ps => .lexeme .identifier p :: ps.flatMap fun q => commaPieces ++ [.lexeme .identifier q]

mutual

/-- The pieces of an expression. -/
def Expr.pieces : Expr → List Piece
  | .ident name => [.lexeme .identifier name]
  | .int value => [.lexeme .number (toString value.toInt)]
  | .bool true => [.mark .kwTrue]
  | .bool false => [.mark .kwFalse]
  | .str value => [.lexeme .string value]
  | .array items => .mark .lbracket :: (Expr.itemPieces items ++ [.mark .rbracket])
  | .hash entries => .mark .lbrace :: (Expr.entryPieces entries ++ [.mark .rbrace])
  | .unary op operand => .mark .lparen :: .mark op.kind :: (operand.pieces ++ [.mark .rparen])
  | .binary op left right =>
    .mark .lparen :: (left.pieces ++ [.space, .mark op.kind, .space] ++ right.pieces ++
      [.mark .rparen])
  | .index container position =>
    .mark .lparen :: (container.pieces ++ [.mark .lbracket] ++ position.pieces ++
      [.mark .rbracket, .mark .rparen])
  | .cond test yes no =>
    .mark .kwIf :: .space :: .mark .lparen :: (test.pieces ++
      [.mark .rparen, .space, .mark .lbrace] ++ Stmt.listPieces yes ++ [.mark .rbrace] ++
      Stmt.elsePieces no)
  | .func params body =>
    .mark .kwFunc :: .mark .lparen :: (paramPieces params ++
      [.mark .rparen, .space, .mark .lbrace] ++ Stmt.listPieces body ++ [.mark .rbrace])
  | .call callee args =>
    callee.pieces ++ [.mark .lparen] ++ Expr.itemPieces args ++ [.mark .rparen]

/-- The pieces of expressions with commas between them. -/
def Expr.itemPieces : List Expr → List Piece
  | [] => []
  | e :: es => e.pieces ++ Expr.moreItemPieces es

/-- The pieces of expressions with a comma before each. -/
def Expr.moreItemPieces : List Expr → List Piece
  | [] => []
  | e :: es => commaPieces ++ e.pieces ++ Expr.moreItemPieces es

/-- The pieces of hash entries with commas between them. -/
def Expr.entryPieces : List (Expr × Expr) → List Piece
  | [] => []
  | (k, v) :: es => k.pieces ++ [.mark .colon, .space] ++ v.pieces ++ Expr.moreEntryPieces es

/-- The pieces of hash entries with a comma before each. -/
def Expr.moreEntryPieces : List (Expr × Expr) → List Piece
  | [] => []
  | (k, v) :: es =>
    commaPieces ++ k.pieces ++ [.mark .colon, .space] ++ v.pieces ++ Expr.moreEntryPieces es

/-- The pieces of a statement, its semicolon included. -/
def Stmt.pieces : Stmt → List Piece
  | .bind name value =>
    [.mark .kwVar, .space, .lexeme .identifier name, .space, .mark .assign, .space] ++
      value.pieces ++ [.mark .semicolon]
  | .ret value => [.mark .kwReturn, .space] ++ value.pieces ++ [.mark .semicolon]
  | .expr value => value.pieces ++ [.mark .semicolon]

/-- The pieces of statements, one after the other. -/
def Stmt.listPieces : List Stmt → List Piece
  | [] => []
  | s :: ss => s.pieces ++ Stmt.listPieces ss

/-- The pieces of the `else` part of a conditional, if it has one. -/
def Stmt.elsePieces : Option (List Stmt) → List Piece
  | none => []
  | some block =>
    [.space, .mark .kwElse, .space, .mark .lbrace] ++ Stmt.listPieces block ++ [.mark .rbrace]

end

/-- The canonical text of an expression. -/
def Expr.render (e : Expr) : String := Piece.written e.pieces

/-- The canonical text of a program. -/
def Program.render (p : Program) : String := Piece.written (Stmt.listPieces p)

/-- A function literal as an expression. -/
def Lambda.toExpr (f : Lambda) : Expr := .func f.params f.body

end TreeWalk

import TreeWalk.Program.Parser

/-!
# Reading a source step by step

A cursor stands on a token of a source.  Reading an expression leaves it on the **last** token of
that expression, so that the next step looks at this token again; reading a program leaves it at
the end of the source.
-/

set_option autoImplicit false

namespace TreeWalk

/-- A place in a source: the tokens from the current one on, and the line on which the source
ends. -/
structure Cursor where
  tokens : List Token
  last : Nat
  deriving DecidableEq, Repr

namespace Cursor

/-- The start of a source text. -/
def ofSource (source : String) : Cursor :=
  let stream := Token.Stream.ofSource source
  ⟨stream.tokens, stream.lastLine⟩

/-- The token on which the cursor stands. -/
def current (c : Cursor) : Token := Parser.front c.last c.tokens

/-- Reads an expression whose operators bind more tightly than `level`. -/
def expr (c : Cursor) (level : Level) : Except ParseError (Expr × Cursor) := do
  let ⟨e, rest, _⟩ ← Parser.expr c.last level c.tokens
  return (e, { c with tokens := c.tokens.drop (c.tokens.length - rest.length - 1) })

/-- Reads statements up to the end of the source. -/
def program (c : Cursor) : Except ParseError (Program × Cursor) := do
  let p ← Parser.program c.last c.tokens
  return (p, { c with tokens := [] })

end Cursor

/-- The expression at the start of a source text; what follows it is not looked at. -/
def Expr.parse (source : String) : Except ParseError Expr := do
  let (e, _) ← (Cursor.ofSource source).expr .lowest
  return e

end TreeWalk

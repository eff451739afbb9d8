/-!
# Errors of parsing

Parsing stops at the first token that cannot stand where it does.  The error names that token, as
it is displayed, and its line.
-/

set_option autoImplicit false

namespace TreeWalk

/-- Why a source text is not a program. -/
inductive ParseError
  /-- Another token has to stand here. -/
  | unexpectedToken (expected found : String) (line : Nat)
  /-- No expression starts with this token. -/
  | expressionExpected (found : String) (line : Nat)
  /-- No expression goes on with this token. -/
  | cannotContinue (found : String) (line : Nat)
  /-- The integer literal is not representable. -/
  | integerTooLarge (literal : String) (line : Nat)
  deriving DecidableEq, Repr

namespace ParseError

/-- The line of the token at which parsing stopped. -/
def line : ParseError → Nat
  | unexpectedToken _ _ line => line
  | expressionExpected _ line => line
  | cannotContinue _ line => line
  | integerTooLarge _ line => line

/-- What went wrong, without the line. -/
def reason : ParseError → String
  | unexpectedToken expected found _ => "Expected " ++ expected ++ ", found " ++ found ++ "."
  | expressionExpected found _ => "Expected an expression, found " ++ found ++ "."
  | cannotContinue found _ => found ++ " cannot continue an expression."
  | integerTooLarge literal _ => "Integer literal " ++ literal ++ " is too large."

/-- The text that is shown for the error. -/
def message (e : ParseError) : String :=
  "Error on line " ++ toString e.line ++ ": " ++ e.reason

end ParseError

end TreeWalk

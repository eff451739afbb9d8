import TreeWalk.Program.Printer
import TreeWalk.Value.Basic

/-!
# Errors of evaluation

The reasons for which a program stops, and the one place where they are put into words.
-/

set_option autoImplicit false

namespace TreeWalk

/-- How many arguments a builtin takes. -/
inductive Arity
  | exact (n : Nat)
  | atLeast (n : Nat)
  deriving DecidableEq, Repr

namespace Arity

/-- Whether that many arguments are right. -/
def accepts : Arity → Nat → Bool
  | exact n, count => count == n
  | atLeast n, count => n ≤ count

/-- How a message says it. -/
def text : Arity → String
  | exact n => toString n
  | atLeast n => "at least " ++ toString n

end Arity

/-- What is wrong with an argument of a builtin. -/
inductive ArgumentFault
  /-- Values of this kind cannot be measured. -/
  | noLength (got : Value.Kind)
  /-- The first of several arguments has to be an array. -/
  | firstNotArray (got : Value.Kind)
  /-- The only argument has to be an array. -/
  | notArray (got : Value.Kind)
  deriving DecidableEq, Repr

/-- How a message says it. -/
def ArgumentFault.text : ArgumentFault → String
  | noLength got => got.text ++ " has no length"
  | firstNotArray got => "first argument must be ARRAY, got " ++ got.text
  | notArray got => "argument must be ARRAY, got " ++ got.text

/-- Why a program stopped. -/
inductive RuntimeError
  | divisionByZero
  | integerOverflow
  | unsupportedOperator (left : Value.Kind) (op : BinaryOp) (right : Value.Kind)
  | unsupportedOperand (op : UnaryOp) (operand : Value.Kind)
  | conditionNotBoolean (got : Value.Kind)
  /-- A function value was called with the wrong number of arguments. -/
  | arityMismatch (expected got : Nat)
  | notCallable (got : Value.Kind)
  | undefinedIdentifier (name : String)
  | unhashableKey (got : Value.Kind)
  | notIndexable (got : Value.Kind)
  | invalidIndex (container index : Value.Kind)
  | indexOutOfBounds (index : Int64) (length : Nat)
  /-- A builtin was called with the wrong number of arguments. -/
  | wrongArgumentCount (name : String) (expected : Arity) (got : Nat)
  | invalidArgument (name : String) (fault : ArgumentFault)
  deriving DecidableEq, Repr

namespace RuntimeError

/-- What went wrong. -/
def reason : RuntimeError → String
  | divisionByZero => "Division by zero."
  | integerOverflow => "Integer overflow while trying to compute result."
  | unsupportedOperator left op right =>
    "Unsupported operator: " ++ left.text ++ " " ++ op.symbol ++ " " ++ right.text ++ "."
  | unsupportedOperand op operand =>
    "Unsupported operator: " ++ op.symbol ++ operand.text ++ "."
  | conditionNotBoolean got => "Condition must be BOOLEAN, got " ++ got.text ++ "."
  | arityMismatch expected got =>
    "Wrong number of arguments: expected " ++ toString expected ++ ", got " ++ toString got ++ "."
  | notCallable got => got.text ++ " is not callable."
  | undefinedIdentifier name => "Identifier not found: '" ++ name ++ "'."
  | unhashableKey got => got.text ++ " cannot be used as a hash key."
  | notIndexable got => got.text ++ " cannot be indexed."
  | invalidIndex container index =>
    container.text ++ " cannot be indexed by " ++ index.text ++ "."
  | indexOutOfBounds index length =>
    "Index " ++ toString index.toInt ++ " out of bounds for length " ++ toString length ++ "."
  | wrongArgumentCount name expected got =>
    "'" ++ name ++ "' expects " ++ expected.text ++ " argument(s), got " ++ toString got ++ "."
  | invalidArgument name fault => "Invalid argument to '" ++ name ++ "': " ++ fault.text ++ "."

/-- The text that is shown for the error. -/
def message (e : RuntimeError) : String := "Runtime error: " ++ e.reason

end RuntimeError

end TreeWalk

import TreeWalk.Eval.Basic
import TreeWalk.Program.Parser

/-!
# Running source texts

A source text is parsed and then evaluated in a scope.  A text that does not parse leaves
everything as it was.
-/

set_option autoImplicit false

namespace TreeWalk

/-- Why a source text gives no value. -/
inductive Error
  | parse (e : ParseError)
  | runtime (e : RuntimeError)
  deriving DecidableEq, Repr

/-- The text that is shown for the error. -/
def Error.message : Error → String
  | parse e => e.message
  | runtime e => e.message

/-- The same outcome, with another kind of error. -/
def Outcome.mapError {ε ε' α : Type} (f : ε → ε') : Outcome ε α → Outcome ε' α
  | done a => .done a
  | failed e => .failed (f e)
  | outOfFuel => .outOfFuel

/-- The same result, with another kind of error. -/
def Result.mapError {ε ε' α : Type} (f : ε → ε') (r : Result ε α) : Result ε' α :=
  ⟨r.outcome.mapError f, r.store, r.output⟩

/-- Opens a scope that has no scope around it. -/
def Store.openGlobal (s : Store) : Nat × Store := s.openScope none []

/-- Runs a source text in a scope. -/
def run (fuel : Nat) (source : String) (scope : Nat) (s : Store) : Result Error Value :=
  match Program.parse source with
  | .ok p => (p.eval fuel scope s).mapError .runtime
  | .error e => ⟨.failed (.parse e), s, []⟩

/-- Runs a source text in a new global scope of the store. -/
def runGlobal (fuel : Nat) (source : String) (s : Store) : Result Error Value :=
  let (scope, s) := s.openGlobal
  run fuel source scope s

/-- Runs a source text on its own. -/
def interpret (fuel : Nat) (source : String) : Result Error Value :=
  runGlobal fuel source .empty

/-- The depth to which programs are evaluated unless another one is asked for. -/
def defaultFuel : Nat := 1000000

end TreeWalk

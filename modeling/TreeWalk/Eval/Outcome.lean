import TreeWalk.RuntimeError
import TreeWalk.Store.Basic

/-!
# Computations

Evaluation reads and changes the store, prints lines, and may fail.  What it changed and printed
before a failure stays.

A program need not come to an end, so evaluation takes a bound on how deeply it may go.  Reaching
this bound is an outcome of its own, `outOfFuel`, and never confused with a failure: an evaluation
that does not reach it has the same outcome under every larger bound.
-/

set_option autoImplicit false

namespace TreeWalk

/-- How a computation ends. -/
inductive Outcome (ε α : Type)
  | done (value : α)
  | failed (error : ε)
  /-- The bound on the depth was reached. -/
  | outOfFuel

/-- How a computation ended, the store that it left and the lines that it printed. -/
@[ext]
structure Result (ε α : Type) where
  outcome : Outcome ε α
  store : Store
  output : List String

/-- A computation that may fail with a `RuntimeError`. -/
def Eval (α : Type) : Type := Store → Result RuntimeError α

namespace Eval

variable {α β : Type}

/-- Does nothing. -/
@[inline] protected def pure (a : α) : Eval α := fun s => ⟨.done a, s, []⟩

/-- Goes on with the value of the first computation, unless it has none. -/
@[inline] protected def bind (m : Eval α) (f : α → Eval β) : Eval β := fun s =>
  match m s with
  | ⟨.done a, s, []⟩ => f a s
  | ⟨.done a, s, lines⟩ =>
    let r := f a s
    { r with output := lines ++ r.output }
  | ⟨.failed e, s, lines⟩ => ⟨.failed e, s, lines⟩
  | ⟨.outOfFuel, s, lines⟩ => ⟨.outOfFuel, s, lines⟩

instance : Monad Eval where
  pure := Eval.pure
  bind := Eval.bind

/-- Stops with an error. -/
def fail (e : RuntimeError) : Eval α := fun s => ⟨.failed e, s, []⟩

/-- Stops because the bound on the depth is reached. -/
def exhausted : Eval α := fun s => ⟨.outOfFuel, s, []⟩

/-- A computation that needs no store. -/
def ofExcept : Except RuntimeError α → Eval α
  | .ok a => pure a
  | .error e => fail e

/-- Prints lines. -/
def print (lines : List String) : Eval Unit := fun s => ⟨.done (), s, lines⟩

/-- The value of a name as it is seen from a scope. -/
def lookup (scope : Nat) (name : String) : Eval (Option Value) :=
  fun s => ⟨.done (s.get? scope name), s, []⟩

/-- Binds a name in a scope. -/
def assign (scope : Nat) (name : String) (value : Value) : Eval Unit :=
  fun s => ⟨.done (), s.set scope name value, []⟩

/-- Opens a scope inside another one. -/
def enter (parent : Nat) (bindings : List (String × Value)) : Eval Nat := fun s =>
  let (scope, s) := s.openScope (some parent) bindings
  ⟨.done scope, s, []⟩

/-- Makes a function value. -/
def close (scope : Nat) (f : Lambda) : Eval Value := fun s =>
  let (v, s) := s.close scope f
  ⟨.done v, s, []⟩

/-! ## Laws -/

theorem bind_def (m : Eval α) (f : α → Eval β) (s : Store) :
    (m >>= f) s =
      match m s with
      | ⟨.done a, t, lines⟩ => ⟨(f a t).outcome, (f a t).store, lines ++ (f a t).output⟩
      | ⟨.failed e, t, lines⟩ => ⟨.failed e, t, lines⟩
      | ⟨.outOfFuel, t, lines⟩ => ⟨.outOfFuel, t, lines⟩ := by
  show Eval.bind m f s = _
  unfold Eval.bind
  rcases m s with ⟨_ | _ | _, t, _ | _⟩ <;> rfl

@[simp] theorem pure_apply (a : α) (s : Store) : (pure a : Eval α) s = ⟨.done a, s, []⟩ := rfl

end Eval

end TreeWalk

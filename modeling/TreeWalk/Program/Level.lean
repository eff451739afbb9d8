import TreeWalk.Token.Basic

/-!
# Levels of binding

How tightly a token binds the expression on its left.  The levels are ordered from `lowest`, at
which every operator continues an expression, to `index`, at which none does.
-/

set_option autoImplicit false

namespace TreeWalk

/-- The levels, loosest first. -/
inductive Level
  | lowest
  | equality
  | relational
  | additive
  | multiplicative
  | unary
  | call
  | index
  deriving DecidableEq, Repr

namespace Level

/-- The place of a level in the order. -/
def rank : Level → Nat
  | lowest => 0
  | equality => 1
  | relational => 2
  | additive => 3
  | multiplicative => 4
  | unary => 5
  | call => 6
  | index => 7

instance : LT Level := ⟨fun a b => a.rank < b.rank⟩

instance (a b : Level) : Decidable (a < b) := inferInstanceAs (Decidable (a.rank < b.rank))

theorem lt_iff_rank (a b : Level) : a < b ↔ a.rank < b.rank := Iff.rfl

/-- The order of two levels. -/
def compare (a b : Level) : Ordering := Ord.compare a.rank b.rank

/-- The level at which a token of this kind continues an expression; `lowest` if it never does. -/
def ofKind : Token.Kind → Level
  | .equalEqual | .bangEqual => equality
  | .less | .lessEqual | .greater | .greaterEqual => relational
  | .plus | .minus => additive
  | .star | .slash => multiplicative
  | .lparen => call
  | .lbracket => index
  | _ => lowest

end Level

end TreeWalk

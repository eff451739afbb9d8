import TreeWalk.Value.Basic

/-!
# Equality of values

Data is equal when it has the same structure.  Function values are equal only if they are the same
function value, whatever their literals say, and builtins if they have the same name.
-/

set_option autoImplicit false

namespace TreeWalk

mutual

/-- Whether two values are equal. -/
def Value.same : Value → Value → Bool
  | .int a, .int b => a = b
  | .bool a, .bool b => a = b
  | .str a, .str b => a = b
  | .array as, .array bs => Value.sameList as bs
  | .hash as, .hash bs => Value.sameEntries as bs
  | .closure a, .closure b => a.id = b.id
  | .builtin a, .builtin b => a = b
  | .pending a, .pending b => a.same b
  | .null, .null => true
  | _, _ => false

/-- `Value.same`, item by item. -/
def Value.sameList : List Value → List Value → Bool
  | [], [] => true
  | a :: as, b :: bs => a.same b && Value.sameList as bs
  | _, _ => false

/-- `Value.same`, on all that entries hold. -/
def Value.sameEntries : List (Key × Value × Value) → List (Key × Value × Value) → Bool
  | [], [] => true
  | (k, c, a) :: as, (l, d, b) :: bs =>
    k = l && (c.same d && a.same b) && Value.sameEntries as bs
  | _, _ => false

end

instance : BEq Value := ⟨Value.same⟩

theorem Value.beq_def (a b : Value) : (a == b) = a.same b := rfl

end TreeWalk

import TreeWalk.Checked
import TreeWalk.RuntimeError

/-!
# Operators

What the operators give on values.  Arithmetic is checked, comparison of order needs integers,
equality needs two integers or two booleans, and `+` also joins strings.
-/

set_option autoImplicit false

namespace TreeWalk

/-- A result of checked arithmetic. -/
def arithmetic : Option Int64 → Except RuntimeError Value
  | some n => .ok (.int n)
  | none => .error .integerOverflow

/-- The operators on two integers. -/
def BinaryOp.onInts (op : BinaryOp) (a b : Int64) : Except RuntimeError Value :=
  match op with
  | .add => arithmetic (Checked.add? a b)
  | .sub => arithmetic (Checked.sub? a b)
  | .mul => arithmetic (Checked.mul? a b)
  | .div => if b = 0 then .error .divisionByZero else arithmetic (Checked.div? a b)
  | .eq => .ok (.bool (a = b))
  | .ne => .ok (.bool (a ≠ b))
  | .lt => .ok (.bool (a < b))
  | .le => .ok (.bool (a ≤ b))
  | .gt => .ok (.bool (b < a))
  | .ge => .ok (.bool (b ≤ a))

/-- The operators on two values. -/
def BinaryOp.apply (op : BinaryOp) (left right : Value) : Except RuntimeError Value :=
  match left, right, op with
  | .int a, .int b, op => op.onInts a b
  | .bool a, .bool b, .eq => .ok (.bool (a = b))
  | .bool a, .bool b, .ne => .ok (.bool (a ≠ b))
  | .str a, .str b, .add => .ok (.str (a ++ b))
  | left, right, op => .error (.unsupportedOperator left.kind op right.kind)

/-- The operators on one value. -/
def UnaryOp.apply (op : UnaryOp) (operand : Value) : Except RuntimeError Value :=
  match op, operand with
  | .not, .bool b => .ok (.bool !b)
  | .neg, .int n => arithmetic (Checked.neg? n)
  | op, v => .error (.unsupportedOperand op v.kind)

/-- The key of a value, if it has one. -/
def Value.key (v : Value) : Except RuntimeError Key :=
  match v.key? with
  | some k => .ok k
  | none => .error (.unhashableKey v.kind)

/-- The item of an array at a position.  Positions are counted from zero. -/
def itemAt (items : List Value) (position : Int64) : Except RuntimeError Value :=
  match if 0 ≤ position.toInt then items[position.toInt.toNat]? else none with
  | some v => .ok v
  | none => .error (.indexOutOfBounds position items.length)

/-- The part of a container at an index.  An array is indexed by integers within its bounds, a hash
by any key; a key that is not there gives `null`. -/
def Value.index (container position : Value) : Except RuntimeError Value :=
  match container, position with
  | .array items, .int n => itemAt items n
  | .array _, v => .error (.invalidIndex .array v.kind)
  | .hash entries, v => do
    let k ← v.key
    return (entries.lookup k).elim .null Prod.snd
  | v, _ => .error (.notIndexable v.kind)

end TreeWalk

import TreeWalk.Checked

/-!
# Decimal literals

The number that a run of decimal digits stands for.  Leading zeros are allowed and mean nothing.
-/

set_option autoImplicit false

namespace TreeWalk.Decimal

/-- The digit that a character stands for. -/
def digit (c : Char) : Nat := c.toNat - '0'.toNat

/-- The number that digits stand for, most significant first. -/
def value (digits : List Char) : Nat := digits.foldl (fun n c => 10 * n + digit c) 0

/-- The integer that a literal stands for, if it can be represented. -/
def int64? (literal : String) : Option Int64 := Checked.fit? (value literal.toList)

theorem value_append_singleton (ds : List Char) (d : Char) :
    value (ds ++ [d]) = 10 * value ds + digit d := by
  simp [value]

end TreeWalk.Decimal

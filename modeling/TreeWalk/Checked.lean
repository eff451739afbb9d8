/-!
# Checked arithmetic on 64-bit integers

Each operation computes the exact result over the integers and succeeds if that result can be
represented; nothing ever wraps around.  Division goes toward zero.
-/

set_option autoImplicit false

namespace TreeWalk.Checked

/-- The integers that 64 bits can represent: those from -2^63 up to and without 2^63. -/
def InRange (n : Int) : Prop := -0x8000000000000000 ≤ n ∧ n < 0x8000000000000000

/-- An exact result, if it can be represented. -/
def fit? : Int → Option Int64
  | .ofNat k => if k < 0x8000000000000000 then some (Int64.ofNat k) else none
  | .negSucc k => if k < 0x8000000000000000 then some (Int64.ofInt (.negSucc k)) else none

/-- The sum, unless it overflows. -/
def add? (a b : Int64) : Option Int64 := fit? (a.toInt + b.toInt)

/-- The difference, unless it overflows. -/
def sub? (a b : Int64) : Option Int64 := fit? (a.toInt - b.toInt)

/-- The product, unless it overflows. -/
def mul? (a b : Int64) : Option Int64 := fit? (a.toInt * b.toInt)

/-- The quotient toward zero, unless it overflows.  Dividing by zero gives zero. -/
def div? (a b : Int64) : Option Int64 := fit? (a.toInt.tdiv b.toInt)

/-- The opposite number, unless it overflows. -/
def neg? (a : Int64) : Option Int64 := fit? (-a.toInt)

/-! ## What the operations return -/

/-- An exact result in range is returned. -/
theorem fit?_of_inRange {n : Int} (h : InRange n) : fit? n = some (Int64.ofInt n) := by
  obtain ⟨lo, hi⟩ := h
  cases n with
  | ofNat k =>
    have : k < 0x8000000000000000 := by simp only [Int.ofNat_eq_natCast] at hi; omega
    rw [fit?, if_pos this]
    rfl
  | negSucc k =>
    have : k < 0x8000000000000000 := by omega
    rw [fit?, if_pos this]

/-- An exact result out of range is not returned. -/
theorem fit?_of_not_inRange {n : Int} (h : ¬ InRange n) : fit? n = none := by
  unfold InRange at h
  cases n with
  | ofNat k =>
    have : ¬ k < 0x8000000000000000 := by simp only [Int.ofNat_eq_natCast] at h; omega
    rw [fit?, if_neg this]
  | negSucc k =>
    have : ¬ k < 0x8000000000000000 := by omega
    rw [fit?, if_neg this]

/-- There is no result exactly when the exact one is out of range. -/
theorem fit?_eq_none_iff (n : Int) : fit? n = none ↔ ¬ InRange n := by
  refine ⟨fun h hr => ?_, fit?_of_not_inRange⟩
  rw [fit?_of_inRange hr] at h
  cases h

/-- A result that is returned is the exact one. -/
theorem toInt_of_fit? {n : Int} {r : Int64} (h : fit? n = some r) : r.toInt = n := by
  have hr : InRange n := Classical.byContradiction fun hr => by
    rw [fit?_of_not_inRange hr] at h
    cases h
  rw [fit?_of_inRange hr] at h
  cases h
  exact Int64.toInt_ofInt_of_le hr.1 hr.2

/-- An integer that is represented already is its own result. -/
theorem fit?_toInt (a : Int64) : fit? a.toInt = some a := by
  rw [fit?_of_inRange ⟨Int64.le_toInt a, Int64.toInt_lt a⟩, Int64.ofInt_toInt]

end TreeWalk.Checked

import TreeWalk.Program.Basic
import TreeWalk.SortedMap

/-!
# Values

What an expression evaluates to.  A function value holds the literal that it was made from and the
scope in which it was made; its number tells it apart from every other function value, also from
one that the same literal gave before.

`Value.pending` is a value on its way out of the function call or program that a `return` ends.
-/

set_option autoImplicit false

namespace TreeWalk

/-- The functions that are there without being defined. -/
inductive Builtin
  | len
  | push
  | first
  | last
  | rest
  | puts
  deriving DecidableEq, Repr

namespace Builtin

/-- The name under which a program finds the function. -/
def name : Builtin → String
  | len => "len"
  | push => "push"
  | first => "first"
  | last => "last"
  | rest => "rest"
  | puts => "puts"

/-- All of them. -/
def all : List Builtin := [len, push, first, last, rest, puts]

/-- The function of that name. -/
def ofName? (name : String) : Option Builtin := all.find? fun b => b.name = name

theorem ofName?_name (b : Builtin) : ofName? b.name = some b := by cases b <;> decide

end Builtin

/-- The values under which a hash can file an entry. -/
inductive Key
  | int (n : Int64)
  | bool (b : Bool)
  | str (s : String)
  deriving DecidableEq, Repr

/-- A function value: the literal, and the scope in which it was evaluated. -/
structure Closure where
  /-- The number that no other function value has. -/
  id : Nat
  lambda : Lambda
  /-- The frame in which the body's free names are looked up. -/
  scope : Nat

/-- A value. -/
inductive Value
  | int (n : Int64)
  | bool (b : Bool)
  | str (s : String)
  | array (items : List Value)
  /-- A hash: its entries in increasing order of their keys.  An entry holds the value that its key
  was made from and the value that is filed under the key. -/
  | hash (entries : List (Key × Value × Value))
  | closure (c : Closure)
  | builtin (b : Builtin)
  /-- A value that a `return` is carrying out. -/
  | pending (v : Value)
  | null

instance : Inhabited Value := ⟨.null⟩

namespace Value

/-- The kinds of value. -/
inductive Kind
  | integer
  | boolean
  | string
  | array
  | hash
  | function
  | builtin
  | returnValue
  | null
  deriving DecidableEq, Repr

/-- How messages name a kind. -/
def Kind.text : Kind → String
  | integer => "INTEGER"
  | boolean => "BOOLEAN"
  | string => "STRING"
  | array => "ARRAY"
  | hash => "HASH"
  | function => "FUNCTION"
  | builtin => "BUILTIN"
  | returnValue => "RETURN_VALUE"
  | null => "NULL"

/-- The kind of a value. -/
def kind : Value → Kind
  | int _ => .integer
  | bool _ => .boolean
  | str _ => .string
  | array _ => .array
  | hash _ => .hash
  | closure _ => .function
  | builtin _ => .builtin
  | pending _ => .returnValue
  | null => .null

/-- The value itself, if it was pending. -/
def settle : Value → Value
  | pending v => v
  | v => v

/-- The key that a value files an entry under.  Only integers, booleans and strings are keys. -/
def key? : Value → Option Key
  | int n => some (.int n)
  | bool b => some (.bool b)
  | str s => some (.str s)
  | _ => none

end Value

namespace Key

/-- The value that a key stands for. -/
def toValue : Key → Value
  | int n => .int n
  | bool b => .bool b
  | str s => .str s

@[simp] theorem key?_toValue (k : Key) : k.toValue.key? = some k := by cases k <;> rfl

theorem eq_toValue_of_key? {v : Value} {k : Key} (h : v.key? = some k) : v = k.toValue := by
  cases v <;> cases h <;> rfl

/-- The entry that a key and a value make.  It holds the value that the key stands for. -/
def entry (p : Key × Value) : Key × Value × Value := (p.1, p.1.toValue, p.2)

/-- The entries of a hash may be given by their keys and values. -/
instance : Coe (List (Key × Value)) (List (Key × Value × Value)) := ⟨List.map entry⟩

/-- Integers come first, then booleans, then strings.  Integers are ordered by size, `false` comes
before `true`, and strings are ordered character by character. -/
def compare : Key → Key → Ordering
  | int a, int b => Ord.compare a.toInt b.toInt
  | int _, _ => .lt
  | bool _, int _ => .gt
  | bool a, bool b => Ord.compare a b
  | bool _, str _ => .lt
  | str a, str b => Ord.compare a b
  | str _, _ => .gt

instance : Ord Key := ⟨Key.compare⟩

theorem compare_def (a b : Key) : Ord.compare a b = a.compare b := rfl

/-! ## The order of keys -/

instance : Std.LawfulEqOrd Key where
  compare_self {a} := by
    cases a <;> simp [compare_def, compare, Std.ReflOrd.compare_self]
  eq_of_compare {a b} h := by
    cases a <;> cases b <;> simp [compare_def, compare] at h
    · rw [Int64.toInt_inj.1 h]
    · rw [h]
    · rw [h]

instance : Std.TransOrd Key where
  eq_swap {a b} := by
    cases a <;> cases b <;> simp only [compare_def, compare, Ordering.swap_lt, Ordering.swap_gt]
    · exact Std.OrientedOrd.eq_swap
    · exact Std.OrientedOrd.eq_swap
    · exact Std.OrientedOrd.eq_swap
  isLE_trans {a b c} hab hbc := by
    cases a <;> cases b <;> cases c <;>
      simp only [compare_def, compare, Ordering.isLE_lt, Ordering.isLE_gt, Bool.false_eq_true]
        at hab hbc ⊢
    · exact Std.TransOrd.isLE_trans hab hbc
    · exact Std.TransOrd.isLE_trans hab hbc
    · exact Std.TransOrd.isLE_trans hab hbc

end Key

end TreeWalk

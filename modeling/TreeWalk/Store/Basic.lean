import TreeWalk.Value.Basic

/-!
# Scopes

The store holds every scope that was ever opened, as a numbered frame.  A frame binds names and may
have a parent, the scope that it was opened in; a name is looked up outward along the parents, and
bound in one frame only.

A parent is always an older frame, so the walk outward comes to an end: `Store.chain` follows a
link only if it leads to a smaller number.
-/

set_option autoImplicit false

namespace TreeWalk

/-- A scope: the names that it binds, in increasing order, and the scope around it. -/
structure Frame where
  bindings : List (String × Value)
  parent : Option Nat

namespace Frame

/-- The value bound to a name in this frame alone. -/
def get? (f : Frame) (name : String) : Option Value := f.bindings.lookup name

/-- Binds a name, instead of what it was bound to. -/
def set (f : Frame) (name : String) (value : Value) : Frame :=
  { f with bindings := SortedMap.insert name value f.bindings }

/-- The bound names, in increasing order. -/
def names (f : Frame) : List String := f.bindings.map (·.1)

@[simp] theorem parent_set (f : Frame) (name : String) (value : Value) :
    (f.set name value).parent = f.parent := rfl

theorem get?_set (f : Frame) (name : String) (value : Value) (x : String) :
    (f.set name value).get? x = if x = name then some value else f.get? x := by
  simp [get?, set, SortedMap.lookup_insert]

end Frame

/-- All scopes, oldest first, and how many function values were made so far. -/
structure Store where
  frames : Array Frame
  closures : Nat

namespace Store

/-- The store without any scope. -/
def empty : Store := ⟨#[], 0⟩

/-- Opens a scope with the given bindings inside the given one.  Its number is the count of the
scopes before it. -/
def openScope (s : Store) (parent : Option Nat) (bindings : List (String × Value)) : Nat × Store :=
  (s.frames.size, { s with frames := s.frames.push ⟨bindings, parent⟩ })

/-- The scopes that are visible from a scope: itself, then outward. -/
def chain (s : Store) (scope : Nat) : List Nat :=
  match s.frames[scope]? with
  | none => []
  | some f =>
    match f.parent with
    | none => [scope]
    | some p => if p < scope then scope :: s.chain p else [scope]
termination_by scope

/-- The value bound to a name in one scope alone. -/
def local? (s : Store) (scope : Nat) (name : String) : Option Value :=
  s.frames[scope]?.bind (·.get? name)

/-- The value of a name as it is seen from a scope: the innermost binding. -/
def get? (s : Store) (scope : Nat) (name : String) : Option Value :=
  (s.chain scope).findSome? (s.local? · name)

/-- Binds a name in one scope. -/
def set (s : Store) (scope : Nat) (name : String) (value : Value) : Store :=
  { s with frames := s.frames.modify scope (·.set name value) }

/-- Makes a function value in a scope. -/
def close (s : Store) (scope : Nat) (f : Lambda) : Value × Store :=
  (.closure ⟨s.closures, f, scope⟩, { s with closures := s.closures + 1 })

/-! ## What a binding changes -/

@[simp] theorem size_set (s : Store) (scope : Nat) (name : String) (value : Value) :
    (s.set scope name value).frames.size = s.frames.size := by simp [set]

/-- A binding is made in its own scope and nowhere else. -/
theorem local?_set (s : Store) (scope : Nat) (name : String) (value : Value) (i : Nat)
    (x : String) :
    (s.set scope name value).local? i x =
      if i = scope ∧ x = name ∧ i < s.frames.size then some value else s.local? i x := by
  unfold local? set
  rw [Array.getElem?_modify]
  split
  · rename_i h
    subst h
    cases hf : s.frames[scope]? with
    | none =>
      have : s.frames.size ≤ scope := Array.getElem?_eq_none_iff.1 hf
      simp [Nat.not_lt.2 this]
    | some f =>
      have : scope < s.frames.size := (Array.getElem?_eq_some_iff.1 hf).1
      simp [Frame.get?_set, this]
  · rename_i h
    simp [Ne.symm h]

end Store

end TreeWalk

import TreeWalk.Proofs.Value.Renaming

/-!
# The functions that are at hand

Only a function literal makes a function value; operators, subscripts and builtins hand on the
functions of their operands and make no others.  So **a property of all functions in a value is
hereditary** (`Value.hereditary_only`), and a property of all functions in a store (`Store.Only`) is
a property of all functions that an evaluation finds there and of all that it puts there, but for
those that it makes itself.
-/

set_option autoImplicit false

namespace TreeWalk

/-! ## The functions in a container -/

theorem Value.mem_itemClosures {c : Closure} {vs : List Value} :
    c ∈ Value.itemClosures vs ↔ ∃ v ∈ vs, c ∈ v.closures := by
  induction vs with
  | nil => simp [Value.itemClosures]
  | cons v vs ih => simp [Value.itemClosures, ih]

theorem Value.mem_entryClosures {c : Closure} {es : List (Key × Value × Value)} :
    c ∈ Value.entryClosures es ↔ ∃ p ∈ es, c ∈ p.2.1.closures ∨ c ∈ p.2.2.closures := by
  induction es with
  | nil => simp [Value.entryClosures]
  | cons p es ih =>
    obtain ⟨label, k, v⟩ := p
    simp [Value.entryClosures, ih, or_assoc]

theorem subset_itemClosures {v : Value} {vs : List Value} (h : v ∈ vs) :
    v.closures ⊆ Value.itemClosures vs :=
  fun _ hc => Value.mem_itemClosures.2 ⟨v, h, hc⟩

/-! ## A property of all functions in a value -/

/-- Every function in the value, at any depth, satisfies `P`. -/
def Value.Only (P : Closure → Prop) (v : Value) : Prop := ∀ c ∈ v.closures, P c

section Only

variable {P Q : Closure → Prop} {v w : Value}

theorem Value.Only.mono (h : v.Only P) (hPQ : ∀ c, P c → Q c) : v.Only Q :=
  fun c hc => hPQ c (h c hc)

theorem Value.Only.of_subset (h : w.Only P) (hsub : v.closures ⊆ w.closures) : v.Only P :=
  fun c hc => h c (hsub hc)

theorem Value.only_of_closures_eq_nil (h : v.closures = []) : v.Only P := by
  intro c hc
  rw [h] at hc
  cases hc

theorem Value.only_closure {c : Closure} : (Value.closure c).Only P ↔ P c :=
  List.forall_mem_singleton

theorem Value.only_array {vs : List Value} :
    (Value.array vs).Only P ↔ ∀ v ∈ vs, v.Only P := by
  constructor
  · exact fun h v hv c hc => h c (Value.mem_itemClosures.2 ⟨v, hv, hc⟩)
  · intro h c hc
    obtain ⟨v, hv, hc⟩ := Value.mem_itemClosures.1 hc
    exact h v hv c hc

theorem Value.only_hash {es : List (Key × Value × Value)} :
    (Value.hash es).Only P ↔ ∀ p ∈ es, p.2.1.Only P ∧ p.2.2.Only P := by
  constructor
  · intro h p hp
    exact ⟨fun c hc => h c (Value.mem_entryClosures.2 ⟨p, hp, .inl hc⟩),
      fun c hc => h c (Value.mem_entryClosures.2 ⟨p, hp, .inr hc⟩)⟩
  · intro h c hc
    obtain ⟨p, hp, hc | hc⟩ := Value.mem_entryClosures.1 hc
    · exact (h p hp).1 c hc
    · exact (h p hp).2 c hc

/-- **Operations on values make no functions.** -/
theorem Value.hereditary_only (P : Closure → Prop) : Value.Hereditary (Value.Only P) where
  int _ := only_of_closures_eq_nil rfl
  bool _ := only_of_closures_eq_nil rfl
  null := only_of_closures_eq_nil rfl
  builtin _ := only_of_closures_eq_nil rfl
  append _ _ := only_of_closures_eq_nil rfl
  array := only_array.2
  items := only_array.1
  empty := only_of_closures_eq_nil rfl
  insert hes hk _ hv := only_hash.2 (SortedMap.forall_mem_insert ⟨hk, hv⟩ (only_hash.1 hes))
  entries h p hp := (only_hash.1 h p hp).2
  unwrap h := h

/-! ## A property of all functions in a store -/

/-- Every function that is bound somewhere in the store satisfies `P`. -/
def Store.Only (P : Closure → Prop) (s : Store) : Prop := s.Holds (Value.Only P)

theorem Store.Only.mono {s : Store} (h : s.Only P) (hPQ : ∀ c, P c → Q c) : s.Only Q :=
  Store.Holds.mono h fun _ hv => hv.mono hPQ

end Only

end TreeWalk

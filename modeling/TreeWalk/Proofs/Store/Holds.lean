import TreeWalk.Store.Basic

/-!
# A property of all that a store binds

`Store.Holds P s` says that every value that some scope of `s` binds has the property `P`.  What is
looked up then has the property, and the store goes on to hold it as long as only such values are
bound.  Which property it is does not matter for this.
-/

set_option autoImplicit false

namespace TreeWalk

namespace SortedMap

/-- An entry of a map made from a list is one of the list. -/
theorem mem_ofList {α β : Type} [Ord α] {l : List (α × β)} {p : α × β} (h : p ∈ ofList l) :
    p ∈ l := by
  -- The map is built from the left, so the induction is about an arbitrary map to start from.
  suffices hfold : ∀ m, p ∈ l.foldl (fun m q => insert q.1 q.2 m) m → p ∈ m ∨ p ∈ l by
    exact (hfold [] h).resolve_left (by simp)
  clear h
  induction l with
  | nil => exact fun m hm => .inl hm
  | cons q l ih =>
    intro m hm
    rcases ih (insert q.1 q.2 m) hm with h | h
    · rcases mem_insert h with rfl | h
      · exact .inr List.mem_cons_self
      · exact .inl h
    · exact .inr (List.mem_cons_of_mem q h)

/-- What holds of the new entry and of those that are there. -/
theorem forall_mem_insert {α β : Type} [Ord α] {Q : α × β → Prop} {k : α} {v : β}
    {m : List (α × β)} (hnew : Q (k, v)) (h : ∀ p ∈ m, Q p) : ∀ p ∈ insert k v m, Q p := by
  intro p hp
  rcases mem_insert hp with rfl | hp
  · exact hnew
  · exact h p hp

end SortedMap

theorem mem_of_lookup_eq_some {α β : Type} [BEq α] [LawfulBEq α] {l : List (α × β)} {a : α} {b : β}
    (h : l.lookup a = some b) : (a, b) ∈ l := by
  obtain ⟨l₁, l₂, rfl, -⟩ := List.lookup_eq_some_iff.1 h
  exact List.mem_append_right l₁ List.mem_cons_self

variable {P : Value → Prop}

/-- The bindings of a call. -/
theorem forall_mem_bindings (params : List String) {args : List Value} (h : ∀ v ∈ args, P v) :
    ∀ b ∈ SortedMap.ofList (params.zip args), P b.2 :=
  fun b hb => h b.2 (List.of_mem_zip (SortedMap.mem_ofList hb)).2

/-- Every value that is bound in some scope has the property. -/
def Store.Holds (P : Value → Prop) (s : Store) : Prop :=
  ∀ (i : Nat) (f : Frame), s.frames[i]? = some f → ∀ b ∈ f.bindings, P b.2

namespace Store.Holds

variable {s : Store}

theorem mono {Q : Value → Prop} (h : s.Holds P) (hPQ : ∀ v, P v → Q v) : s.Holds Q :=
  fun i f hf b hb => hPQ b.2 (h i f hf b hb)

/-- What a name is bound to. -/
theorem get? (h : s.Holds P) {scope : Nat} {name : String} {v : Value}
    (hv : s.get? scope name = some v) : P v := by
  obtain ⟨i, -, hlocal⟩ := List.exists_of_findSome?_eq_some hv
  obtain ⟨f, hf, hlookup⟩ := Option.bind_eq_some_iff.1 hlocal
  exact h i f hf (name, v) (mem_of_lookup_eq_some hlookup)

theorem set (h : s.Holds P) (scope : Nat) (name : String) {v : Value} (hv : P v) :
    (s.set scope name v).Holds P := by
  intro i f hf
  rw [Store.set, Array.getElem?_modify] at hf
  split at hf
  · obtain ⟨g, hg, rfl⟩ := Option.map_eq_some_iff.1 hf
    exact SortedMap.forall_mem_insert hv (h i g hg)
  · exact h i f hf

theorem openScope (h : s.Holds P) (parent : Option Nat) {bindings : List (String × Value)}
    (hbindings : ∀ b ∈ bindings, P b.2) : (s.openScope parent bindings).2.Holds P := by
  intro i f hf
  rw [Store.openScope, Array.getElem?_push] at hf
  split at hf
  · obtain rfl := Option.some_inj.1 hf
    exact hbindings
  · exact h i f hf

theorem empty : Store.empty.Holds P := by
  intro i f hf
  simp [Store.empty] at hf

/-- The global scope binds nothing at first. -/
theorem global : Store.Holds P ⟨#[⟨[], none⟩], 0⟩ := empty.openScope none (List.forall_mem_nil _)

end Store.Holds

end TreeWalk

/-!
# Maps as sorted lists

A finite map is kept as the list of its entries in strictly increasing order of their keys, so that
two maps with the same entries are the same list.  `SortedMap.insert` replaces the value of a key
that is there already; looking a key up is `List.lookup`.
-/

set_option autoImplicit false

namespace TreeWalk.SortedMap

variable {α β : Type} [Ord α]

/-- Puts an entry in its place, instead of the entry with that key if there is one. -/
def insert (key : α) (value : β) : List (α × β) → List (α × β)
  | [] => [(key, value)]
  | (k, v) :: rest =>
    match compare key k with
    | .lt => (key, value) :: (k, v) :: rest
    | .eq => (key, value) :: rest
    | .gt => (k, v) :: insert key value rest

/-- The map with the given entries; of entries with equal keys the last one counts. -/
def ofList (entries : List (α × β)) : List (α × β) :=
  entries.foldl (fun m (k, v) => insert k v m) []

/-- The keys increase strictly. -/
def Sorted (m : List (α × β)) : Prop := m.Pairwise fun p q => compare p.1 q.1 = .lt

/-! ## The order of the entries -/

/-- An entry after an insertion is the new one or was there before. -/
theorem mem_insert {key : α} {value : β} {m : List (α × β)} {p : α × β}
    (h : p ∈ insert key value m) : p = (key, value) ∨ p ∈ m := by
  induction m with
  | nil => exact .inl (List.mem_singleton.1 h)
  | cons q rest ih =>
    obtain ⟨k, v⟩ := q
    unfold insert at h
    split at h
    · exact List.mem_cons.1 h
    · rcases List.mem_cons.1 h with h | h
      · exact .inl h
      · exact .inr (List.mem_cons_of_mem _ h)
    · rcases List.mem_cons.1 h with h | h
      · exact .inr (h ▸ List.mem_cons_self)
      · exact (ih h).imp_right (List.mem_cons_of_mem _)

/-- Insertion keeps the order. -/
theorem Sorted.insert [Std.TransOrd α] [Std.LawfulEqOrd α] {m : List (α × β)} (h : Sorted m)
    (key : α) (value : β) : Sorted (insert key value m) := by
  induction m with
  | nil => exact List.pairwise_singleton _ _
  | cons q rest ih =>
    obtain ⟨k, v⟩ := q
    obtain ⟨first, later⟩ := List.pairwise_cons.1 h
    unfold SortedMap.insert
    split
    · rename_i hlt
      refine List.pairwise_cons.2 ⟨fun p hp => ?_, h⟩
      rcases List.mem_cons.1 hp with rfl | hp
      · exact hlt
      · exact Std.TransCmp.lt_trans hlt (first p hp)
    · rename_i heq
      obtain rfl : key = k := Std.LawfulEqOrd.eq_of_compare heq
      exact List.pairwise_cons.2 ⟨first, later⟩
    · rename_i hgt
      refine List.pairwise_cons.2 ⟨fun p hp => ?_, ih later⟩
      rcases mem_insert hp with rfl | hp
      · exact Std.OrientedCmp.lt_of_gt hgt
      · exact first p hp

/-! ## Looking up what was inserted -/

/-- **Insertion changes one key**: that key has the new value, and every other key what it had. -/
theorem lookup_insert [Std.LawfulEqOrd α] [BEq α] [LawfulBEq α] (key k : α) (value : β)
    (m : List (α × β)) :
    (insert key value m).lookup k = if k == key then some value else m.lookup k := by
  induction m with
  | nil => cases h : k == key <;> simp [insert, List.lookup_cons, h]
  | cons p rest ih =>
    obtain ⟨a, b⟩ := p
    unfold insert
    split
    · cases h : k == key <;> simp [List.lookup_cons, h]
    · rename_i heq
      obtain rfl : key = a := Std.LawfulEqOrd.eq_of_compare heq
      cases h : k == key <;> simp [List.lookup_cons, h]
    · rename_i hgt
      have hne : a ≠ key := by
        rintro rfl
        simp [Std.ReflOrd.compare_self] at hgt
      cases h : k == a with
      | false => simp [List.lookup_cons, h, ih]
      | true =>
        obtain rfl : k = a := eq_of_beq h
        simp [hne]

end TreeWalk.SortedMap

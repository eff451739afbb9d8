import Mathlib.Data.List.Dedup
import Mathlib.Data.List.Induction
import TreeWalk.Proofs.Value.Congruence

/-!
# The canonical form of a map

A map is one list only, whatever its entries were filed in: **filing two different keys commutes**
(`insert_comm`), and **maps with the same keys and related values are related entry by entry**
(`Sorted.filed`).  The map of a list of entries has the keys of the list, each once
(`length_ofList`), and the last value that the list has for a key (`lookup_ofList_of_last`).
-/

set_option autoImplicit false

namespace TreeWalk.SortedMap

variable {α β : Type} [Ord α]

/-! ## Filing entries -/

section Insert

variable [Std.TransOrd α] [Std.LawfulEqOrd α]

theorem insert_comm_of_lt {a b : α} (h : compare a b = .lt) (va vb : β) (m : List (α × β)) :
    insert a va (insert b vb m) = insert b vb (insert a va m) := by
  have hgt : compare b a = .gt := Std.OrientedCmp.gt_of_lt h
  induction m with
  | nil => simp [insert, h, hgt]
  | cons p m ih =>
    obtain ⟨k, v⟩ := p
    -- Where the larger key goes decides how much there is to say about the smaller one.
    cases hb : compare b k with
    | lt =>
      have ha : compare a k = .lt := Std.TransCmp.lt_trans h hb
      simp [insert, h, hgt, ha, hb]
    | eq =>
      obtain rfl : b = k := Std.LawfulEqOrd.eq_of_compare hb
      simp [insert, h, hgt]
    | gt =>
      cases ha : compare a k with
      | lt => simp [insert, hgt, ha, hb]
      | eq =>
        obtain rfl : a = k := Std.LawfulEqOrd.eq_of_compare ha
        simp [insert, hb]
      | gt => simp [insert, ha, hb, ih]

/-- **Entries with different keys may be filed in either order.** -/
theorem insert_comm {a b : α} (hne : a ≠ b) (va vb : β) (m : List (α × β)) :
    insert a va (insert b vb m) = insert b vb (insert a va m) := by
  cases h : compare a b with
  | lt => exact insert_comm_of_lt h va vb m
  | eq => exact absurd (Std.LawfulEqOrd.eq_of_compare h) hne
  | gt => exact (insert_comm_of_lt (Std.OrientedCmp.lt_of_gt h) vb va m).symm

end Insert

/-! ## The map of a list -/

theorem ofList_concat (l : List (α × β)) (p : α × β) :
    ofList (l ++ [p]) = insert p.1 p.2 (ofList l) := by
  rw [ofList, List.foldl_append]
  rfl

theorem sorted_ofList [Std.TransOrd α] [Std.LawfulEqOrd α] (l : List (α × β)) :
    Sorted (ofList l) := by
  induction l using List.reverseRecOn with
  | nil => exact List.Pairwise.nil
  | append_singleton l p ih =>
    rw [ofList_concat]
    exact ih.insert p.1 p.2

section Lookup

variable [Std.LawfulEqOrd α] [DecidableEq α]

/-- The entries that were filed last come first. -/
theorem lookup_ofList (l : List (α × β)) (k : α) : (ofList l).lookup k = l.reverse.lookup k := by
  induction l using List.reverseRecOn with
  | nil => rfl
  | append_singleton l p ih =>
    rw [ofList_concat, lookup_insert, List.reverse_concat, List.lookup_cons, ih]
    cases k == p.1 <;> rfl

omit [Ord α] [Std.LawfulEqOrd α] in
theorem lookup_eq_none {m : List (α × β)} {k : α} (h : ∀ p ∈ m, p.1 ≠ k) : m.lookup k = none := by
  rw [List.lookup_eq_none_iff]
  exact fun p hp => bne_iff_ne.2 (h p hp).symm

/-- **Of the entries with a key, the last one counts.** -/
theorem lookup_ofList_of_last {l before behind : List (α × β)} {k : α} {v : β}
    (hl : l = before ++ (k, v) :: behind) (hlast : ∀ p ∈ behind, p.1 ≠ k) :
    (ofList l).lookup k = some v := by
  have hbehind : behind.reverse.lookup k = none :=
    lookup_eq_none fun p hp => hlast p (List.mem_reverse.1 hp)
  rw [lookup_ofList, hl, List.reverse_append, List.reverse_cons, List.append_assoc,
    List.lookup_append, hbehind]
  simp

theorem lookup_ofList_of_not_mem {l : List (α × β)} {k : α} (h : ∀ p ∈ l, p.1 ≠ k) :
    (ofList l).lookup k = none := by
  rw [lookup_ofList]
  exact lookup_eq_none fun p hp => h p (List.mem_reverse.1 hp)

omit [Ord α] [Std.LawfulEqOrd α] in
theorem lookup_isSome_iff {m : List (α × β)} {k : α} :
    (m.lookup k).isSome ↔ k ∈ m.map Prod.fst := by
  induction m with
  | nil => simp
  | cons p m ih =>
    rw [List.lookup_cons, List.map_cons, List.mem_cons]
    by_cases h : k = p.1
    · simp [h]
    · simp [h, beq_false_of_ne h, ih]

/-- The map has the keys of the list. -/
theorem mem_keys_ofList {l : List (α × β)} {k : α} :
    k ∈ (ofList l).map Prod.fst ↔ k ∈ l.map Prod.fst := by
  rw [← lookup_isSome_iff, lookup_ofList, lookup_isSome_iff, List.map_reverse, List.mem_reverse]

end Lookup

section Keys

variable [Std.TransOrd α] [Std.LawfulEqOrd α] [DecidableEq α]

omit [Std.TransOrd α] [DecidableEq α] in
theorem ne_of_compare_lt {a b : α} (h : compare a b = .lt) : a ≠ b := by
  rintro rfl
  rw [Std.ReflOrd.compare_self] at h
  cases h

omit [Std.TransOrd α] [DecidableEq α] in
theorem Sorted.nodup {m : List (α × β)} (h : Sorted m) : (m.map Prod.fst).Nodup :=
  List.pairwise_map.2 (h.imp ne_of_compare_lt)

/-- **The map has one entry for each key of the list.** -/
theorem length_ofList (l : List (α × β)) : (ofList l).length = (l.map Prod.fst).dedup.length := by
  have hperm : ((ofList l).map Prod.fst).Perm (l.map Prod.fst).dedup := by
    rw [List.perm_ext_iff_of_nodup (sorted_ofList l).nodup (List.nodup_dedup _)]
    intro k
    rw [mem_keys_ofList, List.mem_dedup]
  rw [← hperm.length_eq, List.length_map]

/-- In a map, an entry is found under its key. -/
theorem Sorted.lookup_of_mem {m : List (α × β)} (h : Sorted m) {k : α} {v : β} (hv : (k, v) ∈ m) :
    m.lookup k = some v := by
  induction m with
  | nil => cases hv
  | cons p m ih =>
    rcases List.mem_cons.1 hv with rfl | hv
    · exact List.lookup_cons_self
    · have hne : k ≠ p.1 := (ne_of_compare_lt (List.rel_of_pairwise_cons h hv)).symm
      rw [List.lookup_cons, beq_false_of_ne hne]
      exact ih h.of_cons hv

/-! ## Maps that are related -/

omit [DecidableEq α] in
/-- A map starts with its smallest key. -/
theorem Sorted.not_lt {k : α} {p : α × β} {m : List (α × β)} (h : Sorted (p :: m))
    (hk : k ∈ (p :: m).map Prod.fst) : compare k p.1 ≠ .lt := by
  intro hlt
  obtain ⟨q, hq, rfl⟩ := List.mem_map.1 hk
  rcases List.mem_cons.1 hq with rfl | hq
  · exact ne_of_compare_lt hlt rfl
  · exact ne_of_compare_lt (Std.TransCmp.lt_trans hlt (List.rel_of_pairwise_cons h hq)) rfl

omit [Std.TransOrd α] [DecidableEq α] in
/-- The other keys of a map. -/
theorem Sorted.mem_tail_keys {k : α} {p : α × β} {m : List (α × β)} (h : Sorted (p :: m)) :
    k ∈ m.map Prod.fst ↔ k ∈ (p :: m).map Prod.fst ∧ k ≠ p.1 := by
  have hnot : p.1 ∉ m.map Prod.fst := (List.nodup_cons.1 h.nodup).1
  constructor
  · refine fun hk => ⟨List.mem_cons_of_mem _ hk, ?_⟩
    rintro rfl
    exact hnot hk
  · rintro ⟨hk, hne⟩
    exact (List.mem_cons.1 hk).resolve_left hne

omit [DecidableEq α] in
/-- **Maps with the same keys and related values are related entry by entry.**  Both start with the
smallest key, and this is one and the same. -/
theorem Sorted.filed {R : β → β → Prop} {m m' : List (α × β)} (hm : Sorted m)
    (hm' : Sorted m') (hkeys : ∀ k, k ∈ m.map Prod.fst ↔ k ∈ m'.map Prod.fst)
    (hvalues : ∀ k v v', (k, v) ∈ m → (k, v') ∈ m' → R v v') : Filed R m m' := by
  induction m generalizing m' with
  | nil =>
    cases m' with
    | nil => exact .nil
    | cons p m' => exact absurd ((hkeys p.1).2 List.mem_cons_self) List.not_mem_nil
  | cons p m ih =>
    obtain ⟨k, v⟩ := p
    cases m' with
    | nil => exact absurd ((hkeys k).1 List.mem_cons_self) List.not_mem_nil
    | cons p' m' =>
      obtain ⟨k', v'⟩ := p'
      have hnot := hm'.not_lt ((hkeys k).1 List.mem_cons_self)
      have hnot' := hm.not_lt ((hkeys k').2 List.mem_cons_self)
      obtain rfl : k = k' := by
        cases hcmp : compare k k' with
        | lt => exact absurd hcmp hnot
        | eq => exact Std.LawfulEqOrd.eq_of_compare hcmp
        | gt => exact absurd (Std.OrientedCmp.lt_of_gt hcmp) hnot'
      refine .cons (hvalues k v v' List.mem_cons_self List.mem_cons_self)
        (ih hm.of_cons hm'.of_cons (fun j => ?_) fun j u u' hu hu' => ?_)
      · rw [hm.mem_tail_keys, hm'.mem_tail_keys, hkeys j]
      · exact hvalues j u u' (List.mem_cons_of_mem _ hu) (List.mem_cons_of_mem _ hu')

end Keys

end TreeWalk.SortedMap

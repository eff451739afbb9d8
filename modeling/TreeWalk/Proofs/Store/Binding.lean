import Mathlib.Logic.Relation
import Mathlib.Order.WellFounded
import TreeWalk.Proofs.SortedMap
import TreeWalk.Proofs.Store.Outward

/-!
# What a binding changes

A binding is made in one scope, and a name is looked up outward from any scope.  **After a binding,
a scope sees the new value just if the walk outward from it comes to the place of the binding
without meeting the name before** (`lookup_after_set`); in every other case it sees what it saw.  So
an inner scope sees what is bound later in a scope around it, unless it is shadowed, and nothing
that is bound in a scope is seen from the scopes around it or from its siblings.

The walk is `Store.Finds`, which follows the parents wherever they lead, in any store in which they
lead somewhere and not in a circle (`Store.WellLinked`).  Where parents are older scopes, as in
every store that comes up, the walk is `Store.get?`.
-/

set_option autoImplicit false

namespace TreeWalk

/-! ## A store with one more binding -/

theorem Frame.set_comm (f : Frame) {x name : String} (hne : name ≠ x) (v u : Value) :
    (f.set x v).set name u = (f.set name u).set x v :=
  congrArg (Frame.mk · f.parent) (SortedMap.insert_comm hne u v f.bindings)

namespace Store

variable (s : Store) (k : Nat) {x : String} (v : Value)

theorem getElem?_set (x : String) (i : Nat) :
    (s.set k x v).frames[i]? = s.frames[i]?.map fun f => if k = i then f.set x v else f := by
  rw [set, Array.getElem?_modify]
  split <;> simp

/-- A binding changes no parent. -/
theorem chain_set (x : String) (i : Nat) : (s.set k x v).chain i = s.chain i := by
  induction i using Nat.strongRecOn with
  | ind i ih =>
    rw [chain, chain, getElem?_set]
    cases s.frames[i]? with
    | none => rfl
    | some f =>
      have hparent : (if k = i then f.set x v else f).parent = f.parent := by
        split <;> rfl
      simp only [Option.map_some, hparent]
      cases f.parent with
      | none => rfl
      | some p =>
        dsimp only
        split
        · next hlt => rw [ih p hlt]
        · rfl

/-- Other names are bound to what they were bound to. -/
theorem get?_set_of_ne {name : String} (hne : name ≠ x) (i : Nat) :
    (s.set k x v).get? i name = s.get? i name := by
  rw [get?, get?, chain_set]
  congr 1
  funext j
  rw [local?_set, if_neg fun h => hne h.2.1]

/-- Bindings of different names may be made in either order, in whichever scopes. -/
theorem set_comm {name : String} (hne : name ≠ x) (i : Nat) (u : Value) :
    (s.set k x v).set i name u = (s.set i name u).set k x v := by
  have hframes : ((s.set k x v).set i name u).frames = ((s.set i name u).set k x v).frames := by
    refine Array.ext_getElem? fun j => ?_
    simp only [getElem?_set, Option.map_map]
    refine congrArg (fun g => s.frames[j]?.map g) (funext fun f => ?_)
    -- Only in one and the same scope do the two bindings meet.
    by_cases hi : i = j
    · by_cases hk : k = j
      · simp [hi, hk, f.set_comm hne]
      · simp [hi, hk]
    · simp [hi]
  exact congrArg (Store.mk · s.closures) hframes

/-- A scope may be opened before or after a binding in another one. -/
theorem openScope_set (x : String) (hk : k < s.frames.size) (parent : Option Nat)
    (bindings : List (String × Value)) :
    ((s.set k x v).openScope parent bindings).2 = (s.openScope parent bindings).2.set k x v := by
  have hframes : ((s.set k x v).openScope parent bindings).2.frames =
      ((s.openScope parent bindings).2.set k x v).frames := by
    refine Array.ext_getElem? fun j => ?_
    rw [getElem?_set]
    simp only [openScope, Array.getElem?_push, size_set]
    split
    · next hj =>
      rw [Option.map_some, if_neg (by omega)]
    · exact s.getElem?_set k v x j
  exact congrArg (Store.mk · s.closures) hframes

/-! ## Parents -/

/-- The scope `a` is around the scope `i`: its parent, or a parent further out. -/
def Around (s : Store) (a i : Nat) : Prop := Relation.TransGen s.IsParent a i

/-- Different scopes with the same parent. -/
def Siblings (s : Store) (i j : Nat) : Prop := i ≠ j ∧ ∃ p, s.IsParent p i ∧ s.IsParent p j

section Parents

variable {s : Store} {i j : Nat}

theorem IsParent.eq {p q : Nat} (hp : s.IsParent p i) (hq : s.IsParent q i) : p = q := by
  obtain ⟨f, hf, hfp⟩ := hp
  obtain ⟨g, hg, hgq⟩ := hq
  rw [hf, Option.some_inj] at hg
  subst hg
  exact Option.some_inj.1 (hfp.symm.trans hgq)

/-- No scope is around itself. -/
theorem WellLinked.not_around_self (hs : s.WellLinked) : ¬ s.Around i i :=
  hs.wellFounded.transGen.irrefl.irrefl i

/-- One step of the walk. -/
theorem finds_iff {f : Frame} {name : String} {r : Option Value} (hf : s.frames[i]? = some f) :
    s.Finds name i r ↔
      match f.get? name with
      | some v => r = some v
      | none =>
        match f.parent with
        | some p => s.Finds name p r
        | none => r = none := by
  constructor
  · intro h
    cases h with
    | here hf' hv =>
      obtain rfl := Option.some_inj.1 (hf.symm.trans hf')
      rw [hv]
    | outward hf' hv hp h =>
      obtain rfl := Option.some_inj.1 (hf.symm.trans hf')
      rw [hv, hp]
      exact h
    | nowhere hf' hv hp =>
      obtain rfl := Option.some_inj.1 (hf.symm.trans hf')
      rw [hv, hp]
  · intro h
    cases hv : f.get? name with
    | some v =>
      rw [hv] at h
      exact h ▸ .here hf hv
    | none =>
      rw [hv] at h
      cases hp : f.parent with
      | some p =>
        rw [hp] at h
        exact .outward hf hv hp h
      | none =>
        rw [hp] at h
        exact h ▸ .nowhere hf hv hp

/-- The walk has one end only. -/
theorem Finds.unique {name : String} {r r' : Option Value} (h : s.Finds name i r)
    (h' : s.Finds name i r') : r' = r := by
  induction h with
  | here hf hv => simpa [finds_iff hf, hv] using h'
  | outward hf hv hp _ ih => exact ih (by simpa [finds_iff hf, hv, hp] using h')
  | nowhere hf hv hp => simpa [finds_iff hf, hv, hp] using h'

/-- A binding changes no parent. -/
theorem isParent_set (s : Store) (k : Nat) (x : String) (v : Value) :
    (s.set k x v).IsParent = s.IsParent := by
  funext p i
  rw [IsParent, IsParent, getElem?_set]
  cases s.frames[i]? with
  | none => simp
  | some f =>
    by_cases hki : k = i
    · simp [hki]
    · simp [hki]

theorem WellLinked.set (hs : s.WellLinked) (k : Nat) (x : String) (v : Value) :
    (s.set k x v).WellLinked where
  wellFounded := (isParent_set s k x v).symm ▸ hs.wellFounded
  lt_size h := by
    rw [isParent_set] at h
    rw [size_set]
    exact hs.lt_size h

theorem ParentsOlder.set (hs : s.ParentsOlder) (k : Nat) (x : String) (v : Value) :
    (s.set k x v).ParentsOlder := by
  rw [ParentsOlder, isParent_set]
  exact hs

end Parents

/-! ## Which scopes see a binding -/

/-- The walk outward from `j` comes to the scope `i` without meeting the name before: `i` is `j` or
lies on the chain of its parents, and no scope strictly before it on this chain binds the name. -/
inductive Unshadowed (s : Store) (x : String) (i : Nat) : Nat → Prop
  | here : Unshadowed s x i i
  | outward {j p : Nat} {f : Frame} (hf : s.frames[j]? = some f) (hx : f.get? x = none)
      (hp : f.parent = some p) (h : Unshadowed s x i p) : Unshadowed s x i j

section Unshadowed

variable {s : Store} {x y : String} {i j : Nat} {v : Value}

theorem Unshadowed.eq_or_around (h : s.Unshadowed x i j) : i = j ∨ s.Around i j := by
  induction h with
  | here => exact .inl rfl
  | outward hf _ hp _ ih =>
    rcases ih with rfl | ih
    · exact .inr (.single ⟨_, hf, hp⟩)
    · exact .inr (ih.tail ⟨_, hf, hp⟩)

/-- From a scope around `i` the walk goes away from `i`. -/
theorem WellLinked.not_unshadowed_of_around (hs : s.WellLinked) (h : s.Around j i) :
    ¬ s.Unshadowed x i j := by
  intro hsees
  rcases hsees.eq_or_around with rfl | hij
  · exact hs.not_around_self h
  · exact hs.not_around_self (hij.trans h)

/-- From a sibling of `i` the walk goes on with the parent of `i`. -/
theorem WellLinked.not_unshadowed_of_siblings (hs : s.WellLinked) (h : s.Siblings i j) :
    ¬ s.Unshadowed x i j := by
  obtain ⟨hne, p, hpi, hpj⟩ := h
  intro hsees
  cases hsees with
  | here => exact hne rfl
  | outward hf _ hp hsees =>
    obtain rfl := IsParent.eq ⟨_, hf, hp⟩ hpj
    exact hs.not_unshadowed_of_around (.single hpi) hsees

/-- The new value is found where the walk comes to it. -/
theorem Unshadowed.finds_set (h : s.Unshadowed x i j) (hi : i < s.frames.size) :
    (s.set i x v).Finds x j (some v) := by
  have hbound {f : Frame} (hf : s.frames[i]? = some f) :
      (s.set i x v).Finds x i (some v) := by
    refine .here (f := f.set x v) ?_ ?_
    · rw [getElem?_set, hf, Option.map_some, if_pos rfl]
    · rw [Frame.get?_set, if_pos rfl]
  induction h with
  | here => exact hbound (Array.getElem?_eq_getElem hi)
  | @outward j p f hf hx hp _ ih =>
    by_cases hij : i = j
    · subst hij
      exact hbound hf
    · refine .outward (f := f) ?_ hx hp ih
      rw [getElem?_set, hf, Option.map_some, if_neg hij]

/-- Everywhere else the walk finds what it found.  Along the walk, which never comes to the new
binding. -/
theorem Finds.set {r : Option Value} (h : s.Finds y j r)
    (hnot : ¬ (y = x ∧ s.Unshadowed x i j)) (v : Value) : (s.set i x v).Finds y j r := by
  have hframe {j : Nat} {f : Frame} (hf : s.frames[j]? = some f)
      (hnot : ¬ (y = x ∧ s.Unshadowed x i j)) : ∃ g, (s.set i x v).frames[j]? = some g ∧
        g.get? y = f.get? y ∧ g.parent = f.parent := by
    refine ⟨_, by rw [getElem?_set, hf, Option.map_some], ?_⟩
    by_cases hij : i = j
    · have hne : y ≠ x := fun hyx => hnot ⟨hyx, hij ▸ .here⟩
      rw [if_pos hij, Frame.get?_set, if_neg hne]
      exact ⟨rfl, rfl⟩
    · rw [if_neg hij]
      exact ⟨rfl, rfl⟩
  induction h with
  | here hf hv =>
    obtain ⟨g, hg, hget, -⟩ := hframe hf hnot
    exact .here hg (hget.trans hv)
  | outward hf hv hp _ ih =>
    obtain ⟨g, hg, hget, hparent⟩ := hframe hf hnot
    refine .outward hg (hget.trans hv) (hparent.trans hp) (ih fun hsees => hnot ⟨hsees.1, ?_⟩)
    exact .outward hf (hsees.1 ▸ hv) hp hsees.2
  | nowhere hf hv hp =>
    obtain ⟨g, hg, hget, hparent⟩ := hframe hf hnot
    exact .nowhere hg (hget.trans hv) (hparent.trans hp)

end Unshadowed

end Store

/-- **Lookup after a binding.**  In a store whose links to parents are well-founded, let a name be
bound in the scope `i` and a name be looked up from the scope `j`.  Before and after that the lookup
comes to one definite end, and this is the new value if it is the same name, `i` is `j` or a scope
around it, and no scope strictly before `i` on the way outward from `j` binds the name; else it is
what it was.  From the scopes around `i`, and from its siblings, nothing has changed.  Where parents
are older, the two ends are what `Store.get?` gives. -/
theorem lookup_after_set {s : Store} (hs : s.WellLinked) {i j : Nat} (hi : i < s.frames.size)
    (hj : j < s.frames.size) (x y : String) (v : Value) :
    ∃ before after, (∀ r, s.Finds y j r ↔ r = before) ∧
      (∀ r, (s.set i x v).Finds y j r ↔ r = after) ∧
      (y = x ∧ s.Unshadowed x i j → after = some v) ∧
      (¬ (y = x ∧ s.Unshadowed x i j) → after = before) ∧
      (s.Around j i ∨ s.Siblings i j → after = before) ∧
      (s.ParentsOlder → before = s.get? j y ∧ after = (s.set i x v).get? j y) := by
  obtain ⟨before, hbefore⟩ := hs.exists_finds y hj
  obtain ⟨after, hafter⟩ := (hs.set i x v).exists_finds y (by rwa [Store.size_set])
  have hother : ¬ (y = x ∧ s.Unshadowed x i j) → after = before := fun hnot =>
    (hbefore.set hnot v).unique hafter
  refine ⟨before, after, fun r => ⟨hbefore.unique, ?_⟩, fun r => ⟨hafter.unique, ?_⟩, ?_, hother,
    ?_, fun holder => ⟨holder.eq_get? hbefore, (holder.set i x v).eq_get? hafter⟩⟩
  · rintro rfl
    exact hbefore
  · rintro rfl
    exact hafter
  · rintro ⟨rfl, hsees⟩
    exact (hsees.finds_set hi).unique hafter
  · rintro (haround | hsiblings)
    · exact hother fun h => hs.not_unshadowed_of_around haround h.2
    · exact hother fun h => hs.not_unshadowed_of_siblings hsiblings h.2

/-- Scope 3 is inside scope 1, whose sibling is scope 2, and scope 0 is around them.  A binding in
scope 1 is seen from scope 3, and neither from scope 2 nor from scope 0; one in scope 0 is not seen
from scope 3 if scope 3 binds the name itself. -/
theorem lookup_after_set_nested :
    ∃ s : Store, s.Reachable ∧ s.Around 1 3 ∧ s.Siblings 1 2 ∧ s.Around 0 1 ∧
      (s.set 1 "x" .null).get? 3 "x" = some .null ∧
      (s.set 1 "x" .null).get? 2 "x" = s.get? 2 "x" ∧
      (s.set 1 "x" .null).get? 0 "x" = s.get? 0 "x" ∧
      (s.set 0 "y" .null).get? 3 "y" = s.get? 3 "y" := by
  let inner : Frame := ⟨[("y", .bool true)], some 1⟩
  let s : Store := ⟨#[⟨[], none⟩, ⟨[], some 0⟩, ⟨[], some 0⟩, inner], 0⟩
  have hs : s.Reachable := by
    have h1 := Store.Reachable.empty.openGlobal
    have h2 := h1.enclose (by decide : 0 < 1)
    have h3 := h2.enclose (by decide : 0 < 2)
    have h4 := h3.enclose (by decide : 1 < 3)
    exact h4.set (by decide : 3 < 4) "y" (v := .bool true) (List.forall_mem_nil _)
  have holder : s.ParentsOlder := hs.closed.parentsOlder
  have h01 : s.IsParent 0 1 := ⟨_, rfl, rfl⟩
  have h02 : s.IsParent 0 2 := ⟨_, rfl, rfl⟩
  have h13 : s.IsParent 1 3 := ⟨_, rfl, rfl⟩
  have hsiblings : s.Siblings 1 2 := ⟨by decide, 0, h01, h02⟩
  have hsees : s.Unshadowed "x" 1 3 := .outward (f := inner) rfl rfl rfl .here
  have hshadowed : ¬ s.Unshadowed "y" 0 3 := by
    intro h
    cases h with
    | outward hf hx hp _ =>
      obtain rfl := Option.some_inj.1 hf
      exact absurd hx (by decide)
  have h := @lookup_after_set s holder.wellLinked
  refine ⟨s, hs, .single h13, hsiblings, .single h01, ?_, ?_, ?_, ?_⟩
  · obtain ⟨_, _, -, -, hnew, -, -, hget⟩ := h (by decide : 1 < 4) (by decide : 3 < 4) "x" "x" .null
    rw [← (hget holder).2, hnew ⟨rfl, hsees⟩]
  · obtain ⟨_, _, -, -, -, -, hkept, hget⟩ :=
      h (by decide : 1 < 4) (by decide : 2 < 4) "x" "x" .null
    rw [← (hget holder).1, ← (hget holder).2, hkept (.inr hsiblings)]
  · obtain ⟨_, _, -, -, -, -, hkept, hget⟩ :=
      h (by decide : 1 < 4) (by decide : 0 < 4) "x" "x" .null
    rw [← (hget holder).1, ← (hget holder).2, hkept (.inl (.single h01))]
  · obtain ⟨_, _, -, -, -, hkept, -, hget⟩ :=
      h (by decide : 0 < 4) (by decide : 3 < 4) "y" "y" .null
    rw [← (hget holder).1, ← (hget holder).2, hkept fun h => hshadowed h.2]

end TreeWalk

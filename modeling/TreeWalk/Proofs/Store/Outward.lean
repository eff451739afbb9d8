import TreeWalk.Program.Equality
import TreeWalk.Proofs.Store.Reachable

/-!
# The way outward

`Store.Finds s name i r` says that the walk outward from the scope `i` finds `r` for a name.  It is
the plain walk: it goes wherever the parents lead, it has no rule for a scope that is not there, and
nothing in it bounds its length.

**In every reachable store the walk comes to an end** (`chains_wellFounded`), from every scope and
for every name, and what it finds is `Store.get?`.  A parent is an older scope, so the walk goes
down the numbers; functions that are bound in the very scope in which they were made do not matter,
since the walk never goes through a binding.
-/

set_option autoImplicit false

namespace TreeWalk

namespace Store

/-- The walk outward from a scope finds this for the name: the innermost binding, or nothing. -/
inductive Finds (s : Store) (name : String) : Nat → Option Value → Prop
  | here {i : Nat} {f : Frame} {v : Value} (hf : s.frames[i]? = some f)
      (hv : f.get? name = some v) : Finds s name i (some v)
  | outward {i p : Nat} {f : Frame} {r : Option Value} (hf : s.frames[i]? = some f)
      (hv : f.get? name = none) (hp : f.parent = some p) (h : Finds s name p r) : Finds s name i r
  | nowhere {i : Nat} {f : Frame} (hf : s.frames[i]? = some f) (hv : f.get? name = none)
      (hp : f.parent = none) : Finds s name i none

section Lookup

variable {s : Store} {i : Nat} {f : Frame} {name : String}

theorem get?_of_bound {v : Value} (hf : s.frames[i]? = some f) (hv : f.get? name = some v) :
    s.get? i name = some v := by
  have hlocal : s.local? i name = some v := by rw [local?, hf, Option.bind_some, hv]
  rw [get?, chain, hf]
  cases hp : f.parent with
  | none => simp [hp, hlocal]
  | some p =>
    simp only [hp]
    split <;> simp [hlocal]

theorem get?_of_parent_eq_none (hf : s.frames[i]? = some f) (hv : f.get? name = none)
    (hp : f.parent = none) : s.get? i name = none := by
  have hlocal : s.local? i name = none := by rw [local?, hf, Option.bind_some, hv]
  simp [get?, chain, hf, hp, hlocal]

/-- A name that a scope does not bind has the value that it has one scope further out. -/
theorem get?_of_parent {p : Nat} (hf : s.frames[i]? = some f) (hv : f.get? name = none)
    (hp : f.parent = some p) (hlt : p < i) : s.get? i name = s.get? p name := by
  have hlocal : s.local? i name = none := by rw [local?, hf, Option.bind_some, hv]
  rw [get?, chain, hf]
  simp [get?, hp, hlt, hlocal]

end Lookup

/-- The scope `p` is the parent of the scope `i`. -/
def IsParent (s : Store) (p i : Nat) : Prop :=
  ∃ f, s.frames[i]? = some f ∧ f.parent = some p

/-- The links to parents are well-founded, and each leads to a scope that is there. -/
structure WellLinked (s : Store) : Prop where
  wellFounded : WellFounded s.IsParent
  lt_size : ∀ {p i : Nat}, s.IsParent p i → p < s.frames.size

/-- Parents are older scopes. -/
def ParentsOlder (s : Store) : Prop := ∀ p i, s.IsParent p i → p < i

/-- The walk comes to an end. -/
theorem WellLinked.exists_finds {s : Store} (hs : s.WellLinked) (name : String) {i : Nat}
    (hi : i < s.frames.size) : ∃ r, s.Finds name i r := by
  induction i using hs.wellFounded.induction with
  | _ i ih =>
    have hf : s.frames[i]? = some s.frames[i] := Array.getElem?_eq_getElem hi
    cases hv : s.frames[i].get? name with
    | some v => exact ⟨_, .here hf hv⟩
    | none =>
      cases hp : s.frames[i].parent with
      | none => exact ⟨_, .nowhere hf hv hp⟩
      | some p =>
        have hparent : s.IsParent p i := ⟨_, hf, hp⟩
        obtain ⟨r, hr⟩ := ih p hparent (hs.lt_size hparent)
        exact ⟨r, .outward hf hv hp hr⟩

namespace ParentsOlder

variable {s : Store}

theorem wellLinked (hs : s.ParentsOlder) : s.WellLinked where
  wellFounded := Subrelation.wf (fun h => hs _ _ h) Nat.lt_wfRel.wf
  lt_size h := by
    have hlt := hs _ _ h
    obtain ⟨f, hf, -⟩ := h
    exact Nat.lt_trans hlt (Array.getElem?_eq_some_iff.1 hf).1

/-- What the walk finds is what the name is bound to. -/
theorem eq_get? (hs : s.ParentsOlder) {name : String} {i : Nat} {r : Option Value}
    (h : s.Finds name i r) : r = s.get? i name := by
  induction h with
  | here hf hv => rw [get?_of_bound hf hv]
  | outward hf hv hp _ ih => rw [ih, get?_of_parent hf hv hp (hs _ _ ⟨_, hf, hp⟩)]
  | nowhere hf hv hp => rw [get?_of_parent_eq_none hf hv hp]

end ParentsOlder

theorem Closed.parentsOlder {s : Store} (hs : s.Closed) : s.ParentsOlder := by
  rintro p i ⟨f, hf, hp⟩
  exact hs.parent_lt hf hp

theorem Finds.eq_get? {s : Store} (hs : s.Closed) {name : String} {i : Nat} {r : Option Value}
    (h : s.Finds name i r) : r = s.get? i name :=
  hs.parentsOlder.eq_get? h

/-- The walk in a closed store comes to an end. -/
theorem Closed.finds_get? {s : Store} (hs : s.Closed) (name : String) {i : Nat}
    (hi : i < s.frames.size) : s.Finds name i (s.get? i name) := by
  obtain ⟨r, hr⟩ := hs.parentsOlder.wellLinked.exists_finds name hi
  rw [← hr.eq_get? hs]
  exact hr

end Store

/-- **Chains are well-founded.**  In a reachable store every parent is an older scope, and every
function that is bound anywhere, at any depth of arrays and hashes, was made in a scope that is
there.  So the walk outward comes to an end from every scope and for every name, without meeting a
scope that is not there, and finds the value of the name. -/
theorem chains_wellFounded {s : Store} (h : s.Reachable) :
    (∀ (i : Nat) (f : Frame) (p : Nat), s.frames[i]? = some f → f.parent = some p → p < i) ∧
    (∀ (i : Nat) (f : Frame), s.frames[i]? = some f → ∀ b ∈ f.bindings, ∀ c ∈ b.2.closures,
      c.scope < s.frames.size) ∧
    ∀ i < s.frames.size, ∀ name r, s.Finds name i r ↔ r = s.get? i name := by
  have hs := h.closed
  refine ⟨fun i f p hf hp => hs.parent_lt hf hp, fun i f hf b hb => hs.livesIn hf b hb, ?_⟩
  intro i hi name r
  constructor
  · intro hr
    exact hr.eq_get? hs
  · rintro rfl
    exact hs.finds_get? name hi

/-- A function that is bound in the scope in which it was made, and the scope of a call of it: from
there the walk finds the function one scope further out. -/
theorem chains_wellFounded_recursive :
    ∃ (s : Store) (c : Closure),
      s.Reachable ∧ s.frames[0]? = some ⟨[("f", .closure c)], none⟩ ∧ c.scope = 0 ∧
      s.frames[1]? = some ⟨[("x", .array [.closure c])], some 0⟩ ∧
      s.Finds "f" 1 (some (.closure c)) := by
  let c : Closure := ⟨0, ⟨["x"], [.expr (.ident "f")]⟩, 0⟩
  let global : Frame := ⟨[("f", .closure c)], none⟩
  let s : Store := ⟨#[global], 1⟩
  let t : Store := ⟨#[global, ⟨[("x", .array [.closure c])], some 0⟩], 1⟩
  have hparse : Program.parse "var f = func(x) \x7bf\x7d" =
      .ok [.bind "f" (.func ["x"] [.expr (.ident "f")])] := by decide +kernel
  have hrun : run 5 "var f = func(x) \x7bf\x7d" 0 Store.empty.openGlobal.2 =
      ⟨.done (.closure c), s, []⟩ := by
    rw [run, hparse]
    with_unfolding_all rfl
  have hs : s.Reachable := by
    have hreach := Store.Reachable.empty.openGlobal.run (Nat.one_pos : 0 < 1) 5
      "var f = func(x) \x7bf\x7d"
    rwa [hrun] at hreach
  have hc : (Value.closure c).LivesIn s := by
    intro d hd
    obtain rfl := List.mem_singleton.1 hd
    exact Nat.one_pos
  have hcall : (Value.closure c).call 5 [.array [.closure c]] s =
      ⟨.done (.closure c), t, []⟩ := by with_unfolding_all rfl
  have hargs : ∀ v ∈ [Value.array [.closure c]], v.LivesIn s := by
    intro v hv
    obtain rfl := List.mem_singleton.1 hv
    exact hc
  have ht : t.Reachable := by
    have hreach := hs.call 5 hc hargs
    rwa [hcall] at hreach
  have hlookup : t.get? 1 "f" = some (.closure c) := by
    rw [Store.get?_of_parent (f := ⟨[("x", .array [.closure c])], some 0⟩) rfl rfl rfl Nat.one_pos]
    exact Store.get?_of_bound (f := global) rfl rfl
  have hfinds : t.Finds "f" 1 (some (.closure c)) :=
    ((chains_wellFounded ht).2.2 1 Nat.one_lt_two "f" _).2 hlookup.symm
  exact ⟨t, c, ht, rfl, rfl, rfl, hfinds⟩

end TreeWalk

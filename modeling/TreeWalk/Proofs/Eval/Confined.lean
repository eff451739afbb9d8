import TreeWalk.Proofs.Eval.Invariant
import TreeWalk.Proofs.Store.Functions

/-!
# Evaluation within a part of the store

Let `P` be a set of scopes that nothing leads out of: the parent of a scope in `P` is in `P`, and so
are the scopes in which the functions that it binds were made.  Two stores **share** `P` if they
have as many scopes, as many functions were made in them, and every scope of `P` has the very same
frame in both.  The frames of the other scopes may differ in any way.

**Evaluation in a scope of `P` cannot tell such stores apart** (`eval_confined`): it comes to the
very same value or error, prints the same lines, and leaves stores that share `P` again.  The scopes
that are yet to be opened count as scopes of `P`, so that the frames of the scopes that it opens are
the same as well.

Both runs number their scopes and their functions alike.  This is what sets it apart from evaluation
up to a renaming (`eval_simulates`): there is one computation and one value, not two that
correspond.
-/

set_option autoImplicit false

namespace TreeWalk

/-- The stores have as many scopes and functions, and the same frames in `P`, which nothing leads
out of.  Scopes that are yet to be opened are in `P`. -/
structure Store.Shares (P : Nat → Prop) (s t : Store) : Prop where
  size_eq : s.frames.size = t.frames.size
  closures_eq : s.closures = t.closures
  fresh : ∀ i, s.frames.size ≤ i → P i
  frame_eq : ∀ i, P i → s.frames[i]? = t.frames[i]?
  parent : ∀ {i p : Nat} {f : Frame}, P i → s.frames[i]? = some f → f.parent = some p → P p
  within : ∀ {i : Nat} {f : Frame}, P i → s.frames[i]? = some f → ∀ b ∈ f.bindings, b.2.Within P

namespace Store.Shares

variable {P : Nat → Prop} {s t : Store} {i : Nat}

/-- The same scopes are visible, and they are in `P`.  By induction outward. -/
theorem chain (h : s.Shares P t) (hi : P i) : s.chain i = t.chain i ∧ ∀ j ∈ s.chain i, P j := by
  induction i using Nat.strongRecOn with
  | ind i ih =>
    rw [Store.chain, Store.chain, ← h.frame_eq i hi]
    cases hf : s.frames[i]? with
    | none => exact ⟨rfl, nofun⟩
    | some f =>
      have hself : ∀ j ∈ [i], P j := by simpa using hi
      cases hp : f.parent with
      | none =>
        simp only [hp]
        exact ⟨trivial, hself⟩
      | some p =>
        simp only [hp]
        split
        · next hlt =>
          obtain ⟨hchain, hall⟩ := ih p hlt (h.parent hi hf hp)
          rw [hchain]
          exact ⟨rfl, List.forall_mem_cons.2 ⟨hi, hchain ▸ hall⟩⟩
        · exact ⟨rfl, hself⟩

theorem local?_eq (h : s.Shares P t) (hi : P i) (name : String) :
    s.local? i name = t.local? i name := by
  rw [Store.local?, Store.local?, h.frame_eq i hi]

/-- **A name has the same value in both stores.** -/
theorem get?_eq (h : s.Shares P t) (hi : P i) (name : String) :
    s.get? i name = t.get? i name := by
  obtain ⟨hchain, hall⟩ := h.chain hi
  rw [Store.get?, Store.get?, ← hchain]
  clear hchain
  generalize s.chain i = is at hall
  induction is with
  | nil => rfl
  | cons j is ih =>
    obtain ⟨hj, his⟩ := List.forall_mem_cons.1 hall
    rw [List.findSome?_cons, List.findSome?_cons, h.local?_eq hj, ih his]

theorem within_get? (h : s.Shares P t) (hi : P i) {name : String} {v : Value}
    (hv : s.get? i name = some v) : v.Within P := by
  obtain ⟨j, hj, hlocal⟩ := List.exists_of_findSome?_eq_some hv
  obtain ⟨f, hf, hlookup⟩ := Option.bind_eq_some_iff.1 hlocal
  exact h.within ((h.chain hi).2 j hj) hf (name, v) (mem_of_lookup_eq_some hlookup)

theorem close (h : s.Shares P t) (i : Nat) (f : Lambda) :
    (s.close i f).2.Shares P (t.close i f).2 :=
  ⟨h.size_eq, congrArg (· + 1) h.closures_eq, h.fresh, h.frame_eq, h.parent, h.within⟩

/-- The same value may be bound to a name in a scope. -/
theorem set (h : s.Shares P t) (i : Nat) (name : String) {v : Value} (hv : v.Within P) :
    (s.set i name v).Shares P (t.set i name v) := by
  have hframe (u : Store) (j : Nat) : (u.set i name v).frames[j]? =
      if i = j then u.frames[j]?.map (·.set name v) else u.frames[j]? := Array.getElem?_modify
  refine ⟨?_, h.closures_eq, ?_, ?_, ?_, ?_⟩
  · rw [Store.size_set, Store.size_set, h.size_eq]
  · intro j hj
    rw [Store.size_set] at hj
    exact h.fresh j hj
  · intro j hj
    rw [hframe, hframe, h.frame_eq j hj]
  · intro j p f hj hf hp
    rw [hframe] at hf
    split at hf
    · obtain ⟨g, hg, rfl⟩ := Option.map_eq_some_iff.1 hf
      exact h.parent hj hg hp
    · exact h.parent hj hf hp
  · intro j f hj hf
    rw [hframe] at hf
    split at hf
    · obtain ⟨g, hg, rfl⟩ := Option.map_eq_some_iff.1 hf
      exact SortedMap.forall_mem_insert hv (h.within hj hg)
    · exact h.within hj hf

/-- The same scope may be opened in both stores. -/
theorem openScope (h : s.Shares P t) (hi : P i) {es : List (String × Value)}
    (hes : ∀ b ∈ es, b.2.Within P) :
    (s.openScope (some i) es).2.Shares P (t.openScope (some i) es).2 := by
  have hsize (u : Store) : (u.openScope (some i) es).2.frames.size = u.frames.size + 1 :=
    Array.size_push _
  have hframe (u : Store) (j : Nat) : (u.openScope (some i) es).2.frames[j]? =
      if j = u.frames.size then some ⟨es, some i⟩ else u.frames[j]? := Array.getElem?_push
  refine ⟨?_, h.closures_eq, ?_, ?_, ?_, ?_⟩
  · rw [hsize, hsize, h.size_eq]
  · intro j hj
    rw [hsize] at hj
    exact h.fresh j (by omega)
  · intro j hj
    rw [hframe, hframe, h.size_eq, h.frame_eq j hj]
  · intro j p f hj hf hp
    rw [hframe] at hf
    split at hf
    · obtain rfl := Option.some_inj.1 hf
      obtain rfl := Option.some_inj.1 hp
      exact hi
    · exact h.parent hj hf hp
  · intro j f hj hf
    rw [hframe] at hf
    split at hf
    · obtain rfl := Option.some_inj.1 hf
      exact hes
    · exact h.within hj hf

end Store.Shares

/-- Runs in the scopes of `P`, from stores that share these. -/
def sharing (P : Nat → Prop) : Invariant Unit where
  le _ _ := True
  store _ s t := s.Shares P t
  scope _ := P
  value _ := Value.Within P
  demand _ := .none
  refl _ := trivial
  trans _ _ := trivial
  scope_mono _ h := h
  value_mono _ h := h
  hereditary _ := Value.hereditary_only fun c => P c.scope
  text _ := nofun
  meets {_ e} _ := e.meets_none
  size_eq h := h.size_eq
  closures_eq h := h.closures_eq
  get?_eq h hi _ := h.get?_eq hi _
  value_get? h hi hv := h.within_get? hi hv
  set h _ _ hv := h.set _ _ hv
  openScope {_ s _ _ _} h hc hes :=
    ⟨h.openScope (Value.only_closure.1 hc) hes, h.fresh s.frames.size (Nat.le_refl _),
      fun st _ => st.meets_none⟩
  close h hi _ := ⟨(), trivial, h.close _ _, Value.only_closure.2 hi⟩

/-- Two results are the same as far as `P` goes: the same lines were printed, the outcomes are
equal, and a value satisfies `Q`. -/
structure Result.Shares {α : Type} (P : Nat → Prop) (Q : α → Prop)
    (r r' : Result RuntimeError α) : Prop where
  store : r.store.Shares P r'.store
  output : r.output = r'.output
  outcome : r.outcome = r'.outcome
  value : ∀ a, r.outcome = .done a → Q a

namespace Eval

/-- From stores that share `P`, the computation comes to the same result. -/
def Confined {α : Type} (P : Nat → Prop) (Q : α → Prop) (m : Eval α) : Prop :=
  ∀ ⦃s t : Store⦄, s.Shares P t → (m s).Shares P Q (m t)

theorem Respects.confined {α : Type} {P : Nat → Prop} {Q : Unit → α → Prop} {m : Eval α}
    (h : Respects (sharing P) () Q m m) : Confined P (Q ()) m := by
  intro s t hst
  obtain ⟨_, -, hresult⟩ := h hst
  exact ⟨hresult.store, hresult.output, hresult.outcome, hresult.value⟩

end Eval

open Eval (Confined)

section Runs

variable (fuel : Nat) {P : Nat → Prop}

/-- **Evaluation in a scope of `P` cannot tell stores that share `P` apart**, at any bound. -/
theorem eval_confined {i : Nat} (e : Expr) (hi : P i) :
    Confined P (Value.Within P) (eval fuel i e) :=
  ((eval_respects (sharing P) fuel hi trivial).of_leaving id).confined

/-- The same for a call of a function that was made in a scope of `P`. -/
theorem Value.call_confined {callee : Value} (hcallee : callee.Within P) {args : List Value}
    (hargs : ∀ v ∈ args, v.Within P) : Confined P (Value.Within P) (callee.call fuel args) :=
  (Value.call_respects (sharing P) fuel hcallee hargs).confined

end Runs

end TreeWalk

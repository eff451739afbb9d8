import TreeWalk.Proofs.Eval.Coupling
import TreeWalk.Proofs.Store.Renaming

/-!
# Evaluation up to a renaming of scopes

**Evaluation cannot tell renamed stores apart**: from stores that correspond under a renaming, the
same code in corresponding scopes ends in the same way, prints the same lines and leaves stores that
correspond again, under a renaming that relates the scopes opened on the way as well
(`eval_simulates`, `Value.call_simulates`).

`Eval.Simulates R ρ m m'` relates two computations.  The renaming grows along a run, so the relation
asks for every renaming that extends `ρ`, and the relation `R` between the two values is one at the
renaming that is reached.  It grows by the scopes that the two runs open, in step with each other:
one by one, and in the same order (`Stage.InStep`).

This is a coupling (`renamedRuns`).  Its worlds are the stages of two runs: a renaming, with the
numbers of scopes that there are in the two stores.
-/

set_option autoImplicit false

namespace TreeWalk

/-- Two outcomes agree: related values, the same error, or the bound was reached in both. -/
inductive Outcome.Renamed {α β : Type} (R : α → β → Prop) :
    Outcome RuntimeError α → Outcome RuntimeError β → Prop
  | done {a : α} {b : β} (h : R a b) : Renamed R (.done a) (.done b)
  | failed (e : RuntimeError) : Renamed R (.failed e) (.failed e)
  | outOfFuel : Renamed R .outOfFuel .outOfFuel

/-- Two results agree at the renaming `ρ`: the stores correspond, the same lines were printed and
the outcomes agree. -/
structure Result.Renamed {α β : Type} (R : Renaming → α → β → Prop) (ρ : Renaming)
    (r : Result RuntimeError α) (r' : Result RuntimeError β) : Prop where
  store : r.store.Renamed ρ r'.store
  output : r.output = r'.output
  outcome : r.outcome.Renamed (R ρ) r'.outcome

/-- A stage of two runs: which scopes correspond, and how many there are in either store. -/
structure Stage where
  scopes : Renaming
  left : Nat
  right : Nat

/-- From one stage to the other, equally many scopes were opened in the two stores, and the second
renaming relates nothing beyond the first one but each of these to the one that was opened with
it. -/
def Stage.InStep (a b : Stage) : Prop :=
  ∃ n, b.left = a.left + n ∧ b.right = a.right + n ∧
    ∀ ⦃i j : Nat⦄, b.scopes i j →
      a.scopes i j ∨ ∃ k < n, i = a.left + k ∧ j = a.right + k

/-- The second stage comes after the first one: the renaming has grown, in step, and all the scopes
that were opened in the first store correspond to some in the second one. -/
structure Stage.Le (a b : Stage) : Prop where
  scopes : a.scopes.Le b.scopes
  opened : ∀ i, a.left ≤ i → i < b.left → ∃ j, b.scopes i j
  inStep : a.InStep b

theorem Stage.Le.refl (a : Stage) : a.Le a where
  scopes := .refl a.scopes
  opened _ hi hlt := absurd hlt (Nat.not_lt.2 hi)
  inStep := ⟨0, rfl, rfl, fun _ _ h => .inl h⟩

theorem Stage.Le.trans {a b c : Stage} (h : a.Le b) (h' : b.Le c) : a.Le c where
  scopes := h.scopes.trans h'.scopes
  opened i hi hlt := by
    -- A scope is new at the stage between or after it.
    by_cases hmid : i < b.left
    · obtain ⟨j, hij⟩ := h.opened i hi hmid
      exact ⟨j, h'.scopes hij⟩
    · exact h'.opened i (Nat.not_lt.1 hmid) hlt
  inStep := by
    obtain ⟨m, hleft, hright, hold⟩ := h.inStep
    obtain ⟨n, hleft', hright', hold'⟩ := h'.inStep
    refine ⟨m + n, by omega, by omega, fun i j hij => ?_⟩
    obtain hij | ⟨k, hk, rfl, rfl⟩ := hold' hij
    · obtain hij | ⟨k, hk, rfl, rfl⟩ := hold hij
      · exact .inl hij
      · exact .inr ⟨k, by omega, rfl, rfl⟩
    · exact .inr ⟨m + k, by omega, by omega, by omega⟩

/-- Opening a scope in each store. -/
theorem Stage.le_extend (ρ : Renaming) (m n : Nat) :
    Stage.Le ⟨ρ, m, n⟩ ⟨ρ.extend m n, m + 1, n + 1⟩ where
  scopes := ρ.le_extend m n
  opened _ hi hlt := ⟨n, .inr ⟨Nat.le_antisymm (Nat.le_of_lt_succ hlt) hi, rfl⟩⟩
  inStep := ⟨1, rfl, rfl, fun _ _ hij => hij.imp_right fun ⟨hi, hj⟩ => ⟨0, Nat.one_pos, hi, hj⟩⟩

/-- The stores correspond at the stage. -/
structure Store.RenamedAt (a : Stage) (s t : Store) : Prop where
  renamed : s.Renamed a.scopes t
  left : s.frames.size = a.left
  right : t.frames.size = a.right

/-- Runs of the same code in corresponding scopes of stores that correspond. -/
def renamedRuns : Coupling Stage where
  le := Stage.Le
  store := Store.RenamedAt
  scope a := a.scopes
  value a := Value.Renamed a.scopes
  demand _ := .none
  exhausts := True
  outruns := False
  refl := .refl
  trans := .trans
  scope_mono h hij := h.scopes hij
  value_mono h hv := hv.mono h.scopes
  congruence a := Value.Renamed.congruence a.scopes
  text _ := .str _
  meets {_ e} _ := e.meets_none
  get? hst hij _ := hst.renamed.get? hij _
  set hst hij _ hv := by
    refine ⟨hst.renamed.set hij _ hv, ?_, ?_⟩
    · rw [Store.size_set, hst.left]
    · rw [Store.size_set, hst.right]
  openScope := by
    rintro ⟨ρ, m, n⟩ s t c d es fs ⟨hst, rfl, rfl⟩ hcd hes
    cases hcd with
    | closure _ hscope =>
      refine ⟨_, Stage.le_extend ρ _ _, ⟨hst.openScope hscope hes, ?_, ?_⟩, .inr ⟨rfl, rfl⟩, ?_⟩
      · exact Array.size_push _
      · exact Array.size_push _
      · exact fun st _ => st.meets_none
  close hst hij _ :=
    ⟨_, .refl _, ⟨hst.renamed.close _ _ _, hst.left, hst.right⟩, .closure rfl hij⟩

namespace Eval

/-- From stores that correspond under an extension of `ρ`, the two computations come to results that
agree at a further extension.  This one relates all the scopes that the first computation opened,
each to the one that the second computation opened in its place. -/
def Simulates {α β : Type} (R : Renaming → α → β → Prop) (ρ : Renaming) (m : Eval α)
    (m' : Eval β) : Prop :=
  ∀ ⦃ρ₁ : Renaming⦄, ρ.Le ρ₁ → ∀ ⦃s t : Store⦄, s.Renamed ρ₁ t →
    ∃ ρ₂ : Renaming, ρ₁.Le ρ₂ ∧ (m s).Renamed R ρ₂ (m' t) ∧
      (∀ i, s.frames.size ≤ i → i < (m s).store.frames.size → ∃ j, ρ₂ i j) ∧
      Stage.InStep ⟨ρ₁, s.frames.size, t.frames.size⟩
        ⟨ρ₂, (m s).store.frames.size, (m' t).store.frames.size⟩

theorem Relates.simulates {α β : Type} {R : Renaming → α → β → Prop} {ρ : Renaming} {m : Eval α}
    {m' : Eval β}
    (h : ∀ a : Stage, ρ.Le a.scopes → Relates renamedRuns a (fun a => R a.scopes) m m') :
    Simulates R ρ m m' := by
  intro ρ₁ hle s t hst
  obtain ⟨hout, -⟩ | ⟨⟨ρ₂, k, l⟩, hstage, ⟨hstore, hleft, hright⟩, houtput, houtcome⟩ :=
    h ⟨ρ₁, s.frames.size, t.frames.size⟩ hle ⟨hst, rfl, rfl⟩
  · exact hout.elim
  · refine ⟨ρ₂, hstage.scopes, ⟨hstore, houtput, ?_⟩, ?_, ?_⟩
    · generalize (m s).outcome = o at houtcome
      generalize (m' t).outcome = o' at houtcome
      cases houtcome with
      | done hab => exact .done hab
      | failed _ => exact .failed _
      | outOfFuel _ => exact .outOfFuel
    · rw [hleft]
      exact hstage.opened
    · rw [hleft, hright]
      exact hstage.inStep

end Eval

open Eval (Relates Simulates)

/-- **Evaluation cannot tell renamed stores apart**, at any bound. -/
theorem eval_simulates (fuel : Nat) {ρ : Renaming} {i j : Nat} (e : Expr) (hij : ρ i j) :
    Simulates Value.Renamed ρ (eval fuel i e) (eval fuel j e) := by
  refine Relates.simulates fun a hle => (Relates.eval trivial fuel (hle hij) trivial).mono ?_
  rintro a v v' (hv | ⟨u, u', hu, rfl, rfl⟩)
  · exact hv
  · exact .pending hu

/-- The same for a program. -/
theorem Program.eval_simulates (fuel : Nat) {ρ : Renaming} {i j : Nat} (p : Program)
    (hij : ρ i j) : Simulates Value.Renamed ρ (p.eval fuel i) (p.eval fuel j) :=
  Relates.simulates fun _ hle => Relates.program (C := renamedRuns) trivial fuel (hle hij)
    fun st _ => st.meets_none

/-- The same for a call of a related function with related arguments. -/
theorem Value.call_simulates (fuel : Nat) {ρ : Renaming} {v w : Value} (hv : v.Renamed ρ w)
    {vs ws : List Value} (hvs : List.Forall₂ (Value.Renamed ρ) vs ws) :
    Simulates Value.Renamed ρ (v.call fuel vs) (w.call fuel ws) :=
  Relates.simulates fun _ hle => Relates.call (C := renamedRuns) trivial fuel (hv.mono hle)
    (hvs.imp fun _ _ hv => hv.mono hle)

end TreeWalk

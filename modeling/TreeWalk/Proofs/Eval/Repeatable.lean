import TreeWalk.Proofs.Program.RoundTrip
import TreeWalk.Proofs.Store.Reachable

/-!
# Calls are repeatable

**Calling a function again with the same arguments gives the same answer**, at once or after any
number of other calls: it fails with the same error or has a value that is shown alike, and it
prints the same lines.  The scopes that the second call opens, and the functions that it makes, have
other numbers than those of the first call; nothing else differs.

Calls change no scope that was there before (`Value.grows_call`), so the store in which the second
call starts has grown out of the first one's.  It corresponds to it, and evaluation cannot tell the
two apart (`Value.call_simulates`).
-/

set_option autoImplicit false

namespace TreeWalk

/-- The store is the first one after some calls that came to an end, each of any value with any
arguments. -/
inductive Store.AfterCalls (s : Store) : Store → Prop
  | refl : AfterCalls s s
  | call {t : Store} (h : AfterCalls s t) (fuel : Nat) (callee : Value) (args : List Value)
      (hends : (callee.call fuel args t).outcome ≠ .outOfFuel) :
      AfterCalls s (callee.call fuel args t).store

theorem Store.AfterCalls.grows {s t : Store} (h : s.AfterCalls t) : s.Grows t := by
  induction h with
  | refl => exact .refl s
  | @call t _ fuel callee args _ ih => exact ih.trans (callee.grows_call fuel args t)

/-- The results cannot be told apart: both failed with the same error or have values of the same
kind that are shown alike, and the same lines were printed.  A value without functions is equal to
the other one. -/
def Result.SameAnswer (r r' : Result RuntimeError Value) : Prop :=
  r.output = r'.output ∧
    ((∃ e, r.outcome = .failed e ∧ r'.outcome = .failed e) ∨
      ∃ v w, r.outcome = .done v ∧ r'.outcome = .done w ∧ v.kind = w.kind ∧
        v.display = w.display ∧ (v.closures = [] → (v == w) = true))

/-- Results that agree up to a renaming of scopes cannot be told apart. -/
theorem Result.Renamed.sameAnswer {ρ : Renaming} {r r' : Result RuntimeError Value}
    (h : r.Renamed Value.Renamed ρ r') (hends : r.outcome ≠ .outOfFuel) : r.SameAnswer r' := by
  obtain ⟨-, houtput, houtcome⟩ := h
  refine ⟨houtput, ?_⟩
  generalize r.outcome = o at houtcome hends
  generalize r'.outcome = o' at houtcome
  cases houtcome with
  | outOfFuel => exact absurd rfl hends
  | failed e => exact .inl ⟨e, rfl, rfl⟩
  | @done v w hv => exact .inr ⟨v, w, rfl, rfl, hv.kind_eq, hv.display_eq, fun hc => hv.same hc⟩

/-- **Calls are repeatable.**  In a reachable store, a call of a function that came to an end comes
to the same end, at the same bound, when it is repeated after any number of calls. -/
theorem call_repeatable {s t : Store} (hs : s.Reachable) {f : Closure}
    (hf : (Value.closure f).LivesIn s) {args : List Value} (hargs : ∀ v ∈ args, v.LivesIn s)
    {fuel : Nat} (hends : ((Value.closure f).call fuel args s).outcome ≠ .outOfFuel)
    (ht : ((Value.closure f).call fuel args s).store.AfterCalls t) :
    ((Value.closure f).call fuel args s).SameAnswer ((Value.closure f).call fuel args t) := by
  have hst : s.Grows t := ((Value.closure f).grows_call fuel args s).trans ht.grows
  have hsim := Value.call_simulates fuel hf.renamed (forall₂_livesIn hargs)
  obtain ⟨ρ, -, hresult, -⟩ := hsim (.refl _) (hs.closed.renamed hst)
  exact hresult.sameAnswer hends

/-- A function that makes functions: every call makes a new one, and they are shown alike. -/
theorem call_repeatable_maker :
    ∃ (s t : Store) (f c d : Closure),
      s.Reachable ∧ s.get? 0 "make" = some (.closure f) ∧
      ((Value.closure f).call 5 [.int 7] s).store.AfterCalls t ∧
      ((Value.closure f).call 5 [.int 7] s).outcome = .done (.array [.int 7, .closure c]) ∧
      ((Value.closure f).call 5 [.int 7] t).outcome = .done (.array [.int 7, .closure d]) ∧
      c.id ≠ d.id ∧
      ((Value.closure f).call 5 [.int 7] s).SameAnswer ((Value.closure f).call 5 [.int 7] t) := by
  let body : Block := [.expr (.array [.ident "x", .func [] [.expr (.ident "x")]])]
  let p : Program := [.bind "make" (.func ["x"] body)]
  let f : Closure := ⟨0, ⟨["x"], body⟩, 0⟩
  let global : Frame := ⟨[("make", .closure f)], none⟩
  let s : Store := ⟨#[global], 1⟩
  let s₁ : Store := ⟨#[global, ⟨[("x", .int 7)], some 0⟩], 2⟩
  let t : Store := ⟨#[global, ⟨[("x", .int 7)], some 0⟩, ⟨[("x", .null)], some 0⟩], 3⟩
  let made (n : Nat) : Closure := ⟨n, ⟨[], [.expr (.ident "x")]⟩, n⟩
  have hx : IsName "x" := ⟨⟨'x', [], rfl, rfl, List.all_eq_true.1 rfl⟩, by decide⟩
  have hmake : IsName "make" :=
    ⟨⟨'m', ['a', 'k', 'e'], rfl, rfl, List.all_eq_true.1 rfl⟩, by decide⟩
  have hparams : ∀ name ∈ ["x"], IsName name := fun name hname => List.mem_singleton.1 hname ▸ hx
  have hp : p.WellFormed :=
    ⟨⟨hmake, hparams, ⟨hx, ⟨List.forall_mem_nil _, hx, trivial⟩, trivial⟩, trivial⟩, trivial⟩
  have hrun : run 5 p.render 0 Store.empty.openGlobal.2 = ⟨.done (.closure f), s, []⟩ := by
    rw [run, parse_render hp]
    with_unfolding_all rfl
  have hs : s.Reachable := by
    have hreach := Store.Reachable.empty.openGlobal.run (Nat.one_pos : 0 < 1) 5 p.render
    rwa [hrun] at hreach
  have hf : (Value.closure f).LivesIn s := by
    intro c hc
    obtain rfl := List.mem_singleton.1 hc
    exact Nat.one_pos
  have hargs : ∀ v ∈ [Value.int 7], v.LivesIn s := by
    intro v hv c hc
    obtain rfl := List.mem_singleton.1 hv
    cases hc
  have hfirst : (Value.closure f).call 5 [.int 7] s =
      ⟨.done (.array [.int 7, .closure (made 1)]), s₁, []⟩ := by with_unfolding_all rfl
  have hother : (Value.closure f).call 5 [.null] s₁ =
      ⟨.done (.array [.null, .closure (made 2)]), t, []⟩ := by with_unfolding_all rfl
  have hsecond : ((Value.closure f).call 5 [.int 7] t).outcome =
      .done (.array [.int 7, .closure (made 3)]) := by with_unfolding_all rfl
  have hdone (v : Value) : (.done v : Outcome RuntimeError Value) ≠ .outOfFuel := by
    intro h
    cases h
  have ht : ((Value.closure f).call 5 [.int 7] s).store.AfterCalls t := by
    have hcall := (Store.AfterCalls.refl (s := s₁)).call 5 (.closure f) [.null]
    rw [hother] at hcall
    rw [hfirst]
    exact hcall (hdone _)
  refine ⟨s, t, f, made 1, made 3, hs, by with_unfolding_all rfl, ht, ?_, hsecond, by decide, ?_⟩
  · rw [hfirst]
  · exact call_repeatable hs hf hargs (by rw [hfirst]; exact hdone _) ht

end TreeWalk

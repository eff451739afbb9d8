import TreeWalk.Proofs.Eval.Invariant

/-!
# A larger bound changes no answer

`Agrees m m'` says that `m'` does what `m` does wherever `m` comes to an end.  Two runs from the
same store that go through the same steps agree in this way if the first one alone may reach its
bound early.  That is a coupling (`longerRun`), and evaluation under a smaller bound is coupled with
evaluation under a larger one, so these agree (`eval_agrees`).
-/

set_option autoImplicit false

namespace TreeWalk

/-- Two runs from the same store, of which the first one may reach its bound where the second one
goes on. -/
def longerRun : Coupling Unit :=
  { Invariant.coupling (.holding Value.hereditary_true .none (fun _ => trivial)
      (fun _ => Expr.meets_none _) (fun _ st _ => st.meets_none) fun _ _ _ => trivial) with
    outruns := True }

namespace Eval

variable {α : Type}

/-- The second computation does what the first one does, wherever the first one does not reach its
bound. -/
def Agrees (m m' : Eval α) : Prop := ∀ s, (m s).outcome = .outOfFuel ∨ m' s = m s

theorem Relates.agrees {m m' : Eval α} (h : Relates longerRun () (fun _ a b => a = b ∧ True) m m') :
    Agrees m m' := by
  intro s
  obtain ⟨-, hout⟩ | ⟨_, -, ⟨hstore, -⟩, houtput, houtcome⟩ := h ⟨rfl, fun _ _ _ _ _ => trivial⟩
  · exact .inl hout
  · exact .inr (Result.ext houtcome.of_equally.1 hstore houtput).symm

theorem Relates.agrees_leaving {m m' : Eval Value}
    (h : Relates longerRun () longerRun.leaving m m') : Agrees m m' := by
  refine (h.mono fun _ v v' hv => ?_).agrees
  rcases hv with hv | ⟨u, _, ⟨rfl, -⟩, rfl, rfl⟩
  · exact hv
  · exact ⟨rfl, trivial⟩

/-- The evaluation that stops earlier runs alongside the one that goes on. -/
theorem Relates.eval_of_le {m n : Nat} (h : m ≤ n) {w : Unit} {i j : Nat} {e : Expr}
    (hij : longerRun.scope w i j) (he : (longerRun.demand i).expr e) :
    Relates longerRun w longerRun.leaving (TreeWalk.eval m i e) (TreeWalk.eval n j e) := by
  induction m generalizing n w i j e with
  | zero => exact .outrun trivial _
  | succ m ih =>
    obtain ⟨n, rfl⟩ : ∃ k, n = k + 1 := ⟨n - 1, by omega⟩
    exact .expr (ih (Nat.le_of_succ_le_succ h)) hij (longerRun.meets he)

end Eval

open Eval (Agrees Relates)

variable {m n : Nat} (h : m ≤ n)

include h

/-- **A larger bound changes no answer** of the evaluation of an expression. -/
theorem eval_agrees (scope : Nat) (e : Expr) : Agrees (eval m scope e) (eval n scope e) :=
  (Relates.eval_of_le h ⟨rfl, trivial⟩ trivial).agrees_leaving

/-- A larger bound changes no answer of the evaluation of a program. -/
theorem Program.eval_agrees (scope : Nat) (p : Program) :
    Agrees (p.eval m scope) (p.eval n scope) :=
  (Relates.settle (C := longerRun) (w := ()) (.block (.eval_of_le h) ⟨rfl, trivial⟩
    fun st _ => st.meets_none)).agrees

/-- A larger bound changes no answer of a call. -/
theorem Value.call_agrees (callee : Value) (args : List Value) :
    Agrees (callee.call m args) (callee.call n args) :=
  (Relates.apply (C := longerRun) (w := ()) (.eval_of_le h) ⟨rfl, trivial⟩
    (Value.forall₂_equally.2 ⟨rfl, fun _ _ => trivial⟩)).agrees

end TreeWalk

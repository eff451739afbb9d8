import TreeWalk.Proofs.Eval.Invariant
import TreeWalk.Proofs.Eval.Settled

/-!
# No pending value is ever seen

**A program that starts from a settled store leaves a settled store behind, whatever happens on its
way**; its value is settled, and its error names no pending value.  Inside, a pending value is
wrapped around a settled one exactly once, goes out of every expression on its way, and is unwrapped
by the call or the program that it belongs to.

`Clean` says what is to hold of one result.  `Tracks` is about two computations: from every settled
store the first one ends cleanly, and the second one does the same there.  Both follow from the
invariant that stores are settled (`settledStores`).  The second computation makes this an invariant
of everything in between, too.  Its inner evaluations need to be right from settled stores only, and
still the results are equal, so no inner evaluation is ever started from a store that is not
settled.
-/

set_option autoImplicit false

namespace TreeWalk

/-- The store is settled, the value satisfies `P` and the error names no pending value. -/
structure Clean {α : Type} (P : α → Prop) (r : Result RuntimeError α) : Prop where
  store : r.store.Settled
  value : ∀ a, r.outcome = .done a → P a
  error : ∀ e, r.outcome = .failed e → e.Settled

/-- All values that the store binds are settled. -/
def settledStores : Invariant Unit :=
  .holding Value.Settled.hereditary .none (fun _ => .str _) (fun _ => Expr.meets_none _)
    (fun _ st _ => st.meets_none) fun _ _ _ => .closure _

namespace Eval

variable {α : Type}

/-- From every settled store the first computation ends cleanly, and the second one does the
same. -/
def Tracks (P : α → Prop) (m m' : Eval α) : Prop :=
  ∀ s : Store, s.Settled → Clean P (m s) ∧ m' s = m s

theorem Respects.tracks {Q : Unit → α → Prop} {m m' : Eval α}
    (h : Respects settledStores () Q m m') : Tracks (Q ()) m m' := by
  intro s hs
  obtain ⟨_, -, hresult⟩ := h ⟨rfl, hs⟩
  obtain ⟨hsame, hstore⟩ := hresult.store
  have herror (e : RuntimeError) (he : (m s).outcome = .failed e) : e.Settled :=
    RuntimeError.settled_of_forall (hresult.error e he)
  exact ⟨⟨hstore, hresult.value, herror⟩, (hresult.eq hsame).symm⟩

end Eval

open Eval (Relates Tracks)

/-- The run of an evaluation keeps what its rules keep, at every bound. -/
theorem eval_tracks (fuel scope : Nat) (e : Expr) :
    Tracks Value.Leaving (eval fuel scope e) (eval fuel scope e) :=
  (eval_respects settledStores fuel trivial trivial).tracks

theorem stmt_tracks (fuel scope : Nat) (st : Stmt) :
    Tracks Value.Leaving (Eval.stmt (eval fuel) scope st) (Eval.stmt (eval fuel) scope st) :=
  (stmt_respects settledStores fuel trivial st.meets_none).tracks

theorem block_tracks (fuel scope : Nat) (b : Block) :
    Tracks Value.Leaving (Eval.block (eval fuel) scope b) (Eval.block (eval fuel) scope b) :=
  (block_respects settledStores fuel trivial fun st _ => st.meets_none).tracks

/-- A program is a block that is settled at its end. -/
theorem Program.eval_tracks (fuel scope : Nat) (p : Program) :
    Tracks Value.Settled (p.eval fuel scope) (p.eval fuel scope) :=
  (p.eval_respects settledStores fuel trivial fun st _ => st.meets_none).tracks

/-- A call on settled arguments, unless the callee is a container, which cannot be called. -/
theorem Value.call_tracks (fuel : Nat) {callee : Value} (hcallee : callee.Settled)
    {args : List Value} (hargs : ∀ v ∈ args, v.Settled) :
    Tracks Value.Settled (callee.call fuel args) (callee.call fuel args) :=
  (Value.call_respects settledStores fuel hcallee hargs).tracks

/-- A call of a pending value fails at once, and every other call ends cleanly. -/
theorem Value.settled_of_call (fuel : Nat) (callee : Value) {args : List Value}
    (hargs : ∀ v ∈ args, v.Settled) {s : Store} (hs : s.Settled) :
    (callee.call fuel args s).store.Settled ∧
      (∀ v, (callee.call fuel args s).outcome = .done v → v.Settled) ∧
      (callee.kind ≠ .returnValue →
        ∀ e, (callee.call fuel args s).outcome = .failed e → e.Settled) := by
  have hclean (hcallee : callee.Settled) : Clean Value.Settled (callee.call fuel args s) :=
    (Value.call_tracks fuel hcallee hargs s hs).1
  have hfails (hcall : callee.call fuel args = Eval.fail (.notCallable callee.kind)) :
      (callee.call fuel args s).store.Settled ∧
        (∀ v, (callee.call fuel args s).outcome = .done v → v.Settled) ∧
        (callee.kind ≠ .returnValue →
          ∀ e, (callee.call fuel args s).outcome = .failed e → e.Settled) := by
    rw [hcall]
    refine ⟨hs, nofun, ?_⟩
    rintro hne e ⟨⟩ hk
    exact hne (List.mem_singleton.1 hk).symm
  cases callee with
  | closure c =>
    have h := hclean (.closure c)
    exact ⟨h.store, h.value, fun _ => h.error⟩
  | builtin b =>
    have h := hclean (.builtin b)
    exact ⟨h.store, h.value, fun _ => h.error⟩
  | _ => exact hfails rfl

/-- **No pending value is ever seen.**  From a settled store, at every bound and in every scope:
a program leaves a settled store, has a settled value and fails with an error that names no pending
value; an expression, a statement and a block give a settled value or one that is wrapped exactly
once; a call on settled arguments gives a settled value; and nothing changes if the evaluation of
inner expressions is replaced by one that is right from settled stores only, so every evaluation on
the way starts from a settled store as well. -/
theorem pending_never_observed (fuel scope : Nat) {s : Store} (hs : s.Settled) :
    (∀ p : Program, Clean Value.Settled (p.eval fuel scope s)) ∧
    (∀ e, Clean Value.Leaving (eval fuel scope e s)) ∧
    (∀ st, Clean Value.Leaving (Eval.stmt (eval fuel) scope st s)) ∧
    (∀ b, Clean Value.Leaving (Eval.block (eval fuel) scope b s)) ∧
    (∀ (callee : Value) (args : List Value), (∀ v ∈ args, v.Settled) →
      (callee.call fuel args s).store.Settled ∧
        (∀ v, (callee.call fuel args s).outcome = .done v → v.Settled) ∧
        (callee.kind ≠ .returnValue →
          ∀ e, (callee.call fuel args s).outcome = .failed e → e.Settled)) ∧
    ∀ inner : Nat → Expr → Eval Value,
      (∀ scope e t, t.Settled → inner scope e t = eval fuel scope e t) →
      (∀ e, Eval.expr inner scope e s = eval (fuel + 1) scope e s) ∧
        ∀ b, Eval.block inner scope b s = Eval.block (eval fuel) scope b s := by
  refine ⟨?_, ?_, ?_, ?_, ?_, ?_⟩
  · intro p
    exact (p.eval_tracks fuel scope s hs).1
  · intro e
    exact (eval_tracks fuel scope e s hs).1
  · intro st
    exact (stmt_tracks fuel scope st s hs).1
  · intro b
    exact (block_tracks fuel scope b s hs).1
  · intro callee args hargs
    exact callee.settled_of_call fuel hargs hs
  · intro inner hinner
    let C := settledStores.coupling
    have hrelates {w : Unit} {i j : Nat} {e : Expr} (hij : C.scope w i j)
        (he : (C.demand i).expr e) : Relates C w C.leaving (eval fuel i e) (inner j e) :=
      (Relates.eval trivial fuel hij he).congr fun _ t hst => hinner j e t (hst.1 ▸ hst.2)
    have hscope : C.scope () scope scope := ⟨rfl, trivial⟩
    refine ⟨?_, ?_⟩
    · intro e
      exact ((Relates.expr hrelates hscope e.meets_none).respects_leaving.tracks s hs).2
    · intro b
      have hblock := Relates.block hrelates hscope fun st (_ : st ∈ b) => st.meets_none
      exact (hblock.respects_leaving.tracks s hs).2

/-- A `return` from inside an array ends the call around it, and the value is the bare one. -/
theorem pending_never_observed_array :
    ∃ (s : Store) (p : Program),
      s = ⟨#[⟨[("n", .int 7)], none⟩], 0⟩ ∧
      p = [.bind "f" (.func ["x"]
          [.expr (.array [.int 1, .cond (.bool true) [.ret (.ident "x")] none])]),
        .expr (.call (.ident "f") [.ident "n"])] ∧
      s.Settled ∧ (p.eval 4 0 s).outcome = .done (.int 7) ∧
      Clean Value.Settled (p.eval 4 0 s) := by
  have hs : Store.Settled ⟨#[⟨[("n", .int 7)], none⟩], 0⟩ := by
    rintro (_ | i) f hf b hb
    · obtain rfl := Option.some_inj.1 hf
      obtain rfl := List.mem_singleton.1 hb
      exact .int 7
    · cases hf
  exact ⟨_, _, rfl, rfl, hs, by with_unfolding_all rfl, (pending_never_observed 4 0 hs).1 _⟩

end TreeWalk

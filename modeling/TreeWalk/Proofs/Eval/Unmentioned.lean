import TreeWalk.Program.Equality
import TreeWalk.Proofs.Eval.Invariant
import TreeWalk.Proofs.Store.Functions
import TreeWalk.Proofs.Store.Binding

/-!
# Names that no code mentions

Let a name occur neither in a program nor in the literal of any function in the store.  **Binding it
to anything, in any scope, makes no difference to the program** (`eval_set_unmentioned`): the
evaluation ends in the same way, prints the same lines, and leaves the store that it leaves anyway,
with the one binding added.  This also holds for the name of a builtin, and whatever the new value
is; functions in it may well mention the name, for they are never found.

The invariant (`unmentioned`) relates a store to the one with the binding.  All code that can ever
run is made of the program and of the literals in the store, and a function made on the way has its
literal from one of these.
-/

set_option autoImplicit false

namespace TreeWalk

/-- No function in the store has the name in its literal. -/
def Store.Avoids (x : String) (s : Store) : Prop := s.Only fun c => x ∉ c.lambda.names

/-- A store and the one in which the name is bound in a scope, when no function mentions it. -/
def unmentioned (k : Nat) (x : String) (v : Value) : Invariant Unit where
  le _ _ := True
  store _ s t := k < s.frames.size ∧ s.Avoids x ∧ t = s.set k x v
  scope _ _ := True
  value _ := Value.Only fun c => x ∉ c.lambda.names
  demand _ := (Vocabulary.naming (· ≠ x)).demand
  refl _ := trivial
  trans _ _ := trivial
  scope_mono _ h := h
  value_mono _ h := h
  hereditary _ := Value.hereditary_only _
  text _ := nofun
  meets h := h.meets
  size_eq := by
    rintro - s t ⟨-, -, rfl⟩
    exact (s.size_set k x v).symm
  closures_eq := by
    rintro - s t ⟨-, -, rfl⟩
    rfl
  get?_eq := by
    rintro - s t i name ⟨-, -, rfl⟩ - hname
    exact (s.get?_set_of_ne k v hname i).symm
  value_get? h _ hget := h.2.1.get? hget
  set := by
    rintro - s t i name u ⟨hk, hs, rfl⟩ - hname hu
    refine ⟨?_, hs.set i name hu, s.set_comm k v hname i u⟩
    rw [Store.size_set]
    exact hk
  openScope := by
    rintro - s t c es ⟨hk, hs, rfl⟩ hc hes
    refine ⟨⟨?_, hs.openScope _ hes, s.openScope_set k v x hk _ es⟩, trivial, ?_⟩
    · rw [Store.openScope, Array.size_push]
      exact Nat.lt_succ_of_lt hk
    · refine Stmt.meets_of_allIn (Stmt.allIn_naming _ fun y hy heq => Value.only_closure.1 hc ?_)
      rw [← heq]
      exact List.mem_append_right _ hy
  close := by
    rintro - s t i f ⟨hk, hs, rfl⟩ - hf
    exact ⟨(), trivial, ⟨hk, hs, rfl⟩, Value.only_closure.2 fun hmem => hf x hmem rfl⟩

/-- **Names that no code mentions do not matter.**  If a name occurs neither in the program nor in
the literal of a function in the store, binding it in any scope of the store changes neither the
outcome nor the lines, neither the scopes that are opened nor any other binding.  It only adds
itself to the store that is left. -/
theorem eval_set_unmentioned {p : Program} {s : Store} {k : Nat} {x : String}
    (hk : k < s.frames.size) (hp : x ∉ Stmt.blockNames p) (hs : s.Avoids x) (v : Value)
    (fuel scope : Nat) :
    (p.eval fuel scope (s.set k x v)).outcome = (p.eval fuel scope s).outcome ∧
    (p.eval fuel scope (s.set k x v)).output = (p.eval fuel scope s).output ∧
    (p.eval fuel scope (s.set k x v)).store = (p.eval fuel scope s).store.set k x v ∧
    (∀ i, s.frames.size ≤ i → (p.eval fuel scope (s.set k x v)).store.frames[i]? =
      (p.eval fuel scope s).store.frames[i]?) ∧
    ∀ i name, ¬ (i = k ∧ name = x) → (p.eval fuel scope (s.set k x v)).store.local? i name =
      (p.eval fuel scope s).store.local? i name := by
  have hcode : Stmt.AllIn (.naming (· ≠ x)) p :=
    Stmt.allIn_naming p fun y hy heq => hp (heq ▸ hy)
  obtain ⟨_, -, ⟨-, -, hstore⟩, houtput, houtcome, -, -⟩ :=
    p.eval_respects (unmentioned k x v) fuel (w := ()) (i := scope) trivial
      (Stmt.meets_of_allIn hcode) ⟨hk, hs, rfl⟩
  refine ⟨houtcome.symm, houtput.symm, hstore, fun i hi => ?_, fun i name hne => ?_⟩
  · rw [hstore, Store.getElem?_set]
    simp only [if_neg (by omega : ¬ k = i), Option.map_id']
  · rw [hstore, Store.local?_set, if_neg fun h => hne ⟨h.1, h.2.1⟩]

/-- The name of a builtin may be bound where only others are called. -/
theorem eval_set_unmentioned_len :
    ∃ (s : Store) (c : Closure) (p : Program), s.Reachable ∧ s.get? 0 "f" = some (.closure c) ∧
      Program.parse "puts(f(1))" = .ok p ∧ Builtin.ofName? "len" = some .len ∧
      ∀ v fuel, (p.eval fuel 0 (s.set 0 "len" v)).outcome = (p.eval fuel 0 s).outcome ∧
        (p.eval fuel 0 (s.set 0 "len" v)).output = (p.eval fuel 0 s).output := by
  let c : Closure := ⟨0, ⟨["n"], [.expr (.binary .add (.ident "n") (.int 1))]⟩, 0⟩
  let s : Store := ⟨#[⟨[("f", .closure c)], none⟩], 1⟩
  have hparse : Program.parse "var f = func(n) \x7bn + 1\x7d" =
      .ok [.bind "f" c.lambda.toExpr] := by decide +kernel
  have hrun : run 5 "var f = func(n) \x7bn + 1\x7d" 0 Store.empty.openGlobal.2 =
      ⟨.done (.closure c), s, []⟩ := by
    rw [run, hparse]
    with_unfolding_all rfl
  have hs : s.Reachable := by
    have hreach := Store.Reachable.empty.openGlobal.run (Nat.one_pos : 0 < 1) 5
      "var f = func(n) \x7bn + 1\x7d"
    rwa [hrun] at hreach
  have havoids : s.Avoids "len" := by
    rintro (_ | i) f hf b hb d hd
    · obtain rfl := Option.some_inj.1 hf
      obtain rfl := List.mem_singleton.1 hb
      obtain rfl := List.mem_singleton.1 hd
      decide
    · cases hf
  refine ⟨s, c, [.expr (.call (.ident "puts") [.call (.ident "f") [.int 1]])], hs, ?_,
    by decide +kernel, by decide, fun v fuel => ?_⟩
  · with_unfolding_all rfl
  · have h := eval_set_unmentioned (s := s) (k := 0)
      (p := [.expr (.call (.ident "puts") [.call (.ident "f") [.int 1]])]) Nat.one_pos (by decide)
      havoids v fuel 0
    exact ⟨h.1, h.2.1⟩

end TreeWalk

import TreeWalk.Interpreter
import TreeWalk.Proofs.Eval.LocalWrites
import TreeWalk.Proofs.Eval.Renaming

/-!
# The stores that can come up

A store is **reachable** if it is made from the empty one by the operations of the library: opening
global and enclosed scopes, binding values, running source texts and calling functions, whether
these succeed or fail.

**Every reachable store is closed** (`Store.Reachable.closed`): the parent of a scope is an older
scope, and every function that is bound somewhere was made in a scope that is there.  A closed store
corresponds to itself, and to every store that has grown out of it, with each scope corresponding to
itself (`Store.Closed.renamed`).  So that evaluation keeps stores closed is a case of evaluation up
to a renaming.
-/

set_option autoImplicit false

namespace TreeWalk

/-- The scopes in which the functions of the value were made are scopes of the store. -/
def Value.LivesIn (s : Store) (v : Value) : Prop := ∀ c ∈ v.closures, c.scope < s.frames.size

/-- Parents are older, and the functions that are bound live in the store. -/
structure Store.Closed (s : Store) : Prop where
  parent_lt : ∀ {i p : Nat} {f : Frame}, s.frames[i]? = some f → f.parent = some p → p < i
  livesIn : ∀ {i : Nat} {f : Frame}, s.frames[i]? = some f → ∀ b ∈ f.bindings, b.2.LivesIn s

/-- The stores that the operations of the library lead to. -/
inductive Store.Reachable : Store → Prop
  | empty : Reachable .empty
  | openGlobal {s : Store} (h : Reachable s) : Reachable s.openGlobal.2
  | enclose {s : Store} (h : Reachable s) {scope : Nat} (hscope : scope < s.frames.size) :
      Reachable (s.openScope (some scope) []).2
  | set {s : Store} (h : Reachable s) {scope : Nat} (hscope : scope < s.frames.size) (name : String)
      {v : Value} (hv : v.LivesIn s) : Reachable (s.set scope name v)
  | run {s : Store} (h : Reachable s) {scope : Nat} (hscope : scope < s.frames.size) (fuel : Nat)
      (source : String) : Reachable (run fuel source scope s).store
  | call {s : Store} (h : Reachable s) (fuel : Nat) {callee : Value} (hcallee : callee.LivesIn s)
      {args : List Value} (hargs : ∀ v ∈ args, v.LivesIn s) :
      Reachable (callee.call fuel args s).store

/-! ## Closed stores correspond to themselves -/

/-- Every scope below a number, related to itself. -/
def Renaming.below (n : Nat) : Renaming := fun i j => i = j ∧ i < n

theorem Value.LivesIn.renamed {s : Store} {v : Value} (h : v.LivesIn s) :
    v.Renamed (.below s.frames.size) v :=
  v.renamed_self fun c hc => ⟨rfl, h c hc⟩

theorem forall₂_livesIn {s : Store} {vs : List Value} (h : ∀ v ∈ vs, v.LivesIn s) :
    List.Forall₂ (Value.Renamed (.below s.frames.size)) vs vs :=
  List.forall₂_same.2 fun v hv => (h v hv).renamed

/-- **A closed store corresponds to every store that it has grown to.** -/
theorem Store.Closed.renamed {s t : Store} (hs : s.Closed) (hst : s.Grows t) :
    s.Renamed (.below s.frames.size) t := by
  refine Store.renamed_on fun i hi => ?_
  have hf : s.frames[i]? = some s.frames[i] := Array.getElem?_eq_getElem hi
  refine ⟨s.frames[i], hf, hst i _ hf, hs.livesIn hf, fun p hp => ?_⟩
  have hlt := hs.parent_lt hf hp
  exact ⟨Nat.lt_trans hlt hi, hlt⟩

/-! ## What keeps a store closed -/

theorem Value.Renamed.livesIn {ρ : Renaming} {s t : Store} (hst : s.Renamed ρ t) {v w : Value}
    (h : v.Renamed ρ w) : v.LivesIn s := by
  intro c hc
  obtain ⟨j, hj⟩ := h.exists_scope c hc
  exact hst.left_lt hj

theorem Filed.livesIn {ρ : Renaming} {s t : Store} (hst : s.Renamed ρ t)
    {es fs : List (String × Value)} (h : Filed (Value.Renamed ρ) es fs) :
    ∀ b ∈ es, b.2.LivesIn s := by
  induction h with
  | nil => exact fun b hb => absurd hb List.not_mem_nil
  | cons hv _ ih => exact List.forall_mem_cons.2 ⟨hv.livesIn hst, ih⟩

/-- A store all of whose scopes correspond to scopes of some other store is closed. -/
theorem Store.Renamed.closed {ρ : Renaming} {s t : Store} (h : s.Renamed ρ t)
    (hall : ∀ i < s.frames.size, ∃ j, ρ i j) : s.Closed := by
  -- A frame of the store is the left one of a related pair.
  have hpair {i : Nat} {f : Frame} (hf : s.frames[i]? = some f) :
      ∃ j g, f.Renamed ρ t i j g := by
    obtain ⟨j, hij⟩ := hall i (Array.getElem?_eq_some_iff.1 hf).1
    obtain ⟨f', g, hf', -, hfg⟩ := h.frames hij
    rw [hf, Option.some_inj] at hf'
    exact ⟨j, g, hf' ▸ hfg⟩
  refine ⟨?_, ?_⟩
  · intro i p f hf hp
    obtain ⟨j, g, -, hparent⟩ := hpair hf
    rw [hp] at hparent
    generalize g.parent = q at hparent
    cases hparent with
    | some _ hlt _ => exact hlt
  · intro i f hf
    obtain ⟨j, g, hbindings, -⟩ := hpair hf
    exact hbindings.livesIn h

/-- A computation that cannot tell renamed stores apart keeps a store closed. -/
theorem Eval.Simulates.closed {R : Renaming → Value → Value → Prop} {s : Store} {m : Eval Value}
    (hs : s.Closed) (hm : Simulates R (.below s.frames.size) m m) : (m s).store.Closed := by
  obtain ⟨ρ, hle, hresult, hnew, -⟩ := hm (.refl _) (hs.renamed (.refl s))
  refine hresult.store.closed fun i hi => ?_
  by_cases hold : i < s.frames.size
  · exact ⟨i, hle ⟨rfl, hold⟩⟩
  · exact hnew i (Nat.not_lt.1 hold) hi

namespace Store.Closed

variable {s : Store}

theorem empty : Store.empty.Closed where
  parent_lt h := by simp [Store.empty] at h
  livesIn h := by simp [Store.empty] at h

/-- Opening a scope without bindings, in an older scope or in none. -/
theorem openScope (h : s.Closed) {parent : Option Nat} (hparent : ∀ p ∈ parent, p < s.frames.size) :
    (s.openScope parent []).2.Closed := by
  have hlives {v : Value} (hv : v.LivesIn s) : v.LivesIn (s.openScope parent []).2 := by
    intro c hc
    have hsize : (s.openScope parent []).2.frames.size = s.frames.size + 1 := Array.size_push _
    exact Nat.lt_of_lt_of_le (hv c hc) (by omega)
  refine ⟨?_, ?_⟩
  · intro i p f hf hp
    rw [Store.openScope, Array.getElem?_push] at hf
    split at hf
    · next hi =>
      obtain rfl := Option.some_inj.1 hf
      exact hi ▸ hparent p hp
    · exact h.parent_lt hf hp
  · intro i f hf b hb
    rw [Store.openScope, Array.getElem?_push] at hf
    split at hf
    · obtain rfl := Option.some_inj.1 hf
      cases hb
    · exact hlives (h.livesIn hf b hb)

/-- Binding a value that lives in the store. -/
theorem set (h : s.Closed) (scope : Nat) (name : String) {v : Value} (hv : v.LivesIn s) :
    (s.set scope name v).Closed := by
  have hlives {w : Value} (hw : w.LivesIn s) : w.LivesIn (s.set scope name v) := by
    intro c hc
    rw [Store.size_set]
    exact hw c hc
  refine ⟨?_, ?_⟩
  · intro i p f hf hp
    rw [Store.set, Array.getElem?_modify] at hf
    split at hf
    · obtain ⟨g, hg, rfl⟩ := Option.map_eq_some_iff.1 hf
      exact h.parent_lt hg hp
    · exact h.parent_lt hf hp
  · intro i f hf b hb
    rw [Store.set, Array.getElem?_modify] at hf
    split at hf
    · obtain ⟨g, hg, rfl⟩ := Option.map_eq_some_iff.1 hf
      rcases SortedMap.mem_insert hb with rfl | hb
      · exact hlives hv
      · exact hlives (h.livesIn hg b hb)
    · exact hlives (h.livesIn hf b hb)

theorem run (h : s.Closed) {scope : Nat} (hscope : scope < s.frames.size) (fuel : Nat)
    (source : String) : (run fuel source scope s).store.Closed := by
  rw [TreeWalk.run]
  cases Program.parse source with
  | error e => exact h
  | ok p => exact (p.eval_simulates fuel ⟨rfl, hscope⟩).closed h

theorem call (h : s.Closed) (fuel : Nat) {callee : Value} (hcallee : callee.LivesIn s)
    {args : List Value} (hargs : ∀ v ∈ args, v.LivesIn s) :
    (callee.call fuel args s).store.Closed :=
  (Value.call_simulates fuel hcallee.renamed (forall₂_livesIn hargs)).closed h

end Store.Closed

/-- **Every reachable store is closed.** -/
theorem Store.Reachable.closed {s : Store} (h : s.Reachable) : s.Closed := by
  induction h with
  | empty => exact .empty
  | openGlobal _ ih => exact ih.openScope fun p hp => by cases hp
  | enclose _ hscope ih =>
    refine ih.openScope fun p hp => ?_
    obtain rfl := Option.some_inj.1 hp
    exact hscope
  | set _ _ name hv ih => exact ih.set _ name hv
  | run _ hscope fuel source ih => exact ih.run hscope fuel source
  | call _ fuel hcallee hargs ih => exact ih.call fuel hcallee hargs

end TreeWalk

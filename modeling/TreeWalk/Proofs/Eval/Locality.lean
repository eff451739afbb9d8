import TreeWalk.Program.Equality
import TreeWalk.Proofs.Eval.Confined
import TreeWalk.Proofs.Store.Reachable

/-!
# Calls are local

**What a call does is decided by the scopes that it can reach** (`call_local`): the scope in which
the function was made, those in which the functions in its arguments were made, and from there on
along parents and along the functions that are bound on the way.  Whatever the other scopes bind,
those of the caller among them, the call comes to the same end, prints the same lines and opens
scopes with the same frames.

Two stores that agree on the reachable scopes correspond to each other with each of these scopes
related to itself, and evaluation opens new scopes in step; so the call has the same effect but for
the numbers of the functions that it makes, which go on from how many there were in either store.
If there were equally many, the stores share all that is reachable, and nothing at all differs.
-/

set_option autoImplicit false

namespace TreeWalk

/-! ## What is reachable -/

/-- The scope can be reached from the values: a function in one of them was made there, or it is the
parent of a scope that can be reached, or a function that such a scope binds was made there. -/
inductive Store.Reaches (s : Store) (vs : List Value) : Nat → Prop
  | made {v : Value} {c : Closure} (hv : v ∈ vs) (hc : c ∈ v.closures) : Reaches s vs c.scope
  | parent {i p : Nat} {f : Frame} (h : Reaches s vs i) (hf : s.frames[i]? = some f)
      (hp : f.parent = some p) : Reaches s vs p
  | bound {i : Nat} {f : Frame} {b : String × Value} {c : Closure} (h : Reaches s vs i)
      (hf : s.frames[i]? = some f) (hb : b ∈ f.bindings) (hc : c ∈ b.2.closures) :
      Reaches s vs c.scope

/-- The stores have as many scopes, and the scopes of `P` have the same frames in both. -/
structure Store.AlikeOn (P : Nat → Prop) (s t : Store) : Prop where
  size_eq : s.frames.size = t.frames.size
  frame_eq : ∀ i, P i → s.frames[i]? = t.frames[i]?

section Reaches

variable {s t : Store} {vs : List Value} {i : Nat}

/-- Nothing that can be reached in a closed store is missing from it. -/
theorem Store.Reaches.lt (hs : s.Closed) (hvs : ∀ v ∈ vs, v.LivesIn s) (h : s.Reaches vs i) :
    i < s.frames.size := by
  induction h with
  | made hv hc => exact hvs _ hv _ hc
  | parent _ hf hp ih => exact Nat.lt_trans (hs.parent_lt hf hp) ih
  | bound _ hf hb hc => exact hs.livesIn hf _ hb _ hc

theorem Store.AlikeOn.set {P : Nat → Prop} (hi : ¬ P i) (s : Store) (name : String) (v : Value) :
    s.AlikeOn P (s.set i name v) := by
  refine ⟨(s.size_set i name v).symm, fun j hj => ?_⟩
  have hne : i ≠ j := by
    rintro rfl
    exact hi hj
  rw [Store.set, Array.getElem?_modify, if_neg hne]

/-- Stores that agree on what can be reached correspond, in either direction, and each scope that
can be reached corresponds to itself. -/
theorem Store.AlikeOn.renamed (hs : s.Closed) (hvs : ∀ v ∈ vs, v.LivesIn s)
    (h : s.AlikeOn (s.Reaches vs) t) :
    s.Renamed (.on (s.Reaches vs)) t ∧ t.Renamed (.on (s.Reaches vs)) s := by
  have hframe {i : Nat} (hi : s.Reaches vs i) : ∃ f, s.frames[i]? = some f ∧
      t.frames[i]? = some f ∧ (∀ b ∈ f.bindings, b.2.Within (s.Reaches vs)) ∧
        ∀ p, f.parent = some p → s.Reaches vs p ∧ p < i := by
    have hlt : i < s.frames.size := hi.lt hs hvs
    have hf : s.frames[i]? = some s.frames[i] := Array.getElem?_eq_getElem hlt
    refine ⟨s.frames[i], hf, (h.frame_eq i hi).symm.trans hf, ?_, ?_⟩
    · exact fun b hb c hc => .bound hi hf hb hc
    · exact fun p hp => ⟨hi.parent hf hp, hs.parent_lt hf hp⟩
  refine ⟨Store.renamed_on fun i hi => hframe hi, Store.renamed_on fun i hi => ?_⟩
  obtain ⟨f, hf, hg, hrest⟩ := hframe hi
  exact ⟨f, hg, hf, hrest⟩

/-- If equally many functions were made in them, the stores share what can be reached and what is
yet to be opened. -/
theorem Store.AlikeOn.shares (h : s.AlikeOn (s.Reaches vs) t)
    (hclosures : s.closures = t.closures) :
    s.Shares (fun i => s.Reaches vs i ∨ s.frames.size ≤ i) t := by
  -- A scope that has a frame is not yet to be opened.
  have hold {i : Nat} {f : Frame} (hi : s.Reaches vs i ∨ s.frames.size ≤ i)
      (hf : s.frames[i]? = some f) : s.Reaches vs i :=
    hi.resolve_right (Nat.not_le.2 (Array.getElem?_eq_some_iff.1 hf).1)
  refine ⟨h.size_eq, hclosures, fun i hi => .inr hi, ?_, ?_, ?_⟩
  · rintro i (hi | hi)
    · exact h.frame_eq i hi
    · rw [Array.getElem?_eq_none hi, Array.getElem?_eq_none (h.size_eq ▸ hi)]
  · intro i p f hi hf hp
    exact .inl ((hold hi hf).parent hf hp)
  · intro i f hi hf b hb c hc
    exact .inl (.bound (hold hi hf) hf hb hc)

end Reaches

/-! ## Equal effects -/

/-- The frames have the same parent and bind the same names to the same values, but for the numbers
of the functions. -/
structure Frame.SameButNumbers (f g : Frame) : Prop where
  parent : f.parent = g.parent
  bindings : Filed (Value.Renamed Eq) f.bindings g.bindings

/-- The results are the same but for the numbers of functions: the lines that were printed, the
value or the error, and the frames of the scopes from `n` on.  The bound was reached in both or in
none. -/
structure Result.SameButNumbers (n : Nat) (r r' : Result RuntimeError Value) : Prop where
  output : r.output = r'.output
  outcome : r.outcome.Renamed (Value.Renamed Eq) r'.outcome
  opened : ∀ i, n ≤ i →
    Option.Rel Frame.SameButNumbers r.store.frames[i]? r'.store.frames[i]?

/-- The results are the same: the lines that were printed, the outcome, and the frames of the scopes
from `n` on. -/
structure Result.SameFrom (n : Nat) (r r' : Result RuntimeError Value) : Prop where
  output : r.output = r'.output
  outcome : r.outcome = r'.outcome
  opened : ∀ i, n ≤ i → r.store.frames[i]? = r'.store.frames[i]?

theorem Outcome.Renamed.mono {α β : Type} {R R' : α → β → Prop} (h : ∀ {a b}, R a b → R' a b)
    {o : Outcome RuntimeError α} {o' : Outcome RuntimeError β} (ho : o.Renamed R o') :
    o.Renamed R' o' := by
  cases ho with
  | done hab => exact .done (h hab)
  | failed e => exact .failed e
  | outOfFuel => exact .outOfFuel

/-- Parents that correspond in either direction, with no scope related to another one, are equal. -/
theorem Frame.Parents.eq {ρ ρ' : Renaming} (hρ : ρ.Le Eq) {s t : Store} {i j : Nat}
    {p q : Option Nat} (h : Frame.Parents ρ t i j p q) (h' : Frame.Parents ρ' s j i q p) :
    p = q := by
  cases h with
  | none => rfl
  | some hpq => exact congrArg Option.some (hρ hpq)
  | bare => cases h'

/-- In stores of one size, a renaming that grows in step relates no scope to another one. -/
theorem Stage.InStep.le_eq {a b : Stage} (h : a.InStep b) (ha : a.scopes.Le Eq)
    (hsize : a.left = a.right) : b.scopes.Le Eq := by
  obtain ⟨n, -, -, hstep⟩ := h
  intro i j hij
  obtain hij | ⟨k, -, rfl, rfl⟩ := hstep hij
  · exact ha hij
  · rw [hsize]

/-- A computation that cannot tell renamed stores apart has the same effect in stores of one size
that correspond in either direction, each related scope to itself. -/
theorem Eval.Simulates.sameButNumbers {P : Nat → Prop} {m : Eval Value} {s t : Store}
    (hm : Simulates Value.Renamed (.on P) m m) (hst : s.Renamed (.on P) t)
    (hts : t.Renamed (.on P) s) (hsize : s.frames.size = t.frames.size) :
    (m s).SameButNumbers s.frames.size (m t) := by
  obtain ⟨ρ, -, hresult, hnew, hstep⟩ := hm (.refl _) hst
  obtain ⟨ρ', -, hresult', hnew', hstep'⟩ := hm (.refl _) hts
  have hon : (Renaming.on P).Le Eq := fun _ _ hij => hij.1
  have hρ := hstep.le_eq hon hsize
  have hρ' := hstep'.le_eq hon hsize.symm
  have hgrown : (m s).store.frames.size = (m t).store.frames.size := by
    obtain ⟨n, hs, ht, -⟩ := hstep
    dsimp only at hs ht
    omega
  refine ⟨hresult.output, hresult.outcome.mono fun hv => hv.mono hρ, fun i hi => ?_⟩
  by_cases hlt : i < (m s).store.frames.size
  · obtain ⟨j, hij⟩ := hnew i hi hlt
    obtain rfl : i = j := hρ hij
    obtain ⟨k, hik⟩ := hnew' i (hsize ▸ hi) (hgrown ▸ hlt)
    obtain rfl : i = k := hρ' hik
    obtain ⟨f, g, hf, hg, hfg⟩ := hresult.store.frames hij
    obtain ⟨g', f', hg', hf', hgf⟩ := hresult'.store.frames hik
    rw [hg, Option.some_inj] at hg'
    rw [hf, Option.some_inj] at hf'
    subst hg' hf'
    rw [hf, hg]
    exact .some ⟨hfg.parent.eq hρ hgf.parent, hfg.bindings.mono fun hv => hv.mono hρ⟩
  · rw [Array.getElem?_eq_none (Nat.not_lt.1 hlt),
      Array.getElem?_eq_none (hgrown ▸ Nat.not_lt.1 hlt)]
    exact .none

/-! ## Locality -/

/-- **Calls are local.**  Take a function and arguments of a reachable store, and a store that has
as many scopes and the same frames wherever the function and the arguments lead.  At every bound,
the call reaches the bound in both stores or in none of them; it has the same value but for the
numbers of functions, or the same error, prints the same lines and opens the same scopes with the
same frames.  If equally many functions were made in the two stores so far, the numbers are the
same, too.  In particular this holds if a scope out of reach, such as the caller's, binds a name
anew. -/
theorem call_local {s t : Store} (hs : s.Reachable) {f : Closure} {args : List Value}
    (hf : (Value.closure f).LivesIn s) (hargs : ∀ v ∈ args, v.LivesIn s)
    (hst : s.AlikeOn (s.Reaches (.closure f :: args)) t) (fuel : Nat) :
    ((Value.closure f).call fuel args s).SameButNumbers s.frames.size
        ((Value.closure f).call fuel args t) ∧
      (s.closures = t.closures →
        ((Value.closure f).call fuel args s).SameFrom s.frames.size
          ((Value.closure f).call fuel args t)) ∧
      ∀ i name v, ¬ s.Reaches (.closure f :: args) i →
        ((Value.closure f).call fuel args s).SameFrom s.frames.size
          ((Value.closure f).call fuel args (s.set i name v)) := by
  have hvalues : ∀ v ∈ Value.closure f :: args, v.LivesIn s :=
    List.forall_mem_cons.2 ⟨hf, hargs⟩
  have hwithin {Q : Nat → Prop} (hQ : ∀ i, s.Reaches (.closure f :: args) i → Q i) :
      ∀ v ∈ Value.closure f :: args, v.Within Q := fun v hv c hc => hQ _ (.made hv hc)
  have hsame {u : Store} (hsu : s.AlikeOn (s.Reaches (.closure f :: args)) u)
      (hclosures : s.closures = u.closures) :
      ((Value.closure f).call fuel args s).SameFrom s.frames.size
        ((Value.closure f).call fuel args u) := by
    obtain ⟨hcallee, hrest⟩ := List.forall_mem_cons.1 (hwithin fun _ hi => Or.inl hi)
    have hresult := Value.call_confined fuel hcallee hrest (hsu.shares hclosures)
    exact ⟨hresult.output, hresult.outcome, fun i hi => hresult.store.frame_eq i (.inr hi)⟩
  refine ⟨?_, hsame hst, fun i name v hi => hsame (.set hi s name v) rfl⟩
  obtain ⟨hrenamed, hrenamed'⟩ := hst.renamed hs.closed hvalues
  obtain ⟨hcallee, hrest⟩ := List.forall_mem_cons.1 (hwithin fun _ hi => hi)
  exact (Value.call_simulates fuel hcallee.renamed (forall₂_within hrest)).sameButNumbers hrenamed
    hrenamed' hst.size_eq

/-- The caller's scope, inside the one in which the function was made, binds a name of the
function's body anew: to an integer, or to a function.  The calls add up the same integers, and the
functions that they make differ in their numbers only. -/
theorem call_local_shadowed :
    ∃ (s t : Store) (f c d : Closure),
      s.Reachable ∧ t.Reachable ∧
      s.frames[1]? = some ⟨[("x", .int 10)], some 0⟩ ∧
      t.frames[1]? = some ⟨[("x", .closure d)], some 0⟩ ∧
      s.AlikeOn (s.Reaches [.closure f, .int 7]) t ∧
      ((Value.closure f).call 5 [.int 7] s).outcome = .done (.array [.int 8, .closure c]) ∧
      ((Value.closure f).call 5 [.int 7] s).SameButNumbers s.frames.size
        ((Value.closure f).call 5 [.int 7] t) := by
  let body : Block :=
    [.expr (.array [.binary .add (.ident "x") (.ident "y"), .func [] [.expr (.ident "y")]])]
  let f : Closure := ⟨0, ⟨["y"], body⟩, 0⟩
  let c : Closure := ⟨1, ⟨[], [.expr (.ident "y")]⟩, 2⟩
  let d : Closure := ⟨1, ⟨[], [.expr (.int 2)]⟩, 1⟩
  let global : Frame := ⟨[("f", .closure f), ("x", .int 1)], none⟩
  let u : Store := ⟨#[global, ⟨[], some 0⟩], 1⟩
  let s : Store := ⟨#[global, ⟨[("x", .int 10)], some 0⟩], 1⟩
  let t : Store := ⟨#[global, ⟨[("x", .closure d)], some 0⟩], 2⟩
  have hparse : Program.parse "var x = 1; var f = func(y) \x7b[x + y, func() \x7by\x7d]\x7d" =
      .ok [.bind "x" (.int 1), .bind "f" (.func ["y"] body)] := by
    decide +kernel
  have hparse' : Program.parse "var x = func() \x7b2\x7d" =
      .ok [.bind "x" (.func [] [.expr (.int 2)])] := by
    decide +kernel
  have hrun : (run 5 "var x = 1; var f = func(y) \x7b[x + y, func() \x7by\x7d]\x7d" 0
      Store.empty.openGlobal.2).store = ⟨#[global], 1⟩ := by
    rw [run, hparse]
    with_unfolding_all rfl
  have hrun' : (run 5 "var x = func() \x7b2\x7d" 1 u).store = t := by
    rw [run, hparse']
    with_unfolding_all rfl
  have hu : u.Reachable := by
    have hreach := Store.Reachable.empty.openGlobal.run (Nat.one_pos : 0 < 1) 5
      "var x = 1; var f = func(y) \x7b[x + y, func() \x7by\x7d]\x7d"
    rw [hrun] at hreach
    exact hreach.enclose (Nat.one_pos : 0 < 1)
  have hten : (Value.int 10).LivesIn u := by
    intro e he
    cases he
  have hs : s.Reachable := hu.set Nat.one_lt_two "x" hten
  have ht : t.Reachable := by
    have hreach := hu.run Nat.one_lt_two 5 "var x = func() \x7b2\x7d"
    rwa [hrun'] at hreach
  have hf : (Value.closure f).LivesIn s := by
    intro e he
    obtain rfl := List.mem_singleton.1 he
    exact Nat.two_pos
  have hargs : ∀ v ∈ [Value.int 7], v.LivesIn s := by
    intro v hv e he
    obtain rfl := List.mem_singleton.1 hv
    cases he
  -- The function leads to the global scope, and this one only back to itself.
  have hreaches {i : Nat} (hi : s.Reaches [.closure f, .int 7] i) : i = 0 := by
    induction hi with
    | made hv hc =>
      rcases List.mem_pair.1 hv with rfl | rfl
      · rw [List.mem_singleton.1 hc]
      · cases hc
    | parent _ hg hp ih =>
      subst ih
      cases hg
      cases hp
    | bound _ hg hb hc ih =>
      subst ih
      cases hg
      rcases List.mem_pair.1 hb with rfl | rfl
      · rw [List.mem_singleton.1 hc]
      · cases hc
  have hst : s.AlikeOn (s.Reaches [.closure f, .int 7]) t :=
    ⟨rfl, fun i hi => by rw [hreaches hi]; rfl⟩
  refine ⟨s, t, f, c, d, hs, ht, rfl, rfl, hst, by with_unfolding_all rfl, ?_⟩
  exact (call_local hs hf hargs hst 5).1

end TreeWalk

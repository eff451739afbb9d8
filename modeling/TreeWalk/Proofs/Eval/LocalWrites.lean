import TreeWalk.Proofs.Eval.Invariant

/-!
# Writes are local

**Evaluating code in a scope binds names in that scope only**, and only the names that the code
itself says it binds, outside of its function literals (`Expr.targets`).  No other scope that was
there before is changed, whatever is called on the way and however the evaluation ends.  In
particular a call changes nothing that was there before (`Store.Grows`): what its body binds goes
to the scope that the call opened.

That is an invariant of a run that is compared with the store in which it started (`writing`): code
is evaluated in the one scope, and there it binds the given names only, or in a scope that was not
there at the start.  A call leads from the one to the other, for the scope that it opens is new.
-/

set_option autoImplicit false

namespace TreeWalk

/-! ## The names that code binds -/

mutual

/-- The names that the expression binds in the scope in which it is evaluated: the targets of its
bindings, blocks of conditionals included.  The body of a function literal is not evaluated with
the literal, so its bindings do not count. -/
def Expr.targets : Expr → List String
  | .ident _ => []
  | .int _ => []
  | .bool _ => []
  | .str _ => []
  | .array items => Expr.itemTargets items
  | .hash entries => Expr.entryTargets entries
  | .unary _ e => e.targets
  | .binary _ l r => l.targets ++ r.targets
  | .index c i => c.targets ++ i.targets
  | .cond test yes no => test.targets ++ Stmt.blockTargets yes ++ Stmt.elseTargets no
  | .func _ _ => []
  | .call f args => f.targets ++ Expr.itemTargets args

/-- `Expr.targets`, of several expressions. -/
def Expr.itemTargets : List Expr → List String
  | [] => []
  | e :: es => e.targets ++ Expr.itemTargets es

/-- `Expr.targets`, of the keys and values of a hash literal. -/
def Expr.entryTargets : List (Expr × Expr) → List String
  | [] => []
  | (k, v) :: es => k.targets ++ v.targets ++ Expr.entryTargets es

/-- The names that the statement binds in the scope in which it is evaluated. -/
def Stmt.targets : Stmt → List String
  | .bind name value => name :: value.targets
  | .ret value => value.targets
  | .expr value => value.targets

/-- `Stmt.targets`, of the statements of a block or a program. -/
def Stmt.blockTargets : List Stmt → List String
  | [] => []
  | s :: ss => s.targets ++ Stmt.blockTargets ss

/-- `Stmt.targets`, of the second block of a conditional. -/
def Stmt.elseTargets : Option (List Stmt) → List String
  | none => []
  | some b => Stmt.blockTargets b

end

section Targets

variable {names : List String}

theorem Expr.itemTargets_subset {es : List Expr} :
    Expr.itemTargets es ⊆ names ↔ ∀ e ∈ es, e.targets ⊆ names := by
  induction es with
  | nil => simp [Expr.itemTargets]
  | cons e es ih => simp [Expr.itemTargets, ih]

theorem Expr.entryTargets_subset {es : List (Expr × Expr)} :
    Expr.entryTargets es ⊆ names ↔ ∀ p ∈ es, p.1.targets ⊆ names ∧ p.2.targets ⊆ names := by
  induction es with
  | nil => simp [Expr.entryTargets]
  | cons p es ih =>
    simp only [Expr.entryTargets, List.append_subset, ih, List.forall_mem_cons]

theorem Stmt.blockTargets_subset {ss : List Stmt} :
    Stmt.blockTargets ss ⊆ names ↔ ∀ st ∈ ss, st.targets ⊆ names := by
  induction ss with
  | nil => simp [Stmt.blockTargets]
  | cons st ss ih => simp [Stmt.blockTargets, ih]

/-- Only the given names are bound. -/
def Demand.binding (names : List String) : Demand :=
  { Demand.none with expr := fun e => e.targets ⊆ names, target := (· ∈ names) }

theorem Stmt.meets_binding {st : Stmt} (h : st.targets ⊆ names) : st.Meets (.binding names) := by
  cases st with
  | bind name value => exact List.cons_subset.1 h
  | _ => exact h

theorem Stmt.meets_binding_of_block {b : Block} (h : Stmt.blockTargets b ⊆ names) :
    ∀ st ∈ b, st.Meets (.binding names) :=
  fun st hst => Stmt.meets_binding (Stmt.blockTargets_subset.1 h st hst)

theorem Expr.meets_binding {e : Expr} (h : e.targets ⊆ names) : e.Meets (.binding names) := by
  cases e with
  | array items => exact Expr.itemTargets_subset.1 h
  | hash es => exact Expr.entryTargets_subset.1 h
  | unary op e => exact h
  | binary op l r => exact List.append_subset.1 h
  | index c i => exact List.append_subset.1 h
  | cond test yes no =>
    obtain ⟨h, hno⟩ := List.append_subset.1 h
    obtain ⟨htest, hyes⟩ := List.append_subset.1 h
    refine ⟨htest, Stmt.meets_binding_of_block hyes, ?_⟩
    rintro b rfl
    exact Stmt.meets_binding_of_block hno
  | call f args =>
    obtain ⟨hf, hargs⟩ := List.append_subset.1 h
    exact ⟨hf, Expr.itemTargets_subset.1 hargs⟩
  | _ => trivial

end Targets

/-! ## What a store keeps -/

/-- The second frame is the first one, with some of the names bound anew: it has the same parent,
and no binding is lost. -/
structure Frame.Rebinds (names : List String) (f g : Frame) : Prop where
  parent_eq : g.parent = f.parent
  get?_eq : ∀ x, x ∉ names → g.get? x = f.get? x
  isSome_get? : ∀ x, (f.get? x).isSome → (g.get? x).isSome

theorem Frame.Rebinds.refl (names : List String) (f : Frame) : f.Rebinds names f :=
  ⟨rfl, fun _ _ => rfl, fun _ h => h⟩

theorem Frame.Rebinds.trans {names : List String} {f g h : Frame} (hfg : f.Rebinds names g)
    (hgh : g.Rebinds names h) : f.Rebinds names h where
  parent_eq := hgh.parent_eq.trans hfg.parent_eq
  get?_eq x hx := (hgh.get?_eq x hx).trans (hfg.get?_eq x hx)
  isSome_get? x hx := hgh.isSome_get? x (hfg.isSome_get? x hx)

theorem Frame.rebinds_set {names : List String} {name : String} (hname : name ∈ names) (f : Frame)
    (v : Value) : f.Rebinds names (f.set name v) where
  parent_eq := rfl
  get?_eq x hx := by
    have hne : x ≠ name := by
      rintro rfl
      exact hx hname
    rw [Frame.get?_set, if_neg hne]
  isSome_get? x hx := by
    rw [Frame.get?_set]
    split
    · rfl
    · exact hx

namespace Store

/-- Every scope of the first store is still there in the second one, just as it was. -/
def Grows (s t : Store) : Prop :=
  ∀ (i : Nat) (f : Frame), s.frames[i]? = some f → t.frames[i]? = some f

/-- Every scope of the first store is still there in the second one, just as it was, but for the
given names in the one given scope. -/
def Rebinds (scope : Nat) (names : List String) (s t : Store) : Prop :=
  ∀ (i : Nat) (f : Frame), s.frames[i]? = some f →
    ∃ g, t.frames[i]? = some g ∧ (i ≠ scope → g = f) ∧ (i = scope → f.Rebinds names g)

theorem Grows.refl (s : Store) : s.Grows s := fun _ _ h => h

theorem Grows.trans {s t u : Store} (hst : s.Grows t) (htu : t.Grows u) : s.Grows u :=
  fun i f h => htu i f (hst i f h)

theorem Grows.rebinds {s t : Store} (h : s.Grows t) (scope : Nat) (names : List String) :
    s.Rebinds scope names t :=
  fun i f hf => ⟨f, h i f hf, fun _ => rfl, fun _ => .refl names f⟩

theorem Rebinds.trans {scope : Nat} {names : List String} {s t u : Store}
    (hst : s.Rebinds scope names t) (htu : t.Rebinds scope names u) :
    s.Rebinds scope names u := by
  intro i f hf
  obtain ⟨g, hg, hother, hown⟩ := hst i f hf
  obtain ⟨k, hk, hother', hown'⟩ := htu i g hg
  exact ⟨k, hk, fun hi => (hother' hi).trans (hother hi), fun hi => (hown hi).trans (hown' hi)⟩

/-- Binding a name rebinds it in its own scope. -/
theorem rebinds_set {names : List String} {name : String} (hname : name ∈ names) (s : Store)
    (scope : Nat) (v : Value) : s.Rebinds scope names (s.set scope name v) := by
  intro i f hf
  rw [Store.set, Array.getElem?_modify, hf]
  by_cases hi : i = scope
  · subst hi
    exact ⟨f.set name v, by simp, fun h => absurd rfl h, fun _ => f.rebinds_set hname v⟩
  · exact ⟨f, by simp [Ne.symm hi], fun _ => rfl, fun h => absurd h hi⟩

/-- Binding a name in a scope that was not there changes none that was. -/
theorem Rebinds.set_of_le {scope : Nat} {names : List String} {s t : Store}
    (h : s.Rebinds scope names t) {i : Nat} (hi : s.frames.size ≤ i) (name : String) (v : Value) :
    s.Rebinds scope names (t.set i name v) := by
  intro j f hf
  have hj : j < s.frames.size := (Array.getElem?_eq_some_iff.1 hf).1
  obtain ⟨g, hg, hsame⟩ := h j f hf
  refine ⟨g, ?_, hsame⟩
  rw [Store.set, Array.getElem?_modify, if_neg (by omega), hg]

theorem Rebinds.size_le {scope : Nat} {names : List String} {s t : Store}
    (h : s.Rebinds scope names t) : s.frames.size ≤ t.frames.size := by
  rcases Nat.lt_or_ge t.frames.size s.frames.size with hlt | hle
  · obtain ⟨g, hg, -⟩ := h _ _ (Array.getElem?_eq_getElem hlt)
    exact absurd (Array.getElem?_eq_some_iff.1 hg).1 (Nat.lt_irrefl _)
  · exact hle

/-- A new scope is behind all that were there before. -/
theorem grows_openScope (s : Store) (parent : Option Nat) (bindings : List (String × Value)) :
    s.Grows (s.openScope parent bindings).2 := by
  intro i f hf
  have hi : i < s.frames.size := (Array.getElem?_eq_some_iff.1 hf).1
  rw [Store.openScope, Array.getElem?_push_lt hi, ← hf, Array.getElem?_eq_getElem hi]

/-- What is bound in a scope that was not there before does not matter. -/
theorem Rebinds.grows {scope : Nat} {names : List String} {s t u : Store}
    (hst : s.Grows t) (hscope : s.frames.size ≤ scope) (htu : t.Rebinds scope names u) :
    s.Grows u := by
  intro i f hf
  have hi : i < s.frames.size := (Array.getElem?_eq_some_iff.1 hf).1
  obtain ⟨g, hg, hother, -⟩ := htu i f (hst i f hf)
  rw [hg, hother (by omega)]

end Store

/-! ## The invariant -/

/-- A run that started in the given store, and has bound only the given names in the given scope of
it. -/
def writing (start : Store) (scope : Nat) (names : List String) : Invariant Unit where
  le _ _ := True
  store _ s t := s = t ∧ start.Rebinds scope names s
  scope _ i := i = scope ∨ start.frames.size ≤ i
  value _ _ := True
  demand i := if i < start.frames.size then .binding names else .none
  refl _ := trivial
  trans _ _ := trivial
  scope_mono _ h := h
  value_mono _ _ := trivial
  hereditary _ := Value.hereditary_true
  text _ := trivial
  meets {i e} h := by
    split at h <;> rename_i hi
    · rw [if_pos hi]
      exact Expr.meets_binding h
    · rw [if_neg hi]
      exact e.meets_none
  size_eq h := congrArg (·.frames.size) h.1
  closures_eq h := congrArg (·.closures) h.1
  get?_eq h _ _ := by rw [h.1]
  value_get? _ _ _ := trivial
  set := by
    rintro _ s _ i name v ⟨rfl, hs⟩ hi hname -
    refine ⟨rfl, ?_⟩
    split at hname
    · obtain rfl : i = scope := hi.resolve_right (by omega)
      exact hs.trans (s.rebinds_set hname i v)
    · exact hs.set_of_le (by omega) name v
  openScope := by
    rintro _ s _ c es ⟨rfl, hs⟩ - -
    refine ⟨⟨rfl, hs.trans ((s.grows_openScope _ es).rebinds scope names)⟩, .inr hs.size_le, ?_⟩
    rw [if_neg (Nat.not_lt.2 hs.size_le)]
    exact fun st _ => st.meets_none
  close := by
    rintro _ s _ i f ⟨rfl, hs⟩ - -
    exact ⟨(), trivial, ⟨rfl, hs⟩, trivial⟩

theorem Stmt.meets_writing {names : List String} {st : Stmt} (h : st.targets ⊆ names)
    (start : Store) (scope i : Nat) : st.Meets ((writing start scope names).demand i) := by
  dsimp only [writing]
  split
  · exact st.meets_binding h
  · exact st.meets_none

theorem Block.meets_writing {names : List String} {b : Block} (h : Stmt.blockTargets b ⊆ names)
    (start : Store) (scope i : Nat) :
    ∀ st ∈ b, st.Meets ((writing start scope names).demand i) :=
  fun st hst => st.meets_writing (Stmt.blockTargets_subset.1 h st hst) start scope i

namespace Eval

variable {α : Type} {scope : Nat} {names : List String}

/-- The computation binds only the given names, and only in the given scope. -/
def Writes (scope : Nat) (names : List String) (m : Eval α) : Prop :=
  ∀ s : Store, s.Rebinds scope names (m s).store

theorem Writes.of_respects {Q : Store → Unit → α → Prop} {m : Eval α}
    (h : ∀ s, Respects (writing s scope names) () (Q s) m m) : Writes scope names m := by
  intro s
  obtain ⟨_, -, hresult⟩ := h s ⟨rfl, (Store.Grows.refl s).rebinds scope names⟩
  exact hresult.store.2

end Eval

open Eval (Writes)

section Runs

variable (fuel scope : Nat)

/-- The evaluation of an expression writes what the expression says, at every bound. -/
theorem eval_writes (e : Expr) : Writes scope e.targets (eval fuel scope e) := by
  refine .of_respects fun s => eval_respects (writing s scope e.targets) fuel (.inl rfl) ?_
  dsimp only [writing]
  split
  · exact List.Subset.refl _
  · trivial

theorem stmt_writes (st : Stmt) : Writes scope st.targets (Eval.stmt (eval fuel) scope st) :=
  .of_respects fun s => stmt_respects (writing s scope st.targets) fuel (.inl rfl)
    (st.meets_writing (List.Subset.refl _) s scope scope)

theorem block_writes (b : Block) :
    Writes scope (Stmt.blockTargets b) (Eval.block (eval fuel) scope b) :=
  .of_respects fun s => block_respects (writing s scope (Stmt.blockTargets b)) fuel (.inl rfl)
    (Block.meets_writing (List.Subset.refl _) s scope scope)

theorem Program.eval_writes (p : Program) :
    Writes scope (Stmt.blockTargets p) (p.eval fuel scope) :=
  .of_respects fun s => p.eval_respects (writing s scope (Stmt.blockTargets p)) fuel (.inl rfl)
    (Block.meets_writing (List.Subset.refl _) s scope scope)

end Runs

/-- A call changes nothing that was there before, however deep the calls that it makes: it starts in
no scope that was there. -/
theorem Value.grows_call (fuel : Nat) (callee : Value) (args : List Value) (s : Store) :
    s.Grows (callee.call fuel args s).store := by
  have hwrites : Writes s.frames.size [] (callee.call fuel args) :=
    .of_respects fun t => Value.call_respects (writing t s.frames.size []) fuel trivial
      fun _ _ => trivial
  exact (hwrites s).grows (.refl s) (Nat.le_refl _)

/-- **Writes are local.**  Whatever the store and however the evaluation ends: an expression, a
statement, a block and a program leave every scope that was there as it was, but for the scope in
which they are evaluated; that one keeps its parent and all its bindings, and only the names that
the code binds outside its function literals may have other values.  A call leaves every scope that
was there as it was. -/
theorem writes_local (fuel scope : Nat) (s : Store) :
    (∀ e : Expr, s.Rebinds scope e.targets (eval fuel scope e s).store) ∧
    (∀ st : Stmt, s.Rebinds scope st.targets (Eval.stmt (eval fuel) scope st s).store) ∧
    (∀ b : Block, s.Rebinds scope (Stmt.blockTargets b) (Eval.block (eval fuel) scope b s).store) ∧
    (∀ p : Program, s.Rebinds scope (Stmt.blockTargets p) (p.eval fuel scope s).store) ∧
    ∀ (callee : Value) (args : List Value), s.Grows (callee.call fuel args s).store := by
  refine ⟨?_, ?_, ?_, ?_, ?_⟩
  · intro e
    exact eval_writes fuel scope e s
  · intro st
    exact stmt_writes fuel scope st s
  · intro b
    exact block_writes fuel scope b s
  · intro p
    exact p.eval_writes fuel scope s
  · intro callee args
    exact callee.grows_call fuel args s

/-- The block of a conditional binds in the scope around it, the body of a function does not. -/
example : Stmt.blockTargets
    [.bind "x" (.cond (.bool true) [.bind "y" (.int 1)] none),
      .expr (.call (.func [] [.bind "z" (.int 2)]) [])] = ["x", "y"] := by
  decide

end TreeWalk

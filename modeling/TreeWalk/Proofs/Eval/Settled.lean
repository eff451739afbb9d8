import TreeWalk.Proofs.Value.Congruence

/-!
# Settled values

A value is **settled** if no pending value is in it, at any depth of arrays and hashes, and a store
is settled if everything that it binds is.  The property is hereditary (`Value.Settled.hereditary`),
so operators, subscripts and builtins make settled values out of settled ones.  Their errors, which
name the kinds of the values that they complain about, never name the kind of a pending value: they
are *fair* (`Fair`).
-/

set_option autoImplicit false

namespace TreeWalk

/-! ## Values and stores -/

/-- No pending value is in the value, at any depth. -/
inductive Value.Settled : Value → Prop
  | int (n : Int64) : Settled (.int n)
  | bool (b : Bool) : Settled (.bool b)
  | str (s : String) : Settled (.str s)
  | array {items : List Value} (h : ∀ v ∈ items, Settled v) : Settled (.array items)
  | hash {entries : List (Key × Value × Value)} (hkeys : ∀ p ∈ entries, Settled p.2.1)
      (h : ∀ p ∈ entries, Settled p.2.2) : Settled (.hash entries)
  | closure (c : Closure) : Settled (.closure c)
  | builtin (b : Builtin) : Settled (.builtin b)
  | null : Settled .null

theorem Value.Settled.kind_ne {v : Value} (h : v.Settled) : v.kind ≠ .returnValue := by
  cases h <;> exact Kind.noConfusion

/-- A value as an evaluation may give it: a settled one, or a settled one that a `return` is
carrying out. -/
def Value.Leaving (v : Value) : Prop := v.Settled ∨ ∃ w, w.Settled ∧ v = .pending w

/-- Every binding of every scope is settled. -/
def Store.Settled (s : Store) : Prop := s.Holds Value.Settled

theorem Value.Settled.hereditary : Value.Hereditary Value.Settled where
  int := .int
  bool := .bool
  null := .null
  builtin := .builtin
  append _ _ := .str _
  array := .array
  items h := by
    cases h with
    | array h => exact h
  empty := .hash (List.forall_mem_nil _) (List.forall_mem_nil _)
  insert hes hk _ hv := by
    cases hes with
    | hash hkeys hes =>
      exact .hash (SortedMap.forall_mem_insert hk hkeys) (SortedMap.forall_mem_insert hv hes)
  entries h := by
    cases h with
    | hash _ h => exact h
  unwrap h := by cases h

/-! ## Errors -/

/-- The error names no pending value. -/
def RuntimeError.Settled (e : RuntimeError) : Prop := .returnValue ∉ e.kinds

theorem RuntimeError.settled_of_eq_nil {e : RuntimeError} (h : e.kinds = []) : e.Settled := by
  rw [RuntimeError.Settled, h]
  exact List.not_mem_nil

/-- An error that names kinds of settled values only is settled. -/
theorem RuntimeError.settled_of_forall {e : RuntimeError}
    (h : ∀ k ∈ e.kinds, ∃ v : Value, v.Settled ∧ v.kind = k) : e.Settled := by
  intro hk
  obtain ⟨v, hv, hkind⟩ := h _ hk
  exact hv.kind_ne hkind

/-- An error that names one settled value is settled. -/
theorem RuntimeError.settled_of_kind {e : RuntimeError} {v : Value} (he : e.kinds = [v.kind])
    (hv : v.Settled) : e.Settled :=
  RuntimeError.settled_of_forall fun _ hk => ⟨v, hv, (List.mem_singleton.1 (he ▸ hk)).symm⟩

/-! ## Operators -/

/-- A value of which `P` holds, or an error that names no pending value. -/
def Fair {α : Type} (P : α → Prop) : Except RuntimeError α → Prop
  | .ok a => P a
  | .error e => e.Settled

/-- What an operator answers on settled operands is fair. -/
theorem fair_of_answers {x : Except RuntimeError Value}
    (h : Answers (Value.Named (Value.Equally Value.Settled)) (Value.Equally Value.Settled) x x) :
    Fair Value.Settled x := by
  cases h with
  | ok h => exact h.2
  | error h =>
    refine RuntimeError.settled_of_forall fun k hk => ?_
    obtain ⟨v, _, hv, hkind⟩ := h k hk
    exact ⟨v, hv.2, hkind⟩

theorem UnaryOp.fair_apply (op : UnaryOp) {v : Value} (hv : v.Settled) :
    Fair Value.Settled (op.apply v) :=
  fair_of_answers (Value.Settled.hereditary.congruence.unary op ⟨rfl, hv⟩)

theorem BinaryOp.fair_apply (op : BinaryOp) {a b : Value} (ha : a.Settled) (hb : b.Settled) :
    Fair Value.Settled (op.apply a b) :=
  fair_of_answers (Value.Settled.hereditary.congruence.binary op ⟨rfl, ha⟩ ⟨rfl, hb⟩)

theorem Value.fair_index {container position : Value} (hc : container.Settled)
    (hp : position.Settled) : Fair Value.Settled (container.index position) :=
  fair_of_answers (Value.Settled.hereditary.congruence.index ⟨rfl, hc⟩ ⟨rfl, hp⟩)

/-- **A builtin makes settled values out of settled ones.** -/
theorem Builtin.fair_value (b : Builtin) {args : List Value} (h : ∀ v ∈ args, v.Settled) :
    Fair Value.Settled (b.value args) :=
  fair_of_answers
    (Value.Settled.hereditary.congruence.builtin_value b (Value.forall₂_equally.2 ⟨rfl, h⟩))

end TreeWalk

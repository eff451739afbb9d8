import TreeWalk.Interpreter
import TreeWalk.Proofs.Eval.Invariant
import TreeWalk.Proofs.Program.WellFormed

/-!
# What a value can hold

A string literal ends at the next quote, so no string of a program holds one; and no operation of
the language makes a quote out of anything else.  **The values of a program that was parsed are
tidy** (`tidy_of_interpret`): no string in them holds a quote, the entries of their hashes are in
increasing order of the keys, and their functions were made from well-formed literals.

This is an invariant of evaluation (`tidyStores`): to be tidy is hereditary, and tidy stores stay
tidy as long as the code is well-formed, as the bodies of tidy functions are.
-/

set_option autoImplicit false

namespace TreeWalk

/-! ## Values and stores -/

/-- No string in the value holds a quote, hashes are sorted and hold the values that their keys were
made from, and functions are well-formed, at any depth. -/
inductive Value.Tidy : Value → Prop
  | int (n : Int64) : Tidy (.int n)
  | bool (b : Bool) : Tidy (.bool b)
  | str {s : String} (h : '"' ∉ s.toList) : Tidy (.str s)
  | array {items : List Value} (h : ∀ v ∈ items, Tidy v) : Tidy (.array items)
  | hash {entries : List (Key × Value × Value)} (hsorted : SortedMap.Sorted entries)
      (hlabels : ∀ p ∈ entries, p.2.1.key? = some p.1) (hkeys : ∀ p ∈ entries, Tidy p.2.1)
      (h : ∀ p ∈ entries, Tidy p.2.2) : Tidy (.hash entries)
  | closure {c : Closure} (h : c.lambda.toExpr.WellFormed) : Tidy (.closure c)
  | builtin (b : Builtin) : Tidy (.builtin b)
  | pending {v : Value} (h : Tidy v) : Tidy (.pending v)
  | null : Tidy .null

/-- Every binding of every scope is tidy. -/
def Store.Tidy (s : Store) : Prop := s.Holds Value.Tidy

theorem Value.Tidy.hereditary : Value.Hereditary Value.Tidy where
  int := .int
  bool := .bool
  null := .null
  builtin := .builtin
  append ha hb := by
    -- Joined strings have the quotes of their parts, and so none.
    cases ha with
    | str ha =>
      cases hb with
      | str hb =>
        refine .str ?_
        rw [String.toList_append, List.mem_append, not_or]
        exact ⟨ha, hb⟩
  array := .array
  items h := by
    cases h with
    | array h => exact h
  empty := .hash .nil (List.forall_mem_nil _) (List.forall_mem_nil _) (List.forall_mem_nil _)
  insert hes hk hkey hv := by
    cases hes with
    | hash hsorted hlabels hkeys hvalues =>
      exact .hash (hsorted.insert _ _) (SortedMap.forall_mem_insert hkey hlabels)
        (SortedMap.forall_mem_insert hk hkeys) (SortedMap.forall_mem_insert hv hvalues)
  entries h := by
    cases h with
    | hash _ _ _ h => exact h
  unwrap h := by
    cases h with
    | pending h => exact h

/-! ## Well-formed code -/

theorem Expr.allWellFormed_iff {es : List Expr} :
    Expr.AllWellFormed es ↔ ∀ e ∈ es, e.WellFormed := by
  induction es with
  | nil => simp [Expr.AllWellFormed]
  | cons e es ih => simp [Expr.AllWellFormed, ih]

theorem Expr.entriesWellFormed_iff {es : List (Expr × Expr)} :
    Expr.EntriesWellFormed es ↔ ∀ p ∈ es, p.1.WellFormed ∧ p.2.WellFormed := by
  induction es with
  | nil => simp [Expr.EntriesWellFormed]
  | cons p es ih => simp only [Expr.EntriesWellFormed, ih, List.forall_mem_cons, and_assoc]

theorem Stmt.allWellFormed_iff {ss : List Stmt} :
    Stmt.AllWellFormed ss ↔ ∀ st ∈ ss, st.WellFormed := by
  induction ss with
  | nil => simp [Stmt.AllWellFormed]
  | cons st ss ih => simp [Stmt.AllWellFormed, ih]

/-- Code is well-formed. -/
def Demand.wellFormed : Demand :=
  { Demand.none with
    expr := Expr.WellFormed
    literal := fun f => f.toExpr.WellFormed
    text := fun s => '"' ∉ s.toList }

theorem Stmt.AllWellFormed.meets {ss : List Stmt} (h : Stmt.AllWellFormed ss) :
    ∀ st ∈ ss, st.Meets .wellFormed := by
  intro st hst
  have hst := Stmt.allWellFormed_iff.1 h st hst
  cases st with
  | bind name value => exact ⟨trivial, hst.2⟩
  | _ => exact hst

theorem Expr.WellFormed.meets {e : Expr} (h : e.WellFormed) : e.Meets .wellFormed := by
  cases e with
  | ident | int | bool => trivial
  | array items => exact Expr.allWellFormed_iff.1 h
  | hash es => exact Expr.entriesWellFormed_iff.1 h
  | cond test yes no =>
    refine ⟨h.1, Stmt.AllWellFormed.meets h.2.1, ?_⟩
    rintro b rfl
    exact Stmt.AllWellFormed.meets h.2.2
  | call f args => exact ⟨h.1, Expr.allWellFormed_iff.1 h.2⟩
  | _ => exact h

/-! ## The invariant -/

/-- All values that the store binds are tidy, and code is well-formed. -/
def tidyStores : Invariant Unit :=
  .holding Value.Tidy.hereditary .wellFormed .str Expr.WellFormed.meets
    (fun h => by
      cases h with
      | closure h => exact Stmt.AllWellFormed.meets h.2)
    fun h _ _ => .closure h

/-- **Well-formed programs keep stores tidy**, and have tidy values. -/
theorem Program.eval_tidy (fuel scope : Nat) {p : Program} (hp : p.WellFormed) {s : Store}
    (hs : s.Tidy) : (p.eval fuel scope s).store.Tidy ∧
      ∀ v, (p.eval fuel scope s).outcome = .done v → v.Tidy := by
  have h : Eval.Respects tidyStores () tidyStores.value (p.eval fuel scope) (p.eval fuel scope) :=
    p.eval_respects tidyStores fuel trivial (Stmt.AllWellFormed.meets hp)
  obtain ⟨_, -, hresult⟩ := h ⟨rfl, hs⟩
  exact ⟨hresult.store.2, hresult.value⟩

theorem Outcome.done_of_mapError {ε ε' α : Type} {f : ε → ε'} {o : Outcome ε α} {a : α}
    (h : o.mapError f = .done a) : o = .done a := by
  cases o <;> cases h
  rfl

/-- **The value of a source text is tidy.** -/
theorem tidy_of_interpret {fuel : Nat} {source : String} {v : Value}
    (h : (interpret fuel source).outcome = .done v) : v.Tidy := by
  change (run fuel source 0 Store.empty.openGlobal.2).outcome = .done v at h
  rw [run] at h
  cases hp : Program.parse source with
  | error e =>
    rw [hp] at h
    cases h
  | ok p =>
    rw [hp] at h
    have hvalue := (p.eval_tidy fuel 0 (wellFormed_of_parse hp) .global).2
    exact hvalue v (Outcome.done_of_mapError h)

end TreeWalk

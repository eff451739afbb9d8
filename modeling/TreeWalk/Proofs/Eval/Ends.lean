import TreeWalk.Proofs.Eval.BigStep
import TreeWalk.Proofs.Eval.Clean

/-!
# How a computation ends

`Ends m s r t out` says that the computation `m`, started in the store `s`, ends as `r` says in the
store `t` and prints `out`.  A value that is pending counts as a `return` on its way here, and every
other value as a normal one; a computation that reaches its bound does not end.

Evaluation goes on behind an operand only if the operand ends normally, so a computation with an
operand in front of it ends in one of two ways (`ends_operand`, `Ending.Next`).
-/

set_option autoImplicit false

namespace TreeWalk

/-- The outcome of a computation that has a value or an error. -/
def Outcome.ofExcept {ε α : Type} : Except ε α → Outcome ε α
  | .ok a => .done a
  | .error e => .failed e

namespace BigStep

open Eval (Tracks)

/-- The ending that an outcome stands for, unless the bound was reached. -/
def ending? : Outcome RuntimeError Value → Option (Ending Value)
  | .done (.pending v) => some (.abrupt (.returning v))
  | .done v => some (.normal v)
  | .failed e => some (.abrupt (.failing e))
  | .outOfFuel => none

/-- The computation ends so, and in that store, and prints that. -/
def Ends (m : Eval Value) (s : Store) (r : Ending Value) (t : Store) (out : List String) : Prop :=
  ∃ o, m s = ⟨o, t, out⟩ ∧ ending? o = some r

/-- What comes after an ending: `f` goes on with a normal value, and anything else stands. -/
def Ending.Next {α : Type} (f : α → Eval Value) :
    Ending α → Store → Ending Value → Store → List String → Prop
  | .normal a, t, r, u, out => Ends (f a) t r u out
  | .abrupt x, t, r, u, out => r = .abrupt x ∧ u = t ∧ out = []

theorem next_map {α β : Type} {g : α → β} {f : β → Eval Value} {r : Ending α} {t u : Store}
    {r' : Ending Value} {out : List String} :
    (r.map g).Next f t r' u out ↔ r.Next (fun a => f (g a)) t r' u out := by
  cases r <;> exact .rfl

/-! ## Steps without operands -/

/-- A settled value ends an evaluation normally. -/
theorem ending?_of_settled {v : Value} (h : v.Settled) : ending? (.done v) = some (.normal v) := by
  cases h <;> rfl

theorem ending?_ofExcept {x : Except RuntimeError Value} (hx : Fair Value.Settled x) :
    ending? (.ofExcept x) = some (.ofExcept x) := by
  cases x with
  | ok v => exact ending?_of_settled hx
  | error e => rfl

/-- A step that gives a settled value or an error ends so, and in no other way. -/
theorem ends_of_eq {m : Eval Value} {s t u : Store} {x : Except RuntimeError Value}
    {lines out : List String} {r : Ending Value} (h : m s = ⟨.ofExcept x, t, lines⟩)
    (hx : Fair Value.Settled x) :
    Ends m s r u out ↔ r = .ofExcept x ∧ u = t ∧ out = lines := by
  constructor
  · rintro ⟨o, ho, hr⟩
    rw [h] at ho
    cases ho
    rw [ending?_ofExcept hx] at hr
    exact ⟨(Option.some.inj hr).symm, rfl, rfl⟩
  · rintro ⟨rfl, rfl, rfl⟩
    exact ⟨_, h, ending?_ofExcept hx⟩

theorem ends_pure {v : Value} (hv : v.Settled) {s t : Store} {r : Ending Value}
    {out : List String} : Ends (pure v) s r t out ↔ r = .normal v ∧ t = s ∧ out = [] :=
  ends_of_eq (x := .ok v) rfl hv

theorem ends_fail {e : RuntimeError} (he : e.Settled) {s t : Store} {r : Ending Value}
    {out : List String} :
    Ends (Eval.fail e) s r t out ↔ r = .abrupt (.failing e) ∧ t = s ∧ out = [] :=
  ends_of_eq (x := .error e) rfl he

theorem ends_ofExcept {x : Except RuntimeError Value} (hx : Fair Value.Settled x) {s t : Store}
    {r : Ending Value} {out : List String} :
    Ends (Eval.ofExcept x) s r t out ↔ r = .ofExcept x ∧ t = s ∧ out = [] := by
  refine ends_of_eq ?_ hx
  cases x <;> rfl

theorem ends_assign {scope : Nat} {name : String} {v : Value} (hv : v.Settled) {s t : Store}
    {r : Ending Value} {out : List String} :
    Ends (do Eval.assign scope name v; return v) s r t out ↔
      r = .normal v ∧ t = s.set scope name v ∧ out = [] :=
  ends_of_eq (x := .ok v) rfl hv

theorem ends_close {scope : Nat} {f : Lambda} {s t : Store} {r : Ending Value}
    {out : List String} :
    Ends (Eval.close scope f) s r t out ↔
      r = .normal (s.close scope f).1 ∧ t = (s.close scope f).2 ∧ out = [] :=
  ends_of_eq (x := .ok (s.close scope f).1) rfl (.closure _)

/-- A `return` is not a value. -/
theorem ends_pending {v : Value} {s t : Store} {r : Ending Value} {out : List String} :
    Ends (pure (.pending v)) s r t out ↔ r = .abrupt (.returning v) ∧ t = s ∧ out = [] := by
  constructor
  · rintro ⟨o, ho, hr⟩
    cases ho
    cases hr
    exact ⟨rfl, rfl, rfl⟩
  · rintro ⟨rfl, rfl, rfl⟩
    exact ⟨_, rfl, rfl⟩

/-- An identifier ends as the semantics says. -/
theorem ends_ident {scope : Nat} {name : String} {s t : Store} (hs : s.Settled)
    {r : Ending Value} {out : List String} :
    Ends (Eval.ident scope name) s r t out ↔ RunsExpr scope s (.ident name) r t out := by
  cases hget : s.get? scope name with
  | some v =>
    have happly : Eval.ident scope name s = ⟨.done v, s, []⟩ := by
      simp only [Eval.ident, Eval.bind_def, Eval.lookup, hget, Eval.pure_apply, List.append_nil]
    rw [ends_of_eq (x := .ok v) happly (hs.get? hget)]
    constructor
    · rintro ⟨rfl, rfl, rfl⟩
      exact .bound hget
    · intro h
      cases h with
      | bound h =>
        rw [hget] at h
        cases h
        exact ⟨rfl, rfl, rfl⟩
      | builtin h | undefined h => rw [hget] at h; cases h
  | none =>
    cases hb : Builtin.ofName? name with
    | some b =>
      have happly : Eval.ident scope name s = ⟨.done (.builtin b), s, []⟩ := by
        simp only [Eval.ident, Eval.bind_def, Eval.lookup, hget, hb, Eval.pure_apply,
          List.append_nil]
      rw [ends_of_eq (x := .ok (.builtin b)) happly (.builtin b)]
      constructor
      · rintro ⟨rfl, rfl, rfl⟩
        exact .builtin hget hb
      · intro h
        cases h with
        | bound h => rw [hget] at h; cases h
        | builtin _ h =>
          rw [hb] at h
          cases h
          exact ⟨rfl, rfl, rfl⟩
        | undefined _ h => rw [hb] at h; cases h
    | none =>
      have happly : Eval.ident scope name s = ⟨.failed (.undefinedIdentifier name), s, []⟩ := by
        simp only [Eval.ident, Eval.bind_def, Eval.lookup, hget, hb, Eval.fail, List.append_nil]
      rw [ends_of_eq (x := .error _) happly (RuntimeError.settled_of_eq_nil rfl)]
      constructor
      · rintro ⟨rfl, rfl, rfl⟩
        exact .undefined hget hb
      · intro h
        cases h with
        | bound h => rw [hget] at h; cases h
        | builtin _ h => rw [hb] at h; cases h
        | undefined => exact ⟨rfl, rfl, rfl⟩

/-- A key is checked before anything else happens. -/
theorem ends_key {v : Value} (hv : v.Settled) {g : Key → Eval Value} {s t : Store}
    {r : Ending Value} {out : List String} :
    Ends (do let k ← Eval.ofExcept v.key; g k) s r t out ↔
      (∃ k, v.key? = some k ∧ Ends (g k) s r t out) ∨
        v.key? = none ∧ r = .abrupt (.failing (.unhashableKey v.kind)) ∧ t = s ∧ out = [] := by
  rw [Value.key]
  cases hkey : v.key? with
  | some k =>
    constructor
    · intro h
      exact .inl ⟨k, rfl, h⟩
    · rintro (⟨k', hk', h⟩ | ⟨hnone, -⟩)
      · cases hk'
        exact h
      · cases hnone
  | none =>
    have hfail : Ends (Eval.fail (.unhashableKey v.kind)) s r t out ↔
        r = .abrupt (.failing (.unhashableKey v.kind)) ∧ t = s ∧ out = [] :=
      ends_fail (RuntimeError.settled_of_kind rfl hv)
    constructor
    · intro h
      exact .inr ⟨rfl, hfail.1 h⟩
    · rintro (⟨k, hk, -⟩ | ⟨-, h⟩)
      · cases hk
      · exact hfail.2 h

/-- A call of a builtin ends as the semantics says. -/
theorem ends_callBuiltin {b : Builtin} {args : List Value} (hargs : ∀ v ∈ args, v.Settled)
    {s t : Store} {r : Ending Value} {out : List String} :
    Ends (b.call args) s r t out ↔
      ∃ x, r = .ofExcept x ∧ RunsCall s (.builtin b) args x t out := by
  cases hcount : b.arity.accepts args.length with
  | true =>
    have hcall : b.call args s = ⟨.ofExcept (b.value args), s, b.lines args⟩ := by
      rw [Builtin.call, Arity.check, if_pos hcount]
      cases hvalue : b.value args with
      | ok v => simp [Eval.bind_def, Eval.ofExcept, Eval.print, Outcome.ofExcept]
      | error e => simp [Eval.bind_def, Eval.ofExcept, Eval.print, Eval.fail, Outcome.ofExcept]
    rw [ends_of_eq hcall (b.fair_value hargs)]
    constructor
    · rintro ⟨rfl, rfl, rfl⟩
      exact ⟨_, rfl, .builtin hcount⟩
    · rintro ⟨x, rfl, h⟩
      cases h with
      | builtin => exact ⟨rfl, rfl, rfl⟩
      | wrongCount h => rw [hcount] at h; cases h
      | notCallable _ h => exact absurd rfl (h b)
  | false =>
    have hcall : b.call args s =
        ⟨.failed (.wrongArgumentCount b.name b.arity args.length), s, []⟩ := by
      rw [Builtin.call, Arity.check, if_neg (by rw [hcount]; decide)]
      rfl
    rw [ends_of_eq (x := .error _) hcall (RuntimeError.settled_of_eq_nil rfl)]
    constructor
    · rintro ⟨rfl, rfl, rfl⟩
      exact ⟨_, rfl, .wrongCount hcount⟩
    · rintro ⟨x, rfl, h⟩
      cases h with
      | builtin h => rw [hcount] at h; cases h
      | wrongCount => exact ⟨rfl, rfl, rfl⟩
      | notCallable _ h => exact absurd rfl (h b)

/-! ## Operands -/

/-- An operand that breaks off breaks off what follows it. -/
theorem Ends.operand_abrupt {m : Eval Value} (f : Value → Eval Value) {s t : Store} {x : Exit}
    {out : List String} (h : Ends m s (.abrupt x) t out) :
    Ends (Eval.operand m f) s (.abrupt x) t out := by
  obtain ⟨o, ho, hx⟩ := h
  refine ⟨o, ?_, hx⟩
  rw [Eval.operand, Eval.bind_def, ho]
  cases o with
  | done v =>
    cases v with
    | pending w => simp only [Eval.pure_apply, List.append_nil]
    | _ => cases hx
  | failed e => rfl
  | outOfFuel => cases hx

/-- Behind an operand that ends normally, evaluation goes on with its value and its store. -/
theorem Ends.operand_normal {m : Eval Value} {f : Value → Eval Value} {s t u : Store} {v : Value}
    {r : Ending Value} {out out' : List String} (h : Ends m s (.normal v) t out)
    (hf : Ends (f v) t r u out') : Ends (Eval.operand m f) s r u (out ++ out') := by
  obtain ⟨o, ho, hv⟩ := h
  obtain ⟨o', ho', hr⟩ := hf
  refine ⟨o', ?_, hr⟩
  rw [Eval.operand, Eval.bind_def, ho]
  cases o with
  | done w =>
    cases w with
    | pending w => cases hv
    | _ =>
      cases hv
      simp only [ho']
  | failed e => cases hv
  | outOfFuel => cases hv

/-- **An operand ends first**, and what follows it is evaluated only if it ends normally. -/
theorem ends_operand {m : Eval Value} {f : Value → Eval Value} {s u : Store} {r : Ending Value}
    {out : List String} :
    Ends (Eval.operand m f) s r u out ↔
      ∃ r₁ t out₁ out₂, Ends m s r₁ t out₁ ∧ r₁.Next f t r u out₂ ∧ out = out₁ ++ out₂ := by
  constructor
  · rintro ⟨o, ho, hr⟩
    rw [Eval.operand, Eval.bind_def] at ho
    rcases hm : m s with ⟨v | e | _, t, out₁⟩
    · rw [hm] at ho
      cases v with
      | pending w =>
        cases ho
        cases hr
        exact ⟨_, _, out₁, [], ⟨_, hm, rfl⟩, ⟨rfl, rfl, rfl⟩, rfl⟩
      | _ =>
        cases ho
        exact ⟨_, _, out₁, _, ⟨_, hm, rfl⟩, ⟨_, rfl, hr⟩, rfl⟩
    · rw [hm] at ho
      cases ho
      cases hr
      exact ⟨_, _, _, [], ⟨_, hm, rfl⟩, ⟨rfl, rfl, rfl⟩, (List.append_nil _).symm⟩
    · rw [hm] at ho
      cases ho
      cases hr
  · rintro ⟨r₁, t, out₁, out₂, hm, hnext, rfl⟩
    cases r₁ with
    | normal v => exact hm.operand_normal hnext
    | abrupt x =>
      obtain ⟨rfl, rfl, rfl⟩ := hnext
      rw [List.append_nil]
      exact hm.operand_abrupt f

/-! ## Settled endings -/

/-- From a settled store a computation ends in a settled store, and a normal value is settled. -/
theorem Ends.settled {m : Eval Value} (hm : Tracks Value.Leaving m m) {s t : Store}
    {r : Ending Value} {out : List String} (hs : s.Settled) (h : Ends m s r t out) :
    t.Settled ∧ ∀ v, r = .normal v → v.Settled := by
  obtain ⟨o, ho, hr⟩ := h
  have hclean := (hm s hs).1
  rw [ho] at hclean
  refine ⟨hclean.store, ?_⟩
  rintro v rfl
  cases o with
  | done w =>
    obtain hw | ⟨w', -, rfl⟩ := hclean.value w rfl
    · rw [ending?_of_settled hw] at hr
      cases hr
      exact hw
    · cases hr
  | failed e => cases hr
  | outOfFuel => cases hr

/-- Unwrapping a value that is pending closes the ending. -/
theorem ending?_settle {v : Value} (h : v.Leaving) {r : Ending Value}
    (hr : ending? (.done v) = some r) : ending? (.done v.settle) = some (.ofExcept r.close) := by
  obtain hv | ⟨w, hw, rfl⟩ := h
  · rw [ending?_of_settled hv] at hr
    cases hr
    cases hv <;> rfl
  · cases hr
    exact ending?_of_settled hw

/-- **A call or a program closes the ending of its body.** -/
theorem ends_settle {m : Eval Value} (hm : Tracks Value.Leaving m m) {s t : Store}
    {r : Ending Value} {out : List String} (hs : s.Settled) :
    Ends (do let v ← m; return v.settle) s r t out ↔
      ∃ r₁, Ends m s r₁ t out ∧ r = .ofExcept r₁.close := by
  have hclean := (hm s hs).1
  constructor
  · rintro ⟨o, ho, hr⟩
    rw [Eval.bind_def] at ho
    rcases hms : m s with ⟨v | e | _, u, lines⟩
    · rw [hms] at ho hclean
      simp only [Eval.pure_apply, List.append_nil] at ho
      cases ho
      obtain ⟨r₁, hr₁⟩ : ∃ r₁, ending? (.done v) = some r₁ := by cases v <;> exact ⟨_, rfl⟩
      refine ⟨r₁, ⟨_, hms, hr₁⟩, ?_⟩
      rw [ending?_settle (hclean.value v rfl) hr₁] at hr
      exact (Option.some.inj hr).symm
    · rw [hms] at ho
      cases ho
      cases hr
      exact ⟨_, ⟨_, hms, rfl⟩, rfl⟩
    · rw [hms] at ho
      cases ho
      cases hr
  · rintro ⟨r₁, ⟨o, ho, hr₁⟩, rfl⟩
    rw [ho] at hclean
    cases o with
    | done v =>
      refine ⟨.done v.settle, ?_, ending?_settle (hclean.value v rfl) hr₁⟩
      simp only [Eval.bind_def, ho, Eval.pure_apply, List.append_nil]
    | failed e =>
      cases hr₁
      refine ⟨.failed e, ?_, rfl⟩
      simp only [Eval.bind_def, ho]
    | outOfFuel => cases hr₁

end BigStep

end TreeWalk

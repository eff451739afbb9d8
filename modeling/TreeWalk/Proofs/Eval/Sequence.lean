import TreeWalk.Eval.Basic

/-!
# Statements one behind the other

Evaluating two lists of statements one behind the other is evaluating the first one and going on
with its value (`stmts_append`), unless a `return` is pending in it.  A program is evaluated
statement by statement, and the first `return` ends it with the value that it carries
(`Program.eval_eq_loop`).
-/

set_option autoImplicit false

namespace TreeWalk

/-- The same result, with lines printed before. -/
def Result.after {ε α : Type} (lines : List String) (r : Result ε α) : Result ε α :=
  ⟨r.outcome, r.store, lines ++ r.output⟩

/-- The same outcome, with the value itself if it was pending. -/
def Outcome.settle : Outcome RuntimeError Value → Outcome RuntimeError Value
  | done v => .done v.settle
  | o => o

/-- The same result, with the value itself if it was pending. -/
def Result.settle (r : Result RuntimeError Value) : Result RuntimeError Value :=
  ⟨r.outcome.settle, r.store, r.output⟩

namespace Eval

variable {α β γ : Type}

/-! ## One computation after another -/

section Bind

variable {m : Eval α} {s t : Store} {out : List String}

theorem bind_of_done {a : α} (h : m s = ⟨.done a, t, out⟩) (f : α → Eval β) :
    (m >>= f) s = (f a t).after out := by
  rw [bind_def, h]
  rfl

theorem bind_of_failed {e : RuntimeError} (h : m s = ⟨.failed e, t, out⟩) (f : α → Eval β) :
    (m >>= f) s = ⟨.failed e, t, out⟩ := by
  rw [bind_def, h]

theorem bind_of_outOfFuel (h : m s = ⟨.outOfFuel, t, out⟩) (f : α → Eval β) :
    (m >>= f) s = ⟨.outOfFuel, t, out⟩ := by
  rw [bind_def, h]

end Bind

theorem bind_assoc (m : Eval α) (f : α → Eval β) (g : β → Eval γ) :
    (m >>= f) >>= g = m >>= fun a => f a >>= g := by
  funext s
  rcases hm : m s with ⟨a | e | _, t, out⟩
  · have hmf := bind_of_done hm f
    rw [bind_of_done hm fun a => f a >>= g]
    rcases hf : f a t with ⟨b | e | _, u, more⟩
    · rw [hf] at hmf
      rw [bind_of_done hmf, bind_of_done hf]
      exact congrArg (Result.mk _ _) (List.append_assoc _ _ _)
    · rw [hf] at hmf
      rw [bind_of_failed hmf, bind_of_failed hf]
      rfl
    · rw [hf] at hmf
      rw [bind_of_outOfFuel hmf, bind_of_outOfFuel hf]
      rfl
  · rw [bind_of_failed (bind_of_failed hm f), bind_of_failed hm]
  · rw [bind_of_outOfFuel (bind_of_outOfFuel hm f), bind_of_outOfFuel hm]

theorem pure_bind (a : α) (f : α → Eval β) : (pure a : Eval α) >>= f = f a := by
  funext s
  rw [bind_def]
  rfl

theorem bind_pure (m : Eval α) : m >>= pure = m := by
  funext s
  rcases hm : m s with ⟨a | e | _, t, out⟩
  · rw [bind_of_done hm]
    exact congrArg (Result.mk _ _) (List.append_nil out)
  · exact bind_of_failed hm pure
  · exact bind_of_outOfFuel hm pure

/-- A computation with a value is the first one with a value, and the second one with its own. -/
theorem bind_eq_done {m : Eval α} {f : α → Eval β} {s t : Store} {out : List String} {b : β}
    (h : (m >>= f) s = ⟨.done b, t, out⟩) :
    ∃ a s₁ out₁ out₂, m s = ⟨.done a, s₁, out₁⟩ ∧ f a s₁ = ⟨.done b, t, out₂⟩ := by
  rcases hm : m s with ⟨a | e | _, s₁, out₁⟩
  · rw [bind_of_done hm] at h
    rcases hf : f a s₁ with ⟨o, u, out₂⟩
    rw [hf] at h
    cases h
    exact ⟨a, s₁, out₁, out₂, rfl, hf⟩
  · rw [bind_of_failed hm] at h
    cases h
  · rw [bind_of_outOfFuel hm] at h
    cases h

/-- Where a `return` stops, the result is settled. -/
theorem bind_settle (m : Eval Value) (s : Store) :
    (m >>= fun v => pure v.settle : Eval Value) s = (m s).settle := by
  rcases hm : m s with ⟨v | e | _, t, out⟩
  · rw [bind_of_done hm]
    exact congrArg (Result.mk _ _) (List.append_nil out)
  · rw [bind_of_failed hm]
    rfl
  · rw [bind_of_outOfFuel hm]
    rfl

/-! ## Operands -/

section Operands

variable {m : Eval Value} {s t : Store} {v : Value} {out : List String} (f : Value → Eval Value)

theorem operand_pure (hv : v.kind ≠ .returnValue) : operand (pure v) f = f v := by
  rw [operand, pure_bind]
  cases v with
  | pending w => exact absurd rfl hv
  | _ => rfl

theorem operand_of_done (h : m s = ⟨.done v, t, out⟩) (hv : v.kind ≠ .returnValue) :
    operand m f s = (f v t).after out := by
  rw [operand, bind_of_done h]
  cases v with
  | pending w => exact absurd rfl hv
  | _ => rfl

theorem operand_of_pending (h : m s = ⟨.done (.pending v), t, out⟩) :
    operand m f s = ⟨.done (.pending v), t, out⟩ := by
  rw [operand, bind_of_done h]
  exact congrArg (Result.mk _ _) (List.append_nil out)

end Operands

theorem settle_of_kind_ne {v : Value} (hv : v.kind ≠ .returnValue) : v.settle = v := by
  cases v with
  | pending w => exact absurd rfl hv
  | _ => rfl

/-- What is done with a pending value does not matter: it never comes that far. -/
theorem operand_congr {f g : Value → Eval Value} (m : Eval Value)
    (h : ∀ v, v.kind ≠ .returnValue → f v = g v) : operand m f = operand m g := by
  refine congrArg (m >>= ·) (funext fun v => ?_)
  cases v with
  | pending w => rfl
  | _ => exact h _ Value.Kind.noConfusion

theorem operand_eq_self (m : Eval Value) : operand m (fun v => pure v) = m := by
  have hnext : operand m (fun v => pure v) = m >>= pure := by
    refine congrArg (m >>= ·) (funext fun v => ?_)
    cases v <;> rfl
  rw [hnext, bind_pure]

theorem operand_assoc (m : Eval Value) (f g : Value → Eval Value) :
    operand (operand m f) g = operand m fun v => operand (f v) g := by
  show (m >>= _) >>= _ = m >>= _
  rw [bind_assoc]
  refine congrArg (m >>= ·) (funext fun v => ?_)
  cases v with
  | pending w => exact pure_bind _ _
  | _ => rfl

/-! ## Statements -/

section Statements

variable (inner : Nat → Expr → Eval Value) (scope : Nat)

/-- **Statements behind others** are evaluated with the value of these. -/
theorem stmts_append {value : Value} (hv : value.kind ≠ .returnValue) (ss ss' : List Stmt) :
    stmts inner scope value (ss ++ ss') =
      operand (stmts inner scope value ss) fun v => stmts inner scope v ss' := by
  induction ss generalizing value with
  | nil => exact (operand_pure (fun v => stmts inner scope v ss') hv).symm
  | cons s ss ih =>
    show operand _ _ = operand (operand _ _) _
    rw [operand_assoc]
    exact operand_congr _ fun v hv => ih hv

/-- Only if there is no statement does the value so far count. -/
theorem stmts_eq_block {ss : List Stmt} (h : ss ≠ []) (value : Value) :
    stmts inner scope value ss = block inner scope ss := by
  cases ss with
  | nil => exact absurd rfl h
  | cons s ss => rfl

/-- A block of one expression has its value. -/
theorem block_single (e : Expr) : block inner scope [.expr e] = inner scope e :=
  operand_eq_self _

end Statements

end Eval

/-! ## Programs -/

/-- The statements of a program one after the other, with the value of those before them.  Unlike in
a block, a `return` gives the value itself. -/
def Program.loop (inner : Nat → Expr → Eval Value) (scope : Nat) (value : Value) :
    List Stmt → Eval Value
  | [] => return value
  | s :: rest => do
    match ← Eval.stmt inner scope s with
    | .pending v => return v
    | v => loop inner scope v rest

section Loop

variable {inner : Nat → Expr → Eval Value} {scope : Nat} {s t : Store} {st : Stmt} {v : Value}
  {out : List String} (value : Value) (rest : List Stmt)

theorem Program.loop_nil : Program.loop inner scope value [] = pure value := rfl

theorem Program.loop_of_returns (h : Eval.stmt inner scope st s = ⟨.done (.pending v), t, out⟩) :
    Program.loop inner scope value (st :: rest) s = ⟨.done v, t, out⟩ := by
  rw [Program.loop, Eval.bind_of_done h]
  exact congrArg (Result.mk _ _) (List.append_nil out)

theorem Program.loop_of_failed {e : RuntimeError}
    (h : Eval.stmt inner scope st s = ⟨.failed e, t, out⟩) :
    Program.loop inner scope value (st :: rest) s = ⟨.failed e, t, out⟩ :=
  Eval.bind_of_failed h _

/-- The loop goes on with the value of the statement. -/
theorem Program.loop_of_done (h : Eval.stmt inner scope st s = ⟨.done v, t, out⟩)
    (hv : v.kind ≠ .returnValue) :
    Program.loop inner scope value (st :: rest) s =
      (Program.loop inner scope v rest t).after out := by
  rw [Program.loop, Eval.bind_of_done h]
  cases v with
  | pending v => exact absurd rfl hv
  | _ => rfl

end Loop

theorem Program.loop_eq (inner : Nat → Expr → Eval Value) (scope : Nat) {value : Value}
    (hv : value.kind ≠ .returnValue) (ss : List Stmt) :
    Program.loop inner scope value ss =
      Eval.stmts inner scope value ss >>= fun v => pure v.settle := by
  induction ss generalizing value with
  | nil =>
    show pure value = pure value >>= _
    rw [Eval.pure_bind, Eval.settle_of_kind_ne hv]
  | cons s ss ih =>
    show _ >>= _ = (_ >>= _) >>= _
    rw [Eval.bind_assoc]
    refine congrArg (Eval.stmt inner scope s >>= ·) (funext fun v => ?_)
    cases v with
    | pending v => exact (Eval.pure_bind _ _).symm
    | _ => exact ih Value.Kind.noConfusion

/-- **A program is evaluated statement by statement**, up to the first `return`. -/
theorem Program.eval_eq_loop (fuel scope : Nat) (p : Program) :
    p.eval fuel scope = Program.loop (TreeWalk.eval fuel) scope .null p :=
  (Program.loop_eq (TreeWalk.eval fuel) scope Value.Kind.noConfusion p).symm

end TreeWalk

import TreeWalk.Eval.Basic
import TreeWalk.Proofs.Value.Congruence

/-!
# Couplings of evaluations

Many facts about evaluation compare two runs of the same code, step by step: the scopes, the values
and the stores of the one are related to those of the other, and stay so.  A `Coupling` consists of
such relations, with one law for each thing that evaluation does to a store.  **Whatever the laws
hold for, evaluation keeps**: `Relates.expr` for the rules of evaluation, each of them for any two
ways to evaluate what is one level deeper, and `Relates.eval` for evaluation at any bound.  This is
the one place where the rules are gone through; a new form of expression needs a case here and in
the definitions that are about code (`Expr.Meets`).

The relations may depend on a *world*, which grows along a run.  What is related in a world stays
related in later ones.

What a coupling asks of code is a `Demand`.  It looks at an expression one level deep, and
evaluation meets the inner expressions one by one.
-/

set_option autoImplicit false

namespace TreeWalk

/-! ## Code -/

/-- What is asked of the parts of an expression or a statement. -/
structure Demand where
  /-- The expressions that it directly consists of. -/
  expr : Expr → Prop
  /-- The names that it looks up. -/
  name : String → Prop
  /-- The names that it binds. -/
  target : String → Prop
  /-- The function literals. -/
  literal : Lambda → Prop
  /-- The string literals. -/
  text : String → Prop

namespace Demand

/-- Nothing is asked. -/
def none : Demand := ⟨fun _ => True, fun _ => True, fun _ => True, fun _ => True, fun _ => True⟩

end Demand

/-- The parts of the statement meet the demand. -/
def Stmt.Meets (D : Demand) : Stmt → Prop
  | .bind name value => D.target name ∧ D.expr value
  | .ret value => D.expr value
  | .expr value => D.expr value

/-- The parts of the expression meet the demand: its operands, and the parts of the statements in
its blocks.  The body of a function literal is left out, for it is not evaluated in its place. -/
def Expr.Meets (D : Demand) : Expr → Prop
  | .ident name => D.name name
  | .int _ => True
  | .bool _ => True
  | .str s => D.text s
  | .array items => ∀ e ∈ items, D.expr e
  | .hash entries => ∀ p ∈ entries, D.expr p.1 ∧ D.expr p.2
  | .unary _ operand => D.expr operand
  | .binary _ left right => D.expr left ∧ D.expr right
  | .index container position => D.expr container ∧ D.expr position
  | .cond test yes no =>
    D.expr test ∧ (∀ st ∈ yes, st.Meets D) ∧ ∀ block ∈ no, ∀ st ∈ block, st.Meets D
  | .func params body => D.literal ⟨params, body⟩
  | .call callee args => D.expr callee ∧ ∀ e ∈ args, D.expr e

theorem Stmt.meets_none (st : Stmt) : st.Meets .none := by
  cases st <;> simp [Stmt.Meets, Demand.none]

theorem Expr.meets_none (e : Expr) : e.Meets .none := by
  cases e <;> simp [Expr.Meets, Stmt.meets_none] <;> simp [Demand.none]

/-! ## Couplings -/

/-- Relations between two runs, with what has to be shown for evaluation to keep them. -/
structure Coupling (W : Type) where
  /-- The worlds that a world may grow to. -/
  le : W → W → Prop
  store : W → Store → Store → Prop
  /-- The scopes in which code may be evaluated. -/
  scope : W → Nat → Nat → Prop
  value : W → Value → Value → Prop
  /-- What is asked of code that is evaluated in a scope of the first run. -/
  demand : Nat → Demand
  /-- The two runs may reach the bound together. -/
  exhausts : Prop
  /-- The first run may reach the bound where the second one goes on. -/
  outruns : Prop
  refl : ∀ w, le w w
  trans : ∀ {w w' w''}, le w w' → le w' w'' → le w w''
  scope_mono : ∀ {w w' i j}, le w w' → scope w i j → scope w' i j
  value_mono : ∀ {w w' v v'}, le w w' → value w v v' → value w' v v'
  congruence : ∀ w, Value.Congruence (value w)
  text : ∀ {w i x}, (demand i).text x → value w (.str x) (.str x)
  /-- Code that meets the demand consists of such code. -/
  meets : ∀ {i e}, (demand i).expr e → e.Meets (demand i)
  get? : ∀ {w s t i j name}, store w s t → scope w i j → (demand i).name name →
    Option.Rel (value w) (s.get? i name) (t.get? j name)
  set : ∀ {w s t i j name v v'}, store w s t → scope w i j → (demand i).target name →
    value w v v' → store w (s.set i name v) (t.set j name v')
  /-- The bodies of related functions may be evaluated in the scopes that their calls open. -/
  openScope : ∀ {w s t c d es fs}, store w s t → value w (.closure c) (.closure d) →
    Filed (value w) es fs → ∃ w', le w w' ∧
      store w' (s.openScope (some c.scope) es).2 (t.openScope (some d.scope) fs).2 ∧
      scope w' s.frames.size t.frames.size ∧
      ∀ st ∈ c.lambda.body, st.Meets (demand s.frames.size)
  close : ∀ {w s t i j f}, store w s t → scope w i j → (demand i).literal f →
    ∃ w', le w w' ∧ store w' (s.close i f).2 (t.close j f).2 ∧
      value w' (s.close i f).1 (t.close j f).1

/-- Two outcomes agree: related values, one and the same error, which names kinds in `K` only, or
the bound, if it may be reached. -/
inductive Outcome.Coupled {α β : Type} (K : Value.Kind → Prop) (exhausts : Prop)
    (Q : α → β → Prop) : Outcome RuntimeError α → Outcome RuntimeError β → Prop
  | done {a : α} {b : β} (h : Q a b) : Coupled K exhausts Q (.done a) (.done b)
  | failed {e : RuntimeError} (h : ∀ k ∈ e.kinds, K k) :
      Coupled K exhausts Q (.failed e) (.failed e)
  | outOfFuel (h : exhausts) : Coupled K exhausts Q .outOfFuel .outOfFuel

variable {W α β γ δ : Type}

theorem Outcome.Coupled.mono {K : Value.Kind → Prop} {exhausts : Prop} {Q Q' : α → β → Prop}
    (h : ∀ a b, Q a b → Q' a b) {o : Outcome RuntimeError α} {o' : Outcome RuntimeError β}
    (ho : o.Coupled K exhausts Q o') : o.Coupled K exhausts Q' o' := by
  cases ho with
  | done hab => exact .done (h _ _ hab)
  | failed he => exact .failed he
  | outOfFuel hb => exact .outOfFuel hb

/-- What an evaluation gives: related values, or pending ones that wrap related values. -/
def Coupling.leaving (C : Coupling W) (w : W) (v v' : Value) : Prop :=
  C.value w v v' ∨ ∃ u u', C.value w u u' ∧ v = .pending u ∧ v' = .pending u'

/-- Unwrapping once is enough. -/
theorem Coupling.settle_of_leaving (C : Coupling W) {w : W} {v v' : Value}
    (h : C.leaving w v v') : C.value w v.settle v'.settle := by
  rcases h with h | ⟨u, u', h, rfl, rfl⟩
  · exact (C.congruence w).settle h
  · exact h

namespace Eval

/-- From related stores, the two computations come to results that agree in some later world, unless
the first one reaches its bound and may do so. -/
def Relates (C : Coupling W) (w : W) (Q : W → α → β → Prop) (m : Eval α) (m' : Eval β) : Prop :=
  ∀ ⦃s t : Store⦄, C.store w s t →
    (C.outruns ∧ (m s).outcome = .outOfFuel) ∨
    ∃ w', C.le w w' ∧ C.store w' (m s).store (m' t).store ∧ (m s).output = (m' t).output ∧
      (m s).outcome.Coupled (Value.Named (C.value w')) C.exhausts (Q w') (m' t).outcome

/-! ## The steps of evaluation -/

section Steps

variable {C : Coupling W} {w : W} {Q : W → α → β → Prop} {R : W → γ → δ → Prop}

theorem Relates.pure {a : α} {b : β} (h : Q w a b) : Relates C w Q (pure a) (pure b) :=
  fun _ _ hst => .inr ⟨w, C.refl w, hst, rfl, .done h⟩

theorem Relates.fail {e : RuntimeError} (h : ∀ k ∈ e.kinds, Value.Named (C.value w) k) :
    Relates C w Q (fail e) (fail e) :=
  fun _ _ hst => .inr ⟨w, C.refl w, hst, rfl, .failed h⟩

theorem Relates.exhausted (h : C.exhausts) : Relates C w Q exhausted exhausted :=
  fun _ _ hst => .inr ⟨w, C.refl w, hst, rfl, .outOfFuel h⟩

theorem Relates.outrun (h : C.outruns) (m : Eval β) : Relates C w Q Eval.exhausted m :=
  fun _ _ _ => .inl ⟨h, rfl⟩

theorem Relates.ofExcept {x : Except RuntimeError α} {y : Except RuntimeError β}
    (h : Answers (Value.Named (C.value w)) (Q w) x y) :
    Relates C w Q (ofExcept x) (ofExcept y) := by
  cases h with
  | ok h => exact .pure h
  | error h => exact .fail h

theorem Relates.print {lines lines' : List String} (h : lines = lines') :
    Relates C w (fun _ _ _ => True) (print lines) (print lines') :=
  fun _ _ hst => .inr ⟨w, C.refl w, hst, h, .done trivial⟩

theorem Relates.lookup {i j : Nat} (hij : C.scope w i j) {name : String}
    (hname : (C.demand i).name name) :
    Relates C w (fun w => Option.Rel (C.value w)) (lookup i name) (lookup j name) :=
  fun _ _ hst => .inr ⟨w, C.refl w, hst, rfl, .done (C.get? hst hij hname)⟩

theorem Relates.assign {i j : Nat} (hij : C.scope w i j) {name : String}
    (hname : (C.demand i).target name) {v v' : Value} (hv : C.value w v v') :
    Relates C w (fun _ _ _ => True) (assign i name v) (assign j name v') :=
  fun _ _ hst => .inr ⟨w, C.refl w, C.set hst hij hname hv, rfl, .done trivial⟩

theorem Relates.close {i j : Nat} (hij : C.scope w i j) {f : Lambda}
    (hf : (C.demand i).literal f) : Relates C w C.value (close i f) (close j f) := by
  intro s t hst
  obtain ⟨w', hle, hstore, hvalue⟩ := C.close hst hij hf
  exact .inr ⟨w', hle, hstore, rfl, .done hvalue⟩

/-- The two new scopes are related. -/
theorem Relates.enter {c d : Closure} (h : C.value w (.closure c) (.closure d))
    {es fs : List (String × Value)} (hes : Filed (C.value w) es fs) :
    Relates C w (fun w i j => C.scope w i j ∧ ∀ st ∈ c.lambda.body, st.Meets (C.demand i))
      (enter c.scope es) (enter d.scope fs) := by
  intro s t hst
  obtain ⟨w', hle, hstore, hscope, hbody⟩ := C.openScope hst h hes
  exact .inr ⟨w', hle, hstore, rfl, .done ⟨hscope, hbody⟩⟩

/-- **One step after the other**: the second one starts from what the first one leaves, in the world
that the first one leads to. -/
theorem Relates.bind {m : Eval α} {m' : Eval β} {f : α → Eval γ} {f' : β → Eval δ}
    (hm : Relates C w Q m m')
    (hf : ∀ ⦃w' : W⦄, C.le w w' → ∀ a b, Q w' a b → Relates C w' R (f a) (f' b)) :
    Relates C w R (m >>= f) (m' >>= f') := by
  intro s t hst
  have h := hm hst
  rw [bind_def, bind_def]
  rcases hr : m s with ⟨o, u, lines⟩
  rcases hr' : m' t with ⟨o', u', lines'⟩
  rw [hr, hr'] at h
  obtain ⟨hout, rfl⟩ | ⟨w₁, hle₁, hstore, hlines, houtcome⟩ := h
  · exact .inl ⟨hout, rfl⟩
  · cases houtcome with
    | failed h => exact .inr ⟨w₁, hle₁, hstore, hlines, .failed h⟩
    | outOfFuel h => exact .inr ⟨w₁, hle₁, hstore, hlines, .outOfFuel h⟩
    | @done a b hab =>
      obtain hout | ⟨w₂, hle₂, hstore', hlines', houtcome'⟩ := hf hle₁ a b hab hstore
      · exact .inl hout
      · exact .inr ⟨w₂, C.trans hle₁ hle₂, hstore', congrArg₂ (· ++ ·) hlines hlines', houtcome'⟩

theorem Relates.mono {Q' : W → α → β → Prop} {m : Eval α} {m' : Eval β} (hm : Relates C w Q m m')
    (h : ∀ w' a b, Q w' a b → Q' w' a b) : Relates C w Q' m m' := by
  intro s t hst
  refine (hm hst).imp_right fun ⟨w', hle, hstore, houtput, houtcome⟩ => ?_
  exact ⟨w', hle, hstore, houtput, houtcome.mono (h w')⟩

/-- What the second computation does elsewhere does not matter. -/
theorem Relates.congr {m : Eval α} {m' m'' : Eval β} (hm : Relates C w Q m m')
    (h : ∀ s t, C.store w s t → m'' t = m' t) : Relates C w Q m m'' := by
  intro s t hst
  rw [h s t hst]
  exact hm hst

/-- What follows an operand is reached with related values; pending ones go on their way. -/
theorem Relates.operand {m m' : Eval Value} {f f' : Value → Eval Value}
    (hm : Relates C w C.leaving m m')
    (hf : ∀ ⦃w' : W⦄, C.le w w' → ∀ v v', C.value w' v v' →
      Relates C w' C.leaving (f v) (f' v')) :
    Relates C w C.leaving (operand m f) (operand m' f') := by
  refine .bind hm fun w' hle v v' hv => ?_
  obtain hv | ⟨u, u', hu, rfl, rfl⟩ := hv
  · cases (C.congruence w').similar hv with
    | pending => exact .pure (.inl hv)
    | _ => exact hf hle _ _ hv
  · exact .pure (.inr ⟨u, u', hu, rfl, rfl⟩)

/-- A call or a program unwraps what its body ends with. -/
theorem Relates.settle {m m' : Eval Value} (hm : Relates C w C.leaving m m') :
    Relates C w C.value (do let v ← m; return v.settle) (do let v ← m'; return v.settle) :=
  .bind hm fun _ _ _ _ hv => .pure (C.settle_of_leaving hv)

/-- A computation that gives no pending value. -/
theorem Relates.leaving {m m' : Eval Value} (hm : Relates C w C.value m m') :
    Relates C w C.leaving m m' :=
  hm.mono fun _ _ _ => .inl

end Steps

/-! ## The rules of evaluation -/

section Rules

variable {C : Coupling W} {inner inner' : Nat → Expr → Eval Value}
  (h : ∀ {w : W} {i j : Nat} {e : Expr}, C.scope w i j → (C.demand i).expr e →
    Relates C w C.leaving (inner i e) (inner' j e))
  {w : W} {i j : Nat} (hij : C.scope w i j)

include h hij

/-- By induction on the operands, with whatever follows them. -/
theorem Relates.operands {es : List Expr} (hes : ∀ e ∈ es, (C.demand i).expr e)
    {f f' : List Value → Eval Value}
    (hf : ∀ ⦃w' : W⦄, C.le w w' → ∀ vs vs', List.Forall₂ (C.value w') vs vs' →
      Relates C w' C.leaving (f vs) (f' vs')) :
    Relates C w C.leaving (operands inner i es f) (operands inner' j es f') := by
  induction es generalizing w f f' with
  | nil => exact hf (C.refl w) [] [] .nil
  | cons e es ih =>
    obtain ⟨he, hes⟩ := List.forall_mem_cons.1 hes
    refine .operand (h hij he) fun w₁ hle₁ v v' hv => ?_
    refine ih (C.scope_mono hle₁ hij) hes fun w₂ hle₂ vs vs' hvs => ?_
    exact hf (C.trans hle₁ hle₂) _ _ (.cons (C.value_mono hle₂ hv) hvs)

/-- The hashes that are filled on the way are related. -/
theorem Relates.entries {filed filed' : List (Key × Value × Value)}
    (hfiled : C.value w (.hash filed) (.hash filed')) {es : List (Expr × Expr)}
    (hes : ∀ p ∈ es, (C.demand i).expr p.1 ∧ (C.demand i).expr p.2) :
    Relates C w C.leaving (entries inner i filed es) (entries inner' j filed' es) := by
  induction es generalizing w filed filed' with
  | nil => exact .pure (.inl hfiled)
  | cons p es ih =>
    obtain ⟨⟨hkey, hvalue⟩, hes⟩ := List.forall_mem_cons.1 hes
    refine .operand (h hij hkey) fun w₁ hle₁ u u' hu => ?_
    have hanswer := (C.congruence w₁).key hu
    refine .bind (Q := fun _ k l => k = l ∧ u.key? = some k) (.ofExcept hanswer) ?_
    rintro w₂ hle₂ k _ ⟨rfl, hk⟩
    have hle := C.trans hle₁ hle₂
    refine .operand (h (C.scope_mono hle hij) hvalue) fun w₃ hle₃ v v' hv => ?_
    refine ih (C.scope_mono (C.trans hle hle₃) hij) ?_ hes
    exact (C.congruence w₃).insert (C.value_mono (C.trans hle hle₃) hfiled)
      (C.value_mono (C.trans hle₂ hle₃) hu) hk hv

theorem Relates.stmt {st : Stmt} (hst : st.Meets (C.demand i)) :
    Relates C w C.leaving (stmt inner i st) (stmt inner' j st) := by
  cases st with
  | bind name value =>
    refine .operand (h hij hst.2) fun w₁ hle₁ v v' hv => ?_
    refine .bind (.assign (C.scope_mono hle₁ hij) hst.1 hv) fun w₂ hle₂ _ _ _ => ?_
    exact .pure (.inl (C.value_mono hle₂ hv))
  | ret value =>
    exact .operand (h hij hst) fun _ _ v v' hv => .pure (.inr ⟨v, v', hv, rfl, rfl⟩)
  | expr value => exact h hij hst

/-- By induction on the statements; the value of the last one is carried along. -/
theorem Relates.stmts {v v' : Value} (hv : C.value w v v') {ss : List Stmt}
    (hss : ∀ st ∈ ss, st.Meets (C.demand i)) :
    Relates C w C.leaving (stmts inner i v ss) (stmts inner' j v' ss) := by
  induction ss generalizing w v v' with
  | nil => exact .pure (.inl hv)
  | cons st ss ih =>
    obtain ⟨hst, hss⟩ := List.forall_mem_cons.1 hss
    exact .operand (.stmt h hij hst) fun _ hle _ _ hv => ih (C.scope_mono hle hij) hv hss

theorem Relates.block {b : Block} (hb : ∀ st ∈ b, st.Meets (C.demand i)) :
    Relates C w C.leaving (block inner i b) (block inner' j b) :=
  .stmts h hij (C.congruence w).null hb

omit h in
theorem Relates.ident {name : String} (hname : (C.demand i).name name) :
    Relates C w C.leaving (ident i name) (ident j name) := by
  refine .bind (.lookup hij hname) fun w' _ v v' hv => ?_
  cases hv with
  | some hv => exact .pure (.inl hv)
  | none =>
    dsimp only
    cases Builtin.ofName? name with
    | some b => exact .pure (.inl ((C.congruence w').builtin b))
    | none => exact .fail (List.forall_mem_nil _)

/-- Related tests choose the same block. -/
theorem Relates.branch {v v' : Value} (hv : C.value w v v') {yes : Block}
    (hyes : ∀ st ∈ yes, st.Meets (C.demand i)) {no : Option Block}
    (hno : ∀ b ∈ no, ∀ st ∈ b, st.Meets (C.demand i)) :
    Relates C w C.leaving (branch inner i v yes no) (branch inner' j v' yes no) := by
  have hkind := Value.named hv
  cases (C.congruence w).similar hv with
  | bool b =>
    cases b with
    | true => exact .block h hij hyes
    | false =>
      cases no with
      | none => exact .pure (.inl (C.congruence w).null)
      | some b => exact .block h hij (hno b rfl)
  | _ => exact .fail hkind

omit h hij in
theorem Relates.callBuiltin (b : Builtin) {vs vs' : List Value}
    (hvs : List.Forall₂ (C.value w) vs vs') :
    Relates C w C.value (b.call vs) (b.call vs') := by
  refine .bind (.ofExcept (Q := fun _ _ _ => True) (Value.Congruence.arity_check b hvs)) ?_
  refine fun w₁ hle₁ _ _ _ => .bind (.print ((C.congruence w).lines_eq b hvs)) ?_
  refine fun w₂ hle₂ _ _ _ => .ofExcept ((C.congruence w₂).builtin_value b ?_)
  exact hvs.imp fun _ _ hv => C.value_mono (C.trans hle₁ hle₂) hv

omit i j hij in
/-- **Calls of related functions with related arguments**: the bodies are the same code, and they
are evaluated in the new scopes.  A call gives no pending value. -/
theorem Relates.apply {v v' : Value} (hv : C.value w v v') {vs vs' : List Value}
    (hvs : List.Forall₂ (C.value w) vs vs') :
    Relates C w C.value (apply inner v vs) (apply inner' v' vs') := by
  have hkind := Value.named hv
  cases (C.congruence w).similar hv with
  | @closure c d hlambda =>
    rw [Eval.apply, Eval.apply, ← hlambda, ← hvs.length_eq]
    split
    · refine .bind (.enter hv (.ofList c.lambda.params hvs)) fun w' _ i j hij => ?_
      exact .settle (.block h hij.1 hij.2)
    · exact .fail (List.forall_mem_nil _)
  | builtin b => exact .callBuiltin b hvs
  | _ => exact .fail hkind

/-- One case for each form of expression. -/
theorem Relates.expr {e : Expr} (he : e.Meets (C.demand i)) :
    Relates C w C.leaving (expr inner i e) (expr inner' j e) := by
  cases e with
  | ident name => exact .ident hij he
  | int n => exact .pure (.inl ((C.congruence w).int n))
  | bool b => exact .pure (.inl ((C.congruence w).bool b))
  | str s => exact .pure (.inl (C.text he))
  | array items =>
    refine .operands h hij he fun w' _ vs vs' hvs => ?_
    exact .pure (.inl ((C.congruence w').array hvs))
  | hash es => exact .entries h hij (C.congruence w).empty he
  | unary op e =>
    refine .operand (h hij he) fun w' _ v v' hv => .leaving (.ofExcept ?_)
    exact (C.congruence w').unary op hv
  | binary op l r =>
    refine .operand (h hij he.1) fun w₁ hle₁ a a' ha => ?_
    refine .operand (h (C.scope_mono hle₁ hij) he.2) fun w₂ hle₂ b b' hb => ?_
    exact .leaving (.ofExcept ((C.congruence w₂).binary op (C.value_mono hle₂ ha) hb))
  | index c k =>
    refine .operand (h hij he.1) fun w₁ hle₁ a a' ha => ?_
    refine .operand (h (C.scope_mono hle₁ hij) he.2) fun w₂ hle₂ b b' hb => ?_
    exact .leaving (.ofExcept ((C.congruence w₂).index (C.value_mono hle₂ ha) hb))
  | cond test yes no =>
    refine .operand (h hij he.1) fun w₁ hle₁ v v' hv => ?_
    exact .branch h (C.scope_mono hle₁ hij) hv he.2.1 he.2.2
  | func params body => exact .leaving (.close hij he)
  | call f args =>
    refine .operand (h hij he.1) fun w₁ hle₁ v v' hv => ?_
    refine .operands h (C.scope_mono hle₁ hij) he.2 fun w₂ hle₂ vs vs' hvs => ?_
    exact .leaving (.apply h (C.value_mono hle₂ hv) hvs)

end Rules

/-! ## Whole runs -/

section Runs

variable {C : Coupling W} (hC : C.exhausts) (fuel : Nat) {w : W} {i j : Nat}

include hC

/-- **Evaluation keeps every coupling**, at any bound. -/
theorem Relates.eval {e : Expr} (hij : C.scope w i j) (he : (C.demand i).expr e) :
    Relates C w C.leaving (TreeWalk.eval fuel i e) (TreeWalk.eval fuel j e) := by
  induction fuel generalizing w i j e with
  | zero => exact .exhausted hC
  | succ fuel ih => exact .expr ih hij (C.meets he)

theorem Relates.program (hij : C.scope w i j) {p : Program}
    (hp : ∀ st ∈ p, st.Meets (C.demand i)) :
    Relates C w C.value (p.eval fuel i) (p.eval fuel j) :=
  .settle (.block (.eval hC fuel) hij hp)

theorem Relates.call {v v' : Value} (hv : C.value w v v') {vs vs' : List Value}
    (hvs : List.Forall₂ (C.value w) vs vs') :
    Relates C w C.value (v.call fuel vs) (v'.call fuel vs') :=
  .apply (.eval hC fuel) hv hvs

end Runs

end Eval

end TreeWalk

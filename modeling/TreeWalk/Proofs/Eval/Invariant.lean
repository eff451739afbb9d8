import TreeWalk.Proofs.Eval.Coupling

/-!
# Invariants of evaluation

An invariant is a coupling of two runs that come to the very same values.  It says which stores may
differ, and how, and what is true of the values at hand: that they have some hereditary property.
**Evaluation keeps every invariant** (`eval_respects`): two related stores lead to the same outcome
and the same lines, and to related stores again.  What evaluation keeps true of a single run is an
invariant that relates each store to itself; most often all values that are bound in the store have
a property (`Invariant.holding`).

A *vocabulary* says which names code may mention and which function literals it may hold.  The body
of a literal is looked at only when a function made from it is called.
-/

set_option autoImplicit false

namespace TreeWalk

/-! ## Code -/

/-- The names and the function literals that code may hold. -/
structure Vocabulary where
  name : String → Prop
  literal : Lambda → Prop

section Code

variable (V : Vocabulary)

mutual

/-- The names and literals of the expression are in the vocabulary; the bodies of literals are left
out. -/
def Expr.In : Expr → Prop
  | .ident name => V.name name
  | .int _ => True
  | .bool _ => True
  | .str _ => True
  | .array items => Expr.AllIn items
  | .hash entries => Expr.EntriesIn entries
  | .unary _ operand => operand.In
  | .binary _ left right => left.In ∧ right.In
  | .index container position => container.In ∧ position.In
  | .cond test yes no => test.In ∧ Stmt.AllIn yes ∧ Stmt.ElseIn no
  | .func params body => V.literal ⟨params, body⟩
  | .call callee args => callee.In ∧ Expr.AllIn args

def Expr.AllIn : List Expr → Prop
  | [] => True
  | e :: es => e.In ∧ Expr.AllIn es

def Expr.EntriesIn : List (Expr × Expr) → Prop
  | [] => True
  | (k, v) :: es => k.In ∧ v.In ∧ Expr.EntriesIn es

/-- The names and literals of the statement are in the vocabulary. -/
def Stmt.In : Stmt → Prop
  | .bind name value => V.name name ∧ value.In
  | .ret value => value.In
  | .expr value => value.In

def Stmt.AllIn : List Stmt → Prop
  | [] => True
  | s :: ss => s.In ∧ Stmt.AllIn ss

def Stmt.ElseIn : Option (List Stmt) → Prop
  | none => True
  | some block => Stmt.AllIn block

end

theorem Expr.allIn_iff {es : List Expr} : Expr.AllIn V es ↔ ∀ e ∈ es, e.In V := by
  induction es with
  | nil => simp [Expr.AllIn]
  | cons e es ih => simp [Expr.AllIn, ih]

theorem Expr.entriesIn_iff {es : List (Expr × Expr)} :
    Expr.EntriesIn V es ↔ ∀ p ∈ es, p.1.In V ∧ p.2.In V := by
  induction es with
  | nil => simp [Expr.EntriesIn]
  | cons p es ih => simp only [Expr.EntriesIn, ih, List.forall_mem_cons, and_assoc]

theorem Stmt.allIn_iff {ss : List Stmt} : Stmt.AllIn V ss ↔ ∀ st ∈ ss, st.In V := by
  induction ss with
  | nil => simp [Stmt.AllIn]
  | cons st ss ih => simp [Stmt.AllIn, ih]

/-- What a vocabulary asks of code. -/
def Vocabulary.demand : Demand := ⟨Expr.In V, V.name, V.name, V.literal, fun _ => True⟩

variable {V}

theorem Stmt.In.meets {st : Stmt} (h : st.In V) : st.Meets V.demand := by
  cases st <;> exact h

theorem Stmt.meets_of_allIn {ss : List Stmt} (h : Stmt.AllIn V ss) :
    ∀ st ∈ ss, st.Meets V.demand :=
  fun st hst => ((Stmt.allIn_iff V).1 h st hst).meets

theorem Expr.In.meets {e : Expr} (h : e.In V) : e.Meets V.demand := by
  cases e with
  | int | bool | str => trivial
  | array items => exact (Expr.allIn_iff V).1 h
  | hash es => exact (Expr.entriesIn_iff V).1 h
  | cond test yes no =>
    refine ⟨h.1, Stmt.meets_of_allIn h.2.1, ?_⟩
    rintro b rfl
    exact Stmt.meets_of_allIn h.2.2
  | call f args => exact ⟨h.1, (Expr.allIn_iff V).1 h.2⟩
  | _ => exact h

end Code

/-! ## The names in code -/

mutual

/-- The names that occur in the expression, as references, targets of bindings and parameters, at
any depth. -/
def Expr.names : Expr → List String
  | .ident name => [name]
  | .int _ => []
  | .bool _ => []
  | .str _ => []
  | .array items => Expr.itemNames items
  | .hash entries => Expr.entryNames entries
  | .unary _ e => e.names
  | .binary _ l r => l.names ++ r.names
  | .index c i => c.names ++ i.names
  | .cond test yes no => test.names ++ (Stmt.blockNames yes ++ Stmt.elseNames no)
  | .func params body => params ++ Stmt.blockNames body
  | .call f args => f.names ++ Expr.itemNames args

/-- `Expr.names`, of several expressions. -/
def Expr.itemNames : List Expr → List String
  | [] => []
  | e :: es => e.names ++ Expr.itemNames es

/-- `Expr.names`, of the keys and values of a hash literal. -/
def Expr.entryNames : List (Expr × Expr) → List String
  | [] => []
  | (k, v) :: es => k.names ++ (v.names ++ Expr.entryNames es)

/-- The names that occur in the statement. -/
def Stmt.names : Stmt → List String
  | .bind name value => name :: value.names
  | .ret value => value.names
  | .expr value => value.names

/-- The names that occur in the statements of a block or a program. -/
def Stmt.blockNames : List Stmt → List String
  | [] => []
  | s :: ss => s.names ++ Stmt.blockNames ss

/-- `Stmt.blockNames`, of the second block of a conditional. -/
def Stmt.elseNames : Option (List Stmt) → List String
  | none => []
  | some b => Stmt.blockNames b

end

/-- The names that occur in a function literal, its parameters included. -/
def Lambda.names (f : Lambda) : List String := f.toExpr.names

/-- The code that mentions names of `N` only, in the bodies of literals as well. -/
def Vocabulary.naming (N : String → Prop) : Vocabulary := ⟨N, fun f => ∀ y ∈ f.names, N y⟩

section Code

variable {N : String → Prop}

mutual

theorem Expr.in_naming : (e : Expr) → (∀ y ∈ e.names, N y) → e.In (.naming N)
  | .ident _, h => h _ List.mem_cons_self
  | .int _, _ => trivial
  | .bool _, _ => trivial
  | .str _, _ => trivial
  | .array items, h => Expr.allIn_naming items h
  | .hash entries, h => Expr.entriesIn_naming entries h
  | .unary _ e, h => e.in_naming h
  | .binary _ l r, h => by
    obtain ⟨hl, hr⟩ := List.forall_mem_append.1 h
    exact ⟨l.in_naming hl, r.in_naming hr⟩
  | .index c i, h => by
    obtain ⟨hc, hi⟩ := List.forall_mem_append.1 h
    exact ⟨c.in_naming hc, i.in_naming hi⟩
  | .cond test yes no, h => by
    obtain ⟨htest, h⟩ := List.forall_mem_append.1 h
    obtain ⟨hyes, hno⟩ := List.forall_mem_append.1 h
    exact ⟨test.in_naming htest, Stmt.allIn_naming yes hyes, Stmt.elseIn_naming no hno⟩
  | .func _ _, h => h
  | .call f args, h => by
    obtain ⟨hf, hargs⟩ := List.forall_mem_append.1 h
    exact ⟨f.in_naming hf, Expr.allIn_naming args hargs⟩

theorem Expr.allIn_naming : (es : List Expr) → (∀ y ∈ Expr.itemNames es, N y) →
    Expr.AllIn (.naming N) es
  | [], _ => trivial
  | e :: es, h => by
    obtain ⟨he, hes⟩ := List.forall_mem_append.1 h
    exact ⟨e.in_naming he, Expr.allIn_naming es hes⟩

theorem Expr.entriesIn_naming : (es : List (Expr × Expr)) → (∀ y ∈ Expr.entryNames es, N y) →
    Expr.EntriesIn (.naming N) es
  | [], _ => trivial
  | (k, v) :: es, h => by
    obtain ⟨hk, h⟩ := List.forall_mem_append.1 h
    obtain ⟨hv, hes⟩ := List.forall_mem_append.1 h
    exact ⟨k.in_naming hk, v.in_naming hv, Expr.entriesIn_naming es hes⟩

theorem Stmt.in_naming : (s : Stmt) → (∀ y ∈ s.names, N y) → s.In (.naming N)
  | .bind name value, h => by
    obtain ⟨hname, hvalue⟩ := List.forall_mem_cons.1 h
    exact ⟨hname, value.in_naming hvalue⟩
  | .ret value, h => value.in_naming h
  | .expr value, h => value.in_naming h

theorem Stmt.allIn_naming : (ss : List Stmt) → (∀ y ∈ Stmt.blockNames ss, N y) →
    Stmt.AllIn (.naming N) ss
  | [], _ => trivial
  | s :: ss, h => by
    obtain ⟨hs, hss⟩ := List.forall_mem_append.1 h
    exact ⟨s.in_naming hs, Stmt.allIn_naming ss hss⟩

theorem Stmt.elseIn_naming : (b : Option (List Stmt)) → (∀ y ∈ Stmt.elseNames b, N y) →
    Stmt.ElseIn (.naming N) b
  | none, _ => trivial
  | some b, h => Stmt.allIn_naming b h

end

end Code

/-! ## Invariants -/

/-- What evaluation keeps true, of stores that are related in a world and of the values at hand. -/
structure Invariant (W : Type) where
  /-- The worlds that a world may grow to. -/
  le : W → W → Prop
  store : W → Store → Store → Prop
  /-- The scopes in which code may be evaluated. -/
  scope : W → Nat → Prop
  value : W → Value → Prop
  /-- What is asked of code that is evaluated in a scope. -/
  demand : Nat → Demand
  refl : ∀ w, le w w
  trans : ∀ {w w' w''}, le w w' → le w' w'' → le w w''
  scope_mono : ∀ {w w' i}, le w w' → scope w i → scope w' i
  value_mono : ∀ {w w' v}, le w w' → value w v → value w' v
  hereditary : ∀ w, Value.Hereditary (value w)
  text : ∀ {w i x}, (demand i).text x → value w (.str x)
  meets : ∀ {i e}, (demand i).expr e → e.Meets (demand i)
  size_eq : ∀ {w s t}, store w s t → s.frames.size = t.frames.size
  closures_eq : ∀ {w s t}, store w s t → s.closures = t.closures
  get?_eq : ∀ {w s t i name}, store w s t → scope w i → (demand i).name name →
    s.get? i name = t.get? i name
  value_get? : ∀ {w s t i name v}, store w s t → scope w i → s.get? i name = some v → value w v
  set : ∀ {w s t i name v}, store w s t → scope w i → (demand i).target name → value w v →
    store w (s.set i name v) (t.set i name v)
  /-- The function may be called. -/
  openScope : ∀ {w s t c es}, store w s t → value w (.closure c) → (∀ b ∈ es, value w b.2) →
    store w (s.openScope (some c.scope) es).2 (t.openScope (some c.scope) es).2 ∧
      scope w s.frames.size ∧ ∀ st ∈ c.lambda.body, st.Meets (demand s.frames.size)
  /-- The one step at which the world grows. -/
  close : ∀ {w s t i f}, store w s t → scope w i → (demand i).literal f →
    ∃ w', le w w' ∧ store w' (s.close i f).2 (t.close i f).2 ∧ value w' (s.close i f).1

namespace Invariant

variable {W : Type}

/-- The coupling of equal values that have the property. -/
def coupling (I : Invariant W) : Coupling W where
  le := I.le
  store := I.store
  scope w i j := i = j ∧ I.scope w i
  value w := Value.Equally (I.value w)
  demand := I.demand
  exhausts := True
  outruns := False
  refl := I.refl
  trans := I.trans
  scope_mono hle h := ⟨h.1, I.scope_mono hle h.2⟩
  value_mono hle h := ⟨h.1, I.value_mono hle h.2⟩
  congruence w := (I.hereditary w).congruence
  text h := ⟨rfl, I.text h⟩
  meets := I.meets
  get? := by
    rintro w s t i _ name hst ⟨rfl, hi⟩ hname
    rw [← I.get?_eq hst hi hname]
    cases hv : s.get? i name with
    | none => exact .none
    | some v => exact .some ⟨rfl, I.value_get? hst hi hv⟩
  set := by
    rintro w s t i _ name v _ hst ⟨rfl, hi⟩ hname ⟨rfl, hv⟩
    exact I.set hst hi hname hv
  openScope := by
    rintro w s t c d es fs hst ⟨hcd, hc⟩ hes
    obtain rfl := Value.closure.inj hcd
    obtain ⟨rfl, hvalues⟩ := Value.filed_equally.1 hes
    obtain ⟨hstore, hscope, hbody⟩ := I.openScope hst hc hvalues
    exact ⟨w, I.refl w, hstore, ⟨I.size_eq hst, hscope⟩, hbody⟩
  close := by
    rintro w s t i _ f hst ⟨rfl, hi⟩ hf
    obtain ⟨w', hle, hstore, hvalue⟩ := I.close hst hi hf
    refine ⟨w', hle, hstore, ?_, hvalue⟩
    show Value.closure ⟨s.closures, f, i⟩ = .closure ⟨t.closures, f, i⟩
    rw [I.closures_eq hst]

/-- What an evaluation gives: a value at hand, or a pending one that wraps such a value. -/
def leaving (I : Invariant W) (w : W) (v : Value) : Prop :=
  I.value w v ∨ ∃ u, I.value w u ∧ v = .pending u

/-- In a single run, all values that the store binds have a hereditary property, and so have those
that literals make.  Functions that have it may be called. -/
def holding {P : Value → Prop} (hP : Value.Hereditary P) (D : Demand)
    (text : ∀ {x}, D.text x → P (.str x)) (meets : ∀ {e}, D.expr e → e.Meets D)
    (body : ∀ {c}, P (.closure c) → ∀ st ∈ c.lambda.body, st.Meets D)
    (literal : ∀ {f}, D.literal f → ∀ id scope, P (.closure ⟨id, f, scope⟩)) :
    Invariant Unit where
  le _ _ := True
  store _ s t := s = t ∧ s.Holds P
  scope _ _ := True
  value _ := P
  demand _ := D
  refl _ := trivial
  trans _ _ := trivial
  scope_mono _ _ := trivial
  value_mono _ h := h
  hereditary _ := hP
  text := text
  meets := meets
  size_eq h := congrArg (·.frames.size) h.1
  closures_eq h := congrArg (·.closures) h.1
  get?_eq h _ _ := by rw [h.1]
  value_get? h _ hv := h.2.get? hv
  set := by
    rintro _ s _ i name v ⟨rfl, hs⟩ - - hv
    exact ⟨rfl, hs.set i name hv⟩
  openScope := by
    rintro _ s _ c es ⟨rfl, hs⟩ hc hes
    exact ⟨⟨rfl, hs.openScope _ hes⟩, trivial, body hc⟩
  close := by
    rintro _ s _ i f ⟨rfl, hs⟩ - hf
    exact ⟨(), trivial, ⟨rfl, hs⟩, literal hf s.closures i⟩

end Invariant

variable {W α : Type}

/-- Two results agree: the stores are related, the same lines were printed, the outcomes are equal,
a value satisfies `Q`, and an error names kinds of values at hand only. -/
structure Result.Agrees (I : Invariant W) (w : W) (Q : W → α → Prop)
    (r r' : Result RuntimeError α) : Prop where
  store : I.store w r.store r'.store
  output : r.output = r'.output
  outcome : r.outcome = r'.outcome
  value : ∀ a, r.outcome = .done a → Q w a
  error : ∀ e, r.outcome = .failed e → ∀ k ∈ e.kinds, ∃ v, I.value w v ∧ v.kind = k

/-- Results that agree are equal if the stores are. -/
theorem Result.Agrees.eq {I : Invariant W} {w : W} {Q : W → α → Prop}
    {r r' : Result RuntimeError α} (h : r.Agrees I w Q r') (hstore : r.store = r'.store) :
    r = r' :=
  Result.ext h.outcome hstore h.output

/-- Coupled outcomes are equal if values are. -/
theorem Outcome.Coupled.of_equally {P : Value → Prop} {exhausts : Prop} {Q : α → Prop}
    {o o' : Outcome RuntimeError α}
    (h : o.Coupled (Value.Named (Value.Equally P)) exhausts (fun a b => a = b ∧ Q a) o') :
    o = o' ∧ (∀ a, o = .done a → Q a) ∧
      ∀ e, o = .failed e → ∀ k ∈ e.kinds, ∃ v, P v ∧ v.kind = k := by
  cases h with
  | done hab =>
    obtain ⟨rfl, hQ⟩ := hab
    exact ⟨rfl, fun _ h => Outcome.done.inj h ▸ hQ, nofun⟩
  | failed hkinds =>
    refine ⟨rfl, nofun, fun e he k hk => ?_⟩
    obtain ⟨v, _, hv, hkind⟩ := hkinds k (Outcome.failed.inj he ▸ hk)
    exact ⟨v, hv.2, hkind⟩
  | outOfFuel => exact ⟨rfl, nofun, nofun⟩

namespace Eval

/-- From related stores, the two computations come to results that agree in some later world. -/
def Respects (I : Invariant W) (w : W) (Q : W → α → Prop) (m m' : Eval α) : Prop :=
  ∀ ⦃s t : Store⦄, I.store w s t → ∃ w', I.le w w' ∧ (m s).Agrees I w' Q (m' t)

variable {I : Invariant W} {w : W} {Q : W → α → Prop}

/-- Computations that are related by the coupling of an invariant have equal outcomes. -/
theorem Relates.respects {m m' : Eval α}
    (h : Relates I.coupling w (fun w a b => a = b ∧ Q w a) m m') : Respects I w Q m m' := by
  intro s t hst
  obtain ⟨hout, -⟩ | ⟨w', hle, hstore, houtput, houtcome⟩ := h hst
  · exact hout.elim
  · obtain ⟨heq, hvalue, herror⟩ := houtcome.of_equally
    exact ⟨w', hle, hstore, houtput, heq, hvalue, herror⟩

theorem Relates.respects_leaving {m m' : Eval Value}
    (h : Relates I.coupling w I.coupling.leaving m m') : Respects I w I.leaving m m' := by
  refine (h.mono fun w' v v' hv => ?_).respects
  rcases hv with ⟨rfl, hv⟩ | ⟨u, _, ⟨rfl, hu⟩, rfl, rfl⟩
  · exact ⟨rfl, .inl hv⟩
  · exact ⟨rfl, .inr ⟨u, hu, rfl⟩⟩

theorem Respects.mono {Q' : W → α → Prop} {m m' : Eval α} (h : Respects I w Q m m')
    (hQ : ∀ w' a, Q w' a → Q' w' a) : Respects I w Q' m m' := by
  intro s t hst
  obtain ⟨w', hle, hresult⟩ := h hst
  exact ⟨w', hle, hresult.store, hresult.output, hresult.outcome,
    fun a ha => hQ w' a (hresult.value a ha), hresult.error⟩

/-- A pending value that wraps a value at hand may itself be taken for one. -/
theorem Respects.of_leaving (hpending : ∀ {w v}, I.value w v → I.value w (.pending v))
    {m m' : Eval Value} (h : Respects I w I.leaving m m') : Respects I w I.value m m' := by
  refine h.mono fun w' v hv => ?_
  rcases hv with hv | ⟨u, hu, rfl⟩
  · exact hv
  · exact hpending hu

end Eval

open Eval (Respects)

/-! ## Whole runs -/

/-- **Evaluation keeps every invariant**, at any bound. -/
theorem eval_respects (I : Invariant W) (fuel : Nat) {w : W} {i : Nat} (hi : I.scope w i)
    {e : Expr} (he : (I.demand i).expr e) :
    Respects I w I.leaving (eval fuel i e) (eval fuel i e) :=
  (Eval.Relates.eval (C := I.coupling) trivial fuel ⟨rfl, hi⟩ he).respects_leaving

theorem stmt_respects (I : Invariant W) (fuel : Nat) {w : W} {i : Nat} (hi : I.scope w i)
    {st : Stmt} (hst : st.Meets (I.demand i)) :
    Respects I w I.leaving (Eval.stmt (eval fuel) i st) (Eval.stmt (eval fuel) i st) :=
  (Eval.Relates.stmt (C := I.coupling) (.eval trivial fuel) ⟨rfl, hi⟩ hst).respects_leaving

theorem block_respects (I : Invariant W) (fuel : Nat) {w : W} {i : Nat} (hi : I.scope w i)
    {b : Block} (hb : ∀ st ∈ b, st.Meets (I.demand i)) :
    Respects I w I.leaving (Eval.block (eval fuel) i b) (Eval.block (eval fuel) i b) :=
  (Eval.Relates.block (C := I.coupling) (.eval trivial fuel) ⟨rfl, hi⟩ hb).respects_leaving

theorem Program.eval_respects (I : Invariant W) (fuel : Nat) {w : W} {i : Nat} (hi : I.scope w i)
    {p : Program} (hp : ∀ st ∈ p, st.Meets (I.demand i)) :
    Respects I w I.value (p.eval fuel i) (p.eval fuel i) :=
  (Eval.Relates.program (C := I.coupling) trivial fuel ⟨rfl, hi⟩ hp).respects

theorem Value.call_respects (I : Invariant W) (fuel : Nat) {w : W} {callee : Value}
    (hcallee : I.value w callee) {args : List Value} (hargs : ∀ v ∈ args, I.value w v) :
    Respects I w I.value (callee.call fuel args) (callee.call fuel args) :=
  (Eval.Relates.call (C := I.coupling) trivial fuel ⟨rfl, hcallee⟩
    (forall₂_equally.2 ⟨rfl, hargs⟩)).respects

end TreeWalk

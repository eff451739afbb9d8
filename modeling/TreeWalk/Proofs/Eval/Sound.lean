import TreeWalk.Proofs.Eval.Ends

/-!
# What evaluation computes, the semantics derives

If an evaluation that starts from a settled store comes to an end, the semantics in big steps
derives the same ending, the same store and the same output (`eval_sound`).

The induction is on the bound: under a bound that is larger by one, every rule of evaluation uses
evaluation under the smaller one.  So each rule is treated on its own, and what it asks of the
stores and values in between is that they are settled.
-/

set_option autoImplicit false

namespace TreeWalk.BigStep

open Eval (Tracks)

/-- The evaluation under the bound is one that the semantics derives. -/
def SoundAt (fuel : Nat) : Prop :=
  ∀ ⦃scope : Nat⦄ ⦃e : Expr⦄ ⦃s : Store⦄ ⦃r : Ending Value⦄ ⦃t : Store⦄ ⦃out : List String⦄,
    s.Settled → Ends (eval fuel scope e) s r t out → RunsExpr scope s e r t out

/-- How a computation with an operand in front of it ends, if `R` is what the operand derives. -/
theorem operand_cases {m : Eval Value} {f : Value → Eval Value} {s u : Store} {r : Ending Value}
    {out : List String} {R : Ending Value → Store → List String → Prop}
    (hm : Tracks Value.Leaving m m)
    (hR : ∀ ⦃r : Ending Value⦄ ⦃t : Store⦄ ⦃out : List String⦄, Ends m s r t out → R r t out)
    (hs : s.Settled) (h : Ends (Eval.operand m f) s r u out) :
    (∃ x, r = .abrupt x ∧ R (.abrupt x) u out) ∨
      ∃ v t out₁ out₂, v.Settled ∧ t.Settled ∧ R (.normal v) t out₁ ∧
        Ends (f v) t r u out₂ ∧ out = out₁ ++ out₂ := by
  obtain ⟨r₁, t, out₁, out₂, hfirst, hnext, rfl⟩ := ends_operand.1 h
  cases r₁ with
  | abrupt x =>
    obtain ⟨rfl, rfl, rfl⟩ := hnext
    rw [List.append_nil]
    exact .inl ⟨x, rfl, hR hfirst⟩
  | normal v =>
    obtain ⟨ht, hv⟩ := hfirst.settled hm hs
    exact .inr ⟨v, t, out₁, out₂, hv v rfl, ht, hR hfirst, hnext, rfl⟩

section Rules

variable {fuel : Nat} (ih : SoundAt fuel) {scope : Nat} {s u : Store} {r : Ending Value}
  {out : List String}

include ih

/-- An operand is an expression under the smaller bound. -/
theorem operand_sound {e : Expr} {f : Value → Eval Value} (hs : s.Settled)
    (h : Ends (Eval.operand (eval fuel scope e) f) s r u out) :
    (∃ x, r = .abrupt x ∧ RunsExpr scope s e (.abrupt x) u out) ∨
      ∃ v t out₁ out₂, v.Settled ∧ t.Settled ∧ RunsExpr scope s e (.normal v) t out₁ ∧
        Ends (f v) t r u out₂ ∧ out = out₁ ++ out₂ :=
  operand_cases (eval_tracks fuel scope e) (fun _ _ _ he => ih hs he) hs h

/-- By induction on the operands: either one of them breaks off, or all have values. -/
theorem operands_sound {es : List Expr} {f : List Value → Eval Value} (hs : s.Settled)
    (h : Ends (Eval.operands (eval fuel) scope es f) s r u out) :
    (∃ x, r = .abrupt x ∧ RunsItems scope s es (.abrupt x) u out) ∨
      ∃ vs t out₁ out₂, (∀ v ∈ vs, v.Settled) ∧ t.Settled ∧
        RunsItems scope s es (.normal vs) t out₁ ∧ Ends (f vs) t r u out₂ ∧
        out = out₁ ++ out₂ := by
  induction es generalizing f s out with
  | nil =>
    refine .inr ⟨[], s, [], out, ?_, hs, .nil, h, rfl⟩
    intro v hv
    cases hv
  | cons e es ihes =>
    obtain ⟨x, rfl, he⟩ | ⟨v, t, out₁, out₂, hv, ht, he, hrest, rfl⟩ := operand_sound ih hs h
    · exact .inl ⟨x, rfl, .stop he⟩
    · obtain ⟨x, rfl, hes⟩ | ⟨vs, t', out₃, out₄, hvs, ht', hes, hf, rfl⟩ := ihes ht hrest
      · exact .inl ⟨x, rfl, .cons he hes⟩
      · refine .inr ⟨v :: vs, t', out₁ ++ out₃, out₄, ?_, ht', .cons he hes, hf,
          (List.append_assoc ..).symm⟩
        rw [List.forall_mem_cons]
        exact ⟨hv, hvs⟩

/-- The entries that are filed already come before those of the literal. -/
theorem entries_sound {filed : List (Key × Value × Value)} (hfiled : (Value.hash filed).Settled)
    {es : List (Expr × Expr)} (hs : s.Settled)
    (h : Ends (Eval.entries (eval fuel) scope filed es) s r u out) :
    ∃ r₁, RunsEntries scope s es r₁ u out ∧
      r = r₁.map fun entries =>
        .hash (entries.foldl (fun m p => SortedMap.insert p.1 p.2 m) filed) := by
  induction es generalizing filed s out with
  | nil =>
    obtain ⟨rfl, rfl, rfl⟩ := (ends_pure hfiled).1 h
    exact ⟨.normal [], .nil, rfl⟩
  | cons p es ihes =>
    obtain ⟨k, e⟩ := p
    obtain ⟨x, rfl, hk⟩ | ⟨v, t, out₁, out₂, hv, ht, hk, hrest, rfl⟩ := operand_sound ih hs h
    · exact ⟨.abrupt x, .key hk, rfl⟩
    obtain ⟨key, hkey, hvalue⟩ | ⟨hkey, rfl, rfl, rfl⟩ := (ends_key hv).1 hrest
    · obtain ⟨x, rfl, he⟩ | ⟨w, t', out₃, out₄, hw, ht', he, hmore, rfl⟩ :=
        operand_sound ih ht hvalue
      · exact ⟨.abrupt x, .value hk hkey he, rfl⟩
      · have hinsert := Value.Settled.hereditary.insert hfiled hv hkey hw
        obtain ⟨r₁, hes, rfl⟩ := ihes hinsert ht' hmore
        refine ⟨r₁.map ((key, v, w) :: ·), .cons hk hkey he hes, ?_⟩
        cases r₁ <;> rfl
    · rw [List.append_nil]
      exact ⟨_, .unhashable hk hkey, rfl⟩

/-- One case for each form of statement. -/
theorem stmt_sound {st : Stmt} (hs : s.Settled)
    (h : Ends (Eval.stmt (eval fuel) scope st) s r u out) : RunsStmt scope s st r u out := by
  cases st with
  | bind name e =>
    obtain ⟨x, rfl, he⟩ | ⟨v, t, out₁, out₂, hv, -, he, hrest, rfl⟩ := operand_sound ih hs h
    · exact .bindAbrupt he
    · obtain ⟨rfl, rfl, rfl⟩ := (ends_assign hv).1 hrest
      rw [List.append_nil]
      exact .bind he
  | ret e =>
    obtain ⟨x, rfl, he⟩ | ⟨v, t, out₁, out₂, -, -, he, hrest, rfl⟩ := operand_sound ih hs h
    · exact .retAbrupt he
    · obtain ⟨rfl, rfl, rfl⟩ := ends_pending.1 hrest
      rw [List.append_nil]
      exact .ret he
  | expr e => exact .expr (ih hs h)

/-- The value before a statement is forgotten, so it does not matter which one it was. -/
theorem stmts_sound {value : Value} {st : Stmt} {ss : Block} (hs : s.Settled)
    (h : Ends (Eval.stmts (eval fuel) scope value (st :: ss)) s r u out) :
    RunsBlock scope s (st :: ss) r u out := by
  induction ss generalizing value st s out with
  | nil =>
    obtain ⟨x, rfl, hst⟩ | ⟨v, t, out₁, out₂, hv, -, hst, hrest, rfl⟩ :=
      operand_cases (stmt_tracks fuel scope st)
        (fun _ _ _ hst => stmt_sound ih hs hst) hs h
    · exact .stop hst
    · obtain ⟨rfl, rfl, rfl⟩ := (ends_pure hv).1 hrest
      rw [List.append_nil]
      exact .last hst
  | cons st' ss ihss =>
    obtain ⟨x, rfl, hst⟩ | ⟨v, t, out₁, out₂, -, ht, hst, hrest, rfl⟩ :=
      operand_cases (stmt_tracks fuel scope st)
        (fun _ _ _ hst => stmt_sound ih hs hst) hs h
    · exact .stop hst
    · exact .cons hst (ihss ht hrest)

theorem block_sound {b : Block} (hs : s.Settled)
    (h : Ends (Eval.block (eval fuel) scope b) s r u out) : RunsBlock scope s b r u out := by
  cases b with
  | nil =>
    obtain ⟨rfl, rfl, rfl⟩ := (ends_pure .null).1 h
    exact .nil
  | cons st ss => exact stmts_sound ih hs h

/-- The condition has been evaluated; its value decides which block comes next. -/
theorem branch_sound {e : Expr} {test : Value} {yes : Block} {no : Option Block} {t : Store}
    {out₁ out₂ : List String} (htest : test.Settled) (ht : t.Settled)
    (he : RunsExpr scope s e (.normal test) t out₁)
    (h : Ends (Eval.branch (eval fuel) scope test yes no) t r u out₂) :
    RunsExpr scope s (.cond e yes no) r u (out₁ ++ out₂) := by
  rw [Eval.branch.eq_def] at h
  split at h
  · exact .condTrue he (block_sound ih ht h)
  · cases no with
    | some no => exact .condFalse he (block_sound ih ht h)
    | none =>
      obtain ⟨rfl, rfl, rfl⟩ := (ends_pure .null).1 h
      rw [List.append_nil]
      exact .condNone he
  · next htrue hfalse =>
    obtain ⟨rfl, rfl, rfl⟩ := (ends_fail (RuntimeError.settled_of_kind rfl htest)).1 h
    rw [List.append_nil]
    refine .condOther he fun b hb => ?_
    cases b with
    | true => exact htrue hb
    | false => exact hfalse hb

omit scope in
/-- A call ends with a value or an error, never with a `return`. -/
theorem apply_sound {callee : Value} (hcallee : callee.Settled) {args : List Value}
    (hargs : ∀ v ∈ args, v.Settled) (hs : s.Settled)
    (h : Ends (Eval.apply (eval fuel) callee args) s r u out) :
    ∃ x, r = .ofExcept x ∧ RunsCall s callee args x u out := by
  rw [Eval.apply.eq_def] at h
  split at h
  · next c =>
    split at h
    · next hlength =>
      have hopen := hs.openScope (some c.scope) (forall_mem_bindings c.lambda.params hargs)
      obtain ⟨r₁, hbody, rfl⟩ := (ends_settle (block_tracks fuel _ c.lambda.body) hopen).1 h
      exact ⟨_, rfl, .closure hlength rfl (block_sound ih hopen hbody)⟩
    · next hlength =>
      obtain ⟨rfl, rfl, rfl⟩ := (ends_fail (RuntimeError.settled_of_eq_nil rfl)).1 h
      exact ⟨_, rfl, .arityMismatch hlength⟩
  · exact (ends_callBuiltin hargs).1 h
  · next hclosure hbuiltin =>
    obtain ⟨rfl, rfl, rfl⟩ := (ends_fail (RuntimeError.settled_of_kind rfl hcallee)).1 h
    exact ⟨_, rfl, .notCallable (fun c hc => hclosure c hc) fun b hb => hbuiltin b hb⟩

/-- One case for each form of expression. -/
theorem expr_sound {e : Expr} (hs : s.Settled)
    (h : Ends (Eval.expr (eval fuel) scope e) s r u out) : RunsExpr scope s e r u out := by
  cases e with
  | ident name => exact (ends_ident hs).1 h
  | int n =>
    obtain ⟨rfl, rfl, rfl⟩ := (ends_pure (.int n)).1 h
    exact .int n
  | bool b =>
    obtain ⟨rfl, rfl, rfl⟩ := (ends_pure (.bool b)).1 h
    exact .bool b
  | str text =>
    obtain ⟨rfl, rfl, rfl⟩ := (ends_pure (.str text)).1 h
    exact .str text
  | array items =>
    obtain ⟨x, rfl, hes⟩ | ⟨vs, t, out₁, out₂, hvs, -, hes, hrest, rfl⟩ := operands_sound ih hs h
    · exact .array hes
    · obtain ⟨rfl, rfl, rfl⟩ := (ends_pure (.array hvs)).1 hrest
      rw [List.append_nil]
      exact .array hes
  | hash es =>
    obtain ⟨r₁, hes, rfl⟩ := entries_sound ih Value.Settled.hereditary.empty hs h
    exact .hash hes
  | unary op e =>
    obtain ⟨x, rfl, he⟩ | ⟨v, t, out₁, out₂, hv, -, he, hrest, rfl⟩ := operand_sound ih hs h
    · exact .unaryOperand he
    · obtain ⟨rfl, rfl, rfl⟩ := (ends_ofExcept (op.fair_apply hv)).1 hrest
      rw [List.append_nil]
      exact .unary he
  | binary op l r =>
    obtain ⟨x, rfl, hl⟩ | ⟨a, t, out₁, out₂, ha, ht, hl, hrest, rfl⟩ := operand_sound ih hs h
    · exact .binaryLeft hl
    obtain ⟨x, rfl, hr⟩ | ⟨b, t', out₃, out₄, hb, -, hr, hop, rfl⟩ := operand_sound ih ht hrest
    · exact .binaryRight hl hr
    · obtain ⟨rfl, rfl, rfl⟩ := (ends_ofExcept (op.fair_apply ha hb)).1 hop
      rw [List.append_nil]
      exact .binary hl hr
  | index c i =>
    obtain ⟨x, rfl, hc⟩ | ⟨a, t, out₁, out₂, ha, ht, hc, hrest, rfl⟩ := operand_sound ih hs h
    · exact .indexContainer hc
    obtain ⟨x, rfl, hi⟩ | ⟨b, t', out₃, out₄, hb, -, hi, hop, rfl⟩ := operand_sound ih ht hrest
    · exact .indexPosition hc hi
    · obtain ⟨rfl, rfl, rfl⟩ := (ends_ofExcept (Value.fair_index ha hb)).1 hop
      rw [List.append_nil]
      exact .index hc hi
  | cond test yes no =>
    obtain ⟨x, rfl, he⟩ | ⟨v, t, out₁, out₂, hv, ht, he, hrest, rfl⟩ := operand_sound ih hs h
    · exact .condTest he
    · exact branch_sound ih hv ht he hrest
  | func params body =>
    obtain ⟨rfl, rfl, rfl⟩ := ends_close.1 h
    exact .func params body
  | call f args =>
    obtain ⟨x, rfl, hf⟩ | ⟨callee, t, out₁, out₂, hcallee, ht, hf, hrest, rfl⟩ :=
      operand_sound ih hs h
    · exact .callCallee hf
    obtain ⟨x, rfl, hes⟩ | ⟨vs, t', out₃, out₄, hvs, ht', hes, hcall, rfl⟩ :=
      operands_sound ih ht hrest
    · exact .callArgument hf hes
    · obtain ⟨x, rfl, hx⟩ := apply_sound ih hcallee hvs ht' hcall
      exact .call hf hes hx

end Rules

/-- **What evaluation computes, the semantics derives.** -/
theorem eval_sound (fuel : Nat) : SoundAt fuel := by
  induction fuel with
  | zero =>
    rintro scope e s r t out - ⟨o, ho, hr⟩
    cases ho
    cases hr
  | succ fuel ih =>
    intro scope e s r t out hs h
    exact expr_sound ih hs h

end TreeWalk.BigStep

import Mathlib.Order.Filter.AtTopBot.Basic
import TreeWalk.Proofs.Eval.Ends

/-!
# What the semantics derives, evaluation computes

If the semantics in big steps derives an ending from a settled store, evaluation ends so **under
every bound that is large enough** (`RunsExpr.complete`).

The induction is on the derivation.  That a bound is large enough is said by a filter: what holds
under all large bounds for each of finitely many parts holds under all large bounds for all of them
together, and no bound has to be computed.
-/

set_option autoImplicit false

namespace TreeWalk.BigStep

open Filter
open Eval (Tracks)

/-! ## Large bounds -/

/-- An expression is evaluated one level deeper than its rule. -/
theorem eventually_eval {scope : Nat} {e : Expr} {s t : Store} {r : Ending Value}
    {out : List String}
    (h : ∀ᶠ n in atTop, Ends (Eval.expr (eval n) scope e) s r t out) :
    ∀ᶠ n in atTop, Ends (eval n scope e) s r t out := by
  obtain ⟨n, hn⟩ := eventually_atTop.1 h
  refine eventually_atTop.2 ⟨n + 1, fun m hm => ?_⟩
  obtain ⟨k, rfl⟩ : ∃ k, m = k + 1 := ⟨m - 1, by omega⟩
  exact hn k (by omega)

/-- A rule that uses no inner evaluation. -/
theorem eventually_leaf {scope : Nat} {e : Expr} {s t : Store} {r : Ending Value}
    {out : List String} (h : ∀ n, Ends (Eval.expr (eval n) scope e) s r t out) :
    ∀ᶠ n in atTop, Ends (eval n scope e) s r t out :=
  eventually_eval (.of_forall h)

/-- What is reached under large bounds is reached under some bound, and so it is settled. -/
theorem settled_of_eventually {m : Nat → Eval Value} (hm : ∀ n, Tracks Value.Leaving (m n) (m n))
    {s t : Store} {r : Ending Value} {out : List String}
    (h : ∀ᶠ n in atTop, Ends (m n) s r t out) (hs : s.Settled) :
    t.Settled ∧ ∀ v, r = .normal v → v.Settled := by
  obtain ⟨n, hn⟩ := h.exists
  exact hn.settled (hm n) hs

theorem settled_of_eval {scope : Nat} {e : Expr} {s t : Store} {v : Value} {out : List String}
    (h : ∀ᶠ n in atTop, Ends (eval n scope e) s (.normal v) t out) (hs : s.Settled) :
    t.Settled ∧ v.Settled := by
  obtain ⟨ht, hv⟩ := settled_of_eventually (fun n => eval_tracks n scope e) h hs
  exact ⟨ht, hv v rfl⟩

/-- The last step behind an operand prints nothing. -/
theorem Ends.operand_last {m : Eval Value} {f : Value → Eval Value} {s t u : Store} {v : Value}
    {r : Ending Value} {out : List String} (h : Ends m s (.normal v) t out)
    (hf : Ends (f v) t r u []) : Ends (Eval.operand m f) s r u out := by
  have hend := h.operand_normal hf
  rwa [List.append_nil] at hend

/-- A condition that is no truth value. -/
theorem ends_branch_other {inner : Nat → Expr → Eval Value} {scope : Nat} {v : Value}
    (hv : v.Settled) (hbool : ∀ b, v ≠ .bool b) {yes : Block} {no : Option Block} {s : Store} :
    Ends (Eval.branch inner scope v yes no) s
      (.abrupt (.failing (.conditionNotBoolean v.kind))) s [] := by
  have herror : (RuntimeError.conditionNotBoolean v.kind).Settled :=
    RuntimeError.settled_of_kind rfl hv
  cases hv with
  | bool b => exact absurd rfl (hbool b)
  | _ => exact (ends_fail herror).2 ⟨rfl, rfl, rfl⟩

/-- A callee that is no function. -/
theorem ends_apply_other {inner : Nat → Expr → Eval Value} {callee : Value}
    (hcallee : callee.Settled) (hclosure : ∀ c, callee ≠ .closure c)
    (hbuiltin : ∀ b, callee ≠ .builtin b) {args : List Value} {s : Store} :
    Ends (Eval.apply inner callee args) s (.abrupt (.failing (.notCallable callee.kind))) s [] := by
  have herror : (RuntimeError.notCallable callee.kind).Settled :=
    RuntimeError.settled_of_kind rfl hcallee
  cases hcallee with
  | closure c => exact absurd rfl (hclosure c)
  | builtin b => exact absurd rfl (hbuiltin b)
  | _ => exact (ends_fail herror).2 ⟨rfl, rfl, rfl⟩

/-- Operands end as `r` says, whatever follows them. -/
def OperandsEnd (n scope : Nat) (es : List Expr) (s : Store) (r : Ending (List Value)) (t : Store)
    (out : List String) : Prop :=
  ∀ ⦃f : List Value → Eval Value⦄ ⦃r' : Ending Value⦄ ⦃u : Store⦄ ⦃out' : List String⦄,
    r.Next f t r' u out' → Ends (Eval.operands (eval n) scope es f) s r' u (out ++ out')

theorem OperandsEnd.abrupt {n scope : Nat} {es : List Expr} {s t : Store} {x : Exit}
    {out : List String} (h : OperandsEnd n scope es s (.abrupt x) t out)
    (f : List Value → Eval Value) :
    Ends (Eval.operands (eval n) scope es f) s (.abrupt x) t out := by
  have hend := h (f := f) ⟨rfl, rfl, rfl⟩
  rwa [List.append_nil] at hend

/-- The items of an array make up its value. -/
theorem OperandsEnd.array {n scope : Nat} {es : List Expr} {s t : Store} {r : Ending (List Value)}
    {out : List String} (h : OperandsEnd n scope es s r t out)
    (hvs : ∀ vs, r = .normal vs → ∀ v ∈ vs, v.Settled) :
    Ends (Eval.operands (eval n) scope es fun vs => pure (.array vs)) s (r.map .array) t out := by
  cases r with
  | abrupt x => exact h.abrupt _
  | normal vs =>
    have hend := h (f := fun vs => pure (.array vs))
      ((ends_pure (.array (hvs vs rfl))).2 ⟨rfl, rfl, rfl⟩)
    rwa [List.append_nil] at hend

/-! ## Every rule -/

mutual

theorem RunsExpr.complete {scope : Nat} {s t : Store} {e : Expr} {r : Ending Value}
    {out : List String} : RunsExpr scope s e r t out → s.Settled →
      ∀ᶠ n in atTop, Ends (eval n scope e) s r t out
  | .int n, _ => eventually_leaf fun _ => (ends_pure (.int n)).2 ⟨rfl, rfl, rfl⟩
  | .bool b, _ => eventually_leaf fun _ => (ends_pure (.bool b)).2 ⟨rfl, rfl, rfl⟩
  | .str text, _ => eventually_leaf fun _ => (ends_pure (.str text)).2 ⟨rfl, rfl, rfl⟩
  | .bound h, hs => eventually_leaf fun _ => (ends_ident hs).2 (.bound h)
  | .builtin h hb, hs => eventually_leaf fun _ => (ends_ident hs).2 (.builtin h hb)
  | .undefined h hb, hs => eventually_leaf fun _ => (ends_ident hs).2 (.undefined h hb)
  | .func params body, _ => eventually_leaf fun _ => ends_close.2 ⟨rfl, rfl, rfl⟩
  | .array h, hs => by
    obtain ⟨-, hvs, hes⟩ := h.complete hs
    exact eventually_eval (hes.mono fun n hn => hn.array hvs)
  | .hash h, hs => by
    have hes := h.complete hs [] Value.Settled.hereditary.empty
    exact eventually_eval hes
  | .unary h, hs => by
    have he := h.complete hs
    obtain ⟨-, hv⟩ := settled_of_eval he hs
    refine eventually_eval (he.mono fun n hn => hn.operand_last ?_)
    exact (ends_ofExcept (UnaryOp.fair_apply _ hv)).2 ⟨rfl, rfl, rfl⟩
  | .unaryOperand h, hs =>
    eventually_eval ((h.complete hs).mono fun _ hn => hn.operand_abrupt _)
  | .binary hl hr, hs => by
    have hleft := hl.complete hs
    obtain ⟨ht, ha⟩ := settled_of_eval hleft hs
    have hright := hr.complete ht
    obtain ⟨-, hb⟩ := settled_of_eval hright ht
    refine eventually_eval ?_
    filter_upwards [hleft, hright] with n hnl hnr
    refine hnl.operand_normal (hnr.operand_last ?_)
    exact (ends_ofExcept (BinaryOp.fair_apply _ ha hb)).2 ⟨rfl, rfl, rfl⟩
  | .binaryLeft hl, hs =>
    eventually_eval ((hl.complete hs).mono fun _ hn => hn.operand_abrupt _)
  | .binaryRight hl hr, hs => by
    have hleft := hl.complete hs
    obtain ⟨ht, -⟩ := settled_of_eval hleft hs
    refine eventually_eval ?_
    filter_upwards [hleft, hr.complete ht] with n hnl hnr
    exact hnl.operand_normal (hnr.operand_abrupt _)
  | .index hc hi, hs => by
    have hcontainer := hc.complete hs
    obtain ⟨ht, ha⟩ := settled_of_eval hcontainer hs
    have hposition := hi.complete ht
    obtain ⟨-, hb⟩ := settled_of_eval hposition ht
    refine eventually_eval ?_
    filter_upwards [hcontainer, hposition] with n hnc hni
    refine hnc.operand_normal (hni.operand_last ?_)
    exact (ends_ofExcept (Value.fair_index ha hb)).2 ⟨rfl, rfl, rfl⟩
  | .indexContainer hc, hs =>
    eventually_eval ((hc.complete hs).mono fun _ hn => hn.operand_abrupt _)
  | .indexPosition hc hi, hs => by
    have hcontainer := hc.complete hs
    obtain ⟨ht, -⟩ := settled_of_eval hcontainer hs
    refine eventually_eval ?_
    filter_upwards [hcontainer, hi.complete ht] with n hnc hni
    exact hnc.operand_normal (hni.operand_abrupt _)
  | .condTest h, hs => eventually_eval ((h.complete hs).mono fun _ hn => hn.operand_abrupt _)
  | .condTrue h hyes, hs => by
    have htest := h.complete hs
    obtain ⟨ht, -⟩ := settled_of_eval htest hs
    refine eventually_eval ?_
    filter_upwards [htest, hyes.complete ht] with n hn hnyes
    exact hn.operand_normal hnyes
  | .condFalse h hno, hs => by
    have htest := h.complete hs
    obtain ⟨ht, -⟩ := settled_of_eval htest hs
    refine eventually_eval ?_
    filter_upwards [htest, hno.complete ht] with n hn hnno
    exact hn.operand_normal hnno
  | .condNone h, hs => by
    refine eventually_eval ((h.complete hs).mono fun n hn => hn.operand_last ?_)
    exact (ends_pure .null).2 ⟨rfl, rfl, rfl⟩
  | .condOther h hbool, hs => by
    have htest := h.complete hs
    obtain ⟨-, hv⟩ := settled_of_eval htest hs
    exact eventually_eval (htest.mono fun n hn => hn.operand_last (ends_branch_other hv hbool))
  | .callCallee hf, hs => eventually_eval ((hf.complete hs).mono fun _ hn => hn.operand_abrupt _)
  | .callArgument hf hargs, hs => by
    have hcallee := hf.complete hs
    obtain ⟨ht, -⟩ := settled_of_eval hcallee hs
    obtain ⟨-, -, hes⟩ := hargs.complete ht
    refine eventually_eval ?_
    filter_upwards [hcallee, hes] with n hn hnes
    exact hn.operand_normal (hnes.abrupt _)
  | .call hf hargs hcall, hs => by
    have hcallee := hf.complete hs
    obtain ⟨ht, hv⟩ := settled_of_eval hcallee hs
    obtain ⟨hu, hvs, hes⟩ := hargs.complete ht
    refine eventually_eval ?_
    filter_upwards [hcallee, hes, hcall.complete hu hv (hvs _ rfl)] with n hn hnes hncall
    exact hn.operand_normal (hnes hncall)

/-- Whatever follows the items goes on with their values. -/
theorem RunsItems.complete {scope : Nat} {s t : Store} {es : List Expr} {r : Ending (List Value)}
    {out : List String} : RunsItems scope s es r t out → s.Settled →
      t.Settled ∧ (∀ vs, r = .normal vs → ∀ v ∈ vs, v.Settled) ∧
        ∀ᶠ n in atTop, OperandsEnd n scope es s r t out
  | .nil, hs => by
    refine ⟨hs, ?_, .of_forall fun n f r' u out' h => h⟩
    rintro vs hvs v hv
    cases hvs
    cases hv
  | .stop h, hs => by
    have he := h.complete hs
    obtain ⟨ht, -⟩ := settled_of_eventually (fun n => eval_tracks n _ _) he hs
    refine ⟨ht, ?_, ?_⟩
    · intro vs hvs
      cases hvs
    · filter_upwards [he] with n hn
      rintro f r' u out' ⟨rfl, rfl, rfl⟩
      rw [List.append_nil]
      exact hn.operand_abrupt _
  | @RunsItems.cons _ _ _ _ _ _ v r _ _ h hes, hs => by
    have he := h.complete hs
    obtain ⟨ht, hv⟩ := settled_of_eval he hs
    obtain ⟨hu, hvs, hrest⟩ := hes.complete ht
    refine ⟨hu, ?_, ?_⟩
    · intro ws hws
      cases r with
      | abrupt x => cases hws
      | normal vs =>
        cases hws
        rw [List.forall_mem_cons]
        exact ⟨hv, hvs vs rfl⟩
    · filter_upwards [he, hrest] with n hn hnes
      intro f r' u out' hnext
      rw [List.append_assoc]
      exact hn.operand_normal (hnes (next_map.1 hnext))

/-- The entries that are filed already come first. -/
theorem RunsEntries.complete {scope : Nat} {s t : Store} {es : List (Expr × Expr)}
    {r : Ending (List (Key × Value × Value))} {out : List String} :
    RunsEntries scope s es r t out → s.Settled → ∀ filed : List (Key × Value × Value),
      (Value.hash filed).Settled →
      ∀ᶠ n in atTop, Ends (Eval.entries (eval n) scope filed es) s
        (r.map fun entries =>
          .hash (entries.foldl (fun m p => SortedMap.insert p.1 p.2 m) filed)) t out
  | .nil, _, filed, hfiled => .of_forall fun _ => (ends_pure hfiled).2 ⟨rfl, rfl, rfl⟩
  | .key hk, hs, filed, hfiled => (hk.complete hs).mono fun _ hn => hn.operand_abrupt _
  | .unhashable hk hkey, hs, filed, hfiled => by
    have hkeys := hk.complete hs
    obtain ⟨-, hv⟩ := settled_of_eval hkeys hs
    refine hkeys.mono fun n hn => hn.operand_last ?_
    exact (ends_key hv).2 (.inr ⟨hkey, rfl, rfl, rfl⟩)
  | .value hk hkey he, hs, filed, hfiled => by
    have hkeys := hk.complete hs
    obtain ⟨ht, hv⟩ := settled_of_eval hkeys hs
    filter_upwards [hkeys, he.complete ht] with n hn hne
    exact hn.operand_normal ((ends_key hv).2 (.inl ⟨_, hkey, hne.operand_abrupt _⟩))
  | @RunsEntries.cons _ _ _ _ _ _ _ _ _ _ key r _ _ _ hk hkey he hes, hs, filed, hfiled => by
    have hkeys := hk.complete hs
    obtain ⟨ht, hv⟩ := settled_of_eval hkeys hs
    have hvalues := he.complete ht
    obtain ⟨hu, hw⟩ := settled_of_eval hvalues ht
    have hinsert := Value.Settled.hereditary.insert hfiled hv hkey hw
    have hrest := hes.complete hu _ hinsert
    filter_upwards [hkeys, hvalues, hrest] with n hn hne hnes
    -- Filing the first entry and folding in the others is folding in all of them.
    cases r <;>
      exact hn.operand_normal ((ends_key hv).2 (.inl ⟨key, hkey, hne.operand_normal hnes⟩))

theorem RunsStmt.complete {scope : Nat} {s t : Store} {st : Stmt} {r : Ending Value}
    {out : List String} : RunsStmt scope s st r t out → s.Settled →
      ∀ᶠ n in atTop, Ends (Eval.stmt (eval n) scope st) s r t out
  | .bind h, hs => by
    have he := h.complete hs
    obtain ⟨-, hv⟩ := settled_of_eval he hs
    exact he.mono fun n hn => hn.operand_last ((ends_assign hv).2 ⟨rfl, rfl, rfl⟩)
  | .bindAbrupt h, hs => (h.complete hs).mono fun _ hn => hn.operand_abrupt _
  | .ret h, hs =>
    (h.complete hs).mono fun _ hn => hn.operand_last (ends_pending.2 ⟨rfl, rfl, rfl⟩)
  | .retAbrupt h, hs => (h.complete hs).mono fun _ hn => hn.operand_abrupt _
  | .expr h, hs => h.complete hs

theorem RunsBlock.complete {scope : Nat} {s t : Store} {b : Block} {r : Ending Value}
    {out : List String} : RunsBlock scope s b r t out → s.Settled →
      ∀ᶠ n in atTop, Ends (Eval.block (eval n) scope b) s r t out
  | .nil, _ => .of_forall fun _ => (ends_pure .null).2 ⟨rfl, rfl, rfl⟩
  | @RunsBlock.last _ _ _ _ r _ h, hs => by
    have hst := h.complete hs
    obtain ⟨-, hv⟩ := settled_of_eventually (fun n => stmt_tracks n _ _) hst hs
    refine hst.mono fun n hn => ?_
    -- The last statement is an operand, too: behind it only its value is left to be returned.
    cases r with
    | abrupt x => exact hn.operand_abrupt _
    | normal v => exact hn.operand_last ((ends_pure (hv v rfl)).2 ⟨rfl, rfl, rfl⟩)
  | .stop h, hs => (h.complete hs).mono fun _ hn => hn.operand_abrupt _
  | .cons h hss, hs => by
    have hst := h.complete hs
    obtain ⟨ht, -⟩ := settled_of_eventually (fun n => stmt_tracks n _ _) hst hs
    filter_upwards [hst, hss.complete ht] with n hn hnss
    exact hn.operand_normal hnss

/-- A call closes the ending of the body that it opened a scope for. -/
theorem RunsCall.complete {s t : Store} {callee : Value} {args : List Value}
    {x : Except RuntimeError Value} {out : List String} :
    RunsCall s callee args x t out → s.Settled → callee.Settled → (∀ v ∈ args, v.Settled) →
      ∀ᶠ n in atTop, Ends (Eval.apply (eval n) callee args) s (.ofExcept x) t out
  | @RunsCall.closure _ _ c args bindings _ _ hlength hbindings h, hs, _, hargs => by
    have hsettled : ∀ b ∈ bindings, b.2.Settled :=
      hbindings ▸ forall_mem_bindings c.lambda.params hargs
    have hopen := hs.openScope (some c.scope) hsettled
    refine (h.complete hopen).mono fun n hn => ?_
    rw [Eval.apply, if_pos hlength, ← hbindings]
    exact (ends_settle (block_tracks n _ _) hopen).2 ⟨_, hn, rfl⟩
  | .arityMismatch hlength, _, _, _ => by
    refine .of_forall fun n => ?_
    rw [Eval.apply, if_neg hlength]
    exact (ends_fail (RuntimeError.settled_of_eq_nil rfl)).2 ⟨rfl, rfl, rfl⟩
  | .builtin hcount, _, _, hargs =>
    .of_forall fun _ => (ends_callBuiltin hargs).2 ⟨_, rfl, .builtin hcount⟩
  | .wrongCount hcount, _, _, hargs =>
    .of_forall fun _ => (ends_callBuiltin hargs).2 ⟨_, rfl, .wrongCount hcount⟩
  | .notCallable hclosure hbuiltin, _, hcallee, _ =>
    .of_forall fun _ => ends_apply_other hcallee hclosure hbuiltin

end

end TreeWalk.BigStep

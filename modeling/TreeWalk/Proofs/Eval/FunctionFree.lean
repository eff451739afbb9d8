import TreeWalk.Program.Equality
import TreeWalk.Program.Parser
import TreeWalk.Proofs.Eval.Fuel
import TreeWalk.Proofs.Store.Functions

/-!
# Programs without functions

Evaluation goes down the tree of the program, but for one step: a call goes on with the body of a
function, which may be anywhere.  So **only functions can make evaluation diverge**
(`ends_without_functions`): where the program has no function literal and the store binds no
function, evaluation comes to a value or an error, no deeper than expressions are nested in the
program, and leaves a store without functions.

Operators, subscripts and builtins hand on only what they are given, so no function can turn up on
the way.  That is an invariant of evaluation (`functionFree`).  It asks of code that it is nested no
deeper than the levels that are left, one less for inner expressions, so the bound is never reached
(`halting`).
-/

set_option autoImplicit false

namespace TreeWalk

/-! ## The depth of a program -/

mutual

/-- How many expressions stand inside one another, at most. -/
def Expr.depth : Expr → Nat
  | .ident _ => 1
  | .int _ => 1
  | .bool _ => 1
  | .str _ => 1
  | .array items => Expr.itemsDepth items + 1
  | .hash entries => Expr.entriesDepth entries + 1
  | .unary _ e => e.depth + 1
  | .binary _ l r => max l.depth r.depth + 1
  | .index c i => max c.depth i.depth + 1
  | .cond test yes no => max test.depth (max (Stmt.blockDepth yes) (Stmt.elseDepth no)) + 1
  | .func _ body => Stmt.blockDepth body + 1
  | .call f args => max f.depth (Expr.itemsDepth args) + 1

/-- `Expr.depth`, of several expressions. -/
def Expr.itemsDepth : List Expr → Nat
  | [] => 0
  | e :: es => max e.depth (Expr.itemsDepth es)

/-- `Expr.depth`, of the keys and values of a hash literal. -/
def Expr.entriesDepth : List (Expr × Expr) → Nat
  | [] => 0
  | (k, v) :: es => max k.depth (max v.depth (Expr.entriesDepth es))

/-- The depth of the expression of the statement. -/
def Stmt.depth : Stmt → Nat
  | .bind _ value => value.depth
  | .ret value => value.depth
  | .expr value => value.depth

/-- The depth of the statements of a block or a program. -/
def Stmt.blockDepth : List Stmt → Nat
  | [] => 0
  | s :: ss => max s.depth (Stmt.blockDepth ss)

/-- `Stmt.blockDepth`, of the second block of a conditional. -/
def Stmt.elseDepth : Option (List Stmt) → Nat
  | none => 0
  | some b => Stmt.blockDepth b

end

theorem Expr.depth_pos (e : Expr) : 0 < e.depth := by
  cases e <;> simp [Expr.depth]

/-! ## Code, values and stores without functions -/

/-- The code that holds no function literal. -/
def Vocabulary.noLiterals : Vocabulary := ⟨fun _ => True, fun _ => False⟩

/-- No function is bound anywhere in the store, at any depth of arrays and hashes. -/
def Store.FunctionFree (s : Store) : Prop :=
  ∀ (i : Nat) (f : Frame), s.frames[i]? = some f → ∀ b ∈ f.bindings, b.2.closures = []

theorem Value.only_false_iff {v : Value} : v.Only (fun _ => False) ↔ v.closures = [] :=
  List.eq_nil_iff_forall_not_mem.symm

theorem Store.only_false_iff {s : Store} : s.Only (fun _ => False) ↔ s.FunctionFree := by
  simp only [Store.Only, Store.Holds, Store.FunctionFree, Value.only_false_iff]

section Depth

variable {n : Nat}

theorem Expr.itemsDepth_le {es : List Expr} :
    Expr.itemsDepth es ≤ n ↔ ∀ e ∈ es, e.depth ≤ n := by
  induction es with
  | nil => simp [Expr.itemsDepth]
  | cons e es ih => simp only [Expr.itemsDepth, Nat.max_le, ih, List.forall_mem_cons]

theorem Expr.entriesDepth_le {es : List (Expr × Expr)} :
    Expr.entriesDepth es ≤ n ↔ ∀ p ∈ es, p.1.depth ≤ n ∧ p.2.depth ≤ n := by
  induction es with
  | nil => simp [Expr.entriesDepth]
  | cons p es ih => simp only [Expr.entriesDepth, Nat.max_le, ih, List.forall_mem_cons, and_assoc]

theorem Stmt.blockDepth_le {ss : List Stmt} :
    Stmt.blockDepth ss ≤ n ↔ ∀ st ∈ ss, st.depth ≤ n := by
  induction ss with
  | nil => simp [Stmt.blockDepth]
  | cons st ss ih => simp only [Stmt.blockDepth, Nat.max_le, ih, List.forall_mem_cons]

/-- There are no function literals, and expressions are nested no deeper than the number says. -/
def Demand.shallow (n : Nat) : Demand :=
  { Vocabulary.noLiterals.demand with expr := fun e => e.In .noLiterals ∧ e.depth ≤ n }

theorem Stmt.meets_shallow {ss : List Stmt} (hss : Stmt.AllIn .noLiterals ss)
    (hn : Stmt.blockDepth ss ≤ n) : ∀ st ∈ ss, st.Meets (.shallow n) := by
  intro st hst
  have hin := (Stmt.allIn_iff _).1 hss st hst
  have hdepth := Stmt.blockDepth_le.1 hn st hst
  cases st with
  | bind name value => exact ⟨hin.1, hin.2, hdepth⟩
  | _ => exact ⟨hin, hdepth⟩

/-- What stands inside an expression is nested less deep. -/
theorem Expr.meets_shallow {e : Expr} (he : e.In .noLiterals) (hn : e.depth ≤ n + 1) :
    e.Meets (.shallow n) := by
  have hmeets := he.meets
  cases e with
  | ident | int | bool | str | func => exact hmeets
  | array items =>
    have hn := Expr.itemsDepth_le.1 (Nat.le_of_succ_le_succ hn)
    exact fun e he => ⟨hmeets e he, hn e he⟩
  | hash es =>
    have hn := Expr.entriesDepth_le.1 (Nat.le_of_succ_le_succ hn)
    exact fun p hp => ⟨⟨(hmeets p hp).1, (hn p hp).1⟩, (hmeets p hp).2, (hn p hp).2⟩
  | unary op e => exact ⟨hmeets, Nat.le_of_succ_le_succ hn⟩
  | binary op l r =>
    obtain ⟨hl, hr⟩ := Nat.max_le.1 (Nat.le_of_succ_le_succ hn)
    exact ⟨⟨hmeets.1, hl⟩, hmeets.2, hr⟩
  | index c k =>
    obtain ⟨hc, hk⟩ := Nat.max_le.1 (Nat.le_of_succ_le_succ hn)
    exact ⟨⟨hmeets.1, hc⟩, hmeets.2, hk⟩
  | cond test yes no =>
    obtain ⟨htest, hyes, hno⟩ := he
    obtain ⟨hntest, hn⟩ := Nat.max_le.1 (Nat.le_of_succ_le_succ hn)
    obtain ⟨hnyes, hnno⟩ := Nat.max_le.1 hn
    refine ⟨⟨htest, hntest⟩, Stmt.meets_shallow hyes hnyes, ?_⟩
    rintro b rfl
    exact Stmt.meets_shallow hno hnno
  | call f args =>
    obtain ⟨hf, hargs⟩ := Nat.max_le.1 (Nat.le_of_succ_le_succ hn)
    have hargs := Expr.itemsDepth_le.1 hargs
    exact ⟨⟨hmeets.1, hf⟩, fun e he => ⟨hmeets.2 e he, hargs e he⟩⟩

end Depth

/-! ## The invariant -/

/-- There are no functions, and none is made by code that is nested as deep as the number says. -/
def functionFree (n : Nat) : Invariant Unit :=
  .holding (Value.hereditary_only fun _ => False) (.shallow n) (fun _ => nofun)
    (fun h => Expr.meets_shallow h.1 (Nat.le_succ_of_le h.2))
    (fun h => (Value.only_closure.1 h).elim) False.elim

/-- Without functions, the bound is not reached. -/
def halting (n : Nat) : Coupling Unit := { (functionFree n).coupling with exhausts := False }

open Eval (Relates)

/-- **An expression without literals does not reach a bound that is at least its depth.**  By
induction on the bound, for inner expressions are nested less deep. -/
theorem Eval.Relates.eval_halting {n : Nat} {w : Unit} {i j : Nat} {e : Expr}
    (hij : (halting n).scope w i j) (he : ((halting n).demand i).expr e) :
    Relates (halting n) w (halting n).leaving (TreeWalk.eval n i e) (TreeWalk.eval n j e) := by
  induction n generalizing w i j e with
  | zero => exact absurd e.depth_pos (Nat.not_lt.2 he.2)
  | succ n ih => exact Relates.expr (C := halting n) (w := w) ih hij (Expr.meets_shallow he.1 he.2)

theorem Eval.Relates.program_halting {n : Nat} {p : Program} (hp : Stmt.AllIn .noLiterals p)
    (hn : Stmt.blockDepth p ≤ n) (scope : Nat) :
    Relates (halting n) () (halting n).value (p.eval n scope) (p.eval n scope) :=
  .settle (.block (.eval_halting) ⟨rfl, trivial⟩ (Stmt.meets_shallow hp hn))

/-- **Only functions can make evaluation diverge.**  A program that holds no function literal, run
in a store that binds no function, ends with a value or an error, whatever bound it is given from
the depth of the program on; the store that it leaves binds no function either, and its value holds
none. -/
theorem ends_without_functions {p : Program} (hp : Stmt.AllIn .noLiterals p) {s : Store}
    (hs : s.FunctionFree) (scope : Nat) :
    ∃ r : Result RuntimeError Value,
      (∀ fuel, Stmt.blockDepth p ≤ fuel → p.eval fuel scope s = r) ∧
      ((∃ v, r.outcome = .done v ∧ v.closures = []) ∨ ∃ e, r.outcome = .failed e) ∧
      r.store.FunctionFree := by
  obtain ⟨⟨⟩, -⟩ | ⟨_, -, hstore, -, houtcome⟩ :=
    Eval.Relates.program_halting hp (Nat.le_refl _) scope ⟨rfl, Store.only_false_iff.2 hs⟩
  have hagrees (fuel : Nat) (hfuel : Stmt.blockDepth p ≤ fuel) := p.eval_agrees hfuel scope s
  refine ⟨p.eval (Stmt.blockDepth p) scope s, fun fuel hfuel => ?_, ?_,
    Store.only_false_iff.1 hstore.2⟩
  · refine (hagrees fuel hfuel).resolve_left fun hout => ?_
    rw [hout] at houtcome
    cases houtcome with
    | outOfFuel h => exact h
  · generalize (p.eval (Stmt.blockDepth p) scope s).outcome = o at houtcome
    cases houtcome with
    | @done v _ hv => exact .inl ⟨v, rfl, Value.only_false_iff.1 hv.2⟩
    | @failed e _ => exact .inr ⟨e, rfl⟩
    | outOfFuel h => exact h.elim

/-- A builtin that is held in an array, and called with that array as its argument. -/
theorem ends_without_functions_held :
    ∃ (p : Program) (s : Store) (r : Result RuntimeError Value),
      Program.parse "var ys = push(xs, len); ys[1](ys)" = .ok p ∧
      s.get? 0 "xs" = some (.array [.null]) ∧
      (∀ fuel, 3 ≤ fuel → p.eval fuel 0 s = r) ∧ r.outcome = .done (.int 2) ∧
      r.store.FunctionFree := by
  let p : Program :=
    [.bind "ys" (.call (.ident "push") [.ident "xs", .ident "len"]),
      .expr (.call (.index (.ident "ys") (.int 1)) [.ident "ys"])]
  let s : Store := ⟨#[⟨[("xs", .array [.null])], none⟩], 0⟩
  have hparse : Program.parse "var ys = push(xs, len); ys[1](ys)" = .ok p := by decide +kernel
  have hp : Stmt.AllIn .noLiterals p := by
    simp [p, Stmt.AllIn, Stmt.In, Expr.In, Expr.AllIn, Vocabulary.noLiterals]
  have hs : s.FunctionFree := by
    intro i f hf b hb
    cases i with
    | zero =>
      cases hf
      obtain rfl := List.mem_singleton.1 hb
      rfl
    | succ i => cases hf
  obtain ⟨r, hr, -, hfree⟩ := ends_without_functions hp hs 0
  refine ⟨p, s, r, hparse, by with_unfolding_all rfl, hr, ?_, hfree⟩
  rw [← hr 3 (by decide)]
  with_unfolding_all rfl

end TreeWalk

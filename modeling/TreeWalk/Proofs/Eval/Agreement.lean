import TreeWalk.Program.Equality
import TreeWalk.Program.Parser
import TreeWalk.Proofs.Eval.Sound
import TreeWalk.Proofs.Eval.Complete

/-!
# Evaluation and the semantics agree

**Evaluation comes to an end with a value or an error, a store and an output exactly if the
semantics in big steps derives them.**  Evaluation carries a `return` as a pending value through
every expression, while the semantics breaks all of them off at once; from a settled store the two
cannot be told apart.
-/

set_option autoImplicit false

namespace TreeWalk.BigStep

open Eval (Tracks)

theorem Ending.ofExcept_inj {x y : Except RuntimeError Value}
    (h : Ending.ofExcept x = Ending.ofExcept y) : x = y := by
  cases x <;> cases y <;> cases h <;> rfl

/-- A computation that gives only settled values ends as its outcome says. -/
theorem ends_ofExcept_iff {m : Eval Value} (hm : Tracks Value.Settled m m) {s t : Store}
    (hs : s.Settled) {x : Except RuntimeError Value} {out : List String} :
    Ends m s (.ofExcept x) t out ↔ m s = ⟨.ofExcept x, t, out⟩ := by
  have hclean := (hm s hs).1
  constructor
  · rintro ⟨o, ho, hx⟩
    rw [ho] at hclean ⊢
    cases o with
    | done v =>
      rw [ending?_of_settled (hclean.value v rfl)] at hx
      cases x with
      | ok w => cases hx; rfl
      | error e => cases hx
    | failed e =>
      cases x with
      | ok w => cases hx
      | error e => cases hx; rfl
    | outOfFuel => cases hx
  · intro h
    rw [h] at hclean
    refine ⟨_, h, ending?_ofExcept ?_⟩
    cases x with
    | ok v => exact hclean.value v rfl
    | error e => exact hclean.error e rfl

/-- **Evaluation and the semantics agree on every program**: from a settled store, some bound is
enough for the evaluation to end with a value or an error, a store and an output if and only if the
semantics derives that value or error, that store and that output. -/
theorem eval_iff_runsProgram (p : Program) (scope : Nat) {s : Store} (hs : s.Settled)
    (x : Except RuntimeError Value) (t : Store) (out : List String) :
    (∃ fuel, p.eval fuel scope s = ⟨.ofExcept x, t, out⟩) ↔ RunsProgram scope s p x t out := by
  constructor
  · rintro ⟨fuel, h⟩
    have hends := (ends_ofExcept_iff (p.eval_tracks fuel scope) hs).2 h
    obtain ⟨r, hblock, hx⟩ := (ends_settle (block_tracks fuel scope p) hs).1 hends
    obtain rfl := Ending.ofExcept_inj hx
    exact .close (block_sound (eval_sound fuel) hs hblock)
  · intro h
    cases h with
    | close hblock =>
      obtain ⟨fuel, hn⟩ := (hblock.complete hs).exists
      have hends := (ends_settle (block_tracks fuel scope p) hs).2 ⟨_, hn, rfl⟩
      exact ⟨fuel, (ends_ofExcept_iff (p.eval_tracks fuel scope) hs).1 hends⟩

/-- The call returns out of the key of an entry, with what it finds outside its own scope, and the
program out of an argument of `puts`.  Neither the value of the entry nor the argument behind that
one is evaluated, and the outer `puts` prints nothing. -/
theorem eval_iff_runsProgram_returns :
    ∃ (s t : Store) (p : Program), s.Settled ∧ s = ⟨#[⟨[], none⟩], 0⟩ ∧
      t = ⟨#[⟨[("n", .int 2)], none⟩, ⟨[("x", .int 1)], some 0⟩], 1⟩ ∧
      Program.parse ("var n = 2; puts(func(x) \x7b puts(x); " ++
        "\x7bif (x < n) \x7breturn x + n\x7d: puts(n)\x7d \x7d(n - 1), " ++
        "if (true) \x7breturn n\x7d, puts(n))") = .ok p ∧
      p.eval 9 0 s = ⟨.done (.int 2), t, ["1"]⟩ ∧
      RunsProgram 0 s p (.ok (.int 2)) t ["1"] := by
  have hs : Store.Settled ⟨#[⟨[], none⟩], 0⟩ := .global
  let body : Block := [.expr (.call (.ident "puts") [.ident "x"]),
    .expr (.hash [(.cond (.binary .lt (.ident "x") (.ident "n"))
      [.ret (.binary .add (.ident "x") (.ident "n"))] none, .call (.ident "puts") [.ident "n"])])]
  let p : Program := [.bind "n" (.int 2),
    .expr (.call (.ident "puts") [.call (.func ["x"] body) [.binary .sub (.ident "n") (.int 1)],
      .cond (.bool true) [.ret (.ident "n")] none, .call (.ident "puts") [.ident "n"]])]
  let t : Store := ⟨#[⟨[("n", .int 2)], none⟩, ⟨[("x", .int 1)], some 0⟩], 1⟩
  have heval : p.eval 9 0 ⟨#[⟨[], none⟩], 0⟩ = ⟨.done (.int 2), t, ["1"]⟩ := by
    with_unfolding_all rfl
  have hruns := (eval_iff_runsProgram p 0 hs (.ok (.int 2)) t ["1"]).1 ⟨9, heval⟩
  exact ⟨_, t, p, hs, rfl, rfl, by decide +kernel, heval, hruns⟩

end TreeWalk.BigStep

import TreeWalk.Proofs.Value.ReadBack

/-!
# Arithmetic from text to value

A tree of integer literals with unary minus and `+ - * /` has an exact value over the integers
(`Arith.value`), and some of its nodes may be faulty: a divisor is zero, or the exact result is not
among the integers that 64 bits can represent (`Arith.fault?`).  **The text of such a tree, as a
program, gives the exact value if no node is faulty, and otherwise the error of the first faulty
node**, operands before the node itself and from left to right (`arithmetic_exact`).

Faults are judged on exact values only, so nothing about 64-bit integers is used to say what the
right result is.
-/

set_option autoImplicit false

namespace TreeWalk

open Checked (InRange)
open Token (Stream number)

instance (n : Int) : Decidable (InRange n) := inferInstanceAs (Decidable (_ ∧ _))

/-! ## Trees and their exact values -/

/-- The operators of arithmetic. -/
inductive ArithOp
  | add
  | sub
  | mul
  | div
  deriving DecidableEq

/-- A tree of integer literals and arithmetic. -/
inductive Arith
  /-- A literal is not negative and below 2^63. -/
  | lit (n : Fin 0x8000000000000000)
  | neg (t : Arith)
  | op (o : ArithOp) (l r : Arith)

namespace ArithOp

/-- The exact result over the integers.  Division goes toward zero. -/
def exact : ArithOp → Int → Int → Int
  | add, a, b => a + b
  | sub, a, b => a - b
  | mul, a, b => a * b
  | div, a, b => a.tdiv b

def toBinary : ArithOp → BinaryOp
  | add => .add
  | sub => .sub
  | mul => .mul
  | div => .div

end ArithOp

/-- The error of an exact result, if it is out of range. -/
def overflow? (n : Int) : Option RuntimeError :=
  if InRange n then none else some .integerOverflow

namespace Arith

/-- The expression that the tree stands for. -/
def toExpr : Arith → Expr
  | lit n => .int (Int64.ofInt n.val)
  | neg t => .unary .neg t.toExpr
  | op o l r => .binary o.toBinary l.toExpr r.toExpr

/-- The exact value over the integers. -/
def value : Arith → Int
  | lit n => n.val
  | neg t => -t.value
  | op o l r => o.exact l.value r.value

/-- The error of a node whose operands have their exact values. -/
def fault? : Arith → Option RuntimeError
  | lit _ => none
  | neg t => overflow? (-t.value)
  | op o l r =>
    if o = .div ∧ r.value = 0 then some .divisionByZero else overflow? (o.exact l.value r.value)

/-- All nodes, each behind its operands and these from left to right. -/
def postorder : Arith → List Arith
  | lit n => [lit n]
  | neg t => t.postorder ++ [neg t]
  | op o l r => l.postorder ++ r.postorder ++ [op o l r]

/-- The error of the first faulty node. -/
def firstFault? (t : Arith) : Option RuntimeError := t.postorder.findSome? fault?

/-- How deep the tree is. -/
def depth : Arith → Nat
  | lit _ => 0
  | neg t => t.depth + 1
  | op _ l r => max l.depth r.depth + 1

/-- A tree with a faulty operand has its fault, and otherwise the one of its topmost node. -/
theorem firstFault?_neg (t : Arith) : (neg t).firstFault? = t.firstFault?.or (neg t).fault? := by
  simp [firstFault?, postorder, List.findSome?_append]

theorem firstFault?_op (o : ArithOp) (l r : Arith) :
    (op o l r).firstFault? = l.firstFault?.or (r.firstFault?.or (op o l r).fault?) := by
  simp [firstFault?, postorder, List.findSome?_append]

end Arith

/-! ## Checked and exact results -/

/-- The result of a computation with this first error, if any, and this exact value. -/
def verdict : Option RuntimeError → Int → Except RuntimeError Value
  | some e, _ => .error e
  | none, n => .ok (.int (Int64.ofInt n))

theorem toInt_ofInt {n : Int} (h : InRange n) : (Int64.ofInt n).toInt = n :=
  Int64.toInt_ofInt_of_le h.1 h.2

theorem inRange_of_overflow? {n : Int} (h : overflow? n = none) : InRange n := by
  by_contra hn
  rw [overflow?, if_neg hn] at h
  cases h

/-- Checked arithmetic fails exactly at the overflow of the exact result. -/
theorem arithmetic_fit? (n : Int) : arithmetic (Checked.fit? n) = verdict (overflow? n) n := by
  by_cases h : InRange n
  · rw [Checked.fit?_of_inRange h, overflow?, if_pos h]
    rfl
  · rw [Checked.fit?_of_not_inRange h, overflow?, if_neg h]
    rfl

theorem UnaryOp.neg_apply {a : Int} (ha : InRange a) :
    UnaryOp.neg.apply (.int (Int64.ofInt a)) = verdict (overflow? (-a)) (-a) := by
  rw [← arithmetic_fit?, UnaryOp.apply, Checked.neg?, toInt_ofInt ha]

/-- Division is the one operator that looks at its right operand first. -/
theorem ArithOp.toBinary_apply (o : ArithOp) {a b : Int} (ha : InRange a) (hb : InRange b) :
    o.toBinary.apply (.int (Int64.ofInt a)) (.int (Int64.ofInt b)) =
      verdict (if o = .div ∧ b = 0 then some .divisionByZero else overflow? (o.exact a b))
        (o.exact a b) := by
  have hzero : Int64.ofInt b = 0 ↔ b = 0 := by
    rw [← Int64.toInt_inj, toInt_ofInt hb]
    rfl
  cases o with
  | add | sub | mul =>
    simp only [ArithOp.toBinary, BinaryOp.apply, BinaryOp.onInts, Checked.add?, Checked.sub?,
      Checked.mul?, toInt_ofInt ha, toInt_ofInt hb, arithmetic_fit?, ArithOp.exact, reduceCtorEq,
      false_and, if_false]
  | div =>
    simp only [ArithOp.toBinary, BinaryOp.apply, BinaryOp.onInts, Checked.div?, hzero,
      toInt_ofInt ha, toInt_ofInt hb, arithmetic_fit?, ArithOp.exact, true_and]
    by_cases h : b = 0
    · rw [if_pos h, if_pos h]
      rfl
    · rw [if_neg h, if_neg h]

/-! ## Evaluation -/

theorem Eval.ofExcept_apply (x : Except RuntimeError Value) (s : Store) :
    Eval.ofExcept x s = ⟨.ofExcept x, s, []⟩ := by
  cases x <;> rfl

namespace Arith

/-- What the tree should come to. -/
def result (t : Arith) : Except RuntimeError Value := verdict t.firstFault? t.value

theorem inRange_lit (n : Fin 0x8000000000000000) : InRange (n.val : Int) := by
  have := n.isLt
  constructor <;> omega

/-- A tree without faults has its value in range. -/
theorem inRange_value {t : Arith} (h : t.firstFault? = none) : InRange t.value := by
  cases t with
  | lit n => exact inRange_lit n
  | neg t =>
    rw [firstFault?_neg, Option.or_eq_none_iff] at h
    exact inRange_of_overflow? h.2
  | op o l r =>
    rw [firstFault?_op, Option.or_eq_none_iff, Option.or_eq_none_iff, fault?] at h
    obtain ⟨-, -, h⟩ := h
    split at h
    · cases h
    · exact inRange_of_overflow? h

/-- The value of an operand goes on, and its error is the error of the whole. -/
theorem operand_result {t : Arith} {m : Eval Value} {s : Store}
    (hm : m s = ⟨.ofExcept t.result, s, []⟩) (f : Value → Eval Value) (after : Option RuntimeError)
    (n : Int)
    (hf : t.firstFault? = none → InRange t.value →
      f (.int (Int64.ofInt t.value)) s = ⟨.ofExcept (verdict after n), s, []⟩) :
    Eval.operand m f s = ⟨.ofExcept (verdict (t.firstFault?.or after) n), s, []⟩ := by
  rw [result] at hm
  cases hfault : t.firstFault? with
  | none =>
    rw [hfault] at hm
    rw [Eval.operand_of_done f hm Value.Kind.noConfusion,
      hf hfault (inRange_value hfault)]
    rfl
  | some e =>
    rw [hfault] at hm
    exact Eval.bind_of_failed hm _

/-- Below its depth a tree is evaluated to what it should come to. -/
theorem eval_toExpr (scope : Nat) (s : Store) {fuel : Nat} {t : Arith} (h : t.depth < fuel) :
    eval fuel scope t.toExpr s = ⟨.ofExcept t.result, s, []⟩ := by
  induction fuel generalizing t with
  | zero => exact absurd h (Nat.not_lt_zero _)
  | succ fuel ih =>
    cases t with
    | lit n => rfl
    | neg t =>
      have hdepth : t.depth < fuel := Nat.lt_of_succ_lt_succ h
      rw [result, firstFault?_neg]
      refine operand_result (ih hdepth) _ _ _ fun _ ht => ?_
      rw [UnaryOp.neg_apply ht]
      exact Eval.ofExcept_apply _ s
    | op o l r =>
      have hdepth : l.depth < fuel ∧ r.depth < fuel := by
        rw [depth] at h
        omega
      rw [result, firstFault?_op]
      refine operand_result (ih hdepth.1) _ _ _ fun _ hl => ?_
      refine operand_result (ih hdepth.2) _ _ _ fun _ hr => ?_
      rw [o.toBinary_apply hl hr]
      exact Eval.ofExcept_apply _ s

/-! ## From the text -/

theorem wellFormed_toExpr (t : Arith) : t.toExpr.WellFormed := by
  induction t with
  | lit n =>
    have hlt := n.isLt
    have hvalue := toInt_ofInt (inRange_lit n)
    have hle : (Int64.ofInt n.val).toInt ≤ 2 ^ 63 - 1 := by omega
    exact ⟨by omega, hle⟩
  | neg t ih => exact ih
  | op o l r ihl ihr => exact ⟨ihl, ihr⟩

end Arith

/-- The text of an expression, as a program, is the expression. -/
theorem Expr.parse_render {e : Expr} (he : e.WellFormed) :
    Program.parse e.render = .ok [.expr e] := by
  have hjoined : Token.Joined e.pieces := by
    simpa using e.joined he follows_nil
  have htokens : (Stream.ofSource e.render).tokens = number 1 e.pieces := by
    rw [Stream.ofSource, Expr.render, Token.Piece.written, String.toList_ofList,
      Token.pieces_flatMap hjoined]
    rfl
  rw [Grammar.parse_eq_ok_iff, htokens]
  exact statements_single (e.derives he 1)

/-- The text of a tree, as a program, ends with what the tree should come to. -/
theorem Arith.endsWith_result (t : Arith) :
    EndsWith t.toExpr.render ⟨.ofExcept t.result, .global, []⟩ := by
  have heval : Program.eval (t.depth + 1) 0 [.expr t.toExpr] .global =
      ⟨.ofExcept t.result, .global, []⟩ := by
    rw [Program.eval, Eval.block_single, Eval.bind_settle,
      Arith.eval_toExpr 0 .global (Nat.lt_succ_self _), Arith.result]
    cases t.firstFault? <;> rfl
  refine endsWith_of_eval (Expr.parse_render t.wellFormed_toExpr) heval ?_
  rw [Arith.result]
  cases t.firstFault? <;> simp [verdict, Outcome.ofExcept]

/-- **Arithmetic is exact.**  The text of a tree without faulty nodes gives the exact value; if
there are faulty nodes, the first one in the order of evaluation gives its error. -/
theorem arithmetic_exact (t : Arith) :
    ((∀ u ∈ t.postorder, u.fault? = none) →
      ∃ n : Int64, n.toInt = t.value ∧
        EndsWith t.toExpr.render ⟨.done (.int n), .global, []⟩) ∧
    ∀ before u behind e, t.postorder = before ++ u :: behind →
      (∀ w ∈ before, w.fault? = none) → u.fault? = some e →
        EndsWith t.toExpr.render ⟨.failed e, .global, []⟩ := by
  have hends := t.endsWith_result
  rw [Arith.result] at hends
  constructor
  · intro hnone
    have hfault : t.firstFault? = none := List.findSome?_eq_none_iff.2 hnone
    rw [hfault] at hends
    exact ⟨_, toInt_ofInt (Arith.inRange_value hfault), hends⟩
  · intro before u behind e hsplit hbefore hu
    have hfault : t.firstFault? = some e :=
      List.findSome?_eq_some_iff.2 ⟨before, u, behind, hsplit, hu, hbefore⟩
    rw [hfault] at hends
    exact hends

/-- The smallest integer, which has no literal, can be neither negated nor divided by -1. -/
theorem arithmetic_exact_smallest :
    ∃ t : Arith, t.toExpr.render = "((-9223372036854775807) - 1)" ∧ t.value = -2 ^ 63 ∧
      (∃ n : Int64, n.toInt = -2 ^ 63 ∧
        EndsWith t.toExpr.render ⟨.done (.int n), .global, []⟩) ∧
      EndsWith (Arith.neg t).toExpr.render ⟨.failed .integerOverflow, .global, []⟩ ∧
      EndsWith (Arith.op .div t (.neg (.lit 1))).toExpr.render
        ⟨.failed .integerOverflow, .global, []⟩ := by
  obtain ⟨t, ht⟩ : ∃ t, t = Arith.op .sub (.neg (.lit 0x7fffffffffffffff)) (.lit 1) :=
    ⟨_, rfl⟩
  have htext : t.toExpr.render = "((-9223372036854775807) - 1)" := by
    rw [ht]
    decide +kernel
  have hvalue : t.value = -2 ^ 63 := by
    rw [ht]
    decide +kernel
  have hsmallest : ∀ u ∈ t.postorder, u.fault? = none := by
    rw [ht]
    decide +kernel
  rw [← hvalue]
  refine ⟨t, htext, rfl, (arithmetic_exact t).1 hsmallest, ?_, ?_⟩
  · refine (arithmetic_exact _).2 t.postorder _ [] _ rfl hsmallest ?_
    rw [Arith.fault?, hvalue]
    decide
  · refine (arithmetic_exact _).2 (t.postorder ++ [.lit 1, .neg (.lit 1)]) _ [] _ rfl ?_ ?_
    · rw [List.forall_mem_append]
      exact ⟨hsmallest, by decide⟩
    · rw [Arith.fault?, hvalue]
      decide

end TreeWalk

import TreeWalk.Proofs.Grammar.Basic
import TreeWalk.Proofs.Parser.Tables

/-!
# Levels of binding and strata

The parser knows levels, the grammar strata.  An operator stands at the level and in the stratum
of the same rank, and an expression that is read at a level belongs to the next tighter stratum
(`stratumAt`).

Where the parser stops depends on the next token, more exactly on how tightly it binds: its `pull`
on the expression before it.
-/

set_option autoImplicit false

namespace TreeWalk.Grammar

open Token (Kind)

/-- The stratum of the expressions that are read at a level.  A unary operator may open an
expression at every level, so there is none tighter than `unary`. -/
def stratumAt : Level → Stratum
  | .lowest => .equality
  | .equality => .relational
  | .relational => .additive
  | .additive => .multiplicative
  | .multiplicative | .unary | .call | .index => .unary

theorem rank_stratumAt_le_succ (level : Level) : (stratumAt level).rank ≤ level.rank + 1 := by
  cases level <;> decide

theorem rank_stratumAt_le_unary (level : Level) :
    (stratumAt level).rank ≤ Stratum.unary.rank := by
  cases level <;> decide

theorem rank_stratumAt_le_applied (level : Level) :
    (stratumAt level).rank ≤ Stratum.applied.rank :=
  Nat.le_trans (rank_stratumAt_le_unary level) (by decide)

/-- An operator belongs to one stratum, which has the rank of the operator's level and takes its
right operands from the stratum of that level. -/
theorem exists_stratum (op : BinaryOp) :
    ∃ a : Stratum, op ∈ a.operators ∧ a.rank = (Level.ofKind op.kind).rank ∧
      a.tighter = some (stratumAt (Level.ofKind op.kind)) := by
  cases op with
  | eq | ne => exact ⟨.equality, by decide, rfl, rfl⟩
  | lt | le | gt | ge => exact ⟨.relational, by decide, rfl, rfl⟩
  | add | sub => exact ⟨.additive, by decide, rfl, rfl⟩
  | mul | div => exact ⟨.multiplicative, by decide, rfl, rfl⟩

/-- The stratum of an operator has the rank of its level. -/
theorem rank_of_mem_operators {a : Stratum} {op : BinaryOp} (h : op ∈ a.operators) :
    a.rank = (Level.ofKind op.kind).rank := by
  cases a <;> simp only [Stratum.operators, List.mem_cons, List.not_mem_nil, or_false] at h
  · rcases h with rfl | rfl <;> rfl
  · rcases h with rfl | rfl | rfl | rfl <;> rfl
  · rcases h with rfl | rfl <;> rfl
  · rcases h with rfl | rfl <;> rfl

/-- How tightly the first of the tokens binds the expression before them. -/
def pull : List Token → Nat
  | [] => 0
  | t :: _ => (Level.ofKind t.kind).rank

theorem not_continues_nil : ¬ Continues [] := by
  rintro ⟨_, _, h, _⟩
  cases h

/-- The tokens that continue an expression are those of the parser's table. -/
theorem continues_cons_iff {t : Token} {ts : List Token} :
    Continues (t :: ts) ↔ ∃ c : Parser.Continuation, t.kind = c.kind := by
  constructor
  · rintro ⟨_, _, heq, ht⟩
    cases heq
    rcases ht with ⟨op, hop⟩ | ht | ht
    · exact ⟨.operator op, hop⟩
    · exact ⟨.arguments, ht⟩
    · exact ⟨.subscript, ht⟩
  · rintro ⟨c, hc⟩
    refine ⟨t, ts, rfl, ?_⟩
    cases c with
    | operator op => exact .inl ⟨op, hc⟩
    | arguments => exact .inr (.inl hc)
    | subscript => exact .inr (.inr hc)

/-- The tokens that do not continue an expression do not pull at it. -/
theorem pull_eq_zero_iff {ts : List Token} : pull ts = 0 ↔ ¬ Continues ts := by
  cases ts with
  | nil => exact iff_of_true rfl not_continues_nil
  | cons t ts => rw [pull, continues_cons_iff, ← Parser.rank_ofKind_pos_iff, Nat.pos_iff_ne_zero,
      Decidable.not_not]

end TreeWalk.Grammar

import TreeWalk.Program.Cursor
import TreeWalk.Program.Equality
import TreeWalk.Proofs.Grammar.Begun
import TreeWalk.Proofs.Parser.Script

/-!
# No rule is missing

What to do with a token is found out in turns.  A token that binds tightly enough continues an
expression, by a rule that its kind is looked up for; and if this is the rule of the binary
operators, the operator is looked up once more.  A token that opens an expression has a rule in the
same way, and if this is the rule of the unary operators, again an operator of its own.  These are
tables of their own, each with kinds that it does not list, and so the parser needs a **fallback**
wherever one table is trusted to list what another one does.

`Script.withFallback` writes the parser's steps down with the tables apart and with fallbacks that
may do anything.  **Whatever they do, the steps are the same** (`Script.withFallback_eq_body`): no
fallback is ever reached.  Nor is the one error that only a fallback gives, that a token cannot
continue an expression, ever the answer, in whatever order programs and expressions are read and
wherever reading starts again (`no_rule_missing`).
-/

set_option autoImplicit false

namespace TreeWalk

open Token (Kind)

namespace Parser

/-! ## The tables apart -/

/-- The rules by which a token opens an expression. -/
inductive OpeningRule
  | name
  | number
  | text
  | truth
  | operator
  | group
  | array
  | hash
  | cond
  | func
  deriving DecidableEq, Repr

/-- The rule for a token of this kind that opens an expression. -/
def openingRule? : Kind → Option OpeningRule
  | .identifier => some .name
  | .number => some .number
  | .string => some .text
  | .kwTrue | .kwFalse => some .truth
  | .bang | .minus => some .operator
  | .lparen => some .group
  | .lbracket => some .array
  | .lbrace => some .hash
  | .kwIf => some .cond
  | .kwFunc => some .func
  | _ => none

/-- The unary operator that a token of this kind stands for. -/
def unaryOp? : Kind → Option UnaryOp
  | .bang => some .not
  | .minus => some .neg
  | _ => none

/-- What a rule makes of the token that it is applied to; only that of the operators may be at a
loss. -/
def OpeningRule.gives? (k : Kind) : OpeningRule → Option Opening
  | name => some .name
  | number => some .number
  | text => some .text
  | truth => some (.truth (k = .kwTrue))
  | operator => (unaryOp? k).map .operator
  | group => some .group
  | array => some .array
  | hash => some .hash
  | cond => some .cond
  | func => some .func

/-- The rules by which a token continues an expression. -/
inductive ContinuationRule
  | operator
  | arguments
  | subscript
  deriving DecidableEq, Repr

/-- The rule for a token of this kind that continues an expression. -/
def continuationRule? : Kind → Option ContinuationRule
  | .plus | .minus | .star | .slash | .equalEqual | .bangEqual | .less | .lessEqual | .greater
  | .greaterEqual => some .operator
  | .lparen => some .arguments
  | .lbracket => some .subscript
  | _ => none

/-- The binary operator that a token of this kind stands for. -/
def binaryOp? : Kind → Option BinaryOp
  | .plus => some .add
  | .minus => some .sub
  | .star => some .mul
  | .slash => some .div
  | .equalEqual => some .eq
  | .bangEqual => some .ne
  | .less => some .lt
  | .lessEqual => some .le
  | .greater => some .gt
  | .greaterEqual => some .ge
  | _ => none

/-! ## One table relies on another -/

/-- The rule and what it makes of the token are together what the token opens. -/
theorem bind_gives? (k : Kind) : (openingRule? k).bind (·.gives? k) = opening? k := by
  cases k <;> rfl

/-- A token to which the rule of the unary operators is applied is one of them. -/
theorem exists_unaryOp {k : Kind} (h : openingRule? k = some .operator) :
    ∃ op, unaryOp? k = some op := by
  cases k <;> cases h <;> exact ⟨_, rfl⟩

/-- No rule is at a loss with a token that it is looked up for. -/
theorem exists_gives? {k : Kind} {r : OpeningRule} (h : openingRule? k = some r) :
    ∃ o, r.gives? k = some o := by
  cases r with
  | operator =>
    obtain ⟨op, hop⟩ := exists_unaryOp h
    exact ⟨.operator op, by rw [OpeningRule.gives?, hop, Option.map_some]⟩
  | _ => exact ⟨_, rfl⟩

/-- **The loop goes on only with tokens that it has a rule for.** -/
theorem exists_continuationRule {level : Level} {k : Kind} (h : level < Level.ofKind k) :
    ∃ r, continuationRule? k = some r := by
  obtain ⟨c, rfl⟩ := rank_ofKind_pos_iff.1 (Nat.zero_lt_of_lt h)
  rcases c with op | _ | _
  · cases op <;> exact ⟨.operator, rfl⟩
  · exact ⟨.arguments, rfl⟩
  · exact ⟨.subscript, rfl⟩

/-- **A token to which the rule of the binary operators is applied is one of them**, and continues
an expression as such. -/
theorem exists_binaryOp {k : Kind} (h : continuationRule? k = some .operator) :
    ∃ op : BinaryOp, binaryOp? k = some op ∧ k = op.kind := by
  cases k <;> cases h <;> exact ⟨_, rfl, rfl⟩

theorem eq_lparen_of_arguments {k : Kind} (h : continuationRule? k = some .arguments) :
    k = .lparen := by
  cases k <;> cases h
  rfl

theorem eq_lbracket_of_subscript {k : Kind} (h : continuationRule? k = some .subscript) :
    k = .lbracket := by
  cases k <;> cases h
  rfl

/-! ## Steps with fallbacks -/

/-- What is done with a token where a table does not list it. -/
structure Fallback where
  /-- The token binds tightly enough, and no rule continues an expression with it. -/
  noRule : Token → Script Expr
  /-- The rule of the binary operators is applied to it, and it is none of them. -/
  noBinary : Token → Script Expr
  /-- The rule of the unary operators is applied to it, and it is none of them. -/
  noUnary : Token → Script Expr

namespace Script

/-- The steps of a routine, with each table looked up on its own. -/
def withFallback (f : Fallback) {α : Type} : Rule α → Script α
  | .operand => .look fun
    | none => .fail fun last => .expressionExpected (Token.eof last).display last
    | some t =>
      match openingRule? t.kind with
      | none => .fail fun _ => .expressionExpected t.display t.line
      | some r =>
        match r.gives? t.kind with
        | none => f.noUnary t
        | some o =>
          match opened t.literal o with
          | none => .fail fun _ => .integerTooLarge t.literal t.line
          | some next => .advance next
  | .climb level left => .look fun
    | none => .done left
    | some t =>
      if t.kind ≠ .semicolon ∧ level < Level.ofKind t.kind then
        match continuationRule? t.kind with
        | none => f.noRule t
        | some .operator => .advance <|
          match binaryOp? t.kind with
          | none => f.noBinary t
          | some op => do
            let right ← ask (.expr (Level.ofKind t.kind))
            ask (.climb level (.binary op left right))
        | some .arguments => .advance do
          let args ← ask (.items .rparen)
          ask (.climb level (.call left args))
        | some .subscript => .advance do
          let position ← ask (.expr .lowest)
          let _ ← expect .rbracket
          ask (.climb level (.index left position))
      else .done left
  | r => body r

variable (f : Fallback)

theorem withFallback_operand : withFallback f .operand = body .operand := by
  rw [withFallback, body]
  refine congrArg look (funext fun t => ?_)
  rcases t with _ | t
  · rfl
  dsimp only
  rw [← bind_gives?]
  rcases hr : openingRule? t.kind with _ | r
  · rfl
  dsimp only [Option.bind_some]
  rcases ho : r.gives? t.kind with _ | o
  · obtain ⟨o, ho'⟩ := exists_gives? hr
    rw [ho] at ho'
    cases ho'
  · rfl

theorem withFallback_climb (level : Level) (left : Expr) :
    withFallback f (.climb level left) = body (.climb level left) := by
  rw [withFallback, body]
  refine congrArg look (funext fun t => ?_)
  rcases t with _ | t
  · rfl
  dsimp only
  by_cases hlt : level < Level.ofKind t.kind
  · -- A semicolon would end the loop anyway, as it does not bind.
    have hsemicolon : t.kind ≠ .semicolon := by
      intro h
      rw [h] at hlt
      exact Nat.not_lt_zero _ hlt
    rw [if_pos ⟨hsemicolon, hlt⟩, if_pos hlt]
    obtain ⟨r, hr⟩ := exists_continuationRule hlt
    rcases r with _ | _ | _
    · obtain ⟨op, hop, hkind⟩ := exists_binaryOp hr
      simp only [hr, hop, continuation?_of_kind (.operator op) hkind]
      rw [continued, hkind]
    · simp only [hr, continuation?_of_kind .arguments (eq_lparen_of_arguments hr)]
      rfl
    · simp only [hr, continuation?_of_kind .subscript (eq_lbracket_of_subscript hr)]
      rfl
  · rw [if_neg fun h => hlt h.2, if_neg hlt]

/-- **No fallback is reached**: whatever the fallbacks do, every routine takes the same steps. -/
theorem withFallback_eq_body {α : Type} (r : Rule α) : withFallback f r = body r := by
  cases r with
  | operand => exact withFallback_operand f
  | climb level left => exact withFallback_climb f level left
  | _ => rfl

end Script

/-- A routine that the next token decides never fails for want of a rule. -/
theorem Decided.ne_cannotContinue {α : Type} {p : Routine α} {Start : List Token → Prop}
    {last : Nat} {ts : List Token} {e : ParseError} (hp : Decided p Start ts)
    (he : p last ts = .error e) (found : String) (line : Nat) :
    e ≠ .cannotContinue found line := by
  obtain ⟨a, us, rest, rfl, hdet⟩ | ⟨cause, us, rest, rfl, -, hdet⟩ := hp
  · cases (hdet.apply last).symm.trans he
  · cases (hdet.apply last).symm.trans he
    cases cause <;> simp [Cause.error]

end Parser

open TreeWalk.Parser (Fallback Routine Rule Script)

/-! ## Reading on one cursor, step by step -/

namespace Cursor

/-- What can be asked of a cursor. -/
inductive Step
  | program
  | expr (level : Level)
  deriving DecidableEq, Repr

/-- What a step has read. -/
inductive Reading
  | program (p : Program)
  | expr (e : Expr)

/-- What a step reads, and where the cursor stands after it. -/
def Step.take (c : Cursor) : Step → Except ParseError (Reading × Cursor)
  | program => c.program.map fun r => (.program r.1, r.2)
  | expr level => (c.expr level).map fun r => (.expr r.1, r.2)

/-- Steps that are taken one after the other on one cursor, with their answers.  A step that fails
leaves the cursor anywhere from where it stood to the end of the source. -/
inductive Course : Cursor → List Step → List (Except ParseError Reading) → Prop
  | nil (c : Cursor) : Course c [] []
  | reads {c c' : Cursor} {step : Step} {a : Reading} {steps : List Step}
      {answers : List (Except ParseError Reading)} (h : step.take c = .ok (a, c'))
      (hsteps : Course c' steps answers) : Course c (step :: steps) (.ok a :: answers)
  | fails {c c' : Cursor} {step : Step} {e : ParseError} {steps : List Step}
      {answers : List (Except ParseError Reading)} (h : step.take c = .error e)
      (hlast : c'.last = c.last) (htokens : c'.tokens <:+ c.tokens)
      (hsteps : Course c' steps answers) : Course c (step :: steps) (.error e :: answers)

/-- Any steps can be taken, from any place. -/
theorem exists_course (c : Cursor) (steps : List Step) : ∃ answers, Course c steps answers := by
  induction steps generalizing c with
  | nil => exact ⟨[], .nil c⟩
  | cons step steps ih =>
    rcases h : step.take c with e | ⟨a, c'⟩
    · obtain ⟨answers, hanswers⟩ := ih c
      exact ⟨_, .fails h rfl (List.suffix_refl _) hanswers⟩
    · obtain ⟨answers, hanswers⟩ := ih c'
      exact ⟨_, .reads h hanswers⟩

/-- No step fails for want of a rule, wherever the cursor stands. -/
theorem Step.take_ne_cannotContinue (step : Step) (c : Cursor) (found : String) (line : Nat) :
    step.take c ≠ .error (.cannotContinue found line) := by
  intro h
  cases step with
  | program =>
    have hroutine : Routine.program c.last c.tokens = .error (.cannotContinue found line) := by
      revert h
      rw [take, Cursor.program, Routine.program]
      rcases Parser.program c.last c.tokens with e | p
      · rintro ⟨⟩
        rfl
      · rintro ⟨⟩
    exact (Grammar.program_decided c.tokens).ne_cannotContinue hroutine found line rfl
  | expr level =>
    have hroutine : Routine.expr level c.last c.tokens = .error (.cannotContinue found line) := by
      revert h
      rw [take, Cursor.expr, Routine.expr]
      rcases Parser.expr c.last level c.tokens with e | r
      · rintro ⟨⟩
        rfl
      · rintro ⟨⟩
    exact (Grammar.expr_decided level c.tokens).ne_cannotContinue hroutine found line rfl

/-- **No step of a course fails for want of a rule.** -/
theorem Course.ne_cannotContinue {c : Cursor} {steps : List Step}
    {answers : List (Except ParseError Reading)} (h : Course c steps answers) :
    ∀ x ∈ answers, ∀ found line, x ≠ .error (.cannotContinue found line) := by
  induction h with
  | nil => simp
  | reads _ _ ih => simpa using ih
  | @fails c c' step e steps answers h _ _ _ ih =>
    refine List.forall_mem_cons.2 ⟨fun found line he => ?_, ih⟩
    cases he
    exact step.take_ne_cannotContinue c found line h

end Cursor

/-- **The parser's tables never drift apart.**  Whatever programs and expressions are read on one
cursor of a source, at whatever levels and however often reading fails in between, every step has an
answer, and none is that a token cannot continue an expression.  For there is a rule for every token
with which the loop goes on, every token to which a rule of operators is applied is an operator, and
so no fallback is reached: whatever the fallbacks do, the parser takes the same steps. -/
theorem no_rule_missing (source : String) (steps : List Cursor.Step) :
    (∃ answers, Cursor.Course (.ofSource source) steps answers) ∧
    (∀ answers, Cursor.Course (.ofSource source) steps answers →
      ∀ x ∈ answers, ∀ found line, x ≠ .error (.cannotContinue found line)) ∧
    (∀ k : Kind,
      (∀ level, level < Level.ofKind k → ∃ r, Parser.continuationRule? k = some r) ∧
      (Parser.continuationRule? k = some .operator → ∃ op, Parser.binaryOp? k = some op) ∧
      (Parser.openingRule? k = some .operator → ∃ op, Parser.unaryOp? k = some op)) ∧
    ∀ (f : Fallback) {α : Type} (r : Rule α),
      Script.withFallback f r = Script.body r ∧ (Script.withFallback f r).routine = r.routine := by
  refine ⟨Cursor.exists_course _ _, fun answers h => h.ne_cannotContinue,
    fun k => ⟨fun level => Parser.exists_continuationRule, fun h => ?_, Parser.exists_unaryOp⟩,
    fun f α r => ?_⟩
  · obtain ⟨op, hop, -⟩ := Parser.exists_binaryOp h
    exact ⟨op, hop⟩
  · have hbody := Script.withFallback_eq_body f r
    exact ⟨hbody, by rw [hbody, Script.routine_body]⟩

/-- Reading stops before an operator, starts again on the last token before it, and again behind
two errors. -/
theorem no_rule_missing_resumed :
    ∃ answers, answers =
        [.ok (.expr (.int 1)), .error (.expressionExpected "')'" 1),
          .error (.expressionExpected "'*'" 1), .ok (.program [.expr (.int 3)])] ∧
      Cursor.Course (.ofSource "1 - -2 * ) 3")
        [.expr .additive, .expr .lowest, .expr .lowest, .program] answers ∧
      ∀ x ∈ answers, ∀ found line, x ≠ .error (.cannotContinue found line) := by
  have hone : Cursor.Step.take (.ofSource "1 - -2 * ) 3") (.expr .additive) =
      .ok (.expr (.int 1), .ofSource "1 - -2 * ) 3") := by
    with_unfolding_all rfl
  have hparen : Cursor.Step.take (.ofSource "1 - -2 * ) 3") (.expr .lowest) =
      .error (.expressionExpected "')'" 1) := by
    with_unfolding_all rfl
  have hstar : Cursor.Step.take (.ofSource "* ) 3") (.expr .lowest) =
      .error (.expressionExpected "'*'" 1) := by
    with_unfolding_all rfl
  have hthree : Cursor.Step.take (.ofSource "3") .program =
      .ok (.program [.expr (.int 3)], ⟨[], 1⟩) := by
    with_unfolding_all rfl
  have hcourse : Cursor.Course (.ofSource "1 - -2 * ) 3")
      [.expr .additive, .expr .lowest, .expr .lowest, .program]
      [.ok (.expr (.int 1)), .error (.expressionExpected "')'" 1),
        .error (.expressionExpected "'*'" 1), .ok (.program [.expr (.int 3)])] := by
    refine .reads hone (.fails hparen ?_ ?_ (.fails hstar ?_ ?_ (.reads hthree (.nil _))))
    all_goals decide +kernel
  exact ⟨_, rfl, hcourse, (no_rule_missing _ _).2.1 _ hcourse⟩

end TreeWalk

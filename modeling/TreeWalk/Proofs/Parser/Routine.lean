import TreeWalk.Proofs.Parser.Reads
import TreeWalk.Proofs.Parser.Tables

/-!
# The routines of the parser in combination

A routine takes the tokens that are left and gives back, with what it read, those that are left
after it.  `Routine` is the type of such functions, without the proof that tokens were used, so
that routines can be put together: one behind the other, or by a choice that only the next token
decides (`ifNext`).

Each routine of the parser is shown to be such a combination of others.  What holds of single
tokens and is kept by the combinations thus holds of the whole parser.
-/

set_option autoImplicit false

namespace TreeWalk.Parser

open Token (Kind)

/-- From the line on which the source ends and the tokens that are left: what is read, and the
tokens that are left after it. -/
def Routine (α : Type) : Type := Nat → List Token → Except ParseError (α × List Token)

namespace Routine

instance : Monad Routine where
  pure a := fun _ ts => .ok (a, ts)
  bind p q := fun last ts =>
    match p last ts with
    | .ok (a, rest) => q a last rest
    | .error e => .error e

section

variable {α β : Type} {p : Routine α} {q : α → Routine β} {last : Nat} {ts : List Token}

theorem bind_of_ok {a : α} {rest : List Token} (h : p last ts = .ok (a, rest)) :
    (p >>= q) last ts = q a last rest := by
  simp only [bind, h]

theorem bind_of_error {e : ParseError} (h : p last ts = .error e) :
    (p >>= q) last ts = .error e := by
  simp only [bind, h]

end

/-- Takes a token of the given kind, and reads its literal. -/
def token (kind : Kind) (expected : String) : Routine String := fun last ts =>
  match ts with
  | [] => .error (unexpected last expected [])
  | t :: rest =>
    if t.kind = kind then .ok (t.literal, rest) else .error (unexpected last expected (t :: rest))

theorem token_of_kind {kind : Kind} {expected : String} {last : Nat} {t : Token} {ts : List Token}
    (h : t.kind = kind) : token kind expected last (t :: ts) = .ok (t.literal, ts) :=
  if_pos h

theorem token_of_kind_ne {kind : Kind} {expected : String} {last : Nat} {t : Token}
    {ts : List Token} (h : t.kind ≠ kind) :
    token kind expected last (t :: ts) = .error (unexpected last expected (t :: ts)) :=
  if_neg h

/-- Takes a token of the given kind if there is one, and goes on accordingly. -/
def ifNext {α : Type} (kind : Kind) (yes no : Routine α) : Routine α := fun last ts =>
  match ts with
  | [] => no last []
  | t :: rest => if t.kind = kind then yes last rest else no last (t :: rest)

end Routine

/-- What a routine answers, without the proof that it used tokens. -/
def answer {n : Nat} {α : Type} :
    Except ParseError (Parsed n α) → Except ParseError (α × List Token)
  | .ok p => .ok (p.value, p.rest)
  | .error e => .error e

theorem answer_eq_ok {n : Nat} {α : Type} {r : Except ParseError (Parsed n α)} {a : α}
    {rest : List Token} : answer r = .ok (a, rest) ↔ Reads r a rest := by
  cases r with
  | error e => exact iff_of_false nofun not_reads_error
  | ok p =>
    obtain ⟨b, mid, h⟩ := p
    simp [answer, reads_ok]

section Sequences

variable {n k : Nat} {α β : Type} {last : Nat} {ts : List Token}

/-- A routine behind another one. -/
theorem answer_bind {m : Except ParseError (Parsed n α)} {p : Routine α}
    {f : Parsed n α → Except ParseError (Parsed k β)} {q : α → Routine β}
    (hp : p last ts = answer m) (hq : ∀ r, answer (f r) = q r.value last r.rest) :
    answer (m >>= f) = (p >>= q) last ts := by
  cases m with
  | error e => exact (Routine.bind_of_error hp).symm
  | ok r => exact (hq r).trans (Routine.bind_of_ok hp).symm

/-- Passing on an answer with another proof. -/
theorem answer_bind_same {m : Except ParseError (Parsed n α)}
    {f : Parsed n α → Except ParseError (Parsed k α)}
    (hf : ∀ r, answer (f r) = .ok (r.value, r.rest)) : answer (m >>= f) = answer m := by
  cases m with
  | error e => rfl
  | ok r => exact hf r

/-- A routine behind a single token, of which only the literal matters. -/
theorem answer_take {kind : Kind} {expected : String}
    {f : Parsed ts.length Token → Except ParseError (Parsed k β)} {q : String → Routine β}
    (hq : ∀ r, answer (f r) = q r.value.literal last r.rest) :
    answer (take last kind expected ts >>= f) = (Routine.token kind expected >>= q) last ts := by
  cases ts with
  | nil => exact (Routine.bind_of_error rfl).symm
  | cons t ts =>
    by_cases ht : t.kind = kind
    · rw [take, if_pos ht, Routine.bind_of_ok (Routine.token_of_kind ht)]
      exact hq _
    · rw [take, if_neg ht, Routine.bind_of_error (Routine.token_of_kind_ne ht)]
      rfl

/-- The same where the token is looked at in place. -/
theorem answer_ite_kind {kind : Kind} {expected : String} {t : Token}
    {r : Except ParseError (Parsed k β)} {q : String → Routine β}
    (hr : answer r = q t.literal last ts) :
    answer (if t.kind = kind then r else .error (unexpected last expected (t :: ts))) =
      (Routine.token kind expected >>= q) last (t :: ts) := by
  split
  · next ht => rw [hr, Routine.bind_of_ok (Routine.token_of_kind ht)]
  · next ht =>
    rw [Routine.bind_of_error (Routine.token_of_kind_ne ht)]
    rfl

end Sequences

namespace Routine

/-! ## The routines -/

def moreParams : Routine (List String) := fun last ts => answer (Parser.moreParams last ts)

def params : Routine (List String) := fun last ts => answer (Parser.params last ts)

def expr (level : Level) : Routine Expr := fun last ts => answer (Parser.expr last level ts)

def operand : Routine Expr := fun last ts => answer (Parser.operand last ts)

def climb (level : Level) (left : Expr) : Routine Expr := fun last ts =>
  answer (Parser.climb last level left ts)

def items (closing : Kind) : Routine (List Expr) := fun last ts =>
  answer (Parser.items last closing ts)

def moreItems (closing : Kind) : Routine (List Expr) := fun last ts =>
  answer (Parser.moreItems last closing ts)

def entries : Routine (List (Expr × Expr)) := fun last ts => answer (Parser.entries last ts)

def moreEntries : Routine (List (Expr × Expr)) := fun last ts =>
  answer (Parser.moreEntries last ts)

def otherwise : Routine (Option Block) := fun last ts => answer (Parser.otherwise last ts)

def block : Routine Block := fun last ts => answer (Parser.block last ts)

def stmt : Routine Stmt := fun last ts => answer (Parser.stmt last ts)

/-- A program leaves no tokens. -/
def program : Routine Program := fun last ts => (Parser.program last ts).map fun p => (p, [])

/-- Takes a token whose kind has only one text. -/
def expect (kind : Kind) : Routine String := token kind (quoted kind)

/-- Takes the semicolon that may stand next. -/
def semicolon : Routine Unit := ifNext .semicolon (pure ()) (pure ())

/-- What an operand goes on with behind the token that opens it; nothing behind a number that is
too large. -/
def opened (literal : String) : Opening → Option (Routine Expr)
  | .name => some (return .ident literal)
  | .number => (Decimal.int64? literal).map fun n => return .int n
  | .text => some (return .str literal)
  | .truth value => some (return .bool value)
  | .operator op => some do
    let e ← expr .unary
    return .unary op e
  | .group => some do
    let e ← expr .lowest
    let _ ← expect .rparen
    return e
  | .array => some do
    let es ← items .rbracket
    return .array es
  | .hash => some do
    let es ← entries
    return .hash es
  | .cond => some do
    let _ ← expect .lparen
    let test ← expr .lowest
    let _ ← expect .rparen
    let _ ← expect .lbrace
    let yes ← block
    let no ← otherwise
    return .cond test yes no
  | .func => some do
    let _ ← expect .lparen
    let ps ← params
    let _ ← expect .lbrace
    let body ← block
    return .func ps body

/-- How the expression `left` goes on behind the token that continues it. -/
def continued (level : Level) (left : Expr) : Continuation → Routine Expr
  | .operator op => do
    let right ← expr (Level.ofKind op.kind)
    climb level (.binary op left right)
  | .arguments => do
    let args ← items .rparen
    climb level (.call left args)
  | .subscript => do
    let position ← expr .lowest
    let _ ← expect .rbracket
    climb level (.index left position)

/-! ## How they are put together -/

variable {last : Nat} {t : Token} {ts : List Token}

/-- A comma calls for a further name, and anything else must close the list. -/
theorem moreParams_eq : moreParams =
    ifNext .comma
      (do
        let p ← token .identifier "a parameter name"
        let ps ← moreParams
        return p :: ps)
      (do
        let _ ← expect .rparen
        return []) := by
  funext last ts
  cases ts with
  | nil => rw [moreParams, Parser.moreParams]; rfl
  | cons t ts =>
    rw [moreParams, Parser.moreParams.eq_def, ifNext]
    dsimp only
    split
    · cases ts with
      | nil => rfl
      | cons p ts => exact answer_ite_kind (answer_bind rfl fun _ => rfl)
    · exact answer_take fun _ => rfl

/-- The list is empty only if it is closed at once. -/
theorem params_eq : params =
    ifNext .rparen (return [])
      (do
        let p ← token .identifier "a parameter name"
        let ps ← moreParams
        return p :: ps) := by
  funext last ts
  cases ts with
  | nil => rfl
  | cons t ts =>
    rw [params, Parser.params, ifNext]
    split
    · rfl
    · exact answer_ite_kind (answer_bind rfl fun _ => rfl)

/-- An expression is an operand, and whatever the loop makes of it. -/
theorem expr_eq (level : Level) : expr level = (do
    let left ← operand
    climb level left) := by
  funext last ts
  rw [expr, Parser.expr]
  exact answer_bind rfl fun _ => answer_bind_same fun _ => rfl

theorem operand_nil :
    operand last [] = .error (.expressionExpected (Token.eof last).display last) := by
  rw [operand, Parser.operand]
  rfl

/-- An operand, by its first token. -/
theorem operand_cons : operand last (t :: ts) =
    match opening? t.kind with
    | none => .error (.expressionExpected t.display t.line)
    | some o =>
      match opened t.literal o with
      | none => .error (.integerTooLarge t.literal t.line)
      | some q => q last ts := by
  rw [operand, Parser.operand]
  generalize opening? t.kind = o
  rcases o with _ | o
  · rfl
  cases o with
  | name | text | truth => rfl
  | number =>
    dsimp only [opened]
    rw [integer]
    cases Decimal.int64? t.literal <;> rfl
  | operator op => exact answer_bind rfl fun _ => rfl
  | group => exact answer_bind rfl fun _ => answer_take fun _ => rfl
  | array => exact answer_bind rfl fun _ => rfl
  | hash => exact answer_bind rfl fun _ => rfl
  | cond =>
    exact answer_take fun _ => answer_bind rfl fun _ => answer_take fun _ => answer_take fun _ =>
      answer_bind rfl fun _ => answer_bind rfl fun _ => rfl
  | func =>
    exact answer_take fun _ => answer_bind rfl fun _ => answer_take fun _ =>
      answer_bind rfl fun _ => rfl

theorem expr_nil {level : Level} :
    expr level last [] = .error (.expressionExpected (Token.eof last).display last) := by
  rw [expr_eq]
  exact bind_of_error operand_nil

/-- The loop ends with the tokens. -/
theorem climb_nil {level : Level} {left : Expr} : climb level left last [] = .ok (left, []) := by
  rw [climb, Parser.climb]
  rfl

/-- The loop goes on with a token that continues an expression and binds tightly enough. -/
theorem climb_cons {level : Level} {left : Expr} : climb level left last (t :: ts) =
    if level < Level.ofKind t.kind then
      match continuation? t.kind with
      | none => .error (.cannotContinue t.display t.line)
      | some c => continued level left c last ts
    else .ok (left, t :: ts) := by
  rw [climb, Parser.climb]
  split
  · rcases hc : continuation? t.kind with _ | c
    · rfl
    cases c with
    | operator op =>
      rw [continuation?_eq_some_iff] at hc
      dsimp only [continued]
      rw [hc]
      exact answer_bind rfl fun _ => answer_bind_same fun _ => rfl
    | arguments => exact answer_bind rfl fun _ => answer_bind_same fun _ => rfl
    | subscript =>
      exact answer_bind rfl fun _ => answer_take fun _ => answer_bind_same fun _ => rfl
  · rfl

/-- An empty list is closed at once; there is no comma in it. -/
theorem items_eq (closing : Kind) : items closing =
    ifNext closing (return [])
      (do
        let e ← expr .lowest
        let es ← moreItems closing
        return e :: es) := by
  funext last ts
  cases ts with
  | nil =>
    rw [items, Parser.items]
    exact (bind_of_error expr_nil).symm
  | cons t ts =>
    rw [items, Parser.items, ifNext]
    split
    · rfl
    · exact answer_bind rfl fun _ => answer_bind rfl fun _ => rfl

/-- After a comma there must be a further item. -/
theorem moreItems_eq (closing : Kind) : moreItems closing =
    ifNext .comma
      (do
        let e ← expr .lowest
        let es ← moreItems closing
        return e :: es)
      (do
        let _ ← token closing (quoted .comma ++ " or " ++ quoted closing)
        return []) := by
  funext last ts
  cases ts with
  | nil => rw [moreItems, Parser.moreItems]; rfl
  | cons t ts =>
    rw [moreItems, Parser.moreItems, ifNext]
    split
    · exact answer_bind rfl fun _ => answer_bind rfl fun _ => rfl
    · exact answer_ite_kind rfl

/-- A key, a colon and a value, unless the hash is closed at once. -/
theorem entries_eq : entries =
    ifNext .rbrace (return [])
      (do
        let key ← expr .lowest
        let _ ← expect .colon
        let value ← expr .lowest
        let es ← moreEntries
        return (key, value) :: es) := by
  funext last ts
  cases ts with
  | nil =>
    rw [entries, Parser.entries]
    exact (bind_of_error expr_nil).symm
  | cons t ts =>
    rw [entries, Parser.entries, ifNext]
    split
    · rfl
    · exact answer_bind rfl fun _ => answer_take fun _ => answer_bind rfl fun _ =>
        answer_bind rfl fun _ => rfl

/-- After a comma the list starts again. -/
theorem moreEntries_eq : moreEntries =
    ifNext .rbrace (return [])
      (do
        let _ ← token .comma (quoted .comma ++ " or " ++ quoted .rbrace)
        entries) := by
  funext last ts
  cases ts with
  | nil => rw [moreEntries, Parser.moreEntries]; rfl
  | cons t ts =>
    rw [moreEntries, Parser.moreEntries, ifNext]
    split
    · rfl
    · exact answer_ite_kind (answer_bind_same fun _ => rfl)

/-- Only the keyword calls for a second block. -/
theorem otherwise_eq : otherwise =
    ifNext .kwElse
      (do
        let _ ← expect .lbrace
        let no ← block
        return some no)
      (return none) := by
  funext last ts
  cases ts with
  | nil => rw [otherwise, Parser.otherwise]; rfl
  | cons t ts =>
    rw [otherwise, Parser.otherwise, ifNext]
    split
    · exact answer_take fun _ => answer_bind rfl fun _ => rfl
    · rfl

/-- A block must be closed before the source ends. -/
theorem block_nil : block last [] = .error (unexpected last (quoted .rbrace) []) := by
  rw [block, Parser.block]
  rfl

/-- Statements up to the brace that closes the block. -/
theorem block_cons : block last (t :: ts) =
    ifNext .rbrace (return [])
      (do
        let s ← stmt
        let ss ← block
        return s :: ss) last (t :: ts) := by
  rw [block, Parser.block, ifNext]
  split
  · rfl
  · exact answer_bind rfl fun _ => answer_bind rfl fun _ => rfl

theorem semicolon_apply : semicolon last ts = .ok ((), skipSemicolon ts) := by
  cases ts with
  | nil => rfl
  | cons t ts =>
    rw [semicolon, ifNext, skipSemicolon]
    split <;> rfl

theorem semicolon_then {α : Type} (a : α) :
    (do let _ ← semicolon; return a : Routine α) last ts = .ok (a, skipSemicolon ts) :=
  bind_of_ok semicolon_apply

/-- The keyword decides what the statement is; a semicolon behind it is skipped. -/
theorem stmt_eq : stmt =
    ifNext .kwVar
      (do
        let name ← token .identifier "an identifier"
        let _ ← expect .assign
        let value ← expr .lowest
        let _ ← semicolon
        return .bind name value)
      (ifNext .kwReturn
        (do
          let value ← expr .lowest
          let _ ← semicolon
          return .ret value)
        (do
          let value ← expr .lowest
          let _ ← semicolon
          return .expr value)) := by
  funext last ts
  cases ts with
  | nil =>
    rw [stmt, Parser.stmt]
    exact (bind_of_error expr_nil).symm
  | cons t ts =>
    rw [stmt, Parser.stmt, ifNext]
    split
    · exact answer_take fun _ => answer_take fun _ => answer_bind rfl fun _ =>
        (semicolon_then _).symm
    rw [ifNext]
    split
    · exact answer_bind rfl fun _ => (semicolon_then _).symm
    · exact answer_bind rfl fun _ => (semicolon_then _).symm

theorem program_nil : program last [] = .ok ([], []) := by
  rw [program, Parser.program_nil]
  rfl

/-- A program is read statement by statement, up to the last token. -/
theorem program_cons : program last (t :: ts) =
    (do
      let s ← stmt
      let ss ← program
      return s :: ss : Routine Program) last (t :: ts) := by
  rw [program, Parser.program]
  cases hs : Parser.stmt last (t :: ts) with
  | error e =>
    have herror : stmt last (t :: ts) = .error e := by rw [stmt, hs]; rfl
    exact (bind_of_error herror).symm
  | ok r =>
    have hok : stmt last (t :: ts) = .ok (r.value, r.rest) := by rw [stmt, hs]; rfl
    rw [bind_of_ok hok]
    cases hp : Parser.program last r.rest with
    | error e =>
      have herror : program last r.rest = .error e := by rw [program, hp]; rfl
      rw [bind_of_error herror]
      simp [bind, Except.bind, hp, Except.map]
    | ok p =>
      have hok : program last r.rest = .ok (p, []) := by rw [program, hp]; rfl
      rw [bind_of_ok hok]
      simp [bind, Except.bind, hp, Except.map, pure, Except.pure]

end Routine

end TreeWalk.Parser

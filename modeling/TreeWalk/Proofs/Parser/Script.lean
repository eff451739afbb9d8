import TreeWalk.Proofs.Parser.Routine

/-!
# The steps of the parser

The routines of the parser are functions, and say what comes out of them but not what is done on
the way.  Here each routine is written down as a `Script`: a tree of single steps, each of which
looks at the next token, moves past it or enters a routine.  At the end of the source there is no
next token, however often a script looks for one, and moving on leads nowhere; nothing in a script
keeps it from going on forever there.

**Each script gives what its routine gives** (`Rule.routine_body`), so that what is found out about
the steps is found out about the parser.
-/

set_option autoImplicit false

namespace TreeWalk.Parser

open Token (Kind)

namespace Routine

variable {α β γ : Type}

theorem bind_assoc (p : Routine α) (f : α → Routine β) (g : β → Routine γ) :
    (p >>= f) >>= g = p >>= fun a => f a >>= g := by
  funext last ts
  cases h : p last ts with
  | error e => rw [bind_of_error (bind_of_error h), bind_of_error h]
  | ok r =>
    rw [bind_of_ok h]
    cases h' : f r.1 last r.2 with
    | error e => rw [bind_of_error ((bind_of_ok h).trans h'), bind_of_error h']
    | ok r' => rw [bind_of_ok ((bind_of_ok h).trans h'), bind_of_ok h']

theorem bind_pure (p : Routine α) : p >>= pure = p := by
  funext last ts
  cases h : p last ts with
  | error e => exact bind_of_error h
  | ok r => exact bind_of_ok h

end Routine

/-! ## Scripts -/

/-- The routines of the parser, with the parameters that they are entered with; the type is that of
what they read. -/
inductive Rule : Type → Type 1
  | expr (level : Level) : Rule Expr
  | operand : Rule Expr
  | climb (level : Level) (left : Expr) : Rule Expr
  | items (closing : Kind) : Rule (List Expr)
  | moreItems (closing : Kind) : Rule (List Expr)
  | entries : Rule (List (Expr × Expr))
  | moreEntries : Rule (List (Expr × Expr))
  | otherwise : Rule (Option Block)
  | block : Rule Block
  | stmt : Rule Stmt
  | params : Rule (List String)
  | moreParams : Rule (List String)
  | program : Rule Program

/-- The routine itself. -/
def Rule.routine {α : Type} : Rule α → Routine α
  | expr level => Routine.expr level
  | operand => Routine.operand
  | climb level left => Routine.climb level left
  | items closing => Routine.items closing
  | moreItems closing => Routine.moreItems closing
  | entries => Routine.entries
  | moreEntries => Routine.moreEntries
  | otherwise => Routine.otherwise
  | block => Routine.block
  | stmt => Routine.stmt
  | params => Routine.params
  | moreParams => Routine.moreParams
  | program => Routine.program

/-- The steps of a routine.  An error may name the line on which the source ends. -/
inductive Script (α : Type) : Type 1
  | done (a : α)
  | fail (e : Nat → ParseError)
  /-- Goes on with the next token; there is none at the end of the source. -/
  | look (next : Option Token → Script α)
  /-- Moves past the next token; at the end of the source, stays there. -/
  | advance (next : Script α)
  /-- Enters a routine, and goes on with what it read. -/
  | enter {β : Type} (r : Rule β) (next : β → Script α)

namespace Script

variable {α β : Type}

/-- One script after another. -/
def bind : Script α → (α → Script β) → Script β
  | done a, f => f a
  | fail e, _ => fail e
  | look next, f => look fun t => (next t).bind f
  | advance next, f => advance (next.bind f)
  | enter r next, f => enter r fun a => (next a).bind f

instance : Monad Script where
  pure := done
  bind := bind

/-- What the script gives if the routines that it enters give what they do. -/
def routine : Script α → Routine α
  | done a => fun _ ts => .ok (a, ts)
  | fail e => fun last _ => .error (e last)
  | look next => fun last ts => (next ts.head?).routine last ts
  | advance next => fun last ts => next.routine last ts.tail
  | enter r next => do
    let a ← r.routine
    (next a).routine

/-- Takes a token of the given kind, and reads its literal. -/
def token (kind : Kind) (expected : String) : Script String :=
  look fun
    | none => fail fun last => unexpected last expected []
    | some t =>
      if t.kind = kind then advance (done t.literal)
      else fail fun last => unexpected last expected [t]

/-- Takes a token whose kind has only one text. -/
def expect (kind : Kind) : Script String := token kind (quoted kind)

/-- Takes a token of the given kind if there is one, and goes on accordingly. -/
def ifNext (kind : Kind) (yes no : Script α) : Script α :=
  look fun
    | none => no
    | some t => if t.kind = kind then advance yes else no

/-- Takes the semicolon that may stand next. -/
def semicolon : Script Unit := ifNext .semicolon (pure ()) (pure ())

/-- Enters a routine. -/
def ask (r : Rule α) : Script α := enter r done

/-! ## What the parts of a script give -/

theorem routine_pure (a : α) : (pure a : Script α).routine = pure a := rfl

theorem routine_bind (p : Script α) (f : α → Script β) :
    (p >>= f).routine = p.routine >>= fun a => (f a).routine := by
  induction p with
  | done a => rfl
  | fail e => rfl
  | look next ih =>
    funext last ts
    exact congrFun (congrFun (ih ts.head?) last) ts
  | advance next ih =>
    funext last ts
    exact congrFun (congrFun ih last) ts.tail
  | enter r next ih =>
    show (r.routine >>= fun a => (next a >>= f).routine) = (r.routine >>= _) >>= _
    rw [Routine.bind_assoc]
    exact congrArg (r.routine >>= ·) (funext ih)

theorem routine_token (kind : Kind) (expected : String) :
    (token kind expected).routine = Routine.token kind expected := by
  funext last ts
  cases ts with
  | nil => rfl
  | cons t ts =>
    show (if t.kind = kind then _ else _ : Script String).routine last (t :: ts) = _
    by_cases h : t.kind = kind
    · rw [if_pos h, Routine.token_of_kind h]
      rfl
    · rw [if_neg h, Routine.token_of_kind_ne h]
      rfl

theorem routine_ifNext (kind : Kind) (yes no : Script α) :
    (ifNext kind yes no).routine = Routine.ifNext kind yes.routine no.routine := by
  funext last ts
  cases ts with
  | nil => rfl
  | cons t ts =>
    show (if t.kind = kind then advance yes else no : Script α).routine last (t :: ts) =
      if t.kind = kind then _ else _
    split <;> rfl

theorem routine_ask (r : Rule α) : (ask r).routine = r.routine := Routine.bind_pure r.routine

/-! ## The scripts of the routines -/

/-- What an operand goes on with behind the token that opens it; nothing behind a number that is
too large. -/
def opened (literal : String) : Opening → Option (Script Expr)
  | .name => some (return .ident literal)
  | .number => (Decimal.int64? literal).map fun n => return .int n
  | .text => some (return .str literal)
  | .truth value => some (return .bool value)
  | .operator op => some do
    let e ← ask (.expr .unary)
    return .unary op e
  | .group => some do
    let e ← ask (.expr .lowest)
    let _ ← expect .rparen
    return e
  | .array => some do
    let es ← ask (.items .rbracket)
    return .array es
  | .hash => some do
    let es ← ask .entries
    return .hash es
  | .cond => some do
    let _ ← expect .lparen
    let test ← ask (.expr .lowest)
    let _ ← expect .rparen
    let _ ← expect .lbrace
    let yes ← ask .block
    let no ← ask .otherwise
    return .cond test yes no
  | .func => some do
    let _ ← expect .lparen
    let ps ← ask .params
    let _ ← expect .lbrace
    let body ← ask .block
    return .func ps body

/-- How the expression `left` goes on behind the token that continues it. -/
def continued (level : Level) (left : Expr) : Continuation → Script Expr
  | .operator op => do
    let right ← ask (.expr (Level.ofKind op.kind))
    ask (.climb level (.binary op left right))
  | .arguments => do
    let args ← ask (.items .rparen)
    ask (.climb level (.call left args))
  | .subscript => do
    let position ← ask (.expr .lowest)
    let _ ← expect .rbracket
    ask (.climb level (.index left position))

/-- The steps of a routine. -/
def body {α : Type} : Rule α → Script α
  | .expr level => do
    let left ← ask .operand
    ask (.climb level left)
  | .operand => .look fun
    | none => .fail fun last => .expressionExpected (Token.eof last).display last
    | some t =>
      match opening? t.kind with
      | none => .fail fun _ => .expressionExpected t.display t.line
      | some o =>
        match opened t.literal o with
        | none => .fail fun _ => .integerTooLarge t.literal t.line
        | some next => .advance next
  | .climb level left => .look fun
    | none => .done left
    | some t =>
      if level < Level.ofKind t.kind then
        match continuation? t.kind with
        | none => .fail fun _ => .cannotContinue t.display t.line
        | some c => .advance (continued level left c)
      else .done left
  | .items closing =>
    ifNext closing (return [])
      (do
        let e ← ask (.expr .lowest)
        let es ← ask (.moreItems closing)
        return e :: es)
  | .moreItems closing =>
    ifNext .comma
      (do
        let e ← ask (.expr .lowest)
        let es ← ask (.moreItems closing)
        return e :: es)
      (do
        let _ ← token closing (quoted .comma ++ " or " ++ quoted closing)
        return [])
  | .entries =>
    ifNext .rbrace (return [])
      (do
        let key ← ask (.expr .lowest)
        let _ ← expect .colon
        let value ← ask (.expr .lowest)
        let es ← ask .moreEntries
        return (key, value) :: es)
  | .moreEntries =>
    ifNext .rbrace (return [])
      (do
        let _ ← token .comma (quoted .comma ++ " or " ++ quoted .rbrace)
        ask .entries)
  | .otherwise =>
    ifNext .kwElse
      (do
        let _ ← expect .lbrace
        let no ← ask .block
        return some no)
      (return none)
  | .block => .look fun
    | none => .fail fun last => unexpected last (quoted .rbrace) []
    | some _ =>
      ifNext .rbrace (return [])
        (do
          let s ← ask .stmt
          let ss ← ask .block
          return s :: ss)
  | .stmt =>
    ifNext .kwVar
      (do
        let name ← token .identifier "an identifier"
        let _ ← expect .assign
        let value ← ask (.expr .lowest)
        let _ ← semicolon
        return .bind name value)
      (ifNext .kwReturn
        (do
          let value ← ask (.expr .lowest)
          let _ ← semicolon
          return .ret value)
        (do
          let value ← ask (.expr .lowest)
          let _ ← semicolon
          return .expr value))
  | .params =>
    ifNext .rparen (return [])
      (do
        let p ← token .identifier "a parameter name"
        let ps ← ask .moreParams
        return p :: ps)
  | .moreParams =>
    ifNext .comma
      (do
        let p ← token .identifier "a parameter name"
        let ps ← ask .moreParams
        return p :: ps)
      (do
        let _ ← expect .rparen
        return [])
  | .program => .look fun
    | none => .done []
    | some _ => do
      let s ← ask .stmt
      let ss ← ask .program
      return s :: ss

/-! ## The scripts give what the routines give -/

theorem routine_semicolon : semicolon.routine = Routine.semicolon := routine_ifNext _ _ _

theorem routine_expect (kind : Kind) : (expect kind).routine = Routine.expect kind :=
  routine_token kind _

theorem routine_opened (literal : String) (o : Opening) :
    (opened literal o).map routine = Routine.opened literal o := by
  cases o with
  | name | text | truth => rfl
  | number =>
    rw [opened, Routine.opened, Option.map_map]
    rfl
  | operator | group | array | hash | cond | func =>
    simp only [opened, Routine.opened, Option.map_some, routine_bind, routine_ask, routine_expect,
      routine_pure, Rule.routine]

theorem routine_continued (level : Level) (left : Expr) (c : Continuation) :
    (continued level left c).routine = Routine.continued level left c := by
  cases c <;>
    simp only [continued, Routine.continued, routine_bind, routine_ask, routine_expect,
      Rule.routine]

theorem routine_operand : (body .operand).routine = Routine.operand := by
  funext last ts
  cases ts with
  | nil => exact Routine.operand_nil.symm
  | cons t ts =>
    rw [Routine.operand_cons]
    simp only [body, routine, List.head?_cons]
    cases opening? t.kind with
    | none => rfl
    | some o =>
      have hopened := routine_opened t.literal o
      simp only [← hopened]
      cases opened t.literal o <;> rfl

theorem routine_climb (level : Level) (left : Expr) :
    (body (.climb level left)).routine = Routine.climb level left := by
  funext last ts
  cases ts with
  | nil => exact Routine.climb_nil.symm
  | cons t ts =>
    rw [Routine.climb_cons]
    simp only [body, routine, List.head?_cons]
    split
    · cases continuation? t.kind with
      | none => rfl
      | some c =>
        show (continued level left c).routine last ts = _
        rw [routine_continued]
    · rfl

theorem routine_block : (body .block).routine = Routine.block := by
  funext last ts
  cases ts with
  | nil => exact Routine.block_nil.symm
  | cons t ts =>
    rw [Routine.block_cons]
    simp only [body, routine, List.head?_cons, routine_ifNext, routine_bind, routine_ask,
      routine_pure, Rule.routine]

theorem routine_program : (body .program).routine = Routine.program := by
  funext last ts
  cases ts with
  | nil => exact Routine.program_nil.symm
  | cons t ts =>
    rw [Routine.program_cons]
    simp only [body, routine, List.head?_cons, routine_bind, routine_ask, routine_pure,
      Rule.routine]

/-- **The script of a routine gives what the routine gives.** -/
theorem routine_body {α : Type} (r : Rule α) : (body r).routine = r.routine := by
  cases r with
  | operand => exact routine_operand
  | climb level left => exact routine_climb level left
  | block => exact routine_block
  | program => exact routine_program
  | expr level =>
    rw [Rule.routine, Routine.expr_eq]
    simp only [body, routine_bind, routine_ask, Rule.routine]
  | items closing =>
    rw [Rule.routine, Routine.items_eq]
    simp only [body, routine_ifNext, routine_bind, routine_ask, routine_pure, Rule.routine]
  | moreItems closing =>
    rw [Rule.routine, Routine.moreItems_eq]
    simp only [body, routine_ifNext, routine_bind, routine_ask, routine_token, routine_pure,
      Rule.routine]
  | entries =>
    rw [Rule.routine, Routine.entries_eq]
    simp only [body, routine_ifNext, routine_bind, routine_ask, routine_expect, routine_pure,
      Rule.routine]
  | moreEntries =>
    rw [Rule.routine, Routine.moreEntries_eq]
    simp only [body, routine_ifNext, routine_bind, routine_ask, routine_token, routine_pure,
      Rule.routine]
  | otherwise =>
    rw [Rule.routine, Routine.otherwise_eq]
    simp only [body, routine_ifNext, routine_bind, routine_ask, routine_expect, routine_pure,
      Rule.routine]
  | stmt =>
    rw [Rule.routine, Routine.stmt_eq]
    simp only [body, routine_ifNext, routine_bind, routine_ask, routine_token, routine_expect,
      routine_semicolon, routine_pure, Rule.routine]
  | params =>
    rw [Rule.routine, Routine.params_eq]
    simp only [body, routine_ifNext, routine_bind, routine_ask, routine_token, routine_pure,
      Rule.routine]
  | moreParams =>
    rw [Rule.routine, Routine.moreParams_eq]
    simp only [body, routine_ifNext, routine_bind, routine_ask, routine_token, routine_expect,
      routine_pure, Rule.routine]

end Script

end TreeWalk.Parser

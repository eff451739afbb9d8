import TreeWalk.Program.Basic
import TreeWalk.Program.Level
import TreeWalk.Program.ParseError
import TreeWalk.Text.Decimal
import TreeWalk.Token.Stream

/-!
# Parsing

A source text is read as a program by precedence climbing: `expr level` reads an operand and then
goes on as long as the next token binds more tightly than `level`.  Operators associate to the
left, since the right operand of an operator is read at the operator's own level.

Every routine takes the tokens that are left and returns, with what it read, the tokens that are
left after it, which are fewer (`Parsed`).  That is why the routines, which call each other, come
to an end on every input.

The routines stop at the first token that cannot stand where it does.  `last` is the line on which
the source ends, for errors that are found there.
-/

set_option autoImplicit false

namespace TreeWalk

open Token (Kind)

/-- What a routine read, and the fewer than `n` tokens that are left after it. -/
structure Parsed (n : Nat) (α : Type) where
  value : α
  rest : List Token
  length_lt : rest.length < n

namespace Parser

/-- The next token; at the end of the source, the token that stands for it. -/
def front (last : Nat) (ts : List Token) : Token := ts.headD (Token.eof last)

/-- The error that something else has to stand next. -/
def unexpected (last : Nat) (expected : String) (ts : List Token) : ParseError :=
  .unexpectedToken expected (front last ts).display (front last ts).line

/-- How an error names a kind of token that it expects. -/
def quoted (kind : Kind) : String := "'" ++ kind.text ++ "'"

/-- Takes a token of the given kind. -/
def take (last : Nat) (kind : Kind) (expected : String) :
    (ts : List Token) → Except ParseError (Parsed ts.length Token)
  | [] => .error (unexpected last expected [])
  | t :: rest =>
    if t.kind = kind then .ok ⟨t, rest, by simp⟩ else .error (unexpected last expected (t :: rest))

/-- Takes a token whose kind has only one text. -/
def expect (last : Nat) (kind : Kind) (ts : List Token) :
    Except ParseError (Parsed ts.length Token) :=
  take last kind (quoted kind) ts

/-- The integer that a number token stands for. -/
def integer (t : Token) : Except ParseError Int64 :=
  match Decimal.int64? t.literal with
  | some n => .ok n
  | none => .error (.integerTooLarge t.literal t.line)

/-- Takes the semicolon that may stand after a statement. -/
def skipSemicolon : List Token → List Token
  | [] => []
  | t :: rest => if t.kind = .semicolon then rest else t :: rest

theorem length_skipSemicolon (ts : List Token) : (skipSemicolon ts).length ≤ ts.length := by
  unfold skipSemicolon
  split
  · simp
  · split <;> simp

/-- Takes the parameters after the first one, and the closing parenthesis. -/
def moreParams (last : Nat) :
    (ts : List Token) → Except ParseError (Parsed ts.length (List String))
  | [] => .error (unexpected last (quoted .rparen) [])
  | t :: rest =>
    if t.kind = .comma then
      match rest with
      | [] => .error (unexpected last "a parameter name" [])
      | p :: rest =>
        if p.kind = .identifier then do
          let ⟨ps, rest', h⟩ ← moreParams last rest
          return ⟨p.literal :: ps, rest', by simp; omega⟩
        else .error (unexpected last "a parameter name" (p :: rest))
    else do
      let ⟨_, rest', h⟩ ← expect last .rparen (t :: rest)
      return ⟨[], rest', h⟩

/-- Takes a parameter list and its closing parenthesis. -/
def params (last : Nat) (ts : List Token) : Except ParseError (Parsed ts.length (List String)) :=
  match ts with
  | [] => .error (unexpected last "a parameter name" [])
  | t :: rest =>
    if t.kind = .rparen then .ok ⟨[], rest, by simp⟩
    else if t.kind = .identifier then do
      let ⟨ps, rest', h⟩ ← moreParams last rest
      return ⟨t.literal :: ps, rest', by simp; omega⟩
    else .error (unexpected last "a parameter name" (t :: rest))

/-- The ways in which a token continues the expression on its left. -/
inductive Continuation
  | operator (op : BinaryOp)
  | arguments
  | subscript
  deriving DecidableEq, Repr

/-- How a token of this kind continues an expression, if it does. -/
def continuation? : Kind → Option Continuation
  | .plus => some (.operator .add)
  | .minus => some (.operator .sub)
  | .star => some (.operator .mul)
  | .slash => some (.operator .div)
  | .equalEqual => some (.operator .eq)
  | .bangEqual => some (.operator .ne)
  | .less => some (.operator .lt)
  | .lessEqual => some (.operator .le)
  | .greater => some (.operator .gt)
  | .greaterEqual => some (.operator .ge)
  | .lparen => some .arguments
  | .lbracket => some .subscript
  | _ => none

/-- The ways in which a token starts an expression. -/
inductive Opening
  | name
  | number
  | text
  | truth (value : Bool)
  | operator (op : UnaryOp)
  | group
  | array
  | hash
  | cond
  | func
  deriving DecidableEq, Repr

/-- How a token of this kind starts an expression, if it does. -/
def opening? : Kind → Option Opening
  | .identifier => some .name
  | .number => some .number
  | .string => some .text
  | .kwTrue => some (.truth true)
  | .kwFalse => some (.truth false)
  | .minus => some (.operator .neg)
  | .bang => some (.operator .not)
  | .lparen => some .group
  | .lbracket => some .array
  | .lbrace => some .hash
  | .kwIf => some .cond
  | .kwFunc => some .func
  | _ => none

mutual

/-- Takes an expression whose operators all bind more tightly than `level`. -/
def expr (last : Nat) (level : Level) (ts : List Token) :
    Except ParseError (Parsed ts.length Expr) := do
  let ⟨left, rest, h⟩ ← operand last ts
  let ⟨e, rest', h'⟩ ← climb last level left rest
  return ⟨e, rest', by omega⟩
termination_by 5 * ts.length + 2

/-- Takes an expression that no operator continues: what its first token opens. -/
def operand (last : Nat) (ts : List Token) : Except ParseError (Parsed ts.length Expr) :=
  match ts with
  | [] => .error (.expressionExpected (Token.eof last).display last)
  | t :: rest =>
    match opening? t.kind with
    | some .name => .ok ⟨.ident t.literal, rest, by simp⟩
    | some .number => do
      let n ← integer t
      return ⟨.int n, rest, by simp⟩
    | some .text => .ok ⟨.str t.literal, rest, by simp⟩
    | some (.truth value) => .ok ⟨.bool value, rest, by simp⟩
    | some (.operator op) => do
      let ⟨e, rest', h⟩ ← expr last .unary rest
      return ⟨.unary op e, rest', by simp; omega⟩
    | some .group => do
      let ⟨e, rest₁, h₁⟩ ← expr last .lowest rest
      let ⟨_, rest₂, h₂⟩ ← expect last .rparen rest₁
      return ⟨e, rest₂, by simp; omega⟩
    | some .array => do
      let ⟨es, rest', h⟩ ← items last .rbracket rest
      return ⟨.array es, rest', by simp; omega⟩
    | some .hash => do
      let ⟨es, rest', h⟩ ← entries last rest
      return ⟨.hash es, rest', by simp; omega⟩
    | some .cond => do
      let ⟨_, rest₁, h₁⟩ ← expect last .lparen rest
      let ⟨test, rest₂, h₂⟩ ← expr last .lowest rest₁
      let ⟨_, rest₃, h₃⟩ ← expect last .rparen rest₂
      let ⟨_, rest₄, h₄⟩ ← expect last .lbrace rest₃
      let ⟨yes, rest₅, h₅⟩ ← block last rest₄
      let ⟨no, rest₆, h₆⟩ ← otherwise last rest₅
      return ⟨.cond test yes no, rest₆, by simp; omega⟩
    | some .func => do
      let ⟨_, rest₁, h₁⟩ ← expect last .lparen rest
      let ⟨ps, rest₂, h₂⟩ ← params last rest₁
      let ⟨_, rest₃, h₃⟩ ← expect last .lbrace rest₂
      let ⟨body, rest₄, h₄⟩ ← block last rest₃
      return ⟨.func ps body, rest₄, by simp; omega⟩
    | none => .error (.expressionExpected t.display t.line)
termination_by 5 * ts.length + 1

/-- Goes on with the expression `left` as long as the next token binds more tightly than
`level`. -/
def climb (last : Nat) (level : Level) (left : Expr) (ts : List Token) :
    Except ParseError (Parsed (ts.length + 1) Expr) :=
  match ts with
  | [] => .ok ⟨left, [], by simp⟩
  | t :: rest =>
    if level < Level.ofKind t.kind then
      match continuation? t.kind with
      | some (.operator op) => do
        let ⟨right, rest₁, h₁⟩ ← expr last (Level.ofKind t.kind) rest
        let ⟨e, rest₂, h₂⟩ ← climb last level (.binary op left right) rest₁
        return ⟨e, rest₂, by simp; omega⟩
      | some .arguments => do
        let ⟨args, rest₁, h₁⟩ ← items last .rparen rest
        let ⟨e, rest₂, h₂⟩ ← climb last level (.call left args) rest₁
        return ⟨e, rest₂, by simp; omega⟩
      | some .subscript => do
        let ⟨position, rest₁, h₁⟩ ← expr last .lowest rest
        let ⟨_, rest₂, h₂⟩ ← expect last .rbracket rest₁
        let ⟨e, rest₃, h₃⟩ ← climb last level (.index left position) rest₂
        return ⟨e, rest₃, by simp; omega⟩
      | none => .error (.cannotContinue t.display t.line)
    else .ok ⟨left, t :: rest, by simp⟩
termination_by 5 * ts.length

/-- Takes expressions with commas between them, and the closing bracket. -/
def items (last : Nat) (closing : Kind) (ts : List Token) :
    Except ParseError (Parsed ts.length (List Expr)) :=
  match ts with
  | [] => .error (.expressionExpected (Token.eof last).display last)
  | t :: rest =>
    if t.kind = closing then .ok ⟨[], rest, by simp⟩
    else do
      let ⟨e, rest₁, h₁⟩ ← expr last .lowest (t :: rest)
      let ⟨es, rest₂, h₂⟩ ← moreItems last closing rest₁
      return ⟨e :: es, rest₂, by omega⟩
termination_by 5 * ts.length + 3
decreasing_by all_goals (simp at * <;> omega)

/-- Takes expressions with a comma before each, and the closing bracket. -/
def moreItems (last : Nat) (closing : Kind) (ts : List Token) :
    Except ParseError (Parsed ts.length (List Expr)) :=
  match ts with
  | [] => .error (unexpected last (quoted .comma ++ " or " ++ quoted closing) [])
  | t :: rest =>
    if t.kind = .comma then do
      let ⟨e, rest₁, h₁⟩ ← expr last .lowest rest
      let ⟨es, rest₂, h₂⟩ ← moreItems last closing rest₁
      return ⟨e :: es, rest₂, by simp; omega⟩
    else if t.kind = closing then .ok ⟨[], rest, by simp⟩
    else .error (unexpected last (quoted .comma ++ " or " ++ quoted closing) (t :: rest))
termination_by 5 * ts.length

/-- Takes the entries of a hash literal and its closing brace.  Since this is also what follows a
comma between entries, a comma may stand after the last one. -/
def entries (last : Nat) (ts : List Token) :
    Except ParseError (Parsed ts.length (List (Expr × Expr))) :=
  match ts with
  | [] => .error (.expressionExpected (Token.eof last).display last)
  | t :: rest =>
    if t.kind = .rbrace then .ok ⟨[], rest, by simp⟩
    else do
      let ⟨key, rest₁, h₁⟩ ← expr last .lowest (t :: rest)
      let ⟨_, rest₂, h₂⟩ ← expect last .colon rest₁
      let ⟨value, rest₃, h₃⟩ ← expr last .lowest rest₂
      let ⟨es, rest₄, h₄⟩ ← moreEntries last rest₃
      return ⟨(key, value) :: es, rest₄, by omega⟩
termination_by 5 * ts.length + 3
decreasing_by all_goals (simp at * <;> omega)

/-- Takes the entries that follow an entry, and the closing brace. -/
def moreEntries (last : Nat) (ts : List Token) :
    Except ParseError (Parsed ts.length (List (Expr × Expr))) :=
  match ts with
  | [] => .error (unexpected last (quoted .comma ++ " or " ++ quoted .rbrace) [])
  | t :: rest =>
    if t.kind = .rbrace then .ok ⟨[], rest, by simp⟩
    else if t.kind = .comma then do
      let ⟨es, rest', h⟩ ← entries last rest
      return ⟨es, rest', by simp; omega⟩
    else .error (unexpected last (quoted .comma ++ " or " ++ quoted .rbrace) (t :: rest))
termination_by 5 * ts.length

/-- Takes the `else` part of a conditional, if one stands next. -/
def otherwise (last : Nat) (ts : List Token) :
    Except ParseError (Parsed (ts.length + 1) (Option Block)) :=
  match ts with
  | [] => .ok ⟨none, [], by simp⟩
  | t :: rest =>
    if t.kind = .kwElse then do
      let ⟨_, rest₁, h₁⟩ ← expect last .lbrace rest
      let ⟨no, rest₂, h₂⟩ ← block last rest₁
      return ⟨some no, rest₂, by simp; omega⟩
    else .ok ⟨none, t :: rest, by simp⟩
termination_by 5 * ts.length

/-- Takes statements and the closing brace. -/
def block (last : Nat) (ts : List Token) : Except ParseError (Parsed ts.length Block) :=
  match ts with
  | [] => .error (unexpected last (quoted .rbrace) [])
  | t :: rest =>
    if t.kind = .rbrace then .ok ⟨[], rest, by simp⟩
    else do
      let ⟨s, rest₁, h₁⟩ ← stmt last (t :: rest)
      let ⟨ss, rest₂, h₂⟩ ← block last rest₁
      return ⟨s :: ss, rest₂, by omega⟩
termination_by 5 * ts.length + 4
decreasing_by all_goals (simp at * <;> omega)

/-- Takes a statement, and the semicolon after it if there is one. -/
def stmt (last : Nat) (ts : List Token) : Except ParseError (Parsed ts.length Stmt) :=
  match ts with
  | [] => .error (.expressionExpected (Token.eof last).display last)
  | t :: rest =>
    if t.kind = .kwVar then do
      let ⟨name, rest₁, h₁⟩ ← take last .identifier "an identifier" rest
      let ⟨_, rest₂, h₂⟩ ← expect last .assign rest₁
      let ⟨value, rest₃, h₃⟩ ← expr last .lowest rest₂
      return ⟨.bind name.literal value, skipSemicolon rest₃,
        by have := length_skipSemicolon rest₃; simp; omega⟩
    else if t.kind = .kwReturn then do
      let ⟨value, rest', h⟩ ← expr last .lowest rest
      return ⟨.ret value, skipSemicolon rest',
        by have := length_skipSemicolon rest'; simp; omega⟩
    else do
      let ⟨value, rest', h⟩ ← expr last .lowest (t :: rest)
      return ⟨.expr value, skipSemicolon rest',
        by have := length_skipSemicolon rest'; omega⟩
termination_by 5 * ts.length + 3

end

/-- Takes statements up to the end of the source. -/
def program (last : Nat) (ts : List Token) : Except ParseError Program :=
  match ts with
  | [] => .ok []
  | t :: rest => do
    let ⟨s, rest', _⟩ ← stmt last (t :: rest)
    let ss ← program last rest'
    return s :: ss
termination_by ts.length
decreasing_by simp at *; omega

end Parser

/-- The program that a source text stands for. -/
def Program.parse (source : String) : Except ParseError Program :=
  let stream := Token.Stream.ofSource source
  Parser.program stream.lastLine stream.tokens

end TreeWalk

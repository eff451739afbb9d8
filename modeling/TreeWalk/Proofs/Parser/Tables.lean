import TreeWalk.Program.Parser
import TreeWalk.Program.Printer

/-!
# The parser's tables

The parser looks up what a token opens, how it continues an expression and how tightly it binds,
each in a table of its own.  Here the tables are read backwards, from a meaning to the one kind of
token that has it, and shown to fit together: a token binds more tightly than `lowest` exactly if
it continues an expression.
-/

set_option autoImplicit false

namespace TreeWalk.Parser

open Token (Kind)

/-- The kind of token that opens an expression in this way. -/
def Opening.kind : Opening → Kind
  | name => .identifier
  | number => .number
  | text => .string
  | truth true => .kwTrue
  | truth false => .kwFalse
  | operator op => op.kind
  | group => .lparen
  | array => .lbracket
  | hash => .lbrace
  | cond => .kwIf
  | func => .kwFunc

theorem opening?_kind (o : Opening) : opening? o.kind = some o := by
  cases o with
  | truth b => cases b <;> rfl
  | operator op => cases op <;> rfl
  | _ => rfl

/-- What a token opens determines its kind. -/
theorem opening?_eq_some_iff {k : Kind} {o : Opening} : opening? k = some o ↔ k = o.kind := by
  constructor
  · intro h
    cases k <;> cases h <;> rfl
  · rintro rfl
    exact opening?_kind o

theorem opening?_of_kind {k : Kind} (o : Opening) (h : k = o.kind) : opening? k = some o :=
  opening?_eq_some_iff.2 h

/-- The kind of token that continues an expression in this way. -/
def Continuation.kind : Continuation → Kind
  | operator op => op.kind
  | arguments => .lparen
  | subscript => .lbracket

theorem continuation?_kind (c : Continuation) : continuation? c.kind = some c := by
  cases c with
  | operator op => cases op <;> rfl
  | _ => rfl

/-- How a token continues an expression determines its kind. -/
theorem continuation?_eq_some_iff {k : Kind} {c : Continuation} :
    continuation? k = some c ↔ k = c.kind := by
  constructor
  · intro h
    cases k <;> cases h <;> rfl
  · rintro rfl
    exact continuation?_kind c

theorem continuation?_of_kind {k : Kind} (c : Continuation) (h : k = c.kind) :
    continuation? k = some c :=
  continuation?_eq_some_iff.2 h

/-- **The tables fit together**: the tokens that bind are those that continue an expression. -/
theorem rank_ofKind_pos_iff {k : Kind} :
    0 < (Level.ofKind k).rank ↔ ∃ c : Continuation, k = c.kind := by
  simp only [← continuation?_eq_some_iff]
  cases k <;> simp [Level.ofKind, Level.rank, continuation?]

end TreeWalk.Parser

import TreeWalk.Program.Printer
import TreeWalk.Text.Decimal

/-!
# The grammar of programs

The conventional grammar of the language, over sequences of tokens.  It is given as a family of
relations between tokens and trees, one relation for each kind of phrase, and knows nothing of how
a text is parsed.

Expressions are stratified: each **stratum** of binary operators is made of chains that lean to
the left, with operands from the next tighter stratum; below these come the unary operators, then
argument lists and subscripts after a primary expression, then the primary expressions themselves.

```
equality       ::= relational (('==' | '!=') relational)*
relational     ::= additive (('<' | '<=' | '>' | '>=') additive)*
additive       ::= multiplicative (('+' | '-') multiplicative)*
multiplicative ::= unary (('*' | '/') unary)*
unary          ::= ('-' | '!') unary | applied
applied        ::= primary ('(' items ')' | '[' equality ']')*
primary        ::= identifier | number | string | 'true' | 'false' | '(' equality ')'
                 | '[' items ']' | '{' entries '}'
                 | 'if' '(' equality ')' block ('else' block)?
                 | 'func' '(' params ')' block
items          ::= (equality (',' equality)*)?
entries        ::= (equality ':' equality (',' equality ':' equality)* ','?)?
params         ::= (identifier (',' identifier)*)?
block          ::= '{' statements '}'
statement      ::= 'var' identifier '=' equality | 'return' equality | equality
statements     ::= (statement ';'?)*
```

A statement without a semicolon must not be followed by a token that would continue it: a binary
operator, `(` or `[` (`Continues`).
-/

set_option autoImplicit false

namespace TreeWalk.Grammar

/-- The strata of expressions, loosest first. -/
inductive Stratum
  | equality
  | relational
  | additive
  | multiplicative
  | unary
  /-- A primary expression, followed by argument lists and subscripts. -/
  | applied
  | primary
  deriving DecidableEq, Repr

namespace Stratum

/-- The next tighter stratum. -/
def tighter : Stratum → Option Stratum
  | equality => some relational
  | relational => some additive
  | additive => some multiplicative
  | multiplicative => some unary
  | unary => some applied
  | applied => some primary
  | primary => none

/-- The binary operators of a stratum. -/
def operators : Stratum → List BinaryOp
  | equality => [.eq, .ne]
  | relational => [.lt, .le, .gt, .ge]
  | additive => [.add, .sub]
  | multiplicative => [.mul, .div]
  | unary | applied | primary => []

/-- The place of a stratum in the order. -/
def rank : Stratum → Nat
  | equality => 1
  | relational => 2
  | additive => 3
  | multiplicative => 4
  | unary => 5
  | applied => 6
  | primary => 7

theorem rank_of_tighter {a b : Stratum} (h : a.tighter = some b) : b.rank = a.rank + 1 := by
  cases a <;> cases h <;> rfl

theorem rank_inj {a b : Stratum} (h : a.rank = b.rank) : a = b := by
  cases a <;> cases b <;> first | rfl | cases h

/-- Only the four outer strata have operators, so there is always a tighter stratum for their
operands. -/
theorem rank_lt_of_mem_operators {a : Stratum} {op : BinaryOp} (h : op ∈ a.operators) :
    a.rank < unary.rank := by
  cases a <;> first | decide | cases h

end Stratum

/-- The tokens start with one that would continue an expression before them. -/
def Continues (ts : List Token) : Prop :=
  ∃ t rest, ts = t :: rest ∧
    ((∃ op : BinaryOp, t.kind = op.kind) ∨ t.kind = .lparen ∨ t.kind = .lbracket)

/-- The parameters after the first: `(',' identifier)*`. -/
inductive MoreParams : List Token → List String → Prop
  | nil : MoreParams [] []
  | cons {comma name : Token} {ts : List Token} {ps : List String} (hcomma : comma.kind = .comma)
      (hname : name.kind = .identifier) (h : MoreParams ts ps) :
      MoreParams (comma :: name :: ts) (name.literal :: ps)

/-- A parameter list, without its parentheses. -/
inductive Params : List Token → List String → Prop
  | nil : Params [] []
  | cons {name : Token} {ts : List Token} {ps : List String} (hname : name.kind = .identifier)
      (h : MoreParams ts ps) : Params (name :: ts) (name.literal :: ps)

mutual

/-- The tokens make up that expression of the given stratum. -/
inductive Derives : Stratum → List Token → Expr → Prop
  | tighter {a b : Stratum} {ts : List Token} {e : Expr} (hab : a.tighter = some b)
      (h : Derives b ts e) : Derives a ts e
  | binary {a b : Stratum} {op : BinaryOp} {t : Token} {ts us : List Token} {l r : Expr}
      (hop : op ∈ a.operators) (hab : a.tighter = some b) (hl : Derives a ts l)
      (ht : t.kind = op.kind) (hr : Derives b us r) :
      Derives a (ts ++ t :: us) (.binary op l r)
  | unary {op : UnaryOp} {t : Token} {ts : List Token} {e : Expr} (ht : t.kind = op.kind)
      (h : Derives .unary ts e) : Derives .unary (t :: ts) (.unary op e)
  | call {o c : Token} {ts us : List Token} {f : Expr} {args : List Expr}
      (hf : Derives .applied ts f) (ho : o.kind = .lparen) (hargs : Items us args)
      (hc : c.kind = .rparen) : Derives .applied (ts ++ o :: us ++ [c]) (.call f args)
  | index {o c : Token} {ts us : List Token} {l i : Expr} (hl : Derives .applied ts l)
      (ho : o.kind = .lbracket) (hi : Derives .equality us i) (hc : c.kind = .rbracket) :
      Derives .applied (ts ++ o :: us ++ [c]) (.index l i)
  | ident {t : Token} (ht : t.kind = .identifier) : Derives .primary [t] (.ident t.literal)
  /-- A number is read in decimal, and only numbers that can be represented are literals. -/
  | number {t : Token} {n : Int64} (ht : t.kind = .number)
      (hn : n.toInt = Decimal.value t.literal.toList) : Derives .primary [t] (.int n)
  | text {t : Token} (ht : t.kind = .string) : Derives .primary [t] (.str t.literal)
  | kwTrue {t : Token} (ht : t.kind = .kwTrue) : Derives .primary [t] (.bool true)
  | kwFalse {t : Token} (ht : t.kind = .kwFalse) : Derives .primary [t] (.bool false)
  | group {o c : Token} {ts : List Token} {e : Expr} (ho : o.kind = .lparen)
      (h : Derives .equality ts e) (hc : c.kind = .rparen) : Derives .primary (o :: ts ++ [c]) e
  | array {o c : Token} {ts : List Token} {es : List Expr} (ho : o.kind = .lbracket)
      (h : Items ts es) (hc : c.kind = .rbracket) : Derives .primary (o :: ts ++ [c]) (.array es)
  | hash {o c : Token} {ts : List Token} {es : List (Expr × Expr)} (ho : o.kind = .lbrace)
      (h : Entries ts es) (hc : c.kind = .rbrace) : Derives .primary (o :: ts ++ [c]) (.hash es)
  | cond {i o c : Token} {ts us vs : List Token} {test : Expr} {yes : Block} {no : Option Block}
      (hi : i.kind = .kwIf) (ho : o.kind = .lparen) (htest : Derives .equality ts test)
      (hc : c.kind = .rparen) (hyes : Braced us yes) (hno : Otherwise vs no) :
      Derives .primary (i :: o :: ts ++ c :: us ++ vs) (.cond test yes no)
  | func {f o c : Token} {ts us : List Token} {ps : List String} {body : Block}
      (hf : f.kind = .kwFunc) (ho : o.kind = .lparen) (hps : Params ts ps)
      (hc : c.kind = .rparen) (hbody : Braced us body) :
      Derives .primary (f :: o :: ts ++ c :: us) (.func ps body)

/-- The items of an array or the arguments of a call. -/
inductive Items : List Token → List Expr → Prop
  | nil : Items [] []
  | cons {ts us : List Token} {e : Expr} {es : List Expr} (h : Derives .equality ts e)
      (hes : MoreItems us es) : Items (ts ++ us) (e :: es)

/-- The items after the first: `(',' equality)*`. -/
inductive MoreItems : List Token → List Expr → Prop
  | nil : MoreItems [] []
  | cons {comma : Token} {ts us : List Token} {e : Expr} {es : List Expr}
      (hcomma : comma.kind = .comma) (h : Derives .equality ts e) (hes : MoreItems us es) :
      MoreItems (comma :: ts ++ us) (e :: es)

/-- The entries of a hash. -/
inductive Entries : List Token → List (Expr × Expr) → Prop
  | nil : Entries [] []
  | cons {colon : Token} {ts us vs : List Token} {k v : Expr} {es : List (Expr × Expr)}
      (hk : Derives .equality ts k) (hcolon : colon.kind = .colon) (hv : Derives .equality us v)
      (hes : MoreEntries vs es) : Entries (ts ++ colon :: us ++ vs) ((k, v) :: es)

/-- The entries after the first: `(',' equality ':' equality)* ','?`. -/
inductive MoreEntries : List Token → List (Expr × Expr) → Prop
  | nil : MoreEntries [] []
  | comma {comma : Token} (hcomma : comma.kind = .comma) : MoreEntries [comma] []
  | cons {comma colon : Token} {ts us vs : List Token} {k v : Expr} {es : List (Expr × Expr)}
      (hcomma : comma.kind = .comma) (hk : Derives .equality ts k) (hcolon : colon.kind = .colon)
      (hv : Derives .equality us v) (hes : MoreEntries vs es) :
      MoreEntries (comma :: ts ++ colon :: us ++ vs) ((k, v) :: es)

/-- The second block of a conditional: `('else' block)?`. -/
inductive Otherwise : List Token → Option Block → Prop
  | none : Otherwise [] none
  | some {t : Token} {ts : List Token} {b : Block} (ht : t.kind = .kwElse) (h : Braced ts b) :
      Otherwise (t :: ts) (some b)

/-- A block. -/
inductive Braced : List Token → Block → Prop
  | braces {o c : Token} {ts : List Token} {b : Block} (ho : o.kind = .lbrace)
      (h : Statements ts b) (hc : c.kind = .rbrace) : Braced (o :: ts ++ [c]) b

/-- A statement, without a semicolon. -/
inductive Statement : List Token → Stmt → Prop
  | bind {v name a : Token} {ts : List Token} {e : Expr} (hv : v.kind = .kwVar)
      (hname : name.kind = .identifier) (ha : a.kind = .assign) (h : Derives .equality ts e) :
      Statement (v :: name :: a :: ts) (.bind name.literal e)
  | ret {r : Token} {ts : List Token} {e : Expr} (hr : r.kind = .kwReturn)
      (h : Derives .equality ts e) : Statement (r :: ts) (.ret e)
  | expr {ts : List Token} {e : Expr} (h : Derives .equality ts e) : Statement ts (.expr e)

/-- The statements of a block or a program. -/
inductive Statements : List Token → List Stmt → Prop
  | nil : Statements [] []
  | closed {semicolon : Token} {ts us : List Token} {s : Stmt} {ss : List Stmt}
      (h : Statement ts s) (hsemi : semicolon.kind = .semicolon) (hss : Statements us ss) :
      Statements (ts ++ semicolon :: us) (s :: ss)
  | bare {ts us : List Token} {s : Stmt} {ss : List Stmt} (h : Statement ts s)
      (hus : ¬ Continues us) (hss : Statements us ss) : Statements (ts ++ us) (s :: ss)

end

/-- An expression of a tighter stratum is one of every looser stratum. -/
theorem Derives.loosen {a b : Stratum} {ts : List Token} {e : Expr} (h : Derives b ts e)
    (hab : a.rank ≤ b.rank) : Derives a ts e := by
  by_cases hrank : a.rank = b.rank
  · exact Stratum.rank_inj hrank ▸ h
  · obtain ⟨c, hc⟩ : ∃ c, a.tighter = some c := by
      cases a with
      | primary => cases b <;> simp [Stratum.rank] at hab hrank
      | _ => exact ⟨_, rfl⟩
    have hrc := Stratum.rank_of_tighter hc
    exact .tighter hc (h.loosen (by omega))
termination_by 7 - a.rank
decreasing_by
  have : b.rank ≤ 7 := by cases b <;> decide
  omega

end TreeWalk.Grammar

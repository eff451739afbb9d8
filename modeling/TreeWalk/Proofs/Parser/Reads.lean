import TreeWalk.Program.Parser

/-!
# What a routine of the parser reads

`Reads r a rest` says that the routine whose answer is `r` succeeded, read `a` and left the tokens
`rest`.  It forgets the proof that a routine carries with its answer, and with it the number of
tokens that the answer's type mentions, so that the answers of different routines can be compared.

For each routine there is one equivalence that says what it reads in terms of what the routines
that it calls read.  Nothing else in the library looks into their bodies.
-/

set_option autoImplicit false

namespace TreeWalk.Parser

open Token (Kind)

/-- The routine succeeded with `a` and left the tokens `rest`. -/
def Reads {n : Nat} {α : Type} (r : Except ParseError (Parsed n α)) (a : α)
    (rest : List Token) : Prop :=
  ∃ h : rest.length < n, r = .ok ⟨a, rest, h⟩

/-! ## Sequences of routines -/

section Sequences

variable {n k : Nat} {α β : Type} {a b : α} {mid rest : List Token}

theorem Reads.length_lt {r : Except ParseError (Parsed n α)} (h : Reads r a rest) :
    rest.length < n := h.1

theorem reads_ok {h : mid.length < n} :
    Reads (.ok ⟨a, mid, h⟩) b rest ↔ a = b ∧ mid = rest := by
  constructor
  · rintro ⟨_, heq⟩
    injection heq with heq
    injection heq with hval hrest
    exact ⟨hval, hrest⟩
  · rintro ⟨rfl, rfl⟩
    exact ⟨h, rfl⟩

theorem reads_pure {h : mid.length < n} :
    Reads (pure ⟨a, mid, h⟩) b rest ↔ a = b ∧ mid = rest := reads_ok

theorem not_reads_error {e : ParseError} :
    ¬ Reads (.error e : Except ParseError (Parsed n α)) b rest := by
  rintro ⟨_, heq⟩
  cases heq

/-- A routine behind another one starts with the tokens that the first one left. -/
theorem reads_bind {m : Except ParseError (Parsed n α)}
    {f : Parsed n α → Except ParseError (Parsed k β)} {c : β} :
    Reads (m >>= f) c rest ↔
      ∃ a mid, ∃ h : Reads m a mid, Reads (f ⟨a, mid, h.length_lt⟩) c rest := by
  cases m with
  | error e =>
    refine ⟨fun h => absurd h not_reads_error, ?_⟩
    rintro ⟨_, _, h, _⟩
    exact absurd h not_reads_error
  | ok p =>
    obtain ⟨a, mid, h⟩ := p
    constructor
    · intro hf
      exact ⟨a, mid, ⟨h, rfl⟩, hf⟩
    · rintro ⟨_, _, hr, hf⟩
      obtain ⟨rfl, rfl⟩ := reads_ok.1 hr
      exact hf

/-- The same for a first step that takes no tokens. -/
theorem reads_bind_value {γ : Type} {m : Except ParseError γ}
    {f : γ → Except ParseError (Parsed n α)} :
    Reads (m >>= f) a rest ↔ ∃ c, m = .ok c ∧ Reads (f c) a rest := by
  cases m with
  | error e =>
    refine ⟨fun h => absurd h not_reads_error, ?_⟩
    rintro ⟨_, h, _⟩
    cases h
  | ok c =>
    constructor
    · intro hf
      exact ⟨c, rfl, hf⟩
    · rintro ⟨_, hc, hf⟩
      cases hc
      exact hf

end Sequences

variable {last : Nat} {level : Level} {closing : Kind} {t : Token} {ts rest : List Token}

/-! ## Single tokens -/

/-- One token is taken if it is of the kind that is asked for. -/
theorem reads_take {kind : Kind} {expected : String} {u : Token} :
    Reads (take last kind expected ts) u rest ↔ ts = u :: rest ∧ u.kind = kind := by
  cases ts with
  | nil =>
    rw [take]
    refine ⟨fun h => absurd h not_reads_error, ?_⟩
    rintro ⟨h, _⟩
    cases h
  | cons t ts =>
    rw [take]
    split
    · next hk =>
      rw [reads_ok]
      constructor
      · rintro ⟨rfl, rfl⟩
        exact ⟨rfl, hk⟩
      · rintro ⟨h, _⟩
        cases h
        exact ⟨rfl, rfl⟩
    · next hk =>
      refine ⟨fun h => absurd h not_reads_error, ?_⟩
      rintro ⟨h, hu⟩
      cases h
      exact absurd hu hk

theorem reads_expect {kind : Kind} {u : Token} :
    Reads (expect last kind ts) u rest ↔ ts = u :: rest ∧ u.kind = kind := reads_take

theorem integer_eq_ok {n : Int64} : integer t = .ok n ↔ Decimal.int64? t.literal = some n := by
  rw [integer]
  split
  · next m hm => rw [hm, Except.ok.injEq, Option.some_inj]
  · next hm => simp [hm]

/-! ## Parameters -/

/-- A comma calls for a further name, and anything else must close the list. -/
theorem reads_moreParams {ps : List String} :
    Reads (moreParams last (t :: ts)) ps rest ↔
      if t.kind = .comma then
        ∃ p mid qs, ts = p :: mid ∧ p.kind = .identifier ∧ Reads (moreParams last mid) qs rest ∧
          p.literal :: qs = ps
      else t.kind = .rparen ∧ [] = ps ∧ ts = rest := by
  rw [moreParams.eq_def]
  dsimp only
  split
  · cases ts with
    | nil => simp [not_reads_error]
    | cons p ts =>
      dsimp only
      split
      · next hp =>
        simp only [reads_bind, reads_pure, exists_prop, exists_eq_right_right]
        grind
      · next hp =>
        refine ⟨fun h => absurd h not_reads_error, ?_⟩
        rintro ⟨q, mid, qs, h, hq, _⟩
        cases h
        exact absurd hq hp
  · simp only [reads_bind, reads_expect, reads_pure, exists_prop, List.cons.injEq]
    grind

/-- The list is empty only if it is closed at once. -/
theorem reads_params {ps : List String} :
    Reads (params last (t :: ts)) ps rest ↔
      if t.kind = .rparen then [] = ps ∧ ts = rest
      else t.kind = .identifier ∧
        ∃ qs, Reads (moreParams last ts) qs rest ∧ t.literal :: qs = ps := by
  rw [params]
  split
  · rw [reads_ok]
  split
  · next hk =>
    simp only [reads_bind, reads_pure, exists_prop, exists_eq_right_right]
    grind
  · next hk => simp [not_reads_error, hk]

/-! ## Expressions -/

variable {e left : Expr}

/-- An expression is an operand, and whatever the loop makes of it. -/
theorem reads_expr :
    Reads (expr last level ts) e rest ↔
      ∃ left mid, Reads (operand last ts) left mid ∧ Reads (climb last level left mid) e rest := by
  rw [expr]
  simp only [reads_bind, reads_pure, exists_prop, exists_eq_right_right, exists_eq_right]

theorem not_reads_operand_nil : ¬ Reads (operand last []) e rest := by
  rw [operand]
  exact not_reads_error

/-- What an operand is, by its first token. -/
theorem reads_operand :
    Reads (operand last (t :: ts)) e rest ↔
      match opening? t.kind with
      | some .name => .ident t.literal = e ∧ ts = rest
      | some .number => ∃ n, Decimal.int64? t.literal = some n ∧ .int n = e ∧ ts = rest
      | some .text => .str t.literal = e ∧ ts = rest
      | some (.truth b) => .bool b = e ∧ ts = rest
      | some (.operator op) => ∃ x, Reads (expr last .unary ts) x rest ∧ .unary op x = e
      | some .group => ∃ c, Reads (expr last .lowest ts) e (c :: rest) ∧ c.kind = .rparen
      | some .array => ∃ es, Reads (items last .rbracket ts) es rest ∧ .array es = e
      | some .hash => ∃ es, Reads (entries last ts) es rest ∧ .hash es = e
      | some .cond =>
        ∃ o us test c b vs yes ws no,
          (ts = o :: us ∧ o.kind = .lparen) ∧
          Reads (expr last .lowest us) test (c :: b :: vs) ∧ c.kind = .rparen ∧
          b.kind = .lbrace ∧ Reads (block last vs) yes ws ∧ Reads (otherwise last ws) no rest ∧
          .cond test yes no = e
      | some .func =>
        ∃ o us ps b vs body,
          (ts = o :: us ∧ o.kind = .lparen) ∧ Reads (params last us) ps (b :: vs) ∧
          b.kind = .lbrace ∧ Reads (block last vs) body rest ∧ .func ps body = e
      | none => False := by
  rw [operand]
  generalize opening? t.kind = o
  rcases o with _ | o
  · exact iff_false_intro not_reads_error
  cases o with
  | name => exact reads_ok
  | number => simp only [reads_bind_value, integer_eq_ok, reads_pure]
  | text => exact reads_ok
  | truth b => exact reads_ok
  | operator op =>
    simp only [reads_bind, reads_pure, exists_prop]
    grind
  | group =>
    simp only [reads_bind, reads_expect, reads_pure, exists_prop]
    grind
  | array =>
    simp only [reads_bind, reads_pure, exists_prop]
    grind
  | hash =>
    simp only [reads_bind, reads_pure, exists_prop]
    grind
  | cond =>
    simp only [reads_bind, reads_expect, reads_pure, exists_prop]
    grind
  | func =>
    simp only [reads_bind, reads_expect, reads_pure, exists_prop]
    grind

theorem reads_climb_nil : Reads (climb last level left []) e rest ↔ left = e ∧ [] = rest := by
  rw [climb]
  exact reads_ok

/-- The loop stops before a token that does not bind tightly enough. -/
theorem reads_climb_of_not_lt (h : ¬ level < Level.ofKind t.kind) :
    Reads (climb last level left (t :: ts)) e rest ↔ left = e ∧ t :: ts = rest := by
  rw [climb, if_neg h]
  exact reads_ok

/-- How an expression goes on, by the token that continues it. -/
theorem reads_climb_of_lt (h : level < Level.ofKind t.kind) :
    Reads (climb last level left (t :: ts)) e rest ↔
      match continuation? t.kind with
      | some (.operator op) =>
        ∃ right mid, Reads (expr last (Level.ofKind t.kind) ts) right mid ∧
          Reads (climb last level (.binary op left right) mid) e rest
      | some .arguments =>
        ∃ args mid, Reads (items last .rparen ts) args mid ∧
          Reads (climb last level (.call left args) mid) e rest
      | some .subscript =>
        ∃ position c mid, Reads (expr last .lowest ts) position (c :: mid) ∧
          c.kind = .rbracket ∧ Reads (climb last level (.index left position) mid) e rest
      | none => False := by
  rw [climb, if_pos h]
  generalize continuation? t.kind = o
  rcases o with _ | o
  · exact iff_false_intro not_reads_error
  cases o with
  | operator op =>
    simp only [reads_bind, reads_pure, exists_prop, exists_eq_right_right, exists_eq_right]
  | arguments =>
    simp only [reads_bind, reads_pure, exists_prop, exists_eq_right_right, exists_eq_right]
  | subscript =>
    simp only [reads_bind, reads_expect, reads_pure, exists_prop]
    grind

/-! ## Lists of expressions -/

theorem not_reads_items_nil {es : List Expr} : ¬ Reads (items last closing []) es rest := by
  rw [items]
  exact not_reads_error

/-- An empty list is closed at once; there is no comma in it. -/
theorem reads_items {es : List Expr} :
    Reads (items last closing (t :: ts)) es rest ↔
      if t.kind = closing then [] = es ∧ ts = rest
      else ∃ x xs mid, Reads (expr last .lowest (t :: ts)) x mid ∧
        Reads (moreItems last closing mid) xs rest ∧ x :: xs = es := by
  rw [items]
  split
  · exact reads_ok
  · simp only [reads_bind, reads_pure, exists_prop]
    grind

theorem not_reads_moreItems_nil {es : List Expr} :
    ¬ Reads (moreItems last closing []) es rest := by
  rw [moreItems]
  exact not_reads_error

/-- After a comma there must be a further item. -/
theorem reads_moreItems {es : List Expr} :
    Reads (moreItems last closing (t :: ts)) es rest ↔
      if t.kind = .comma then
        ∃ x xs mid, Reads (expr last .lowest ts) x mid ∧
          Reads (moreItems last closing mid) xs rest ∧ x :: xs = es
      else t.kind = closing ∧ [] = es ∧ ts = rest := by
  rw [moreItems]
  split
  · simp only [reads_bind, reads_pure, exists_prop]
    grind
  split
  · next hk => simp only [reads_ok, hk, true_and]
  · next hk => simp only [not_reads_error, hk, false_and]

theorem not_reads_entries_nil {es : List (Expr × Expr)} :
    ¬ Reads (entries last []) es rest := by
  rw [entries]
  exact not_reads_error

/-- A key, a colon and a value, unless the hash is closed at once. -/
theorem reads_entries {es : List (Expr × Expr)} :
    Reads (entries last (t :: ts)) es rest ↔
      if t.kind = .rbrace then [] = es ∧ ts = rest
      else ∃ key c us value vs xs, Reads (expr last .lowest (t :: ts)) key (c :: us) ∧
        c.kind = .colon ∧ Reads (expr last .lowest us) value vs ∧
        Reads (moreEntries last vs) xs rest ∧ (key, value) :: xs = es := by
  rw [entries]
  split
  · exact reads_ok
  · simp only [reads_bind, reads_expect, reads_pure, exists_prop]
    grind

theorem not_reads_moreEntries_nil {es : List (Expr × Expr)} :
    ¬ Reads (moreEntries last []) es rest := by
  rw [moreEntries]
  exact not_reads_error

/-- After a comma the list starts again, so a last comma may stand before the brace. -/
theorem reads_moreEntries {es : List (Expr × Expr)} :
    Reads (moreEntries last (t :: ts)) es rest ↔
      if t.kind = .rbrace then [] = es ∧ ts = rest
      else t.kind = .comma ∧ Reads (entries last ts) es rest := by
  rw [moreEntries]
  split
  · exact reads_ok
  split
  · next hk =>
    simp only [reads_bind, reads_pure, exists_prop, hk, exists_eq_right_right, exists_eq_right,
      true_and]
  · next hk => simp only [not_reads_error, hk, false_and]

/-! ## Statements -/

theorem reads_otherwise_nil {no : Option Block} :
    Reads (otherwise last []) no rest ↔ none = no ∧ [] = rest := by
  rw [otherwise]
  exact reads_ok

/-- Only the keyword calls for a second block. -/
theorem reads_otherwise {no : Option Block} :
    Reads (otherwise last (t :: ts)) no rest ↔
      if t.kind = .kwElse then
        ∃ b us body, (ts = b :: us ∧ b.kind = .lbrace) ∧ Reads (block last us) body rest ∧
          some body = no
      else none = no ∧ t :: ts = rest := by
  rw [otherwise]
  split
  · simp only [reads_bind, reads_expect, reads_pure, exists_prop]
    grind
  · exact reads_ok

theorem not_reads_block_nil {b : Block} : ¬ Reads (block last []) b rest := by
  rw [block]
  exact not_reads_error

/-- Statements up to the brace that closes the block. -/
theorem reads_block {b : Block} :
    Reads (block last (t :: ts)) b rest ↔
      if t.kind = .rbrace then [] = b ∧ ts = rest
      else ∃ s mid ss, Reads (stmt last (t :: ts)) s mid ∧ Reads (block last mid) ss rest ∧
        s :: ss = b := by
  rw [block]
  split
  · exact reads_ok
  · simp only [reads_bind, reads_pure, exists_prop]
    grind

/-- The keyword decides what the statement is; a semicolon behind it is skipped. -/
theorem reads_stmt {s : Stmt} :
    Reads (stmt last (t :: ts)) s rest ↔
      ∃ value mid, skipSemicolon mid = rest ∧
        if t.kind = .kwVar then
          ∃ n a us, (ts = n :: a :: us ∧ n.kind = .identifier ∧ a.kind = .assign) ∧
            Reads (expr last .lowest us) value mid ∧ .bind n.literal value = s
        else if t.kind = .kwReturn then
          Reads (expr last .lowest ts) value mid ∧ .ret value = s
        else Reads (expr last .lowest (t :: ts)) value mid ∧ .expr value = s := by
  rw [stmt]
  split
  · simp only [reads_bind, reads_take, reads_expect, reads_pure, exists_prop]
    grind
  split
  · simp only [reads_bind, reads_pure, exists_prop]
    grind
  · simp only [reads_bind, reads_pure, exists_prop]
    grind

theorem program_nil : program last [] = .ok [] := by rw [program]

/-- A program is read statement by statement, up to the last token. -/
theorem program_cons_eq_ok {p : Program} :
    program last (t :: ts) = .ok p ↔
      ∃ s mid ss, Reads (stmt last (t :: ts)) s mid ∧ program last mid = .ok ss ∧
        s :: ss = p := by
  rw [program]
  cases hs : stmt last (t :: ts) with
  | error e => simp [not_reads_error, bind, Except.bind]
  | ok r =>
    obtain ⟨s, mid, h⟩ := r
    show (program last mid >>= fun ss => pure (s :: ss)) = .ok p ↔ _
    simp only [reads_ok]
    cases hp : program last mid with
    | error e =>
      constructor
      · intro h
        cases h
      · rintro ⟨_, _, ss, ⟨rfl, rfl⟩, hss, _⟩
        rw [hp] at hss
        cases hss
    | ok ss =>
      constructor
      · intro h
        cases h
        exact ⟨s, mid, ss, ⟨rfl, rfl⟩, hp, rfl⟩
      · rintro ⟨_, _, _, ⟨rfl, rfl⟩, hss, rfl⟩
        rw [hp] at hss
        cases hss
        rfl

end TreeWalk.Parser

import TreeWalk.Proofs.Grammar.Levels
import TreeWalk.Proofs.Parser.Reads

/-!
# What the grammar derives, the parser reads

Each phrase of the grammar is shown to be read by its routine, with whatever may follow it left
over.  For expressions the statement is about the loop of precedence climbing: whatever the loop
makes of a finished expression and the tokens behind it, reading the tokens of the expression first
comes to the same (`ReadAs`).  This form needs no case distinction on what the loop does next, and
so goes through chains, argument lists and subscripts alike.

Since the parser decides by the next token, the proofs keep track of the tokens that a phrase can
start with and of those that can stand behind it.
-/

set_option autoImplicit false

namespace TreeWalk.Grammar

open Token (Kind)
open TreeWalk.Parser (Reads)

/-! ## First tokens -/

/-- An expression starts with a token that opens one. -/
theorem Derives.exists_cons {a : Stratum} {ts : List Token} {e : Expr} :
    Derives a ts e → ∃ t us, ts = t :: us ∧ Parser.opening? t.kind ≠ none
  | .tighter _ h => h.exists_cons
  | @Derives.binary _ _ _ t _ us _ _ _ _ hl _ _ => by
    obtain ⟨u, vs, rfl, ho⟩ := hl.exists_cons
    exact ⟨u, vs ++ t :: us, rfl, ho⟩
  | @Derives.unary op _ _ _ ht _ => ⟨_, _, rfl, by rw [ht]; cases op <;> decide⟩
  | @Derives.call o c _ us _ _ hf _ _ _ => by
    obtain ⟨u, vs, rfl, ho⟩ := hf.exists_cons
    exact ⟨u, vs ++ o :: us ++ [c], rfl, ho⟩
  | @Derives.index o c _ us _ _ hl _ _ _ => by
    obtain ⟨u, vs, rfl, ho⟩ := hl.exists_cons
    exact ⟨u, vs ++ o :: us ++ [c], rfl, ho⟩
  | .ident ht => ⟨_, _, rfl, by rw [ht]; decide⟩
  | .number ht _ => ⟨_, _, rfl, by rw [ht]; decide⟩
  | .text ht => ⟨_, _, rfl, by rw [ht]; decide⟩
  | .kwTrue ht => ⟨_, _, rfl, by rw [ht]; decide⟩
  | .kwFalse ht => ⟨_, _, rfl, by rw [ht]; decide⟩
  | .group ho _ _ => ⟨_, _, rfl, by rw [ho]; decide⟩
  | .array ho _ _ => ⟨_, _, rfl, by rw [ho]; decide⟩
  | .hash ho _ _ => ⟨_, _, rfl, by rw [ho]; decide⟩
  | .cond hi _ _ _ _ _ => ⟨_, _, rfl, by rw [hi]; decide⟩
  | .func hf _ _ _ _ => ⟨_, _, rfl, by rw [hf]; decide⟩

/-- The first token of an expression is not of a kind that opens none. -/
theorem kind_ne_of_opening? {j k : Kind} (hj : Parser.opening? j ≠ none)
    (hk : Parser.opening? k = none) : j ≠ k := by
  rintro rfl
  exact hj hk

/-- A statement starts with none of the tokens that end a block or a statement before it. -/
theorem Statement.exists_cons {ts : List Token} {s : Stmt} (h : Statement ts s) :
    ∃ t us, ts = t :: us ∧ t.kind ≠ .rbrace ∧ t.kind ≠ .semicolon ∧ t.kind ≠ .kwElse := by
  cases h with
  | bind hv _ _ _ => exact ⟨_, _, rfl, by rw [hv]; decide⟩
  | ret hr _ => exact ⟨_, _, rfl, by rw [hr]; decide⟩
  | expr h =>
    obtain ⟨t, us, rfl, ho⟩ := h.exists_cons
    exact ⟨t, us, rfl, kind_ne_of_opening? ho rfl, kind_ne_of_opening? ho rfl,
      kind_ne_of_opening? ho rfl⟩

/-! ## What may stand behind an expression -/

/-- The kinds of token that end an expression: they neither continue it nor start another one. -/
structure Stops (k : Kind) : Prop where
  rank_eq : (Level.ofKind k).rank = 0
  opening_eq : Parser.opening? k = none
  ne_else : k ≠ .kwElse

/-- The tokens start with one that ends an expression. -/
def StopsAt (ts : List Token) : Prop := ∃ t rest, ts = t :: rest ∧ Stops t.kind

theorem stops_rparen : Stops .rparen := ⟨rfl, rfl, by decide⟩

theorem stops_rbracket : Stops .rbracket := ⟨rfl, rfl, by decide⟩

theorem stops_rbrace : Stops .rbrace := ⟨rfl, rfl, by decide⟩

theorem stops_comma : Stops .comma := ⟨rfl, rfl, by decide⟩

theorem stops_colon : Stops .colon := ⟨rfl, rfl, by decide⟩

theorem Stops.stopsAt {t : Token} {k : Kind} {rest : List Token} (h : Stops k)
    (ht : t.kind = k) : StopsAt (t :: rest) :=
  ⟨t, rest, rfl, ht ▸ h⟩

/-- Behind an item there is a comma or the end of the list. -/
theorem MoreItems.stopsAt {us rest : List Token} {es : List Expr} {c : Token}
    (h : MoreItems us es) (hc : Stops c.kind) : StopsAt (us ++ c :: rest) := by
  cases h with
  | nil => exact hc.stopsAt rfl
  | cons hcomma _ _ => exact stops_comma.stopsAt hcomma

/-- Behind an entry there is a comma or the end of the hash. -/
theorem MoreEntries.stopsAt {us rest : List Token} {es : List (Expr × Expr)} {c : Token}
    (h : MoreEntries us es) (hc : Stops c.kind) : StopsAt (us ++ c :: rest) := by
  cases h with
  | nil => exact hc.stopsAt rfl
  | comma hcomma => exact stops_comma.stopsAt hcomma
  | cons hcomma _ _ _ _ => exact stops_comma.stopsAt hcomma

/-- No `else` stands next, which would belong to a conditional before it. -/
def NoElse (ts : List Token) : Prop := ∀ t ∈ ts.head?, t.kind ≠ .kwElse

/-- An expression of the stratum may end before these tokens.  A tight stratum may end before any
token: what pulls at the expression then finds it finished. -/
structure Ends (a : Stratum) (rest : List Token) : Prop where
  pull_le : a.rank ≤ Stratum.unary.rank → pull rest ≤ a.rank
  noElse : NoElse rest

/-- What may end in a stratum may end in the next tighter one. -/
theorem Ends.tighter {a b : Stratum} {rest : List Token} (h : Ends a rest)
    (hab : a.tighter = some b) : Ends b rest := by
  have hrank := Stratum.rank_of_tighter hab
  exact ⟨fun hb => Nat.le_trans (h.pull_le (by omega)) (by omega), h.noElse⟩

theorem noElse_cons {t : Token} {rest : List Token} (h : t.kind ≠ .kwElse) :
    NoElse (t :: rest) := by
  intro u hu
  cases hu
  exact h

/-! ## Reading an expression and going on -/

/-- The loop stops at once if the next token pulls no harder than its level. -/
theorem reads_climb_of_pull {last : Nat} {level : Level} {e : Expr} {rest : List Token}
    (h : pull rest ≤ level.rank) : Reads (Parser.climb last level e rest) e rest := by
  cases rest with
  | nil => exact Parser.reads_climb_nil.2 ⟨rfl, rfl⟩
  | cons t rest =>
    rw [Parser.reads_climb_of_not_lt]
    · exact ⟨rfl, rfl⟩
    · rw [Level.lt_iff_rank, Nat.not_lt]
      exact h

/-- Whatever the loop makes of the expression `e` and the tokens behind it, reading the tokens `ts`
first comes to the same, at every level at which an expression of the stratum is read. -/
def ReadAs (last : Nat) (a : Stratum) (ts : List Token) (e : Expr) : Prop :=
  ∀ ⦃level : Level⦄ ⦃e' : Expr⦄ ⦃rest rest' : List Token⦄, level.rank ≤ Level.unary.rank →
    (a.rank < Stratum.unary.rank → level.rank < a.rank) → Ends a rest →
    Reads (Parser.climb last level e rest) e' rest' →
    Reads (Parser.expr last level (ts ++ rest)) e' rest'

/-- An operand is read in one go. -/
theorem ReadAs.of_operand {last : Nat} {a : Stratum} {ts : List Token} {e : Expr}
    (h : ∀ rest, Ends a rest → Reads (Parser.operand last (ts ++ rest)) e rest) :
    ReadAs last a ts e :=
  fun _ _ rest _ _ _ hends hgo => Parser.reads_expr.2 ⟨e, rest, h rest hends, hgo⟩

/-- A whole expression is read if nothing behind it continues it. -/
theorem ReadAs.reads {last : Nat} {ts rest : List Token} {e : Expr}
    (h : ReadAs last .equality ts e) (hpull : pull rest = 0) (helse : NoElse rest) :
    Reads (Parser.expr last .lowest (ts ++ rest)) e rest :=
  h (Nat.zero_le _) (fun _ => by decide) ⟨fun _ => hpull ▸ Nat.zero_le _, helse⟩
    (reads_climb_of_pull (Nat.le_of_eq hpull))

/-- The same before a token that ends every expression. -/
theorem ReadAs.reads_of_stopsAt {last : Nat} {ts rest : List Token} {e : Expr}
    (h : ReadAs last .equality ts e) (hrest : StopsAt rest) :
    Reads (Parser.expr last .lowest (ts ++ rest)) e rest := by
  obtain ⟨t, rest, rfl, ht⟩ := hrest
  exact h.reads ht.rank_eq (noElse_cons ht.ne_else)

/-- The first entry of a hash, whose key and value are read, and the entries after it. -/
theorem reads_entries_cons {last : Nat} {ts us mid rest : List Token} {k v : Expr}
    {es : List (Expr × Expr)} {colon : Token} (hk : Derives .equality ts k)
    (hks : ReadAs last .equality ts k) (hcolon : colon.kind = .colon)
    (hvs : ReadAs last .equality us v) (hmid : StopsAt mid)
    (hes : Reads (Parser.moreEntries last mid) es rest) :
    Reads (Parser.entries last (ts ++ colon :: us ++ mid)) ((k, v) :: es) rest := by
  have hstop : StopsAt (colon :: (us ++ mid)) := stops_colon.stopsAt hcolon
  have hkey := hks.reads_of_stopsAt hstop
  obtain ⟨t, ws, rfl, ho⟩ := hk.exists_cons
  rw [List.append_assoc, List.cons_append, Parser.reads_entries,
    if_neg (kind_ne_of_opening? ho rfl)]
  exact ⟨k, colon, us ++ mid, v, mid, es, hkey, hcolon, hvs.reads_of_stopsAt hmid, hes, rfl⟩

/-! ## Reading a statement and going on -/

/-- The tokens can follow a statement without semicolon that ends before them. -/
structure Quiet (ts : List Token) : Prop where
  pull_eq : pull ts = 0
  noElse : NoElse ts
  skip_eq : Parser.skipSemicolon ts = ts

theorem quiet_nil : Quiet [] := ⟨rfl, nofun, rfl⟩

theorem quiet_rbrace {c : Token} {rest : List Token} (hc : c.kind = .rbrace) :
    Quiet (c :: rest) := by
  refine ⟨by rw [pull, hc]; rfl, noElse_cons (by rw [hc]; decide), ?_⟩
  rw [Parser.skipSemicolon, if_neg (by rw [hc]; decide)]

/-- Statements that do not continue what is before them can follow it.  What comes behind them
matters only if there are none. -/
theorem Statements.quiet {us tail : List Token} {ss : List Stmt} (h : Statements us ss)
    (hus : ¬ Continues us) (htail : us = [] → Quiet tail) : Quiet (us ++ tail) := by
  have cons {ts vs : List Token} {s : Stmt} (hs : Statement ts s)
      (hc : ¬ Continues (ts ++ vs)) : Quiet (ts ++ vs ++ tail) := by
    obtain ⟨t, ws, rfl, -, hsemi, helse⟩ := hs.exists_cons
    refine ⟨?_, noElse_cons helse, ?_⟩
    · rw [← pull_eq_zero_iff] at hc
      exact hc
    · rw [List.cons_append, List.cons_append, Parser.skipSemicolon, if_neg hsemi]
  cases h with
  | nil => exact htail rfl
  | closed h _ _ => exact cons h hus
  | bare h _ _ => exact cons h hus

/-- A statement is read up to a semicolon, which is skipped. -/
theorem reads_stmt_closed {last : Nat} {ts mid : List Token} {s : Stmt} {t : Token}
    (hs : ∀ mid, pull mid = 0 → NoElse mid →
      Reads (Parser.stmt last (ts ++ mid)) s (Parser.skipSemicolon mid))
    (ht : t.kind = .semicolon) : Reads (Parser.stmt last (ts ++ t :: mid)) s mid := by
  have h := hs (t :: mid) (by rw [pull, ht]; rfl) (noElse_cons (by rw [ht]; decide))
  rwa [Parser.skipSemicolon, if_pos ht] at h

/-- Without a semicolon, nothing is skipped. -/
theorem reads_stmt_bare {last : Nat} {ts mid : List Token} {s : Stmt}
    (hs : ∀ mid, pull mid = 0 → NoElse mid →
      Reads (Parser.stmt last (ts ++ mid)) s (Parser.skipSemicolon mid))
    (hmid : Quiet mid) : Reads (Parser.stmt last (ts ++ mid)) s mid := by
  have h := hs mid hmid.pull_eq hmid.noElse
  rwa [hmid.skip_eq] at h

/-! ## Parameters -/

theorem MoreParams.complete {last : Nat} {us rest : List Token} {ps : List String} {c : Token}
    (h : MoreParams us ps) (hc : c.kind = .rparen) :
    Reads (Parser.moreParams last (us ++ c :: rest)) ps rest := by
  induction h with
  | nil =>
    rw [List.nil_append, Parser.reads_moreParams, if_neg (by rw [hc]; decide)]
    exact ⟨hc, rfl, rfl⟩
  | cons hcomma hname h ih =>
    rw [List.cons_append, Parser.reads_moreParams, if_pos hcomma]
    exact ⟨_, _, _, rfl, hname, ih, rfl⟩

theorem Params.complete {last : Nat} {us rest : List Token} {ps : List String} {c : Token}
    (h : Params us ps) (hc : c.kind = .rparen) :
    Reads (Parser.params last (us ++ c :: rest)) ps rest := by
  cases h with
  | nil =>
    rw [List.nil_append, Parser.reads_params, if_pos hc]
    exact ⟨rfl, rfl⟩
  | cons hname h =>
    rw [List.cons_append, Parser.reads_params, if_neg (by rw [hname]; decide)]
    exact ⟨hname, _, h.complete hc, rfl⟩

/-! ## The phrases -/

mutual

/-- One case for each rule of the grammar. -/
theorem Derives.complete {last : Nat} {a : Stratum} {ts : List Token} {e : Expr} :
    Derives a ts e → ReadAs last a ts e
  | .tighter hab h => by
    intro level e' rest rest' hlevel hlt hends hgo
    have hrank := Stratum.rank_of_tighter hab
    exact h.complete hlevel (fun hb => by have := hlt (by omega); omega) (hends.tighter hab) hgo
  | @Derives.binary _ _ op t _ us _ r hop hab hl ht hr => by
    intro level e' rest rest' hlevel hlt hends hgo
    have hrank := Stratum.rank_of_tighter hab
    have hlow := Stratum.rank_lt_of_mem_operators hop
    have hkind : (Level.ofKind t.kind).rank = a.rank := by rw [ht, rank_of_mem_operators hop]
    -- The right operand is read at the level of the operator, so it ends where the chain does.
    have hright : Reads (Parser.expr last (Level.ofKind t.kind) (us ++ rest)) r rest :=
      hr.complete (by rw [hkind]; exact Nat.le_of_lt hlow) (fun _ => by omega) (hends.tighter hab)
        (reads_climb_of_pull (hkind ▸ hends.pull_le (Nat.le_of_lt hlow)))
    have hcont : level < Level.ofKind t.kind := by
      rw [Level.lt_iff_rank, hkind]
      exact hlt hlow
    rw [List.append_assoc]
    refine hl.complete hlevel hlt ⟨fun _ => Nat.le_of_eq hkind, noElse_cons ?_⟩ ?_
    · rw [ht]
      cases op <;> decide
    · rw [List.cons_append, Parser.reads_climb_of_lt hcont,
        Parser.continuation?_of_kind (.operator op) ht]
      exact ⟨r, rest, hright, hgo⟩
  | @Derives.unary op _ _ e ht h => .of_operand fun rest hends => by
    rw [List.cons_append, Parser.reads_operand, Parser.opening?_of_kind (.operator op) ht]
    exact ⟨e, h.complete (Nat.le_refl _) (fun h => absurd h (by decide)) hends
      (reads_climb_of_pull (hends.pull_le (Nat.le_refl _))), rfl⟩
  | @Derives.call o c _ us _ args hf ho hargs hc => by
    intro level e' rest rest' hlevel hlt hends hgo
    -- No level that an expression is read at is as tight as that of an argument list.
    have hcont : level < Level.ofKind o.kind := by
      rw [ho, Level.lt_iff_rank]
      exact Nat.lt_succ_of_le hlevel
    rw [List.append_assoc, List.append_assoc]
    refine hf.complete hlevel (fun h => absurd h (by decide))
      ⟨fun h => absurd h (by decide), noElse_cons (by rw [ho]; decide)⟩ ?_
    rw [List.cons_append, Parser.reads_climb_of_lt hcont,
      Parser.continuation?_of_kind .arguments ho]
    exact ⟨args, rest, hargs.complete stops_rparen (by decide) hc, hgo⟩
  | @Derives.index o c _ us _ i hl ho hi hc => by
    intro level e' rest rest' hlevel hlt hends hgo
    have hcont : level < Level.ofKind o.kind := by
      rw [ho, Level.lt_iff_rank]
      exact Nat.lt_succ_of_le (Nat.le_succ_of_le hlevel)
    rw [List.append_assoc, List.append_assoc]
    refine hl.complete hlevel (fun h => absurd h (by decide))
      ⟨fun h => absurd h (by decide), noElse_cons (by rw [ho]; decide)⟩ ?_
    rw [List.cons_append, Parser.reads_climb_of_lt hcont,
      Parser.continuation?_of_kind .subscript ho]
    exact ⟨i, c, rest, hi.complete.reads_of_stopsAt (stops_rbracket.stopsAt hc), hc, hgo⟩
  | .ident ht => .of_operand fun rest _ => by
    rw [List.cons_append, Parser.reads_operand, Parser.opening?_of_kind .name ht]
    exact ⟨rfl, rfl⟩
  | @Derives.number _ n ht hn => .of_operand fun rest _ => by
    rw [List.cons_append, Parser.reads_operand, Parser.opening?_of_kind .number ht]
    refine ⟨n, ?_, rfl, rfl⟩
    rw [Decimal.int64?, ← hn, Checked.fit?_toInt]
  | .text ht => .of_operand fun rest _ => by
    rw [List.cons_append, Parser.reads_operand, Parser.opening?_of_kind .text ht]
    exact ⟨rfl, rfl⟩
  | .kwTrue ht => .of_operand fun rest _ => by
    rw [List.cons_append, Parser.reads_operand, Parser.opening?_of_kind (.truth true) ht]
    exact ⟨rfl, rfl⟩
  | .kwFalse ht => .of_operand fun rest _ => by
    rw [List.cons_append, Parser.reads_operand, Parser.opening?_of_kind (.truth false) ht]
    exact ⟨rfl, rfl⟩
  | @Derives.group _ c _ _ ho h hc => .of_operand fun rest _ => by
    rw [List.append_assoc, List.cons_append, Parser.reads_operand,
      Parser.opening?_of_kind .group ho]
    exact ⟨c, h.complete.reads_of_stopsAt (stops_rparen.stopsAt hc), hc⟩
  | @Derives.array _ _ _ es ho h hc => .of_operand fun rest _ => by
    rw [List.append_assoc, List.cons_append, Parser.reads_operand,
      Parser.opening?_of_kind .array ho]
    exact ⟨es, h.complete stops_rbracket (by decide) hc, rfl⟩
  | @Derives.hash _ _ _ es ho h hc => .of_operand fun rest _ => by
    rw [List.append_assoc, List.cons_append, Parser.reads_operand,
      Parser.opening?_of_kind .hash ho]
    exact ⟨es, h.complete hc, rfl⟩
  | @Derives.cond _ o c _ _ vs test yes no hi ho htest hc hyes hno =>
    .of_operand fun rest hends => by
    obtain ⟨b, ws, rfl, hb, hbody⟩ := hyes.complete last
    rw [List.append_assoc, List.append_assoc, List.cons_append, List.cons_append,
      Parser.reads_operand, Parser.opening?_of_kind .cond hi]
    exact ⟨o, _, test, c, b, _, yes, vs ++ rest, no, ⟨rfl, ho⟩,
      htest.complete.reads_of_stopsAt (stops_rparen.stopsAt hc), hc, hb, hbody (vs ++ rest),
      hno.complete hends.noElse, rfl⟩
  | @Derives.func _ o c _ _ ps body hf ho hps hc hbody => .of_operand fun rest _ => by
    obtain ⟨b, ws, rfl, hb, hread⟩ := hbody.complete last
    rw [List.append_assoc, List.cons_append, List.cons_append, Parser.reads_operand,
      Parser.opening?_of_kind .func hf]
    exact ⟨o, _, ps, b, _, body, ⟨rfl, ho⟩, hps.complete hc, hb, hread rest, rfl⟩

/-- Items are read together with the token that closes them. -/
theorem Items.complete {last : Nat} {closing : Kind} {us rest : List Token} {es : List Expr}
    {c : Token} : Items us es → Stops closing → closing ≠ .comma → c.kind = closing →
    Reads (Parser.items last closing (us ++ c :: rest)) es rest
  | .nil, _, _, hc => by
    rw [List.nil_append, Parser.reads_items, if_pos hc]
    exact ⟨rfl, rfl⟩
  | @Items.cons ts us e es h hes, hstops, hne, hc => by
    have hread : Reads (Parser.expr last .lowest (ts ++ (us ++ c :: rest))) e (us ++ c :: rest) :=
      h.complete.reads_of_stopsAt (hes.stopsAt (hc ▸ hstops))
    obtain ⟨t, vs, rfl, ho⟩ := h.exists_cons
    rw [List.append_assoc, List.cons_append, Parser.reads_items,
      if_neg (kind_ne_of_opening? ho hstops.opening_eq)]
    exact ⟨e, es, us ++ c :: rest, hread, hes.complete hstops hne hc, rfl⟩

theorem MoreItems.complete {last : Nat} {closing : Kind} {us rest : List Token} {es : List Expr}
    {c : Token} : MoreItems us es → Stops closing → closing ≠ .comma → c.kind = closing →
    Reads (Parser.moreItems last closing (us ++ c :: rest)) es rest
  | .nil, _, hne, hc => by
    rw [List.nil_append, Parser.reads_moreItems, if_neg (by rw [hc]; exact hne)]
    exact ⟨hc, rfl, rfl⟩
  | @MoreItems.cons _ _ us e es hcomma h hes, hstops, hne, hc => by
    rw [List.append_assoc, List.cons_append, Parser.reads_moreItems, if_pos hcomma]
    exact ⟨e, es, us ++ c :: rest, h.complete.reads_of_stopsAt (hes.stopsAt (hc ▸ hstops)),
      hes.complete hstops hne hc, rfl⟩

/-- Entries are read together with the brace that closes them. -/
theorem Entries.complete {last : Nat} {us rest : List Token} {es : List (Expr × Expr)}
    {c : Token} : Entries us es → c.kind = .rbrace →
    Reads (Parser.entries last (us ++ c :: rest)) es rest
  | .nil, hc => by
    rw [List.nil_append, Parser.reads_entries, if_pos hc]
    exact ⟨rfl, rfl⟩
  | .cons hk hcolon hv hes, hc => by
    rw [List.append_assoc]
    exact reads_entries_cons hk hk.complete hcolon hv.complete (hes.stopsAt (hc ▸ stops_rbrace))
      (hes.complete hc)

theorem MoreEntries.complete {last : Nat} {us rest : List Token} {es : List (Expr × Expr)}
    {c : Token} : MoreEntries us es → c.kind = .rbrace →
    Reads (Parser.moreEntries last (us ++ c :: rest)) es rest
  | .nil, hc => by
    rw [List.nil_append, Parser.reads_moreEntries, if_pos hc]
    exact ⟨rfl, rfl⟩
  | .comma hcomma, hc => by
    rw [List.cons_append, Parser.reads_moreEntries, if_neg (by rw [hcomma]; decide),
      List.nil_append, Parser.reads_entries, if_pos hc]
    exact ⟨hcomma, rfl, rfl⟩
  | .cons hcomma hk hcolon hv hes, hc => by
    rw [List.append_assoc, List.cons_append, List.cons_append, Parser.reads_moreEntries,
      if_neg (by rw [hcomma]; decide)]
    exact ⟨hcomma, reads_entries_cons hk hk.complete hcolon hv.complete
      (hes.stopsAt (hc ▸ stops_rbrace)) (hes.complete hc)⟩

/-- A second block is read; without one, no `else` may come next. -/
theorem Otherwise.complete {last : Nat} {us rest : List Token} {no : Option Block} :
    Otherwise us no → NoElse rest → Reads (Parser.otherwise last (us ++ rest)) no rest
  | .none, helse => by
    cases rest with
    | nil => exact Parser.reads_otherwise_nil.2 ⟨rfl, rfl⟩
    | cons t rest =>
      rw [List.nil_append, Parser.reads_otherwise, if_neg (helse t rfl)]
      exact ⟨rfl, rfl⟩
  | @Otherwise.some _ _ b ht h, helse => by
    obtain ⟨o, vs, rfl, ho, hread⟩ := h.complete last
    rw [List.cons_append, Parser.reads_otherwise, if_pos ht]
    exact ⟨o, vs ++ rest, b, ⟨rfl, ho⟩, hread rest, rfl⟩

theorem Braced.complete (last : Nat) {us : List Token} {b : Block} :
    Braced us b → ∃ o vs, us = o :: vs ∧ o.kind = .lbrace ∧
      ∀ rest, Reads (Parser.block last (vs ++ rest)) b rest
  | @Braced.braces o c ts _ ho h hc => by
    refine ⟨o, ts ++ [c], rfl, ho, fun rest => ?_⟩
    rw [List.append_assoc]
    exact h.complete hc

/-- A statement is read before tokens that do not continue it, and a semicolon is skipped. -/
theorem Statement.complete {last : Nat} {us mid : List Token} {s : Stmt} :
    Statement us s → pull mid = 0 → NoElse mid →
    Reads (Parser.stmt last (us ++ mid)) s (Parser.skipSemicolon mid)
  | @Statement.bind _ name a ts e hv hname ha h, hpull, helse => by
    rw [List.cons_append, Parser.reads_stmt]
    refine ⟨e, mid, rfl, ?_⟩
    rw [if_pos hv]
    exact ⟨name, a, ts ++ mid, ⟨rfl, hname, ha⟩, h.complete.reads hpull helse, rfl⟩
  | @Statement.ret _ _ e hr h, hpull, helse => by
    rw [List.cons_append, Parser.reads_stmt]
    refine ⟨e, mid, rfl, ?_⟩
    rw [if_neg (by rw [hr]; decide), if_pos hr]
    exact ⟨h.complete.reads hpull helse, rfl⟩
  | @Statement.expr ts e h, hpull, helse => by
    have hread : Reads (Parser.expr last .lowest (ts ++ mid)) e mid :=
      h.complete.reads hpull helse
    obtain ⟨t, vs, rfl, ho⟩ := h.exists_cons
    rw [List.cons_append, Parser.reads_stmt]
    refine ⟨e, mid, rfl, ?_⟩
    rw [if_neg (kind_ne_of_opening? ho rfl), if_neg (kind_ne_of_opening? ho rfl)]
    exact ⟨hread, rfl⟩

/-- The statements of a block are read together with the brace that closes it. -/
theorem Statements.complete {last : Nat} {us rest : List Token} {b : Block} {c : Token} :
    Statements us b → c.kind = .rbrace → Reads (Parser.block last (us ++ c :: rest)) b rest
  | .nil, hc => by
    rw [List.nil_append, Parser.reads_block, if_pos hc]
    exact ⟨rfl, rfl⟩
  | @Statements.closed t ts us s ss h ht hss, hc => by
    have hstmt : Reads (Parser.stmt last (ts ++ t :: (us ++ c :: rest))) s (us ++ c :: rest) :=
      reads_stmt_closed (fun _ => h.complete) ht
    obtain ⟨u, vs, rfl, hbrace, -, -⟩ := h.exists_cons
    rw [List.append_assoc, List.cons_append, Parser.reads_block, if_neg hbrace]
    exact ⟨s, us ++ c :: rest, ss, hstmt, hss.complete hc, rfl⟩
  | @Statements.bare ts us s ss h hus hss, hc => by
    have hstmt : Reads (Parser.stmt last (ts ++ (us ++ c :: rest))) s (us ++ c :: rest) :=
      reads_stmt_bare (fun _ => h.complete) (hss.quiet hus fun _ => quiet_rbrace hc)
    obtain ⟨u, vs, rfl, hbrace, -, -⟩ := h.exists_cons
    rw [List.append_assoc, List.cons_append, Parser.reads_block, if_neg hbrace]
    exact ⟨s, us ++ c :: rest, ss, hstmt, hss.complete hc, rfl⟩

end

/-- **Completeness**: a program that the tokens derive is what they are parsed as. -/
theorem program_complete {last : Nat} {ts : List Token} {p : Program} :
    Statements ts p → Parser.program last ts = .ok p
  | .nil => Parser.program_nil
  | @Statements.closed t ts us s ss h ht hss => by
    have hstmt : Reads (Parser.stmt last (ts ++ t :: us)) s us :=
      reads_stmt_closed (fun _ => h.complete) ht
    obtain ⟨u, vs, rfl, -⟩ := h.exists_cons
    rw [List.cons_append, Parser.program_cons_eq_ok]
    exact ⟨s, us, ss, hstmt, program_complete hss, rfl⟩
  | @Statements.bare ts us s ss h hus hss => by
    have hquiet : Quiet us := List.append_nil us ▸ hss.quiet hus fun _ => quiet_nil
    have hstmt : Reads (Parser.stmt last (ts ++ us)) s us :=
      reads_stmt_bare (fun _ => h.complete) hquiet
    obtain ⟨u, vs, rfl, -⟩ := h.exists_cons
    rw [List.cons_append, Parser.program_cons_eq_ok]
    exact ⟨s, us, ss, hstmt, program_complete hss, rfl⟩

end TreeWalk.Grammar

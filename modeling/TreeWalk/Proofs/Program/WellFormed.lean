import TreeWalk.Proofs.Grammar.Accepts

/-!
# Well-formed programs

The trees that a source text can stand for.  The type of programs is a little too large for that: a
name may be any text in it, an integer literal may be negative and a string literal may hold a
quote.  `Program.WellFormed` rules these out at every depth, and **every program that is parsed is
well-formed** (`wellFormed_of_parse`).

The reason lies in the tokens: only a word that is no keyword becomes an identifier, and a string
ends at the next quote (`Token.genuine_of_mem_tokens`).  A derivation copies these texts into the
tree and adds no other.
-/

set_option autoImplicit false

namespace TreeWalk

open Token (Piece Kind isWordStart isWordChar)

/-! ## The definition -/

/-- A name: a letter or an underscore, then letters, digits and underscores, and not a keyword. -/
def IsName (s : String) : Prop :=
  (∃ c cs, s.toList = c :: cs ∧ isWordStart c = true ∧ ∀ d ∈ cs, isWordChar d = true) ∧
    ∀ k ∈ Kind.keywords, s ≠ k.text

mutual

/-- The expression is one that a source text can stand for. -/
def Expr.WellFormed : Expr → Prop
  | .ident name => IsName name
  | .int value => 0 ≤ value.toInt ∧ value.toInt ≤ 2 ^ 63 - 1
  | .bool _ => True
  | .str value => '"' ∉ value.toList
  | .array items => Expr.AllWellFormed items
  | .hash entries => Expr.EntriesWellFormed entries
  | .unary _ operand => operand.WellFormed
  | .binary _ left right => left.WellFormed ∧ right.WellFormed
  | .index container position => container.WellFormed ∧ position.WellFormed
  | .cond test yes no => test.WellFormed ∧ Stmt.AllWellFormed yes ∧ Stmt.ElseWellFormed no
  | .func params body => (∀ p ∈ params, IsName p) ∧ Stmt.AllWellFormed body
  | .call callee args => callee.WellFormed ∧ Expr.AllWellFormed args

def Expr.AllWellFormed : List Expr → Prop
  | [] => True
  | e :: es => e.WellFormed ∧ Expr.AllWellFormed es

def Expr.EntriesWellFormed : List (Expr × Expr) → Prop
  | [] => True
  | (k, v) :: es => k.WellFormed ∧ v.WellFormed ∧ Expr.EntriesWellFormed es

/-- The statement is one that a source text can stand for. -/
def Stmt.WellFormed : Stmt → Prop
  | .bind name value => IsName name ∧ value.WellFormed
  | .ret value => value.WellFormed
  | .expr value => value.WellFormed

def Stmt.AllWellFormed : List Stmt → Prop
  | [] => True
  | s :: ss => s.WellFormed ∧ Stmt.AllWellFormed ss

def Stmt.ElseWellFormed : Option (List Stmt) → Prop
  | none => True
  | some block => Stmt.AllWellFormed block

end

/-- The program is one that a source text can stand for. -/
def Program.WellFormed (p : Program) : Prop := Stmt.AllWellFormed p

/-! ## The tokens of a source -/

/-- The token's text is one that a source can give it. -/
structure Token.Genuine (t : Token) : Prop where
  name : t.kind = .identifier → IsName t.literal
  text : t.kind = .string → '"' ∉ t.literal.toList

namespace Token

/-- A word that is read as an identifier is no keyword. -/
theorem Kind.ne_text_of_ofWord {word : String} (h : Kind.ofWord word = .identifier) :
    ∀ k ∈ Kind.keywords, word ≠ k.text := by
  intro k hk hword
  have hfound : (Kind.keywords.find? fun k => k.text = word).isSome = true :=
    List.find?_isSome.2 ⟨k, hk, by simp [hword]⟩
  obtain ⟨k', hk'⟩ := Option.isSome_iff_exists.1 hfound
  have hmem : k' ∈ Kind.keywords := List.mem_of_find?_eq_some hk'
  rw [Kind.ofWord, hk', Option.getD_some] at h
  rw [h] at hmem
  revert hmem
  decide

theorem Kind.ne_identifier_of_ofChar? {c : Char} {k : Kind} (h : Kind.ofChar? c = some k) :
    k ≠ .identifier := by
  rw [Kind.ofChar?.eq_def] at h
  split at h <;> cases h <;> decide

theorem Kind.ne_identifier_of_ofPair? {c d : Char} {k : Kind} (h : Kind.ofPair? c d = some k) :
    k ≠ .identifier := by
  rw [Kind.ofPair?.eq_def] at h
  split at h
  · split at h <;> cases h <;> decide
  · cases h

/-- A word is a name unless it is a keyword. -/
theorem genuine_word {c : Char} {cs : List Char} (line : Nat) (hc : isWordStart c = true)
    (hcs : ∀ d ∈ cs, isWordChar d = true) :
    Genuine ⟨Kind.ofWord (String.ofList (c :: cs)), String.ofList (c :: cs), line⟩ := by
  refine ⟨fun h => ⟨⟨c, cs, String.toList_ofList, hc, hcs⟩, Kind.ne_text_of_ofWord h⟩, fun h => ?_⟩
  exact absurd h (Kind.ofWord_ne_string _)

/-- Only the texts of identifiers and strings matter. -/
theorem genuine_of_ne {kind : Kind} (literal : String) (line : Nat) (hname : kind ≠ .identifier)
    (htext : kind ≠ .string) : Genuine ⟨kind, literal, line⟩ :=
  ⟨fun h => absurd h hname, fun h => absurd h htext⟩

/-- A string ends at the first quote, so none is inside. -/
theorem genuine_of_readQuoted {cs rest : List Char} {kind : Kind} {literal : String} (line : Nat)
    (h : Piece.readQuoted cs = (.lexeme kind literal, rest)) : Genuine ⟨kind, literal, line⟩ := by
  rw [Piece.readQuoted] at h
  split at h
  · cases h
    refine ⟨(nomatch ·), fun _ hquote => ?_⟩
    rw [String.toList_ofList] at hquote
    have hne := List.all_eq_true.1 List.all_takeWhile _ hquote
    cases hne
  · cases h
    exact genuine_of_ne _ _ (by decide) (by decide)

theorem genuine_of_readSymbol {c : Char} {cs rest : List Char} {kind : Kind} {literal : String}
    (line : Nat) (h : Piece.readSymbol c cs = (.lexeme kind literal, rest)) :
    Genuine ⟨kind, literal, line⟩ := by
  rw [Piece.readSymbol] at h
  split at h
  · next hpair =>
    obtain ⟨d, -, hkind⟩ := Option.bind_eq_some_iff.1 hpair
    cases h
    exact genuine_of_ne _ _ (Kind.ne_identifier_of_ofPair? hkind) (Kind.ne_string_of_ofPair? hkind)
  · split at h
    · next hkind =>
      cases h
      exact genuine_of_ne _ _ (Kind.ne_identifier_of_ofChar? hkind)
        (Kind.ne_string_of_ofChar? hkind)
    · cases h
      exact genuine_of_ne _ _ (by decide) (by decide)

/-- Whatever piece is read, its token is genuine. -/
theorem genuine_of_read {c : Char} {cs rest : List Char} {kind : Kind} {literal : String}
    (line : Nat) (h : Piece.read c cs = (.lexeme kind literal, rest)) :
    Genuine ⟨kind, literal, line⟩ := by
  rw [Piece.read] at h
  split at h
  · cases h
  split at h
  · cases h
  split at h
  · cases h
  split at h
  · next hc =>
    cases h
    exact genuine_word line hc (List.all_eq_true.1 List.all_takeWhile)
  split at h
  · cases h
    exact genuine_of_ne _ _ (by decide) (by decide)
  split at h
  · exact genuine_of_readQuoted line h
  · exact genuine_of_readSymbol line h

/-- Every token stems from a piece. -/
theorem lexeme_mem_of_mem_number {t : Token} {line : Nat} {ps : List Piece}
    (h : t ∈ number line ps) : Piece.lexeme t.kind t.literal ∈ ps := by
  induction ps generalizing line with
  | nil => cases h
  | cons p ps ih =>
    cases p with
    | gap text => exact List.mem_cons_of_mem _ (ih h)
    | lexeme kind literal =>
      rcases List.mem_cons.1 h with rfl | h
      · exact List.mem_cons_self
      · exact List.mem_cons_of_mem _ (ih h)

/-- Every piece of a text has been read somewhere in it. -/
theorem exists_read_of_mem_pieces {p : Piece} {cs : List Char} (h : p ∈ pieces cs) :
    ∃ c ds rest, Piece.read c ds = (p, rest) := by
  induction cs using pieces.induct with
  | case1 => rw [pieces_nil] at h; cases h
  | case2 c cs _ ih =>
    rw [pieces_cons] at h
    rcases List.mem_cons.1 h with rfl | h
    · exact ⟨c, cs, _, rfl⟩
    · exact ih h

/-- **The tokens of a source are genuine.** -/
theorem genuine_of_mem_tokens {source : String} {t : Token}
    (h : t ∈ (Stream.ofSource source).tokens) : t.Genuine := by
  obtain ⟨c, cs, rest, hread⟩ := exists_read_of_mem_pieces (lexeme_mem_of_mem_number h)
  exact genuine_of_read t.line hread

end Token

/-! ## What the grammar derives -/

namespace Grammar

open Token (Genuine)

theorem MoreParams.names {ts : List Token} {ps : List String} (h : MoreParams ts ps)
    (hts : ∀ t ∈ ts, Genuine t) : ∀ p ∈ ps, IsName p := by
  induction h with
  | nil => simp
  | cons hcomma hname _ ih =>
    simp only [List.forall_mem_cons] at hts ⊢
    exact ⟨hts.2.1.name hname, ih hts.2.2⟩

/-- Parameters are identifiers. -/
theorem Params.names {ts : List Token} {ps : List String} (h : Params ts ps)
    (hts : ∀ t ∈ ts, Genuine t) : ∀ p ∈ ps, IsName p := by
  cases h with
  | nil => simp
  | cons hname h =>
    simp only [List.forall_mem_cons] at hts ⊢
    exact ⟨hts.1.name hname, h.names hts.2⟩

mutual

/-- The text of every leaf is that of a token. -/
theorem Derives.wellFormed {a : Stratum} {ts : List Token} {e : Expr} :
    Derives a ts e → (∀ t ∈ ts, Genuine t) → e.WellFormed
  | .tighter _ h, hts => h.wellFormed hts
  | .binary _ _ hl _ hr, hts => by
    simp only [List.forall_mem_append, List.forall_mem_cons] at hts
    exact ⟨hl.wellFormed hts.1, hr.wellFormed hts.2.2⟩
  | .unary _ h, hts => by
    simp only [List.forall_mem_cons] at hts
    exact h.wellFormed hts.2
  | .call hf _ hargs _, hts => by
    simp only [List.forall_mem_append, List.forall_mem_cons] at hts
    exact ⟨hf.wellFormed hts.1.1, hargs.wellFormed hts.1.2.2⟩
  | .index hl _ hi _, hts => by
    simp only [List.forall_mem_append, List.forall_mem_cons] at hts
    exact ⟨hl.wellFormed hts.1.1, hi.wellFormed hts.1.2.2⟩
  | .ident ht, hts => (hts _ List.mem_cons_self).name ht
  | @Derives.number _ n _ hn, _ => by
    have hlt := n.toInt_lt
    refine ⟨?_, by omega⟩
    -- A numeral has no sign.
    rw [hn]
    exact Int.natCast_nonneg _
  | .text ht, hts => (hts _ List.mem_cons_self).text ht
  | .kwTrue _, _ => trivial
  | .kwFalse _, _ => trivial
  | .group _ h _, hts => by
    simp only [List.forall_mem_append, List.forall_mem_cons] at hts
    exact h.wellFormed hts.1.2
  | .array _ h _, hts => by
    simp only [List.forall_mem_append, List.forall_mem_cons] at hts
    exact h.wellFormed hts.1.2
  | .hash _ h _, hts => by
    simp only [List.forall_mem_append, List.forall_mem_cons] at hts
    exact h.wellFormed hts.1.2
  | .cond _ _ htest _ hyes hno, hts => by
    simp only [List.forall_mem_append, List.forall_mem_cons] at hts
    exact ⟨htest.wellFormed hts.1.1.2.2, hyes.wellFormed hts.1.2.2, hno.wellFormed hts.2⟩
  | .func _ _ hps _ hbody, hts => by
    simp only [List.forall_mem_append, List.forall_mem_cons] at hts
    exact ⟨hps.names hts.1.2.2, hbody.wellFormed hts.2.2⟩

theorem Items.wellFormed {ts : List Token} {es : List Expr} :
    Items ts es → (∀ t ∈ ts, Genuine t) → Expr.AllWellFormed es
  | .nil, _ => trivial
  | .cons h hes, hts => by
    simp only [List.forall_mem_append] at hts
    exact ⟨h.wellFormed hts.1, hes.wellFormed hts.2⟩

theorem MoreItems.wellFormed {ts : List Token} {es : List Expr} :
    MoreItems ts es → (∀ t ∈ ts, Genuine t) → Expr.AllWellFormed es
  | .nil, _ => trivial
  | .cons _ h hes, hts => by
    simp only [List.forall_mem_append, List.forall_mem_cons] at hts
    exact ⟨h.wellFormed hts.1.2, hes.wellFormed hts.2⟩

theorem Entries.wellFormed {ts : List Token} {es : List (Expr × Expr)} :
    Entries ts es → (∀ t ∈ ts, Genuine t) → Expr.EntriesWellFormed es
  | .nil, _ => trivial
  | .cons hk _ hv hes, hts => by
    simp only [List.forall_mem_append, List.forall_mem_cons] at hts
    exact ⟨hk.wellFormed hts.1.1, hv.wellFormed hts.1.2.2, hes.wellFormed hts.2⟩

theorem MoreEntries.wellFormed {ts : List Token} {es : List (Expr × Expr)} :
    MoreEntries ts es → (∀ t ∈ ts, Genuine t) → Expr.EntriesWellFormed es
  | .nil, _ => trivial
  | .comma _, _ => trivial
  | .cons _ hk _ hv hes, hts => by
    simp only [List.forall_mem_append, List.forall_mem_cons] at hts
    exact ⟨hk.wellFormed hts.1.1.2, hv.wellFormed hts.1.2.2, hes.wellFormed hts.2⟩

theorem Otherwise.wellFormed {ts : List Token} {b : Option Block} :
    Otherwise ts b → (∀ t ∈ ts, Genuine t) → Stmt.ElseWellFormed b
  | .none, _ => trivial
  | .some _ h, hts => by
    simp only [List.forall_mem_cons] at hts
    exact h.wellFormed hts.2

theorem Braced.wellFormed {ts : List Token} {b : Block} :
    Braced ts b → (∀ t ∈ ts, Genuine t) → Stmt.AllWellFormed b
  | .braces _ h _, hts => by
    simp only [List.forall_mem_append, List.forall_mem_cons] at hts
    exact h.wellFormed hts.1.2

theorem Statement.wellFormed {ts : List Token} {s : Stmt} :
    Statement ts s → (∀ t ∈ ts, Genuine t) → s.WellFormed
  | .bind _ hname _ h, hts => by
    simp only [List.forall_mem_cons] at hts
    exact ⟨hts.2.1.name hname, h.wellFormed hts.2.2.2⟩
  | .ret _ h, hts => by
    simp only [List.forall_mem_cons] at hts
    exact h.wellFormed hts.2
  | .expr h, hts => h.wellFormed hts

/-- **What genuine tokens derive is well-formed.** -/
theorem Statements.wellFormed {ts : List Token} {ss : List Stmt} :
    Statements ts ss → (∀ t ∈ ts, Genuine t) → Stmt.AllWellFormed ss
  | .nil, _ => trivial
  | .closed h _ hss, hts => by
    simp only [List.forall_mem_append, List.forall_mem_cons] at hts
    exact ⟨h.wellFormed hts.1, hss.wellFormed hts.2.2⟩
  | .bare h _ hss, hts => by
    simp only [List.forall_mem_append] at hts
    exact ⟨h.wellFormed hts.1, hss.wellFormed hts.2⟩

end

end Grammar

/-- **A program that is parsed is well-formed.** -/
theorem wellFormed_of_parse {source : String} {p : Program} (h : Program.parse source = .ok p) :
    p.WellFormed :=
  (Grammar.parse_eq_ok_iff.1 h).wellFormed fun _ ht => Token.genuine_of_mem_tokens ht

end TreeWalk

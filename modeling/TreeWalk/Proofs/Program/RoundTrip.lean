import TreeWalk.Proofs.Program.CanonicalText

/-!
# Canonical texts parse back

**The canonical text of a well-formed program parses to that program**, and since every program
that is parsed is well-formed, parsing, rendering and parsing again gives an equal program.

Cutting the canonical text gives its pieces back, so what is left to show is that the tokens of
these pieces derive the program (`Stmt.derives_list`).  Operators and subscripts carry their own
parentheses there, and so does nothing else: every expression is derived as a primary one, up to
the argument lists behind it, and fits wherever an expression may stand.
-/

set_option autoImplicit false

namespace TreeWalk

open Token Grammar

/-! ## The tokens of the canonical pieces -/

theorem number_mark (line : Nat) (k : Kind) (ps : List Piece) :
    number line (.mark k :: ps) =
      ⟨k, k.text, line⟩ :: number (line + (Piece.mark k).newlines) ps :=
  rfl

theorem number_space (line : Nat) (ps : List Piece) :
    number line (.space :: ps) = number (line + Piece.space.newlines) ps :=
  rfl

theorem derives_moreParams (ps : List String) (line : Nat) :
    MoreParams
      (number line (ps.flatMap fun q => commaPieces ++ [Piece.lexeme .identifier q])) ps := by
  induction ps generalizing line with
  | nil => exact .nil
  | cons p ps ih =>
    rw [List.flatMap_cons, number_append]
    exact MoreParams.cons rfl rfl (ih _)

theorem derives_params (ps : List String) (line : Nat) :
    Params (number line (paramPieces ps)) ps := by
  cases ps with
  | nil => exact .nil
  | cons p ps => exact Params.cons rfl (derives_moreParams ps _)

/-! ## Derivations without strata

Whatever is derived as a primary expression can stand anywhere, so the strata play no part in the
derivation of a canonical text. -/

/-- An expression of any stratum can stand where a whole one is asked for. -/
theorem derives_equality {a : Stratum} {ts : List Token} {e : Expr} (h : Derives a ts e) :
    Derives .equality ts e := by
  refine h.loosen ?_
  cases a <;> decide

theorem derives_primary {ts : List Token} {e : Expr} (h : Derives .primary ts e) :
    Derives .applied ts e :=
  .tighter rfl h

theorem derives_unary {op : UnaryOp} {t : Token} {ts : List Token} {e : Expr}
    (ht : t.kind = op.kind) (h : Derives .applied ts e) :
    Derives .equality (t :: ts) (.unary op e) :=
  derives_equality (.unary ht (.tighter rfl h))

/-- Operands without operators of their own fit every binary operator. -/
theorem derives_binary {op : BinaryOp} {t : Token} {ts us : List Token} {l r : Expr}
    (hl : Derives .applied ts l) (ht : t.kind = op.kind) (hr : Derives .applied us r) :
    Derives .equality (ts ++ t :: us) (.binary op l r) := by
  obtain ⟨a, hop, -, hab⟩ := exists_stratum op
  have ha : a.rank ≤ Stratum.applied.rank :=
    Nat.le_trans (Nat.le_of_lt (Stratum.rank_lt_of_mem_operators hop)) (by decide)
  have hb := rank_stratumAt_le_applied (Level.ofKind op.kind)
  exact derives_equality (.binary hop hab (hl.loosen ha) ht (hr.loosen hb))

theorem derives_group {o c : Token} {ts : List Token} {e : Expr} (ho : o.kind = .lparen)
    (h : Derives .equality ts e) (hc : c.kind = .rparen) :
    Derives .applied (o :: (ts ++ [c])) e :=
  derives_primary (.group ho h hc)

/-- A block stands behind a blank. -/
theorem derives_braced {b : Block} (h : ∀ line, Statements (number line (Stmt.listPieces b)) b)
    (line : Nat) :
    Braced (number line ([.space, .mark .lbrace] ++ Stmt.listPieces b ++ [.mark .rbrace])) b := by
  rw [number_append, number_append]
  exact .braces rfl (h _) rfl

/-! ## The tokens of a canonical text derive its program -/

mutual

/-- An expression is derived in the stratum of argument lists, so it may be a callee without
parentheses around it. -/
theorem Expr.derives : (e : Expr) → e.WellFormed → (line : Nat) →
    Derives .applied (number line e.pieces) e
  | .ident name, _, line => by
    rw [Expr.pieces]
    exact derives_primary (.ident rfl)
  | .int value, h, line => by
    have hnumber := Derives.number (t := ⟨.number, toString value.toInt, line⟩) rfl
      (Decimal.value_toString h.1).symm
    rw [Expr.pieces]
    exact derives_primary hnumber
  | .bool true, _, line => by
    rw [Expr.pieces]
    exact derives_primary (.kwTrue rfl)
  | .bool false, _, line => by
    rw [Expr.pieces]
    exact derives_primary (.kwFalse rfl)
  | .str value, _, line => by
    rw [Expr.pieces]
    exact derives_primary (.text rfl)
  | .array items, h, line => by
    rw [Expr.pieces, number_mark, number_append]
    exact derives_primary (.array rfl (Expr.derives_items items h _) rfl)
  | .hash entries, h, line => by
    rw [Expr.pieces, number_mark, number_append]
    exact derives_primary (.hash rfl (Expr.derives_entries entries h _) rfl)
  | .unary op operand, h, line => by
    rw [Expr.pieces, number_mark, number_mark, number_append]
    refine derives_group rfl (derives_unary rfl ?_) rfl
    exact operand.derives h _
  | .binary op left right, h, line => by
    rw [Expr.pieces, number_mark, number_append, number_append, number_append,
      List.append_assoc (number _ left.pieces)]
    refine derives_group rfl (derives_binary ?_ ?_ ?_) rfl
    · exact left.derives h.1 _
    · rfl
    · exact right.derives h.2 _
  | .index container position, h, line => by
    have hpieces : (Expr.index container position).pieces =
        .mark .lparen :: (container.pieces ++ ([.mark .lbracket] ++ position.pieces) ++
          [.mark .rbracket] ++ [.mark .rparen]) := by
      rw [Expr.pieces]
      simp
    rw [hpieces, number_mark, number_append, number_append, number_append, number_append]
    refine derives_group rfl (derives_equality (.index ?_ rfl ?_ rfl)) rfl
    · exact container.derives h.1 _
    · exact derives_equality (position.derives h.2 _)
  | .cond test yes no, h, line => by
    -- The pieces of each phrase are brought together, as the rule of the grammar has them.
    have hpieces : (Expr.cond test yes no).pieces =
        .mark .kwIf :: .space :: .mark .lparen :: (test.pieces ++ .mark .rparen ::
          ([.space, .mark .lbrace] ++ Stmt.listPieces yes ++ [.mark .rbrace]) ++
          Stmt.elsePieces no) := by
      rw [Expr.pieces]
      simp
    rw [hpieces, number_mark, number_space, number_mark, number_append, number_append, number_mark]
    refine derives_primary (.cond rfl rfl ?_ rfl ?_ ?_)
    · exact derives_equality (test.derives h.1 _)
    · exact derives_braced (Stmt.derives_list yes h.2.1) _
    · exact Stmt.derives_else no h.2.2 _
  | .func params body, h, line => by
    have hpieces : (Expr.func params body).pieces =
        .mark .kwFunc :: .mark .lparen :: (paramPieces params ++ .mark .rparen ::
          ([.space, .mark .lbrace] ++ Stmt.listPieces body ++ [.mark .rbrace])) := by
      rw [Expr.pieces]
      simp
    rw [hpieces, number_mark, number_mark, number_append, number_mark]
    refine derives_primary (.func rfl rfl ?_ rfl ?_)
    · exact derives_params params _
    · exact derives_braced (Stmt.derives_list body h.2) _
  | .call callee args, h, line => by
    rw [Expr.pieces, number_append, number_append, number_append,
      List.append_assoc (number _ callee.pieces)]
    exact Derives.call (callee.derives h.1 _) rfl (Expr.derives_items args h.2 _) rfl

theorem Expr.derives_items : (es : List Expr) → Expr.AllWellFormed es → (line : Nat) →
    Items (number line (Expr.itemPieces es)) es
  | [], _, line => by
    rw [Expr.itemPieces]
    exact .nil
  | e :: es, h, line => by
    rw [Expr.itemPieces, number_append]
    exact .cons (derives_equality (e.derives h.1 _)) (Expr.derives_moreItems es h.2 _)

theorem Expr.derives_moreItems : (es : List Expr) → Expr.AllWellFormed es → (line : Nat) →
    MoreItems (number line (Expr.moreItemPieces es)) es
  | [], _, line => by
    rw [Expr.moreItemPieces]
    exact .nil
  | e :: es, h, line => by
    rw [Expr.moreItemPieces, number_append, number_append]
    exact .cons rfl (derives_equality (e.derives h.1 _)) (Expr.derives_moreItems es h.2 _)

theorem Expr.derives_entries : (es : List (Expr × Expr)) → Expr.EntriesWellFormed es →
    (line : Nat) → Entries (number line (Expr.entryPieces es)) es
  | [], _, line => by
    rw [Expr.entryPieces]
    exact .nil
  | (k, v) :: es, h, line => by
    rw [Expr.entryPieces, number_append, number_append, number_append,
      List.append_assoc (number _ k.pieces)]
    refine .cons ?_ rfl ?_ ?_
    · exact derives_equality (k.derives h.1 _)
    · exact derives_equality (v.derives h.2.1 _)
    · exact Expr.derives_moreEntries es h.2.2 _

theorem Expr.derives_moreEntries : (es : List (Expr × Expr)) → Expr.EntriesWellFormed es →
    (line : Nat) → MoreEntries (number line (Expr.moreEntryPieces es)) es
  | [], _, line => by
    rw [Expr.moreEntryPieces]
    exact .nil
  | (k, v) :: es, h, line => by
    have hpieces : Expr.moreEntryPieces ((k, v) :: es) =
        .mark .comma :: .space :: k.pieces ++ ([.mark .colon, .space] ++ v.pieces) ++
          Expr.moreEntryPieces es := by
      rw [Expr.moreEntryPieces, commaPieces]
      simp
    rw [hpieces, number_append, number_append, number_mark, number_space, number_append]
    refine .cons rfl ?_ rfl ?_ ?_
    · exact derives_equality (k.derives h.1 _)
    · exact derives_equality (v.derives h.2.1 _)
    · exact Expr.derives_moreEntries es h.2.2 _

/-- A statement is derived up to its semicolon. -/
theorem Stmt.derives : (s : Stmt) → s.WellFormed → (line : Nat) →
    ∃ ts semicolon, number line s.pieces = ts ++ [semicolon] ∧ semicolon.kind = .semicolon ∧
      Statement ts s
  | .bind name value, h, line => by
    rw [Stmt.pieces, number_append, number_append]
    refine ⟨_, _, rfl, rfl, .bind rfl rfl rfl ?_⟩
    exact derives_equality (value.derives h.2 _)
  | .ret value, h, line => by
    rw [Stmt.pieces, number_append, number_append]
    refine ⟨_, _, rfl, rfl, .ret rfl ?_⟩
    exact derives_equality (value.derives h _)
  | .expr value, h, line => by
    rw [Stmt.pieces, number_append]
    exact ⟨_, _, rfl, rfl, .expr (derives_equality (value.derives h _))⟩

/-- Every statement is closed by its semicolon, so nothing can continue it. -/
theorem Stmt.derives_list : (ss : List Stmt) → Stmt.AllWellFormed ss → (line : Nat) →
    Statements (number line (Stmt.listPieces ss)) ss
  | [], _, line => by
    rw [Stmt.listPieces]
    exact .nil
  | s :: ss, h, line => by
    obtain ⟨ts, semicolon, hts, hsemi, hs⟩ := s.derives h.1 line
    rw [Stmt.listPieces, number_append, hts, List.append_assoc]
    exact .closed hs hsemi (Stmt.derives_list ss h.2 _)

theorem Stmt.derives_else : (no : Option (List Stmt)) → Stmt.ElseWellFormed no →
    (line : Nat) → Otherwise (number line (Stmt.elsePieces no)) no
  | none, _, line => by
    rw [Stmt.elsePieces]
    exact .none
  | some block, h, line => by
    have hpieces : Stmt.elsePieces (some block) = .space :: .mark .kwElse ::
        ([.space, .mark .lbrace] ++ Stmt.listPieces block ++ [.mark .rbrace]) := by
      rw [Stmt.elsePieces]
      rfl
    rw [hpieces, number_space, number_mark]
    exact .some rfl (derives_braced (Stmt.derives_list block h) _)

end

/-! ## The round trip -/

/-- The canonical text of a well-formed program parses back to it. -/
theorem parse_render {p : Program} (h : p.WellFormed) : Program.parse p.render = .ok p := by
  rw [parse_eq_ok_iff, Stream.ofSource, Stream.ofPieces, pieces_render h]
  exact Stmt.derives_list p h 1

/-- **Rendering and parsing are inverse on exactly the programs that can be parsed**: these are the
well-formed ones, the canonical text of each of them parses back to it, and so rendering what was
parsed and parsing that again changes nothing. -/
theorem parse_render_inverse (p : Program) :
    (p.WellFormed ↔ ∃ source, Program.parse source = .ok p) ∧
    (p.WellFormed → Program.parse p.render = .ok p) ∧
    ∀ source, Program.parse source = .ok p → Program.parse p.render = .ok p := by
  refine ⟨⟨fun h => ⟨p.render, parse_render h⟩, ?_⟩, parse_render, ?_⟩
  · rintro ⟨source, hsource⟩
    exact wellFormed_of_parse hsource
  · intro source hsource
    exact parse_render (wellFormed_of_parse hsource)

/-- A conditional as the callee and a call under a subscript keep their shape. -/
theorem parse_render_inverse_callee :
    ∃ p : Program,
      Program.parse "f(!x)[-1] if (a) \x7b b \x7d else \x7b\x7d (\x7b2: c,\x7d)" = .ok p ∧
      p.render = "(f((!x))[(-1)]);if (a) \x7bb;\x7d else \x7b\x7d(\x7b2: c\x7d);" ∧
      p.WellFormed ∧ Program.parse p.render = .ok p := by
  have hparse : Program.parse "f(!x)[-1] if (a) \x7b b \x7d else \x7b\x7d (\x7b2: c,\x7d)" = .ok
      [.expr (.index (.call (.ident "f") [.unary .not (.ident "x")]) (.unary .neg (.int 1))),
        .expr (.call (.cond (.ident "a") [.expr (.ident "b")] (some []))
          [.hash [(.int 2, .ident "c")]])] := by
    with_unfolding_all rfl
  have hwell := (parse_render_inverse _).1.2 ⟨_, hparse⟩
  have hback := (parse_render_inverse _).2.2 _ hparse
  exact ⟨_, hparse, by with_unfolding_all rfl, hwell, hback⟩

end TreeWalk

import TreeWalk.Proofs.Program.WellFormed
import TreeWalk.Proofs.Token.Joined

/-!
# Canonical texts are cut where they were joined

**No piece of the canonical text of a well-formed program runs into the next one**
(`Stmt.joined_list`), so cutting the text gives its pieces back (`pieces_render`).

An expression is taken together with the pieces behind it.  All it asks of them is that they do not
start with a character of a word, since it may end with a word or a number itself (`Follows`); in a
canonical text a bracket, a comma, a colon, a semicolon or a blank comes next.  In the other
direction an expression starts neither with a blank nor with `=` or `/` (`Expr.opening`), so the
blank, the `!` or the bracket in front of it stays apart.
-/

set_option autoImplicit false

namespace TreeWalk

open Token

/-! ## Names and numbers -/

/-- A name is read as an identifier. -/
theorem ofWord_of_isName {name : String} (h : IsName name) : Kind.ofWord name = .identifier := by
  have hnone : Kind.keywords.find? (fun k => k.text = name) = none := by
    refine List.find?_eq_none.2 fun k hk htext => ?_
    exact h.2 k hk (of_decide_eq_true htext).symm
  rw [Kind.ofWord, hnone, Option.getD_none]

theorem standsBefore_name {name : String} {rest : List Char} (h : IsName name)
    (hrest : Piece.FirstNot isWordChar rest) :
    (Piece.lexeme .identifier name).StandsBefore rest := by
  obtain ⟨c, cs, hname, hc, hcs⟩ := h.1
  have hword := Piece.standsBefore_word hname hc hcs hrest
  rwa [ofWord_of_isName h] at hword

/-- A literal that is not negative is written in decimal digits. -/
theorem toList_toString_of_nonneg {n : Int} (h : 0 ≤ n) :
    (toString n).toList = Nat.toDigits 10 n.toNat := by
  rw [Int.toString_eq_repr, Int.repr_eq_if, if_pos h, Nat.toList_repr]

theorem isDigit_of_mem_toString {n : Int} (h : 0 ≤ n) :
    ∀ c ∈ (toString n).toList, c.isDigit = true := by
  intro c hc
  rw [toList_toString_of_nonneg h] at hc
  exact Nat.isDigit_of_mem_toDigits (by decide) (by decide) hc

theorem toList_toString_ne_nil {n : Int} (h : 0 ≤ n) : (toString n).toList ≠ [] := by
  rw [toList_toString_of_nonneg h]
  exact Nat.toDigits_ne_nil

theorem Decimal.digit_digitChar {n : Nat} (h : n < 10) : Decimal.digit n.digitChar = n :=
  Nat.toNat_digitChar_sub_48_of_lt_ten h

/-- Decimal digits stand for the number that they were written for. -/
theorem Decimal.value_toDigits (n : Nat) : Decimal.value (Nat.toDigits 10 n) = n := by
  induction n using Nat.strongRecOn with
  | ind n ih =>
    by_cases hn : n < 10
    · rw [Nat.toDigits_of_lt_base hn]
      simp [Decimal.value, Decimal.digit_digitChar hn]
    · have hlt : n / 10 < n := Nat.div_lt_self (by omega) (by decide)
      rw [Nat.toDigits_of_base_le (by decide) (by omega), Decimal.value_append_singleton, ih _ hlt,
        Decimal.digit_digitChar (Nat.mod_lt n (by decide))]
      exact Nat.div_add_mod n 10

/-- A literal that is not negative is read back from its decimal text. -/
theorem Decimal.value_toString {n : Int} (h : 0 ≤ n) :
    (Decimal.value (toString n).toList : Int) = n := by
  rw [toList_toString_of_nonneg h, Decimal.value_toDigits, Int.toNat_of_nonneg h]

/-! ## How expressions start -/

/-- The characters that an expression can start with. -/
def isOpening (c : Char) : Bool :=
  isWordChar c || c = '"' || c = '(' || c = '[' || c = '\x7b'

theorem isSpace_of_isOpening {c : Char} (h : isOpening c = true) : isSpace c = false :=
  Piece.isSpace_eq_false h (by decide) (by decide) (by decide) (by decide)

theorem isSecond_of_isOpening {c : Char} (h : isOpening c = true) : Piece.isSecond c = false := by
  have heq : c ≠ '=' := Piece.ne_of_class h (by decide)
  have hslash : c ≠ '/' := Piece.ne_of_class h (by decide)
  simp [Piece.isSecond, heq, hslash]

theorem isOpening_of_isWordChar {c : Char} (h : isWordChar c = true) : isOpening c = true := by
  simp [isOpening, h]

theorem isWordChar_of_isWordStart {c : Char} (h : isWordStart c = true) : isWordChar c = true := by
  simp only [isWordStart, isWordChar, Char.isAlphanum, Bool.or_eq_true] at h ⊢
  exact h.imp_left .inl

theorem isOpening_of_isName {name : String} (h : IsName name) :
    ∃ c, (Piece.lexeme .identifier name).chars.head? = some c ∧ isOpening c = true := by
  obtain ⟨c, cs, hname, hc, -⟩ := h.1
  refine ⟨c, ?_, isOpening_of_isWordChar (isWordChar_of_isWordStart hc)⟩
  rw [Piece.chars_lexeme _ (by decide), hname, List.head?_cons]

theorem isOpening_of_nonneg {n : Int} (h : 0 ≤ n) :
    ∃ c, (Piece.lexeme .number (toString n)).chars.head? = some c ∧ isOpening c = true := by
  obtain ⟨c, cs, hcs⟩ := List.exists_cons_of_ne_nil (toList_toString_ne_nil h)
  have hdigit : c.isDigit = true := isDigit_of_mem_toString h c (hcs ▸ List.mem_cons_self)
  refine ⟨c, ?_, isOpening_of_isWordChar (Piece.isWordChar_of_isDigit hdigit)⟩
  rw [Piece.chars_lexeme _ (by decide), hcs, List.head?_cons]

/-- A well-formed expression starts with a character that no piece before it runs into. -/
theorem Expr.opening : (e : Expr) → e.WellFormed →
    ∃ q qs, e.pieces = q :: qs ∧ ∃ c, q.chars.head? = some c ∧ isOpening c = true
  | .ident name, h => ⟨_, _, by rw [Expr.pieces], isOpening_of_isName h⟩
  | .int value, h => ⟨_, _, by rw [Expr.pieces], isOpening_of_nonneg h.1⟩
  | .bool true, _ => ⟨_, _, by rw [Expr.pieces], 't', rfl, by decide⟩
  | .bool false, _ => ⟨_, _, by rw [Expr.pieces], 'f', rfl, by decide⟩
  | .str value, _ => ⟨_, _, by rw [Expr.pieces], '"', rfl, by decide⟩
  | .array items, _ => ⟨_, _, by rw [Expr.pieces], '[', rfl, by decide⟩
  | .hash entries, _ => ⟨_, _, by rw [Expr.pieces], '\x7b', rfl, by decide⟩
  | .unary op operand, _ => ⟨_, _, by rw [Expr.pieces], '(', rfl, by decide⟩
  | .binary op left right, _ => ⟨_, _, by rw [Expr.pieces], '(', rfl, by decide⟩
  | .index container position, _ => ⟨_, _, by rw [Expr.pieces], '(', rfl, by decide⟩
  | .cond test yes no, _ => ⟨_, _, by rw [Expr.pieces], 'i', rfl, by decide⟩
  | .func params body, _ => ⟨_, _, by rw [Expr.pieces], 'f', rfl, by decide⟩
  | .call callee args, h => by
    obtain ⟨q, qs, hqs, hq⟩ := callee.opening h.1
    refine ⟨q, qs ++ [.mark .lparen] ++ Expr.itemPieces args ++ [.mark .rparen], ?_, hq⟩
    rw [Expr.pieces, hqs]
    rfl

/-- What holds of no opening character does not hold of the first one of an expression. -/
theorem Expr.firstNot {p : Char → Bool} (hp : ∀ c, isOpening c = true → p c = false) (e : Expr)
    (h : e.WellFormed) (rest : List Piece) :
    Piece.FirstNot p ((e.pieces ++ rest).flatMap Piece.chars) := by
  obtain ⟨q, qs, hqs, c, hq, hc⟩ := e.opening h
  rw [hqs, List.cons_append]
  exact Piece.firstNot_cons hq (hp c hc) (qs ++ rest)

theorem Expr.joined_space {e : Expr} (h : e.WellFormed) {rest : List Piece}
    (hjoined : Joined (e.pieces ++ rest)) : Joined (.space :: (e.pieces ++ rest)) :=
  Token.joined_space (e.firstNot (fun _ => isSpace_of_isOpening) h rest) hjoined

/-! ## The pieces of a canonical text are joined -/

/-- The pieces can follow an expression. -/
structure Follows (rest : List Piece) : Prop where
  joined : Joined rest
  stop : Piece.FirstNot isWordChar (rest.flatMap Piece.chars)

/-- A symbol can follow an expression, since it is no character of a word. -/
theorem follows_firm {k : Kind} {rest : List Piece} (hk : k ∈ Piece.firm) (h : Joined rest) :
    Follows (.mark k :: rest) := by
  have hfirm : ∀ k ∈ Piece.firm,
      (Piece.mark k).chars.head? = some k.first ∧ isWordChar k.first = false := by
    decide
  obtain ⟨hhead, hc⟩ := hfirm k hk
  exact ⟨joined_firm hk h, Piece.firstNot_cons hhead hc rest⟩

theorem follows_space {rest : List Piece} (h : Joined (.space :: rest)) :
    Follows (.space :: rest) :=
  ⟨h, Piece.firstNot_cons rfl rfl rest⟩

/-- A binary operator stands between blanks. -/
theorem joined_operator (op : BinaryOp) {rest : List Piece} (h : Joined (.space :: rest)) :
    Joined (.space :: .mark op.kind :: .space :: rest) := by
  have hsecond : Piece.FirstNot Piece.isSecond ((Piece.space :: rest).flatMap Piece.chars) :=
    Piece.firstNot_cons rfl rfl rest
  have hmark : Joined (.mark op.kind :: .space :: rest) := by
    cases op
    case div | lt | gt => exact joined_loose (by decide) hsecond h
    all_goals exact joined_firm (by decide) h
  refine Token.joined_space ?_ hmark
  cases op <;> exact Piece.firstNot_cons rfl rfl _

/-- A unary operator stands directly before its operand. -/
theorem joined_unary (op : UnaryOp) {e : Expr} (h : e.WellFormed) {rest : List Piece}
    (hjoined : Joined (e.pieces ++ rest)) : Joined (.mark op.kind :: (e.pieces ++ rest)) := by
  cases op with
  | neg => exact joined_firm (by decide) hjoined
  | not =>
    exact joined_loose (by decide) (e.firstNot (fun _ => isSecond_of_isOpening) h rest) hjoined

/-- A block stands behind a blank. -/
theorem joined_brace {ps : List Piece} (h : Joined ps) : Joined (.space :: .mark .lbrace :: ps) :=
  Token.joined_space (Piece.firstNot_cons rfl rfl ps) (joined_firm (by decide) h)

theorem joined_name {name : String} (h : IsName name) {rest : List Piece} (hrest : Follows rest) :
    Joined (.lexeme .identifier name :: rest) :=
  ⟨standsBefore_name h hrest.stop, hrest.joined⟩

theorem joined_space_name {name : String} (h : IsName name) {rest : List Piece}
    (hrest : Follows rest) : Joined (.space :: .lexeme .identifier name :: rest) := by
  obtain ⟨c, hhead, hc⟩ := isOpening_of_isName h
  exact Token.joined_space (Piece.firstNot_cons hhead (isSpace_of_isOpening hc) rest)
    (joined_name h hrest)

theorem joined_moreParams {ps : List String} (h : ∀ p ∈ ps, IsName p) {rest : List Piece}
    (hrest : Follows rest) :
    Follows ((ps.flatMap fun q => commaPieces ++ [Piece.lexeme .identifier q]) ++ rest) := by
  induction ps with
  | nil => exact hrest
  | cons p ps ih =>
    rw [List.forall_mem_cons] at h
    have hmore := ih h.2
    rw [List.flatMap_cons, List.append_assoc]
    exact follows_firm (by decide) (joined_space_name h.1 hmore)

/-- Parameters can be joined to whatever can follow an expression. -/
theorem joined_params {ps : List String} (h : ∀ p ∈ ps, IsName p) {rest : List Piece}
    (hrest : Follows rest) : Joined (paramPieces ps ++ rest) := by
  cases ps with
  | nil => exact hrest.joined
  | cons p ps =>
    rw [List.forall_mem_cons] at h
    exact joined_name h.1 (joined_moreParams h.2 hrest)

mutual

/-- **An expression can be joined to whatever can follow it.** -/
theorem Expr.joined : (e : Expr) → e.WellFormed → {rest : List Piece} → Follows rest →
    Joined (e.pieces ++ rest)
  | .ident name, h, rest, hrest => by
    rw [Expr.pieces]
    exact joined_name h hrest
  | .int value, h, rest, hrest => by
    rw [Expr.pieces]
    exact ⟨Piece.standsBefore_number (toList_toString_ne_nil h.1) (isDigit_of_mem_toString h.1)
      hrest.stop, hrest.joined⟩
  | .bool true, _, rest, hrest => by
    rw [Expr.pieces]
    exact joined_keyword (by decide) hrest.stop hrest.joined
  | .bool false, _, rest, hrest => by
    rw [Expr.pieces]
    exact joined_keyword (by decide) hrest.stop hrest.joined
  | .str value, h, rest, hrest => by
    rw [Expr.pieces]
    exact ⟨Piece.standsBefore_string _ h, hrest.joined⟩
  | .array items, h, rest, hrest => by
    rw [Expr.pieces, List.cons_append, List.append_assoc]
    exact joined_firm (by decide)
      (Expr.joined_items items h (follows_firm (by decide) hrest.joined))
  | .hash entries, h, rest, hrest => by
    rw [Expr.pieces, List.cons_append, List.append_assoc]
    exact joined_firm (by decide)
      (Expr.joined_entries entries h (follows_firm (by decide) hrest.joined))
  | .unary op operand, h, rest, hrest => by
    have hoperand := operand.joined h (follows_firm (k := .rparen) (by decide) hrest.joined)
    rw [Expr.pieces, List.cons_append, List.cons_append, List.append_assoc]
    exact joined_firm (by decide) (joined_unary op (e := operand) h hoperand)
  | .binary op left right, h, rest, hrest => by
    -- From the right: each part needs to know what stands behind it.
    have hright := right.joined h.2 (follows_firm (k := .rparen) (by decide) hrest.joined)
    have hop := joined_operator op (Expr.joined_space h.2 hright)
    have hleft := left.joined h.1 (follows_space hop)
    rw [Expr.pieces]
    simp only [List.append_assoc, List.cons_append, List.nil_append]
    exact joined_firm (by decide) hleft
  | .index container position, h, rest, hrest => by
    have hclose : Joined (.mark .rparen :: rest) := joined_firm (by decide) hrest.joined
    have hposition := position.joined h.2 (follows_firm (k := .rbracket) (by decide) hclose)
    have hcontainer := container.joined h.1 (follows_firm (k := .lbracket) (by decide) hposition)
    rw [Expr.pieces]
    simp only [List.append_assoc, List.cons_append, List.nil_append]
    exact joined_firm (by decide) hcontainer
  | .cond test yes no, h, rest, hrest => by
    have hno := Stmt.joined_else no h.2.2 hrest.joined
    have hyes := Stmt.joined_list yes h.2.1 (joined_firm (k := .rbrace) (by decide) hno)
    have htest := test.joined h.1 (follows_firm (k := .rparen) (by decide) (joined_brace hyes))
    have hopen : Joined (.space :: .mark .lparen :: _) :=
      Token.joined_space (Piece.firstNot_cons rfl rfl _) (joined_firm (by decide) htest)
    rw [Expr.pieces]
    simp only [List.append_assoc, List.cons_append, List.nil_append]
    exact joined_keyword (by decide) (Piece.firstNot_cons rfl rfl _) hopen
  | .func params body, h, rest, hrest => by
    have hbody := Stmt.joined_list body h.2 (joined_firm (k := .rbrace) (by decide) hrest.joined)
    have hparams := joined_params h.1 (follows_firm (k := .rparen) (by decide) (joined_brace hbody))
    rw [Expr.pieces]
    simp only [List.append_assoc, List.cons_append, List.nil_append]
    exact joined_keyword (by decide) (Piece.firstNot_cons rfl rfl _)
      (joined_firm (by decide) hparams)
  | .call callee args, h, rest, hrest => by
    have hargs := Expr.joined_items args h.2 (follows_firm (k := .rparen) (by decide) hrest.joined)
    have hcallee := callee.joined h.1 (follows_firm (k := .lparen) (by decide) hargs)
    rw [Expr.pieces]
    simp only [List.append_assoc, List.cons_append, List.nil_append]
    exact hcallee

/-- A list of items can be joined to whatever can follow an expression. -/
theorem Expr.joined_items : (es : List Expr) → Expr.AllWellFormed es → {rest : List Piece} →
    Follows rest → Joined (Expr.itemPieces es ++ rest)
  | [], _, rest, hrest => by
    rw [Expr.itemPieces]
    exact hrest.joined
  | e :: es, h, rest, hrest => by
    rw [Expr.itemPieces, List.append_assoc]
    exact e.joined h.1 (Expr.follows_moreItems es h.2 hrest)

/-- A comma with further items can follow an expression itself. -/
theorem Expr.follows_moreItems : (es : List Expr) → Expr.AllWellFormed es → {rest : List Piece} →
    Follows rest → Follows (Expr.moreItemPieces es ++ rest)
  | [], _, rest, hrest => by
    rw [Expr.moreItemPieces]
    exact hrest
  | e :: es, h, rest, hrest => by
    have hitem := e.joined h.1 (Expr.follows_moreItems es h.2 hrest)
    rw [Expr.moreItemPieces, List.append_assoc, List.append_assoc]
    exact follows_firm (by decide) (Expr.joined_space h.1 hitem)

/-- The entries of a hash can be joined to whatever can follow an expression. -/
theorem Expr.joined_entries : (es : List (Expr × Expr)) → Expr.EntriesWellFormed es →
    {rest : List Piece} → Follows rest → Joined (Expr.entryPieces es ++ rest)
  | [], _, rest, hrest => by
    rw [Expr.entryPieces]
    exact hrest.joined
  | (k, v) :: es, h, rest, hrest => by
    have hvalue := v.joined h.2.1 (Expr.follows_moreEntries es h.2.2 hrest)
    have hcolon := follows_firm (k := .colon) (by decide) (Expr.joined_space h.2.1 hvalue)
    rw [Expr.entryPieces]
    simp only [List.append_assoc, List.cons_append, List.nil_append]
    exact k.joined h.1 hcolon

/-- A comma with further entries can follow an expression itself. -/
theorem Expr.follows_moreEntries : (es : List (Expr × Expr)) → Expr.EntriesWellFormed es →
    {rest : List Piece} → Follows rest → Follows (Expr.moreEntryPieces es ++ rest)
  | [], _, rest, hrest => by
    rw [Expr.moreEntryPieces]
    exact hrest
  | (k, v) :: es, h, rest, hrest => by
    have hvalue := v.joined h.2.1 (Expr.follows_moreEntries es h.2.2 hrest)
    have hcolon := follows_firm (k := .colon) (by decide) (Expr.joined_space h.2.1 hvalue)
    have hkey := k.joined h.1 hcolon
    rw [Expr.moreEntryPieces]
    simp only [List.append_assoc, List.cons_append, List.nil_append]
    exact follows_firm (by decide) (Expr.joined_space h.1 hkey)

/-- A statement ends with its semicolon, so it can be joined to anything. -/
theorem Stmt.joined : (s : Stmt) → s.WellFormed → {rest : List Piece} → Joined rest →
    Joined (s.pieces ++ rest)
  | .bind name value, h, rest, hrest => by
    have hvalue := value.joined h.2 (follows_firm (k := .semicolon) (by decide) hrest)
    have hspace := Expr.joined_space h.2 hvalue
    have hassign : Joined (.space :: .mark .assign :: .space :: _) :=
      Token.joined_space (Piece.firstNot_cons rfl rfl _)
        (joined_loose (by decide) (Piece.firstNot_cons rfl rfl _) hspace)
    have hname := joined_space_name h.1 (follows_space hassign)
    rw [Stmt.pieces]
    simp only [List.append_assoc, List.cons_append, List.nil_append]
    exact joined_keyword (by decide) (Piece.firstNot_cons rfl rfl _) hname
  | .ret value, h, rest, hrest => by
    have hvalue := value.joined h (follows_firm (k := .semicolon) (by decide) hrest)
    rw [Stmt.pieces]
    simp only [List.append_assoc, List.cons_append, List.nil_append]
    exact joined_keyword (by decide) (Piece.firstNot_cons rfl rfl _) (Expr.joined_space h hvalue)
  | .expr value, h, rest, hrest => by
    rw [Stmt.pieces, List.append_assoc]
    exact value.joined h (follows_firm (by decide) hrest)

/-- **Statements can be joined to anything.** -/
theorem Stmt.joined_list : (ss : List Stmt) → Stmt.AllWellFormed ss → {rest : List Piece} →
    Joined rest → Joined (Stmt.listPieces ss ++ rest)
  | [], _, rest, hrest => by
    rw [Stmt.listPieces]
    exact hrest
  | s :: ss, h, rest, hrest => by
    rw [Stmt.listPieces, List.append_assoc]
    exact s.joined h.1 (Stmt.joined_list ss h.2 hrest)

/-- The second block, or nothing at all, can be joined to anything. -/
theorem Stmt.joined_else : (no : Option (List Stmt)) → Stmt.ElseWellFormed no →
    {rest : List Piece} → Joined rest → Joined (Stmt.elsePieces no ++ rest)
  | none, _, rest, hrest => by
    rw [Stmt.elsePieces]
    exact hrest
  | some block, h, rest, hrest => by
    have hblock := Stmt.joined_list block h (joined_firm (k := .rbrace) (by decide) hrest)
    have helse : Joined (.mark .kwElse :: .space :: .mark .lbrace :: _) :=
      joined_keyword (by decide) (Piece.firstNot_cons rfl rfl _) (joined_brace hblock)
    rw [Stmt.elsePieces]
    simp only [List.append_assoc, List.cons_append, List.nil_append]
    exact Token.joined_space (Piece.firstNot_cons rfl rfl _) helse

end

/-- **Cutting a canonical text gives its pieces back.** -/
theorem pieces_render {p : Program} (h : p.WellFormed) :
    pieces p.render.toList = Stmt.listPieces p := by
  have hjoined : Joined (Stmt.listPieces p ++ []) := Stmt.joined_list p h trivial
  rw [List.append_nil] at hjoined
  rw [Program.render, Piece.written, String.toList_ofList, pieces_flatMap hjoined]

end TreeWalk

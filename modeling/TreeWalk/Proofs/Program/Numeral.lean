import Mathlib.Data.List.Induction
import Mathlib.Data.Nat.Digits.Defs
import TreeWalk.Proofs.Program.Arithmetic
import TreeWalk.Proofs.Program.ValidPrefix

/-!
# Integer literals

A text of decimal digits, however long and with however many zeros in front, is one number token.
As a program it is the integer that the digits stand for, each by its place, as long as 64 bits can
represent it, and an error that repeats the digits otherwise (`integer_literal_exact`).  What
decides is the number and not the length of the text.

The canonical text of the integer is the same digits without the zeros in front
(`Decimal.toDigits_value`), and is read as the same program.
-/

set_option autoImplicit false

namespace TreeWalk

open TreeWalk.Parser (Routine)
open Token (Kind Piece Stream)

/-! ## The number that digits stand for -/

namespace Decimal

/-- The number that digits stand for: each digit counts by the power of ten of its place, and the
last place is that of the ones. -/
def byPlace (ds : List Char) : Nat := Nat.ofDigits 10 (ds.map digit).reverse

/-- The digits without the zeros in front; a zero stays if there is nothing else. -/
def canonical (ds : List Char) : List Char :=
  if ds.dropWhile (· = '0') = [] then ['0'] else ds.dropWhile (· = '0')

/-- Reading digits from the left counts each of them by its place. -/
theorem value_eq_byPlace (ds : List Char) : value ds = byPlace ds := by
  induction ds using List.reverseRecOn with
  | nil => simp [value, byPlace]
  | append_singleton ds d ih =>
    rw [value_append_singleton, ih, byPlace, byPlace]
    simp [Nat.ofDigits_cons, Nat.add_comm]

/-- Zeros in front mean nothing. -/
theorem value_dropWhile_zero (ds : List Char) : value (ds.dropWhile (· = '0')) = value ds := by
  induction ds with
  | nil => rfl
  | cons d ds ih =>
    by_cases hd : d = '0'
    · subst hd
      rw [List.dropWhile_cons_of_pos (by decide), ih]
      rfl
    · rw [List.dropWhile_cons_of_neg (by simpa using hd)]

theorem digit_lt_ten {d : Char} (hd : d.isDigit = true) : digit d < 10 := by
  obtain ⟨-, hhi⟩ := Char.isDigit_iff_toNat.1 hd
  simp only [digit, Char.reduceToNat] at hhi ⊢
  omega

theorem digitChar_digit {d : Char} (hd : d.isDigit = true) : (digit d).digitChar = d := by
  obtain ⟨hlo, -⟩ := Char.isDigit_iff_toNat.1 hd
  refine Char.toNat_inj.1 ?_
  rw [Nat.toNat_digitChar_of_lt_ten (digit_lt_ten hd)]
  simp only [digit, Char.reduceToNat] at hlo ⊢
  omega

/-- Digits behind a number that is not zero are written behind its own digits. -/
theorem toDigits_foldl {ds : List Char} (hds : ∀ d ∈ ds, d.isDigit = true) {n : Nat} (hn : 0 < n) :
    Nat.toDigits 10 (ds.foldl (fun n d => 10 * n + digit d) n) = Nat.toDigits 10 n ++ ds := by
  induction ds generalizing n with
  | nil => simp
  | cons d ds ih =>
    have hd : d.isDigit = true := hds d List.mem_cons_self
    have hlast : Nat.toDigits 10 (10 * n + digit d) = Nat.toDigits 10 n ++ [d] := by
      rw [← Nat.toDigits_append_toDigits (by decide) hn (digit_lt_ten hd),
        Nat.toDigits_of_lt_base (digit_lt_ten hd), digitChar_digit hd]
    rw [List.foldl_cons, ih (fun c hc => hds c (List.mem_cons_of_mem d hc)) (by omega), hlast,
      List.append_assoc]
    rfl

/-- **The number that digits stand for is written with the same digits**, without the zeros in
front. -/
theorem toDigits_value {ds : List Char} (hds : ∀ d ∈ ds, d.isDigit = true) :
    Nat.toDigits 10 (value ds) = canonical ds := by
  rw [← value_dropWhile_zero, canonical]
  rcases hdrop : ds.dropWhile (· = '0') with _ | ⟨d, rest⟩
  · rfl
  -- The first digit that is left is not zero, so no zero behind it gets lost.
  have hrest : ∀ c ∈ d :: rest, c.isDigit = true := fun c hc =>
    hds c ((List.dropWhile_sublist (· = '0')).subset (hdrop ▸ hc))
  have hd : d.isDigit = true := hrest d List.mem_cons_self
  have hzero : d ≠ '0' := by
    have hhead := List.head?_dropWhile_not (· = '0') ds
    rw [hdrop] at hhead
    simpa using hhead
  have hpos : 0 < digit d := by
    refine Nat.pos_of_ne_zero fun h => hzero ?_
    rw [← digitChar_digit hd, h]
    rfl
  rw [if_neg (List.cons_ne_nil d rest), value, List.foldl_cons, Nat.mul_zero, Nat.zero_add,
    toDigits_foldl (fun c hc => hrest c (List.mem_cons_of_mem d hc)) hpos,
    Nat.toDigits_of_lt_base (digit_lt_ten hd), digitChar_digit hd]
  rfl

end Decimal

/-! ## Digits as a source -/

section Source

variable {d : String}

/-- Digits are one token. -/
theorem ofSource_digits (hne : d ≠ "") (hdigits : ∀ c ∈ d.toList, c.isDigit = true) :
    Stream.ofSource d = ⟨[⟨.number, d, 1⟩], 1⟩ := by
  have hstands : (Piece.lexeme .number d).StandsBefore [] :=
    Piece.standsBefore_number (by simpa using hne) hdigits (by simp [Piece.FirstNot])
  have hpieces : Token.pieces d.toList = [.lexeme .number d] := by
    have hcut : Token.pieces ([Piece.lexeme .number d].flatMap Piece.chars) = _ :=
      Token.pieces_flatMap ⟨hstands, trivial⟩
    simpa [Piece.chars] using hcut
  have hlines : (Piece.lexeme .number d).newlines = 0 := by
    refine List.count_eq_zero.2 fun hmem => ?_
    exact Piece.ne_of_class (hdigits _ hmem) (by decide) rfl
  rw [Stream.ofSource, hpieces, Stream.ofPieces, Token.lineAfter, List.foldl_cons, hlines]
  rfl

/-- Digits that stand for a number in range are the program of that number. -/
theorem parse_digits (hne : d ≠ "") (hdigits : ∀ c ∈ d.toList, c.isDigit = true) {n : Int64}
    (hn : n.toInt = Decimal.value d.toList) : Program.parse d = .ok [.expr (.int n)] := by
  rw [Grammar.parse_eq_ok_iff, ofSource_digits hne hdigits]
  exact statements_single (.number rfl hn)

/-- A program fails at its first token if that is where an operand fails. -/
theorem program_error_of_operand {last : Nat} {t : Token} {ts : List Token} {e : ParseError}
    (hvar : t.kind ≠ .kwVar) (hret : t.kind ≠ .kwReturn)
    (h : Routine.operand last (t :: ts) = .error e) :
    Parser.program last (t :: ts) = .error e := by
  have hexpr : Routine.expr .lowest last (t :: ts) = .error e := by
    rw [Routine.expr_eq]
    exact Routine.bind_of_error h
  have hstmt : Routine.stmt last (t :: ts) = .error e := by
    rw [Routine.stmt_eq, Routine.ifNext, if_neg hvar, Routine.ifNext, if_neg hret]
    exact Routine.bind_of_error hexpr
  rw [program_eq_error_iff, Routine.program_cons]
  exact Routine.bind_of_error hstmt

/-- Digits that stand for a number out of range are an error, which repeats them. -/
theorem parse_digits_of_lt (hne : d ≠ "") (hdigits : ∀ c ∈ d.toList, c.isDigit = true)
    (hlt : 2 ^ 63 - 1 < Decimal.value d.toList) :
    Program.parse d = .error (.integerTooLarge d 1) := by
  have hnone : Decimal.int64? d = none := by
    refine Checked.fit?_of_not_inRange fun hrange => ?_
    have hhi := hrange.2
    omega
  have hoperand : Routine.operand 1 [⟨.number, d, 1⟩] = .error (.integerTooLarge d 1) := by
    simp [Routine.operand_cons, Parser.opening?, Routine.opened, hnone]
  rw [Program.parse, ofSource_digits hne hdigits]
  exact program_error_of_operand (by simp) (by simp) hoperand

end Source

/-! ## Integers as texts -/

/-- An integer literal is written as its decimal text. -/
theorem Expr.render_int (n : Int64) : (Expr.int n).render = toString n.toInt := by
  simp [Expr.render, Expr.pieces, Piece.written, Piece.chars]

/-- A program of one expression is written as that expression, and a semicolon. -/
theorem Program.render_single (e : Expr) : Program.render [.expr e] = e.render ++ ";" := by
  simp [Program.render, Expr.render, Stmt.listPieces, Stmt.pieces, Piece.written, Piece.mark,
    Piece.chars, Kind.text]

/-- **Integer literals are read exactly.**  Digits are one number token.  If the number that they
stand for is at most `2 ^ 63 - 1`, they are the program of that number, whose text is the digits
without the zeros in front and is read as the same program; otherwise they are an error that repeats
them as they are. -/
theorem integer_literal_exact (d : String) (hne : d ≠ "")
    (hdigits : ∀ c ∈ d.toList, c.isDigit = true) :
    Stream.ofSource d = ⟨[⟨.number, d, 1⟩], 1⟩ ∧
    (Decimal.byPlace d.toList ≤ 2 ^ 63 - 1 →
      ∃ n : Int64, n.toInt = Decimal.byPlace d.toList ∧
        Program.parse d = .ok [.expr (.int n)] ∧
        (Expr.int n).render = toString (Decimal.byPlace d.toList) ∧
        (Expr.int n).render = String.ofList (Decimal.canonical d.toList) ∧
        Program.render [.expr (.int n)] = (Expr.int n).render ++ ";" ∧
        Program.parse (Expr.int n).render = .ok [.expr (.int n)] ∧
        Program.parse (Program.render [.expr (.int n)]) = .ok [.expr (.int n)]) ∧
    (2 ^ 63 - 1 < Decimal.byPlace d.toList →
      Program.parse d = .error (.integerTooLarge d 1)) := by
  rw [← Decimal.value_eq_byPlace]
  refine ⟨ofSource_digits hne hdigits, fun hle => ?_, parse_digits_of_lt hne hdigits⟩
  obtain ⟨n, hn⟩ : ∃ n : Int64, n.toInt = Decimal.value d.toList :=
    ⟨_, toInt_ofInt ⟨by omega, by omega⟩⟩
  have hwell : (Expr.int n).WellFormed := by
    refine ⟨?_, ?_⟩ <;> omega
  have htext : (Expr.int n).render = toString (Decimal.value d.toList) := by
    rw [Expr.render_int, hn]
    rfl
  have hcanonical : (Expr.int n).render = String.ofList (Decimal.canonical d.toList) := by
    rw [htext, Nat.toString_eq_ofList_toDigits, Decimal.toDigits_value hdigits]
  exact ⟨n, hn, parse_digits hne hdigits hn, htext, hcanonical, Program.render_single _,
    Expr.parse_render hwell, parse_render ⟨hwell, trivial⟩⟩

/-- Zeros in front of the largest literal change nothing, and the next number is too large. -/
theorem integer_literal_exact_largest :
    (∃ n : Int64, n.toInt = 2 ^ 63 - 1 ∧
      Program.parse "0009223372036854775807" = .ok [.expr (.int n)] ∧
      (Expr.int n).render = "9223372036854775807" ∧
      Program.parse "9223372036854775807" = .ok [.expr (.int n)]) ∧
    Program.parse "0009223372036854775808" =
      .error (.integerTooLarge "0009223372036854775808" 1) := by
  obtain ⟨-, hfits, -⟩ := integer_literal_exact "0009223372036854775807" (by decide)
    (List.all_eq_true.1 (by decide))
  obtain ⟨-, -, hlarge⟩ := integer_literal_exact "0009223372036854775808" (by decide)
    (List.all_eq_true.1 (by decide))
  refine ⟨?_, hlarge (by decide)⟩
  obtain ⟨n, hn, hparse, -, htext, -, hback, -⟩ := hfits (by decide)
  have hrender : (Expr.int n).render = "9223372036854775807" := htext
  rw [hrender] at hback
  exact ⟨n, hn, hparse, hrender, hback⟩

end TreeWalk

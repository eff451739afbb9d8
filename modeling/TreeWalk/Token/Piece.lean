import TreeWalk.Token.Basic

/-!
# Cutting a source into pieces

A source text is a sequence of **pieces**: the lexemes that become tokens, and the gaps between
them, which are runs of blanks, line ends and comments.  `pieces` cuts a text, always taking the
longest piece that some rule allows, and loses nothing: `flatMap_chars_pieces` says that the
pieces, written one after the other, are the text again.

What no rule allows is a piece of its own and becomes an illegal token: a single character, or,
where a quote is never closed, everything from that quote on.
-/

set_option autoImplicit false

namespace TreeWalk.Token

/-- The blanks inside a line.  No other character is skipped as white space. -/
def isSpace (c : Char) : Bool := c = ' ' || c = '\t' || c = '\r' || c = '\x0c'

/-- The first character of a word: a letter or an underscore, of ASCII only. -/
def isWordStart (c : Char) : Bool := c.isAlpha || c = '_'

/-- The further characters of a word: a letter, a digit or an underscore, of ASCII only. -/
def isWordChar (c : Char) : Bool := c.isAlphanum || c = '_'

/-- A piece of a source text. -/
inductive Piece
  /-- Text that separates tokens and has no other meaning. -/
  | gap (text : String)
  /-- Text that makes one token. -/
  | lexeme (kind : Kind) (literal : String)
  deriving DecidableEq, Repr

namespace Piece

/-- The characters of a piece as they stand in the source: a string gets its quotes back. -/
def chars : Piece → List Char
  | gap text => text.toList
  | lexeme .string literal => '"' :: (literal.toList ++ ['"'])
  | lexeme _ literal => literal.toList

/-- A lexeme that is written as its kind's own text: a symbol or a keyword. -/
def mark (kind : Kind) : Piece := lexeme kind kind.text

/-- One blank. -/
def space : Piece := gap " "

/-- By how many lines a piece moves the line counter on.  An illegal piece never moves it, even
if it is an unclosed string that runs over several lines. -/
def newlines : Piece → Nat
  | lexeme .illegal _ => 0
  | p => p.chars.count '\n'

/-- The piece at the head of `c :: cs` that starts with a symbol.  A symbol of two characters is
preferred to one of one; a character that starts no symbol is an illegal piece. -/
def readSymbol (c : Char) (cs : List Char) : Piece × List Char :=
  match cs.head?.bind (Kind.ofPair? c) with
  | some kind => (mark kind, cs.tail)
  | none =>
    match Kind.ofChar? c with
    | some kind => (mark kind, cs)
    | none => (lexeme .illegal c.toString, cs)

/-- The piece that starts with a quote: a string up to the next quote, or, if there is none, all
that is left, as an illegal piece. -/
def readQuoted (cs : List Char) : Piece × List Char :=
  match cs.dropWhile (· ≠ '"') with
  | _ :: rest => (lexeme .string (String.ofList (cs.takeWhile (· ≠ '"'))), rest)
  | [] => (lexeme .illegal (String.ofList ('"' :: cs)), [])

/-- The piece at the head of `c :: cs`, and what follows it. -/
def read (c : Char) (cs : List Char) : Piece × List Char :=
  if c = '\n' then
    (gap "\n", cs)
  else if isSpace c then
    (gap (String.ofList (c :: cs.takeWhile isSpace)), cs.dropWhile isSpace)
  else if c = '/' && cs.head? = some '/' then
    (gap (String.ofList (c :: cs.takeWhile (· ≠ '\n'))), cs.dropWhile (· ≠ '\n'))
  else if isWordStart c then
    let word := String.ofList (c :: cs.takeWhile isWordChar)
    (lexeme (Kind.ofWord word) word, cs.dropWhile isWordChar)
  else if c.isDigit then
    (lexeme .number (String.ofList (c :: cs.takeWhile Char.isDigit)), cs.dropWhile Char.isDigit)
  else if c = '"' then
    readQuoted cs
  else
    readSymbol c cs

/-! ## What reading keeps -/

/-- Only a string is written otherwise than by its literal. -/
theorem chars_lexeme {kind : Kind} (literal : String) (h : kind ≠ .string) :
    (lexeme kind literal).chars = literal.toList := by
  unfold chars
  split
  · rename_i heq; cases heq
  · rename_i heq; cases heq; exact absurd rfl h
  · rename_i heq; cases heq; rfl

/-- A symbol is cut off without loss. -/
theorem chars_readSymbol (c : Char) (cs : List Char) :
    (readSymbol c cs).1.chars ++ (readSymbol c cs).2 = c :: cs := by
  unfold readSymbol
  split
  · rename_i kind h
    obtain ⟨d, hd, hk⟩ := Option.bind_eq_some_iff.1 h
    obtain ⟨rest, rfl⟩ := List.head?_eq_some_iff.1 hd
    simp [mark, chars_lexeme _ (Kind.ne_string_of_ofPair? hk), Kind.text_of_ofPair? hk]
  · split
    · rename_i kind hk
      simp [mark, chars_lexeme _ (Kind.ne_string_of_ofChar? hk), Kind.text_of_ofChar? hk]
    · simp [chars]

/-- A quoted string is cut off without loss. -/
theorem chars_readQuoted (cs : List Char) :
    (readQuoted cs).1.chars ++ (readQuoted cs).2 = '"' :: cs := by
  have split_at := List.takeWhile_append_dropWhile (p := (· ≠ '"')) (l := cs)
  have stop := List.head?_dropWhile_not (· ≠ '"') cs
  unfold readQuoted
  split
  · rename_i d rest h
    rw [h] at stop split_at
    have hd : d = '"' := by simpa using stop
    rw [hd] at split_at
    simpa [chars] using split_at
  · simp [chars]

/-- **Reading loses nothing**: the piece and what follows it make up the text. -/
theorem chars_read (c : Char) (cs : List Char) :
    (read c cs).1.chars ++ (read c cs).2 = c :: cs := by
  unfold read
  split
  · rename_i h; simp [chars, h]
  split
  · simp [chars]
  split
  · simp [chars]
  split
  · simp [chars_lexeme _ (Kind.ofWord_ne_string _)]
  split
  · simp [chars]
  split
  · rename_i h; rw [h]; exact chars_readQuoted cs
  · exact chars_readSymbol c cs

/-- No piece is empty. -/
theorem chars_read_ne_nil (c : Char) (cs : List Char) : (read c cs).1.chars ≠ [] := by
  unfold read
  split
  · simp [chars]
  split
  · simp [chars]
  split
  · simp [chars]
  split
  · simp [chars_lexeme _ (Kind.ofWord_ne_string _)]
  split
  · simp [chars]
  split
  · unfold readQuoted
    split <;> simp [chars]
  · unfold readSymbol
    split
    · rename_i kind h
      obtain ⟨d, _, hk⟩ := Option.bind_eq_some_iff.1 h
      simp [mark, chars_lexeme _ (Kind.ne_string_of_ofPair? hk), Kind.text_of_ofPair? hk]
    · split
      · rename_i kind hk
        simp [mark, chars_lexeme _ (Kind.ne_string_of_ofChar? hk), Kind.text_of_ofChar? hk]
      · simp [chars]

/-- Reading takes at least one character. -/
theorem length_read (c : Char) (cs : List Char) : (read c cs).2.length ≤ cs.length := by
  have h := congrArg List.length (chars_read c cs)
  have := List.length_pos_iff.2 (chars_read_ne_nil c cs)
  simp at h
  omega

/-- The text that pieces make up. -/
def written (ps : List Piece) : String := String.ofList (ps.flatMap chars)

end Piece

/-- The pieces of a text, in order. -/
def pieces : List Char → List Piece
  | [] => []
  | c :: cs =>
    have := Piece.length_read c cs
    (Piece.read c cs).1 :: pieces (Piece.read c cs).2
termination_by cs => cs.length

@[simp] theorem pieces_nil : pieces [] = [] := by rw [pieces]

theorem pieces_cons (c : Char) (cs : List Char) :
    pieces (c :: cs) = (Piece.read c cs).1 :: pieces (Piece.read c cs).2 := by rw [pieces]

/-- **Cutting loses nothing**: the pieces, one after the other, are the text. -/
theorem flatMap_chars_pieces (cs : List Char) : (pieces cs).flatMap Piece.chars = cs := by
  induction cs using pieces.induct with
  | case1 => simp
  | case2 c cs _ ih => rw [pieces_cons, List.flatMap_cons, ih, Piece.chars_read]

end TreeWalk.Token

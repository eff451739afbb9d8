import TreeWalk.Token.Piece

/-!
# The tokens of a source

`Stream.ofSource` reads a whole source text: its lexemes become tokens, each with the line on which
it starts, and the gaps between them are dropped.  Lines are counted from one.

The end of the source is not a token of the list; `Stream.eof` is the token that stands for it
wherever the end is reported, as often as it is asked for.
-/

set_option autoImplicit false

namespace TreeWalk.Token

/-- The tokens of a source, and the line on which it ends. -/
structure Stream where
  tokens : List Token
  lastLine : Nat
  deriving DecidableEq, Repr

/-- The lexemes among the pieces, as tokens; the first piece starts on the given line. -/
def number (line : Nat) : List Piece → List Token
  | [] => []
  | .gap text :: rest => number (line + (Piece.gap text).newlines) rest
  | .lexeme kind literal :: rest =>
    ⟨kind, literal, line⟩ :: number (line + (Piece.lexeme kind literal).newlines) rest

/-- The line on which the pieces end; the first one starts on the given line. -/
def lineAfter (line : Nat) (ps : List Piece) : Nat := ps.foldl (fun l p => l + p.newlines) line

namespace Stream

/-- The tokens of a source that is already cut into pieces. -/
def ofPieces (ps : List Piece) : Stream := ⟨number 1 ps, lineAfter 1 ps⟩

/-- The tokens of a source text. -/
def ofSource (source : String) : Stream := ofPieces (pieces source.toList)

/-- The token that stands for the end of the source. -/
def eof (s : Stream) : Token := Token.eof s.lastLine

end Stream

/-! ## Numbering -/

theorem number_append (line : Nat) (ps qs : List Piece) :
    number line (ps ++ qs) = number line ps ++ number (lineAfter line ps) qs := by
  induction ps generalizing line with
  | nil => rfl
  | cons p ps ih => cases p <;> simp [number, ih, lineAfter]

end TreeWalk.Token

/-!
# Tokens

The words of the language: names, numbers, strings, seven keywords and the operator and bracket
symbols.  A token records its kind, its text and the line on which it starts.

A kind has two texts.  `Token.Kind.text` names the kind itself, and is what a message says was
expected; `Token.display` shows one token of the source, and is what a message says was found.
-/

set_option autoImplicit false

namespace TreeWalk

namespace Token

/-- The kinds of token.  `comment` and `newline` name the layout that a source may hold between
its tokens; no token of a source has one of these two kinds. -/
inductive Kind
  | illegal
  | eof
  | identifier
  | number
  | string
  | assign
  | plus
  | minus
  | slash
  | star
  | equalEqual
  | bang
  | bangEqual
  | less
  | lessEqual
  | greater
  | greaterEqual
  | comma
  | semicolon
  | colon
  | lparen
  | rparen
  | lbracket
  | rbracket
  | lbrace
  | rbrace
  | kwFunc
  | kwVar
  | kwTrue
  | kwFalse
  | kwIf
  | kwElse
  | kwReturn
  | comment
  | newline
  deriving DecidableEq, Repr

namespace Kind

/-- The name of a kind: the symbol or keyword itself where the kind has only one text. -/
def text : Kind → String
  | illegal => "ILLEGAL"
  | eof => "EOF"
  | identifier => "IDENTIFIER"
  | number => "NUMBER"
  | string => "STRING"
  | assign => "="
  | plus => "+"
  | minus => "-"
  | slash => "/"
  | star => "*"
  | equalEqual => "=="
  | bang => "!"
  | bangEqual => "!="
  | less => "<"
  | lessEqual => "<="
  | greater => ">"
  | greaterEqual => ">="
  | comma => ","
  | semicolon => ";"
  | colon => ":"
  | lparen => "("
  | rparen => ")"
  | lbracket => "["
  | rbracket => "]"
  | lbrace => "\x7b"
  | rbrace => "\x7d"
  | kwFunc => "func"
  | kwVar => "var"
  | kwTrue => "true"
  | kwFalse => "false"
  | kwIf => "if"
  | kwElse => "else"
  | kwReturn => "return"
  | comment => "COMMENT"
  | newline => "NEWLINE"

/-- The keywords. -/
def keywords : List Kind :=
  [kwFunc, kwVar, kwTrue, kwFalse, kwIf, kwElse, kwReturn]

/-- The kind of a word: a keyword only if the whole word is that keyword. -/
def ofWord (word : String) : Kind :=
  (keywords.find? fun k => k.text = word).getD identifier

/-- The symbols of two characters. -/
def ofPair? (c d : Char) : Option Kind :=
  if d = '=' then
    match c with
    | '=' => some equalEqual
    | '!' => some bangEqual
    | '<' => some lessEqual
    | '>' => some greaterEqual
    | _ => none
  else none

/-- The symbols of one character. -/
def ofChar? : Char → Option Kind
  | '=' => some assign
  | '+' => some plus
  | '-' => some minus
  | '/' => some slash
  | '*' => some star
  | '!' => some bang
  | '<' => some less
  | '>' => some greater
  | ',' => some comma
  | ';' => some semicolon
  | ':' => some colon
  | '(' => some lparen
  | ')' => some rparen
  | '[' => some lbracket
  | ']' => some rbracket
  | '\x7b' => some lbrace
  | '\x7d' => some rbrace
  | _ => none

/-- A symbol's one character is its text. -/
theorem text_of_ofChar? {c : Char} {k : Kind} (h : ofChar? c = some k) : k.text = c.toString := by
  unfold ofChar? at h
  split at h <;> cases h <;> rfl

/-- A symbol's two characters are its text. -/
theorem text_of_ofPair? {c d : Char} {k : Kind} (h : ofPair? c d = some k) :
    k.text = String.ofList [c, d] := by
  unfold ofPair? at h
  split at h
  · subst d
    split at h <;> cases h <;> rfl
  · cases h

theorem ne_string_of_ofChar? {c : Char} {k : Kind} (h : ofChar? c = some k) : k ≠ string := by
  unfold ofChar? at h
  split at h <;> cases h <;> decide

theorem ne_string_of_ofPair? {c d : Char} {k : Kind} (h : ofPair? c d = some k) :
    k ≠ string := by
  unfold ofPair? at h
  split at h
  · split at h <;> cases h <;> decide
  · cases h

theorem ofWord_ne_string (word : String) : ofWord word ≠ string := by
  unfold ofWord
  cases hf : keywords.find? (fun k => k.text = word) with
  | none => decide
  | some k =>
    have hk : k ∈ keywords := List.mem_of_find?_eq_some hf
    rintro rfl
    simp [keywords] at hk

end Kind

end Token

/-- A token of a source text.  The literal of a string is what stands between its quotes; every
other literal is the text of the token. -/
structure Token where
  kind : Token.Kind
  literal : String
  line : Nat
  deriving DecidableEq, Repr

namespace Token

/-- The token that stands after the last one. -/
def eof (line : Nat) : Token := ⟨.eof, "", line⟩

/-- How a message shows a token that it found. -/
def display (t : Token) : String :=
  match t.kind with
  | .eof => "end of input"
  | .string => "\"" ++ t.literal ++ "\""
  | _ => "'" ++ t.literal ++ "'"

@[simp] theorem display_eof (line : Nat) : (eof line).display = "end of input" := rfl

end Token

end TreeWalk

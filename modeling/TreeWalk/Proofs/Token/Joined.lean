import TreeWalk.Token.Stream

/-!
# Pieces that are told apart again

Cutting a text into pieces undoes writing pieces one after the other, as long as no piece runs into
the next one.  `Piece.StandsBefore` says that a piece is cut off again from the text behind it, and
`Joined` that this is so all along a list of pieces; then cutting gives the list back
(`pieces_flatMap`).

Which text a piece can stand before depends on the first character of that text only: a word must
not be followed by a further character of a word, a number not by a digit, a blank not by a blank,
and the symbols `=`, `!`, `<`, `>` and `/` not by a character with which they make a longer piece.
Everything else can stand before any text.
-/

set_option autoImplicit false

namespace TreeWalk.Token

namespace Piece

/-- The piece is cut off again from a text that starts with it and goes on with `rest`. -/
def StandsBefore (p : Piece) (rest : List Char) : Prop :=
  ∃ c cs, p.chars ++ rest = c :: cs ∧ read c cs = (p, rest)

end Piece

/-- Every one of the pieces is cut off again from what follows it. -/
def Joined : List Piece → Prop
  | [] => True
  | p :: ps => p.StandsBefore (ps.flatMap Piece.chars) ∧ Joined ps

/-- **Joined pieces are told apart again.** -/
theorem pieces_flatMap {ps : List Piece} (h : Joined ps) :
    pieces (ps.flatMap Piece.chars) = ps := by
  induction ps with
  | nil => exact pieces_nil
  | cons p ps ih =>
    obtain ⟨⟨c, cs, hcs, hread⟩, hps⟩ := h
    rw [List.flatMap_cons, hcs, pieces_cons, hread, ih hps]

/-- The first character of the text of a kind. -/
def Kind.first (k : Kind) : Char := k.text.toList.headD ' '

namespace Piece

/-! ## Runs of characters -/

/-- The text does not start with a character of the class. -/
def FirstNot (p : Char → Bool) (cs : List Char) : Prop := ∀ c ∈ cs.head?, p c = false

/-- A run of characters ends before a character of another class. -/
theorem takeWhile_append_of_firstNot {p : Char → Bool} {cs rest : List Char}
    (hcs : ∀ c ∈ cs, p c = true) (hrest : FirstNot p rest) :
    (cs ++ rest).takeWhile p = cs := by
  rw [List.takeWhile_append_of_pos hcs]
  cases rest with
  | nil => simp
  | cons d rest => simp [hrest d rfl]

/-- Behind a run of characters, the text goes on with a character of another class. -/
theorem dropWhile_append_of_firstNot {p : Char → Bool} {cs rest : List Char}
    (hcs : ∀ c ∈ cs, p c = true) (hrest : FirstNot p rest) :
    (cs ++ rest).dropWhile p = rest := by
  rw [List.dropWhile_append_of_pos hcs]
  cases rest with
  | nil => simp
  | cons d rest => simp [hrest d rfl]

/-- Characters of different classes differ. -/
theorem ne_of_class {p : Char → Bool} {c d : Char} (hc : p c = true) (hd : p d = false) :
    c ≠ d := by
  rintro rfl
  rw [hc] at hd
  cases hd

theorem isSpace_eq_false {p : Char → Bool} {c : Char} (hc : p c = true) (h1 : p ' ' = false)
    (h2 : p '\t' = false) (h3 : p '\r' = false) (h4 : p '\x0c' = false) : isSpace c = false := by
  simp [isSpace, ne_of_class hc h1, ne_of_class hc h2, ne_of_class hc h3, ne_of_class hc h4]

/-- A letter or an underscore starts a word, which is as long as possible. -/
theorem read_word {c : Char} (cs : List Char) (hc : isWordStart c = true) :
    read c cs =
      (lexeme (Kind.ofWord (String.ofList (c :: cs.takeWhile isWordChar)))
        (String.ofList (c :: cs.takeWhile isWordChar)), cs.dropWhile isWordChar) := by
  have hn : c ≠ '\n' := ne_of_class hc (by decide)
  have hs : isSpace c = false :=
    isSpace_eq_false hc (by decide) (by decide) (by decide) (by decide)
  have hd : c ≠ '/' := ne_of_class hc (by decide)
  rw [read, if_neg hn, if_neg (by rw [hs]; decide), if_neg (by simp [hd]), if_pos hc]

theorem isWordStart_of_isDigit {c : Char} (hc : c.isDigit = true) : isWordStart c = false := by
  obtain ⟨-, hhi⟩ := Char.isDigit_iff_toNat.1 hc
  have hupper : c.isUpper = false := decide_eq_false fun h =>
    absurd (UInt32.le_iff_toNat_le.1 h.1) (Nat.not_le.2 (Nat.lt_of_le_of_lt hhi (by decide)))
  have hlower : c.isLower = false := by
    refine Bool.and_eq_false_iff.2 (.inl (decide_eq_false fun h => ?_))
    exact absurd (UInt32.le_iff_toNat_le.1 h) (Nat.not_le.2 (Nat.lt_of_le_of_lt hhi (by decide)))
  have halpha : c.isAlpha = false := Bool.or_eq_false_iff.2 ⟨hupper, hlower⟩
  have hunder : c ≠ '_' := ne_of_class hc (by decide)
  rw [isWordStart, halpha, decide_eq_false hunder]
  rfl

/-- A digit starts a number, which is as long as possible. -/
theorem read_digit {c : Char} (cs : List Char) (hc : c.isDigit = true) :
    read c cs =
      (lexeme .number (String.ofList (c :: cs.takeWhile Char.isDigit)),
        cs.dropWhile Char.isDigit) := by
  have hn : c ≠ '\n' := ne_of_class hc (by decide)
  have hs : isSpace c = false :=
    isSpace_eq_false hc (by decide) (by decide) (by decide) (by decide)
  have hd : c ≠ '/' := ne_of_class hc (by decide)
  have hw : isWordStart c = false := isWordStart_of_isDigit hc
  rw [read, if_neg hn, if_neg (by rw [hs]; decide), if_neg (by simp [hd]),
    if_neg (by rw [hw]; decide), if_pos hc]

/-- A character that is a symbol of its own starts a symbol, unless it starts a comment. -/
theorem read_symbol {c : Char} {k : Kind} {cs : List Char} (hc : Kind.ofChar? c = some k)
    (hcs : c = '/' → cs.head? ≠ some '/') : read c cs = readSymbol c cs := by
  by_cases hd : c = '/'
  · subst hd
    have hcomment : ¬ (decide ('/' = '/') && decide (cs.head? = some '/')) = true := by
      simpa using hcs
    rw [read, if_neg (by decide), if_neg (by decide), if_neg hcomment, if_neg (by decide),
      if_neg (by decide), if_neg (by decide)]
  · rw [Kind.ofChar?.eq_def] at hc
    split at hc <;> cases hc
    all_goals first | rfl | exact absurd rfl hd

/-! ## The text behind a piece

Only the first character of that text matters. -/

theorem firstNot_cons {p : Char → Bool} {q : Piece} {c : Char} (hq : q.chars.head? = some c)
    (hc : p c = false) (qs : List Piece) : FirstNot p ((q :: qs).flatMap chars) := by
  obtain ⟨cs, hcs⟩ := List.head?_eq_some_iff.1 hq
  intro d hd
  rw [List.flatMap_cons, hcs] at hd
  cases hd
  exact hc

/-- The characters that make a longer piece of a symbol before them. -/
def isSecond (c : Char) : Bool := c = '=' || c = '/'

theorem isWordChar_of_isDigit {c : Char} (h : c.isDigit = true) : isWordChar c = true := by
  simp [isWordChar, Char.isAlphanum, h]

theorem FirstNot.digit {cs : List Char} (h : FirstNot isWordChar cs) :
    FirstNot Char.isDigit cs := by
  intro c hc
  have hword := h c hc
  cases hdigit : c.isDigit with
  | false => rfl
  | true => rw [isWordChar_of_isDigit hdigit] at hword; cases hword

/-! ## Which text each piece can stand before -/

/-- A word, before a character that is not one of a word. -/
theorem standsBefore_word {word : String} {c : Char} {cs rest : List Char}
    (hword : word.toList = c :: cs) (hc : isWordStart c = true)
    (hcs : ∀ d ∈ cs, isWordChar d = true) (hrest : FirstNot isWordChar rest) :
    (lexeme (Kind.ofWord word) word).StandsBefore rest := by
  refine ⟨c, cs ++ rest, ?_, ?_⟩
  · rw [chars_lexeme _ (Kind.ofWord_ne_string word), hword, List.cons_append]
  · rw [read_word _ hc, takeWhile_append_of_firstNot hcs hrest,
      dropWhile_append_of_firstNot hcs hrest, ← hword, String.ofList_toList]

/-- Keywords are words. -/
theorem standsBefore_keyword {k : Kind} {rest : List Char} (hk : k ∈ Kind.keywords)
    (hrest : FirstNot isWordChar rest) : (mark k).StandsBefore rest := by
  have hof : Kind.ofWord k.text = k := by
    revert k
    decide
  have hstart : ∃ c cs, k.text.toList = c :: cs ∧ isWordStart c = true ∧
      cs.all isWordChar = true := by
    simp only [Kind.keywords, List.mem_cons, List.not_mem_nil, or_false] at hk
    rcases hk with rfl | rfl | rfl | rfl | rfl | rfl | rfl <;> exact ⟨_, _, rfl, rfl, rfl⟩
  obtain ⟨c, cs, htext, hc, hcs⟩ := hstart
  have h := standsBefore_word htext hc (List.all_eq_true.1 hcs) hrest
  rwa [hof] at h

/-- A number, before a character that is not one of a word.  A letter would not extend it, but no
canonical text has one there. -/
theorem standsBefore_number {digits : String} {rest : List Char} (hne : digits.toList ≠ [])
    (hdigits : ∀ d ∈ digits.toList, d.isDigit = true) (hrest : FirstNot isWordChar rest) :
    (lexeme .number digits).StandsBefore rest := by
  obtain ⟨c, cs, hcs⟩ := List.exists_cons_of_ne_nil hne
  rw [hcs] at hdigits
  have hc := hdigits c List.mem_cons_self
  have htail := fun d hd => hdigits d (List.mem_cons_of_mem c hd)
  refine ⟨c, cs ++ rest, ?_, ?_⟩
  · rw [chars_lexeme _ (by decide), hcs, List.cons_append]
  · rw [read_digit _ hc, takeWhile_append_of_firstNot htail hrest.digit,
      dropWhile_append_of_firstNot htail hrest.digit, ← hcs, String.ofList_toList]

/-- A string ends with its quote, whatever follows. -/
theorem standsBefore_string {text : String} (rest : List Char) (htext : '"' ∉ text.toList) :
    (lexeme .string text).StandsBefore rest := by
  have hne : ∀ d ∈ text.toList, decide (d ≠ '"') = true := by
    intro d hd
    exact decide_eq_true fun h => htext (h ▸ hd)
  have hstop : FirstNot (fun d => decide (d ≠ '"')) ('"' :: rest) := by
    rintro d ⟨⟩
    rfl
  refine ⟨'"', text.toList ++ '"' :: rest, by simp [chars], ?_⟩
  have hread : read '"' (text.toList ++ '"' :: rest) = readQuoted (text.toList ++ '"' :: rest) :=
    rfl
  rw [hread, readQuoted, takeWhile_append_of_firstNot hne hstop,
    dropWhile_append_of_firstNot hne hstop, String.ofList_toList]

/-- A single blank, before a character that is not blank. -/
theorem standsBefore_space {rest : List Char} (hrest : FirstNot isSpace rest) :
    space.StandsBefore rest := by
  refine ⟨' ', rest, rfl, ?_⟩
  have hnone : ∀ d ∈ ([] : List Char), isSpace d = true := by simp
  have htake := takeWhile_append_of_firstNot hnone hrest
  have hdrop := dropWhile_append_of_firstNot hnone hrest
  rw [List.nil_append] at htake hdrop
  rw [read, if_neg (by decide), if_pos (by decide), htake, hdrop]
  rfl

/-- A symbol of one character, before a character that does not extend it. -/
theorem standsBefore_char {c : Char} {k : Kind} {rest : List Char} (hc : Kind.ofChar? c = some k)
    (hpair : ∀ d ∈ rest.head?, Kind.ofPair? c d = none) (hslash : c = '/' → rest.head? ≠ some '/') :
    (mark k).StandsBefore rest := by
  refine ⟨c, rest, ?_, ?_⟩
  · rw [mark, chars_lexeme _ (Kind.ne_string_of_ofChar? hc), Kind.text_of_ofChar? hc]
    simp
  · have hnone : rest.head?.bind (Kind.ofPair? c) = none :=
      Option.bind_eq_none_iff.2 hpair
    simp only [read_symbol hc hslash, readSymbol, hnone, hc]

/-- A symbol of two characters is not extended further. -/
theorem standsBefore_pair {c d : Char} {k : Kind} (hk : Kind.ofPair? c d = some k)
    (rest : List Char) : (mark k).StandsBefore rest := by
  refine ⟨c, d :: rest, ?_, ?_⟩
  · rw [mark, chars_lexeme _ (Kind.ne_string_of_ofPair? hk), Kind.text_of_ofPair? hk]
    simp
  · rw [Kind.ofPair?.eq_def] at hk
    split at hk
    · next hd =>
      subst hd
      split at hk <;> cases hk <;> rfl
    · cases hk

/-- The symbols that no further character extends. -/
def firm : List Kind :=
  [.plus, .minus, .star, .comma, .semicolon, .colon, .lparen, .rparen, .lbracket, .rbracket,
    .lbrace, .rbrace, .equalEqual, .bangEqual, .lessEqual, .greaterEqual]

/-- The symbols that some further character extends. -/
def loose : List Kind := [.assign, .bang, .less, .greater, .slash]

/-- A firm symbol can stand before any text. -/
theorem standsBefore_firm {k : Kind} (hk : k ∈ firm) (rest : List Char) :
    (mark k).StandsBefore rest := by
  -- Both facts are about the kind alone, so that they can be decided.
  have hfirm : ∀ k ∈ firm,
      (Kind.ofChar? k.first = some k ∧ k.first ∉ ['=', '!', '<', '>', '/']) ∨
        Kind.ofPair? k.first '=' = some k := by
    decide
  obtain ⟨hc, hlone⟩ | hc := hfirm k hk
  · simp only [List.mem_cons, List.not_mem_nil, or_false, not_or] at hlone
    refine standsBefore_char hc (fun d _ => ?_) fun hslash => absurd hslash hlone.2.2.2.2
    simp [Kind.ofPair?, hlone]
  · exact standsBefore_pair hc rest

/-- A loose symbol, before a character that does not extend it. -/
theorem standsBefore_loose {k : Kind} {rest : List Char} (hk : k ∈ loose)
    (hrest : FirstNot isSecond rest) : (mark k).StandsBefore rest := by
  have hloose : ∀ k ∈ loose, Kind.ofChar? k.first = some k := by decide
  refine standsBefore_char (hloose k hk) (fun d hd => ?_) fun _ hslash => ?_
  · have hne : d ≠ '=' := by
      rintro rfl
      cases hrest _ hd
    simp [Kind.ofPair?, hne]
  · cases hrest _ hslash

end Piece

/-! ## Joining one more piece -/

theorem joined_firm {k : Kind} {ps : List Piece} (hk : k ∈ Piece.firm) (h : Joined ps) :
    Joined (.mark k :: ps) :=
  ⟨Piece.standsBefore_firm hk _, h⟩

theorem joined_loose {k : Kind} {ps : List Piece} (hk : k ∈ Piece.loose)
    (hfirst : Piece.FirstNot Piece.isSecond (ps.flatMap Piece.chars)) (h : Joined ps) :
    Joined (.mark k :: ps) :=
  ⟨Piece.standsBefore_loose hk hfirst, h⟩

theorem joined_keyword {k : Kind} {ps : List Piece} (hk : k ∈ Kind.keywords)
    (hfirst : Piece.FirstNot isWordChar (ps.flatMap Piece.chars)) (h : Joined ps) :
    Joined (.mark k :: ps) :=
  ⟨Piece.standsBefore_keyword hk hfirst, h⟩

theorem joined_space {ps : List Piece}
    (hfirst : Piece.FirstNot isSpace (ps.flatMap Piece.chars)) (h : Joined ps) :
    Joined (.space :: ps) :=
  ⟨Piece.standsBefore_space hfirst, h⟩

end TreeWalk.Token

import TreeWalk.Proofs.Token.Alike
import TreeWalk.Proofs.Token.LongestMatch

/-!
# Writing tokens down again

The tokens of a source, or some of them, or tokens of several sources together, can be written down
as a source again: with a blank behind each of them they are told apart (`exists_source`).  Only
illegal tokens are excluded.
-/

set_option autoImplicit false

namespace TreeWalk.Token

/-- The token is told apart from a blank behind it. -/
def Spelled (t : Token) : Prop :=
  ∀ rest, (Piece.lexeme t.kind t.literal).StandsBefore (' ' :: rest)

/-- The text has come to its end, or goes on with a blank or a line end. -/
def BlankNext (rest : List Char) : Prop :=
  ∀ c ∈ rest.head?, c ∈ [' ', '\t', '\r', '\x0c', '\n']

theorem blankNext_space (rest : List Char) : BlankNext (' ' :: rest) := by
  rintro c ⟨⟩
  decide

theorem BlankNext.firstNot {p : Char → Bool} {rest : List Char} (h : BlankNext rest)
    (hp : [' ', '\t', '\r', '\x0c', '\n'].any p = false) : Piece.FirstNot p rest :=
  fun c hc => Bool.eq_false_iff.2 (List.any_eq_false.1 hp c (h c hc))

/-- Symbols are told apart from a blank. -/
theorem standsBefore_symbol {k : Kind} (hk : k ∈ Kind.symbols) {rest : List Char}
    (hrest : BlankNext rest) : (Piece.mark k).StandsBefore rest := by
  obtain hk | hk := List.mem_append.1 hk
  · exact Piece.standsBefore_firm hk _
  · exact Piece.standsBefore_loose hk (hrest.firstNot rfl)

/-- Names are told apart from a blank. -/
theorem standsBefore_identifier {name : String} (h : Rule.word.Matches name.toList)
    (hkeyword : ∀ k ∈ Kind.keywords, name ≠ k.text) {rest : List Char} (hrest : BlankNext rest) :
    (Piece.lexeme .identifier name).StandsBefore rest := by
  obtain ⟨c, cs, hname, hc, hcs⟩ := h
  have hkind : Kind.ofWord name = .identifier := by
    obtain hid | ⟨hkw, htext⟩ := Piece.ofWord_cases name
    · exact hid
    · exact absurd htext.symm (hkeyword _ hkw)
  have hstart : isWordStart c = true := by simpa [isWordStart] using hc
  have hrun : ∀ d ∈ cs, isWordChar d = true := fun d hd => by
    simpa [isWordChar] using hcs d hd
  have hstands := Piece.standsBefore_word hname hstart hrun (hrest.firstNot rfl)
  rwa [hkind] at hstands

/-- A token that is cut from a source and is not illegal is told apart from a blank. -/
theorem Cut.standsBefore {t : Token} {rest : List Char} (h : t.Cut rest)
    (hlegal : t.kind ≠ .illegal) {rest' : List Char} (hrest : BlankNext rest') :
    (Piece.lexeme t.kind t.literal).StandsBefore rest' := by
  obtain ⟨kind, literal, line⟩ := t
  obtain ⟨r, hkind, hr⟩ := (h.legal hlegal).rule
  have hchars (hne : kind ≠ .string) : (Token.mk kind literal line).chars = literal.toList :=
    Piece.chars_lexeme literal hne
  cases r with
  | blanks | newline | comment => cases hkind
  | word =>
    cases hkind
    show (Piece.lexeme .identifier literal).StandsBefore rest'
    refine standsBefore_identifier (hchars (by decide) ▸ hr) (fun k hk htext => ?_) hrest
    have hkw : Kind.identifier = k := (h.keyword_iff hk).2 (by rw [hchars (by decide), htext])
    exact absurd (hkw ▸ hk) (by decide)
  | number =>
    cases hkind
    obtain ⟨hne, hdigits⟩ := hchars (by decide) ▸ hr
    exact Piece.standsBefore_number hne hdigits (hrest.firstNot rfl)
  | string =>
    cases hkind
    obtain ⟨body, hbody, hquote⟩ := hr
    obtain rfl : literal.toList = body := by simpa [chars, Piece.chars] using hbody
    exact Piece.standsBefore_string _ hquote
  | mark k =>
    cases hkind
    obtain ⟨hk, htext⟩ := hr
    have hstring : Kind.string ∉ Kind.keywords ++ Kind.symbols := by decide
    have hne : kind ≠ .string := by
      rintro rfl
      exact hstring hk
    obtain rfl : literal = kind.text := String.toList_inj.1 (by rw [← hchars hne, htext])
    obtain hk | hk := List.mem_append.1 hk
    · exact Piece.standsBefore_keyword hk (hrest.firstNot rfl)
    · exact standsBefore_symbol hk hrest

theorem spelled_symbol {k : Kind} (line : Nat) (hk : k ∈ Kind.symbols) :
    Spelled ⟨k, k.text, line⟩ :=
  fun rest => standsBefore_symbol hk (blankNext_space rest)

theorem spelled_name {name : String} (line : Nat) (h : Rule.word.Matches name.toList)
    (hkeyword : ∀ k ∈ Kind.keywords, name ≠ k.text) : Spelled ⟨.identifier, name, line⟩ :=
  fun rest => standsBefore_identifier h hkeyword (blankNext_space rest)

theorem Cut.spelled {t : Token} {rest : List Char} (h : t.Cut rest) (hlegal : t.kind ≠ .illegal) :
    t.Spelled :=
  fun rest => h.standsBefore hlegal (blankNext_space rest)

/-- The tokens of a source are cut from it. -/
theorem exists_cut_of_mem_tokens {source : String} {t : Token}
    (ht : t ∈ (Stream.ofSource source).tokens) : ∃ rest, t.Cut rest := by
  obtain ⟨gap, parts, htokens, -, -, hparts⟩ := parted_pieces 1 source.toList
  rw [Stream.ofSource, Stream.ofPieces, ← htokens] at ht
  obtain ⟨⟨u, gap'⟩, hmem, rfl⟩ := List.mem_map.1 ht
  obtain ⟨before, after, rfl⟩ := List.append_of_mem hmem
  exact ⟨_, (hparts before u gap' after rfl).2⟩

/-- No token of a source is of the kind that stands for its end. -/
theorem kind_ne_eof_of_mem_tokens {source : String} {t : Token}
    (ht : t ∈ (Stream.ofSource source).tokens) : t.kind ≠ .eof := by
  obtain ⟨rest, hcut⟩ := exists_cut_of_mem_tokens ht
  intro heof
  obtain ⟨r, hkind, hr⟩ := (hcut.legal (by rw [heof]; decide)).rule
  rw [heof] at hkind
  cases r with
  | mark k =>
    cases hkind
    exact absurd hr.1 (by decide)
  | _ => cases hkind

/-! ## Blanks between tokens -/

/-- Tokens with a blank behind each. -/
def spaced (ts : List Token) : List Piece :=
  ts.flatMap fun t => [.lexeme t.kind t.literal, .space]

/-- A token does not start with a blank. -/
theorem firstNot_of_standsBefore {kind : Kind} {literal : String} {rest : List Char}
    (h : (Piece.lexeme kind literal).StandsBefore rest) :
    Piece.FirstNot isSpace ((Piece.lexeme kind literal).chars ++ rest) := by
  obtain ⟨c, cs, hcs, hread⟩ := h
  rw [hcs]
  rintro d ⟨⟩
  cases hspace : isSpace c with
  | false => rfl
  | true =>
    rw [Piece.read_space cs hspace] at hread
    cases hread

theorem joined_spaced {ts : List Token} (h : ∀ t ∈ ts, t.Spelled) : Joined (spaced ts) := by
  induction ts with
  | nil => trivial
  | cons t ts ih =>
    have hts : ∀ u ∈ ts, u.Spelled := fun u hu => h u (List.mem_cons_of_mem t hu)
    have hfirst : Piece.FirstNot isSpace ((spaced ts).flatMap Piece.chars) := by
      cases ts with
      | nil => nofun
      | cons u us => exact firstNot_of_standsBefore (hts u List.mem_cons_self _)
    exact ⟨h t List.mem_cons_self _, joined_space hfirst (ih hts)⟩

theorem alike_number_spaced (line : Nat) (ts : List Token) :
    Alike (number line (spaced ts)) ts := by
  induction ts generalizing line with
  | nil => rfl
  | cons t ts ih => exact congrArg (t.word :: ·) (ih _)

/-- **Tokens can be written down**: some source has these tokens, but for their lines. -/
theorem exists_source {ts : List Token} (h : ∀ t ∈ ts, t.Spelled) :
    ∃ source : String, Alike (Stream.ofSource source).tokens ts := by
  refine ⟨Piece.written (spaced ts), ?_⟩
  rw [Stream.ofSource, Piece.written, String.toList_ofList, pieces_flatMap (joined_spaced h)]
  exact alike_number_spaced 1 ts

end TreeWalk.Token

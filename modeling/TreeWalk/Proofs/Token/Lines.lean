import TreeWalk.Proofs.Token.Layout

/-!
# The lines of tokens

A source is read with a counter of lines, and a token gets the line on which its text starts.
**The line of a token is one more than the number of line ends before it** (`line_eq_count`), and
that of the end is one more than all line ends of the source (`lastLine_eq_count`).  The second rule
has one exception: a string that is never closed does not move the counter, so there the end has the
line on which the string starts (`lastLine_of_unclosed`).  Nothing can follow such a string, and so
the first rule has no exception.

A `Scanner` gives out the tokens one at a time.  It moves the counter first, over the whole of the
next lexeme, and must then go back to the line on which the lexeme starts; that it never has to go
back further than it has come is part of `Scanner.nth_eq`, which says that it gives out the tokens
of the source, and after them the end for ever.
-/

set_option autoImplicit false

namespace TreeWalk.Token

/-! ## What moves the counter -/

/-- No rule matches a text with a line end, except those for line ends and for strings. -/
theorem Rule.newline_notMem {r : Rule} {w : List Char} (h : r.Matches w) (hline : r ≠ .newline)
    (hstring : r ≠ .string) : '\n' ∉ w := by
  intro hmem
  cases r with
  | blanks => exact absurd (h.2 _ hmem) (by decide)
  | newline => exact hline rfl
  | comment =>
    obtain ⟨body, rfl, hbody⟩ := h
    simp only [List.mem_cons] at hmem
    simp [hbody] at hmem
  | word =>
    obtain ⟨c, cs, rfl, hc, hcs⟩ := h
    rcases List.mem_cons.1 hmem with rfl | hmem
    · exact absurd hc (by decide)
    · exact absurd (hcs _ hmem) (by decide)
  | number => exact absurd (h.2 _ hmem) (by decide)
  | string => exact hstring rfl
  | mark k =>
    obtain ⟨hk, rfl⟩ := h
    have hnone : ∀ k ∈ Kind.keywords ++ Kind.symbols, '\n' ∉ k.text.toList := by decide
    exact hnone k hk hmem

theorem Rule.kind?_ne_illegal {r : Rule} {w : List Char} (h : r.Matches w) :
    r.kind? ≠ some .illegal := by
  intro hkind
  cases r with
  | mark k =>
    cases hkind
    exact absurd h.1 (by decide)
  | _ => cases hkind

theorem Piece.newlines_lexeme {kind : Kind} (literal : String) (h : kind ≠ .illegal) :
    (lexeme kind literal).newlines = (lexeme kind literal).chars.count '\n' := by
  unfold newlines
  split
  · next hlexeme =>
    cases hlexeme
    exact absurd rfl h
  · rfl

/-- A string that is never closed goes on to the end. -/
theorem Cut.rest_eq_nil {t : Token} {rest : List Char} (h : t.Cut rest) (ht : t.Unclosed) :
    rest = [] := by
  obtain ⟨hillegal, hquote⟩ := ht
  obtain ⟨c, hc, hone⟩ | ⟨body, -, -, hnil⟩ := (h.illegal hillegal).stray
  · rw [hone] at hquote
    exact absurd (Option.some.inj hquote) hc
  · exact hnil

/-- A token moves the counter by the line ends in it, unless it is a string that is never closed. -/
theorem Cut.newlines_eq {t : Token} {rest : List Char} (h : t.Cut rest) (ht : ¬ t.Unclosed) :
    (Piece.lexeme t.kind t.literal).newlines = t.chars.count '\n' := by
  by_cases hillegal : t.kind = .illegal
  · obtain ⟨hnone, hstray⟩ := h.illegal hillegal
    obtain ⟨c, hc, hone⟩ | ⟨body, hquote, -⟩ := hstray
    · have hline : c ≠ '\n' := by
        rintro rfl
        exact hnone .newline ['\n'] (hone ▸ List.prefix_append _ _) rfl
      rw [hone, hillegal, List.count_singleton, if_neg (by simpa using hline)]
      rfl
    · exact absurd ⟨hillegal, by rw [hquote]; rfl⟩ ht
  · exact Piece.newlines_lexeme _ hillegal

/-! ## The text before a token -/

/-- The text before the `n`-th lexeme, counted from zero; the whole text if there are not so
many. -/
def front : Nat → List Piece → List Char
  | _, [] => []
  | n, .gap text :: ps => text.toList ++ front n ps
  | 0, .lexeme _ _ :: _ => []
  | n + 1, .lexeme kind literal :: ps => (Piece.lexeme kind literal).chars ++ front n ps

/-- The text before the `n`-th token of a source, counted from zero; the whole source if there are
not so many. -/
def textBefore (n : Nat) (source : String) : List Char := front n (pieces source.toList)

/-- The `n`-th token starts where the text before it ends. -/
theorem exists_rest_front {line n : Nat} {ps : List Piece} {t : Token}
    (h : (number line ps)[n]? = some t) :
    ∃ rest, ps.flatMap Piece.chars = front n ps ++ (t.chars ++ rest) := by
  induction ps generalizing line n with
  | nil => cases h
  | cons p ps ih =>
    cases p with
    | gap text =>
      obtain ⟨rest, hrest⟩ := ih h
      exact ⟨rest, by rw [List.flatMap_cons, hrest, front, List.append_assoc]; rfl⟩
    | lexeme kind literal =>
      cases n with
      | zero =>
        obtain rfl := Option.some_inj.1 h
        exact ⟨ps.flatMap Piece.chars, rfl⟩
      | succ n =>
        obtain ⟨rest, hrest⟩ := ih h
        exact ⟨rest, by rw [List.flatMap_cons, hrest, front, List.append_assoc]⟩

/-- Before the end stands the whole text. -/
theorem front_eq_flatMap {line n : Nat} {ps : List Piece} (h : (number line ps).length ≤ n) :
    front n ps = ps.flatMap Piece.chars := by
  induction ps generalizing line n with
  | nil => cases n <;> rfl
  | cons p ps ih =>
    cases p with
    | gap text => rw [front, ih h, List.flatMap_cons]; rfl
    | lexeme kind literal =>
      cases n with
      | zero => cases h
      | succ n => rw [front, ih (Nat.le_of_succ_le_succ h), List.flatMap_cons]

/-! ## Exact lines -/

/-- Induction along the cutting of a text: one case for the end of the text and one for the next
piece. -/
@[elab_as_elim]
theorem pieces_induction {motive : List Char → Prop} (nil : motive [])
    (cons : ∀ (c : Char) (cs : List Char) (p : Piece) (rest : List Char),
      Piece.read c cs = (p, rest) → pieces (c :: cs) = p :: pieces rest → motive rest →
        motive (c :: cs)) (cs : List Char) : motive cs := by
  induction cs using pieces.induct with
  | case1 => exact nil
  | case2 c cs _ ih => exact cons c cs _ _ rfl (pieces_cons c cs) ih

/-- By induction along the cutting: what stands before the token is not a string that is never
closed, since something follows. -/
theorem line_eq_count {line n : Nat} {cs : List Char} {t : Token}
    (h : (number line (pieces cs))[n]? = some t) :
    t.line = line + (front n (pieces cs)).count '\n' := by
  induction cs using pieces_induction generalizing line n with
  | nil =>
    rw [pieces_nil] at h
    cases h
  | cons c cs p rest hread hpieces ih =>
    rw [hpieces] at h ⊢
    cases p with
    | gap text =>
      rw [ih h, front, List.count_append, Nat.add_assoc]
      rfl
    | lexeme kind literal =>
      cases n with
      | zero =>
        obtain rfl := Option.some_inj.1 h
        rfl
      | succ n =>
        have hcut := cut_read line hread
        have hopen : ¬ (Token.mk kind literal line).Unclosed := by
          intro hopen
          rw [hcut.rest_eq_nil hopen, pieces_nil] at h
          cases h
        rw [ih h, front, List.count_append, hcut.newlines_eq hopen, Nat.add_assoc]
        rfl

/-- The end is behind all line ends, where no string is left open. -/
theorem lastLine_eq_count {line : Nat} {cs : List Char}
    (h : ∀ t ∈ number line (pieces cs), ¬ t.Unclosed) :
    lineAfter line (pieces cs) = line + cs.count '\n' := by
  induction cs using pieces_induction generalizing line with
  | nil =>
    rw [pieces_nil]
    rfl
  | cons c cs p rest hread hpieces ih =>
    have hchars := Piece.chars_read c cs
    rw [hread] at hchars
    rw [hpieces] at h ⊢
    show lineAfter (line + p.newlines) (pieces rest) = _
    rw [← hchars, List.count_append, ← Nat.add_assoc]
    cases p with
    | gap text => exact ih h
    | lexeme kind literal =>
      obtain ⟨hfirst, hrest⟩ := List.forall_mem_cons.1 h
      rw [ih hrest, (cut_read line hread).newlines_eq hfirst]
      rfl

/-- The end behind a string that is never closed has the line on which the string starts. -/
theorem lastLine_of_unclosed {line : Nat} {cs : List Char} {t : Token}
    (ht : t ∈ number line (pieces cs)) (hopen : t.Unclosed) :
    lineAfter line (pieces cs) = t.line := by
  induction cs using pieces_induction generalizing line with
  | nil =>
    rw [pieces_nil] at ht
    cases ht
  | cons c cs p rest hread hpieces ih =>
    rw [hpieces] at ht ⊢
    cases p with
    | gap text => exact ih ht
    | lexeme kind literal =>
      rcases List.mem_cons.1 ht with rfl | ht
      · obtain rfl : kind = .illegal := hopen.1
        rw [(cut_read line hread).rest_eq_nil hopen, pieces_nil]
        rfl
      · exact ih ht

/-! ## Reading token by token -/

/-- A reader that gives out tokens one at a time: what is left of the text, and the counter of
lines. -/
structure Scanner where
  rest : List Char
  line : Nat

namespace Scanner

/-- The start of a source. -/
def ofSource (source : String) : Scanner := ⟨source.toList, 1⟩

/-- By how many lines a piece moves the counter: a line end moves it by one, a string by the line
ends in it, and nothing else moves it. -/
def moves : Piece → Nat
  | .gap text => if text = "\n" then 1 else 0
  | .lexeme .string literal => literal.toList.count '\n'
  | .lexeme _ _ => 0

/-- The next token; at the end of the text, the token that stands for the end.  The counter is moved
over the lexeme before the token is made, so the token goes back by as many lines.  There is no
answer where the counter is too small for that. -/
def next : Scanner → Option (Token × Scanner)
  | ⟨[], line⟩ => some (eof line, ⟨[], line⟩)
  | ⟨c :: cs, line⟩ =>
    have := Piece.length_read c cs
    let after : Scanner := ⟨(Piece.read c cs).2, line + moves (Piece.read c cs).1⟩
    match (Piece.read c cs).1 with
    | .gap _ => next after
    | .lexeme kind literal =>
      let back := moves (.lexeme kind literal)
      if back ≤ after.line then some (⟨kind, literal, after.line - back⟩, after) else none
termination_by s => s.rest.length

/-- The `n`-th token that is given out, counted from zero. -/
def nth : Nat → Scanner → Option Token
  | 0, s => s.next.map Prod.fst
  | n + 1, s => s.next.bind fun answer => nth n answer.2

/-- The counter is moved by the line ends that are read. -/
theorem moves_read {c : Char} {cs rest : List Char} {p : Piece} (h : Piece.read c cs = (p, rest)) :
    moves p = p.newlines := by
  have hlawful := Piece.lawful_read c cs
  rw [h] at hlawful
  obtain ⟨r, hkind, hr, -⟩ | ⟨hillegal, -⟩ := hlawful
  · cases p with
    | gap text =>
      by_cases hline : r = .newline
      · subst hline
        obtain rfl : text = "\n" := String.toList_inj.1 hr
        rfl
      · have hnone : '\n' ∉ text.toList := by
          refine Rule.newline_notMem hr hline ?_
          rintro rfl
          cases hkind
        have htext : text ≠ "\n" := by
          rintro rfl
          exact hnone (by decide)
        rw [moves, if_neg htext]
        exact (List.count_eq_zero.2 hnone).symm
    | lexeme kind literal =>
      by_cases hstring : kind = .string
      · subst hstring
        simp [moves, Piece.newlines, Piece.chars]
      · have hnone : '\n' ∉ (Piece.lexeme kind literal).chars := by
          refine Rule.newline_notMem hr ?_ ?_
          · rintro rfl
            cases hkind
          · rintro rfl
            exact hstring (Option.some.inj hkind).symm
        have hillegal : kind ≠ .illegal := by
          rintro rfl
          exact r.kind?_ne_illegal hr hkind
        rw [Piece.newlines_lexeme _ hillegal, List.count_eq_zero.2 hnone, moves]
        exact hstring
  · cases p with
    | gap text => cases hillegal
    | lexeme kind literal =>
      cases hillegal
      rfl

/-- The tokens that are still to be given out. -/
def tokens (s : Scanner) : List Token := number s.line (pieces s.rest)

/-- The line on which the text ends. -/
def lastLine (s : Scanner) : Nat := lineAfter s.line (pieces s.rest)

/-- **One step gives out the next token**, or else the end, and leaves the others to be given
out. -/
theorem next_eq (s : Scanner) :
    ∃ s', s.next = some (s.tokens.headD (eof s.lastLine), s') ∧ s'.tokens = s.tokens.tail ∧
      s'.lastLine = s.lastLine := by
  obtain ⟨cs, line⟩ := s
  -- Along the cutting, since a step skips all the gaps before the token.
  induction cs using pieces_induction generalizing line with
  | nil =>
    refine ⟨⟨[], line⟩, ?_⟩
    simp [next, tokens, lastLine, number, lineAfter]
  | cons c cs p rest hread hpieces ih =>
    have hmoves := moves_read hread
    rw [next, tokens, lastLine, hpieces, hread]
    cases p with
    | gap text =>
      obtain ⟨s', hnext, htokens, hlast⟩ := ih (line + moves (.gap text))
      rw [hmoves] at hnext htokens hlast ⊢
      exact ⟨s', hnext, htokens, hlast⟩
    | lexeme kind literal =>
      refine ⟨⟨rest, line + moves (.lexeme kind literal)⟩, ?_, ?_, ?_⟩
      · simp [number]
      · rw [hmoves]
        rfl
      · rw [hmoves]
        rfl

/-- **All steps together give out the tokens, and then the end for ever.** -/
theorem nth_eq (n : Nat) (s : Scanner) : s.nth n = some (s.tokens.getD n (eof s.lastLine)) := by
  induction n generalizing s with
  | zero =>
    obtain ⟨s', hnext, -⟩ := s.next_eq
    rw [nth, hnext]
    cases s.tokens <;> rfl
  | succ n ih =>
    obtain ⟨s', hnext, htokens, hlast⟩ := s.next_eq
    rw [nth, hnext, Option.bind_some, ih, htokens, hlast]
    cases s.tokens <;> rfl

end Scanner

end TreeWalk.Token

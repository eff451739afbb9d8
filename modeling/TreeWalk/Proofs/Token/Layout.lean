import TreeWalk.Proofs.Token.Spaced

/-!
# Sources that are laid out anew

What stands between the tokens of a source has no meaning of its own.  **The tokens of a source can
be laid out with other gaps**, and the new text has the same tokens but for their lines
(`alike_layOut`), as long as neighbours are kept apart: between two of them there must be a gap, and
a gap starts with a blank or a line end, since a comment right behind a `/` would be read otherwise.
A string that is never closed goes on to the end of its source, so there nothing may follow it.

All this is about the words of a text (`words`), which a gap does not change, whatever stands behind
it: `words_blank` and `words_comment` say so for the two sorts of gap, and `words_lexeme` that a
token which stands apart is one more word.
-/

set_option autoImplicit false

namespace TreeWalk.Token

/-! ## Words -/

/-- The word that a piece makes. -/
def Piece.word? : Piece → Option (Kind × String)
  | gap _ => none
  | lexeme kind literal => some (kind, literal)

/-- The words of a text: what its tokens are, without their lines. -/
def words (cs : List Char) : List (Kind × String) := (pieces cs).filterMap Piece.word?

theorem map_word_number (line : Nat) (ps : List Piece) :
    (number line ps).map word = ps.filterMap Piece.word? := by
  induction ps generalizing line with
  | nil => rfl
  | cons p ps ih =>
    cases p with
    | gap text => exact ih _
    | lexeme kind literal => exact congrArg ((kind, literal) :: ·) (ih _)

theorem map_word_tokens (source : String) :
    (Stream.ofSource source).tokens.map word = words source.toList :=
  map_word_number 1 _

theorem words_of_read {c : Char} {cs rest : List Char} {p : Piece}
    (h : Piece.read c cs = (p, rest)) :
    words (c :: cs) = p.word?.toList ++ words rest := by
  rw [words, pieces_cons, h]
  cases p <;> rfl

/-- A token that stands apart from what follows is a word of its own. -/
theorem words_lexeme {kind : Kind} {literal : String} {rest : List Char}
    (h : (Piece.lexeme kind literal).StandsBefore rest) :
    words ((Piece.lexeme kind literal).chars ++ rest) = (kind, literal) :: words rest := by
  obtain ⟨c, cs, hcs, hread⟩ := h
  rw [hcs, words_of_read hread]
  rfl

/-- Blanks at the head of a text are skipped together or one by one, to the same effect. -/
theorem words_dropWhile_isSpace (cs : List Char) : words (cs.dropWhile isSpace) = words cs := by
  cases cs with
  | nil => rfl
  | cons c cs =>
    by_cases hc : isSpace c = true
    · rw [List.dropWhile_cons_of_pos hc, words_of_read (Piece.read_space cs hc)]
      rfl
    · rw [List.dropWhile_cons_of_neg hc]

/-- A blank or a line end makes no word. -/
theorem words_blank {c : Char} (hc : c ∈ [' ', '\t', '\r', '\x0c', '\n']) (cs : List Char) :
    words (c :: cs) = words cs := by
  by_cases hline : c = '\n'
  · subst hline
    exact words_of_read (p := .gap "\n") rfl
  · have hspace : isSpace c = true := by
      simp only [List.mem_cons, List.not_mem_nil, or_false, hline] at hc
      simpa [isSpace, or_assoc] using hc
    rw [words_of_read (Piece.read_space cs hspace)]
    exact words_dropWhile_isSpace cs

/-- A comment that goes on to the end of its line makes no word. -/
theorem words_comment {body rest : List Char} (hbody : '\n' ∉ body)
    (hrest : ∀ c ∈ rest.head?, c = '\n') : words ('/' :: '/' :: body ++ rest) = words rest := by
  have hline : ∀ d ∈ body, decide (d ≠ '\n') = true := fun d hd =>
    decide_eq_true fun heq => hbody (heq ▸ hd)
  have hstop : Piece.FirstNot (fun d => decide (d ≠ '\n')) rest := fun d hd =>
    decide_eq_false fun hne => hne (hrest d hd)
  have hread := Piece.read_comment (body ++ rest)
  rw [Piece.dropWhile_append_of_firstNot hline hstop] at hread
  exact words_of_read hread

/-! ## Gaps -/

/-- A gap anywhere in a source: blanks, line ends and comments, each closed by its line end. -/
inductive Layout : List Char → Prop
  | nil : Layout []
  | blank {c : Char} {gap : List Char} (hc : c ∈ [' ', '\t', '\r', '\x0c', '\n'])
      (h : Layout gap) : Layout (c :: gap)
  | comment {body gap : List Char} (hbody : '\n' ∉ body) (h : Layout gap) :
      Layout ('/' :: '/' :: body ++ '\n' :: gap)

/-- A gap at the end of a source, where the last comment need not be closed. -/
inductive LastLayout : List Char → Prop
  | closed {gap : List Char} (h : Layout gap) : LastLayout gap
  | comment {gap body : List Char} (h : Layout gap) (hbody : '\n' ∉ body) :
      LastLayout (gap ++ '/' :: '/' :: body)

/-- **A gap changes no words**, whatever stands behind it. -/
theorem Layout.words_append {gap : List Char} (h : Layout gap) (cs : List Char) :
    words (gap ++ cs) = words cs := by
  induction h with
  | nil => rfl
  | blank hc _ ih => rw [List.cons_append, words_blank hc, ih]
  | @comment body gap hbody _ ih =>
    have hnewline : ∀ c ∈ (('\n' :: gap) ++ cs).head?, c = '\n' := by
      rintro c ⟨⟩
      rfl
    rw [List.append_assoc, words_comment hbody hnewline, List.cons_append,
      words_blank (by decide), ih]

theorem LastLayout.words_eq {gap : List Char} (h : LastLayout gap) : words gap = [] := by
  have hnil : words [] = [] := by
    rw [words, pieces_nil]
    rfl
  cases h with
  | closed h => rw [← List.append_nil gap, h.words_append, hnil]
  | @comment gap body h hbody =>
    have hcomment : words ('/' :: '/' :: body ++ []) = words [] := words_comment hbody (by simp)
    rw [List.append_nil] at hcomment
    rw [h.words_append, hcomment, hnil]

/-! ## Tokens with other gaps -/

/-- The token is a string that is never closed. -/
def Unclosed (t : Token) : Prop := t.kind = .illegal ∧ t.chars.head? = some '"'

/-- A character with which no rule starts is an illegal token of its own, whatever follows. -/
theorem read_of_unmatched {c : Char} {cs : List Char} (hc : c ≠ '"')
    (h : ∀ (r : Rule) (w : List Char), w <+: c :: cs → ¬ r.Matches w) (rest : List Char) :
    Piece.read c rest = (.lexeme .illegal c.toString, rest) := by
  have hone (r : Rule) : ¬ r.Matches [c] := h r [c] ⟨cs, rfl⟩
  have hline : c ≠ '\n' := by
    rintro rfl
    exact hone .newline rfl
  have hspace : ¬ isSpace c = true := fun hs =>
    hone .blanks ⟨by simp, by simpa using Piece.isSpace_iff.1 hs⟩
  have hword : ¬ isWordStart c = true := fun hs =>
    hone .word ⟨c, [], rfl, by simpa [isWordStart] using hs, by simp⟩
  have hdigit : ¬ c.isDigit = true := fun hs => hone .number ⟨by simp, by simpa using hs⟩
  have hchar : Kind.ofChar? c = none := by
    refine Option.eq_none_iff_forall_ne_some.2 fun k hk => ?_
    refine hone (.mark k) ⟨List.mem_append_right _ (Piece.mem_symbols_of_ofChar? hk), ?_⟩
    rw [Kind.text_of_ofChar? hk]
    simp
  -- What starts no symbol of one character starts none of two characters either.
  have hpair : rest.head?.bind (Kind.ofPair? c) = none := by
    refine Option.bind_eq_none_iff.2 fun d _ => ?_
    unfold Kind.ofPair?
    split
    · split <;> first | rfl | cases hchar
    · rfl
  have hslash : c ≠ '/' := by
    rintro rfl
    cases hchar
  rw [Piece.read, if_neg hline, if_neg hspace, if_neg (by simp [hslash]), if_neg hword,
    if_neg hdigit, if_neg hc, Piece.readSymbol, hpair, hchar]

/-- A string that is not closed before the end of the text is an illegal token. -/
theorem read_unclosed {body : List Char} (h : '"' ∉ body) :
    Piece.read '"' body = (.lexeme .illegal (String.ofList ('"' :: body)), []) := by
  have hnone : body.dropWhile (· ≠ '"') = [] :=
    List.dropWhile_eq_nil_iff.2 fun d hd => decide_eq_true fun heq => h (heq ▸ hd)
  have hread : Piece.read '"' body = Piece.readQuoted body := rfl
  rw [hread, Piece.readQuoted, hnone]

/-- **A token of a source stands apart from a blank**, and from the end of the text; a string that
is never closed only from the latter. -/
theorem Cut.standsApart {t : Token} {rest rest' : List Char} (h : t.Cut rest)
    (hrest : BlankNext rest') (hopen : t.Unclosed → rest' = []) :
    (Piece.lexeme t.kind t.literal).StandsBefore rest' := by
  by_cases hlegal : t.kind = .illegal
  · have hchars : t.chars = t.literal.toList := Piece.chars_lexeme _ (by simp [hlegal])
    obtain ⟨hnone, hstray⟩ := h.illegal hlegal
    obtain ⟨c, hc, hone⟩ | ⟨body, hquote, hbody, -⟩ := hstray
    · rw [hone] at hnone
      refine ⟨c, rest', congrArg (· ++ rest') hone, ?_⟩
      rw [read_of_unmatched hc hnone, hlegal, ← String.ofList_toList (s := t.literal), ← hchars,
        hone]
      rfl
    · obtain rfl := hopen ⟨hlegal, by rw [hquote]; rfl⟩
      refine ⟨'"', body, (List.append_nil _).trans hquote, ?_⟩
      rw [read_unclosed hbody, hlegal, ← hquote, hchars, String.ofList_toList]
  · exact h.standsBefore hlegal hrest

/-- Only the last token of a source can be a string that is never closed. -/
theorem not_unclosed_of_mem_dropLast {source : String} {t : Token}
    (ht : t ∈ (Stream.ofSource source).tokens.dropLast) : ¬ t.Unclosed := by
  rintro ⟨hillegal, hquote⟩
  obtain ⟨gap, parts, htokens, -, -, hparts⟩ := parted_pieces 1 source.toList
  rw [Stream.ofSource, Stream.ofPieces, ← htokens, ← List.map_dropLast] at ht
  obtain ⟨⟨u, gap'⟩, hmem, rfl⟩ := List.mem_map.1 ht
  obtain rfl | ⟨init, last, rfl⟩ := List.eq_nil_or_concat parts
  · cases hmem
  rw [List.concat_eq_append, List.dropLast_concat] at hmem
  obtain ⟨before, after, rfl⟩ := List.append_of_mem hmem
  have hsplit : (before ++ (u, gap') :: after).concat last =
      before ++ (u, gap') :: (after ++ [last]) := by simp
  obtain ⟨-, hcut⟩ := hparts before u gap' (after ++ [last]) hsplit
  obtain ⟨-, hlast⟩ := hparts (before ++ (u, gap') :: after) last.1 last.2 [] (by simp)
  obtain ⟨c, hc, hone⟩ | ⟨body, -, -, hnil⟩ := (hcut.illegal hillegal).stray
  · rw [hone] at hquote
    exact hc (Option.some.inj hquote)
  · -- The unclosed string would have swallowed the last token.
    simp only [layOut, List.flatMap_append, List.flatMap_cons, List.flatMap_nil,
      List.append_eq_nil_iff] at hnil
    exact hlast.nonempty hnil.2.2.1.1

/-- Tokens with gaps that keep them apart: between two tokens there is a gap, a gap starts with a
blank or a line end, and nothing follows a string that is never closed. -/
inductive Spread : List (Token × List Char) → Prop
  | nil : Spread []
  | last {t : Token} {gap : List Char} (hgap : LastLayout gap) (hblank : BlankNext gap)
      (hopen : t.Unclosed → gap = []) : Spread [(t, gap)]
  | cons {t u : Token} {gap gap' : List Char} {parts : List (Token × List Char)}
      (hgap : Layout gap) (hne : gap ≠ []) (hblank : BlankNext gap)
      (h : Spread ((u, gap') :: parts)) : Spread ((t, gap) :: (u, gap') :: parts)

theorem BlankNext.append {gap : List Char} (h : BlankNext gap) (hne : gap ≠ [])
    (rest : List Char) : BlankNext (gap ++ rest) := by
  obtain ⟨c, cs, rfl⟩ := List.exists_cons_of_ne_nil hne
  exact h

/-- Tokens that are kept apart are the words of the text. -/
theorem Spread.words_layOut {parts : List (Token × List Char)} (h : Spread parts)
    (hcut : ∀ t ∈ parts.map Prod.fst, ∃ rest, t.Cut rest)
    (hopen : ∀ t ∈ (parts.map Prod.fst).dropLast, ¬ t.Unclosed) :
    words (layOut parts) = (parts.map Prod.fst).map word := by
  induction h with
  | nil =>
    rw [layOut, List.flatMap_nil, words, pieces_nil]
    rfl
  | @last t gap hgap hblank hend =>
    obtain ⟨rest, hrest⟩ := hcut t List.mem_cons_self
    rw [layOut, List.flatMap_cons, List.flatMap_nil, List.append_nil, chars,
      words_lexeme (hrest.standsApart hblank hend), hgap.words_eq]
    rfl
  | @cons t u gap gap' parts hgap hne hblank _ ih =>
    obtain ⟨rest, hrest⟩ := hcut t List.mem_cons_self
    have hfirst : ¬ t.Unclosed := hopen t List.mem_cons_self
    have hnext : BlankNext (gap ++ layOut ((u, gap') :: parts)) := hblank.append hne _
    have hmore := ih (fun v hv => hcut v (List.mem_cons_of_mem _ hv))
      fun v hv => hopen v (List.mem_cons_of_mem _ hv)
    rw [layOut, List.flatMap_cons, ← layOut, List.append_assoc, chars,
      words_lexeme (hrest.standsApart hnext fun h => absurd h hfirst), hgap.words_append, hmore]
    rfl

/-- A gap before the first token, and tokens with gaps behind them.  Without any token the first gap
is the last one, too. -/
structure LaidOut (gap : List Char) (parts : List (Token × List Char)) : Prop where
  front : Layout gap ∨ parts = [] ∧ LastLayout gap
  spread : Spread parts

/-- **The tokens of a source can be laid out with other gaps**: the new text has the same tokens but
for their lines. -/
theorem alike_layOut {source : String} {gap : List Char} {parts : List (Token × List Char)}
    (hparts : parts.map Prod.fst = (Stream.ofSource source).tokens) (h : LaidOut gap parts) :
    Alike (Stream.ofSource (String.ofList (gap ++ layOut parts))).tokens
      (Stream.ofSource source).tokens := by
  have hwords : words (layOut parts) = (parts.map Prod.fst).map word := by
    refine h.spread.words_layOut (fun t ht => ?_) fun t ht => ?_
    · rw [hparts] at ht
      exact exists_cut_of_mem_tokens ht
    · rw [hparts] at ht
      exact not_unclosed_of_mem_dropLast ht
  rw [Alike, map_word_tokens, String.toList_ofList, ← hparts]
  obtain hgap | ⟨rfl, hgap⟩ := h.front
  · rw [hgap.words_append, hwords]
  · rw [layOut, List.flatMap_nil, List.append_nil, hgap.words_eq]
    rfl

end TreeWalk.Token

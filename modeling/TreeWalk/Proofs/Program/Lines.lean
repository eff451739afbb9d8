import Mathlib.Data.List.Basic
import TreeWalk.Proofs.Program.ValidPrefix
import TreeWalk.Proofs.Token.Lines

/-!
# Lines are exact

**Every line that is reported is the right one** (`lines_exact`).  A token, illegal ones and strings
over several lines included, has the line on which its text starts, and an error has the line of the
token that it is about.

The end of a source has the line on which a string starts that is never closed, so an error at the
end might be reported too early.  This does not come up: the parser blames the first token that
cannot stand where it does, and an illegal token stands nowhere.  Where it blames the end, all
tokens before it are the start of a program, and so none of them is illegal
(`Grammar.Begun.legal`).
-/

set_option autoImplicit false

namespace TreeWalk

open Token (Scanner Stream textBefore)

/-- What has begun a program has no illegal token in it. -/
theorem Grammar.Begun.legal {us : List Token} (h : Begun Statements us) :
    ∀ t ∈ us, t.kind ≠ .illegal := by
  obtain ⟨fs, p, -, hp⟩ := h
  exact fun t ht => hp.legal t (List.mem_append_left fs ht)

/-- An error is about the token behind some that have begun a program. -/
theorem exists_blames {source : String} {e : ParseError} (h : Program.parse source = .error e) :
    ∃ us rest, (Stream.ofSource source).tokens = us ++ rest ∧ (∀ t ∈ us, t.kind ≠ .illegal) ∧
      e.Blames (Parser.front (Stream.ofSource source).lastLine rest) := by
  rw [Program.parse, program_eq_error_iff] at h
  obtain ⟨p, us, rest, hts, hdet⟩ | ⟨cause, us, rest, hts, hus, hdet⟩ :=
    Grammar.program_decided (Stream.ofSource source).tokens
  · rw [hts] at h
    cases (hdet.apply _).symm.trans h
  · rw [hts] at h
    cases (hdet.apply _).symm.trans h
    exact ⟨us, rest, hts, hus.legal, cause.blames _⟩

/-! ## The tokens of a source, by number -/

/-- The `n`-th token of the source, counted from zero; the end, if there are not so many. -/
def Token.Stream.nth (s : Stream) (n : Nat) : Token := s.tokens.getD n s.eof

section Numbers

variable {source : String} {n : Nat}

theorem nth_eq_eof (hn : (Stream.ofSource source).tokens.length ≤ n) :
    (Stream.ofSource source).nth n = (Stream.ofSource source).eof := by
  rw [Stream.nth, List.getD_eq_getElem?_getD, List.getElem?_eq_none hn]
  rfl

theorem getElem?_nth (hn : n < (Stream.ofSource source).tokens.length) :
    (Stream.ofSource source).tokens[n]? = some ((Stream.ofSource source).nth n) := by
  rw [Stream.nth, List.getD_eq_getElem?_getD, List.getElem?_eq_getElem hn]
  rfl

/-- The token behind `us`. -/
theorem nth_length {us rest : List Token} (h : (Stream.ofSource source).tokens = us ++ rest) :
    (Stream.ofSource source).nth us.length =
      Parser.front (Stream.ofSource source).lastLine rest := by
  rw [Stream.nth, h, List.getD_eq_getElem?_getD, List.getElem?_append_right (Nat.le_refl _),
    Nat.sub_self, ← List.head?_eq_getElem?]
  cases rest <;> rfl

theorem textBefore_eq_source (hn : (Stream.ofSource source).tokens.length ≤ n) :
    textBefore n source = source.toList := by
  rw [textBefore, Token.front_eq_flatMap hn, Token.flatMap_chars_pieces]

/-- Only the last token can be a string that is never closed. -/
theorem forall_not_unclosed
    (h : ∀ t ∈ (Stream.ofSource source).tokens.getLast?, ¬ t.Unclosed) :
    ∀ t ∈ (Stream.ofSource source).tokens, ¬ t.Unclosed := by
  intro t ht
  by_cases hlast : (Stream.ofSource source).tokens.getLast? = some t
  · exact h t hlast
  · exact Token.not_unclosed_of_mem_dropLast
      (List.mem_dropLast_of_mem_of_ne_getLast? ht (Ne.symm hlast))

end Numbers

/-! ## Exact lines -/

/-- The lines of a source with these tokens are exact. -/
structure ExactLines (source : String) (s : Stream) : Prop where
  /-- A token starts where the text before it ends, and the line ends of this text give its line. -/
  token : ∀ n < s.tokens.length, (s.nth n).line = 1 + (textBefore n source).count '\n' ∧
    ∃ rest, source.toList = textBefore n source ++ ((s.nth n).chars ++ rest)
  /-- Behind the tokens there is the end only, and the whole source stands before it. -/
  ending : ∀ n ≥ s.tokens.length, s.nth n = s.eof ∧ textBefore n source = source.toList
  /-- The end is behind all line ends, unless the source ends in a string that is never closed. -/
  closed : (∀ t ∈ s.tokens.getLast?, ¬ t.Unclosed) → s.eof.line = 1 + source.toList.count '\n'
  /-- Such a string keeps the end on the line on which it starts. -/
  unclosed : ∀ t ∈ s.tokens.getLast?, t.Unclosed → s.eof.line = t.line
  /-- Reading token by token gives the same, and never has to go back further than it has come. -/
  reader : ∀ n, (Scanner.ofSource source).nth n = some (s.nth n)
  /-- An error has the line of the token that it is about, also if this is the end. -/
  error : ∀ e, Program.parse source = .error e → ∃ n ≤ s.tokens.length,
    e.Blames (s.nth n) ∧ e.line = 1 + (textBefore n source).count '\n'

theorem line_nth {source : String} {n : Nat} (hn : n < (Stream.ofSource source).tokens.length) :
    ((Stream.ofSource source).nth n).line = 1 + (textBefore n source).count '\n' :=
  Token.line_eq_count (getElem?_nth hn)

/-- An error is on the line of the token that it is about.  If this is the end, no token before it
is illegal, so no string is left open. -/
theorem line_of_error {source : String} {e : ParseError} (h : Program.parse source = .error e) :
    ∃ n ≤ (Stream.ofSource source).tokens.length, e.Blames ((Stream.ofSource source).nth n) ∧
      e.line = 1 + (textBefore n source).count '\n' := by
  obtain ⟨us, rest, htokens, hlegal, hblames⟩ := exists_blames h
  rw [← nth_length htokens] at hblames
  refine ⟨us.length, by simp [htokens], hblames, ?_⟩
  rw [hblames.1]
  cases rest with
  | nil =>
    have hend : (Stream.ofSource source).tokens.length ≤ us.length := by simp [htokens]
    rw [nth_eq_eof hend, textBefore_eq_source hend]
    refine Token.lastLine_eq_count fun t ht hopen => hlegal t ?_ hopen.1
    rw [List.append_nil] at htokens
    exact htokens ▸ ht
  | cons t rest => exact line_nth (by simp [htokens])

/-- **Lines are exact**, of the tokens of every source, of its end, and of every error. -/
theorem lines_exact (source : String) : ExactLines source (Stream.ofSource source) where
  token n hn := by
    obtain ⟨rest, hrest⟩ := Token.exists_rest_front (getElem?_nth hn)
    rw [Token.flatMap_chars_pieces] at hrest
    exact ⟨line_nth hn, rest, hrest⟩
  ending n hn := ⟨nth_eq_eof hn, textBefore_eq_source hn⟩
  closed h := Token.lastLine_eq_count (forall_not_unclosed h)
  unclosed t ht hopen := Token.lastLine_of_unclosed (List.mem_of_getLast? ht) hopen
  reader n := (Scanner.ofSource source).nth_eq n
  error e he := line_of_error he

/-- The string goes over three lines; the quote behind `b` is never closed, and the line ends behind
it are not counted. -/
example : (Stream.ofSource "a // b\n\"x\n\ny\"\nb \"\n\n").all.map
      (fun t => (t.kind, t.line)) =
    [(.identifier, 1), (.string, 2), (.identifier, 5), (.illegal, 5), (.eof, 5)] := by
  with_unfolding_all rfl

end TreeWalk

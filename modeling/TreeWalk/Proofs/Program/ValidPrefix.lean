import TreeWalk.Proofs.Grammar.Accepts
import TreeWalk.Proofs.Grammar.Begun
import TreeWalk.Proofs.Token.Spaced

/-!
# Errors are found as early as possible

When a source is no program, the parser names a token.  **This token is the first one at which the
source stops being the start of a program**: no program has these tokens up to and including it,
and some program has all those before it (`parse_error_first_bad`).

That nothing behind the token matters comes from the parser's looking one token ahead only, and
that the tokens before it can be completed from the fact that they have begun a program; what
completes them is written down as a source again, with a blank behind each token.
-/

set_option autoImplicit false

namespace TreeWalk

open Token (Kind Stream Alike SameFront)
open TreeWalk.Parser (Cause Routine)

namespace ParseError

/-- The error is about this token: it shows the token and its line. -/
def Blames (e : ParseError) (t : Token) : Prop :=
  e.line = t.line ∧
    match e with
    | unexpectedToken _ found _ => found = t.display
    | expressionExpected found _ => found = t.display
    | cannotContinue found _ => found = t.display
    | integerTooLarge literal _ => literal = t.literal

/-- The same error on another line. -/
def onLine (line : Nat) : ParseError → ParseError
  | unexpectedToken expected found _ => unexpectedToken expected found line
  | expressionExpected found _ => expressionExpected found line
  | cannotContinue found _ => cannotContinue found line
  | integerTooLarge literal _ => integerTooLarge literal line

end ParseError

theorem Parser.Cause.blames (cause : Cause) (t : Token) : (cause.error t).Blames t := by
  cases cause <;> exact ⟨rfl, rfl⟩

/-- The same word is blamed in the same way, wherever it stands. -/
theorem Parser.Cause.error_eq_onLine (cause : Cause) {t u : Token} (h : u.word = t.word) :
    cause.error u = (cause.error t).onLine u.line := by
  cases cause with
  | unexpected expected =>
    rw [Cause.error, Token.display_eq_of_word h]
    rfl
  | noExpression =>
    rw [Cause.error, Token.display_eq_of_word h]
    rfl
  | tooLarge =>
    rw [Cause.error, Token.literal_eq_of_word h]
    rfl

/-! ## Programs apart from lines -/

theorem program_eq_ok_iff {last : Nat} {ts : List Token} {p : Program} :
    Parser.program last ts = .ok p ↔ Routine.program last ts = .ok (p, []) := by
  rw [Routine.program]
  cases Parser.program last ts <;> simp [Except.map]

theorem program_eq_error_iff {last : Nat} {ts : List Token} {e : ParseError} :
    Parser.program last ts = .error e ↔ Routine.program last ts = .error e := by
  rw [Routine.program]
  cases Parser.program last ts <;> simp [Except.map]

/-- Lines do not matter to what a program is. -/
theorem program_of_alike {last last' : Nat} {ts us : List Token} {p : Program}
    (h : Parser.program last ts = .ok p) (hus : Alike us ts) :
    Parser.program last' us = .ok p := by
  rw [program_eq_ok_iff] at h ⊢
  obtain ⟨a, used, rest, rfl, hdet⟩ | ⟨cause, used, rest, rfl, -, hdet⟩ :=
    Grammar.program_decided ts
  · obtain ⟨rfl, rfl⟩ : a = p ∧ rest = [] := by
      simpa [Parser.Success] using (hdet.apply last).symm.trans h
    rw [List.append_nil] at hus
    simpa [Parser.Success] using hdet last' us [] hus rfl
  · cases (hdet.apply last).symm.trans h

/-! ## Where a source stops being a program -/

/-- Tokens that start with given words, the one that stands for the end counted in, either are these
words and have come to the end, or go on with the last of them. -/
theorem alike_or_exists_of_prefix {us ts : List Token} {t eof : Token}
    (h : (us ++ [t]).map Token.word <+: (ts ++ [eof]).map Token.word) :
    (t.word = eof.word ∧ Alike ts us) ∨
      ∃ us' t' rest', ts = us' ++ t' :: rest' ∧ Alike us' us ∧ t'.word = t.word := by
  obtain ⟨more, hmore⟩ := h
  rw [List.map_append, List.map_append] at hmore
  obtain rfl | ⟨more, last, rfl⟩ := List.eq_nil_or_concat more
  · rw [List.append_nil] at hmore
    obtain ⟨hus, ht⟩ := List.append_inj' hmore rfl
    exact .inl ⟨(List.cons.inj ht).1, hus.symm⟩
  · rw [List.concat_eq_append, ← List.append_assoc] at hmore
    obtain ⟨hts, -⟩ := List.append_inj' hmore rfl
    rw [List.append_assoc] at hts
    obtain ⟨us', tail, rfl, hus, htail⟩ := List.map_eq_append_iff.1 hts.symm
    obtain ⟨t', rest, rfl, ht, -⟩ := List.map_eq_cons_iff.1 htail
    exact .inr ⟨us', t', rest, rfl, hus, ht⟩

/-- A source that starts with the words of another one up to the token behind `us` is cut in two at
the same place. -/
theorem exists_split_of_prefix {source source' : String} {us rest : List Token}
    (hsource : (Stream.ofSource source).tokens = us ++ rest)
    (h : (us ++ [Parser.front (Stream.ofSource source).lastLine rest]).map Token.word <+:
      (Stream.ofSource source').all.map Token.word) :
    ∃ us' rest', (Stream.ofSource source').tokens = us' ++ rest' ∧ Alike us' us ∧
      SameFront rest' rest := by
  obtain ⟨heof, halike⟩ | ⟨us', t, rest', hsource', halike, ht⟩ := alike_or_exists_of_prefix h
  · cases rest with
    | nil => exact ⟨_, [], (List.append_nil _).symm, halike, rfl⟩
    | cons u rest =>
      have hu : u ∈ (Stream.ofSource source).tokens := by simp [hsource]
      exact absurd (Token.kind_eq_of_word heof) (Token.kind_ne_eof_of_mem_tokens hu)
  · refine ⟨us', t :: rest', hsource', halike, ?_⟩
    cases rest with
    | nil =>
      have ht' : t ∈ (Stream.ofSource source').tokens := by simp [hsource']
      exact absurd (Token.kind_eq_of_word ht) (Token.kind_ne_eof_of_mem_tokens ht')
    | cons u rest => exact congrArg some ht

theorem word_front {last last' : Nat} {rest rest' : List Token} (h : SameFront rest' rest) :
    (Parser.front last' rest').word = (Parser.front last rest).word := by
  cases rest with
  | nil =>
    rw [Token.sameFront_nil.1 h]
    rfl
  | cons t rest =>
    obtain ⟨t', rest', rfl, ht⟩ := Token.sameFront_cons h
    exact ht

/-- The fillers can be written down. -/
theorem spelled_of_mem_fillers {t : Token} (h : t ∈ Grammar.fillers) : t.Spelled := by
  obtain rfl | h := List.mem_cons.1 h
  · have hword : Token.Rule.word.Matches ['x'] := ⟨'x', [], rfl, by decide, nofun⟩
    exact Token.spelled_name 0 hword (by decide)
  · obtain ⟨k, hk, rfl⟩ := List.mem_map.1 h
    have hsymbol : ∀ k ∈ Grammar.fillerKinds, k ∈ Kind.symbols := by decide
    exact Token.spelled_symbol 0 (hsymbol k hk)

/-- The token `t` behind the tokens `before` is the first one at which they stop being the start of
a program, and it is what the error is about. -/
structure FirstBad (e : ParseError) (before : List Token) (t : Token) : Prop where
  blames : e.Blames t
  /-- Every source with the same words up to this one fails in the same way. -/
  fails : ∀ source, (before ++ [t]).map Token.word <+: (Stream.ofSource source).all.map Token.word →
    ∃ line, Program.parse source = .error (e.onLine line)
  /-- Some program starts with the words before this one. -/
  viable : ∃ source p, before.map Token.word <+: (Stream.ofSource source).tokens.map Token.word ∧
    Program.parse source = .ok p

/-- Tokens of a source that have begun a program are the first ones of some program. -/
theorem exists_program_of_begun {source : String} {us rest : List Token}
    (hsource : (Stream.ofSource source).tokens = us ++ rest)
    (h : Grammar.Begun Grammar.Statements us) :
    ∃ source' p, us.map Token.word <+: (Stream.ofSource source').tokens.map Token.word ∧
      Program.parse source' = .ok p := by
  obtain ⟨fs, p, hfs, hp⟩ := h
  have hspelled : ∀ t ∈ us ++ fs, t.Spelled := by
    intro t ht
    obtain hus | hfill := List.mem_append.1 ht
    · have hmem : t ∈ (Stream.ofSource source).tokens := by simp [hsource, hus]
      obtain ⟨_, hcut⟩ := Token.exists_cut_of_mem_tokens hmem
      exact hcut.spelled (hp.legal t ht)
    · exact spelled_of_mem_fillers (hfs hfill)
  obtain ⟨source', halike⟩ := Token.exists_source hspelled
  refine ⟨source', p, ?_, ?_⟩
  · rw [halike, List.map_append]
    exact List.prefix_append _ _
  · have hparse : Parser.program 0 (us ++ fs) = .ok p := Grammar.program_complete hp
    exact program_of_alike hparse halike

/-- **A parse error names the first token at which a source stops being the start of a program.** -/
theorem parse_error_first_bad {source : String} {e : ParseError}
    (h : Program.parse source = .error e) :
    ∃ before t after, (Stream.ofSource source).all = before ++ t :: after ∧
      FirstBad e before t := by
  rw [Program.parse, program_eq_error_iff] at h
  obtain ⟨p, us, rest, hts, hdet⟩ | ⟨cause, us, rest, hts, hus, hdet⟩ :=
    Grammar.program_decided (Stream.ofSource source).tokens
  · rw [hts] at h
    cases (hdet.apply _).symm.trans h
  · have herror : cause.error (Parser.front (Stream.ofSource source).lastLine rest) = e := by
      rw [hts] at h
      simpa [Parser.Failure] using (hdet.apply _).symm.trans h
    subst herror
    refine ⟨us, _, (rest ++ [(Stream.ofSource source).eof]).tail, ?_, cause.blames _, ?_,
      exists_program_of_begun hts hus⟩
    · rw [Stream.all, hts, List.append_assoc]
      cases rest <;> rfl
    · intro source' hwords
      obtain ⟨us', rest', hts', hus', hfront⟩ := exists_split_of_prefix hts hwords
      refine ⟨(Parser.front (Stream.ofSource source').lastLine rest').line, ?_⟩
      rw [Program.parse, program_eq_error_iff, hts', hdet _ us' rest' hus' hfront, Parser.Failure,
        cause.error_eq_onLine (word_front hfront)]

/-- Up to its comma the source is the start of a program: the end behind it is what is blamed. -/
theorem parse_error_first_bad_argument :
    Program.parse "var y = f(1,\n" = .error (.expressionExpected "end of input" 2) ∧
      ∃ before t after, (Stream.ofSource "var y = f(1,\n").all = before ++ t :: after ∧
        FirstBad (.expressionExpected "end of input" 2) before t :=
  have h : Program.parse "var y = f(1,\n" = .error (.expressionExpected "end of input" 2) := by
    with_unfolding_all rfl
  ⟨h, parse_error_first_bad h⟩

end TreeWalk

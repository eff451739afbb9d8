import TreeWalk.Proofs.Program.ValidPrefix
import TreeWalk.Proofs.Token.Layout

/-!
# Layout never changes meaning

**A source that is laid out anew is the same program, or fails for the same reason**
(`parse_layOut`): only the line of an error can change.

The tokens are the same but for their lines, and the parser takes no notice of lines.  What it does
is decided by the words up to one token, which it blames if it fails (`exists_blame`); so the same
words somewhere else give the same program (`program_of_alike`), or an error that blames the same
word on its new line (`program_error_of_alike`).
-/

set_option autoImplicit false

namespace TreeWalk

open Token (Stream Alike SameFront LaidOut layOut)
open TreeWalk.Parser (Cause)

/-- An error blames a token, and the words up to this one decide it. -/
theorem exists_blame {last : Nat} {ts : List Token} {e : ParseError}
    (h : Parser.program last ts = .error e) :
    ∃ (cause : Cause) (us rest : List Token), ts = us ++ rest ∧
      e = cause.error (Parser.front last rest) ∧
      ∀ last' us' rest', Alike us' us → SameFront rest' rest →
        Parser.program last' (us' ++ rest') = .error (cause.error (Parser.front last' rest')) := by
  rw [program_eq_error_iff] at h
  obtain ⟨p, us, rest, rfl, hdet⟩ | ⟨cause, us, rest, rfl, -, hdet⟩ := Grammar.program_decided ts
  · cases (hdet.apply last).symm.trans h
  · refine ⟨cause, us, rest, rfl, ?_, fun last' us' rest' hus hrest => ?_⟩
    · have herror := (hdet.apply last).symm.trans h
      rw [Parser.Failure] at herror
      exact (Except.error.inj herror).symm
    · exact program_eq_error_iff.2 (hdet last' us' rest' hus hrest)

theorem sameFront_of_alike {us vs : List Token} (h : Alike us vs) : SameFront us vs := by
  rw [SameFront, ← List.head?_map, ← List.head?_map, h]

/-- Lines do not matter to what is wrong with a source. -/
theorem program_error_of_alike {last last' : Nat} {ts us : List Token} {e : ParseError}
    (h : Parser.program last ts = .error e) (hus : Alike us ts) :
    ∃ line, Parser.program last' us = .error (e.onLine line) := by
  obtain ⟨cause, used, rest, rfl, rfl, hblame⟩ := exists_blame h
  obtain ⟨used', rest', rfl, hused, hrest⟩ := Token.alike_append hus
  have hfront := sameFront_of_alike hrest
  refine ⟨(Parser.front last' rest').line, ?_⟩
  rw [hblame last' used' rest' hused hfront, cause.error_eq_onLine (word_front hfront)]

/-- **Layout never changes meaning.**  When the tokens of a source are written down with other gaps
before, between and behind them, the new text has the same tokens but for their lines; it is the
same program, or the same error but for its line. -/
theorem parse_layOut {source : String} {gap : List Char} {parts : List (Token × List Char)}
    (hparts : parts.map Prod.fst = (Stream.ofSource source).tokens) (h : LaidOut gap parts) :
    (Stream.ofSource (String.ofList (gap ++ layOut parts))).all.map Token.word =
        (Stream.ofSource source).all.map Token.word ∧
      (∀ p, Program.parse source = .ok p →
        Program.parse (String.ofList (gap ++ layOut parts)) = .ok p) ∧
      ∀ e, Program.parse source = .error e →
        ∃ line, Program.parse (String.ofList (gap ++ layOut parts)) = .error (e.onLine line) := by
  have halike := Token.alike_layOut hparts h
  refine ⟨?_, fun p hp => program_of_alike hp halike, fun e he => program_error_of_alike he halike⟩
  rw [Stream.all, Stream.all, List.map_append, List.map_append, halike]
  rfl

/-- A division whose divisor is a stray character, with a string behind it that is never closed:
the comment in the new gap does not merge with the `/`, and the error moves to the next line. -/
theorem parse_layOut_stray :
    ∃ parts : List (Token × List Char),
      parts.map Prod.fst = (Stream.ofSource "x/@\"b").tokens ∧
      LaidOut [] parts ∧
      String.ofList ([] ++ layOut parts) = "x //c\n/\t@\n\"b" ∧
      Program.parse "x/@\"b" = .error (.expressionExpected "'@'" 1) ∧
      ∃ line, Program.parse (String.ofList ([] ++ layOut parts)) =
        .error (.expressionExpected "'@'" line) := by
  let parts : List (Token × List Char) :=
    [(⟨.identifier, "x", 1⟩, [' ', '/', '/', 'c', '\n']), (⟨.slash, "/", 1⟩, ['\t']),
      (⟨.illegal, "@", 1⟩, ['\n']), (⟨.illegal, "\"b", 1⟩, [])]
  have hparts : parts.map Prod.fst = (Stream.ofSource "x/@\"b").tokens := by
    with_unfolding_all rfl
  have hcomment : Token.Layout ([' ', '/', '/', 'c', '\n']) :=
    .blank (by decide) (@Token.Layout.comment ['c'] [] (by decide) .nil)
  have hblank {c : Char} {cs : List Char} (hc : c ∈ [' ', '\t', '\r', '\x0c', '\n']) :
      Token.BlankNext (c :: cs) := by
    rintro d ⟨⟩
    exact hc
  have hend : Token.BlankNext [] := by
    rintro d ⟨⟩
  have hlaid : LaidOut [] parts := by
    refine ⟨.inl .nil, .cons hcomment (by decide) (hblank (by decide)) ?_⟩
    refine .cons (.blank (by decide) .nil) (by decide) (hblank (by decide)) ?_
    refine .cons (.blank (by decide) .nil) (by decide) (hblank (by decide)) ?_
    exact .last (.closed .nil) hend fun _ => rfl
  have herror : Program.parse "x/@\"b" = .error (.expressionExpected "'@'" 1) := by
    with_unfolding_all rfl
  exact ⟨parts, hparts, hlaid, by with_unfolding_all rfl, herror,
    (parse_layOut hparts hlaid).2.2 _ herror⟩

end TreeWalk

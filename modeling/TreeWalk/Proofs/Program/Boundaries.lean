import TreeWalk.Proofs.Eval.Fuel
import TreeWalk.Program.Equality
import TreeWalk.Proofs.Eval.Clean
import TreeWalk.Proofs.Eval.Repeatable
import TreeWalk.Proofs.Eval.Sequence
import TreeWalk.Proofs.Program.InOrder

/-!
# The boundaries at which a `return` stops

A `return` ends the program, or the function call, in which it stands, and goes out of the blocks of
conditionals on its way.  **A source text means the same as a program, as the block of a conditional
and as the body of a function that is called at once** (`boundaries_agree`): all three run forever,
or they come to an end with the same error or with values that cannot be told apart, and print the
same lines.

As the block of a conditional the statements are evaluated in the same scope and the same store.  As
a body they are evaluated in a new scope inside the global one.  That one binds nothing, so that the
new scope corresponds to the global scope of the program on its own (`Store.Renamed`).
-/

set_option autoImplicit false

namespace TreeWalk

open Token (Joined Kind Piece Sound Stream number pieces)

/-! ## Divergence -/

/-- The source text comes to no end, however deep it may go. -/
def Diverges (source : String) : Prop := ∀ fuel, (interpret fuel source).outcome = .outOfFuel

/-- The source text is a program that comes to an end, with this result. -/
def EndsWith (source : String) (r : Result RuntimeError Value) : Prop :=
  r.outcome ≠ .outOfFuel ∧ ∃ n, ∀ fuel, n ≤ fuel → interpret fuel source = r.mapError .runtime

theorem Result.mapError_runtime_inj {r r' : Result RuntimeError Value}
    (h : r.mapError Error.runtime = r'.mapError Error.runtime) : r = r' := by
  obtain ⟨o, s, out⟩ := r
  obtain ⟨o', s', out'⟩ := r'
  cases o <;> cases o' <;> cases h <;> rfl

/-- A source text comes to one end only. -/
theorem EndsWith.unique {source : String} {r r' : Result RuntimeError Value}
    (h : EndsWith source r) (h' : EndsWith source r') : r = r' := by
  obtain ⟨-, n, hn⟩ := h
  obtain ⟨-, n', hn'⟩ := h'
  have hmax := (hn _ (Nat.le_max_left n n')).symm.trans (hn' _ (Nat.le_max_right n n'))
  exact Result.mapError_runtime_inj hmax

theorem EndsWith.not_diverges {source : String} {r : Result RuntimeError Value}
    (h : EndsWith source r) : ¬ Diverges source := by
  intro hdiverges
  obtain ⟨hends, n, hn⟩ := h
  have hout := hdiverges n
  rw [hn n (Nat.le_refl n)] at hout
  rcases r with ⟨_ | _ | _, t, out⟩
  · cases hout
  · cases hout
  · exact hends rfl

/-- The global scope of a program that runs on its own. -/
def Store.global : Store := ⟨#[⟨[], none⟩], 0⟩

section Interpret

variable {source : String} {p : Program} (h : Program.parse source = .ok p)

include h

theorem interpret_eq (fuel : Nat) :
    interpret fuel source = (p.eval fuel 0 .global).mapError .runtime := by
  show run fuel source 0 .global = _
  rw [run, h]

/-- A program diverges if the depths in an unbounded sequence are all too small for it. -/
theorem diverges_of_unbounded (k : Nat)
    (hout : ∀ fuel, (p.eval (fuel + k) 0 .global).outcome = .outOfFuel) : Diverges source := by
  intro fuel
  have hfuel : (p.eval fuel 0 .global).outcome = .outOfFuel := by
    obtain heq | heq := p.eval_agrees (Nat.le_add_right fuel k) 0 .global
    · exact heq
    · rw [← heq]
      exact hout fuel
  rw [interpret_eq h]
  show (p.eval fuel 0 .global).outcome.mapError Error.runtime = _
  rw [hfuel]
  rfl

/-- A program that comes to an end does so at every larger depth. -/
theorem endsWith_of_eval {fuel : Nat} {r : Result RuntimeError Value}
    (hr : p.eval fuel 0 .global = r) (hends : r.outcome ≠ .outOfFuel) : EndsWith source r := by
  refine ⟨hends, fuel, fun fuel' hle => ?_⟩
  rw [interpret_eq h]
  obtain hout | heq := p.eval_agrees hle 0 .global
  · rw [hr] at hout
    exact absurd hout hends
  · rw [heq, hr]

end Interpret

/-! ## The source texts -/

/-- The source text as the block of a conditional. -/
def asBlock (source : String) : String := "if (true) \x7b" ++ source ++ "\n\x7d"

/-- The source text as the body of a function that is called at once. -/
def asBody (source : String) : String := "func() \x7b" ++ source ++ "\n\x7d()"

/-- Between pieces that stay apart from it and a line end, a text keeps its pieces. -/
theorem pieces_enclosed {cs : List Char} (h : Sound (pieces cs)) {before : List Piece}
    (hbefore : ∀ {ps}, Joined ps → Joined (before ++ ps)) (behind : List Char) :
    pieces (before.flatMap Piece.chars ++ (cs ++ '\n' :: behind)) =
      before ++ (pieces cs ++ .gap "\n" :: pieces behind) := by
  have hjoined := hbefore (Token.joined_pieces (cs ++ '\n' :: behind))
  have hpieces := Token.pieces_flatMap hjoined
  rw [List.flatMap_append, Token.flatMap_chars_pieces] at hpieces
  rw [hpieces, Token.pieces_append_newline h]

theorem statements_single {ts : List Token} {a : Grammar.Stratum} {e : Expr}
    (h : Grammar.Derives a ts e) : Grammar.Statements ts [.expr e] := by
  have hend : ¬ Grammar.Continues [] := by
    rintro ⟨t, rest, heq, -⟩
    cases heq
  have hsingle := Grammar.Statements.bare (.expr (derives_equality h)) hend .nil
  rwa [List.append_nil] at hsingle

/-- What stands before the text in `asBlock`. -/
def blockPieces : List Piece :=
  [.mark .kwIf, .space, .mark .lparen, .mark .kwTrue, .mark .rparen, .space, .mark .lbrace]

/-- What stands before the text in `asBody`. -/
def bodyPieces : List Piece :=
  [.mark .kwFunc, .mark .lparen, .mark .rparen, .space, .mark .lbrace]

theorem joined_blockPieces {ps : List Piece} (h : Joined ps) : Joined (blockPieces ++ ps) := by
  have hbrace : Joined (.space :: .mark .lbrace :: ps) :=
    Token.joined_space (Piece.firstNot_cons rfl rfl _) (Token.joined_firm (by decide) h)
  have htest : Joined (.mark .kwTrue :: .mark .rparen :: .space :: .mark .lbrace :: ps) :=
    Token.joined_keyword (by decide) (Piece.firstNot_cons rfl rfl _)
      (Token.joined_firm (by decide) hbrace)
  refine Token.joined_keyword (by decide) (Piece.firstNot_cons rfl rfl _) ?_
  exact Token.joined_space (Piece.firstNot_cons rfl rfl _) (Token.joined_firm (by decide) htest)

theorem joined_bodyPieces {ps : List Piece} (h : Joined ps) : Joined (bodyPieces ++ ps) := by
  have hbrace : Joined (.space :: .mark .lbrace :: ps) :=
    Token.joined_space (Piece.firstNot_cons rfl rfl _) (Token.joined_firm (by decide) h)
  refine Token.joined_keyword (by decide) (Piece.firstNot_cons rfl rfl _) ?_
  exact Token.joined_firm (by decide) (Token.joined_firm (by decide) hbrace)

theorem toList_asBlock (source : String) : (asBlock source).toList =
    blockPieces.flatMap Piece.chars ++ (source.toList ++ '\n' :: ['\x7d']) := by
  simp [asBlock, blockPieces, Piece.mark, Piece.chars, Piece.space, Kind.text]

theorem toList_asBody (source : String) : (asBody source).toList =
    bodyPieces.flatMap Piece.chars ++ (source.toList ++ '\n' :: ['\x7d', '(', ')']) := by
  simp [asBody, bodyPieces, Piece.mark, Piece.chars, Piece.space, Kind.text]

/-- The tokens of a text keep their lines if no line ends before it. -/
theorem tokens_enclosed {source text : String} {before : List Piece}
    (h : Sound (pieces source.toList)) (hbefore : ∀ {ps}, Joined ps → Joined (before ++ ps))
    (hline : Token.lineAfter 1 before = 1) {behind : List Char}
    (htext : text.toList = before.flatMap Piece.chars ++ (source.toList ++ '\n' :: behind)) :
    ∃ line, (Stream.ofSource text).tokens =
      number 1 before ++ ((Stream.ofSource source).tokens ++ number line (pieces behind)) := by
  refine ⟨Token.lineAfter 1 (pieces source.toList) + (Piece.gap "\n").newlines, ?_⟩
  rw [Stream.ofSource, htext, pieces_enclosed h hbefore, Stream.ofPieces]
  show number 1 _ = _
  rw [Token.number_append, hline, Token.number_append]
  rfl

/-- As a block, the program is the one of a conditional. -/
theorem parse_asBlock {source : String} {p : Program} (h : Program.parse source = .ok p) :
    Program.parse (asBlock source) = .ok [.expr (.cond (.bool true) p none)] := by
  obtain ⟨line, htokens⟩ := tokens_enclosed (sound_of_parse h) joined_blockPieces rfl
    (toList_asBlock source)
  have hbehind : number line (pieces ['\x7d']) = [⟨.rbrace, "\x7d", line⟩] := by
    with_unfolding_all rfl
  rw [Grammar.parse_eq_ok_iff, htokens, hbehind]
  have hbraced : Grammar.Braced
      (⟨.lbrace, "\x7b", 1⟩ :: (Stream.ofSource source).tokens ++ [⟨.rbrace, "\x7d", line⟩]) p :=
    .braces rfl (Grammar.parse_eq_ok_iff.1 h) rfl
  have htest : Grammar.Derives .equality [⟨.kwTrue, "true", 1⟩] (.bool true) :=
    derives_equality (.kwTrue rfl)
  have hcond := Grammar.Derives.cond (i := ⟨.kwIf, "if", 1⟩) (o := ⟨.lparen, "(", 1⟩)
    (c := ⟨.rparen, ")", 1⟩) rfl rfl htest rfl hbraced .none
  rw [List.append_nil] at hcond
  exact statements_single hcond

/-- As a body, the program is that of a function which is called. -/
theorem parse_asBody {source : String} {p : Program} (h : Program.parse source = .ok p) :
    Program.parse (asBody source) = .ok [.expr (.call (.func [] p) [])] := by
  obtain ⟨line, htokens⟩ := tokens_enclosed (sound_of_parse h) joined_bodyPieces rfl
    (toList_asBody source)
  have hbehind : number line (pieces ['\x7d', '(', ')']) =
      [⟨.rbrace, "\x7d", line⟩, ⟨.lparen, "(", line⟩, ⟨.rparen, ")", line⟩] := by
    with_unfolding_all rfl
  have hbefore : number 1 bodyPieces = [⟨.kwFunc, "func", 1⟩, ⟨.lparen, "(", 1⟩,
      ⟨.rparen, ")", 1⟩, ⟨.lbrace, "\x7b", 1⟩] := rfl
  rw [Grammar.parse_eq_ok_iff, htokens, hbefore, hbehind]
  have hbraced : Grammar.Braced
      (⟨.lbrace, "\x7b", 1⟩ :: (Stream.ofSource source).tokens ++ [⟨.rbrace, "\x7d", line⟩]) p :=
    .braces rfl (Grammar.parse_eq_ok_iff.1 h) rfl
  have hfunc := Grammar.Derives.func (f := ⟨.kwFunc, "func", 1⟩) (o := ⟨.lparen, "(", 1⟩)
    (c := ⟨.rparen, ")", 1⟩) rfl rfl .nil rfl hbraced
  have hcall := Grammar.Derives.call (o := ⟨.lparen, "(", line⟩) (c := ⟨.rparen, ")", line⟩)
    (derives_primary hfunc) rfl .nil rfl
  refine statements_single (a := .applied) ?_
  simpa using hcall

/-! ## The three evaluations -/

/-- As a block, the program is evaluated as it is on its own. -/
theorem eval_cond_true (fuel scope : Nat) (p : Program) :
    Program.eval (fuel + 2) scope [.expr (.cond (.bool true) p none)] =
      p.eval (fuel + 1) scope := by
  have hcond : TreeWalk.eval (fuel + 2) scope (.cond (.bool true) p none) =
      Eval.block (TreeWalk.eval (fuel + 1)) scope p :=
    Eval.operand_pure _ Value.Kind.noConfusion
  rw [Program.eval, Eval.block_single, hcond]
  rfl

/-- The global scope, and in it the scope of a call without arguments. -/
def Store.nested : Store := ⟨#[⟨[], none⟩, ⟨[], some 0⟩], 1⟩

theorem settled_nested : Store.nested.Settled :=
  fun i f hf => Store.Holds.global.openScope (some 0) (List.forall_mem_nil _) i f hf

/-- As a body, the program is evaluated in the scope of the call. -/
theorem eval_call_func (fuel : Nat) (p : Program) :
    Program.eval (fuel + 2) 0 [.expr (.call (.func [] p) [])] .global =
      p.eval (fuel + 1) 1 .nested := by
  have hcall : TreeWalk.eval (fuel + 2) 0 (.call (.func [] p) []) .global =
      p.eval (fuel + 1) 1 .nested := by
    have hclose : TreeWalk.eval (fuel + 1) 0 (.func [] p) .global =
        ⟨.done (.closure ⟨0, ⟨[], p⟩, 0⟩), ⟨#[⟨[], none⟩], 1⟩, []⟩ := rfl
    exact Eval.operand_of_done _ hclose Value.Kind.noConfusion
  have hsettled := ((p.eval_tracks (fuel + 1) 1) .nested settled_nested).1.value
  rw [Program.eval, Eval.bind_settle, Eval.block_single, hcall]
  generalize p.eval (fuel + 1) 1 .nested = r at hsettled
  -- The call has unwrapped the value already, so the program finds nothing to unwrap.
  obtain ⟨v | e | _, t, out⟩ := r
  · show Result.mk (.done v.settle) t out = _
    rw [Eval.settle_of_kind_ne (hsettled v rfl).kind_ne]
  · rfl
  · rfl

/-- The global scope of the program on its own corresponds to the scope of the call. -/
theorem renamed_nested : Store.global.Renamed (fun i j => i = 0 ∧ j = 1) .nested where
  frames := by
    rintro i j ⟨rfl, rfl⟩
    have hbare : Store.Bare (fun i j => i = 0 ∧ j = 1) .nested 0 := by
      refine ⟨rfl, ?_⟩
      rintro p ⟨-, h⟩
      cases h
    exact ⟨⟨[], none⟩, ⟨[], some 0⟩, rfl, rfl, .nil, .bare hbare Nat.one_pos⟩
  right_unique := by
    rintro i j k ⟨-, rfl⟩ ⟨-, rfl⟩
    rfl
  left_unique := by
    rintro i j k ⟨rfl, -⟩ ⟨rfl, -⟩
    rfl

/-- At every depth the program comes to the same end on its own and as a body. -/
theorem eval_renamed_nested (fuel : Nat) (p : Program) :
    ∃ ρ, (p.eval fuel 0 .global).Renamed Value.Renamed ρ (p.eval fuel 1 .nested) := by
  obtain ⟨ρ, -, hresult, -⟩ := p.eval_simulates fuel ⟨rfl, rfl⟩ (.refl _) renamed_nested
  exact ⟨ρ, hresult⟩

theorem Outcome.Renamed.outOfFuel_iff {α β : Type} {R : α → β → Prop}
    {o : Outcome RuntimeError α} {o' : Outcome RuntimeError β} (h : o.Renamed R o') :
    o = .outOfFuel ↔ o' = .outOfFuel := by
  cases h <;> simp

/-- **The boundaries agree.**  A source text that parses means the same on its own, as the block of
a conditional and as the body of a function that is called at once.  Either all three diverge, or
all three come to an end.  Then the first two have the very same result; the third one prints the
same lines, and it fails with the same error or has a value of the same kind that is shown alike. -/
theorem boundaries_agree {source : String} {p : Program} (h : Program.parse source = .ok p) :
    (Diverges source ∧ Diverges (asBlock source) ∧ Diverges (asBody source)) ∨
      ∃ r r', EndsWith source r ∧ EndsWith (asBlock source) r ∧ EndsWith (asBody source) r' ∧
        r.SameAnswer r' := by
  have hblock := parse_asBlock h
  have hbody := parse_asBody h
  by_cases hout : ∀ fuel, (p.eval (fuel + 1) 0 .global).outcome = .outOfFuel
  · refine .inl ⟨diverges_of_unbounded h 1 hout, diverges_of_unbounded hblock 2 fun fuel => ?_,
      diverges_of_unbounded hbody 2 fun fuel => ?_⟩
    · rw [eval_cond_true]
      exact hout fuel
    · obtain ⟨ρ, hrenamed⟩ := eval_renamed_nested (fuel + 1) p
      rw [eval_call_func]
      exact hrenamed.outcome.outOfFuel_iff.1 (hout fuel)
  · obtain ⟨fuel, hends⟩ := Classical.not_forall.1 hout
    obtain ⟨ρ, hrenamed⟩ := eval_renamed_nested (fuel + 1) p
    have hends' := mt hrenamed.outcome.outOfFuel_iff.2 hends
    have hcond := congrFun (eval_cond_true fuel 0 p) .global
    exact .inr ⟨_, _, endsWith_of_eval h rfl hends, endsWith_of_eval hblock hcond hends,
      endsWith_of_eval hbody (eval_call_func fuel p) hends', hrenamed.sameAnswer hends⟩

/-- A `return` inside a conditional inside an array, with a function made and called before it.  As
a body, the program finds one function made and one scope opened before its own. -/
theorem boundaries_agree_nested :
    ∃ (source : String) (p : Program) (f : Lambda) (r r' : Result RuntimeError Value),
      source = "var f = func() \x7b1\x7d; puts(f()); [if (true) \x7breturn [f]\x7d]; puts(2)" ∧
      Program.parse source = .ok p ∧ f = ⟨[], [.expr (.int 1)]⟩ ∧
      EndsWith source r ∧ EndsWith (asBlock source) r ∧ EndsWith (asBody source) r' ∧
      r.SameAnswer r' ∧
      r = ⟨.done (.array [.closure ⟨0, f, 0⟩]),
        ⟨#[⟨[("f", .closure ⟨0, f, 0⟩)], none⟩, ⟨[], some 0⟩], 1⟩, ["1"]⟩ ∧
      r' = ⟨.done (.array [.closure ⟨1, f, 1⟩]),
        ⟨#[⟨[], none⟩, ⟨[("f", .closure ⟨1, f, 1⟩)], some 0⟩, ⟨[], some 1⟩], 2⟩, ["1"]⟩ := by
  let p : Program := [.bind "f" (.func [] [.expr (.int 1)]),
    .expr (.call (.ident "puts") [.call (.ident "f") []]),
    .expr (.array [.cond (.bool true) [.ret (.array [.ident "f"])] none]),
    .expr (.call (.ident "puts") [.int 2])]
  let f : Lambda := ⟨[], [.expr (.int 1)]⟩
  let own : Result RuntimeError Value := ⟨.done (.array [.closure ⟨0, f, 0⟩]),
    ⟨#[⟨[("f", .closure ⟨0, f, 0⟩)], none⟩, ⟨[], some 0⟩], 1⟩, ["1"]⟩
  let nested : Result RuntimeError Value := ⟨.done (.array [.closure ⟨1, f, 1⟩]),
    ⟨#[⟨[], none⟩, ⟨[("f", .closure ⟨1, f, 1⟩)], some 0⟩, ⟨[], some 1⟩], 2⟩, ["1"]⟩
  have h : Program.parse
      "var f = func() \x7b1\x7d; puts(f()); [if (true) \x7breturn [f]\x7d]; puts(2)" = .ok p := by
    decide +kernel
  have hown : p.eval 5 0 .global = own := by with_unfolding_all rfl
  have hnested : Program.eval 7 0 [.expr (.call (.func [] p) [])] .global = nested := by
    with_unfolding_all rfl
  have hends := endsWith_of_eval h hown (by rintro ⟨⟩)
  have hends' := endsWith_of_eval (parse_asBody h) hnested (by rintro ⟨⟩)
  rcases boundaries_agree h with ⟨hdiverges, -⟩ | ⟨r, r', hr, hblock, hr', hsame⟩
  · exact absurd hdiverges hends.not_diverges
  · obtain rfl := hr.unique hends
    obtain rfl := hr'.unique hends'
    exact ⟨_, p, f, own, nested, rfl, h, rfl, hr, hblock, hr', hsame, rfl, rfl⟩

end TreeWalk

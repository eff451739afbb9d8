import Mathlib.Data.List.Forall2
import TreeWalk.Interpreter
import TreeWalk.Proofs.Eval.Sequence
import TreeWalk.Proofs.Grammar.Sequence
import TreeWalk.Proofs.Program.Layout
import TreeWalk.Proofs.Token.Seam

/-!
# Several source texts in one scope

**Running source texts one after the other in a scope is running them as one text**, with a line end
between each two (`run_intercalate`).  What is needed is that each of them ends with a semicolon, if
it has any tokens: otherwise the last statement of one could go on in the next.

Joining commutes with all three stages.  The tokens of the joined text are those of its parts, on
later lines (`Token.ofSource_append_newline`); the parser starts afresh behind a semicolon
(`Grammar.program_append`); and evaluation goes on with the value so far (`Eval.stmts_append`).
-/

set_option autoImplicit false

namespace TreeWalk

open Token (Stream Alike Sound later)

/-! ## In order -/

/-- Whether the source text ends by a `return` that stands outside all functions. -/
def returns (fuel : Nat) (source : String) (scope : Nat) (s : Store) : Bool :=
  match Program.parse source with
  | .ok p =>
    match (Eval.block (eval fuel) scope p s).outcome with
    | .done (.pending _) => true
    | _ => false
  | .error _ => false

/-- Whether the source text is a program without statements. -/
def hasNoStatements (source : String) : Bool :=
  match Program.parse source with
  | .ok p => p.isEmpty
  | .error _ => false

/-- Runs source texts one after the other in a scope, up to the first one that has no value or ends
by a `return`.  The value is that of the last one that has statements, and the given one if there
is none. -/
def runInOrder (fuel scope : Nat) (value : Value) : List String → Store → Result Error Value
  | [], s => ⟨.done value, s, []⟩
  | source :: rest, s =>
    match run fuel source scope s with
    | ⟨.done v, t, lines⟩ =>
      if returns fuel source scope s then ⟨.done v, t, lines⟩
      else (runInOrder fuel scope (if hasNoStatements source then value else v) rest t).after lines
    | r => r

/-! ## Parsing -/

/-- The source text parses to the program and ends with a semicolon, if it has any tokens. -/
structure Whole (source : String) (p : Program) : Prop where
  parse_eq : Program.parse source = .ok p
  finished : Grammar.Finished (Stream.ofSource source).tokens

/-- A text that parses has no illegal piece. -/
theorem sound_of_parse {source : String} {p : Program} (h : Program.parse source = .ok p) :
    Sound (Token.pieces source.toList) :=
  Token.sound_of_number (Grammar.parse_eq_ok_iff.1 h).legal

theorem alike_later (k : Nat) (ts : List Token) : Alike (ts.map (later k)) ts := by
  rw [Alike, List.map_map]
  rfl

/-- Some lines further down, the same is wrong. -/
theorem program_error_later {last : Nat} {ts : List Token} {e : ParseError} (k : Nat)
    (h : Parser.program last ts = .error e) :
    Parser.program (last + k) (ts.map (later k)) = .error (e.onLine (e.line + k)) := by
  obtain ⟨cause, used, rest, rfl, rfl, hblame⟩ := exists_blame h
  have hrest := alike_later k rest
  have hfront : Parser.front (last + k) (rest.map (later k)) =
      (Parser.front last rest).later k := by
    cases rest <;> rfl
  rw [List.map_append, hblame _ _ _ (alike_later k used) (sameFront_of_alike hrest),
    cause.error_eq_onLine (word_front (sameFront_of_alike hrest)), hfront,
    (cause.blames (Parser.front last rest)).1]
  rfl

/-- What the parser makes of the two texts together. -/
theorem Whole.parse_append {a : String} {p : Program} (ha : Whole a p) (b : String) :
    Program.parse (a ++ "\n" ++ b) =
      (Parser.program ((Stream.ofSource b).lastLine + (a.toList.count '\n' + 1))
        ((Stream.ofSource b).tokens.map (later (a.toList.count '\n' + 1)))).map (p ++ ·) := by
  rw [Program.parse, Token.ofSource_append_newline (sound_of_parse ha.parse_eq) b]
  exact Grammar.program_append _ (Grammar.parse_eq_ok_iff.1 ha.parse_eq) ha.finished

/-- **Whole texts make a whole text.** -/
theorem Whole.append {a b : String} {p q : Program} (ha : Whole a p) (hb : Whole b q) :
    Whole (a ++ "\n" ++ b) (p ++ q) := by
  refine ⟨?_, ?_⟩
  · rw [ha.parse_append, program_of_alike hb.parse_eq (alike_later _ _)]
    rfl
  · intro t ht
    rw [Token.ofSource_append_newline (sound_of_parse ha.parse_eq), List.getLast?_append,
      List.getLast?_map] at ht
    cases hlast : (Stream.ofSource b).tokens.getLast? with
    | none =>
      rw [hlast] at ht
      exact ha.finished t ht
    | some u =>
      rw [hlast] at ht
      cases ht
      exact hb.finished u hlast

theorem whole_nil : Whole "" [] := by
  have htokens : (Stream.ofSource "").tokens = [] := by with_unfolding_all rfl
  refine ⟨by with_unfolding_all rfl, fun t ht => ?_⟩
  rw [htokens] at ht
  cases ht

/-- The texts of a list, with a line end between each two, make a whole text. -/
theorem whole_intercalate {sources : List String} {programs : List Program}
    (h : List.Forall₂ Whole sources programs) :
    Whole ("\n".intercalate sources) programs.flatten := by
  induction h with
  | nil => exact whole_nil
  | @cons a p sources programs ha hrest ih =>
    cases hrest with
    | nil =>
      rw [String.intercalate_singleton, List.flatten_singleton]
      exact ha
    | cons hb hrest =>
      rw [String.intercalate_cons_cons, List.flatten_cons]
      exact ha.append ih

/-- Behind a whole text, the error of another text is found further down. -/
theorem Whole.parse_append_error {a b : String} {p : Program} {e : ParseError} (ha : Whole a p)
    (hb : Program.parse b = .error e) :
    Program.parse (a ++ "\n" ++ b) =
      .error (e.onLine (e.line + (a.toList.count '\n' + 1))) := by
  rw [ha.parse_append, program_error_later _ hb]
  rfl

/-! ## Running -/

theorem Whole.run_eq {source : String} {p : Program} (h : Whole source p) (fuel scope : Nat)
    (s : Store) :
    run fuel source scope s = (Eval.block (eval fuel) scope p s).settle.mapError .runtime := by
  rw [run, h.parse_eq]
  exact congrArg (Result.mapError Error.runtime) (Eval.bind_settle _ s)

theorem Whole.returns_eq {source : String} {p : Program} (h : Whole source p) {fuel scope : Nat}
    {s : Store} {v : Value} (hv : (Eval.block (eval fuel) scope p s).outcome = .done v) :
    returns fuel source scope s = decide (v.kind = .returnValue) := by
  rw [returns, h.parse_eq]
  show (match (Eval.block (eval fuel) scope p s).outcome with
    | .done (.pending _) => true
    | _ => false) = _
  rw [hv]
  cases v <;> rfl

theorem Whole.hasNoStatements_eq {source : String} {p : Program} (h : Whole source p) :
    hasNoStatements source = p.isEmpty := by
  rw [hasNoStatements, h.parse_eq]

/-- Running in order is evaluating all the statements with the value so far. -/
theorem runInOrder_eq {sources : List String} {programs : List Program}
    (h : List.Forall₂ Whole sources programs) (fuel scope : Nat) {value : Value}
    (hv : value.kind ≠ .returnValue) (s : Store) :
    runInOrder fuel scope value sources s =
      (Eval.stmts (eval fuel) scope value programs.flatten s).settle.mapError .runtime := by
  induction h generalizing value s with
  | nil =>
    show Result.mk _ _ _ = Result.mk (.done value.settle) s []
    rw [Eval.settle_of_kind_ne hv]
  | @cons source p sources programs hsource _ ih =>
    rw [List.flatten_cons, Eval.stmts_append _ _ hv, runInOrder, hsource.run_eq,
      hsource.hasNoStatements_eq]
    by_cases hp : p = []
    · subst hp
      have hgoes : returns fuel source scope s = false := hsource.returns_eq rfl
      have hskip : Eval.operand (Eval.stmts (eval fuel) scope value [])
          (fun v => Eval.stmts (eval fuel) scope v programs.flatten) =
            Eval.stmts (eval fuel) scope value programs.flatten := Eval.operand_pure _ hv
      rw [hskip, ← ih hv s, hgoes]
      rfl
    · have hblank : p.isEmpty = false := List.isEmpty_eq_false_iff.2 hp
      rw [Eval.stmts_eq_block _ _ hp, hblank]
      rcases hblock : Eval.block (eval fuel) scope p s with ⟨v | e | _, t, out⟩
      · have hreturns := hsource.returns_eq (congrArg Result.outcome hblock)
        by_cases hpending : v.kind = .returnValue
        · obtain ⟨w, rfl⟩ : ∃ w, v = .pending w := by
            cases v <;> first | exact ⟨_, rfl⟩ | cases hpending
          rw [Eval.operand_of_pending _ hblock, hreturns]
          rfl
        · rw [Eval.operand_of_done _ hblock hpending, hreturns, decide_eq_false hpending]
          show (runInOrder fuel scope v.settle sources t).after out = _
          rw [Eval.settle_of_kind_ne hpending, ih hpending t]
          rfl
      · rw [Eval.operand, Eval.bind_of_failed hblock]
        rfl
      · rw [Eval.operand, Eval.bind_of_outOfFuel hblock]
        rfl

/-- **Several source texts are one long text.**  Let every one of the texts parse, and end with a
semicolon if it has any tokens.  Joined by line ends they parse to the statements of all of them;
running the joined text in a scope gives the value or the error, the store and the output of running
them in order there.  A text that does not parse has the same error behind such a text, as many
lines further down as that one has, counting the line end between them. -/
theorem run_intercalate {sources : List String} {programs : List Program}
    (h : List.Forall₂ Whole sources programs) :
    Program.parse ("\n".intercalate sources) = .ok programs.flatten ∧
      (∀ fuel scope s, run fuel ("\n".intercalate sources) scope s =
        runInOrder fuel scope .null sources s) ∧
      ∀ a p b e, Whole a p → Program.parse b = .error e →
        Program.parse (a ++ "\n" ++ b) =
          .error (e.onLine (e.line + (a.toList.count '\n' + 1))) := by
  have hwhole := whole_intercalate h
  refine ⟨hwhole.parse_eq, fun fuel scope s => ?_, fun a p b e ha hb =>
    ha.parse_append_error hb⟩
  rw [hwhole.run_eq, runInOrder_eq h fuel scope Value.Kind.noConfusion]
  rfl

/-- Three texts: one with a comment at its end, one without statements, and one that starts with a
parenthesis and returns before its last statement.  A stray parenthesis behind the first one is
found on the second line. -/
theorem run_intercalate_returns :
    ∃ (sources : List String) (programs : List Program),
      sources = ["var a = \"b\"; // c", "", "(puts)(a); return a; puts(3);"] ∧
      List.Forall₂ Whole sources programs ∧
      runInOrder 9 0 .null sources ⟨#[⟨[], none⟩], 0⟩ =
        ⟨.done (.str "b"), ⟨#[⟨[("a", .str "b")], none⟩], 0⟩, ["b"]⟩ ∧
      run 9 ("\n".intercalate sources) 0 ⟨#[⟨[], none⟩], 0⟩ =
        ⟨.done (.str "b"), ⟨#[⟨[("a", .str "b")], none⟩], 0⟩, ["b"]⟩ ∧
      Program.parse ")" = .error (.expressionExpected "')'" 1) ∧
      Program.parse ("var a = \"b\"; // c" ++ "\n" ++ ")") =
        .error (.expressionExpected "')'" 2) := by
  let sources := ["var a = \"b\"; // c", "", "(puts)(a); return a; puts(3);"]
  let first : Program := [.bind "a" (.str "b")]
  let third : Program := [.expr (.call (.ident "puts") [.ident "a"]), .ret (.ident "a"),
    .expr (.call (.ident "puts") [.int 3])]
  have hfinished {ts : List Token} (h : ts.getLast? = some ⟨.semicolon, ";", 1⟩) :
      Grammar.Finished ts := by
    intro t ht
    rw [h] at ht
    cases ht
    rfl
  have hfirst : Whole "var a = \"b\"; // c" first :=
    ⟨by with_unfolding_all rfl, hfinished (by with_unfolding_all rfl)⟩
  have hthird : Whole "(puts)(a); return a; puts(3);" third :=
    ⟨by with_unfolding_all rfl, hfinished (by with_unfolding_all rfl)⟩
  have hsources : List.Forall₂ Whole sources [first, [], third] :=
    .cons hfirst (.cons whole_nil (.cons hthird .nil))
  have hinOrder : runInOrder 9 0 .null sources ⟨#[⟨[], none⟩], 0⟩ =
      ⟨.done (.str "b"), ⟨#[⟨[("a", .str "b")], none⟩], 0⟩, ["b"]⟩ := by
    rw [runInOrder_eq hsources 9 0 Value.Kind.noConfusion]
    with_unfolding_all rfl
  have herror : Program.parse ")" = .error (.expressionExpected "')'" 1) := by
    with_unfolding_all rfl
  obtain ⟨-, hrun, hline⟩ := run_intercalate hsources
  exact ⟨sources, _, rfl, hsources, hinOrder, (hrun 9 0 _).trans hinOrder, herror,
    hline _ _ _ _ hfirst herror⟩

end TreeWalk

import TreeWalk.Shell

/-!
# What the lines of a session have to do with each other

A session is a row of exchanges, one for each line that is read (`dialogue`).  All that an exchange
takes from those before it is the store, and that is the one which running the earlier lines leaves
(`Leaves`), whether they fail or not.  A line that is blank or does not parse leaves the store as it
was (`Idle`), so it can be put in or left out without any effect on the others; and with the line
`exit` nothing is read any more.

All of this is to be read off the texts that the user gets: a session writes what its exchanges
write, one after the other, and an exchange writes the prompt and the answer to its line, and prints
what the program of the line prints (`Exchange.Shows`).  `start_dialogue` says this of whole inputs.
-/

set_option autoImplicit false

namespace TreeWalk.Shell

/-! ## Lines of an input -/

theorem lines_eq_nil {input : List UInt8} (h : lines input = []) : input = [] := by
  fun_cases lines input with
  | case1 => rfl
  | case2 rest => simp [lines] at h
  | case3 b rest hb hrest => simp [lines, hb, hrest] at h
  | case4 b rest hb l ls hrest => simp [lines, hb, hrest] at h

/-- What follows behind a line end adds lines and changes none. -/
theorem lines_append (input rest : List UInt8) :
    ∃ more, lines (input ++ 10 :: rest) = lines input ++ more := by
  induction input with
  | nil => exact ⟨_, rfl⟩
  | cons b input ih =>
    obtain ⟨more, hmore⟩ := ih
    simp only [List.cons_append, lines]
    by_cases hb : b = 10
    · exact ⟨more, by simp [hb, hmore]⟩
    · simp only [hb, if_false, hmore]
      cases hlines : lines input with
      | nil =>
        -- The line end comes right behind this byte.
        obtain rfl := lines_eq_nil hlines
        simp only [List.nil_append, lines, if_true] at hmore
        exact ⟨lines rest, by simp [← hmore]⟩
      | cons l ls => exact ⟨more, rfl⟩

/-! ## Exchanges -/

/-- The part of a session that belongs to one line. -/
structure Exchange where
  /-- The line, unless the input has come to its end. -/
  line? : Option (List UInt8)
  /-- What follows the prompt. -/
  events : List Event
  deriving DecidableEq, Repr

/-- The events that a line leads to. -/
def Reply.events : Reply → List Event
  | stop events _ => events
  | next events _ => events

/-- The exchanges in the rest of a session. -/
def exchanges (fuel scope : Nat) : Store → List (List UInt8) → List Exchange
  | _, [] => [⟨none, []⟩]
  | s, l :: ls =>
    let reply := step fuel scope s l
    ⟨some l, reply.events⟩ ::
      match reply with
      | .stop _ _ => []
      | .next _ s => exchanges fuel scope s ls

/-- What the shell itself writes in an exchange. -/
def Exchange.written (x : Exchange) : String :=
  String.join ((.prompted :: x.events).map Event.written)

/-- What the program of the line prints. -/
def Exchange.output (x : Exchange) : String :=
  String.join ((.prompted :: x.events).map Event.output)

/-- What the user sees of an exchange. -/
def Exchange.shown (x : Exchange) : String :=
  String.join ((.prompted :: x.events).map Event.shown)

/-- The texts of an exchange.  The answer follows the prompt, and on a screen what is printed comes
between the two. -/
structure Exchange.Shows (x : Exchange) (printed answer : String) : Prop where
  written : x.written = ">> " ++ answer
  output : x.output = printed
  shown : x.shown = ">> " ++ printed ++ answer

/-- The exchanges of a session on an input. -/
def dialogue (fuel : Nat) (input : List UInt8) : List Exchange :=
  let (scope, s) := Store.empty.openGlobal
  exchanges fuel scope s (lines input)

variable {fuel scope : Nat} {s t : Store} {l : List UInt8} {ls ls' : List (List UInt8)}
  {text answer : String} {events : List Event}

/-- Every exchange starts with a prompt, and there is nothing else in a session. -/
theorem session_events (s : Store) (ls : List (List UInt8)) :
    (session fuel scope s ls).events =
      (exchanges fuel scope s ls).flatMap fun x => .prompted :: x.events := by
  induction ls generalizing s with
  | nil => rfl
  | cons l ls ih =>
    rw [session, exchanges]
    cases step fuel scope s l with
    | stop events ending => simp [Reply.events]
    | next events t => simp [Reply.events, ih]

/-- The texts of the events of a session are those of its exchanges, one after the other. -/
theorem join_session_events (text : Event → String) (s : Store) (ls : List (List UInt8)) :
    String.join ((session fuel scope s ls).events.map text) =
      String.join ((exchanges fuel scope s ls).map fun x =>
        String.join ((.prompted :: x.events).map text)) := by
  rw [session_events]
  induction exchanges fuel scope s ls with
  | nil => rfl
  | cons x xs ih => simp only [List.flatMap_cons, List.map_append, String.join_append, ih,
      List.map_cons, String.join_cons]

/-- Behind the prompt there are the printed lines and then the answers. -/
theorem shows_append (line? : Option (List UInt8)) (printed answers : List String) :
    (Exchange.mk line? (printed.map .printed ++ answers.map .answered)).Shows
      (String.join (printed.map (· ++ "\n"))) (String.join (answers.map (· ++ "\n"))) := by
  have hnone (n : Nat) : String.join (List.replicate n "") = "" := by
    induction n with
    | zero => rfl
    | succ n ih => simpa [List.replicate_succ] using ih
  constructor <;>
    simp [Exchange.written, Exchange.output, Exchange.shown, Event.written, Event.output,
      Event.shown, prompt, hnone, List.map_const', Function.comp_def, String.append_assoc]

/-- Nothing follows the prompt. -/
theorem shows_nil (line? : Option (List UInt8)) : (Exchange.mk line? []).Shows "" "" :=
  shows_append line? [] []

theorem shows_answered (line? : Option (List UInt8)) (text : String) :
    (Exchange.mk line? [.answered text]).Shows "" (text ++ "\n") := by
  simpa using shows_append line? [] [text]

/-- The lines are read in order. -/
theorem exchanges_lines (s : Store) (ls : List (List UInt8)) :
    (exchanges fuel scope s ls).map (·.line?) <+: ls.map some ++ [none] := by
  induction ls generalizing s with
  | nil => exact List.prefix_rfl
  | cons l ls ih =>
    rw [exchanges]
    cases step fuel scope s l with
    | stop events ending => exact ⟨ls.map some ++ [none], rfl⟩
    | next events t => exact List.prefix_cons_inj _ |>.2 (ih t)

/-! ## Lines that leave no trace -/

/-- The line is blank or does not parse, and this is the answer to it: none at all, or the error
in a line of its own. -/
inductive Idle : List UInt8 → String → Prop
  | blank {l : List UInt8} {text : String} (hl : decode? l = some text)
      (hblank : Text.allBlank text = true) : Idle l ""
  | malformed {l : List UInt8} {text : String} {e : ParseError} (hl : decode? l = some text)
      (hblank : Text.allBlank text = false) (he : Program.parse text = .error e) :
      Idle l ((Error.parse e).message ++ "\n")

theorem allBlank_exitLine : Text.allBlank exitLine = false := by decide +kernel

theorem parse_exitLine : Program.parse exitLine = .ok [.expr (.ident "exit")] := by
  with_unfolding_all rfl

theorem step_blank (hl : decode? l = some text) (hblank : Text.allBlank text = true) :
    step fuel scope s l = .next [] s := by
  have hexit : text ≠ exitLine := by
    rintro rfl
    simp [allBlank_exitLine] at hblank
  simp [step, hl, hexit, hblank]

theorem step_text (hl : decode? l = some text) (hexit : text ≠ exitLine)
    (hblank : Text.allBlank text = false) : step fuel scope s l = respond fuel scope s text := by
  simp [step, hl, hexit, hblank]

/-- The session goes on with the store that it had. -/
theorem Idle.step_eq (h : Idle l answer) :
    ∃ events, (Exchange.mk (some l) events).Shows "" answer ∧
      ∀ fuel scope s, step fuel scope s l = .next events s := by
  cases h with
  | blank hl hblank => exact ⟨[], shows_nil _, fun fuel scope s => step_blank hl hblank⟩
  | @malformed text e hl hblank he =>
    have hexit : text ≠ exitLine := by
      rintro rfl
      simp [parse_exitLine] at he
    refine ⟨_, shows_answered _ _, fun fuel scope s => ?_⟩
    rw [step_text hl hexit hblank]
    simp [respond, run, he]

/-- The second list is the first one with elements of a kind put in at any places. -/
inductive Interspersed {α : Type} (P : α → Prop) : List α → List α → Prop
  | nil : Interspersed P [] []
  | keep (a : α) {as bs : List α} (h : Interspersed P as bs) : Interspersed P (a :: as) (a :: bs)
  | insert {b : α} {as bs : List α} (hb : P b) (h : Interspersed P as bs) :
      Interspersed P as (b :: bs)

/-- Idle lines among the others add their own exchanges. -/
theorem Interspersed.exchanges (h : Interspersed (fun l => ∃ answer, Idle l answer) ls ls')
    (s : Store) :
    Interspersed (fun x => ∃ l answer, x.line? = some l ∧ Idle l answer ∧ x.Shows "" answer)
      (exchanges fuel scope s ls) (exchanges fuel scope s ls') := by
  induction h generalizing s with
  | nil => exact .keep _ .nil
  | keep l _ ih =>
    rw [Shell.exchanges, Shell.exchanges]
    cases step fuel scope s l with
    | stop events ending => exact .keep _ .nil
    | next events t => exact .keep _ (ih t)
  | @insert l ls ls' hl _ ih =>
    obtain ⟨answer, hidle⟩ := hl
    obtain ⟨events, hshows, hstep⟩ := hidle.step_eq
    rw [Shell.exchanges.eq_def _ _ _ (l :: ls')]
    simp only [hstep]
    exact .insert ⟨l, answer, rfl, hidle, hshows⟩ (ih s)

theorem Interspersed.ending_eq (h : Interspersed (fun l => ∃ answer, Idle l answer) ls ls')
    (s : Store) : (session fuel scope s ls').ending = (session fuel scope s ls).ending := by
  induction h generalizing s with
  | nil => rfl
  | keep l _ ih =>
    rw [session, session]
    cases step fuel scope s l with
    | stop events ending => rfl
    | next events t => exact ih t
  | @insert l ls ls' hl _ ih =>
    obtain ⟨answer, hidle⟩ := hl
    obtain ⟨events, -, hstep⟩ := hidle.step_eq
    rw [session]
    simp only [hstep]
    exact ih s

/-! ## The last line -/

/-- Lines behind an `exit` are not read. -/
theorem session_append_of_exit (hl : l ∈ ls) (hexit : decode? l = some exitLine) (s : Store)
    (more : List (List UInt8)) :
    session fuel scope s (ls ++ more) = session fuel scope s ls := by
  induction ls generalizing s with
  | nil => cases hl
  | cons l' ls ih =>
    rw [List.cons_append, session, session]
    cases hstep : step fuel scope s l' with
    | stop events ending => rfl
    | next events t =>
      rcases List.mem_cons.1 hl with rfl | hl
      · simp [step, hexit] at hstep
      · simp only [ih hl t]

/-- A line that is text lets the session end with its program only, or as an `exit`. -/
theorem ending_of_step (hl : decode? l ≠ none) {ending : Ending}
    (hstep : step fuel scope s l = .stop events ending) : ending ≠ .notText := by
  rintro rfl
  obtain ⟨text, htext⟩ := Option.ne_none_iff_exists'.1 hl
  by_cases hexit : text = exitLine
  · simp [step, htext, hexit] at hstep
  rcases hblank : Text.allBlank text with _ | _
  · rw [step_text htext hexit hblank, respond] at hstep
    split at hstep <;> cases hstep
  · rw [step_blank htext hblank] at hstep
    cases hstep

theorem session_ending_of_exit {before after : List (List UInt8)}
    (hexit : decode? l = some exitLine) (hbefore : ∀ b ∈ before, decode? b ≠ none) (s : Store) :
    (session fuel scope s (before ++ l :: after)).ending ≠ .notText := by
  induction before generalizing s with
  | nil => simp [session, step, hexit]
  | cons b before ih =>
    rw [List.cons_append, session]
    cases hstep : step fuel scope s b with
    | stop events ending => exact ending_of_step (hbefore b (by simp)) hstep
    | next events t => exact ih (fun b' hb' => hbefore b' (List.mem_cons_of_mem _ hb')) t

/-- Where the session ends without a program, there is the prompt alone. -/
theorem exchanges_end {x : Exchange} (s : Store) (ls : List (List UInt8))
    (hx : x ∈ exchanges fuel scope s ls)
    (hend : x.line?.bind decode? = none ∨ x.line?.bind decode? = some exitLine) :
    x.Shows "" "" := by
  induction ls generalizing s with
  | nil =>
    rw [exchanges, List.mem_singleton] at hx
    exact hx ▸ shows_nil none
  | cons l ls ih =>
    rw [exchanges, List.mem_cons] at hx
    rcases hx with rfl | hx
    · have hstep : (step fuel scope s l).events = [] := by
        rcases hend with hend | hend <;> simp_all [step, Reply.events]
      rw [hstep]
      exact shows_nil _
    · cases hstep : step fuel scope s l with
      | stop events ending => simp [hstep] at hx
      | next events t => exact ih t (by simpa [hstep] using hx)

/-! ## What earlier lines leave behind -/

/-- The lines do not end the session, and they leave the second store if they find the first.  A
blank line leaves all as it was.  Any other line leaves what its program leaves, be it with a value
or with an error. -/
inductive Leaves (fuel scope : Nat) : Store → List (List UInt8) → Store → Prop
  | nil (s : Store) : Leaves fuel scope s [] s
  | blank {s t : Store} {l : List UInt8} {ls : List (List UInt8)} {text : String}
      (hl : decode? l = some text) (hblank : Text.allBlank text = true)
      (h : Leaves fuel scope s ls t) : Leaves fuel scope s (l :: ls) t
  | run {s t : Store} {l : List UInt8} {ls : List (List UInt8)} {text : String}
      (hl : decode? l = some text) (hexit : text ≠ exitLine)
      (hblank : Text.allBlank text = false)
      (hends : (run fuel text scope s).outcome ≠ .outOfFuel)
      (h : Leaves fuel scope (TreeWalk.run fuel text scope s).store ls t) :
      Leaves fuel scope s (l :: ls) t

/-- What the shell shows for the result of a line: the lines that were printed, and then the value
or the error. -/
def response (r : Result Error Value) : List Event :=
  r.output.map .printed ++
    match r.outcome with
    | .done v => [.answered v.display]
    | .failed e => [.answered e.message]
    | .outOfFuel => []

/-- The text of the answer to a line: the value or the error, in a line of its own. -/
def answerTo : Outcome Error Value → String
  | .done v => v.display ++ "\n"
  | .failed e => e.message ++ "\n"
  | .outOfFuel => ""

theorem shows_response (line? : Option (List UInt8)) (r : Result Error Value) :
    (Exchange.mk line? (response r)).Shows (String.join (r.output.map (· ++ "\n")))
      (answerTo r.outcome) := by
  rw [response]
  cases r.outcome with
  | done v => simpa [answerTo] using shows_append line? r.output [v.display]
  | failed e => simpa [answerTo] using shows_append line? r.output [e.message]
  | outOfFuel => simpa [answerTo] using shows_append line? r.output []

theorem respond_events : (respond fuel scope s text).events = response (run fuel text scope s) := by
  rw [respond, response]
  cases (run fuel text scope s).outcome <;> simp [Reply.events]

theorem respond_of_ends (hends : (run fuel text scope s).outcome ≠ .outOfFuel) :
    respond fuel scope s text =
      .next (response (run fuel text scope s)) (run fuel text scope s).store := by
  rw [respond, response]
  cases hrun : (run fuel text scope s).outcome with
  | done v => rfl
  | failed e => rfl
  | outOfFuel => exact absurd hrun hends

theorem leaves_nil_iff : Leaves fuel scope s [] t ↔ s = t := by
  constructor
  · rintro ⟨⟩
    rfl
  · rintro rfl
    exact .nil s

/-- The session gets over the first line, and from there over the others. -/
theorem leaves_cons_iff :
    Leaves fuel scope s (l :: ls) t ↔
      ∃ events u, step fuel scope s l = .next events u ∧ Leaves fuel scope u ls t := by
  constructor
  · intro h
    cases h with
    | blank hl hblank h => exact ⟨_, s, step_blank hl hblank, h⟩
    | run hl hexit hblank hends h =>
      exact ⟨_, _, (step_text hl hexit hblank).trans (respond_of_ends hends), h⟩
  · rintro ⟨events, u, hstep, h⟩
    cases hl : decode? l with
    | none => simp [step, hl] at hstep
    | some text =>
      by_cases hexit : text = exitLine
      · simp [step, hl, hexit] at hstep
      cases hblank : Text.allBlank text with
      | true =>
        rw [step_blank hl hblank] at hstep
        cases hstep
        exact .blank hl hblank h
      | false =>
        rw [step_text hl hexit hblank] at hstep
        have hends : (run fuel text scope s).outcome ≠ .outOfFuel := by
          intro hout
          simp [respond, hout] at hstep
        rw [respond_of_ends hends] at hstep
        cases hstep
        exact .run hl hexit hblank hends h

/-- The exchange for a line is there if the session gets over the lines before it, and it is the
response to this line with the store that they leave. -/
theorem exchanges_getElem?_iff (hl : decode? l = some text) (hexit : text ≠ exitLine)
    (hblank : Text.allBlank text = false) (before after : List (List UInt8)) (s : Store)
    (x : Exchange) :
    (exchanges fuel scope s (before ++ l :: after))[before.length]? = some x ↔
      ∃ t, Leaves fuel scope s before t ∧ x = ⟨some l, response (run fuel text scope t)⟩ := by
  induction before generalizing s with
  | nil =>
    simp [exchanges, leaves_nil_iff, step_text hl hexit hblank, respond_events, eq_comm]
  | cons b before ih =>
    simp only [leaves_cons_iff, List.cons_append, List.length_cons, exchanges,
      List.getElem?_cons_succ]
    cases hstep : step fuel scope s b with
    | stop events ending => simp
    | next events u => simp [ih, and_assoc]

/-! ## Whole inputs -/

/-- **The lines of a session depend on each other through the store alone.**  A session is a row of
exchanges, each of which starts with a prompt, and the lines are read in order.  What the shell
writes, what the programs print and what the user sees of both is what the exchanges have of it, one
after the other.

* There is the prompt alone where the input ends, at `exit` and at a line that is not text.
* If the lines of another input are the same with some put in that are blank or do not parse, then
  so are the exchanges: those put in show the prompt, and the error of a line that does not parse.
  The sessions end alike.
* If one of the lines is `exit`, it makes no difference what follows behind the input.  If the lines
  before it are text, the session does not end for want of text.
* A line that is neither blank nor `exit` has its exchange if the session gets over the lines before
  it, and is then answered with what running it gives in the store that they leave: the value or the
  error in a line of its own, behind the lines that the program prints. -/
theorem start_dialogue (fuel : Nat) (input : List UInt8) :
    (start fuel input).events =
        (dialogue fuel input).flatMap (fun x => .prompted :: x.events) ∧
      (start fuel input).written = String.join ((dialogue fuel input).map Exchange.written) ∧
      (start fuel input).output = String.join ((dialogue fuel input).map Exchange.output) ∧
      (start fuel input).shown = String.join ((dialogue fuel input).map Exchange.shown) ∧
      (dialogue fuel input).map (·.line?) <+: (lines input).map some ++ [none] ∧
      (∀ x ∈ dialogue fuel input,
        x.line?.bind decode? = none ∨ x.line?.bind decode? = some "exit" → x.Shows "" "") ∧
      (∀ input', Interspersed (fun l => ∃ answer, Idle l answer) (lines input) (lines input') →
        Interspersed (fun x => ∃ l answer, x.line? = some l ∧ Idle l answer ∧ x.Shows "" answer)
          (dialogue fuel input) (dialogue fuel input') ∧
        (start fuel input').ending = (start fuel input).ending) ∧
      (∀ before l after, lines input = before ++ l :: after → decode? l = some "exit" →
        (∀ rest, start fuel (input ++ 10 :: rest) = start fuel input) ∧
        ((∀ b ∈ before, decode? b ≠ none) → (start fuel input).ending ≠ .notText)) ∧
      ∀ before l after text, lines input = before ++ l :: after → decode? l = some text →
        text ≠ "exit" → Text.allBlank text = false → ∀ x,
          (dialogue fuel input)[before.length]? = some x ↔
            ∃ t, Leaves fuel Store.empty.openGlobal.1 Store.empty.openGlobal.2 before t ∧
              x = ⟨some l, response (run fuel text Store.empty.openGlobal.1 t)⟩ ∧
              x.Shows
                (String.join ((run fuel text Store.empty.openGlobal.1 t).output.map (· ++ "\n")))
                (answerTo (run fuel text Store.empty.openGlobal.1 t).outcome) := by
  refine ⟨session_events _ _, join_session_events _ _ _, join_session_events _ _ _,
    join_session_events _ _ _, exchanges_lines _ _, fun x hx hend => exchanges_end _ _ hx hend,
    fun input' h => ⟨h.exchanges _, h.ending_eq _⟩, fun before l after hlines hexit => ?_,
    fun before l after text hlines hl hexit hblank x => ?_⟩
  · refine ⟨fun rest => ?_, fun hbefore => ?_⟩
    · obtain ⟨more, hmore⟩ := lines_append input rest
      have hmem : l ∈ lines input := by simp [hlines]
      simp only [start, hmore]
      exact session_append_of_exit hmem hexit _ more
    · simp only [start, hlines]
      exact session_ending_of_exit hexit hbefore _
  · simp only [dialogue, hlines]
    rw [exchanges_getElem?_iff hl hexit hblank before after _ x]
    constructor
    · rintro ⟨t, hleaves, rfl⟩
      exact ⟨t, hleaves, rfl, shows_response _ _⟩
    · rintro ⟨t, hleaves, hx, -⟩
      exact ⟨t, hleaves, hx⟩

/-- The first line prints and fails after it has bound `a`, and the second one asks for `a`.  An
ideographic space and a stray parenthesis are put in, and a byte that is no text follows behind
`exit`. -/
theorem start_dialogue_failed :
    ∃ input input' : List UInt8,
      input = "var a = 2; puts(a); b\r\na\nexit".toUTF8.data.toList ∧
      input' = "\u3000\nvar a = 2; puts(a); b\r\n)\na\nexit".toUTF8.data.toList ∧
      Interspersed (fun l => ∃ answer, Idle l answer) (lines input) (lines input') ∧
      Interspersed (fun x => ∃ l answer, x.line? = some l ∧ Idle l answer ∧ x.Shows "" answer)
        (dialogue 5 input) (dialogue 5 input') ∧
      (start 5 input').ending = (start 5 input).ending ∧
      start 5 (input ++ [10, 255]) = start 5 input ∧ (start 5 input).ending ≠ .notText ∧
      (dialogue 5 input)[1]? = some ⟨some "a".toUTF8.data.toList, [.answered "2"]⟩ ∧
      (Exchange.mk (some "a".toUTF8.data.toList) [.answered "2"]).Shows "" "2\n" ∧
      (start 5 input).written = ">> Runtime error: Identifier not found: 'b'.\n>> 2\n>> " ∧
      (start 5 input).output = "2\n" ∧
      (start 5 input').written =
        ">> >> Runtime error: Identifier not found: 'b'.\n" ++
          ">> Error on line 1: Expected an expression, found ')'.\n>> 2\n>> " ∧
      (start 5 input').output = "2\n" := by
  let input := "var a = 2; puts(a); b\r\na\nexit".toUTF8.data.toList
  let input' := "\u3000\nvar a = 2; puts(a); b\r\n)\na\nexit".toUTF8.data.toList
  let failing := "var a = 2; puts(a); b\r".toUTF8.data.toList
  let asking := "a".toUTF8.data.toList
  let exiting := "exit".toUTF8.data.toList
  let space := "\u3000".toUTF8.data.toList
  let stray := ")".toUTF8.data.toList
  let bound : Store := ⟨#[⟨[("a", .int 2)], none⟩], 0⟩
  have hlines : lines input = [failing, asking, exiting] := by decide +kernel
  have hlines' : lines input' = [space, failing, stray, asking, exiting] := by decide +kernel
  have hspace : Idle space "" :=
    .blank (by decide +kernel : decode? space = some "\u3000") (by decide +kernel)
  have hstray : Idle stray _ :=
    have hparse : Program.parse ")" = .error (.expressionExpected "')'" 1) := by
      with_unfolding_all rfl
    .malformed (by decide +kernel : decode? stray = some ")") (by decide +kernel) hparse
  have hinterspersed :
      Interspersed (fun l => ∃ answer, Idle l answer) (lines input) (lines input') := by
    rw [hlines, hlines']
    exact .insert ⟨_, hspace⟩ (.keep _ (.insert ⟨_, hstray⟩ (.keep _ (.keep _ .nil))))
  have hfails : run 5 "var a = 2; puts(a); b" 0 Store.empty.openGlobal.2 =
      ⟨.failed (.runtime (.undefinedIdentifier "b")), bound, ["2"]⟩ := by
    have hparse : Program.parse "var a = 2; puts(a); b" =
        .ok [.bind "a" (.int 2), .expr (.call (.ident "puts") [.ident "a"]),
          .expr (.ident "b")] := by with_unfolding_all rfl
    rw [run, hparse]
    with_unfolding_all rfl
  have hleaves : Leaves 5 0 Store.empty.openGlobal.2 [failing] bound := by
    refine .run (by decide +kernel : decode? failing = some "var a = 2; puts(a); b") (by decide)
      (by decide +kernel) (by simp [hfails]) ?_
    rw [hfails]
    exact .nil bound
  have hasks : run 5 "a" 0 bound = ⟨.done (.int 2), bound, []⟩ := by
    have hparse : Program.parse "a" = .ok [.expr (.ident "a")] := by with_unfolding_all rfl
    rw [run, hparse]
    with_unfolding_all rfl
  obtain ⟨-, -, -, -, -, -, hidle, hexit, hline⟩ := start_dialogue 5 input
  obtain ⟨hdialogue, hending⟩ := hidle input' hinterspersed
  obtain ⟨hrest, htext⟩ := hexit [failing, asking] exiting [] hlines (by decide +kernel)
  have hanswer := (hline [failing] asking [exiting] "a" hlines (by decide +kernel) (by decide)
    (by decide +kernel) ⟨some asking, [.answered "2"]⟩).2 ⟨bound, hleaves, ?_, ?_⟩
  · exact ⟨input, input', rfl, rfl, hinterspersed, hdialogue, hending, hrest [255],
      htext (by decide +kernel), hanswer, shows_answered _ _, by decide +kernel, by decide +kernel,
      by decide +kernel, by decide +kernel⟩
  · rw [show Store.empty.openGlobal.1 = 0 from rfl, hasks]
    rfl
  · rw [show Store.empty.openGlobal.1 = 0 from rfl, hasks]
    exact shows_answered _ _

end TreeWalk.Shell

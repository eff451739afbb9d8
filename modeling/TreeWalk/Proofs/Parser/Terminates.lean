import Mathlib.Logic.Relation
import TreeWalk.Program.Cursor
import TreeWalk.Program.Equality
import TreeWalk.Proofs.Grammar.Sequence
import TreeWalk.Proofs.Grammar.Sound
import TreeWalk.Proofs.Parser.Script
import TreeWalk.Proofs.Token.Spaced

/-!
# Parsing comes to an end

Every source text is parsed, or refused, in finitely many steps (`parsing_terminates`).  A script
(`Script`) could go on forever in two ways: by entering routines inside routines without end, and by
asking for tokens behind the end of the source.  What prevents both is a measure, which goes down
whenever a routine is entered (`below_body`).  It counts the tokens that are left, and among the
routines that may be entered on the same token it ranks the outer ones higher; so **a routine that
is entered again inside itself starts at a later token**, be it for a part of an expression or for
the next round of a loop.

Every routine that has something to read looks at the next token before it goes on, and there is
none that fits at the end of the source.
-/

set_option autoImplicit false

namespace TreeWalk.Parser

open Token (Kind Stream)

/-! ## How much is left -/

/-- The routine needs at least one token. -/
def Rule.Demands {α : Type} : Rule α → Prop
  | climb _ _ | otherwise | program => False
  | _ => True

/-- Which of the routines that start on the same token may enter which: the higher ones the lower
ones. -/
def Rule.rank {α : Type} : Rule α → Nat
  | climb _ _ | moreItems _ | moreEntries | otherwise | params | moreParams => 0
  | operand => 1
  | expr _ => 2
  | items _ | entries | stmt => 3
  | block | program => 4

theorem Rule.rank_le {α : Type} (r : Rule α) : r.rank ≤ 4 := by
  cases r <;> simp [rank]

/-- The same routine, whatever its parameters are. -/
def Rule.Like {α β : Type} (r : Rule α) (q : Rule β) : Prop := r.ctorIdx = q.ctorIdx

theorem Rule.Like.rank_eq {α β : Type} {r : Rule α} {q : Rule β} (h : r.Like q) :
    r.rank = q.rank := by
  cases r <;> cases q <;> first | rfl | cases h

/-- The measure of a routine that is entered on these tokens. -/
def Rule.measure {α : Type} (r : Rule α) (ts : List Token) : Nat := 5 * ts.length + r.rank

section Lengths

variable {α : Type} {last : Nat} {ts rest : List Token} {a : α}

theorem Rule.length_le {r : Rule α} (h : r.routine last ts = .ok (a, rest)) :
    rest.length ≤ ts.length := by
  cases r with
  | program =>
    rw [routine, Routine.program] at h
    cases hp : Parser.program last ts with
    | error e =>
      rw [hp] at h
      cases h
    | ok p =>
      rw [hp] at h
      cases h
      exact Nat.zero_le _
  | climb | otherwise => exact Nat.le_of_lt_succ (answer_eq_ok.1 h).length_lt
  | _ => exact Nat.le_of_lt (answer_eq_ok.1 h).length_lt

theorem Rule.length_lt {r : Rule α} (hr : r.Demands) (h : r.routine last ts = .ok (a, rest)) :
    rest.length < ts.length := by
  cases r with
  | program | climb | otherwise => exact hr.elim
  | _ => exact (answer_eq_ok.1 h).length_lt

end Lengths

namespace Script

variable {α : Type} {last : Nat}

/-! ## The measure goes down -/

/-- Every routine that the script enters on its way has a measure below the bound. -/
def Below (last bound : Nat) : Script α → List Token → Prop
  | done _, _ => True
  | fail _, _ => True
  | look next, ts => (next ts.head?).Below last bound ts
  | advance next, ts => next.Below last bound ts.tail
  | enter r next, ts =>
    r.measure ts < bound ∧
      ∀ a rest, r.routine last ts = .ok (a, rest) → (next a).Below last bound rest

/-- Once a token is used, any routine may be entered. -/
theorem below_of_length {bound : Nat} (p : Script α) {ts : List Token}
    (h : 5 * ts.length + 4 < bound) : p.Below last bound ts := by
  induction p generalizing ts with
  | done | fail => trivial
  | look next ih => exact ih _ h
  | advance next ih =>
    refine ih ?_
    rw [List.length_tail]
    omega
  | enter r next ih =>
    have hrank := r.rank_le
    refine ⟨?_, fun a rest hr => ih a ?_⟩
    · rw [Rule.measure]
      omega
    · have := r.length_le hr
      omega

section Body

variable {t : Token} {ts : List Token}

/-- Behind the first token. -/
theorem below_tail (p : Script α) (r : Nat) :
    p.Below last (5 * (t :: ts).length + r) ts :=
  below_of_length p (by rw [List.length_cons]; omega)

/-- Behind a routine that has used a token. -/
theorem below_enter {β : Type} (r : Rule β) (hr : r.Demands) {rank : Nat}
    (hrank : r.rank < rank) (next : β → Script α) :
    (enter r next).Below last (5 * ts.length + rank) ts := by
  refine ⟨Nat.add_lt_add_left hrank _, fun a rest h => below_of_length _ ?_⟩
  have := r.length_lt hr h
  omega

theorem below_token {kind : Kind} {expected : String} {rank : Nat} (next : String → Script α) :
    (token kind expected >>= next).Below last (5 * ts.length + rank) ts := by
  cases ts with
  | nil => trivial
  | cons t ts =>
    show (bind (if t.kind = kind then _ else _) next).Below last _ (t :: ts)
    split
    · exact below_tail _ _
    · trivial

theorem below_ifNext {kind : Kind} {yes no : Script α} {rank : Nat}
    (hno : no.Below last (5 * ts.length + rank) ts) :
    (ifNext kind yes no).Below last (5 * ts.length + rank) ts := by
  cases ts with
  | nil => exact hno
  | cons t ts =>
    show (if t.kind = kind then _ else _ : Script α).Below last _ (t :: ts)
    split
    · exact below_tail _ _
    · exact hno

/-- **Every routine enters only routines of a smaller measure.** -/
theorem below_body (r : Rule α) (ts : List Token) : (body r).Below last (r.measure ts) ts := by
  cases r with
  | expr level => exact below_enter .operand trivial (by decide : 1 < 2) _
  | operand =>
    cases ts with
    | nil => trivial
    | cons t ts =>
      simp only [body, Below, List.head?_cons]
      cases opening? t.kind with
      | none => trivial
      | some o =>
        dsimp only
        cases opened t.literal o with
        | none => trivial
        | some next => exact below_tail _ _
  | climb level left =>
    cases ts with
    | nil => trivial
    | cons t ts =>
      show Below last _ (if level < Level.ofKind t.kind then _ else _) (t :: ts)
      split
      · split
        · trivial
        · exact below_tail _ _
      · trivial
  | items closing =>
    exact below_ifNext (below_enter (.expr .lowest) trivial (by decide : 2 < 3) _)
  | moreItems closing => exact below_ifNext (below_token _)
  | entries => exact below_ifNext (below_enter (.expr .lowest) trivial (by decide : 2 < 3) _)
  | moreEntries => exact below_ifNext (below_token _)
  | otherwise => exact below_ifNext trivial
  | block =>
    cases ts with
    | nil => trivial
    | cons t ts => exact below_ifNext (below_enter .stmt trivial (by decide : 3 < 4) _)
  | stmt =>
    exact below_ifNext (below_ifNext
      (below_enter (.expr .lowest) trivial (by decide : 2 < 3) _))
  | params => exact below_ifNext (below_token _)
  | moreParams => exact below_ifNext (below_token _)
  | program =>
    cases ts with
    | nil => trivial
    | cons t ts => exact below_enter .stmt trivial (by decide : 3 < 4) _

end Body

/-! ## Runs -/

/-- The script comes to this answer in so many steps.  A routine takes the steps of its own
script. -/
inductive Returns (last : Nat) : {α : Type} → Script α → List Token →
    Except ParseError (α × List Token) → Nat → Prop
  | done {α : Type} (a : α) (ts : List Token) : Returns last (done a) ts (.ok (a, ts)) 0
  | fail {α : Type} (e : Nat → ParseError) (ts : List Token) :
      Returns last (fail e : Script α) ts (.error (e last)) 0
  | look {α : Type} {next : Option Token → Script α} {ts : List Token}
      {x : Except ParseError (α × List Token)} {k : Nat}
      (h : Returns last (next ts.head?) ts x k) : Returns last (look next) ts x (k + 1)
  | advance {α : Type} {next : Script α} {ts : List Token}
      {x : Except ParseError (α × List Token)} {k : Nat} (h : Returns last next ts.tail x k) :
      Returns last (advance next) ts x (k + 1)
  | enter {α β : Type} {r : Rule β} {next : β → Script α} {ts rest : List Token} {b : β}
      {x : Except ParseError (α × List Token)} {k l : Nat}
      (h : Returns last (body r) ts (.ok (b, rest)) k) (h' : Returns last (next b) rest x l) :
      Returns last (enter r next) ts x (k + l + 1)
  | stop {α β : Type} {r : Rule β} {next : β → Script α} {ts : List Token} {e : ParseError}
      {k : Nat} (h : Returns last (body r) ts (.error e) k) :
      Returns last (enter r next) ts (.error e) (k + 1)

/-- A run can only come to what the routine gives. -/
theorem Returns.eq_routine {p : Script α} {ts : List Token}
    {x : Except ParseError (α × List Token)} {k : Nat} (h : Returns last p ts x k) :
    x = p.routine last ts := by
  induction h with
  | done | fail => rfl
  | look _ ih => exact ih
  | advance _ ih => exact ih
  | enter _ _ ih ih' =>
    rw [routine_body] at ih
    rw [routine, Routine.bind_of_ok ih.symm]
    exact ih'
  | stop _ ih =>
    rw [routine_body] at ih
    rw [routine, Routine.bind_of_error ih.symm]

/-- A script runs to its end if the routines that it enters do. -/
theorem exists_returns {bound : Nat}
    (hroutine : ∀ {β : Type} (r : Rule β) (ts : List Token), r.measure ts < bound →
      ∃ k, Returns last (body r) ts (r.routine last ts) k)
    (p : Script α) {ts : List Token} (h : p.Below last bound ts) :
    ∃ k, Returns last p ts (p.routine last ts) k := by
  induction p generalizing ts with
  | done a => exact ⟨0, .done a ts⟩
  | fail e => exact ⟨0, .fail e ts⟩
  | look next ih =>
    obtain ⟨k, hk⟩ := ih _ h
    exact ⟨k + 1, .look hk⟩
  | advance next ih =>
    obtain ⟨k, hk⟩ := ih h
    exact ⟨k + 1, .advance hk⟩
  | enter r next ih =>
    obtain ⟨hlt, hnext⟩ := h
    obtain ⟨k, hk⟩ := hroutine r ts hlt
    cases hr : r.routine last ts with
    | error e =>
      have hanswer : (enter r next).routine last ts = .error e := Routine.bind_of_error hr
      rw [hr] at hk
      rw [hanswer]
      exact ⟨k + 1, .stop hk⟩
    | ok q =>
      obtain ⟨b, rest⟩ := q
      have hanswer : (enter r next).routine last ts = (next b).routine last rest :=
        Routine.bind_of_ok hr
      obtain ⟨l, hl⟩ := ih b (hnext b rest hr)
      rw [hr] at hk
      rw [hanswer]
      exact ⟨k + l + 1, .enter hk hl⟩

/-- What is left behind a script is an end of what was there, if this holds of the routines. -/
theorem suffix_of_routine {bound : Nat}
    (hroutine : ∀ {β : Type} (r : Rule β) {ts rest : List Token} {b : β}, r.measure ts < bound →
      r.routine last ts = .ok (b, rest) → rest <:+ ts)
    (p : Script α) {ts rest : List Token} {a : α} (h : p.Below last bound ts)
    (ha : p.routine last ts = .ok (a, rest)) : rest <:+ ts := by
  induction p generalizing ts with
  | done a =>
    cases ha
    exact List.suffix_refl _
  | fail e => cases ha
  | look next ih => exact ih _ h ha
  | advance next ih => exact (ih h ha).trans (List.tail_suffix ts)
  | enter r next ih =>
    obtain ⟨hlt, hnext⟩ := h
    cases hr : r.routine last ts with
    | error e =>
      rw [routine, Routine.bind_of_error hr] at ha
      cases ha
    | ok q =>
      obtain ⟨b, mid⟩ := q
      rw [routine, Routine.bind_of_ok hr] at ha
      exact (ih b (hnext b mid hr) ha).trans (hroutine r hlt hr)

end Script

open Script (body Returns)

section Routines

variable {α : Type} {last : Nat}

/-- **Every routine comes to its answer in finitely many steps**, by induction on the measure. -/
theorem Rule.exists_returns (r : Rule α) (ts : List Token) :
    ∃ k, Returns last (body r) ts (r.routine last ts) k := by
  induction hn : r.measure ts using Nat.strongRecOn generalizing α ts with
  | ind n ih =>
    subst hn
    rw [← Script.routine_body]
    exact Script.exists_returns (fun q us hlt => ih _ hlt q us rfl) _ (Script.below_body r ts)

theorem Rule.suffix (r : Rule α) {ts rest : List Token} {a : α}
    (h : r.routine last ts = .ok (a, rest)) : rest <:+ ts := by
  induction hn : r.measure ts using Nat.strongRecOn generalizing α ts rest with
  | ind n ih =>
    subst hn
    rw [← Script.routine_body] at h
    exact Script.suffix_of_routine (fun q _ _ _ hlt hq => ih _ hlt q hq rfl) _
      (Script.below_body r ts) h

/-- The runs of a routine come to its answer and to no other. -/
theorem Rule.returns_iff (r : Rule α) (ts : List Token) (x : Except ParseError (α × List Token)) :
    (∃ k, Returns last (body r) ts x k) ↔ x = r.routine last ts := by
  constructor
  · rintro ⟨k, hk⟩
    rw [← Script.routine_body]
    exact hk.eq_routine
  · rintro rfl
    exact r.exists_returns ts

/-! ## At the end of the source -/

/-- **At the end of the source every routine is done at once**, and fails if it needs a token. -/
theorem Rule.returns_nil (r : Rule α) :
    ∃ x k, k ≤ 5 ∧ Returns last (body r) [] x k ∧ (r.Demands → ∃ e, x = .error e) := by
  have hexpr (level : Level) :
      Returns last (body (.expr level)) [] (.error (.expressionExpected _ _)) 2 :=
    .stop (.look (.fail _ _))
  cases r with
  | expr level => exact ⟨_, 2, by decide, hexpr level, fun _ => ⟨_, rfl⟩⟩
  | operand => exact ⟨_, 1, by decide, .look (.fail _ _), fun _ => ⟨_, rfl⟩⟩
  | climb level left => exact ⟨_, 1, by decide, .look (.done _ _), False.elim⟩
  | items closing => exact ⟨_, 4, by decide, .look (.stop (hexpr _)), fun _ => ⟨_, rfl⟩⟩
  | moreItems closing => exact ⟨_, 2, by decide, .look (.look (.fail _ _)), fun _ => ⟨_, rfl⟩⟩
  | entries => exact ⟨_, 4, by decide, .look (.stop (hexpr _)), fun _ => ⟨_, rfl⟩⟩
  | moreEntries => exact ⟨_, 2, by decide, .look (.look (.fail _ _)), fun _ => ⟨_, rfl⟩⟩
  | otherwise => exact ⟨_, 1, by decide, .look (.done _ _), False.elim⟩
  | block => exact ⟨_, 1, by decide, .look (.fail _ _), fun _ => ⟨_, rfl⟩⟩
  | stmt => exact ⟨_, 5, by decide, .look (.look (.stop (hexpr _))), fun _ => ⟨_, rfl⟩⟩
  | params => exact ⟨_, 2, by decide, .look (.look (.fail _ _)), fun _ => ⟨_, rfl⟩⟩
  | moreParams => exact ⟨_, 2, by decide, .look (.look (.fail _ _)), fun _ => ⟨_, rfl⟩⟩
  | program => exact ⟨_, 1, by decide, .look (.done _ _), False.elim⟩

end Routines

/-! ## Routines inside routines -/

/-- A routine, entered on these tokens. -/
structure Entry : Type 1 where
  {α : Type}
  rule : Rule α
  tokens : List Token

/-- The script enters a routine on its way. -/
inductive Script.Enters (last : Nat) {α : Type} : Script α → List Token → Entry → Prop
  | look {next : Option Token → Script α} {ts : List Token} {b : Entry}
      (h : Enters last (next ts.head?) ts b) : Enters last (look next) ts b
  | advance {next : Script α} {ts : List Token} {b : Entry} (h : Enters last next ts.tail b) :
      Enters last (advance next) ts b
  | here {β : Type} (r : Rule β) (next : β → Script α) (ts : List Token) :
      Enters last (enter r next) ts ⟨r, ts⟩
  | behind {β : Type} {r : Rule β} {next : β → Script α} {ts rest : List Token} {a : β} {b : Entry}
      (ha : r.routine last ts = .ok (a, rest)) (h : Enters last (next a) rest b) :
      Enters last (enter r next) ts b

/-- The second routine is entered while the first one runs, directly or by one that it enters. -/
def Inside (last : Nat) : Entry → Entry → Prop :=
  Relation.TransGen fun a b => (body a.rule).Enters last a.tokens b

theorem Script.Enters.measure_lt {last bound : Nat} {α : Type} {p : Script α} {ts : List Token}
    {b : Entry} (h : p.Enters last ts b) (hp : p.Below last bound ts) :
    b.rule.measure b.tokens < bound := by
  induction h with
  | look _ ih => exact ih hp
  | advance _ ih => exact ih hp
  | here => exact hp.1
  | behind ha _ ih => exact ih (hp.2 _ _ ha)

theorem Script.Enters.suffix {last : Nat} {α : Type} {p : Script α} {ts : List Token} {b : Entry}
    (h : p.Enters last ts b) : b.tokens <:+ ts := by
  induction h with
  | look _ ih => exact ih
  | advance _ ih => exact ih.trans (List.tail_suffix _)
  | here => exact List.suffix_refl _
  | @behind β r next ts rest a b ha _ ih => exact ih.trans (r.suffix ha)

/-- Inside a routine only routines of a smaller measure are entered, and none on a token that was
left behind. -/
theorem Inside.lt {last : Nat} {a b : Entry} (h : Inside last a b) :
    b.tokens <:+ a.tokens ∧ b.rule.measure b.tokens < a.rule.measure a.tokens := by
  induction h with
  | single h => exact ⟨h.suffix, h.measure_lt (Script.below_body _ _)⟩
  | tail _ h ih =>
    exact ⟨h.suffix.trans ih.1, Nat.lt_trans (h.measure_lt (Script.below_body _ _)) ih.2⟩

/-- **A routine that is entered inside itself starts at a later token.** -/
theorem Inside.later {last : Nat} {a b : Entry} (h : Inside last a b) (hlike : a.rule.Like b.rule) :
    b.tokens.length < a.tokens.length := by
  have hlt := h.lt.2
  rw [Rule.measure, Rule.measure, hlike.rank_eq] at hlt
  omega

/-! ## Where a routine stops -/

section Stops

variable {last : Nat} {ts rest : List Token}

/-- An expression ends with a token. -/
theorem expr_stops {level : Level} {e : Expr} (h : Reads (Parser.expr last level ts) e rest) :
    ∃ us t, ts = us ++ t :: rest ∧ Grammar.Derives (Grammar.stratumAt level) (us ++ [t]) e := by
  obtain ⟨vs, hts, hvs, -⟩ := Grammar.expr_sound h
  obtain ⟨us, t, rfl, -⟩ := hvs.unfinished
  exact ⟨us, t, by rw [hts, List.append_assoc]; rfl, hvs⟩

/-- A statement ends with its semicolon, or with its own last token if there is none. -/
theorem stmt_stops {s : Stmt} (h : Reads (Parser.stmt last ts) s rest) :
    ∃ us t, ts = us ++ t :: rest ∧
      (Grammar.Statement (us ++ [t]) s ∨ t.kind = .semicolon ∧ Grammar.Statement us s) := by
  obtain ⟨vs, mid, hts, hskip, hvs, -⟩ := Grammar.stmt_sound h
  have hbare (hmid : mid = rest) : ∃ us t, ts = us ++ t :: rest ∧
      (Grammar.Statement (us ++ [t]) s ∨ t.kind = .semicolon ∧ Grammar.Statement us s) := by
    obtain ⟨us, t, rfl, -⟩ := hvs.unfinished
    exact ⟨us, t, by rw [hts, hmid, List.append_assoc]; rfl, .inl hvs⟩
  cases mid with
  | nil => exact hbare hskip
  | cons t mid =>
    rw [skipSemicolon] at hskip
    split at hskip
    · next ht => exact ⟨vs, t, by rw [hts, hskip], .inr ⟨ht, hvs⟩⟩
    · exact hbare hskip

end Stops

/-- What is left from the last token on that was used. -/
theorem drop_before {ts us rest : List Token} {t : Token} (h : ts = us ++ t :: rest) :
    ts.drop (ts.length - rest.length - 1) = t :: rest := by
  have hlength : ts.length - rest.length - 1 = us.length := by
    rw [h, List.length_append, List.length_cons]
    omega
  rw [hlength, h, List.drop_left]

/-- A cursor that has read an expression stands on its last token. -/
theorem cursor_stops {c c' : Cursor} {level : Level} {e : Expr}
    (h : c.expr level = .ok (e, c')) :
    ∃ us rest, c.tokens = us ++ c'.current :: rest ∧ c'.tokens = c'.current :: rest ∧
      Grammar.Derives (Grammar.stratumAt level) (us ++ [c'.current]) e := by
  rw [Cursor.expr] at h
  cases hread : Parser.expr c.last level c.tokens with
  | error e =>
    rw [hread] at h
    cases h
  | ok r =>
    rw [hread] at h
    cases h
    have hreads : Reads (Parser.expr c.last level c.tokens) r.value r.rest := by
      rw [← answer_eq_ok, hread]
      rfl
    obtain ⟨us, t, htokens, ht⟩ := expr_stops hreads
    have hdrop := drop_before htokens
    have hcurrent : Cursor.current
        ⟨c.tokens.drop (c.tokens.length - r.rest.length - 1), c.last⟩ = t := by
      rw [Cursor.current, hdrop]
      rfl
    rw [hcurrent]
    exact ⟨us, r.rest, htokens, hdrop, ht⟩

/-- **Parsing comes to an end on every source.**  From any tokens, a program and an expression at
any level are read, or refused, in finitely many steps.  A routine that is entered inside itself,
for a part of what it reads or for the next round of a loop, starts at a later token.  At the end of
the source every routine is done within five steps, and fails if it needs a token.  And behind an
expression, a statement or a block of a source, the last token of it has just been read, which is
not the end of the source. -/
theorem parsing_terminates (source : String) :
    (∀ x, (∃ k, Returns (Stream.ofSource source).lastLine (body .program)
        (Stream.ofSource source).tokens x k) ↔
      x = (Program.parse source).map fun p => (p, [])) ∧
    (∀ (c : Cursor) (level : Level) (x : Except ParseError (Expr × List Token)),
      (∃ k, Returns c.last (body (.expr level)) c.tokens x k) ↔
        x = answer (Parser.expr c.last level c.tokens)) ∧
    (∀ (last : Nat) (a b : Entry), Inside last a b → b.tokens <:+ a.tokens ∧
      (a.rule.Like b.rule → b.tokens.length < a.tokens.length)) ∧
    (∀ (last : Nat) {α : Type} (r : Rule α),
      ∃ x k, k ≤ 5 ∧ Returns last (body r) [] x k ∧ (r.Demands → ∃ e, x = .error e)) ∧
    ∀ (c : Cursor), c.tokens <:+ (Stream.ofSource source).tokens →
      (∀ level e c', c.expr level = .ok (e, c') → c'.current.kind ≠ .eof ∧
        ∃ us rest, c.tokens = us ++ c'.current :: rest ∧ c'.tokens = c'.current :: rest ∧
          Grammar.Derives (Grammar.stratumAt level) (us ++ [c'.current]) e) ∧
      (∀ s rest, Reads (Parser.stmt c.last c.tokens) s rest →
        ∃ us t, c.tokens = us ++ t :: rest ∧ t.kind ≠ .eof ∧
          (Grammar.Statement (us ++ [t]) s ∨ t.kind = .semicolon ∧ Grammar.Statement us s)) ∧
      ∀ b rest, Reads (Parser.block c.last c.tokens) b rest →
        ∃ us t, c.tokens = us ++ t :: rest ∧ t.kind = .rbrace ∧ Grammar.Statements us b := by
  refine ⟨Rule.returns_iff .program _, fun c level => Rule.returns_iff (.expr level) _,
    fun last a b h => ⟨h.lt.1, h.later⟩, fun last α r => r.returns_nil, fun c hc => ?_⟩
  have heof {us rest : List Token} {t : Token} (h : c.tokens = us ++ t :: rest) :
      t.kind ≠ .eof := by
    refine Token.kind_ne_eof_of_mem_tokens (hc.subset ?_)
    rw [h]
    exact List.mem_append_right us List.mem_cons_self
  refine ⟨fun level e c' h => ?_, fun s rest h => ?_, fun b rest h => Grammar.block_sound h⟩
  · obtain ⟨us, rest, htokens, hrest, he⟩ := cursor_stops h
    exact ⟨heof htokens, us, rest, htokens, hrest, he⟩
  · obtain ⟨us, t, htokens, hs⟩ := stmt_stops h
    exact ⟨us, t, htokens, heof htokens, hs⟩

/-- A hash and an array that are never closed. -/
theorem parsing_terminates_unclosed :
    ∃ (e : ParseError) (k : Nat), Program.parse "\x7b1: [2," = .error e ∧
      Returns (Stream.ofSource "\x7b1: [2,").lastLine (body .program)
        (Stream.ofSource "\x7b1: [2,").tokens (.error e) k := by
  have hparse : Program.parse "\x7b1: [2," =
      .error (.expressionExpected (Token.eof 1).display 1) := by decide +kernel
  obtain ⟨k, hk⟩ := ((parsing_terminates "\x7b1: [2,").1 _).2 rfl
  rw [hparse] at hk
  exact ⟨_, k, hparse, hk⟩

end TreeWalk.Parser

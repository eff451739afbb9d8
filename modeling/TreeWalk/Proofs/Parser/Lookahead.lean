import TreeWalk.Proofs.Parser.Routine
import TreeWalk.Proofs.Token.Alike

/-!
# What the next token decides

The parser never looks further than one token ahead, and of a token it looks at the kind and the
literal only.  So what a routine does is determined by the tokens that it uses and by the one token
that stands behind them, whatever the lines are and whatever comes further on: `Determined`.

A routine that fails blames this one token.  `Decided` says of a routine and the tokens before it
that it either reads something or fails, in both cases determined in this way, and that in the
second case the tokens which it used are a fair start: what counts as one is a parameter.
-/

set_option autoImplicit false

namespace TreeWalk.Parser

open Token (Kind Alike SameFront alike_nil alike_cons alike_append sameFront_nil sameFront_cons
  sameFront_append)

/-! ## Blame -/

/-- Why a routine fails at a token. -/
inductive Cause
  | unexpected (expected : String)
  | noExpression
  | tooLarge
  deriving DecidableEq, Repr

/-- The error that blames a token. -/
def Cause.error (t : Token) : Cause → ParseError
  | unexpected expected => .unexpectedToken expected t.display t.line
  | noExpression => .expressionExpected t.display t.line
  | tooLarge => .integerTooLarge t.literal t.line

/-! ## Routines that look one token ahead -/

variable {α β : Type}

/-- Whatever the lines are, and whatever stands behind the first token of `rest`: on these tokens
the routine uses `us` and has the given outcome. -/
def Determined (p : Routine α) (us rest : List Token)
    (outcome : Nat → List Token → Except ParseError (α × List Token)) : Prop :=
  ∀ last us' rest', Alike us' us → SameFront rest' rest →
    p last (us' ++ rest') = outcome last rest'

/-- The routine reads `a` and leaves what it does not use. -/
def Success (a : α) (_ : Nat) (rest : List Token) : Except ParseError (α × List Token) :=
  .ok (a, rest)

/-- The routine fails and blames the first token that it does not use. -/
def Failure (cause : Cause) (last : Nat) (rest : List Token) :
    Except ParseError (α × List Token) :=
  .error (cause.error (front last rest))

theorem Determined.apply {p : Routine α} {us rest : List Token}
    {outcome : Nat → List Token → Except ParseError (α × List Token)}
    (h : Determined p us rest outcome) (last : Nat) : p last (us ++ rest) = outcome last rest :=
  h last us rest rfl rfl

/-- The second routine starts with what the first one leaves. -/
theorem Determined.bind {p : Routine α} {q : α → Routine β} {a : α} {us vs rest : List Token}
    {outcome : Nat → List Token → Except ParseError (β × List Token)}
    (hp : Determined p us (vs ++ rest) (Success a)) (hq : Determined (q a) vs rest outcome) :
    Determined (p >>= q) (us ++ vs) rest outcome := by
  intro last ws rest' hws hrest
  obtain ⟨us', vs', rfl, hus, hvs⟩ := alike_append hws
  rw [List.append_assoc, Routine.bind_of_ok (hp last us' (vs' ++ rest') hus
    (sameFront_append hvs hrest))]
  exact hq last vs' rest' hvs hrest

/-- If the first routine fails, the second one is not tried. -/
theorem Determined.bind_failure {p : Routine α} {q : α → Routine β} {cause : Cause}
    {us rest : List Token} (hp : Determined p us rest (Failure cause)) :
    Determined (p >>= q) us rest (Failure cause) := fun last us' rest' hus hrest =>
  Routine.bind_of_error (hp last us' rest' hus hrest)

/-- The routine reads something or blames the first token that it does not use; in the second case
those that it does use are a start in the given sense. -/
inductive Decided (p : Routine α) (Start : List Token → Prop) (ts : List Token) : Prop
  | reads (a : α) (us rest : List Token) (hts : ts = us ++ rest)
      (h : Determined p us rest (Success a))
  | fails (cause : Cause) (us rest : List Token) (hts : ts = us ++ rest) (hus : Start us)
      (h : Determined p us rest (Failure cause))

namespace Decided

variable {p : Routine α} {Start : List Token → Prop} {ts : List Token}

/-- Nothing is used, and nothing goes wrong. -/
theorem stay (a : α) (h : ∀ last us, SameFront us ts → p last us = .ok (a, us)) :
    Decided p Start ts := by
  refine .reads a [] ts rfl fun last us' rest' hus hrest => ?_
  obtain rfl := alike_nil.1 hus
  exact h last rest' hrest

protected theorem pure (a : α) : Decided (pure a) Start ts :=
  .stay a fun _ _ _ => rfl

/-- The first token is blamed. -/
theorem blame (cause : Cause) (hstart : Start [])
    (h : ∀ last us, SameFront us ts → p last us = .error (cause.error (front last us))) :
    Decided p Start ts := by
  refine .fails cause [] ts rfl hstart fun last us' rest' hus hrest => ?_
  obtain rfl := alike_nil.1 hus
  exact h last rest' hrest

/-- The first token is used. -/
theorem cons {q : Routine α} {t : Token}
    (h : ∀ last t' rest, t'.word = t.word → p last (t' :: rest) = q last rest)
    (hq : Decided q (fun us => Start (t :: us)) ts) : Decided p Start (t :: ts) := by
  have step {us rest : List Token}
      {outcome : Nat → List Token → Except ParseError (α × List Token)}
      (hus : Determined q us rest outcome) : Determined p (t :: us) rest outcome := by
    intro last ws rest' hws hrest
    obtain ⟨t', us', rfl, ht, hus'⟩ := alike_cons hws
    exact (h last t' (us' ++ rest') ht).trans (hus last us' rest' hus' hrest)
  obtain ⟨a, us, rest, rfl, hus⟩ | ⟨cause, us, rest, rfl, hstart, hus⟩ := hq
  · exact .reads a (t :: us) rest rfl (step hus)
  · exact .fails cause (t :: us) rest rfl hstart (step hus)

/-- The first token decides how to go on. -/
theorem congr {q : Routine α} (h : ∀ last us, SameFront us ts → p last us = q last us)
    (hq : Decided q Start ts) : Decided p Start ts := by
  obtain ⟨a, us, rest, rfl, hus⟩ | ⟨cause, us, rest, rfl, hstart, hus⟩ := hq
  · exact .reads a us rest rfl fun last us' rest' hus' hrest =>
      (h last _ (sameFront_append hus' hrest)).trans (hus last us' rest' hus' hrest)
  · exact .fails cause us rest rfl hstart fun last us' rest' hus' hrest =>
      (h last _ (sameFront_append hus' hrest)).trans (hus last us' rest' hus' hrest)

/-- Another sense of start, for the tokens at hand. -/
theorem mono {Start' : List Token → Prop} (h : Decided p Start ts)
    (hstart : ∀ us rest, ts = us ++ rest → Start us → Start' us) : Decided p Start' ts := by
  obtain ⟨a, us, rest, hts, hus⟩ | ⟨cause, us, rest, hts, hus, hfail⟩ := h
  · exact .reads a us rest hts hus
  · exact .fails cause us rest hts (hstart us rest hts hus) hfail

/-- One routine behind another. -/
protected theorem bind {q : α → Routine β} {First : List Token → Prop} (hp : Decided p First ts)
    (hfirst : ∀ us, First us → Start us)
    (hq : ∀ a us rest, ts = us ++ rest → (∀ last, p last ts = .ok (a, rest)) →
      Decided (q a) (fun vs => Start (us ++ vs)) rest) : Decided (p >>= q) Start ts := by
  obtain ⟨a, us, rest, rfl, hus⟩ | ⟨cause, us, rest, rfl, hstart, hus⟩ := hp
  · obtain ⟨b, vs, rest, rfl, hvs⟩ | ⟨cause, vs, rest, rfl, hstart, hvs⟩ :=
      hq a us rest rfl hus.apply
    · exact .reads b (us ++ vs) rest (List.append_assoc ..).symm (hus.bind hvs)
    · exact .fails cause (us ++ vs) rest (List.append_assoc ..).symm hstart (hus.bind hvs)
  · exact .fails cause us rest rfl (hfirst us hstart) hus.bind_failure

/-- A choice by the next token. -/
theorem ifNext {kind : Kind} {yes no : Routine α}
    (hyes : ∀ t rest, ts = t :: rest → t.kind = kind →
      Decided yes (fun us => Start (t :: us)) rest)
    (hno : (∀ t ∈ ts.head?, t.kind ≠ kind) → Decided no Start ts) :
    Decided (Routine.ifNext kind yes no) Start ts := by
  cases ts with
  | nil =>
    refine .congr (fun last us hus => ?_) (hno nofun)
    rw [sameFront_nil.1 hus]
    rfl
  | cons t ts =>
    by_cases ht : t.kind = kind
    · refine .cons (fun last t' rest hword => ?_) (hyes t ts rfl ht)
      exact if_pos ((Token.kind_eq_of_word hword).trans ht)
    · refine .congr (fun last us hus => ?_) (hno fun u hu => Option.some.inj hu ▸ ht)
      obtain ⟨t', rest, rfl, hword⟩ := sameFront_cons hus
      exact if_neg fun ht' => ht ((Token.kind_eq_of_word hword).symm.trans ht')

/-- The semicolon that may stand next is never blamed. -/
theorem semicolon (a : α) :
    Decided (do let _ ← Routine.semicolon; return a : Routine α) Start ts := by
  have hsemicolon : Decided Routine.semicolon Start ts :=
    .ifNext (fun _ _ _ _ => .pure ()) fun _ => .pure ()
  exact hsemicolon.bind (fun _ h => h) fun _ _ _ _ _ => .pure a

/-- A token of a given kind, and what follows it. -/
theorem token {kind : Kind} {expected : String} {q : String → Routine β} (hstart : Start [])
    (hq : ∀ t rest, ts = t :: rest → t.kind = kind →
      Decided (q t.literal) (fun us => Start (t :: us)) rest) :
    Decided (Routine.token kind expected >>= q) Start ts := by
  cases ts with
  | nil =>
    refine .blame (.unexpected expected) hstart fun last us hus => ?_
    rw [sameFront_nil.1 hus]
    rfl
  | cons t ts =>
    by_cases ht : t.kind = kind
    · refine .cons (fun last t' rest hword => ?_) (hq t ts rfl ht)
      have hkind := (Token.kind_eq_of_word hword).trans ht
      rw [Routine.bind_of_ok (Routine.token_of_kind hkind), Token.literal_eq_of_word hword]
    · refine .blame (.unexpected expected) hstart fun last us hus => ?_
      obtain ⟨t', rest, rfl, hword⟩ := sameFront_cons hus
      have hkind : t'.kind ≠ kind := fun ht' => ht ((Token.kind_eq_of_word hword).symm.trans ht')
      exact Routine.bind_of_error (Routine.token_of_kind_ne hkind)

end Decided

end TreeWalk.Parser

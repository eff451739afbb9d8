import TreeWalk.Proofs.Grammar.Sound
import TreeWalk.Proofs.Parser.Lookahead

/-!
# Phrases that can still be finished

Where the parser stops at a token, the tokens before it are the start of some phrase of the grammar:
a few further tokens, chosen from a fixed list, make the phrase complete (`Begun`).

Each routine is shown to read something or to stop where its phrase has begun, and to decide this by
one token of lookahead (`Parser.Decided`).  The argument follows the way in which the routine is put
together.  What the parts before the failing one have used is complete, by soundness (`expr_used`,
`exists_concat`); the failing part has begun; and the parts that would follow are filled in: a name
for an expression, an empty block for a block, a bracket for a bracket.
-/

set_option autoImplicit false

namespace TreeWalk.Grammar

open Token (Kind)
open TreeWalk.Parser (Decided Routine)

/-! ## Finishing a phrase -/

/-- A token that is written as its kind's own text. -/
def filler (kind : Kind) : Token := ⟨kind, kind.text, 0⟩

theorem kind_filler (kind : Kind) : (filler kind).kind = kind := rfl

/-- A name, where any expression will do. -/
def anyName : Token := ⟨.identifier, "x", 0⟩

theorem kind_anyName : anyName.kind = .identifier := rfl

/-- The symbols that finish a phrase. -/
def fillerKinds : List Kind :=
  [.assign, .colon, .lparen, .rparen, .rbracket, .lbrace, .rbrace]

/-- The tokens that finish a phrase. -/
def fillers : List Token := anyName :: fillerKinds.map filler

/-- The tokens are the start of a phrase: fillers behind them make it complete. -/
def Begun {α : Type} (Phrase : List Token → α → Prop) (us : List Token) : Prop :=
  ∃ fs a, fs ⊆ fillers ∧ Phrase (us ++ fs) a

section

variable {α β : Type} {P : List Token → α → Prop} {Q : List Token → β → Prop} {us : List Token}

/-- A phrase that is finished by the given fillers. -/
theorem Begun.of {ts : List Token} {a : α} (h : P ts a) (fs : List Token) (hfs : fs ⊆ fillers)
    (hts : us ++ fs = ts) : Begun P us :=
  ⟨fs, a, hfs, hts ▸ h⟩

/-- A phrase in front of which stands a part of a larger one, and behind which fillers complete
that one. -/
theorem Begun.wrap {ws : List Token} (h : Begun P us) (before after : List Token)
    (hafter : after ⊆ fillers) (hws : before ++ us = ws)
    (hQ : ∀ ts a, P ts a → ∃ b, Q (before ++ (ts ++ after)) b) : Begun Q ws := by
  obtain ⟨fs, a, hfs, hP⟩ := h
  obtain ⟨b, hb⟩ := hQ _ a hP
  exact .of hb (fs ++ after) (List.append_subset.2 ⟨hfs, hafter⟩) (by simp [← hws])

/-- A phrase that completes a larger one. -/
theorem Begun.prepend {ws : List Token} (h : Begun P us) (before : List Token)
    (hws : before ++ us = ws) (hQ : ∀ ts a, P ts a → ∃ b, Q (before ++ ts) b) : Begun Q ws := by
  obtain ⟨fs, a, hfs, hP⟩ := h
  obtain ⟨b, hb⟩ := hQ _ a hP
  exact .of hb fs hfs (by simp [← hws])

end

/-- A name is an expression of every stratum. -/
theorem derives_anyName (a : Stratum) : Derives a [anyName] (.ident "x") :=
  (Derives.ident rfl).loosen (by cases a <;> decide)

theorem braced_nil : Braced [filler .lbrace, filler .rbrace] [] :=
  .braces (kind_filler .lbrace) .nil (kind_filler .rbrace)

/-- The start of a tighter expression is one of a looser expression. -/
theorem Begun.loosen {a b : Stratum} {us : List Token} (h : Begun (Derives b) us)
    (hab : a.rank ≤ b.rank) : Begun (Derives a) us :=
  h.prepend [] rfl fun _ _ hts => ⟨_, hts.loosen hab⟩

theorem Derives.items {ts : List Token} {e : Expr} (h : Derives .equality ts e) :
    Items ts [e] := by
  simpa using Items.cons h .nil

theorem Derives.moreItems {comma : Token} {ts : List Token} {e : Expr}
    (hcomma : comma.kind = .comma) (h : Derives .equality ts e) :
    MoreItems (comma :: ts) [e] := by
  simpa using MoreItems.cons hcomma h .nil

theorem Derives.entries {colon : Token} {ts us : List Token} {k v : Expr}
    (hk : Derives .equality ts k) (hcolon : colon.kind = .colon) (hv : Derives .equality us v) :
    Entries (ts ++ colon :: us) [(k, v)] := by
  simpa using Entries.cons hk hcolon hv .nil

theorem Derives.cond_none {i o c : Token} {ts us : List Token} {test : Expr} {yes : Block}
    (hi : i.kind = .kwIf) (ho : o.kind = .lparen) (htest : Derives .equality ts test)
    (hc : c.kind = .rparen) (hyes : Braced us yes) :
    Derives .primary (i :: o :: (ts ++ c :: us)) (.cond test yes none) := by
  simpa using Derives.cond hi ho htest hc hyes .none

theorem Statement.statements {ts : List Token} {s : Stmt} (h : Statement ts s) :
    Statements ts [s] := by
  simpa using Statements.bare h not_continues_nil .nil

/-! ## What has been used -/

section

variable {ts us rest : List Token}

/-- What has been used for an expression is that expression. -/
theorem expr_used {level : Level} {e : Expr} (hts : ts = us ++ rest)
    (h : ∀ last, Routine.expr level last ts = .ok (e, rest)) :
    Derives (stratumAt level) us e ∧ pull rest ≤ level.rank ∧ rest.length < ts.length := by
  have hreads := Parser.answer_eq_ok.1 (h 0)
  obtain ⟨vs, hvs, hderives, hpull⟩ := expr_sound hreads
  obtain rfl := List.append_cancel_right (hts.symm.trans hvs)
  exact ⟨hderives, hpull, hreads.length_lt⟩

theorem eq_concat_of_append {vs : List Token} {c : Token} (hts : ts = us ++ rest)
    (hvs : ts = vs ++ c :: rest) : us = vs ++ [c] :=
  List.append_cancel_right (hts.symm.trans (hvs.trans (List.append_cons ..)))

/-- What a routine has used, if the last token of it closes the phrase. -/
theorem exists_concat {k : Kind} {P : List Token → Prop} (hts : ts = us ++ rest)
    (h : ∃ vs c, ts = vs ++ c :: rest ∧ c.kind = k ∧ P vs) :
    ∃ vs c, us = vs ++ [c] ∧ c.kind = k ∧ P vs := by
  obtain ⟨vs, c, hvs, hc, hP⟩ := h
  exact ⟨vs, c, eq_concat_of_append hts hvs, hc, hP⟩

end

/-! ## Parameters -/

theorem moreParams_decided (ts : List Token) :
    Decided Routine.moreParams (Begun MoreParams) ts := by
  rw [Routine.moreParams_eq]
  refine .ifNext (fun comma mid hts hcomma => ?_) fun _ => ?_
  · refine .token ?_ fun name rest hmid hname => ?_
    · exact .of (.cons hcomma rfl .nil) [anyName] (by decide) rfl
    · have hlength : rest.length + 2 = ts.length := by simp [hts, hmid]
      refine (moreParams_decided rest).bind (fun us hus => ?_) fun _ _ _ _ _ => .pure _
      exact hus.prepend [comma, name] rfl fun vs ps h => ⟨_, .cons hcomma hname h⟩
  · exact .token (.of .nil [] (by decide) rfl) fun _ _ _ _ => .pure _
termination_by ts.length

theorem params_decided (ts : List Token) : Decided Routine.params (Begun Params) ts := by
  rw [Routine.params_eq]
  refine .ifNext (fun _ _ _ _ => .pure _) fun _ => ?_
  refine .token (.of .nil [] (by decide) rfl) fun name rest hts hname => ?_
  refine (moreParams_decided rest).bind (fun us hus => ?_) fun _ _ _ _ _ => .pure _
  exact hus.prepend [name] rfl fun vs ps h => ⟨_, .cons hname h⟩

/-! ## The routines -/

/-- Statements that have begun behind a statement that has been read.  Either nothing has begun, or
the first token is one that does not continue the statement before it. -/
theorem begun_after_stmt {ts us vs tail : List Token} {s : Stmt} (hts : ts = us ++ (vs ++ tail))
    (h : ∀ last, Routine.stmt last ts = .ok (s, vs ++ tail)) (hvs : Begun Statements vs) :
    Begun Statements (us ++ vs) := by
  obtain ⟨xs, mid, hxs, hskip, hs, hmid⟩ := stmt_sound (Parser.answer_eq_ok.1 (h 0))
  have bare (heq : mid = vs ++ tail) : Begun Statements (us ++ vs) := by
    obtain rfl : us = xs := List.append_cancel_right (hts.symm.trans (heq ▸ hxs))
    cases vs with
    | nil => exact .of hs.statements [] (by decide) (by simp)
    | cons t vs =>
      obtain ⟨fs, ss, hfs, hss⟩ := hvs
      have hstop : ¬ Continues (t :: (vs ++ fs)) := fun hgo =>
        hmid (heq ▸ continues_cons_iff.2 (continues_cons_iff.1 hgo))
      exact .of (.bare hs hstop hss) fs hfs (by simp)
  cases mid with
  | nil => exact bare hskip
  | cons t mid =>
    rw [Parser.skipSemicolon] at hskip
    split at hskip
    · next ht =>
      obtain rfl := eq_concat_of_append hts (hskip ▸ hxs)
      exact hvs.prepend (xs ++ [t]) rfl fun ws ss hws =>
        ⟨_, by simpa using Statements.closed hs ht hws⟩
    · exact bare hskip

mutual

/-- An expression at a level stops where an expression of the stratum of that level has begun. -/
theorem expr_decided (level : Level) (ts : List Token) :
    Decided (Routine.expr level) (Begun (Derives (stratumAt level))) ts := by
  rw [Routine.expr_eq]
  refine (operand_decided ts).bind (fun us hus => ?_) fun left us rest hts h => ?_
  · exact hus.loosen (rank_stratumAt_le_unary level)
  · have hreads := Parser.answer_eq_ok.1 (h 0)
    have hlength := hreads.length_lt
    obtain ⟨vs, a, hvs, hleft, -, hpull⟩ := operand_sound hreads
    obtain rfl := List.append_cancel_right (hts.symm.trans hvs)
    exact climb_decided hleft rest hpull
termination_by 5 * ts.length + 2
decreasing_by all_goals omega

/-- Behind the token that opens an operand. -/
theorem opened_decided {o : Parser.Opening} {q : Routine Expr} (t : Token) (ts : List Token)
    (ho : t.kind = o.kind) (hq : Routine.opened t.literal o = some q) :
    Decided q (fun us => Begun (Derives .unary) (t :: us)) ts := by
  -- Every opening but that by an operator makes a primary expression.
  have primary {us : List Token} (h : Begun (Derives .primary) us) : Begun (Derives .unary) us :=
    h.loosen (by decide)
  cases o with
  | name | text | truth =>
    cases hq
    exact .pure _
  | number =>
    obtain ⟨n, -, rfl⟩ := Option.map_eq_some_iff.1 hq
    exact .pure _
  | operator op =>
    cases hq
    refine (expr_decided .unary ts).bind (fun us hus => ?_) fun _ _ _ _ _ => .pure _
    exact hus.prepend [t] rfl fun vs e h => ⟨_, .unary ho h⟩
  | group =>
    cases hq
    refine (expr_decided .lowest ts).bind (fun us hus => primary ?_) fun e us rest hts h => ?_
    · exact hus.wrap [t] [filler .rparen] (by decide) rfl fun vs e h =>
        ⟨e, .group ho h (kind_filler .rparen)⟩
    obtain ⟨he, -, -⟩ := expr_used hts h
    refine .token (primary ?_) fun _ _ _ _ => .pure _
    exact .of (.group ho he (kind_filler .rparen)) [filler .rparen] (by decide) (by simp)
  | array =>
    cases hq
    refine (items_decided .rbracket ts).bind (fun us hus => primary ?_) fun _ _ _ _ _ => .pure _
    exact hus.wrap [t] [filler .rbracket] (by decide) rfl fun vs es h =>
      ⟨_, .array ho h (kind_filler .rbracket)⟩
  | hash =>
    cases hq
    refine (entries_decided ts).bind (fun us hus => primary ?_) fun _ _ _ _ _ => .pure _
    exact hus.wrap [t] [filler .rbrace] (by decide) rfl fun vs es h =>
      ⟨_, .hash ho h (kind_filler .rbrace)⟩
  | cond =>
    cases hq
    refine .token (primary ?_) fun o r₁ h₁ hlp => ?_
    · exact .of (.cond_none ho (kind_filler .lparen) (derives_anyName .equality)
        (kind_filler .rparen) braced_nil)
        [filler .lparen, anyName, filler .rparen, filler .lbrace, filler .rbrace] (by decide) rfl
    have hlt₁ : r₁.length + 1 = ts.length := by rw [h₁]; rfl
    refine (expr_decided .lowest r₁).bind (fun us hus => primary ?_) fun test us r₂ h₂ htest => ?_
    · exact hus.wrap [t, o] [filler .rparen, filler .lbrace, filler .rbrace] (by decide) rfl
        fun vs e h => ⟨_, .cond_none ho hlp h (kind_filler .rparen) braced_nil⟩
    obtain ⟨hus, -, hlt₂⟩ := expr_used h₂ htest
    refine .token (primary ?_) fun c r₃ h₃ hc => .token (primary ?_) fun b r₄ h₄ hb => ?_
    · exact .of (.cond_none ho hlp hus (kind_filler .rparen) braced_nil)
        [filler .rparen, filler .lbrace, filler .rbrace] (by decide) (by simp)
    · exact .of (.cond_none ho hlp hus hc braced_nil)
        [filler .lbrace, filler .rbrace] (by decide) (by simp)
    have hlt₄ : r₄.length + 2 = r₂.length := by simp [h₃, h₄]
    refine (block_decided r₄).bind (fun vs hvs => primary ?_) fun yes vs r₅ h₅ hyes => ?_
    · exact hvs.wrap (t :: o :: us ++ [c, b]) [filler .rbrace] (by decide) (by simp) fun xs b h =>
        ⟨_, by simpa using Derives.cond_none ho hlp hus hc (.braces hb h (kind_filler .rbrace))⟩
    have hreads := Parser.answer_eq_ok.1 (hyes 0)
    have hlt₅ := hreads.length_lt
    obtain ⟨ys, d, rfl, hd, hys⟩ := exists_concat h₅ (block_sound hreads)
    refine (otherwise_decided r₅).bind (fun xs hxs => primary ?_) fun _ _ _ _ _ => .pure _
    exact hxs.prepend (t :: o :: us ++ c :: (b :: ys ++ [d])) (by simp) fun zs no h =>
      ⟨_, .cond ho hlp hus hc (.braces hb hys hd) h⟩
  | func =>
    cases hq
    refine .token (primary ?_) fun o r₁ h₁ hlp => ?_
    · exact .of (.func ho (kind_filler .lparen) .nil (kind_filler .rparen) braced_nil)
        [filler .lparen, filler .rparen, filler .lbrace, filler .rbrace] (by decide) rfl
    have hlt₁ : r₁.length + 1 = ts.length := by rw [h₁]; rfl
    refine (params_decided r₁).bind (fun us hus => primary ?_) fun ps us r₂ h₂ hps => ?_
    · exact hus.wrap [t, o] [filler .rparen, filler .lbrace, filler .rbrace] (by decide) rfl
        fun vs ps h => ⟨_, .func ho hlp h (kind_filler .rparen) braced_nil⟩
    have hreads := Parser.answer_eq_ok.1 (hps 0)
    have hlt₂ := hreads.length_lt
    obtain ⟨xs, c, rfl, hc, hxs⟩ := exists_concat h₂ (params_sound hreads)
    refine .token (primary ?_) fun b r₃ h₃ hb => ?_
    · exact .of (.func ho hlp hxs hc braced_nil) [filler .lbrace, filler .rbrace] (by decide)
        (by simp)
    have hlt₃ : r₃.length + 1 = r₂.length := by rw [h₃]; rfl
    refine (block_decided r₃).bind (fun vs hvs => primary ?_) fun _ _ _ _ _ => .pure _
    exact hvs.wrap (t :: o :: xs ++ [c, b]) [filler .rbrace] (by decide) (by simp) fun ys body h =>
      ⟨_, by simpa using Derives.func ho hlp hxs hc (.braces hb h (kind_filler .rbrace))⟩
termination_by 5 * ts.length + 4

/-- An operand stops at its first token if this opens nothing or is a number that is too large, and
else where the token that opens it says. -/
theorem operand_decided (ts : List Token) :
    Decided Routine.operand (Begun (Derives .unary)) ts := by
  have hstart : Begun (Derives .unary) [] := .of (derives_anyName .unary) [anyName] (by decide) rfl
  cases ts with
  | nil =>
    refine .blame .noExpression hstart fun last us hus => ?_
    rw [Token.sameFront_nil.1 hus, Routine.operand_nil]
    rfl
  | cons t ts =>
    rcases ho : Parser.opening? t.kind with _ | o
    · refine .blame .noExpression hstart fun last us hus => ?_
      obtain ⟨t', rest, rfl, hword⟩ := Token.sameFront_cons hus
      rw [Routine.operand_cons, Token.kind_eq_of_word hword, ho]
      rfl
    rcases hq : Routine.opened t.literal o with _ | q
    · refine .blame .tooLarge hstart fun last us hus => ?_
      obtain ⟨t', rest, rfl, hword⟩ := Token.sameFront_cons hus
      simp only [Routine.operand_cons, Token.kind_eq_of_word hword, ho,
        Token.literal_eq_of_word hword, hq]
      rw [← Token.literal_eq_of_word hword]
      rfl
    · refine .cons (fun last t' rest hword => ?_)
        (opened_decided t ts (Parser.opening?_eq_some_iff.1 ho) hq)
      simp only [Routine.operand_cons, Token.kind_eq_of_word hword, ho,
        Token.literal_eq_of_word hword, hq]
termination_by 5 * ts.length + 1

/-- Behind the token that continues an expression. -/
theorem continued_decided {level : Level} {a : Stratum} {ws : List Token} {left : Expr}
    {c : Parser.Continuation} (hleft : Derives a ws left) (t : Token) (ts : List Token)
    (hc : t.kind = c.kind) (hlt : level.rank < (Level.ofKind t.kind).rank)
    (hpull : a.rank ≤ Stratum.unary.rank → (Level.ofKind t.kind).rank ≤ a.rank) :
    Decided (Routine.continued level left c)
      (fun us => Begun (Derives (stratumAt level)) (ws ++ t :: us)) ts := by
  cases c with
  | operator op =>
    rw [hc] at hlt hpull
    obtain ⟨b, hrank, hlevel, hbinary⟩ := hleft.chain hlt hpull
    refine (expr_decided (Level.ofKind op.kind) ts).bind (fun us hus => ?_)
      fun right us rest hts h => ?_
    · exact (hus.prepend (ws ++ [t]) (by simp) fun vs right h =>
        ⟨_, by simpa using hbinary hc h⟩ : Begun (Derives b) _).loosen hlevel
    · obtain ⟨hright, hmid, hlength⟩ := expr_used hts h
      simpa using climb_decided (hbinary hc hright) rest fun _ => hrank ▸ hmid
  | arguments =>
    have happ : Stratum.applied.rank ≤ a.rank := applied_of_pull hpull (by rw [hc]; decide)
    have hlevel := rank_stratumAt_le_applied level
    have hcallee := hleft.loosen happ
    refine (items_decided .rparen ts).bind (fun us hus => ?_) fun args us rest hts h => ?_
    · exact (hus.wrap (ws ++ [t]) [filler .rparen] (by decide) (by simp) fun vs args h =>
        ⟨_, by simpa using Derives.call hcallee hc h (kind_filler .rparen)⟩ :
          Begun (Derives .applied) _).loosen hlevel
    · have hreads := Parser.answer_eq_ok.1 (h 0)
      have hlength := hreads.length_lt
      obtain ⟨vs, d, rfl, hd, hargs⟩ := exists_concat hts (items_sound hreads)
      simpa using climb_decided (.call hcallee hc hargs hd) rest fun h => absurd h (by decide)
  | subscript =>
    have happ : Stratum.applied.rank ≤ a.rank := applied_of_pull hpull (by rw [hc]; decide)
    have hlevel := rank_stratumAt_le_applied level
    have hcallee := hleft.loosen happ
    refine (expr_decided .lowest ts).bind (fun us hus => ?_) fun i us mid hts h => ?_
    · exact (hus.wrap (ws ++ [t]) [filler .rbracket] (by decide) (by simp) fun vs i h =>
        ⟨_, by simpa using Derives.index hcallee hc h (kind_filler .rbracket)⟩ :
          Begun (Derives .applied) _).loosen hlevel
    obtain ⟨hi, -, hlength⟩ := expr_used hts h
    refine .token ?_ fun d rest hmid hd => ?_
    · exact (Begun.of (.index hcallee hc hi (kind_filler .rbracket)) [filler .rbracket] (by decide)
        (by simp) : Begun (Derives .applied) _).loosen hlevel
    have hlength' : rest.length + 1 = mid.length := by rw [hmid]; rfl
    simpa using climb_decided (.index hcallee hc hi hd) rest fun h => absurd h (by decide)
termination_by 5 * ts.length + 4

/-- The tokens `ws` have been used for `left`, in the stratum `a`; the next token pulls no harder
than that. -/
theorem climb_decided {level : Level} {a : Stratum} {ws : List Token} {left : Expr}
    (hleft : Derives a ws left) (ts : List Token)
    (hpull : a.rank ≤ Stratum.unary.rank → pull ts ≤ a.rank) :
    Decided (Routine.climb level left) (fun us => Begun (Derives (stratumAt level)) (ws ++ us))
      ts := by
  cases ts with
  | nil =>
    refine .stay left fun last us hus => ?_
    rw [Token.sameFront_nil.1 hus, Routine.climb_nil]
  | cons t ts =>
    by_cases hlt : level < Level.ofKind t.kind
    · have hpos : 0 < (Level.ofKind t.kind).rank := Nat.lt_of_le_of_lt (Nat.zero_le _) hlt
      obtain ⟨c, hc⟩ := Parser.rank_ofKind_pos_iff.1 hpos
      refine .cons (fun last t' rest hword => ?_) (continued_decided hleft t ts hc hlt hpull)
      simp only [Routine.climb_cons, Token.kind_eq_of_word hword, hlt, if_true,
        Parser.continuation?_of_kind c hc]
    · refine .stay left fun last us hus => ?_
      obtain ⟨t', rest, rfl, hword⟩ := Token.sameFront_cons hus
      rw [Routine.climb_cons, Token.kind_eq_of_word hword, if_neg hlt]
termination_by 5 * ts.length

theorem items_decided (closing : Kind) (ts : List Token) :
    Decided (Routine.items closing) (Begun Items) ts := by
  rw [Routine.items_eq]
  refine .ifNext (fun _ _ _ _ => .pure _) fun _ => ?_
  refine (expr_decided .lowest ts).bind (fun us hus => ?_) fun e us rest hts h => ?_
  · exact hus.prepend [] rfl fun vs e h => ⟨_, Derives.items h⟩
  · obtain ⟨he, -, hlength⟩ := expr_used hts h
    refine (moreItems_decided closing rest).bind (fun vs hvs => ?_) fun _ _ _ _ _ => .pure _
    exact hvs.prepend us rfl fun vs es h => ⟨_, .cons he h⟩
termination_by 5 * ts.length + 3

theorem moreItems_decided (closing : Kind) (ts : List Token) :
    Decided (Routine.moreItems closing) (Begun MoreItems) ts := by
  rw [Routine.moreItems_eq]
  refine .ifNext (fun comma mid hts hcomma => ?_) fun _ => ?_
  · have hlength : mid.length + 1 = ts.length := by rw [hts]; rfl
    refine (expr_decided .lowest mid).bind (fun us hus => ?_) fun e us rest hmid h => ?_
    · exact hus.prepend [comma] rfl fun vs e h => ⟨_, Derives.moreItems hcomma h⟩
    · obtain ⟨he, -, hlength'⟩ := expr_used hmid h
      refine (moreItems_decided closing rest).bind (fun vs hvs => ?_) fun _ _ _ _ _ => .pure _
      exact hvs.prepend (comma :: us) rfl fun vs es h => ⟨_, .cons hcomma he h⟩
  · exact .token (.of .nil [] (by decide) rfl) fun _ _ _ _ => .pure _
termination_by 5 * ts.length

/-- An entry without its value is given one. -/
theorem entries_decided (ts : List Token) : Decided Routine.entries (Begun Entries) ts := by
  rw [Routine.entries_eq]
  refine .ifNext (fun _ _ _ _ => .pure _) fun _ => ?_
  refine (expr_decided .lowest ts).bind (fun us hus => ?_) fun key us mid hts hkey => ?_
  · exact hus.wrap [] [filler .colon, anyName] (by decide) rfl fun vs k h =>
      ⟨_, Derives.entries h (kind_filler .colon) (derives_anyName .equality)⟩
  obtain ⟨hk, -, hlength⟩ := expr_used hts hkey
  refine .token ?_ fun colon rest hmid hcolon => ?_
  · exact .of (Derives.entries hk (kind_filler .colon) (derives_anyName .equality))
      [filler .colon, anyName] (by decide) (by simp)
  have hlength' : rest.length + 1 = mid.length := by rw [hmid]; rfl
  refine (expr_decided .lowest rest).bind (fun vs hvs => ?_) fun value vs more hrest hvalue => ?_
  · exact hvs.prepend (us ++ [colon]) (by simp) fun vs v h =>
      ⟨_, by simpa using Derives.entries hk hcolon h⟩
  obtain ⟨hv, -, hlength''⟩ := expr_used hrest hvalue
  refine (moreEntries_decided more).bind (fun xs hxs => ?_) fun _ _ _ _ _ => .pure _
  exact hxs.prepend (us ++ colon :: vs) (by simp) fun xs es h => ⟨_, .cons hk hcolon hv h⟩
termination_by 5 * ts.length + 3

theorem moreEntries_decided (ts : List Token) :
    Decided Routine.moreEntries (Begun MoreEntries) ts := by
  rw [Routine.moreEntries_eq]
  refine .ifNext (fun _ _ _ _ => .pure _) fun _ => ?_
  refine .token (.of .nil [] (by decide) rfl) fun comma rest hts hcomma => ?_
  have hlength : rest.length + 1 = ts.length := by rw [hts]; rfl
  refine (entries_decided rest).mono fun us _ _ hus => ?_
  exact hus.prepend [comma] rfl fun vs es h => ⟨_, Entries.moreEntries hcomma h⟩
termination_by 5 * ts.length

theorem otherwise_decided (ts : List Token) :
    Decided Routine.otherwise (Begun Otherwise) ts := by
  rw [Routine.otherwise_eq]
  refine .ifNext (fun t mid hts ht => ?_) fun _ => .pure _
  refine .token ?_ fun o rest hmid ho => ?_
  · exact .of (.some ht braced_nil) [filler .lbrace, filler .rbrace] (by decide) rfl
  have hlength : rest.length + 2 = ts.length := by simp [hts, hmid]
  refine (block_decided rest).bind (fun us hus => ?_) fun _ _ _ _ _ => .pure _
  exact hus.wrap [t, o] [filler .rbrace] (by decide) rfl fun vs b h =>
    ⟨_, .some ht (.braces ho h (kind_filler .rbrace))⟩
termination_by 5 * ts.length

/-- A block stops before its end only where its statements have begun; the brace that is missing is
not part of them. -/
theorem block_decided (ts : List Token) : Decided Routine.block (Begun Statements) ts := by
  have hstart : Begun Statements [] := .of .nil [] (by decide) rfl
  cases ts with
  | nil =>
    refine .blame (.unexpected (Parser.quoted .rbrace)) hstart fun last us hus => ?_
    rw [Token.sameFront_nil.1 hus, Routine.block_nil]
    rfl
  | cons t ts =>
    refine .congr (fun last us hus => by
      obtain ⟨t', rest, rfl, -⟩ := Token.sameFront_cons hus
      exact Routine.block_cons) ?_
    refine .ifNext (fun _ _ _ _ => .pure _) fun _ => ?_
    refine (stmt_decided (t :: ts)).bind (fun us hus => ?_) fun s us rest hts h => ?_
    · exact hus.prepend [] rfl fun vs s h => ⟨_, Statement.statements h⟩
    · have hlength : rest.length < ts.length + 1 := (Parser.answer_eq_ok.1 (h 0)).length_lt
      refine ((block_decided rest).mono fun vs tail hrest hvs => ?_).bind (fun _ h => h)
        fun _ _ _ _ _ => .pure _
      exact begun_after_stmt (hts.trans (hrest ▸ rfl)) (hrest ▸ h) hvs
termination_by 5 * ts.length + 4

theorem stmt_decided (ts : List Token) : Decided Routine.stmt (Begun Statement) ts := by
  rw [Routine.stmt_eq]
  refine .ifNext (fun v mid hts hv => ?_) fun _ => .ifNext (fun r rest hts hr => ?_) fun _ => ?_
  · have hlength : mid.length + 1 = ts.length := by rw [hts]; rfl
    refine .token ?_ fun name mid' hmid hname => .token ?_ fun a rest hmid' ha => ?_
    · exact .of (.bind hv kind_anyName (kind_filler .assign) (derives_anyName .equality))
        [anyName, filler .assign, anyName] (by decide) rfl
    · exact .of (.bind hv hname (kind_filler .assign) (derives_anyName .equality))
        [filler .assign, anyName] (by decide) rfl
    have hlength' : rest.length + 2 = mid.length := by simp [hmid, hmid']
    refine (expr_decided .lowest rest).bind (fun us hus => ?_) fun _ _ _ _ _ => .semicolon _
    exact hus.prepend [v, name, a] rfl fun vs e h => ⟨_, .bind hv hname ha h⟩
  · have hlength : rest.length + 1 = ts.length := by rw [hts]; rfl
    refine (expr_decided .lowest rest).bind (fun us hus => ?_) fun _ _ _ _ _ => .semicolon _
    exact hus.prepend [r] rfl fun vs e h => ⟨_, .ret hr h⟩
  · refine (expr_decided .lowest ts).bind (fun us hus => ?_) fun _ _ _ _ _ => .semicolon _
    exact hus.prepend [] rfl fun vs e h => ⟨_, .expr h⟩
termination_by 5 * ts.length + 3

end

/-- **The parser stops in time**: where it fails, the tokens before the one that it blames are the
start of a program. -/
theorem program_decided (ts : List Token) : Decided Routine.program (Begun Statements) ts := by
  cases ts with
  | nil =>
    refine .stay [] fun last us hus => ?_
    rw [Token.sameFront_nil.1 hus, Routine.program_nil]
  | cons t ts =>
    refine .congr (fun last us hus => by
      obtain ⟨t', rest, rfl, -⟩ := Token.sameFront_cons hus
      exact Routine.program_cons) ?_
    refine (stmt_decided (t :: ts)).bind (fun us hus => ?_) fun s us rest hts h => ?_
    · exact hus.prepend [] rfl fun vs s h => ⟨_, Statement.statements h⟩
    · have hlength : rest.length < ts.length + 1 := (Parser.answer_eq_ok.1 (h 0)).length_lt
      refine ((program_decided rest).mono fun vs tail hrest hvs => ?_).bind (fun _ h => h)
        fun _ _ _ _ _ => .pure _
      exact begun_after_stmt (hts.trans (hrest ▸ rfl)) (hrest ▸ h) hvs
termination_by ts.length

end TreeWalk.Grammar

import TreeWalk.Proofs.Grammar.Levels
import TreeWalk.Proofs.Parser.Reads

/-!
# What the parser reads, the grammar derives

Each routine of the parser is shown to split its tokens in two: those that it used, which derive
what it read, and those that it left.

The heart of the matter is the loop of precedence climbing (`climb_sound`).  Its invariant is that
the expression read so far is derived in some stratum that the loop may end in, and that the next
token pulls no harder than that stratum: so an operator that the loop takes next is one of this or
a looser stratum, and the chain grows to the left as the grammar says.
-/

set_option autoImplicit false

namespace TreeWalk.Grammar

open Token (Kind)
open TreeWalk.Parser (Reads)

/-! ## Parameters -/

theorem moreParams_sound {last : Nat} {rest : List Token} : {ts : List Token} → {ps : List String} →
    Reads (Parser.moreParams last ts) ps rest →
    ∃ us c, ts = us ++ c :: rest ∧ c.kind = .rparen ∧ MoreParams us ps
  | [], _, h => by
    rw [Parser.moreParams] at h
    exact absurd h Parser.not_reads_error
  | t :: ts, ps, h => by
    rw [Parser.reads_moreParams] at h
    split at h
    · next ht =>
      obtain ⟨p, mid, qs, rfl, hp, hqs, rfl⟩ := h
      obtain ⟨us, c, rfl, hc, hus⟩ := moreParams_sound hqs
      exact ⟨t :: p :: us, c, rfl, hc, .cons ht hp hus⟩
    · obtain ⟨ht, rfl, rfl⟩ := h
      exact ⟨[], t, rfl, ht, .nil⟩
termination_by ts => ts.length

/-- A parameter list is used up to its closing parenthesis. -/
theorem params_sound {last : Nat} {ts rest : List Token} {ps : List String}
    (h : Reads (Parser.params last ts) ps rest) :
    ∃ us c, ts = us ++ c :: rest ∧ c.kind = .rparen ∧ Params us ps := by
  cases ts with
  | nil => exact absurd h Parser.not_reads_error
  | cons t ts =>
    rw [Parser.reads_params] at h
    split at h
    · next ht =>
      obtain ⟨rfl, rfl⟩ := h
      exact ⟨[], t, rfl, ht, .nil⟩
    · obtain ⟨ht, qs, hqs, rfl⟩ := h
      obtain ⟨us, c, rfl, hc, hus⟩ := moreParams_sound hqs
      exact ⟨t :: us, c, rfl, hc, .cons ht hus⟩

/-! ## Lists -/

/-- What may follow a comma in a hash is what may stand at its start: hence the trailing comma. -/
theorem Entries.moreEntries {comma : Token} {ts : List Token} {es : List (Expr × Expr)}
    (hcomma : comma.kind = .comma) (h : Entries ts es) : MoreEntries (comma :: ts) es := by
  cases h with
  | nil => exact .comma hcomma
  | cons hk hcolon hv hes => exact .cons hcomma hk hcolon hv hes

/-- A statement, the semicolon that may follow it, and further statements. -/
theorem Statement.cons {us mid vs tail : List Token} {s : Stmt} {ss : List Stmt}
    (hs : Statement us s) (hmid : ¬ Continues mid) (hskip : Parser.skipSemicolon mid = vs ++ tail)
    (hss : Statements vs ss) : ∃ ws, us ++ mid = ws ++ tail ∧ Statements ws (s :: ss) := by
  -- Where no semicolon is skipped, the next statement must not continue this one.
  have bare (h : mid = vs ++ tail) : ∃ ws, us ++ mid = ws ++ tail ∧ Statements ws (s :: ss) := by
    refine ⟨us ++ vs, by rw [h, List.append_assoc], .bare hs ?_ hss⟩
    rintro ⟨t, rest, rfl, ht⟩
    exact hmid ⟨t, rest ++ tail, h, ht⟩
  cases mid with
  | nil => exact bare hskip
  | cons t mid =>
    rw [Parser.skipSemicolon] at hskip
    split at hskip
    · next ht => exact ⟨us ++ t :: vs, by simp [hskip], .closed hs ht hss⟩
    · exact bare hskip

/-- A token that pulls harder than every operator stands behind an expression without operators. -/
theorem applied_of_pull {a : Stratum} {n : Nat}
    (h : a.rank ≤ Stratum.unary.rank → n ≤ a.rank) (hn : Stratum.unary.rank < n) :
    Stratum.applied.rank ≤ a.rank := by
  show Stratum.unary.rank < a.rank
  refine Nat.lt_of_not_le fun hle => ?_
  exact absurd (Nat.le_trans (h hle) hle) (Nat.not_le.2 hn)

/-! ## The routines -/

/-- A chain that a further operator joins: the operand on its left belongs to the operator's
stratum, since the operator pulls no harder than what stands there. -/
theorem Derives.chain {a : Stratum} {op : BinaryOp} {ws : List Token} {left : Expr} {level : Level}
    (hleft : Derives a ws left) (hlt : level.rank < (Level.ofKind op.kind).rank)
    (hpull : a.rank ≤ Stratum.unary.rank → (Level.ofKind op.kind).rank ≤ a.rank) :
    ∃ b : Stratum, b.rank = (Level.ofKind op.kind).rank ∧
      (stratumAt level).rank ≤ b.rank ∧
      ∀ {t : Token} {us : List Token} {right : Expr}, t.kind = op.kind →
        Derives (stratumAt (Level.ofKind op.kind)) us right →
        Derives b (ws ++ t :: us) (.binary op left right) := by
  obtain ⟨b, hmem, hrank, htight⟩ := exists_stratum op
  have hb : b.rank ≤ a.rank := by
    rcases Nat.le_total a.rank Stratum.unary.rank with h | h
    · exact hrank ▸ hpull h
    · exact Nat.le_trans (Nat.le_of_lt (Stratum.rank_lt_of_mem_operators hmem)) h
  refine ⟨b, hrank, hrank ▸ Nat.le_trans (rank_stratumAt_le_succ level) hlt, ?_⟩
  intro t us right ht hright
  exact .binary hmem htight (hleft.loosen hb) ht hright

mutual

/-- An operand is a primary expression, or a unary operator with its own operand; in that case the
next token does not pull at it. -/
theorem operand_sound {last : Nat} {rest : List Token} {e : Expr} : {ts : List Token} →
    Reads (Parser.operand last ts) e rest →
    ∃ us a, ts = us ++ rest ∧ Derives a us e ∧ Stratum.unary.rank ≤ a.rank ∧
      (a.rank ≤ Stratum.unary.rank → pull rest ≤ a.rank)
  | [], h => absurd h Parser.not_reads_operand_nil
  | t :: ts, h => by
    -- Every opening but that by an operator makes a primary expression, which is finished.
    have primary (us : List Token) {x : Expr} (hts : t :: ts = us ++ rest)
        (hx : Derives .primary us x) :
        ∃ us a, t :: ts = us ++ rest ∧ Derives a us x ∧ Stratum.unary.rank ≤ a.rank ∧
          (a.rank ≤ Stratum.unary.rank → pull rest ≤ a.rank) :=
      ⟨us, .primary, hts, hx, by decide, fun h => absurd h (by decide)⟩
    rw [Parser.reads_operand] at h
    rcases ho : Parser.opening? t.kind with _ | o <;> rw [ho] at h
    · exact h.elim
    rw [Parser.opening?_eq_some_iff] at ho
    cases o with
    | name =>
      obtain ⟨rfl, rfl⟩ := h
      exact primary [t] rfl (.ident ho)
    | number =>
      obtain ⟨n, hn, rfl, rfl⟩ := h
      exact primary [t] rfl (.number ho (Checked.toInt_of_fit? hn))
    | text =>
      obtain ⟨rfl, rfl⟩ := h
      exact primary [t] rfl (.text ho)
    | truth b =>
      obtain ⟨rfl, rfl⟩ := h
      cases b with
      | true => exact primary [t] rfl (.kwTrue ho)
      | false => exact primary [t] rfl (.kwFalse ho)
    | operator op =>
      obtain ⟨x, hx, rfl⟩ := h
      obtain ⟨us, rfl, hus, hpull⟩ := expr_sound hx
      exact ⟨t :: us, .unary, rfl, .unary ho hus, Nat.le_refl _, fun _ => hpull⟩
    | group =>
      obtain ⟨c, hx, hc⟩ := h
      obtain ⟨us, rfl, hus, -⟩ := expr_sound hx
      exact primary (t :: us ++ [c]) (by simp) (.group ho hus hc)
    | array =>
      obtain ⟨es, hes, rfl⟩ := h
      obtain ⟨us, c, rfl, hc, hus⟩ := items_sound hes
      exact primary (t :: us ++ [c]) (by simp) (.array ho hus hc)
    | hash =>
      obtain ⟨es, hes, rfl⟩ := h
      obtain ⟨us, c, rfl, hc, hus⟩ := entries_sound hes
      exact primary (t :: us ++ [c]) (by simp) (.hash ho hus hc)
    | cond =>
      obtain ⟨o, mid, test, c, b, vs, yes, ws, no, ⟨hts, hlp⟩, htest, hc, hb, hyes, hno, rfl⟩ := h
      have h₀ : mid.length < ts.length := by rw [hts]; exact Nat.lt_succ_self _
      have h₁ : vs.length + 2 < mid.length := htest.length_lt
      have h₂ := hyes.length_lt
      obtain ⟨xs, rfl, hxs, -⟩ := expr_sound htest
      obtain ⟨ys, d, rfl, hd, hys⟩ := block_sound hyes
      obtain ⟨zs, rfl, hzs⟩ := otherwise_sound hno
      exact primary (t :: o :: xs ++ c :: (b :: ys ++ [d]) ++ zs) (by simp [hts])
        (.cond ho hlp hxs hc (.braces hb hys hd) hzs)
    | func =>
      obtain ⟨o, mid, ps, b, vs, body, ⟨hts, hlp⟩, hps, hb, hbody, rfl⟩ := h
      have h₀ : mid.length < ts.length := by rw [hts]; exact Nat.lt_succ_self _
      have h₁ : vs.length + 1 < mid.length := hps.length_lt
      obtain ⟨xs, c, rfl, hc, hxs⟩ := params_sound hps
      obtain ⟨ys, d, rfl, hd, hys⟩ := block_sound hbody
      exact primary (t :: o :: xs ++ c :: (b :: ys ++ [d])) (by simp [hts])
        (.func ho hlp hxs hc (.braces hb hys hd))
termination_by ts => 5 * ts.length + 1
decreasing_by all_goals (simp only [List.length_cons]; omega)

/-- The tokens `ws` have been used for `left`, in the stratum `a`.  The loop goes on from there and
stops before a token that pulls no harder than its level. -/
theorem climb_sound {last : Nat} {level : Level} {e : Expr} {rest : List Token} :
    {ts : List Token} → {a : Stratum} → {ws : List Token} → {left : Expr} → Derives a ws left →
    (stratumAt level).rank ≤ a.rank → (a.rank ≤ Stratum.unary.rank → pull ts ≤ a.rank) →
    Reads (Parser.climb last level left ts) e rest →
    ∃ us, ts = us ++ rest ∧ Derives (stratumAt level) (ws ++ us) e ∧ pull rest ≤ level.rank
  | [], _, _, _, hleft, ha, _, h => by
    obtain ⟨rfl, rfl⟩ := Parser.reads_climb_nil.1 h
    exact ⟨[], rfl, by simpa using hleft.loosen ha, Nat.zero_le _⟩
  | t :: ts, a, ws, left, hleft, ha, hpull, h => by
    by_cases hlt : level < Level.ofKind t.kind
    · rw [Parser.reads_climb_of_lt hlt] at h
      rw [Level.lt_iff_rank] at hlt
      rw [pull] at hpull
      rcases hk : Parser.continuation? t.kind with _ | k <;> rw [hk] at h
      · exact h.elim
      rw [Parser.continuation?_eq_some_iff] at hk
      cases k with
      | operator op =>
        obtain ⟨right, mid, hright, hgo⟩ := h
        have h₁ := hright.length_lt
        obtain ⟨us, rfl, hus, hmid⟩ := expr_sound hright
        rw [hk] at hlt hpull hus hmid
        obtain ⟨b, hrank, hlevel, hbinary⟩ := hleft.chain hlt hpull
        obtain ⟨vs, rfl, hvs, hrest⟩ :=
          climb_sound (hbinary hk hus) hlevel (fun _ => hrank ▸ hmid) hgo
        exact ⟨t :: us ++ vs, by simp, by simpa using hvs, hrest⟩
      | arguments =>
        obtain ⟨args, mid, hargs, hgo⟩ := h
        have h₁ := hargs.length_lt
        obtain ⟨us, c, rfl, hc, hus⟩ := items_sound hargs
        have happ : Stratum.applied.rank ≤ a.rank := applied_of_pull hpull (by rw [hk]; decide)
        have hcall := Derives.call (hleft.loosen happ) hk hus hc
        obtain ⟨vs, rfl, hvs, hrest⟩ := climb_sound hcall (rank_stratumAt_le_applied level)
          (fun h => absurd h (by decide)) hgo
        exact ⟨t :: us ++ c :: vs, by simp, by simpa using hvs, hrest⟩
      | subscript =>
        obtain ⟨i, c, mid, hi, hc, hgo⟩ := h
        have h₁ : mid.length + 1 < ts.length := hi.length_lt
        obtain ⟨us, rfl, hus, -⟩ := expr_sound hi
        have happ : Stratum.applied.rank ≤ a.rank := applied_of_pull hpull (by rw [hk]; decide)
        have hindex := Derives.index (hleft.loosen happ) hk hus hc
        obtain ⟨vs, rfl, hvs, hrest⟩ := climb_sound hindex (rank_stratumAt_le_applied level)
          (fun h => absurd h (by decide)) hgo
        exact ⟨t :: us ++ c :: vs, by simp, by simpa using hvs, hrest⟩
    · obtain ⟨rfl, rfl⟩ := (Parser.reads_climb_of_not_lt hlt).1 h
      rw [Level.lt_iff_rank, Nat.not_lt] at hlt
      exact ⟨[], rfl, by simpa using hleft.loosen ha, hlt⟩
termination_by ts => 5 * ts.length
decreasing_by all_goals (simp only [List.length_cons]; omega)

/-- An expression that is read at a level is one of the stratum of that level. -/
theorem expr_sound {last : Nat} {level : Level} {ts rest : List Token} {e : Expr}
    (h : Reads (Parser.expr last level ts) e rest) :
    ∃ us, ts = us ++ rest ∧ Derives (stratumAt level) us e ∧ pull rest ≤ level.rank := by
  obtain ⟨left, mid, hleft, hgo⟩ := Parser.reads_expr.1 h
  have h₁ := hleft.length_lt
  obtain ⟨us, a, rfl, hus, ha, hpull⟩ := operand_sound hleft
  have hlevel : (stratumAt level).rank ≤ a.rank :=
    Nat.le_trans (rank_stratumAt_le_unary level) ha
  obtain ⟨vs, rfl, hvs, hrest⟩ := climb_sound hus hlevel hpull hgo
  exact ⟨us ++ vs, by simp, hvs, hrest⟩
termination_by 5 * ts.length + 2
decreasing_by all_goals omega

/-- A list of items is used up to the token that closes it. -/
theorem items_sound {last : Nat} {closing : Kind} {rest : List Token} : {ts : List Token} →
    {es : List Expr} → Reads (Parser.items last closing ts) es rest →
    ∃ us c, ts = us ++ c :: rest ∧ c.kind = closing ∧ Items us es
  | [], _, h => absurd h Parser.not_reads_items_nil
  | t :: ts, es, h => by
    rw [Parser.reads_items] at h
    split at h
    · next ht =>
      obtain ⟨rfl, rfl⟩ := h
      exact ⟨[], t, rfl, ht, .nil⟩
    · obtain ⟨x, xs, mid, hx, hxs, rfl⟩ := h
      have h₁ : mid.length < ts.length + 1 := hx.length_lt
      obtain ⟨us, hts, hus, -⟩ := expr_sound hx
      obtain ⟨vs, c, rfl, hc, hvs⟩ := moreItems_sound hxs
      exact ⟨us ++ vs, c, by simpa using hts, hc, .cons hus hvs⟩
termination_by ts => 5 * ts.length + 3
decreasing_by all_goals (simp only [List.length_cons]; omega)

theorem moreItems_sound {last : Nat} {closing : Kind} {rest : List Token} : {ts : List Token} →
    {es : List Expr} → Reads (Parser.moreItems last closing ts) es rest →
    ∃ us c, ts = us ++ c :: rest ∧ c.kind = closing ∧ MoreItems us es
  | [], _, h => absurd h Parser.not_reads_moreItems_nil
  | t :: ts, es, h => by
    rw [Parser.reads_moreItems] at h
    split at h
    · next ht =>
      obtain ⟨x, xs, mid, hx, hxs, rfl⟩ := h
      have h₁ := hx.length_lt
      obtain ⟨us, rfl, hus, -⟩ := expr_sound hx
      obtain ⟨vs, c, rfl, hc, hvs⟩ := moreItems_sound hxs
      exact ⟨t :: us ++ vs, c, by simp, hc, .cons ht hus hvs⟩
    · obtain ⟨ht, rfl, rfl⟩ := h
      exact ⟨[], t, rfl, ht, .nil⟩
termination_by ts => 5 * ts.length
decreasing_by all_goals (simp only [List.length_cons]; omega)

/-- The entries of a hash are used up to its closing brace. -/
theorem entries_sound {last : Nat} {rest : List Token} : {ts : List Token} →
    {es : List (Expr × Expr)} → Reads (Parser.entries last ts) es rest →
    ∃ us c, ts = us ++ c :: rest ∧ c.kind = .rbrace ∧ Entries us es
  | [], _, h => absurd h Parser.not_reads_entries_nil
  | t :: ts, es, h => by
    rw [Parser.reads_entries] at h
    split at h
    · next ht =>
      obtain ⟨rfl, rfl⟩ := h
      exact ⟨[], t, rfl, ht, .nil⟩
    · obtain ⟨k, colon, us, v, vs, xs, hk, hcolon, hv, hxs, rfl⟩ := h
      have h₁ : us.length + 1 < ts.length + 1 := hk.length_lt
      have h₂ := hv.length_lt
      obtain ⟨ks, hts, hks, -⟩ := expr_sound hk
      obtain ⟨ws, rfl, hws, -⟩ := expr_sound hv
      obtain ⟨zs, c, rfl, hc, hzs⟩ := moreEntries_sound hxs
      exact ⟨ks ++ colon :: ws ++ zs, c, by simpa using hts, hc, .cons hks hcolon hws hzs⟩
termination_by ts => 5 * ts.length + 3
decreasing_by all_goals (simp only [List.length_cons]; omega)

theorem moreEntries_sound {last : Nat} {rest : List Token} : {ts : List Token} →
    {es : List (Expr × Expr)} → Reads (Parser.moreEntries last ts) es rest →
    ∃ us c, ts = us ++ c :: rest ∧ c.kind = .rbrace ∧ MoreEntries us es
  | [], _, h => absurd h Parser.not_reads_moreEntries_nil
  | t :: ts, es, h => by
    rw [Parser.reads_moreEntries] at h
    split at h
    · next ht =>
      obtain ⟨rfl, rfl⟩ := h
      exact ⟨[], t, rfl, ht, .nil⟩
    · obtain ⟨ht, hes⟩ := h
      obtain ⟨us, c, rfl, hc, hus⟩ := entries_sound hes
      exact ⟨t :: us, c, rfl, hc, hus.moreEntries ht⟩
termination_by ts => 5 * ts.length
decreasing_by all_goals (simp only [List.length_cons]; omega)

/-- A second block is used if there is one, and nothing otherwise. -/
theorem otherwise_sound {last : Nat} {rest : List Token} : {ts : List Token} →
    {no : Option Block} → Reads (Parser.otherwise last ts) no rest →
    ∃ us, ts = us ++ rest ∧ Otherwise us no
  | [], _, h => by
    obtain ⟨rfl, rfl⟩ := Parser.reads_otherwise_nil.1 h
    exact ⟨[], rfl, .none⟩
  | t :: ts, no, h => by
    rw [Parser.reads_otherwise] at h
    split at h
    · next ht =>
      obtain ⟨b, us, body, ⟨hts, hb⟩, hbody, rfl⟩ := h
      have h₁ : us.length < ts.length := by rw [hts]; exact Nat.lt_succ_self _
      obtain ⟨vs, c, rfl, hc, hvs⟩ := block_sound hbody
      exact ⟨t :: b :: vs ++ [c], by simp [hts], .some ht (.braces hb hvs hc)⟩
    · obtain ⟨rfl, rfl⟩ := h
      exact ⟨[], rfl, .none⟩
termination_by ts => 5 * ts.length
decreasing_by all_goals (simp only [List.length_cons]; omega)

/-- The statements of a block are used up to its closing brace. -/
theorem block_sound {last : Nat} {rest : List Token} : {ts : List Token} →
    {b : Block} → Reads (Parser.block last ts) b rest →
    ∃ us c, ts = us ++ c :: rest ∧ c.kind = .rbrace ∧ Statements us b
  | [], _, h => absurd h Parser.not_reads_block_nil
  | t :: ts, b, h => by
    rw [Parser.reads_block] at h
    split at h
    · next ht =>
      obtain ⟨rfl, rfl⟩ := h
      exact ⟨[], t, rfl, ht, .nil⟩
    · obtain ⟨s, mid, ss, hs, hss, rfl⟩ := h
      have h₁ : mid.length < ts.length + 1 := hs.length_lt
      obtain ⟨us, semi, hts, hskip, hus, hstop⟩ := stmt_sound hs
      obtain ⟨vs, c, rfl, hc, hvs⟩ := block_sound hss
      obtain ⟨ws, hws, hstmts⟩ := hus.cons hstop hskip hvs
      exact ⟨ws, c, hts.trans hws, hc, hstmts⟩
termination_by ts => 5 * ts.length + 4
decreasing_by all_goals (simp only [List.length_cons]; omega)

/-- A statement is used up to a token that does not continue it. -/
theorem stmt_sound {last : Nat} {rest : List Token} : {ts : List Token} → {s : Stmt} →
    Reads (Parser.stmt last ts) s rest →
    ∃ us mid, ts = us ++ mid ∧ Parser.skipSemicolon mid = rest ∧ Statement us s ∧ ¬ Continues mid
  | [], _, h => by
    rw [Parser.stmt] at h
    exact absurd h Parser.not_reads_error
  | t :: ts, s, h => by
    obtain ⟨value, mid, hmid, h⟩ := Parser.reads_stmt.1 h
    split at h
    · next ht =>
      obtain ⟨n, a, us, ⟨hts, hn, ha⟩, hvalue, rfl⟩ := h
      have h₁ : us.length + 2 = ts.length := by rw [hts]; rfl
      obtain ⟨vs, rfl, hvs, hpull⟩ := expr_sound hvalue
      exact ⟨t :: n :: a :: vs, mid, by simp [hts], hmid, .bind ht hn ha hvs,
        pull_eq_zero_iff.1 (Nat.eq_zero_of_le_zero hpull)⟩
    split at h
    · next ht =>
      obtain ⟨hvalue, rfl⟩ := h
      obtain ⟨vs, rfl, hvs, hpull⟩ := expr_sound hvalue
      exact ⟨t :: vs, mid, rfl, hmid, .ret ht hvs,
        pull_eq_zero_iff.1 (Nat.eq_zero_of_le_zero hpull)⟩
    · obtain ⟨hvalue, rfl⟩ := h
      obtain ⟨vs, hts, hvs, hpull⟩ := expr_sound hvalue
      exact ⟨vs, mid, hts, hmid, .expr hvs, pull_eq_zero_iff.1 (Nat.eq_zero_of_le_zero hpull)⟩
termination_by ts => 5 * ts.length + 3
decreasing_by all_goals (simp only [List.length_cons]; omega)

end

/-- **Soundness**: the tokens of a text that is parsed derive the program. -/
theorem program_sound {last : Nat} : {ts : List Token} → {p : Program} →
    Parser.program last ts = .ok p → Statements ts p
  | [], p, h => by
    rw [Parser.program_nil] at h
    cases h
    exact .nil
  | t :: ts, p, h => by
    obtain ⟨s, mid, ss, hs, hss, rfl⟩ := Parser.program_cons_eq_ok.1 h
    have h₁ : mid.length < ts.length + 1 := hs.length_lt
    obtain ⟨us, semi, hts, hskip, hus, hstop⟩ := stmt_sound hs
    have hmid : Parser.skipSemicolon semi = mid ++ [] := by rw [hskip, List.append_nil]
    obtain ⟨ws, hws, hstmts⟩ := hus.cons hstop hmid (program_sound hss)
    rw [hts, hws, List.append_nil]
    exact hstmts
termination_by ts => ts.length
decreasing_by (simp only [List.length_cons]; omega)

end TreeWalk.Grammar

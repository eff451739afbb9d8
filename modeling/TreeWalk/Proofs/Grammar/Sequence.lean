import TreeWalk.Proofs.Grammar.Complete

/-!
# Programs one behind the other

A semicolon ends a statement, whatever comes behind it.  So **behind the tokens of a program that
end with a semicolon the parser starts afresh** (`program_append`): it reads this program and then
whatever it would have read without it, or fails as it would have failed.

Without the semicolon this is not so.  A statement that ends with any other token can be continued
by the next one, which may start with a parenthesis or with `else`.
-/

set_option autoImplicit false

namespace TreeWalk.Grammar

open Token (Kind)
open TreeWalk.Parser (Reads)

/-! ## Last tokens -/

/-- The last of the tokens, if there is one, is a semicolon. -/
def Finished (ts : List Token) : Prop := ∀ t ∈ ts.getLast?, t.kind = .semicolon

/-- The last of the tokens is no semicolon. -/
def Unfinished (ts : List Token) : Prop := ∃ us t, ts = us ++ [t] ∧ t.kind ≠ .semicolon

theorem Unfinished.not_finished {ts : List Token} (h : Unfinished ts) : ¬ Finished ts := by
  obtain ⟨us, t, rfl, ht⟩ := h
  exact fun hfin => ht (hfin t List.getLast?_concat)

theorem Unfinished.append {us : List Token} (h : Unfinished us) (ts : List Token) :
    Unfinished (ts ++ us) := by
  obtain ⟨vs, t, rfl, ht⟩ := h
  exact ⟨ts ++ vs, t, (List.append_assoc ts vs [t]).symm, ht⟩

theorem unfinished_concat {t : Token} {k : Kind} (ts : List Token) (ht : t.kind = k)
    (hk : k ≠ .semicolon) : Unfinished (ts ++ [t]) :=
  ⟨ts, t, rfl, ht ▸ hk⟩

theorem Finished.of_append {ts us : List Token} (h : Finished (ts ++ us)) : Finished us := by
  intro t ht
  refine h t ?_
  rw [List.getLast?_append, Option.mem_def.1 ht]
  rfl

theorem Braced.unfinished {ts : List Token} {b : Block} (h : Braced ts b) : Unfinished ts := by
  cases h with
  | braces _ _ hc => exact unfinished_concat _ hc (by decide)

/-- No expression ends with a semicolon. -/
theorem Derives.unfinished {a : Stratum} {ts : List Token} {e : Expr} :
    Derives a ts e → Unfinished ts
  | .tighter _ h => h.unfinished
  | .binary _ _ _ _ hr => (hr.unfinished.append [_]).append _
  | .unary _ h => h.unfinished.append [_]
  | .call _ _ _ hc => unfinished_concat _ hc (by decide)
  | .index _ _ _ hc => unfinished_concat _ hc (by decide)
  | .ident ht => unfinished_concat [] ht (by decide)
  | .number ht _ => unfinished_concat [] ht (by decide)
  | .text ht => unfinished_concat [] ht (by decide)
  | .kwTrue ht => unfinished_concat [] ht (by decide)
  | .kwFalse ht => unfinished_concat [] ht (by decide)
  | .group _ _ hc => unfinished_concat _ hc (by decide)
  | .array _ _ hc => unfinished_concat _ hc (by decide)
  | .hash _ _ hc => unfinished_concat _ hc (by decide)
  | .cond _ _ _ _ hyes .none => by
    rw [List.append_nil]
    exact (hyes.unfinished.append [_]).append _
  | .cond _ _ _ _ _ (.some _ hno) => (hno.unfinished.append [_]).append _
  | .func _ _ _ _ hbody => (hbody.unfinished.append [_]).append _

theorem Statement.unfinished {ts : List Token} {s : Stmt} : Statement ts s → Unfinished ts
  | .bind _ _ _ h => h.unfinished.append [_, _, _]
  | .ret _ h => h.unfinished.append [_]
  | .expr h => h.unfinished

/-! ## Starting afresh -/

/-- Behind a statement that is read, the program goes on. -/
theorem program_of_reads {last : Nat} {ts mid : List Token} {s : Stmt}
    (h : Reads (Parser.stmt last ts) s mid) :
    Parser.program last ts = (Parser.program last mid).map (s :: ·) := by
  obtain ⟨hlt, hs⟩ := h
  cases ts with
  | nil => cases hlt
  | cons t ts =>
    rw [Parser.program, hs]
    show (Parser.program last mid >>= fun ss => pure (s :: ss)) = _
    cases Parser.program last mid <;> rfl

/-- **Behind a semicolon the parser starts afresh.** -/
theorem program_append {last : Nat} {ts : List Token} {p : Program} (more : List Token) :
    Statements ts p → Finished ts →
      Parser.program last (ts ++ more) = (Parser.program last more).map (p ++ ·)
  | .nil, _ => by
    rw [List.nil_append]
    exact (id_map _).symm
  | @Statements.closed t ts us s ss h ht hss, hfin => by
    have hstmt : Reads (Parser.stmt last (ts ++ t :: (us ++ more))) s (us ++ more) :=
      reads_stmt_closed (fun _ => h.complete) ht
    have hus : Finished us := by
      rw [← List.singleton_append, ← List.append_assoc] at hfin
      exact hfin.of_append
    rw [List.append_assoc, List.cons_append, program_of_reads hstmt, program_append more hss hus]
    cases Parser.program last more <;> rfl
  | @Statements.bare ts us s ss h hcont hss, hfin => by
    -- Without its semicolon the statement cannot be the last one.
    have hne : us ≠ [] := by
      rintro rfl
      exact h.unfinished.not_finished (List.append_nil ts ▸ hfin)
    have hquiet : Quiet (us ++ more) := hss.quiet hcont fun hus => absurd hus hne
    have hstmt : Reads (Parser.stmt last (ts ++ (us ++ more))) s (us ++ more) :=
      reads_stmt_bare (fun _ => h.complete) hquiet
    rw [List.append_assoc, program_of_reads hstmt, program_append more hss hfin.of_append]
    cases Parser.program last more <;> rfl

end TreeWalk.Grammar

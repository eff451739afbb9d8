import TreeWalk.Proofs.Grammar.Sound
import TreeWalk.Proofs.Grammar.Complete

/-!
# The parser accepts exactly the grammar

**A source text parses to a program if and only if its tokens derive that program.**  The two
directions are `program_sound` and `program_complete`.

A derivation uses each of its tokens, and no rule of the grammar has a place for an illegal one
(`Statements.legal`), so a source with an illegal token is rejected wherever that token stands.
-/

set_option autoImplicit false

namespace TreeWalk.Grammar

open Token (Kind)

/-! ## Illegal tokens -/

/-- No token is illegal. -/
def Legal (ts : List Token) : Prop := ∀ t ∈ ts, t.kind ≠ .illegal

theorem legal_nil : Legal [] := by
  intro t ht
  cases ht

theorem legal_append {ts us : List Token} (hts : Legal ts) (hus : Legal us) :
    Legal (ts ++ us) := by
  intro t ht
  rcases List.mem_append.1 ht with h | h
  · exact hts t h
  · exact hus t h

theorem legal_cons {t : Token} {ts : List Token} {k : Kind} (ht : t.kind = k) (hk : k ≠ .illegal)
    (hts : Legal ts) : Legal (t :: ts) := by
  intro u hu
  rcases List.mem_cons.1 hu with rfl | h
  · exact ht ▸ hk
  · exact hts u h

theorem legal_singleton {t : Token} {k : Kind} (ht : t.kind = k) (hk : k ≠ .illegal) :
    Legal [t] :=
  legal_cons ht hk legal_nil

theorem binary_kind_ne_illegal (op : BinaryOp) : op.kind ≠ .illegal := by
  cases op <;> decide

theorem unary_kind_ne_illegal (op : UnaryOp) : op.kind ≠ .illegal := by
  cases op <;> decide

theorem MoreParams.legal {ts : List Token} {ps : List String} (h : MoreParams ts ps) :
    Legal ts := by
  induction h with
  | nil => exact legal_nil
  | cons hcomma hname _ ih => exact legal_cons hcomma (by decide) (legal_cons hname (by decide) ih)

theorem Params.legal {ts : List Token} {ps : List String} : Params ts ps → Legal ts
  | .nil => legal_nil
  | .cons hname h => legal_cons hname (by decide) h.legal

mutual

/-- Every rule says of what kind its own tokens are, and none of these kinds is illegal. -/
theorem Derives.legal {a : Stratum} {ts : List Token} {e : Expr} : Derives a ts e → Legal ts
  | .tighter _ h => h.legal
  | @Derives.binary _ _ op _ _ _ _ _ _ _ hl ht hr =>
    legal_append hl.legal (legal_cons ht (binary_kind_ne_illegal op) hr.legal)
  | @Derives.unary op _ _ _ ht h => legal_cons ht (unary_kind_ne_illegal op) h.legal
  | .call hf ho hargs hc =>
    legal_append (legal_append hf.legal (legal_cons ho (by decide) hargs.legal))
      (legal_singleton hc (by decide))
  | .index hl ho hi hc =>
    legal_append (legal_append hl.legal (legal_cons ho (by decide) hi.legal))
      (legal_singleton hc (by decide))
  | .ident ht => legal_singleton ht (by decide)
  | .number ht _ => legal_singleton ht (by decide)
  | .text ht => legal_singleton ht (by decide)
  | .kwTrue ht => legal_singleton ht (by decide)
  | .kwFalse ht => legal_singleton ht (by decide)
  | .group ho h hc =>
    legal_append (legal_cons ho (by decide) h.legal) (legal_singleton hc (by decide))
  | .array ho h hc =>
    legal_append (legal_cons ho (by decide) h.legal) (legal_singleton hc (by decide))
  | .hash ho h hc =>
    legal_append (legal_cons ho (by decide) h.legal) (legal_singleton hc (by decide))
  | .cond hi ho htest hc hyes hno =>
    legal_append
      (legal_append (legal_cons hi (by decide) (legal_cons ho (by decide) htest.legal))
        (legal_cons hc (by decide) hyes.legal))
      hno.legal
  | .func hf ho hps hc hbody =>
    legal_append (legal_cons hf (by decide) (legal_cons ho (by decide) hps.legal))
      (legal_cons hc (by decide) hbody.legal)

theorem Items.legal {ts : List Token} {es : List Expr} : Items ts es → Legal ts
  | .nil => legal_nil
  | .cons h hes => legal_append h.legal hes.legal

theorem MoreItems.legal {ts : List Token} {es : List Expr} : MoreItems ts es → Legal ts
  | .nil => legal_nil
  | .cons hcomma h hes => legal_append (legal_cons hcomma (by decide) h.legal) hes.legal

theorem Entries.legal {ts : List Token} {es : List (Expr × Expr)} : Entries ts es → Legal ts
  | .nil => legal_nil
  | .cons hk hcolon hv hes =>
    legal_append (legal_append hk.legal (legal_cons hcolon (by decide) hv.legal)) hes.legal

theorem MoreEntries.legal {ts : List Token} {es : List (Expr × Expr)} :
    MoreEntries ts es → Legal ts
  | .nil => legal_nil
  | .comma hcomma => legal_singleton hcomma (by decide)
  | .cons hcomma hk hcolon hv hes =>
    legal_append
      (legal_append (legal_cons hcomma (by decide) hk.legal)
        (legal_cons hcolon (by decide) hv.legal))
      hes.legal

theorem Otherwise.legal {ts : List Token} {b : Option Block} : Otherwise ts b → Legal ts
  | .none => legal_nil
  | .some ht h => legal_cons ht (by decide) h.legal

theorem Braced.legal {ts : List Token} {b : Block} : Braced ts b → Legal ts
  | .braces ho h hc =>
    legal_append (legal_cons ho (by decide) h.legal) (legal_singleton hc (by decide))

theorem Statement.legal {ts : List Token} {s : Stmt} : Statement ts s → Legal ts
  | .bind hv hname ha h =>
    legal_cons hv (by decide) (legal_cons hname (by decide) (legal_cons ha (by decide) h.legal))
  | .ret hr h => legal_cons hr (by decide) h.legal
  | .expr h => h.legal

/-- **No derivation uses an illegal token.** -/
theorem Statements.legal {ts : List Token} {ss : List Stmt} : Statements ts ss → Legal ts
  | .nil => legal_nil
  | .closed h hsemi hss => legal_append h.legal (legal_cons hsemi (by decide) hss.legal)
  | .bare h _ hss => legal_append h.legal hss.legal

end

/-! ## The parser and the grammar -/

/-- The two directions together, for the tokens of a source. -/
theorem parse_eq_ok_iff {source : String} {p : Program} :
    Program.parse source = .ok p ↔ Statements (Token.Stream.ofSource source).tokens p := by
  rw [Program.parse]
  exact ⟨program_sound, program_complete⟩

/-- **The parser accepts exactly the grammar**: a source parses to a program if and only if all of
its tokens, in order, derive that program.  So a source with an illegal token never parses. -/
theorem parse_iff_derives (source : String) :
    (∀ p, Program.parse source = .ok p ↔
      Statements (Token.Stream.ofSource source).tokens p) ∧
    ∀ t ∈ (Token.Stream.ofSource source).tokens, t.kind = .illegal →
      ∀ p, Program.parse source ≠ .ok p := by
  refine ⟨fun p => parse_eq_ok_iff, ?_⟩
  intro t ht hillegal p hp
  exact (parse_eq_ok_iff.1 hp).legal t ht hillegal

/-- A chain leans to the left, and a stray character after it rejects the whole source. -/
theorem parse_iff_derives_chain :
    Statements (Token.Stream.ofSource "1 - 2 - -3[4]").tokens
      [.expr (.binary .sub (.binary .sub (.int 1) (.int 2))
        (.unary .neg (.index (.int 3) (.int 4))))] ∧
    ∀ p, Program.parse "1 - 2 - -3[4] @" ≠ .ok p := by
  refine ⟨((parse_iff_derives _).1 _).1 (by with_unfolding_all rfl), ?_⟩
  have hlast : (Token.Stream.ofSource "1 - 2 - -3[4] @").tokens.getLast? =
      some ⟨.illegal, "@", 1⟩ := by
    with_unfolding_all rfl
  exact (parse_iff_derives _).2 _ (List.mem_of_getLast? hlast) rfl

end TreeWalk.Grammar

import TreeWalk.Token.Stream

/-!
# Tokens that differ by their lines

Two sources that are laid out differently can have the same tokens but for the lines on which they
stand.  A token without its line is a **word**; lists of tokens with the same words are `Alike`.
-/

set_option autoImplicit false

namespace TreeWalk.Token

/-- A token without its line. -/
def word (t : Token) : Kind × String := (t.kind, t.literal)

theorem kind_eq_of_word {t u : Token} (h : t.word = u.word) : t.kind = u.kind :=
  congrArg Prod.fst h

theorem literal_eq_of_word {t u : Token} (h : t.word = u.word) : t.literal = u.literal :=
  congrArg Prod.snd h

theorem display_eq_of_word {t u : Token} (h : t.word = u.word) : t.display = u.display := by
  rw [display, display, kind_eq_of_word h, literal_eq_of_word h]

/-- The tokens are the same but for their lines. -/
def Alike (us vs : List Token) : Prop := us.map word = vs.map word

/-- The tokens start with the same token but for its line, or have both come to an end. -/
def SameFront (us vs : List Token) : Prop := us.head?.map word = vs.head?.map word

theorem alike_nil {us : List Token} : Alike us [] ↔ us = [] := List.map_eq_nil_iff

theorem alike_cons {t : Token} {us ws : List Token} (h : Alike ws (t :: us)) :
    ∃ t' us', ws = t' :: us' ∧ t'.word = t.word ∧ Alike us' us :=
  List.map_eq_cons_iff.1 h

theorem alike_append {us vs ws : List Token} (h : Alike ws (us ++ vs)) :
    ∃ us' vs', ws = us' ++ vs' ∧ Alike us' us ∧ Alike vs' vs := by
  rw [Alike, List.map_append] at h
  exact List.map_eq_append_iff.1 h

theorem sameFront_nil {us : List Token} : SameFront us [] ↔ us = [] := by
  simp [SameFront]

theorem sameFront_cons {us rest : List Token} {t : Token} (h : SameFront us (t :: rest)) :
    ∃ t' rest', us = t' :: rest' ∧ t'.word = t.word := by
  cases us with
  | nil => cases h
  | cons t' rest' => exact ⟨t', rest', rfl, Option.some.inj h⟩

theorem sameFront_append {us us' rest rest' : List Token} (hus : Alike us' us)
    (hrest : SameFront rest' rest) : SameFront (us' ++ rest') (us ++ rest) := by
  cases us with
  | nil =>
    obtain rfl := alike_nil.1 hus
    exact hrest
  | cons t us =>
    obtain ⟨t', us', rfl, ht, -⟩ := alike_cons hus
    exact congrArg some ht

namespace Stream

/-- The tokens of a source with the one that stands for its end. -/
def all (s : Stream) : List Token := s.tokens ++ [s.eof]

end Stream

end TreeWalk.Token

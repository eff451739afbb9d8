import TreeWalk.Proofs.Store.Numbering
import TreeWalk.Value.Display

/-!
# Equality as identity

The equality of values compares data by its structure, functions by their numbers and builtins by
their names.  **Over the values that occur in one history it is a sound identity**
(`equality_sound`): an equivalence, under which equal values cannot be told apart by their kinds,
their texts or their keys, and under which a function is equal to itself only.

`Store.Occurs s vs v` says which values these are: what is bound in the store `s`, the values `vs`
at hand, the parts of them, and all that can be put together from them, at any nesting.  Among these
values, equal ones are the same (`Store.AtHand.beq_iff_eq`), and the laws follow from that.
-/

set_option autoImplicit false

namespace TreeWalk

/-! ## The values of a history -/

/-- The value is bound somewhere in the store or is at hand, or it is a part of such values, or it
is put together from them. -/
inductive Store.Occurs (s : Store) (vs : List Value) : Value → Prop
  | bound {i : Nat} {f : Frame} {b : String × Value} (hf : s.frames[i]? = some f)
      (hb : b ∈ f.bindings) : Occurs s vs b.2
  | atHand {v : Value} (hv : v ∈ vs) : Occurs s vs v
  | item {items : List Value} {v : Value} (h : Occurs s vs (.array items)) (hv : v ∈ items) :
      Occurs s vs v
  | key {entries : List (Key × Value × Value)} {e : Key × Value × Value}
      (h : Occurs s vs (.hash entries)) (he : e ∈ entries) : Occurs s vs e.2.1
  | entry {entries : List (Key × Value × Value)} {e : Key × Value × Value}
      (h : Occurs s vs (.hash entries)) (he : e ∈ entries) : Occurs s vs e.2.2
  | carried {v : Value} (h : Occurs s vs (.pending v)) : Occurs s vs v
  | data {v : Value} (h : v.closures = []) : Occurs s vs v
  | array {items : List Value} (h : ∀ v ∈ items, Occurs s vs v) : Occurs s vs (.array items)
  | hash {entries : List (Key × Value × Value)} (hkeys : ∀ e ∈ entries, Occurs s vs e.2.1)
      (h : ∀ e ∈ entries, Occurs s vs e.2.2) : Occurs s vs (.hash entries)
  | pending {v : Value} (h : Occurs s vs v) : Occurs s vs (.pending v)

namespace Store

variable {s : Store} {vs : List Value} {a b : Value}

/-- All functions in a value that occurs stand in the list. -/
theorem Numbered.only_listed {w : List Closure} (hw : s.Numbered w vs) (h : s.Occurs vs a) :
    a.Only (Closure.Listed w) := by
  induction h with
  | bound hf hb => exact hw.1.2.2 _ _ hf _ hb
  | atHand hv => exact hw.2 _ hv
  | item _ hv ih => exact ih.of_subset (subset_itemClosures hv)
  | key _ he ih => exact (Value.only_hash.1 ih _ he).1
  | entry _ he ih => exact (Value.only_hash.1 ih _ he).2
  | carried _ ih => exact ih
  | data h => exact Value.only_of_closures_eq_nil h
  | array _ ih => exact Value.only_array.2 ih
  | hash _ _ ihkeys ih => exact Value.only_hash.2 fun e he => ⟨ihkeys e he, ih e he⟩
  | pending _ ih => exact ih

/-- **Values that occur in one history are equal just if they are the same.** -/
theorem AtHand.beq_iff_eq (h : s.AtHand vs) (ha : s.Occurs vs a) (hb : s.Occurs vs b) :
    (a == b) = true ↔ a = b := by
  obtain ⟨w, hw⟩ := h.numbered
  have hid : Identified a.closures b.closures := fun c hc d hd =>
    (hw.only_listed ha c hc).eq_of_id_eq (hw.only_listed hb d hd)
  constructor
  · exact a.eq_of_same b hid
  · rintro rfl
    exact a.same_self

/-- A function with the next number is equal to none of the values before it. -/
theorem AtHand.next_beq_eq_false (h : s.AtHand vs) (ha : s.Occurs vs a) (f : Lambda)
    (scope : Nat) : (Value.closure ⟨s.closures, f, scope⟩ == a) = false := by
  obtain ⟨w, hw⟩ := h.numbered
  have hlisted := hw.only_listed ha
  cases a with
  | closure c =>
    have hlt : c.id < w.length :=
      (List.getElem?_eq_some_iff.1 (hlisted c List.mem_cons_self)).1
    have hcount : s.closures = w.length := hw.1.2.1
    rw [Value.beq_def, Value.same, decide_eq_false_iff_not, hcount]
    exact Nat.ne_of_gt hlt
  | _ => rfl

end Store

/-! ## A sound identity -/

/-- Equality of values is a sound identity over the values that satisfy `P`. -/
structure SoundIdentity (P : Value → Prop) : Prop where
  refl : ∀ {a : Value}, P a → (a == a) = true
  symm : ∀ {a b : Value}, P a → P b → (a == b) = true → (b == a) = true
  trans : ∀ {a b c : Value}, P a → P b → P c → (a == b) = true → (b == c) = true →
    (a == c) = true
  kind_eq : ∀ {a b : Value}, P a → P b → (a == b) = true → a.kind = b.kind
  display_eq : ∀ {a b : Value}, P a → P b → (a == b) = true → a.display = b.display
  /-- Equal values have the same key, or both have none. -/
  key_eq : ∀ {a b : Value}, P a → P b → (a == b) = true → a.key = b.key
  beq_of_key_eq : ∀ {a b : Value} {k : Key}, P a → P b → a.key = .ok k → b.key = .ok k →
    (a == b) = true
  closure_eq : ∀ {c d : Closure}, P (.closure c) → P (.closure d) →
    (Value.closure c == .closure d) = true → c = d

theorem Value.eq_toValue_of_key {v : Value} {k : Key} (h : v.key = .ok k) : v = k.toValue := by
  rw [Value.key] at h
  split at h
  · next hk =>
    cases h
    exact Key.eq_toValue_of_key? hk
  · cases h

/-- Where equal values are the same, equality is a sound identity. -/
theorem SoundIdentity.of_beq_iff_eq {P : Value → Prop}
    (h : ∀ {a b : Value}, P a → P b → ((a == b) = true ↔ a = b)) : SoundIdentity P where
  refl ha := (h ha ha).2 rfl
  symm ha hb hab := (h hb ha).2 ((h ha hb).1 hab).symm
  trans ha hb hc hab hbc := (h ha hc).2 (((h ha hb).1 hab).trans ((h hb hc).1 hbc))
  kind_eq ha hb hab := congrArg Value.kind ((h ha hb).1 hab)
  display_eq ha hb hab := congrArg Value.display ((h ha hb).1 hab)
  key_eq ha hb hab := congrArg Value.key ((h ha hb).1 hab)
  beq_of_key_eq ha hb hka hkb :=
    (h ha hb).2 ((Value.eq_toValue_of_key hka).trans (Value.eq_toValue_of_key hkb).symm)
  closure_eq hc hd hcd := Value.closure.inj ((h hc hd).1 hcd)

/-- **Equality is a sound identity.**  Over the values that occur in one history, equality is an
equivalence; equal values have the same kind, the same text and the same key, or both no key; values
with the same key are equal; and functions are equal only if they are the same one.  A function
literal gives a function that is equal to no value that occurs, so that evaluating it again,
whatever is run in between, gives another function. -/
theorem equality_sound {s : Store} {vs : List Value} (h : s.AtHand vs) :
    SoundIdentity (s.Occurs vs) ∧
    ∀ (fuel scope : Nat) (params : List String) (body : Block), ∃ c,
      (eval (fuel + 1) scope (.func params body) s).outcome = .done (.closure c) ∧
      (∀ a, s.Occurs vs a → (Value.closure c == a) = false) ∧
      ∀ (fuel₁ scope₁ : Nat) (between : Program) (fuel₂ scope₂ : Nat), ∃ d,
        (eval (fuel₂ + 1) scope₂ (.func params body)
          (between.eval fuel₁ scope₁
            (eval (fuel + 1) scope (.func params body) s).store).store).outcome =
          .done (.closure d) ∧
        (Value.closure d == .closure c) = false := by
  refine ⟨.of_beq_iff_eq h.beq_iff_eq, fun fuel scope params body => ?_⟩
  refine ⟨_, rfl, fun a ha => h.next_beq_eq_false ha _ scope, ?_⟩
  intro fuel₁ scope₁ between fuel₂ scope₂
  have hfirst := h.eval (fuel + 1) scope (.func params body)
  have hbetween := hfirst.run fuel₁ scope₁ between
  refine ⟨_, rfl, hbetween.next_beq_eq_false (.atHand ?_) _ scope₂⟩
  exact List.mem_append_right _ List.mem_cons_self

/-- A literal that is evaluated twice: the functions have the same text and are not equal, and an
array that holds the first one is equal to itself. -/
theorem equality_sound_twice :
    ∃ (s : Store) (vs : List Value) (c d : Closure), s.AtHand vs ∧
      s.Occurs vs (.array [.closure c]) ∧ s.Occurs vs (.closure d) ∧ c.text = d.text ∧
      (Value.closure d == .closure c) = false ∧
      (Value.array [.closure c] == .array [.closure c]) = true := by
  let f : Lambda := ⟨["x"], [.expr (.ident "x")]⟩
  let c : Closure := ⟨0, f, 0⟩
  let d : Closure := ⟨1, f, 0⟩
  let s : Store := ⟨#[⟨[], none⟩], 2⟩
  let vs : List Value := [.closure d, .null, .closure c]
  have hglobal := Store.AtHand.empty.openGlobal
  have h : s.AtHand vs := ((hglobal.eval 1 0 f.toExpr).run 0 0 []).eval 1 0 f.toExpr
  have hne : (Value.closure d == .closure c) = false := by
    obtain ⟨c', hc, -, hagain⟩ := (equality_sound hglobal).2 0 0 f.params f.body
    obtain ⟨d', hd, hne⟩ := hagain 0 0 [] 0 0
    cases hc
    cases hd
    exact hne
  have harray : s.Occurs vs (.array [.closure c]) := by
    refine .array fun v hv => .atHand ?_
    exact List.mem_cons_of_mem _ (List.mem_cons_of_mem _ hv)
  exact ⟨s, vs, c, d, h, harray, .atHand List.mem_cons_self, rfl, hne,
    (equality_sound h).1.refl harray⟩

end TreeWalk

import TreeWalk.Proofs.Value.Renaming
import TreeWalk.Store.Basic

/-!
# Stores up to a renaming of scopes

`Store.Renamed ρ s t` says that `ρ` is a one-to-one correspondence between some of the scopes of `s`
and some of those of `t`, and that corresponding scopes bind the same names to related values and
stand in corresponding scopes.  A scope that stands in no other one may correspond to one that
stands in a scope without bindings.  The other scopes of the two stores do not matter.

What is looked up from corresponding scopes is related (`Store.Renamed.get?`), and the relation is
kept when related values are bound in corresponding scopes (`Store.Renamed.set`) and when a scope
is opened in each store; the two new scopes then correspond (`Store.Renamed.openFrame`).
-/

set_option autoImplicit false

namespace TreeWalk

/-- The scope binds nothing, stands in no other scope and corresponds to none. -/
def Store.Bare (ρ : Renaming) (t : Store) (q : Nat) : Prop :=
  t.frames[q]? = some ⟨[], none⟩ ∧ ∀ p, ¬ ρ p q

/-- The parents of two related frames, which have the numbers `i` and `j`: related older frames, or
none and none but a bare one. -/
inductive Frame.Parents (ρ : Renaming) (t : Store) (i j : Nat) : Option Nat → Option Nat → Prop
  | none : Parents ρ t i j none none
  | some {p q : Nat} (h : ρ p q) (hp : p < i) (hq : q < j) : Parents ρ t i j (some p) (some q)
  | bare {q : Nat} (h : t.Bare ρ q) (hq : q < j) : Parents ρ t i j none (some q)

/-- The frames, which have the numbers `i` and `j`, bind the same names to related values, and
their parents are related.  The second one is a frame of the store `t`. -/
structure Frame.Renamed (ρ : Renaming) (t : Store) (i j : Nat) (f g : Frame) : Prop where
  bindings : Filed (Value.Renamed ρ) f.bindings g.bindings
  parent : Frame.Parents ρ t i j f.parent g.parent

theorem Frame.Renamed.mono {ρ ρ' : Renaming} (h : ρ.Le ρ') {t t' : Store}
    (hbare : ∀ {q}, t.Bare ρ q → t'.Bare ρ' q) {i j : Nat} {f g : Frame}
    (hfg : f.Renamed ρ t i j g) : f.Renamed ρ' t' i j g where
  bindings := hfg.bindings.mono fun hv => hv.mono h
  parent := by
    have hparent := hfg.parent
    generalize f.parent = p at hparent ⊢
    generalize g.parent = q at hparent ⊢
    cases hparent with
    | none => exact .none
    | some hpq hp hq => exact .some (h hpq) hp hq
    | bare hq hlt => exact .bare (hbare hq) hlt

/-- The scopes that `ρ` relates are there in the two stores, correspond one to one, and are renamed
frames. -/
structure Store.Renamed (ρ : Renaming) (s t : Store) : Prop where
  frames : ∀ {i j : Nat}, ρ i j →
    ∃ f g, s.frames[i]? = some f ∧ t.frames[j]? = some g ∧ f.Renamed ρ t i j g
  right_unique : ∀ {i j k : Nat}, ρ i j → ρ i k → j = k
  left_unique : ∀ {i j k : Nat}, ρ i k → ρ j k → i = j

/-- Stores correspond on scopes that have the same frames in both and that nothing leads out of. -/
theorem Store.renamed_on {P : Nat → Prop} {s t : Store}
    (h : ∀ i, P i → ∃ f, s.frames[i]? = some f ∧ t.frames[i]? = some f ∧
      (∀ b ∈ f.bindings, b.2.Within P) ∧ ∀ p, f.parent = some p → P p ∧ p < i) :
    s.Renamed (.on P) t where
  frames := by
    rintro i _ ⟨rfl, hi⟩
    obtain ⟨f, hf, hg, hbindings, hparent⟩ := h i hi
    refine ⟨f, f, hf, hg, filed_within hbindings, ?_⟩
    cases hp : f.parent with
    | none => exact .none
    | some p =>
      obtain ⟨hP, hlt⟩ := hparent p hp
      exact .some ⟨rfl, hP⟩ hlt hlt
  right_unique := by
    rintro i _ _ ⟨rfl, -⟩ ⟨rfl, -⟩
    rfl
  left_unique := by
    rintro _ _ i ⟨rfl, -⟩ ⟨rfl, -⟩
    rfl

namespace Store.Renamed

variable {ρ : Renaming} {s t : Store} {i j : Nat}

theorem left_lt (h : s.Renamed ρ t) (hij : ρ i j) : i < s.frames.size := by
  obtain ⟨f, _, hf, -⟩ := h.frames hij
  exact (Array.getElem?_eq_some_iff.1 hf).1

theorem right_lt (h : s.Renamed ρ t) (hij : ρ i j) : j < t.frames.size := by
  obtain ⟨_, g, -, hg, -⟩ := h.frames hij
  exact (Array.getElem?_eq_some_iff.1 hg).1

/-! ## Looking up -/

/-- The scopes that are visible from corresponding scopes correspond, and what more there is on the
right binds nothing.  By induction outward, since parents are older. -/
theorem chain (h : s.Renamed ρ t) (hij : ρ i j) :
    ∃ js rest, t.chain j = js ++ rest ∧ List.Forall₂ ρ (s.chain i) js ∧
      ∀ k ∈ rest, t.frames[k]? = some ⟨[], none⟩ := by
  induction i using Nat.strongRecOn generalizing j with
  | ind i ih =>
    obtain ⟨f, g, hf, hg, -, hparent⟩ := h.frames hij
    rw [Store.chain, Store.chain, hf, hg]
    dsimp only
    generalize f.parent = p at hparent
    generalize g.parent = q at hparent
    cases hparent with
    | none => exact ⟨[j], [], rfl, .cons hij .nil, nofun⟩
    | some hpq hp hq =>
      obtain ⟨js, rest, hjs, hchain, hrest⟩ := ih _ hp hpq
      dsimp only
      rw [if_pos hp, if_pos hq, hjs]
      exact ⟨j :: js, rest, rfl, .cons hij hchain, hrest⟩
    | @bare q hbare hq =>
      have hchain : t.chain q = [q] := by rw [Store.chain, hbare.1]
      dsimp only
      rw [if_pos hq, hchain]
      exact ⟨[j], [q], rfl, .cons hij .nil, fun k hk => List.mem_singleton.1 hk ▸ hbare.1⟩

theorem local? (h : s.Renamed ρ t) (hij : ρ i j) (name : String) :
    Option.Rel (Value.Renamed ρ) (s.local? i name) (t.local? j name) := by
  obtain ⟨f, g, hf, hg, hfg⟩ := h.frames hij
  rw [Store.local?, Store.local?, hf, hg]
  exact hfg.bindings.lookup name

/-- **A name has related values in corresponding scopes.** -/
theorem get? (h : s.Renamed ρ t) (hij : ρ i j) (name : String) :
    Option.Rel (Value.Renamed ρ) (s.get? i name) (t.get? j name) := by
  obtain ⟨js, rest, hjs, hchain, hrest⟩ := h.chain hij
  have hnone : rest.findSome? (t.local? · name) = none := by
    rw [List.findSome?_eq_none_iff]
    intro k hk
    rw [Store.local?, hrest k hk]
    rfl
  rw [Store.get?, Store.get?, hjs, List.findSome?_append, hnone, Option.or_none]
  generalize s.chain i = is at hchain
  clear hjs
  induction hchain with
  | nil => exact .none
  | @cons i j is js hij _ ih =>
    rw [List.findSome?_cons, List.findSome?_cons]
    have hlocal := h.local? hij name
    generalize s.local? i name = v at hlocal
    generalize t.local? j name = w at hlocal
    cases hlocal with
    | none => exact ih
    | some hv => exact .some hv

/-! ## Changes -/

/-- The relation is about scopes only. -/
theorem close (h : s.Renamed ρ t) (i j : Nat) (f : Lambda) :
    (s.close i f).2.Renamed ρ (t.close j f).2 := by
  refine ⟨fun hkl => ?_, h.right_unique, h.left_unique⟩
  obtain ⟨f', g, hf, hg, hfg⟩ := h.frames hkl
  have hbare {q : Nat} (hq : t.Bare ρ q) : (t.close j f).2.Bare ρ q := hq
  exact ⟨f', g, hf, hg, hfg.mono (.refl ρ) hbare⟩

/-- Related values may be bound to a name in corresponding scopes. -/
theorem set (h : s.Renamed ρ t) (hij : ρ i j) (name : String) {v w : Value}
    (hv : v.Renamed ρ w) : (s.set i name v).Renamed ρ (t.set j name w) := by
  have hbare {q : Nat} (hq : t.Bare ρ q) : (t.set j name w).Bare ρ q := by
    have hne : j ≠ q := fun hjq => hq.2 i (hjq ▸ hij)
    refine ⟨?_, hq.2⟩
    rw [Store.set, Array.getElem?_modify, if_neg hne]
    exact hq.1
  refine ⟨?_, h.right_unique, h.left_unique⟩
  intro k l hkl
  obtain ⟨f, g, hf, hg, hfg⟩ := h.frames hkl
  replace hfg : f.Renamed ρ (t.set j name w) k l g := hfg.mono (.refl ρ) hbare
  show ∃ f' g', (s.frames.modify i _)[k]? = some f' ∧ (t.frames.modify j _)[l]? = some g' ∧ _
  rw [Array.getElem?_modify, Array.getElem?_modify, hf, hg]
  by_cases hk : i = k
  · -- The correspondence is one to one, so the two frames that change are related.
    subst hk
    obtain rfl := h.right_unique hij hkl
    rw [if_pos rfl, if_pos rfl]
    exact ⟨f.set name v, g.set name w, rfl, rfl, hfg.bindings.insert name hv, hfg.parent⟩
  · have hl : j ≠ l := by
      rintro rfl
      exact hk (h.left_unique hij hkl)
    rw [if_neg hk, if_neg hl]
    exact ⟨f, g, rfl, rfl, hfg⟩

end Store.Renamed

/-- The renaming that also relates two given scopes. -/
def Renaming.extend (ρ : Renaming) (m n : Nat) : Renaming := fun i j => ρ i j ∨ i = m ∧ j = n

theorem Renaming.le_extend (ρ : Renaming) (m n : Nat) : ρ.Le (ρ.extend m n) := fun _ _ h => .inl h

/-- Scopes that are opened in each store, with related bindings and parents, correspond. -/
theorem Store.Renamed.openFrame {ρ : Renaming} {s t : Store} (h : s.Renamed ρ t) {p q : Option Nat}
    (hpq : Frame.Parents ρ t s.frames.size t.frames.size p q) {es fs : List (String × Value)}
    (hes : Filed (Value.Renamed ρ) es fs) :
    (s.openScope p es).2.Renamed (ρ.extend s.frames.size t.frames.size) (t.openScope q fs).2 := by
  have hle := ρ.le_extend s.frames.size t.frames.size
  -- A bare scope is an old one, and so stays unrelated.
  have hbare {q' : Nat} (hq' : t.Bare ρ q') :
      (t.openScope q fs).2.Bare (ρ.extend s.frames.size t.frames.size) q' := by
    have hlt : q' < t.frames.size := (Array.getElem?_eq_some_iff.1 hq'.1).1
    refine ⟨?_, ?_⟩
    · show (t.frames.push _)[q']? = _
      rw [Array.getElem?_push, if_neg (Nat.ne_of_lt hlt)]
      exact hq'.1
    · rintro p (hp | ⟨-, rfl⟩)
      · exact hq'.2 p hp
      · exact absurd hlt (Nat.lt_irrefl _)
  refine ⟨?_, ?_, ?_⟩
  · rintro i j (hij | ⟨rfl, rfl⟩)
    · obtain ⟨f, g, hf, hg, hfg⟩ := h.frames hij
      refine ⟨f, g, ?_, ?_, hfg.mono hle hbare⟩
      · show (s.frames.push _)[i]? = _
        rw [Array.getElem?_push, if_neg (Nat.ne_of_lt (h.left_lt hij)), hf]
      · show (t.frames.push _)[j]? = _
        rw [Array.getElem?_push, if_neg (Nat.ne_of_lt (h.right_lt hij)), hg]
    · have hnew : Frame.Renamed ρ t s.frames.size t.frames.size ⟨es, p⟩ ⟨fs, q⟩ := ⟨hes, hpq⟩
      exact ⟨_, _, Array.getElem?_push_size, Array.getElem?_push_size, hnew.mono hle hbare⟩
  · rintro i j k (hij | ⟨rfl, rfl⟩) (hik | ⟨hi, rfl⟩)
    · exact h.right_unique hij hik
    · exact absurd (h.left_lt hij) (by omega)
    · exact absurd (h.left_lt hik) (by omega)
    · rfl
  · rintro i j k (hik | ⟨rfl, rfl⟩) (hjk | ⟨rfl, hk⟩)
    · exact h.left_unique hik hjk
    · exact absurd (h.right_lt hik) (by omega)
    · exact absurd (h.right_lt hjk) (by omega)
    · rfl

/-- Scopes that are opened in corresponding scopes, with related bindings, correspond. -/
theorem Store.Renamed.openScope {ρ : Renaming} {s t : Store} (h : s.Renamed ρ t) {p q : Nat}
    (hpq : ρ p q) {es fs : List (String × Value)} (hes : Filed (Value.Renamed ρ) es fs) :
    (s.openScope (some p) es).2.Renamed (ρ.extend s.frames.size t.frames.size)
      (t.openScope (some q) fs).2 :=
  h.openFrame (.some hpq (h.left_lt hpq) (h.right_lt hpq)) hes

end TreeWalk

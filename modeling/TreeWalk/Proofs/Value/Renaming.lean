import TreeWalk.Proofs.Value.Congruence
import TreeWalk.Value.Equality

/-!
# Values up to a renaming of scopes

The number of a scope, and the number of a function value, depend on what was evaluated before.
They cannot be observed: **values that differ in such numbers only look the same and are treated
the same** by every operator and every builtin.

A renaming relates the scopes of one store to the scopes of another.  `Value.Renamed ρ v w` says
that `v` and `w` have the same structure and the same data, and that their functions have the same
literals and were made in scopes which `ρ` relates.  The numbers of the functions themselves do not
matter at all; so a value without functions is renamed to itself only.
-/

set_option autoImplicit false

namespace TreeWalk

/-! ## The functions in a value -/

mutual

/-- The function values in a value, at any depth. -/
def Value.closures : Value → List Closure
  | .int _ => []
  | .bool _ => []
  | .str _ => []
  | .array items => Value.itemClosures items
  | .hash entries => Value.entryClosures entries
  | .closure c => [c]
  | .builtin _ => []
  | .pending v => v.closures
  | .null => []

/-- `Value.closures`, of several values. -/
def Value.itemClosures : List Value → List Closure
  | [] => []
  | v :: vs => v.closures ++ Value.itemClosures vs

/-- `Value.closures`, of all that the entries of a hash hold. -/
def Value.entryClosures : List (Key × Value × Value) → List Closure
  | [] => []
  | (_, k, v) :: es => k.closures ++ (v.closures ++ Value.entryClosures es)

end

/-! ## Related values -/

/-- A relation between the scopes of one store and those of another. -/
abbrev Renaming := Nat → Nat → Prop

/-- The second renaming relates all scopes that the first one relates. -/
def Renaming.Le (ρ ρ' : Renaming) : Prop := ∀ ⦃i j : Nat⦄, ρ i j → ρ' i j

theorem Renaming.Le.refl (ρ : Renaming) : ρ.Le ρ := fun _ _ h => h

theorem Renaming.Le.trans {ρ ρ' ρ'' : Renaming} (h : ρ.Le ρ') (h' : ρ'.Le ρ'') : ρ.Le ρ'' :=
  fun _ _ hij => h' (h hij)

/-- The values differ at most in the numbers of scopes, which are related, and in the numbers of
functions. -/
inductive Value.Renamed (ρ : Renaming) : Value → Value → Prop
  | int (n : Int64) : Renamed ρ (.int n) (.int n)
  | bool (b : Bool) : Renamed ρ (.bool b) (.bool b)
  | str (s : String) : Renamed ρ (.str s) (.str s)
  | array {vs ws : List Value} (h : List.Forall₂ (Renamed ρ) vs ws) :
      Renamed ρ (.array vs) (.array ws)
  | hash {es fs : List (Key × Value × Value)}
      (h : Filed (Prod.RProd (Renamed ρ) (Renamed ρ)) es fs) : Renamed ρ (.hash es) (.hash fs)
  | closure {c d : Closure} (hlambda : c.lambda = d.lambda) (hscope : ρ c.scope d.scope) :
      Renamed ρ (.closure c) (.closure d)
  | builtin (b : Builtin) : Renamed ρ (.builtin b) (.builtin b)
  | pending {v w : Value} (h : Renamed ρ v w) : Renamed ρ (.pending v) (.pending w)
  | null : Renamed ρ .null .null

/-- Entries under the same keys, with related values of the keys and related values. -/
abbrev Value.RenamedEntries (ρ : Renaming) :
    List (Key × Value × Value) → List (Key × Value × Value) → Prop :=
  Filed (Prod.RProd (Value.Renamed ρ) (Value.Renamed ρ))

section Induction

variable {ρ ρ' : Renaming}

mutual

/-- Values stay related when more scopes are. -/
theorem Value.Renamed.mono (h : ρ.Le ρ') {v w : Value} : v.Renamed ρ w → v.Renamed ρ' w
  | .int n => .int n
  | .bool b => .bool b
  | .str s => .str s
  | .array hs => .array (Value.Renamed.mono_items h hs)
  | .hash hs => .hash (Value.Renamed.mono_entries h hs)
  | .closure hlambda hscope => .closure hlambda (h hscope)
  | .builtin b => .builtin b
  | .pending hv => .pending (hv.mono h)
  | .null => .null

theorem Value.Renamed.mono_items (h : ρ.Le ρ') {vs ws : List Value} :
    List.Forall₂ (Value.Renamed ρ) vs ws → List.Forall₂ (Value.Renamed ρ') vs ws
  | .nil => .nil
  | .cons hv hs => .cons (hv.mono h) (Value.Renamed.mono_items h hs)

theorem Value.Renamed.mono_entries (h : ρ.Le ρ') {es fs : List (Key × Value × Value)} :
    Value.RenamedEntries ρ es fs → Value.RenamedEntries ρ' es fs
  | .nil => .nil
  | .cons (.intro hk hv) hs =>
    .cons (.intro (hk.mono h) (hv.mono h)) (Value.Renamed.mono_entries h hs)

end

mutual

/-- **Related values are shown alike.** -/
theorem Value.Renamed.write_eq {v w : Value} (inside : Bool) :
    v.Renamed ρ w → v.write inside = w.write inside
  | .int _ => rfl
  | .bool _ => rfl
  | .str _ => rfl
  | .array hs => by rw [Value.write, Value.write, Value.Renamed.writeItems_eq hs]
  | .hash hs => by rw [Value.write, Value.write, Value.Renamed.writeEntries_eq hs]
  | .closure hlambda _ => by rw [Value.write, Value.write, Closure.text, Closure.text, hlambda]
  | .builtin _ => rfl
  | .pending hv => by rw [Value.write, Value.write, hv.write_eq false]
  | .null => rfl

theorem Value.Renamed.writeItems_eq {vs ws : List Value} :
    List.Forall₂ (Value.Renamed ρ) vs ws → Value.writeItems vs = Value.writeItems ws
  | .nil => rfl
  | .cons hv hs => by
    rw [Value.writeItems, Value.writeItems, hv.write_eq true, Value.Renamed.writeMoreItems_eq hs]

theorem Value.Renamed.writeMoreItems_eq {vs ws : List Value} :
    List.Forall₂ (Value.Renamed ρ) vs ws → Value.writeMoreItems vs = Value.writeMoreItems ws
  | .nil => rfl
  | .cons hv hs => by
    rw [Value.writeMoreItems, Value.writeMoreItems, hv.write_eq true,
      Value.Renamed.writeMoreItems_eq hs]

theorem Value.Renamed.writeEntries_eq {es fs : List (Key × Value × Value)} :
    Value.RenamedEntries ρ es fs → Value.writeEntries es = Value.writeEntries fs
  | .nil => rfl
  | .cons (.intro hk hv) hs => by
    rw [Value.writeEntries, Value.writeEntries, hk.write_eq true, hv.write_eq true,
      Value.Renamed.writeMoreEntries_eq hs]

theorem Value.Renamed.writeMoreEntries_eq {es fs : List (Key × Value × Value)} :
    Value.RenamedEntries ρ es fs → Value.writeMoreEntries es = Value.writeMoreEntries fs
  | .nil => rfl
  | .cons (.intro hk hv) hs => by
    rw [Value.writeMoreEntries, Value.writeMoreEntries, hk.write_eq true, hv.write_eq true,
      Value.Renamed.writeMoreEntries_eq hs]

end

mutual

/-- A value without functions is renamed to an equal one. -/
theorem Value.Renamed.same {v w : Value} : v.Renamed ρ w → v.closures = [] → v.same w = true
  | .int _, _ => by simp [Value.same]
  | .bool _, _ => by simp [Value.same]
  | .str _, _ => by simp [Value.same]
  | .array hs, h => Value.Renamed.sameList hs h
  | .hash hs, h => Value.Renamed.sameEntries hs h
  | .closure _ _, h => by cases h
  | .builtin _, _ => by simp [Value.same]
  | .pending hv, h => hv.same h
  | .null, _ => rfl

theorem Value.Renamed.sameList {vs ws : List Value} :
    List.Forall₂ (Value.Renamed ρ) vs ws → Value.itemClosures vs = [] →
      Value.sameList vs ws = true
  | .nil, _ => rfl
  | .cons hv hs, h => by
    obtain ⟨hfirst, hrest⟩ := List.append_eq_nil_iff.1 h
    rw [Value.sameList, hv.same hfirst, Value.Renamed.sameList hs hrest]
    rfl

theorem Value.Renamed.sameEntries {es fs : List (Key × Value × Value)} :
    Value.RenamedEntries ρ es fs → Value.entryClosures es = [] → Value.sameEntries es fs = true
  | .nil, _ => rfl
  | .cons (.intro hk hv) hs, h => by
    obtain ⟨hkey, h⟩ := List.append_eq_nil_iff.1 h
    obtain ⟨hfirst, hrest⟩ := List.append_eq_nil_iff.1 h
    rw [Value.sameEntries, hk.same hkey, hv.same hfirst, Value.Renamed.sameEntries hs hrest]
    simp

end

mutual

/-- The functions of a related value were made in related scopes. -/
theorem Value.Renamed.exists_scope {v w : Value} : v.Renamed ρ w →
    ∀ c ∈ v.closures, ∃ j, ρ c.scope j
  | .int _, c, hc => by cases hc
  | .bool _, c, hc => by cases hc
  | .str _, c, hc => by cases hc
  | .array hs, c, hc => Value.Renamed.exists_scope_items hs c hc
  | .hash hs, c, hc => Value.Renamed.exists_scope_entries hs c hc
  | .closure (d := d) _ hscope, c, hc => by
    obtain rfl := List.mem_singleton.1 hc
    exact ⟨d.scope, hscope⟩
  | .builtin _, c, hc => by cases hc
  | .pending hv, c, hc => hv.exists_scope c hc
  | .null, c, hc => by cases hc

theorem Value.Renamed.exists_scope_items {vs ws : List Value} :
    List.Forall₂ (Value.Renamed ρ) vs ws → ∀ c ∈ Value.itemClosures vs, ∃ j, ρ c.scope j
  | .nil, c, hc => by cases hc
  | .cons hv hs, c, hc => by
    rcases List.mem_append.1 hc with hc | hc
    · exact hv.exists_scope c hc
    · exact Value.Renamed.exists_scope_items hs c hc

theorem Value.Renamed.exists_scope_entries {es fs : List (Key × Value × Value)} :
    Value.RenamedEntries ρ es fs → ∀ c ∈ Value.entryClosures es, ∃ j, ρ c.scope j
  | .nil, c, hc => by cases hc
  | .cons (.intro hk hv) hs, c, hc => by
    rcases List.mem_append.1 hc with hc | hc
    · exact hk.exists_scope c hc
    rcases List.mem_append.1 hc with hc | hc
    · exact hv.exists_scope c hc
    · exact Value.Renamed.exists_scope_entries hs c hc

end

mutual

/-- A value is related to itself if the scopes of its functions are. -/
theorem Value.renamed_self : (v : Value) → (∀ c ∈ v.closures, ρ c.scope c.scope) → v.Renamed ρ v
  | .int n, _ => .int n
  | .bool b, _ => .bool b
  | .str s, _ => .str s
  | .array items, h => .array (Value.renamed_self_items items h)
  | .hash entries, h => .hash (Value.renamed_self_entries entries h)
  | .closure c, h => .closure rfl (h c (List.mem_singleton.2 rfl))
  | .builtin b, _ => .builtin b
  | .pending v, h => .pending (v.renamed_self h)
  | .null, _ => .null

theorem Value.renamed_self_items : (vs : List Value) →
    (∀ c ∈ Value.itemClosures vs, ρ c.scope c.scope) → List.Forall₂ (Value.Renamed ρ) vs vs
  | [], _ => .nil
  | v :: vs, h => by
    have hfirst := v.renamed_self fun c hc => h c (List.mem_append_left _ hc)
    have hrest := Value.renamed_self_items vs fun c hc => h c (List.mem_append_right _ hc)
    exact .cons hfirst hrest

theorem Value.renamed_self_entries : (es : List (Key × Value × Value)) →
    (∀ c ∈ Value.entryClosures es, ρ c.scope c.scope) → Value.RenamedEntries ρ es es
  | [], _ => .nil
  | (_, k, v) :: es, h => by
    obtain ⟨hkey, h⟩ := List.forall_mem_append.1 h
    obtain ⟨hfirst, hrest⟩ := List.forall_mem_append.1 h
    exact .cons (.intro (k.renamed_self hkey) (v.renamed_self hfirst))
      (Value.renamed_self_entries es hrest)

end

end Induction

namespace Value.Renamed

variable {ρ : Renaming} {v w : Value}

theorem similar (h : v.Renamed ρ w) : v.Similar w := by
  cases h with
  | closure hlambda _ => exact .closure hlambda
  | _ => constructor

theorem kind_eq (h : v.Renamed ρ w) : v.kind = w.kind := h.similar.kind_eq

theorem key?_eq (h : v.Renamed ρ w) : v.key? = w.key? := h.similar.key?_eq

theorem display_eq (h : v.Renamed ρ w) : v.display = w.display := h.write_eq false

end Value.Renamed

/-- **Operators and builtins treat related values the same.** -/
theorem Value.Renamed.congruence (ρ : Renaming) : Value.Congruence (Value.Renamed ρ) where
  similar h := h.similar
  display h := h.display_eq
  int := .int
  bool := .bool
  null := .null
  builtin := .builtin
  append _ _ := .str _
  array := .array
  items h := by
    cases h with
    | array h => exact h
  empty := .hash .nil
  insert hes hk _ hv := by
    cases hes with
    | hash h => exact .hash (h.insert _ (.intro hk hv))
  entries h := by
    cases h with
    | hash h =>
      refine h.mono ?_
      rintro _ _ ⟨-, hv⟩
      exact hv
  unwrap h := by
    cases h with
    | pending h => exact h

/-! ## Values within a set of scopes -/

/-- Every function in the value, at any depth, was made in a scope of `P`. -/
def Value.Within (P : Nat → Prop) (v : Value) : Prop := ∀ c ∈ v.closures, P c.scope

/-- The scopes of `P`, each related to itself. -/
def Renaming.on (P : Nat → Prop) : Renaming := fun i j => i = j ∧ P i

section Within

variable {P : Nat → Prop} {v w : Value}

theorem Value.Within.renamed (h : v.Within P) : v.Renamed (.on P) v :=
  v.renamed_self fun c hc => ⟨rfl, h c hc⟩

theorem forall₂_within {vs : List Value} (h : ∀ v ∈ vs, v.Within P) :
    List.Forall₂ (Value.Renamed (.on P)) vs vs :=
  List.forall₂_same.2 fun v hv => (h v hv).renamed

theorem filed_within {κ : Type} {es : List (κ × Value)} (h : ∀ p ∈ es, p.2.Within P) :
    Filed (Value.Renamed (.on P)) es es :=
  .refl fun p hp => (h p hp).renamed

end Within

end TreeWalk

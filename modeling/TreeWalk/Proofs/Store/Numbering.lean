import TreeWalk.Proofs.Eval.Invariant
import TreeWalk.Proofs.Store.Functions
import TreeWalk.Proofs.Store.Reachable
import TreeWalk.Value.Equality

/-!
# The numbers of functions

A function value is told apart from others by its number, and equality of values looks at nothing
else in it.  That is sound because the store counts the functions that are made: **two functions
that come up in one history and have the same number are the same function**
(`Store.AtHand.eq_of_id_eq`), so that **values of one history are equal only if they are the same
value** (`Store.AtHand.eq_of_beq`).

`Store.AtHand s vs` is what a history leads to: the store `s`, and the values `vs` that were handed
out on the way.  The invariant (`numbered`) keeps a list of all functions that were made, in which
each one stands at the place of its number.
-/

set_option autoImplicit false

namespace TreeWalk

/-! ## Equality of values -/

mutual

theorem Value.same_self : (v : Value) → v.same v = true
  | .int _ => by simp [Value.same]
  | .bool _ => by simp [Value.same]
  | .str _ => by simp [Value.same]
  | .array items => by rw [Value.same, Value.sameList_self items]
  | .hash entries => by rw [Value.same, Value.sameEntries_self entries]
  | .closure _ => by simp [Value.same]
  | .builtin _ => by simp [Value.same]
  | .pending v => by rw [Value.same, v.same_self]
  | .null => rfl

theorem Value.sameList_self : (vs : List Value) → Value.sameList vs vs = true
  | [] => rfl
  | v :: vs => by rw [Value.sameList, v.same_self, Value.sameList_self vs, Bool.and_true]

theorem Value.sameEntries_self : (es : List (Key × Value × Value)) → Value.sameEntries es es = true
  | [] => rfl
  | (_, k, v) :: es => by
    simp [Value.sameEntries, k.same_self, v.same_self, Value.sameEntries_self es]

end

/-- Functions of the two lists that have the same number are the same. -/
def Identified (cs ds : List Closure) : Prop := ∀ c ∈ cs, ∀ d ∈ ds, c.id = d.id → c = d

theorem Identified.mono {cs cs' ds ds' : List Closure} (h : Identified cs' ds') (hc : cs ⊆ cs')
    (hd : ds ⊆ ds') : Identified cs ds :=
  fun c hcs d hds => h c (hc hcs) d (hd hds)

mutual

/-- **Where numbers tell functions apart, equal values are the same.** -/
theorem Value.eq_of_same : (a b : Value) → Identified a.closures b.closures → a.same b = true →
    a = b
  | .int a, .int b, _, h => by
    rw [Value.same, decide_eq_true_eq] at h
    rw [h]
  | .bool a, .bool b, _, h => by
    rw [Value.same, decide_eq_true_eq] at h
    rw [h]
  | .str a, .str b, _, h => by
    rw [Value.same, decide_eq_true_eq] at h
    rw [h]
  | .array as, .array bs, hid, h => by
    rw [Value.same] at h
    rw [Value.eq_of_sameList as bs hid h]
  | .hash as, .hash bs, hid, h => by
    rw [Value.same] at h
    rw [Value.eq_of_sameEntries as bs hid h]
  | .closure c, .closure d, hid, h => by
    rw [Value.same, decide_eq_true_eq] at h
    rw [hid c List.mem_cons_self d List.mem_cons_self h]
  | .builtin a, .builtin b, _, h => by
    rw [Value.same, decide_eq_true_eq] at h
    rw [h]
  | .pending a, .pending b, hid, h => by
    rw [Value.same] at h
    rw [a.eq_of_same b hid h]
  | .null, .null, _, _ => rfl

theorem Value.eq_of_sameList : (as bs : List Value) →
    Identified (Value.itemClosures as) (Value.itemClosures bs) → Value.sameList as bs = true →
    as = bs
  | [], [], _, _ => rfl
  | a :: as, b :: bs, hid, h => by
    rw [Value.sameList, Bool.and_eq_true] at h
    rw [a.eq_of_same b (hid.mono (List.subset_append_left _ _) (List.subset_append_left _ _)) h.1,
      Value.eq_of_sameList as bs
        (hid.mono (List.subset_append_right _ _) (List.subset_append_right _ _)) h.2]

theorem Value.eq_of_sameEntries : (as bs : List (Key × Value × Value)) →
    Identified (Value.entryClosures as) (Value.entryClosures bs) →
    Value.sameEntries as bs = true → as = bs
  | [], [], _, _ => rfl
  | (k, c, a) :: as, (l, d, b) :: bs, hid, h => by
    rw [Value.sameEntries, Bool.and_eq_true, Bool.and_eq_true, Bool.and_eq_true,
      decide_eq_true_eq] at h
    obtain ⟨⟨hkl, hcd, hab⟩, hrest⟩ := h
    have hbehind : Identified (a.closures ++ Value.entryClosures as)
        (b.closures ++ Value.entryClosures bs) :=
      hid.mono (List.subset_append_right _ _) (List.subset_append_right _ _)
    rw [hkl,
      c.eq_of_same d (hid.mono (List.subset_append_left _ _) (List.subset_append_left _ _)) hcd,
      a.eq_of_same b (hbehind.mono (List.subset_append_left _ _) (List.subset_append_left _ _)) hab,
      Value.eq_of_sameEntries as bs
        (hbehind.mono (List.subset_append_right _ _) (List.subset_append_right _ _)) hrest]

end

/-! ## Histories -/

/-- The value of an outcome, if it has one. -/
def Outcome.values {ε α : Type} : Outcome ε α → List α
  | done a => [a]
  | _ => []

/-- The stores that a history leads to, with the values that were handed out on the way.  Whoever
holds values can bind them, call them, and put their parts together to new ones, but has no way to
make a function. -/
inductive Store.AtHand : Store → List Value → Prop
  | empty : AtHand .empty []
  | openGlobal {s : Store} {vs : List Value} (h : AtHand s vs) : AtHand s.openGlobal.2 vs
  | enclose {s : Store} {vs : List Value} (h : AtHand s vs) (scope : Nat) :
      AtHand (s.openScope (some scope) []).2 vs
  | set {s : Store} {vs : List Value} (h : AtHand s vs) (scope : Nat) (name : String) {v : Value}
      (hv : v ∈ vs) : AtHand (s.set scope name v) vs
  | get {s : Store} {vs : List Value} (h : AtHand s vs) {scope : Nat} {name : String} {v : Value}
      (hv : s.get? scope name = some v) : AtHand s (v :: vs)
  | compose {s : Store} {vs : List Value} (h : AtHand s vs) {v : Value}
      (hv : v.closures ⊆ Value.itemClosures vs) : AtHand s (v :: vs)
  | eval {s : Store} {vs : List Value} (h : AtHand s vs) (fuel scope : Nat) (e : Expr) :
      AtHand (eval fuel scope e s).store ((eval fuel scope e s).outcome.values ++ vs)
  | run {s : Store} {vs : List Value} (h : AtHand s vs) (fuel scope : Nat) (p : Program) :
      AtHand (p.eval fuel scope s).store ((p.eval fuel scope s).outcome.values ++ vs)
  | call {s : Store} {vs : List Value} (h : AtHand s vs) (fuel : Nat) {callee : Value}
      (hcallee : callee ∈ vs) {args : List Value} (hargs : ∀ v ∈ args, v ∈ vs) :
      AtHand (callee.call fuel args s).store ((callee.call fuel args s).outcome.values ++ vs)

/-! ## The list of all functions -/

/-- The function stands in the list at the place of its number. -/
def Closure.Listed (w : List Closure) (c : Closure) : Prop := w[c.id]? = some c

theorem Closure.Listed.mono {w w' : List Closure} (hle : w <+: w') (c : Closure)
    (h : c.Listed w) : c.Listed w' := by
  obtain ⟨rest, rfl⟩ := hle
  have hlt : c.id < w.length := (List.getElem?_eq_some_iff.1 h).1
  rw [Closure.Listed, List.getElem?_append_left hlt]
  exact h

/-- The list has all functions that were made, and those in the store stand where they belong. -/
def numbered : Invariant (List Closure) where
  le w w' := w <+: w'
  store w s t := s = t ∧ s.closures = w.length ∧ s.Only (Closure.Listed w)
  scope _ _ := True
  value w := Value.Only (Closure.Listed w)
  demand _ := .none
  refl := List.prefix_refl
  trans := List.IsPrefix.trans
  scope_mono _ h := h
  value_mono hle h := h.mono (Closure.Listed.mono hle)
  hereditary w := Value.hereditary_only (Closure.Listed w)
  text _ := nofun
  meets {_ e} _ := e.meets_none
  size_eq h := congrArg (·.frames.size) h.1
  closures_eq h := congrArg (·.closures) h.1
  get?_eq h _ _ := by rw [h.1]
  value_get? h _ hget := h.2.2.get? hget
  set := by
    rintro w s _ i name v ⟨rfl, hcount, honly⟩ - - hv
    exact ⟨rfl, hcount, honly.set i name hv⟩
  openScope := by
    rintro w s _ c es ⟨rfl, hcount, honly⟩ - hes
    exact ⟨⟨rfl, hcount, honly.openScope _ hes⟩, trivial, fun st _ => st.meets_none⟩
  close := by
    rintro w s _ i f ⟨rfl, hcount, honly⟩ - -
    -- The new function gets the number of those before it, and goes to the end of the list.
    have hle : w <+: w ++ [⟨s.closures, f, i⟩] := List.prefix_append _ _
    refine ⟨_, hle, ⟨rfl, ?_, honly.mono (Closure.Listed.mono hle)⟩, Value.only_closure.2 ?_⟩
    · rw [List.length_append, ← hcount]
      rfl
    · rw [Closure.Listed, hcount, List.getElem?_concat_length]

/-- The functions in the store and in the values stand in the list. -/
def Store.Numbered (w : List Closure) (s : Store) (vs : List Value) : Prop :=
  numbered.store w s s ∧ ∀ v ∈ vs, numbered.value w v

/-- A computation that keeps the invariant leads from one list to a longer one. -/
theorem Store.Numbered.step {w : List Closure} {s : Store} {vs : List Value}
    (h : s.Numbered w vs) {m : Eval Value} (hm : Eval.Respects numbered w numbered.value m m) :
    ∃ w', (m s).store.Numbered w' ((m s).outcome.values ++ vs) := by
  obtain ⟨w', hle, hstore, -, -, hvalue, -⟩ := hm h.1
  refine ⟨w', hstore, List.forall_mem_append.2 ⟨fun v hv => ?_, fun v hv => ?_⟩⟩
  · generalize (m s).outcome = o at hvalue hv
    cases o with
    | done u =>
      obtain rfl := List.mem_singleton.1 hv
      exact hvalue v rfl
    | _ => cases hv
  · exact numbered.value_mono hle (h.2 v hv)

/-- **All functions of a history are numbered**, those in the store and those at hand. -/
theorem Store.AtHand.numbered {s : Store} {vs : List Value} (h : s.AtHand vs) :
    ∃ w, s.Numbered w vs := by
  induction h with
  | empty =>
    exact ⟨[], ⟨rfl, rfl, .empty⟩, List.forall_mem_nil _⟩
  | openGlobal _ ih | enclose _ _ ih =>
    obtain ⟨w, ⟨-, hcount, honly⟩, hvs⟩ := ih
    exact ⟨w, ⟨rfl, hcount, honly.openScope _ (List.forall_mem_nil _)⟩, hvs⟩
  | set _ scope name hv ih =>
    obtain ⟨w, ⟨-, hcount, honly⟩, hvs⟩ := ih
    exact ⟨w, ⟨rfl, hcount, honly.set scope name (hvs _ hv)⟩, hvs⟩
  | get _ hv ih =>
    obtain ⟨w, hstore, hvs⟩ := ih
    exact ⟨w, hstore, List.forall_mem_cons.2 ⟨hstore.2.2.get? hv, hvs⟩⟩
  | compose _ hv ih =>
    obtain ⟨w, hstore, hvs⟩ := ih
    exact ⟨w, hstore, List.forall_mem_cons.2 ⟨(Value.only_array.2 hvs).of_subset hv, hvs⟩⟩
  | eval _ fuel scope e ih =>
    obtain ⟨w, hw⟩ := ih
    exact hw.step ((eval_respects _ fuel trivial trivial).of_leaving id)
  | run _ fuel scope p ih =>
    obtain ⟨w, hw⟩ := ih
    exact hw.step (p.eval_respects _ fuel trivial fun st _ => st.meets_none)
  | call _ fuel hcallee hargs ih =>
    obtain ⟨w, hw⟩ := ih
    exact hw.step (Value.call_respects _ fuel (hw.2 _ hcallee) fun v hv => hw.2 v (hargs v hv))

/-! ## Equal numbers, equal functions -/

theorem Closure.Listed.eq_of_id_eq {w : List Closure} {c d : Closure} (hc : c.Listed w)
    (hd : d.Listed w) (h : c.id = d.id) : c = d := by
  rw [Closure.Listed, h, hd] at hc
  exact (Option.some_inj.1 hc).symm

/-- **Functions of one history with the same number are the same function.** -/
theorem Store.AtHand.eq_of_id_eq {s : Store} {vs : List Value} (h : s.AtHand vs) {a b : Value}
    (ha : a ∈ vs) (hb : b ∈ vs) : Identified a.closures b.closures := by
  obtain ⟨w, -, hvs⟩ := h.numbered
  exact fun c hc d hd hid => Closure.Listed.eq_of_id_eq (hvs a ha c hc) (hvs b hb d hd) hid

/-- **Values of one history are equal only if they are the same.** -/
theorem Store.AtHand.eq_of_beq {s : Store} {vs : List Value} (h : s.AtHand vs) {a b : Value}
    (ha : a ∈ vs) (hb : b ∈ vs) (hab : (a == b) = true) : a = b :=
  a.eq_of_same b (h.eq_of_id_eq ha hb) hab

end TreeWalk

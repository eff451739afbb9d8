import TreeWalk.Program.Equality
import TreeWalk.Proofs.Eval.Sequence
import TreeWalk.Proofs.SortedMap
import TreeWalk.Proofs.Store.Numbering
import TreeWalk.Proofs.Text.Bytes

/-!
# Hash literals are finite maps

The entries of a hash literal are filed one after the other, and a later entry takes the place of an
earlier one with the same key.  **What comes out is the finite map of the entries, in a canonical
form** (`hash_literal_canonical`): the last value of a key is found under it, each key is there
once, and the keys are in order.  Two literals with the same keys and equal values under them give
equal hashes that look the same, in whatever order their entries were written.

An entry also holds the value that its key was made from, which is what is shown and compared.  That
value has the key under which the entry is filed (`Eval.entries_keyed`).

The order of keys is said anew here (`Key.Before`), with strings ordered by the bytes of their UTF-8
forms.
-/

set_option autoImplicit false

namespace TreeWalk

/-! ## The order of keys -/

/-- Integers come first, by size, then `false` and `true`, and then strings, by the bytes of their
UTF-8 forms. -/
def Key.Before : Key → Key → Prop
  | .int a, .int b => a.toInt < b.toInt
  | .int _, .bool _ => True
  | .int _, .str _ => True
  | .bool a, .bool b => a = false ∧ b = true
  | .bool _, .str _ => True
  | .str a, .str b => Text.bytes a < Text.bytes b
  | _, _ => False

theorem Key.before_iff {k l : Key} : k.Before l ↔ Ord.compare k l = .lt := by
  rw [Key.compare_def]
  cases k with
  | int a =>
    cases l with
    | int b => exact Int.compare_eq_lt.symm
    | bool b => simp [Key.Before, Key.compare]
    | str b => simp [Key.Before, Key.compare]
  | bool a =>
    cases l with
    | int b => simp [Key.Before, Key.compare]
    | bool b =>
      rw [Key.Before, Key.compare]
      revert a b
      decide
    | str b => simp [Key.Before, Key.compare]
  | str a =>
    cases l with
    | int b => simp [Key.Before, Key.compare]
    | bool b => simp [Key.Before, Key.compare]
    | str b =>
      rw [Key.Before, Key.compare, Text.bytes_lt_iff]
      exact compareOfLessAndEq_eq_lt.symm

/-! ## The entries of a literal -/

/-- The keys and values of a literal are evaluated one after the other, without a failure and
without a `return`, and every key can be one. -/
inductive Eval.Files (inner : Nat → Expr → Eval Value) (scope : Nat) :
    Store → List (Expr × Expr) → List (Key × Value) → Store → List String → Prop
  | nil {s : Store} : Files inner scope s [] [] s []
  | cons {s s₁ s₂ t : Store} {key value : Expr} {es : List (Expr × Expr)} {k : Key} {v : Value}
      {pairs : List (Key × Value)} {out₁ out₂ out : List String}
      (hkey : inner scope key s = ⟨.done k.toValue, s₁, out₁⟩)
      (hvalue : inner scope value s₁ = ⟨.done v, s₂, out₂⟩) (hv : v.kind ≠ .returnValue)
      (h : Files inner scope s₂ es pairs t out) :
      Files inner scope s ((key, value) :: es) ((k, v) :: pairs) t (out₁ ++ (out₂ ++ out))

/-- The hash of these keys and values, filed one after the other. -/
def Value.ofPairs (pairs : List (Key × Value)) : Value :=
  .hash (SortedMap.ofList (pairs : List (Key × Value × Value)))

/-- **The entries are filed in their order**, on top of those that are there. -/
theorem Eval.Files.entries {inner : Nat → Expr → Eval Value} {scope : Nat} {s t : Store}
    {es : List (Expr × Expr)} {pairs : List (Key × Value)} {out : List String}
    (h : Eval.Files inner scope s es pairs t out) (filed : List (Key × Value × Value)) :
    Eval.entries inner scope filed es s =
      ⟨.done (.hash ((pairs.map Key.entry).foldl (fun m p => SortedMap.insert p.1 p.2 m) filed)),
        t, out⟩ := by
  induction h generalizing filed with
  | nil => rfl
  | @cons s s₁ s₂ t key value es k v pairs out₁ out₂ out hkey hvalue hv _ ih =>
    have hkind : k.toValue.kind ≠ .returnValue := by cases k <;> exact Value.Kind.noConfusion
    have hfile : (do
        let label ← Eval.ofExcept k.toValue.key
        Eval.operand (inner scope value) fun v =>
          Eval.entries inner scope (SortedMap.insert label (k.toValue, v) filed) es : Eval Value) =
        Eval.operand (inner scope value) fun v =>
          Eval.entries inner scope (SortedMap.insert k (k.toValue, v) filed) es := by
      rw [Value.key, Key.key?_toValue]
      exact Eval.pure_bind _ _
    rw [Eval.entries, Eval.operand_of_done _ hkey hkind, hfile,
      Eval.operand_of_done _ hvalue hv, ih]
    rfl

theorem Value.key?_of_ofExcept_key {k : Value} {label : Key} {s t : Store} {out : List String}
    (h : Eval.ofExcept k.key s = ⟨.done label, t, out⟩) : k.key? = some label := by
  rw [Value.key] at h
  cases hk : k.key? with
  | none =>
    rw [hk] at h
    cases h
  | some l =>
    rw [hk] at h
    cases h
    rfl

/-- No hash is pending, so one that comes out has come from what follows the operand. -/
theorem Eval.operand_eq_hash {m : Eval Value} {next : Value → Eval Value} {s t : Store}
    {hash : List (Key × Value × Value)} {out : List String}
    (h : Eval.operand m next s = ⟨.done (.hash hash), t, out⟩) :
    ∃ v s₁ out₁, next v s₁ = ⟨.done (.hash hash), t, out₁⟩ := by
  obtain ⟨v, s₁, _, out₁, -, hnext⟩ := Eval.bind_eq_done h
  refine ⟨v, s₁, out₁, ?_⟩
  cases v with
  | pending v => cases hnext
  | _ => exact hnext

/-- **A literal files every entry under the key of the value that it stores there.** -/
theorem Eval.entries_keyed {inner : Nat → Expr → Eval Value} {scope : Nat} {s t : Store}
    {es : List (Expr × Expr)} {filed hash : List (Key × Value × Value)} {out : List String}
    (hfiled : ∀ p ∈ filed, p.2.1.key? = some p.1)
    (h : Eval.entries inner scope filed es s = ⟨.done (.hash hash), t, out⟩) :
    ∀ p ∈ hash, p.2.1.key? = some p.1 := by
  induction es generalizing filed s out with
  | nil =>
    cases h
    exact hfiled
  | cons p es ih =>
    obtain ⟨key, value⟩ := p
    obtain ⟨k, s₁, _, h⟩ := Eval.operand_eq_hash h
    obtain ⟨label, s₂, _, _, hlabel, h⟩ := Eval.bind_eq_done h
    obtain ⟨v, s₃, _, h⟩ := Eval.operand_eq_hash h
    exact ih (SortedMap.forall_mem_insert (Value.key?_of_ofExcept_key hlabel) hfiled) h

/-! ## Looking up, counting and comparing -/

theorem Value.index_hash (entries : List (Key × Value × Value)) (k : Key) :
    (Value.hash entries).index k.toValue = .ok ((entries.lookup k).elim .null Prod.snd) := by
  rw [Value.index, Value.key, Key.key?_toValue]
  rfl

theorem Builtin.len_hash (entries : List (Key × Value × Value)) {n : Int64}
    (hn : n.toInt = entries.length) (s : Store) :
    Builtin.len.call [.hash entries] s = ⟨.done (.int n), s, []⟩ := by
  have hlength : Builtin.len.value [.hash entries] = .ok (.int n) := by
    show arithmetic (Checked.fit? entries.length) = _
    rw [← hn, Checked.fit?_toInt]
    rfl
  rw [Builtin.call, hlength]
  rfl

theorem Filed.sameEntries {es fs : List (Key × Value × Value)}
    (h : Filed (fun p q => (p.1 == q.1) = true ∧ (p.2 == q.2) = true) es fs) :
    Value.sameEntries es fs = true := by
  induction h with
  | nil => rfl
  | @cons k p q es fs hp _ ih =>
    rw [Value.sameEntries, ih, ← Value.beq_def, ← Value.beq_def, hp.1, hp.2]
    simp

theorem Filed.eq {κ β : Type} {es fs : List (κ × β)} (h : Filed Eq es fs) : es = fs := by
  induction h with
  | nil => rfl
  | cons hv _ ih => rw [hv, ih]

namespace SortedMap

variable {β : Type}

/-- **Entries with different keys may be written in any order.** -/
theorem ofList_perm {l l' : List (Key × β)} (h : l.Perm l') (hnodup : (l.map Prod.fst).Nodup) :
    ofList l = ofList l' := by
  refine Filed.eq ((sorted_ofList l).filed (sorted_ofList l') ?_ ?_)
  · intro k
    rw [mem_keys_ofList, mem_keys_ofList]
    exact (h.map Prod.fst).mem_iff
  · intro k v v' hv hv'
    have hmem := mem_ofList hv
    have hmem' := h.mem_iff.2 (mem_ofList hv')
    have heq := List.inj_on_of_nodup_map hnodup hmem hmem' rfl
    exact (Prod.mk.inj heq).2

theorem before_ofList (l : List (Key × β)) :
    (ofList l).Pairwise fun p q => p.1.Before q.1 :=
  (sorted_ofList l).imp Key.before_iff.2

end SortedMap

section OfPairs

variable {pairs pairs' : List (Key × Value)}

theorem Key.map_fst_entry (pairs : List (Key × Value)) :
    (pairs.map Key.entry).map Prod.fst = pairs.map Prod.fst := by
  rw [List.map_map]
  rfl

theorem Key.key?_of_mem_ofList {p : Key × Value × Value}
    (h : p ∈ SortedMap.ofList (pairs.map Key.entry)) : p.2.1.key? = some p.1 := by
  obtain ⟨q, -, rfl⟩ := List.mem_map.1 (SortedMap.mem_ofList h)
  exact q.1.key?_toValue

/-- The last entry with a key is found under it. -/
theorem Value.index_ofPairs_of_last {j : Nat} {k : Key} {v : Value}
    (hj : pairs[j]? = some (k, v))
    (hlast : ∀ i p, j < i → pairs[i]? = some p → p.1 ≠ k) :
    (Value.ofPairs pairs).index k.toValue = .ok v := by
  obtain ⟨hlt, hget⟩ := List.getElem?_eq_some_iff.1 hj
  have hsplit : pairs = pairs.take j ++ (k, v) :: pairs.drop (j + 1) := by
    rw [← hget, List.getElem_cons_drop, List.take_append_drop]
  have hentries := congrArg (List.map Key.entry) hsplit
  rw [List.map_append, List.map_cons] at hentries
  have hbehind : ∀ p ∈ (pairs.drop (j + 1)).map Key.entry, p.1 ≠ k := by
    intro q hq
    obtain ⟨p, hp, rfl⟩ := List.mem_map.1 hq
    obtain ⟨i, hi⟩ := List.mem_iff_getElem?.1 hp
    rw [List.getElem?_drop] at hi
    exact hlast _ p (by omega) hi
  rw [Value.ofPairs, Value.index_hash, SortedMap.lookup_ofList_of_last hentries hbehind]
  rfl

theorem Value.index_ofPairs_of_not_mem {k : Key} (hk : k ∉ pairs.map Prod.fst) :
    (Value.ofPairs pairs).index k.toValue = .ok .null := by
  have hne : ∀ p ∈ pairs.map Key.entry, p.1 ≠ k := by
    rintro p hp rfl
    rw [← Key.map_fst_entry] at hk
    exact hk (List.mem_map_of_mem hp)
  rw [Value.ofPairs, Value.index_hash, SortedMap.lookup_ofList_of_not_mem hne]
  rfl

/-- What a hash of pairs files under a key is what is found there. -/
theorem Value.index_ofPairs_of_mem {k : Key} {c v : Value}
    (h : (k, c, v) ∈ SortedMap.ofList (pairs.map Key.entry)) :
    (Value.ofPairs pairs).index k.toValue = .ok v := by
  rw [Value.ofPairs, Value.index_hash, (SortedMap.sorted_ofList _).lookup_of_mem h]
  rfl

/-- Hashes with the same keys and equal values under them are equal. -/
theorem Value.beq_ofPairs (hkeys : ∀ k, k ∈ pairs.map Prod.fst ↔ k ∈ pairs'.map Prod.fst)
    (hvalues : ∀ (k : Key) v v', (Value.ofPairs pairs).index k.toValue = .ok v →
      (Value.ofPairs pairs').index k.toValue = .ok v' → (v == v') = true) :
    (Value.ofPairs pairs == Value.ofPairs pairs') = true := by
  rw [Value.beq_def, Value.ofPairs, Value.ofPairs, Value.same]
  refine ((SortedMap.sorted_ofList _).filed (SortedMap.sorted_ofList _) ?_ ?_).sameEntries
  · intro k
    rw [SortedMap.mem_keys_ofList, SortedMap.mem_keys_ofList, Key.map_fst_entry,
      Key.map_fst_entry, hkeys]
  · rintro k ⟨c, v⟩ ⟨c', v'⟩ hv hv'
    have hc := Key.eq_toValue_of_key? (Key.key?_of_mem_ofList hv)
    have hc' := Key.eq_toValue_of_key? (Key.key?_of_mem_ofList hv')
    dsimp only at hc hc' ⊢
    rw [hc, hc']
    exact ⟨Value.same_self _,
      hvalues k v v' (Value.index_ofPairs_of_mem hv) (Value.index_ofPairs_of_mem hv')⟩

end OfPairs

/-- **Hash literals are finite maps with a canonical form.**  A literal whose entries are evaluated
to the given pairs gives one hash, in which each entry is filed under the key of the value that is
stored with it.

Under each key the hash has the last value of that key, and `null` under any other; its length is
the number of different keys; its entries are in strictly increasing order.  Hashes of any pairs are
equal if they have the same keys and equal values under them, and if both come up in one history
they look the same.  Pairs with different keys may be permuted. -/
theorem hash_literal_canonical (pairs : List (Key × Value)) :
    (∀ {fuel scope : Nat} {s t : Store} {es : List (Expr × Expr)} {out : List String},
      Eval.Files (eval fuel) scope s es pairs t out →
        ∃ entries, eval (fuel + 1) scope (.hash es) s = ⟨.done (.hash entries), t, out⟩ ∧
          Value.hash entries = .ofPairs pairs ∧ ∀ p ∈ entries, p.2.1.key? = some p.1) ∧
    (∀ (j : Nat) (k : Key) (v : Value), pairs[j]? = some (k, v) →
      (∀ (i : Nat) (p : Key × Value), j < i → pairs[i]? = some p → p.1 ≠ k) →
      (Value.ofPairs pairs).index k.toValue = .ok v) ∧
    (∀ k, k ∉ pairs.map Prod.fst → (Value.ofPairs pairs).index k.toValue = .ok .null) ∧
    (∀ (n : Int64) (s : Store), n.toInt = (pairs.map Prod.fst).dedup.length →
      Builtin.len.call [.ofPairs pairs] s = ⟨.done (.int n), s, []⟩) ∧
    (∃ entries, Value.ofPairs pairs = .hash entries ∧
      entries.Pairwise (fun p q => p.1.Before q.1)) ∧
    (∀ pairs', (∀ k, k ∈ pairs.map Prod.fst ↔ k ∈ pairs'.map Prod.fst) →
      (∀ (k : Key) v v', (Value.ofPairs pairs).index k.toValue = .ok v →
        (Value.ofPairs pairs').index k.toValue = .ok v' → (v == v') = true) →
      (Value.ofPairs pairs == Value.ofPairs pairs') = true ∧
      ∀ s vs, Store.AtHand s vs → Value.ofPairs pairs ∈ vs → Value.ofPairs pairs' ∈ vs →
        (Value.ofPairs pairs).display = (Value.ofPairs pairs').display) ∧
    ∀ pairs', pairs.Perm pairs' → (pairs.map Prod.fst).Nodup →
      (Value.ofPairs pairs == Value.ofPairs pairs') = true ∧
      (Value.ofPairs pairs).display = (Value.ofPairs pairs').display := by
  refine ⟨fun h => ⟨_, h.entries [], rfl, ?_⟩, fun j k v => Value.index_ofPairs_of_last,
    fun k => Value.index_ofPairs_of_not_mem, fun n s hn => Builtin.len_hash _ ?_ s,
    ⟨_, rfl, SortedMap.before_ofList _⟩, fun pairs' hkeys hvalues => ?_,
    fun pairs' hperm hnodup => ?_⟩
  · exact Eval.entries_keyed (List.forall_mem_nil _) (h.entries [])
  · rw [hn, SortedMap.length_ofList, Key.map_fst_entry]
  · have hbeq := Value.beq_ofPairs hkeys hvalues
    refine ⟨hbeq, fun s vs hvs hmem hmem' => ?_⟩
    rw [hvs.eq_of_beq hmem hmem' hbeq]
  · rw [← Key.map_fst_entry] at hnodup
    rw [Value.ofPairs, Value.ofPairs, SortedMap.ofList_perm (hperm.map Key.entry) hnodup]
    exact ⟨Value.same_self _, rfl⟩

/-- A literal with a key written twice, and the same map without the first of the two. -/
theorem hash_literal_canonical_twice :
    ∃ (es : List (Expr × Expr)) (pairs pairs' : List (Key × Value))
        (entries : List (Key × Value × Value)),
      Program.parse "\x7b\"b\": 1, 2: 3, \"b\": 4\x7d" = .ok [.expr (.hash es)] ∧
      eval 2 0 (.hash es) .empty = ⟨.done (.hash entries), .empty, []⟩ ∧
      Value.hash entries = .ofPairs pairs ∧
      entries = [(.int 2, .int 2, .int 3), (.str "b", .str "b", .int 4)] ∧
      (∀ p ∈ entries, p.2.1.key? = some p.1) ∧
      (Value.ofPairs pairs).index (.str "b") = .ok (.int 4) ∧
      Builtin.len.call [.ofPairs pairs] .empty = ⟨.done (.int 2), .empty, []⟩ ∧
      pairs' = [(.int 2, .int 3), (.str "b", .int 4)] ∧
      (Value.ofPairs pairs == Value.ofPairs pairs') = true ∧
      (Value.ofPairs pairs).display = (Value.ofPairs pairs').display := by
  let es : List (Expr × Expr) := [(.str "b", .int 1), (.int 2, .int 3), (.str "b", .int 4)]
  let pairs : List (Key × Value) := [(.str "b", .int 1), (.int 2, .int 3), (.str "b", .int 4)]
  let pairs' : List (Key × Value) := [(.int 2, .int 3), (.str "b", .int 4)]
  obtain ⟨hliteral, hlast, -, hlength, -, hcanonical, -⟩ := hash_literal_canonical pairs
  have hentry {k : Key} {key : Expr} (n : Int64) {es : List (Expr × Expr)}
      {pairs : List (Key × Value)} (hkey : eval 1 0 key .empty = ⟨.done k.toValue, .empty, []⟩)
      (h : Eval.Files (eval 1) 0 .empty es pairs .empty []) :
      Eval.Files (eval 1) 0 .empty ((key, .int n) :: es) ((k, .int n) :: pairs) .empty [] := by
    have hvalue : eval 1 0 (.int n) .empty = ⟨.done (.int n), .empty, []⟩ := rfl
    exact .cons hkey hvalue Value.Kind.noConfusion h
  have hfiles : Eval.Files (eval 1) 0 .empty es pairs .empty [] :=
    hentry 1 rfl (hentry 3 rfl (hentry 4 rfl .nil))
  obtain ⟨entries, heval, hentries, hkeyed⟩ := hliteral hfiles
  have hstored : Value.ofPairs pairs =
      .hash [(.int 2, .int 2, .int 3), (.str "b", .str "b", .int 4)] := by with_unfolding_all rfl
  have hindex : (Value.ofPairs pairs).index (Key.str "b").toValue = .ok (.int 4) := by
    refine hlast 2 _ _ rfl fun i p hi hp => ?_
    rw [List.getElem?_eq_none hi] at hp
    cases hp
  have hkeys : ∀ k, k ∈ pairs.map Prod.fst ↔ k ∈ pairs'.map Prod.fst := by
    intro k
    simp only [pairs, pairs', List.map_cons, List.map_nil, List.mem_cons, List.not_mem_nil]
    tauto
  have hsame : Value.ofPairs pairs = Value.ofPairs pairs' := by with_unfolding_all rfl
  have hvalues : ∀ (k : Key) v v', (Value.ofPairs pairs).index k.toValue = .ok v →
      (Value.ofPairs pairs').index k.toValue = .ok v' → (v == v') = true := by
    intro k v v' hv hv'
    rw [hsame, hv'] at hv
    cases hv
    exact v.same_self
  have hathand : Store.AtHand .empty [Value.ofPairs pairs', Value.ofPairs pairs] :=
    (Store.AtHand.empty.compose (List.nil_subset _)).compose (List.nil_subset _)
  obtain ⟨hbeq, hdisplay⟩ := hcanonical pairs' hkeys hvalues
  exact ⟨es, pairs, pairs', entries, by decide +kernel, heval, hentries,
    Value.hash.inj (hentries.trans hstored), hkeyed, hindex, hlength 2 .empty (by decide),
    rfl, hbeq, hdisplay _ _ hathand (by simp) (by simp)⟩

end TreeWalk

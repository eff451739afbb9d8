import Mathlib.Data.List.Forall2
import TreeWalk.Eval.Builtin
import TreeWalk.Proofs.Store.Holds

/-!
# Relations that operators respect

Operators, subscripts and builtins look at the form of their operands and at the data in them, take
containers apart and put values together to new ones.  A relation between values that knows about
nothing else is a *congruence* (`Value.Congruence`), and **related operands then have related
answers, or the same error** (`Congruence.binary`, `Congruence.index`, `Congruence.builtin_value`
and so on).  An error tells of its operands the kinds only.

A property of values that holds of a container if it holds of its contents, and the other way
round, is *hereditary* (`Value.Hereditary`).  It is a congruence, too: that of equal values that
have the property.  So what operators do to such a property is a case of what they do to relations.
-/

set_option autoImplicit false

namespace TreeWalk

/-! ## Entries -/

/-- The same keys in the same order, with related contents. -/
inductive Filed {κ β : Type} (R : β → β → Prop) : List (κ × β) → List (κ × β) → Prop
  | nil : Filed R [] []
  | cons {k : κ} {v w : β} {es fs : List (κ × β)} (hv : R v w) (h : Filed R es fs) :
      Filed R ((k, v) :: es) ((k, w) :: fs)

namespace Filed

variable {κ β : Type} {R : β → β → Prop} {es fs : List (κ × β)}

theorem mono {R' : β → β → Prop} (h : ∀ {v w}, R v w → R' v w) (hes : Filed R es fs) :
    Filed R' es fs := by
  induction hes with
  | nil => exact .nil
  | cons hv _ ih => exact .cons (h hv) ih

/-- Contents that are related to themselves. -/
theorem refl (h : ∀ p ∈ es, R p.2 p.2) : Filed R es es := by
  induction es with
  | nil => exact .nil
  | cons p es ih =>
    obtain ⟨hp, hes⟩ := List.forall_mem_cons.1 h
    exact .cons hp (ih hes)

theorem length_eq (h : Filed R es fs) : es.length = fs.length := by
  induction h with
  | nil => rfl
  | cons _ _ ih => rw [List.length_cons, List.length_cons, ih]

theorem lookup [BEq κ] (h : Filed R es fs) (k : κ) : Option.Rel R (es.lookup k) (fs.lookup k) := by
  induction h with
  | nil => exact .none
  | @cons l v w es fs hv _ ih =>
    rw [List.lookup_cons, List.lookup_cons]
    cases k == l with
    | true => exact .some hv
    | false => exact ih

/-- Insertion looks at the keys only. -/
theorem insert [Ord κ] (h : Filed R es fs) (k : κ) {v w : β} (hv : R v w) :
    Filed R (SortedMap.insert k v es) (SortedMap.insert k w fs) := by
  induction h with
  | nil => exact .cons hv .nil
  | @cons l a b es fs ha h ih =>
    rw [SortedMap.insert, SortedMap.insert]
    cases compare k l with
    | lt => exact .cons hv (.cons ha h)
    | eq => exact .cons hv h
    | gt => exact .cons ha ih

/-- Related arguments make related bindings of the parameters. -/
theorem ofList [Ord κ] (params : List κ) {vs ws : List β} (h : List.Forall₂ R vs ws) :
    Filed R (SortedMap.ofList (params.zip vs)) (SortedMap.ofList (params.zip ws)) := by
  -- The map is built from the left, so the induction is about two related maps to start from.
  suffices hfold : ∀ {es fs : List (κ × β)}, Filed R es fs →
      Filed R ((params.zip vs).foldl (fun m p => SortedMap.insert p.1 p.2 m) es)
        ((params.zip ws).foldl (fun m p => SortedMap.insert p.1 p.2 m) fs) from hfold .nil
  induction h generalizing params with
  | nil =>
    intro es fs hes
    rw [List.zip_nil_right]
    exact hes
  | cons hv _ ih =>
    intro es fs hes
    cases params with
    | nil => exact hes
    | cons p params => exact ih params (hes.insert p hv)

end Filed

/-! ## Answers -/

/-- The kinds of value that the fault names. -/
def ArgumentFault.kinds : ArgumentFault → List Value.Kind
  | noLength got => [got]
  | firstNotArray got => [got]
  | notArray got => [got]

/-- The kinds of value that the error names. -/
def RuntimeError.kinds : RuntimeError → List Value.Kind
  | divisionByZero => []
  | integerOverflow => []
  | unsupportedOperator left _ right => [left, right]
  | unsupportedOperand _ operand => [operand]
  | conditionNotBoolean got => [got]
  | arityMismatch _ _ => []
  | notCallable got => [got]
  | undefinedIdentifier _ => []
  | unhashableKey got => [got]
  | notIndexable got => [got]
  | invalidIndex container index => [container, index]
  | indexOutOfBounds _ _ => []
  | wrongArgumentCount _ _ _ => []
  | invalidArgument _ fault => fault.kinds

/-- Two answers agree: related values, or one and the same error, which names kinds in `K` only. -/
inductive Answers (K : Value.Kind → Prop) {α β : Type} (R : α → β → Prop) :
    Except RuntimeError α → Except RuntimeError β → Prop
  | ok {a : α} {b : β} (h : R a b) : Answers K R (.ok a) (.ok b)
  | error {e : RuntimeError} (h : ∀ k ∈ e.kinds, K k) : Answers K R (.error e) (.error e)

/-! ## Congruences -/

namespace Value

/-- The values have the same form and the same data, leaving their contents aside. -/
inductive Similar : Value → Value → Prop
  | int (n : Int64) : Similar (.int n) (.int n)
  | bool (b : Bool) : Similar (.bool b) (.bool b)
  | str (s : String) : Similar (.str s) (.str s)
  | array (vs ws : List Value) : Similar (.array vs) (.array ws)
  | hash (es fs : List (Key × Value × Value)) : Similar (.hash es) (.hash fs)
  | closure {c d : Closure} (h : c.lambda = d.lambda) : Similar (.closure c) (.closure d)
  | builtin (b : Builtin) : Similar (.builtin b) (.builtin b)
  | pending (v w : Value) : Similar (.pending v) (.pending w)
  | null : Similar .null .null

theorem Similar.refl (v : Value) : v.Similar v := by
  cases v with
  | closure c => exact .closure rfl
  | _ => constructor

theorem Similar.kind_eq {v w : Value} (h : v.Similar w) : v.kind = w.kind := by cases h <;> rfl

theorem Similar.key?_eq {v w : Value} (h : v.Similar w) : v.key? = w.key? := by cases h <;> rfl

/-- The kinds of the values that the relation relates. -/
def Named (R : Value → Value → Prop) (k : Kind) : Prop := ∃ v w, R v w ∧ v.kind = k

/-- An error about a related value names its kind. -/
theorem named {R : Value → Value → Prop} {v w : Value} (h : R v w) : ∀ k ∈ [v.kind], Named R k :=
  fun _ hk => ⟨v, w, h, (List.mem_singleton.1 hk).symm⟩

/-- An error about two related values names their kinds. -/
theorem named_pair {R : Value → Value → Prop} {v w v' w' : Value} (h : R v w) (h' : R v' w') :
    ∀ k ∈ [v.kind, v'.kind], Named R k :=
  List.forall_mem_cons.2 ⟨⟨v, w, h, rfl⟩, named h'⟩

/-- A relation between values that the operations on values respect. -/
structure Congruence (R : Value → Value → Prop) : Prop where
  similar : ∀ {v w}, R v w → v.Similar w
  display : ∀ {v w}, R v w → v.display = w.display
  int : ∀ n, R (.int n) (.int n)
  bool : ∀ b, R (.bool b) (.bool b)
  null : R .null .null
  builtin : ∀ b, R (.builtin b) (.builtin b)
  append : ∀ {a b}, R (.str a) (.str a) → R (.str b) (.str b) → R (.str (a ++ b)) (.str (a ++ b))
  array : ∀ {vs ws}, List.Forall₂ R vs ws → R (.array vs) (.array ws)
  items : ∀ {vs ws}, R (.array vs) (.array ws) → List.Forall₂ R vs ws
  empty : R (.hash []) (.hash [])
  /-- Values are filed under the key of related ones, which are stored with them. -/
  insert : ∀ {es fs k l key v w}, R (.hash es) (.hash fs) → R k l → k.key? = some key → R v w →
    R (.hash (SortedMap.insert key (k, v) es)) (.hash (SortedMap.insert key (l, w) fs))
  entries : ∀ {es fs}, R (.hash es) (.hash fs) → Filed (fun p q => R p.2 q.2) es fs
  unwrap : ∀ {v w}, R (.pending v) (.pending w) → R v w

namespace Congruence

variable {R : Value → Value → Prop} (hR : Congruence R) {v w : Value}

include hR

theorem settle (h : R v w) : R v.settle w.settle := by
  cases hR.similar h with
  | pending => exact hR.unwrap h
  | _ => exact h

/-! ### Operators -/

theorem arithmetic (n : Option Int64) :
    Answers (Named R) R (arithmetic n) (TreeWalk.arithmetic n) := by
  cases n with
  | none => exact .error (List.forall_mem_nil _)
  | some n => exact .ok (hR.int n)

theorem onInts (op : BinaryOp) (a b : Int64) :
    Answers (Named R) R (op.onInts a b) (op.onInts a b) := by
  cases op
  case add | sub | mul => exact hR.arithmetic _
  case div =>
    rw [BinaryOp.onInts]
    split
    · exact .error (List.forall_mem_nil _)
    · exact hR.arithmetic _
  all_goals exact .ok (hR.bool _)

/-- An operator reads integers, truth values and strings, and of everything else the kind. -/
theorem binary (op : BinaryOp) {a a' b b' : Value} (ha : R a a') (hb : R b b') :
    Answers (Named R) R (op.apply a b) (op.apply a' b') := by
  have hkinds := named_pair ha hb
  cases hR.similar ha with
  | int n =>
    cases hR.similar hb with
    | int m => exact hR.onInts op n m
    | _ => exact .error hkinds
  | bool x =>
    cases hR.similar hb with
    | bool y => cases op <;> first | exact .ok (hR.bool _) | exact .error hkinds
    | _ => exact .error hkinds
  | str x =>
    cases hR.similar hb with
    | str y => cases op <;> first | exact .ok (hR.append ha hb) | exact .error hkinds
    | _ => exact .error hkinds
  | _ => cases hR.similar hb <;> exact .error hkinds

theorem unary (op : UnaryOp) (h : R v w) : Answers (Named R) R (op.apply v) (op.apply w) := by
  have hkind := named h
  cases op with
  | neg =>
    cases hR.similar h with
    | int n => exact hR.arithmetic _
    | _ => exact .error hkind
  | not =>
    cases hR.similar h with
    | bool b => exact .ok (hR.bool _)
    | _ => exact .error hkind

theorem key (h : R v w) : Answers (Named R) (fun k l => k = l ∧ v.key? = some k) v.key w.key := by
  rw [Value.key, Value.key, ← (hR.similar h).key?_eq, ← (hR.similar h).kind_eq]
  split
  · next k hk => exact .ok ⟨rfl, hk⟩
  · exact .error (named h)

/-! ### Subscripts -/

theorem getD {v w : Option Value} (h : Option.Rel R v w) : R (v.getD .null) (w.getD .null) := by
  cases h with
  | none => exact hR.null
  | some h => exact h

/-- What is filed under a key that was looked up. -/
theorem elim {p q : Option (Value × Value)} (h : Option.Rel (fun p q => R p.2 q.2) p q) :
    R (p.elim .null Prod.snd) (q.elim .null Prod.snd) := by
  cases h with
  | none => exact hR.null
  | some h => exact h

omit hR in
theorem getElem? {vs ws : List Value} (h : List.Forall₂ R vs ws) (i : Nat) :
    Option.Rel R vs[i]? ws[i]? := by
  induction h generalizing i with
  | nil => exact .none
  | cons hv _ ih =>
    cases i with
    | zero => exact .some hv
    | succ i => exact ih i

omit hR in
theorem itemAt {vs ws : List Value} (h : List.Forall₂ R vs ws) (position : Int64) :
    Answers (Named R) R (itemAt vs position) (TreeWalk.itemAt ws position) := by
  have hitem : Option.Rel R (if 0 ≤ position.toInt then vs[position.toInt.toNat]? else none)
      (if 0 ≤ position.toInt then ws[position.toInt.toNat]? else none) := by
    split
    · exact getElem? h _
    · exact .none
  rw [TreeWalk.itemAt, TreeWalk.itemAt, h.length_eq]
  generalize (if 0 ≤ position.toInt then vs[position.toInt.toNat]? else none) = v at hitem
  generalize (if 0 ≤ position.toInt then ws[position.toInt.toNat]? else none) = w at hitem
  cases hitem with
  | none => exact .error (List.forall_mem_nil _)
  | some hv => exact .ok hv

/-- Related containers have related parts. -/
theorem index {c d i j : Value} (hc : R c d) (hi : R i j) :
    Answers (Named R) R (c.index i) (d.index j) := by
  have hkinds := named_pair hc hi
  cases hR.similar hc with
  | array vs ws =>
    cases hR.similar hi with
    | int n => exact itemAt (hR.items hc) n
    | _ => exact .error hkinds
  | hash es fs =>
    rw [Value.index, Value.index]
    have hkey := hR.key hi
    generalize i.key = k at hkey
    generalize j.key = l at hkey
    cases hkey with
    | error h => exact .error h
    | @ok k l h =>
      obtain ⟨rfl, -⟩ := h
      exact .ok (hR.elim ((hR.entries hc).lookup k))
  | _ => cases hR.similar hi <;> exact .error (named hc)

/-! ### Builtins -/

theorem headD {vs ws : List Value} (h : List.Forall₂ R vs ws) :
    R (vs.headD .null) (ws.headD .null) := by
  cases h with
  | nil => exact hR.null
  | cons hv _ => exact hv

theorem getLastD {vs ws : List Value} (h : List.Forall₂ R vs ws) :
    R (vs.getLastD .null) (ws.getLastD .null) := by
  rw [List.getLastD_eq_getLast?, List.getLastD_eq_getLast?, List.getLast?_eq_getElem?,
    List.getLast?_eq_getElem?, h.length_eq]
  exact hR.getD (getElem? h _)

omit hR in
theorem forall₂_tail {vs ws : List Value} (h : List.Forall₂ R vs ws) :
    List.Forall₂ R vs.tail ws.tail := by
  cases h with
  | nil => exact .nil
  | cons _ h => exact h

theorem tail {vs ws : List Value} (h : List.Forall₂ R vs ws) :
    R (Builtin.tail vs) (Builtin.tail ws) := by
  cases h with
  | nil => exact hR.null
  | cons _ h => exact hR.array h

theorem length (h : R v w) : Answers (Named R) R (Builtin.length v) (Builtin.length w) := by
  have hkind := named h
  cases hR.similar h with
  | str s => exact hR.arithmetic _
  | array vs ws =>
    rw [Builtin.length, Builtin.length, (hR.items h).length_eq]
    exact hR.arithmetic _
  | hash es fs =>
    rw [Builtin.length, Builtin.length, (hR.entries h).length_eq]
    exact hR.arithmetic _
  | _ => exact .error hkind

theorem onItems (b : Builtin) {f : List Value → Value}
    (hf : ∀ {vs ws}, List.Forall₂ R vs ws → R (f vs) (f ws)) (h : R v w) :
    Answers (Named R) R (b.onItems f v) (b.onItems f w) := by
  have hkind := named h
  cases hR.similar h with
  | array vs ws => exact .ok (hf (hR.items h))
  | _ => exact .error hkind

/-- **A builtin makes related values of related arguments.** -/
theorem builtin_value (b : Builtin) {vs ws : List Value} (h : List.Forall₂ R vs ws) :
    Answers (Named R) R (b.value vs) (b.value ws) := by
  have harg := hR.headD h
  cases b with
  | len => exact hR.length harg
  | push =>
    rw [Builtin.value, Builtin.value]
    generalize vs.headD .null = v at harg
    generalize ws.headD .null = w at harg
    have hkind := named harg
    cases hR.similar harg with
    | array => exact .ok (hR.array (List.rel_append (hR.items harg) (forall₂_tail h)))
    | _ => exact .error hkind
  | first => exact hR.onItems _ hR.headD harg
  | last => exact hR.onItems _ hR.getLastD harg
  | rest => exact hR.onItems _ hR.tail harg
  | puts => exact .ok hR.null

omit hR in
/-- The number of arguments is all that is checked. -/
theorem arity_check (b : Builtin) {vs ws : List Value} (h : List.Forall₂ R vs ws) :
    Answers (Named R) (fun _ _ => True) (b.arity.check b.name vs.length)
      (b.arity.check b.name ws.length) := by
  rw [Arity.check, Arity.check, h.length_eq]
  split
  · exact .ok trivial
  · exact .error (List.forall_mem_nil _)

/-- Related arguments are printed alike. -/
theorem lines_eq (b : Builtin) {vs ws : List Value} (h : List.Forall₂ R vs ws) :
    b.lines vs = b.lines ws := by
  cases b with
  | puts =>
    show vs.map Value.display = ws.map Value.display
    induction h with
    | nil => rfl
    | cons hv _ ih => rw [List.map_cons, List.map_cons, hR.display hv, ih]
  | _ => rfl

end Congruence

/-! ## Hereditary properties -/

/-- The values are equal and have the property. -/
def Equally (P : Value → Prop) (v w : Value) : Prop := v = w ∧ P v

/-- A property of values that the operations on values keep. -/
structure Hereditary (P : Value → Prop) : Prop where
  int : ∀ n, P (.int n)
  bool : ∀ b, P (.bool b)
  null : P .null
  builtin : ∀ b, P (.builtin b)
  append : ∀ {a b}, P (.str a) → P (.str b) → P (.str (a ++ b))
  array : ∀ {vs}, (∀ v ∈ vs, P v) → P (.array vs)
  items : ∀ {vs}, P (.array vs) → ∀ v ∈ vs, P v
  empty : P (.hash [])
  insert : ∀ {es k key v}, P (.hash es) → P k → k.key? = some key → P v →
    P (.hash (SortedMap.insert key (k, v) es))
  entries : ∀ {es}, P (.hash es) → ∀ p ∈ es, P p.2.2
  unwrap : ∀ {v}, P (.pending v) → P v

variable {P : Value → Prop}

theorem forall₂_equally {vs ws : List Value} :
    List.Forall₂ (Equally P) vs ws ↔ vs = ws ∧ ∀ v ∈ vs, P v := by
  constructor
  · intro h
    induction h with
    | nil => exact ⟨rfl, List.forall_mem_nil _⟩
    | cons hv _ ih =>
      obtain ⟨rfl, hv⟩ := hv
      obtain ⟨rfl, hvs⟩ := ih
      exact ⟨rfl, List.forall_mem_cons.2 ⟨hv, hvs⟩⟩
  · rintro ⟨rfl, h⟩
    exact List.forall₂_same.2 fun v hv => ⟨rfl, h v hv⟩

theorem filed_equally {κ : Type} {es fs : List (κ × Value)} :
    Filed (Equally P) es fs ↔ es = fs ∧ ∀ p ∈ es, P p.2 := by
  constructor
  · intro h
    induction h with
    | nil => exact ⟨rfl, List.forall_mem_nil _⟩
    | cons hv _ ih =>
      obtain ⟨rfl, hv⟩ := hv
      obtain ⟨rfl, hes⟩ := ih
      exact ⟨rfl, List.forall_mem_cons.2 ⟨hv, hes⟩⟩
  · rintro ⟨rfl, h⟩
    exact .refl fun p hp => ⟨rfl, h p hp⟩

/-- **Equal values that have a hereditary property are treated alike**, and so are their parts. -/
theorem Hereditary.congruence (hP : Hereditary P) : Congruence (Equally P) where
  similar := by
    rintro v _ ⟨rfl, -⟩
    exact .refl v
  display h := congrArg Value.display h.1
  int n := ⟨rfl, hP.int n⟩
  bool b := ⟨rfl, hP.bool b⟩
  null := ⟨rfl, hP.null⟩
  builtin b := ⟨rfl, hP.builtin b⟩
  append ha hb := ⟨rfl, hP.append ha.2 hb.2⟩
  array h := by
    obtain ⟨rfl, hvs⟩ := forall₂_equally.1 h
    exact ⟨rfl, hP.array hvs⟩
  items h := forall₂_equally.2 ⟨array.inj h.1, hP.items h.2⟩
  empty := ⟨rfl, hP.empty⟩
  insert := by
    rintro es fs k _ key v _ ⟨hes, hhash⟩ ⟨rfl, hk⟩ hkey ⟨rfl, hv⟩
    obtain rfl := hash.inj hes
    exact ⟨rfl, hP.insert hhash hk hkey hv⟩
  entries := by
    rintro es fs ⟨hes, hhash⟩
    obtain rfl := hash.inj hes
    exact .refl fun p hp => ⟨rfl, hP.entries hhash p hp⟩
  unwrap h := ⟨pending.inj h.1, hP.unwrap h.2⟩

theorem hereditary_true : Hereditary fun _ => True := by
  constructor <;> intros <;> trivial

end Value

end TreeWalk

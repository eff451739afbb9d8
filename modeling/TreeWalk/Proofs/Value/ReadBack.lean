import Mathlib.Algebra.Group.Int.Defs
import TreeWalk.Proofs.Eval.Agreement
import TreeWalk.Proofs.Eval.Tidy
import TreeWalk.Proofs.Program.Boundaries

/-!
# Displayed data can be read back

**The text of an array or a hash that a program has made is a program for it**: interpreted, it
gives a value that is shown alike, and an equal one if no function is in it (`display_readsBack`).
All that has to be ruled out is what has no literal: builtins, `null` and the smallest integer.

A value is followed through all stages at once.  `ReadsBack v ps e` says that the text of `v`
consists of the pieces `ps`, that these stay apart in the text, that their tokens derive the
expression `e`, and that `e` has the value `v` again, but for the functions, which are made anew.
Values are composed of smaller ones, and so is what is known of them.

Strings are shown in quotes with nothing escaped, hashes by the values that their keys were made
from, in the order of the keys, and functions by their literals.  This can be read back since values
are tidy: no string holds a quote, keys increase and belong to the values that stand for them, and
literals are well-formed.
-/

set_option autoImplicit false

namespace TreeWalk

open Token (Joined Kind Piece isSpace isWordChar number)
open Grammar (Derives MoreItems MoreEntries)
open BigStep (RunsExpr RunsItems RunsEntries)

/-! ## Sorted entries -/

namespace SortedMap

variable {α β : Type} [Ord α] [Std.TransOrd α]

/-- A key behind all others is filed at the end. -/
theorem insert_of_forall_lt {key : α} {value : β} {m : List (α × β)}
    (h : ∀ p ∈ m, compare p.1 key = .lt) : insert key value m = m ++ [(key, value)] := by
  induction m with
  | nil => rfl
  | cons p m ih =>
    obtain ⟨hp, hm⟩ := List.forall_mem_cons.1 h
    rw [insert, Std.OrientedCmp.gt_of_lt hp, List.cons_append]
    exact congrArg (p :: ·) (ih hm)

/-- A sorted list is the map of its entries. -/
theorem Sorted.ofList_eq {l : List (α × β)} (h : Sorted l) : ofList l = l := by
  -- The map is built from the left, so the induction is about what is filed already.
  suffices hfold : ∀ m, Sorted (m ++ l) →
      l.foldl (fun m p => SortedMap.insert p.1 p.2 m) m = m ++ l from hfold [] h
  clear h
  induction l with
  | nil =>
    intro m _
    exact (List.append_nil m).symm
  | cons p l ih =>
    intro m hm
    have hlast : ∀ q ∈ m, compare q.1 p.1 = .lt := fun q hq =>
      (List.pairwise_append.1 hm).2.2 q hq p List.mem_cons_self
    have happend : m ++ p :: l = m ++ [p] ++ l := by simp
    rw [happend] at hm ⊢
    rw [List.foldl_cons, insert_of_forall_lt hlast]
    exact ih _ hm

end SortedMap

/-- Entries under the same keys are in the same order. -/
theorem Filed.sorted {β : Type} {R : β → β → Prop} {es fs : List (Key × β)} (h : Filed R es fs)
    (hfs : SortedMap.Sorted fs) : SortedMap.Sorted es := by
  have hkeys : es.map Prod.fst = fs.map Prod.fst := by
    induction h with
    | nil => rfl
    | cons _ _ ih => exact congrArg (_ :: ·) (ih (List.Pairwise.of_cons hfs))
  have hsorted : (fs.map Prod.fst).Pairwise fun k l => compare k l = .lt :=
    List.pairwise_map.2 hfs
  rw [← hkeys] at hsorted
  exact List.pairwise_map.1 hsorted

/-! ## Values with a literal -/

/-- The value holds, at every depth, only integers other than the smallest one, truth values,
strings, functions, arrays and hashes. -/
inductive Value.Plain : Value → Prop
  | int {n : Int64} (h : n.toInt ≠ -2 ^ 63) : Plain (.int n)
  | bool (b : Bool) : Plain (.bool b)
  | str (s : String) : Plain (.str s)
  | closure (c : Closure) : Plain (.closure c)
  | array {items : List Value} (h : ∀ v ∈ items, Plain v) : Plain (.array items)
  | hash {entries : List (Key × Value × Value)} (hkeys : ∀ p ∈ entries, Plain p.2.1)
      (h : ∀ p ∈ entries, Plain p.2.2) : Plain (.hash entries)

/-- The first value is the second one, but for its functions, which were made in the scope. -/
def Remade (scope : Nat) (w v : Value) : Prop :=
  ∀ ρ : Renaming, (∀ c ∈ v.closures, ρ scope c.scope) → w.Renamed ρ v

/-- The value is shown as the pieces, which stand for the expression, whose value it is. -/
structure ReadsBack (v : Value) (ps : List Piece) (e : Expr) : Prop where
  text : (v.write true).toList = ps.flatMap Piece.chars
  opening : ∀ rest, Piece.FirstNot isSpace ((ps ++ rest).flatMap Piece.chars)
  joined : ∀ {rest}, Follows rest → Joined (ps ++ rest)
  derives : ∀ line, Derives .equality (number line ps) e
  runs : ∀ scope s, ∃ w t, RunsExpr scope s e (.normal w) t [] ∧ Remade scope w v

/-- The values are shown as the pieces, with a comma before each. -/
structure ItemsReadBack (vs : List Value) (ps : List Piece) (es : List Expr) : Prop where
  text : (Value.writeMoreItems vs).toList = ps.flatMap Piece.chars
  follows : ∀ {rest}, Follows rest → Follows (ps ++ rest)
  derives : ∀ line, MoreItems (number line ps) es
  runs : ∀ scope s, ∃ ws t, RunsItems scope s es (.normal ws) t [] ∧
    ∀ ρ : Renaming, (∀ c ∈ Value.itemClosures vs, ρ scope c.scope) →
      List.Forall₂ (Value.Renamed ρ) ws vs

/-- The entries are shown as the pieces, with a comma before each. -/
structure EntriesReadBack (entries : List (Key × Value × Value)) (ps : List Piece)
    (es : List (Expr × Expr)) : Prop where
  text : (Value.writeMoreEntries entries).toList = ps.flatMap Piece.chars
  follows : ∀ {rest}, Follows rest → Follows (ps ++ rest)
  derives : ∀ line, MoreEntries (number line ps) es
  runs : ∀ scope s, ∃ ws t, RunsEntries scope s es (.normal ws) t [] ∧
    ∀ ρ : Renaming, (∀ c ∈ Value.entryClosures entries, ρ scope c.scope) →
      Value.RenamedEntries ρ ws entries

/-! ## Atoms and functions -/

/-- A value that is shown as the canonical text of an expression. -/
theorem readsBack_canonical {v : Value} {e : Expr} (he : e.WellFormed)
    (htext : v.write true = e.render)
    (hruns : ∀ scope s, ∃ w t, RunsExpr scope s e (.normal w) t [] ∧ Remade scope w v) :
    ReadsBack v e.pieces e where
  text := by rw [htext, Expr.render, Piece.written, String.toList_ofList]
  opening := e.firstNot (fun _ => isSpace_of_isOpening) he
  joined := e.joined he
  derives line := derives_equality (e.derives he line)
  runs := hruns

theorem readsBack_nonneg {n : Int64} (h : 0 ≤ n.toInt) :
    ReadsBack (.int n) (Expr.int n).pieces (.int n) := by
  have hle : n.toInt ≤ 2 ^ 63 - 1 := by
    have := n.toInt_lt
    omega
  refine readsBack_canonical ⟨h, hle⟩ ?_ fun scope s => ⟨_, s, .int n, fun ρ _ => .int n⟩
  rw [Value.write, Expr.render, Expr.pieces, Piece.written]
  simp [Piece.chars]

theorem toList_toString_of_neg {n : Int} (h : n < 0) :
    (toString n).toList = '-' :: (toString (-n)).toList := by
  have hpos : 0 ≤ -n := by omega
  rw [toList_toString_of_nonneg hpos, Int.toString_eq_repr, Int.repr_eq_if,
    if_neg (Int.not_le.2 h)]
  simp [Nat.toList_repr]

/-- A negative integer is shown as the opposite one behind a minus. -/
theorem readsBack_neg {n : Int64} (h : n.toInt < 0) (hmin : n.toInt ≠ -2 ^ 63) :
    ∃ ps e, ReadsBack (.int n) ps e := by
  have hrange : Checked.InRange (-n.toInt) := by
    have := n.le_toInt
    have := n.toInt_lt
    exact ⟨by omega, by omega⟩
  obtain ⟨m, hm⟩ : ∃ m, Checked.fit? (-n.toInt) = some m :=
    ⟨_, Checked.fit?_of_inRange hrange⟩
  have hopposite : m.toInt = -n.toInt := Checked.toInt_of_fit? hm
  have hpos : 0 ≤ m.toInt := by omega
  have habs := readsBack_nonneg hpos
  refine ⟨.mark .minus :: (Expr.int m).pieces, .unary .neg (.int m), ?_, ?_, ?_, ?_, ?_⟩
  · show (toString n.toInt).toList = _
    rw [toList_toString_of_neg h, ← hopposite, List.flatMap_cons, ← habs.text]
    rfl
  · exact fun rest => Piece.firstNot_cons rfl rfl _
  · intro rest hrest
    exact Token.joined_firm (by decide) (habs.joined hrest)
  · intro line
    have hnumber : Expr.WellFormed (.int m) := ⟨hpos, by have := m.toInt_lt; omega⟩
    exact derives_unary rfl ((Expr.int m).derives hnumber _)
  · intro scope s
    have hneg : UnaryOp.neg.apply (.int m) = .ok (.int n) := by
      rw [UnaryOp.apply, Checked.neg?, hopposite, Int.neg_neg, Checked.fit?_toInt]
      rfl
    have hrun : RunsExpr scope s (.unary .neg (.int m))
        (.ofExcept (UnaryOp.neg.apply (.int m))) s [] := .unary (.int m)
    rw [hneg] at hrun
    exact ⟨_, s, hrun, fun ρ _ => .int n⟩

theorem readsBack_int {n : Int64} (hmin : n.toInt ≠ -2 ^ 63) : ∃ ps e, ReadsBack (.int n) ps e := by
  by_cases hn : 0 ≤ n.toInt
  · exact ⟨_, _, readsBack_nonneg hn⟩
  · exact readsBack_neg (Int.not_le.1 hn) hmin

theorem readsBack_bool (b : Bool) : ReadsBack (.bool b) (Expr.bool b).pieces (.bool b) := by
  refine readsBack_canonical trivial ?_ fun scope s => ⟨_, s, .bool b, fun ρ _ => .bool b⟩
  cases b <;> rfl

theorem readsBack_str {text : String} (h : '"' ∉ text.toList) :
    ReadsBack (.str text) (Expr.str text).pieces (.str text) := by
  refine readsBack_canonical h ?_ fun scope s => ⟨_, s, .str text, fun ρ _ => .str text⟩
  rw [Value.write, Expr.render, Expr.pieces, Piece.written]
  simp [Piece.chars, ← String.toList_inj]

theorem readsBack_closure {c : Closure} (h : c.lambda.toExpr.WellFormed) :
    ReadsBack (.closure c) c.lambda.toExpr.pieces c.lambda.toExpr := by
  refine readsBack_canonical h rfl fun scope s => ⟨_, _, .func c.lambda.params c.lambda.body, ?_⟩
  intro ρ hρ
  exact .closure rfl (hρ c (List.mem_singleton.2 rfl))

/-! ## Items -/

theorem itemsReadBack_nil : ItemsReadBack [] [] [] where
  text := rfl
  follows h := h
  derives _ := .nil
  runs _ s := ⟨[], s, .nil, fun _ _ => .nil⟩

theorem toList_append_comma (text more : String) :
    (", " ++ text ++ more).toList =
      commaPieces.flatMap Piece.chars ++ (text.toList ++ more.toList) := by
  simp [commaPieces, Piece.mark, Piece.space, Piece.chars, Kind.text]

section Compose

variable {v : Value} {ps qs : List Piece} {e : Expr}

theorem ReadsBack.joined_space (hv : ReadsBack v ps e) {rest : List Piece} (hrest : Follows rest) :
    Joined (.space :: (ps ++ rest)) :=
  Token.joined_space (hv.opening rest) (hv.joined hrest)

/-- Items are evaluated one after the other. -/
theorem ReadsBack.runs_items (hv : ReadsBack v ps e) {vs : List Value} {es : List Expr}
    (hvs : ItemsReadBack vs qs es) (scope : Nat) (s : Store) :
    ∃ ws t, RunsItems scope s (e :: es) (.normal ws) t [] ∧
      ∀ ρ : Renaming, (∀ c ∈ Value.itemClosures (v :: vs), ρ scope c.scope) →
        List.Forall₂ (Value.Renamed ρ) ws (v :: vs) := by
  obtain ⟨w, t, hrun, hw⟩ := hv.runs scope s
  obtain ⟨ws, u, hruns, hws⟩ := hvs.runs scope t
  refine ⟨w :: ws, u, .cons hrun hruns, fun ρ hρ => .cons (hw ρ ?_) (hws ρ ?_)⟩
  · exact fun c hc => hρ c (List.mem_append_left _ hc)
  · exact fun c hc => hρ c (List.mem_append_right _ hc)

theorem ItemsReadBack.cons (hv : ReadsBack v ps e) {vs : List Value} {es : List Expr}
    (hvs : ItemsReadBack vs qs es) :
    ItemsReadBack (v :: vs) (commaPieces ++ ps ++ qs) (e :: es) where
  text := by
    rw [Value.writeMoreItems, toList_append_comma, hv.text, hvs.text, List.flatMap_append,
      List.flatMap_append, List.append_assoc]
  follows hrest := by
    rw [List.append_assoc, List.append_assoc]
    exact follows_firm (by decide) (hv.joined_space (hvs.follows hrest))
  derives line := by
    rw [Token.number_append, Token.number_append]
    exact .cons rfl (hv.derives _) (hvs.derives _)
  runs := hv.runs_items hvs

/-- An array of values that read back. -/
theorem readsBack_array (hv : ReadsBack v ps e) {vs : List Value} {es : List Expr}
    (hvs : ItemsReadBack vs qs es) :
    ReadsBack (.array (v :: vs)) (.mark .lbracket :: (ps ++ qs ++ [.mark .rbracket]))
      (.array (e :: es)) where
  text := by
    rw [Value.write, Value.writeItems, List.flatMap_cons, List.flatMap_append,
      List.flatMap_append, ← hv.text, ← hvs.text]
    simp [Piece.mark, Piece.chars, Kind.text]
  opening _ := Piece.firstNot_cons rfl rfl _
  joined hrest := by
    have hclose := follows_firm (k := .rbracket) (by decide) hrest.joined
    rw [List.cons_append, List.append_assoc, List.append_assoc]
    exact Token.joined_firm (by decide) (hv.joined (hvs.follows hclose))
  derives line := by
    rw [number_mark, Token.number_append, Token.number_append]
    exact derives_equality (.array rfl (.cons (hv.derives _) (hvs.derives _)) rfl)
  runs scope s := by
    obtain ⟨ws, t, hruns, hws⟩ := hv.runs_items hvs scope s
    exact ⟨.array ws, t, .array hruns, fun ρ hρ => .array (hws ρ hρ)⟩

/-! ## Entries -/

theorem entriesReadBack_nil : EntriesReadBack [] [] [] where
  text := rfl
  follows h := h
  derives _ := .nil
  runs _ s := ⟨[], s, .nil, fun _ _ => .nil⟩

/-- The pieces of a key and those of a value, with a colon between them. -/
def entryPieces (ks ps : List Piece) : List Piece := ks ++ .mark .colon :: .space :: ps

theorem number_entryPieces (line : Nat) (ks ps : List Piece) :
    ∃ line' line'', number line (entryPieces ks ps) =
      number line ks ++ ⟨.colon, Kind.text .colon, line'⟩ :: number line'' ps :=
  ⟨_, _, Token.number_append line ks _⟩

variable {k : Value} {ks : List Piece} {ek : Expr} (hk : ReadsBack k ks ek)
  (hv : ReadsBack v ps e) {entries : List (Key × Value × Value)} {es : List (Expr × Expr)}
  (hentries : EntriesReadBack entries qs es) {label : Key} (hlabel : k.key? = some label)

include hk hv

/-- The text of an entry. -/
theorem toList_entry :
    (k.write true ++ ": " ++ v.write true).toList = (entryPieces ks ps).flatMap Piece.chars := by
  rw [entryPieces, List.flatMap_append, List.flatMap_cons, List.flatMap_cons, ← hk.text,
    ← hv.text]
  simp [Piece.mark, Piece.space, Piece.chars, Kind.text]

/-- The text of an entry begins as its key does. -/
theorem joined_entry {rest : List Piece} (hrest : Follows rest) :
    Piece.FirstNot isSpace ((entryPieces ks ps ++ rest).flatMap Piece.chars) ∧
      Joined (entryPieces ks ps ++ rest) := by
  rw [entryPieces, List.append_assoc]
  exact ⟨hk.opening _, hk.joined (follows_firm (by decide) (hv.joined_space hrest))⟩

include hentries hlabel

/-- Entries are evaluated one after the other, and the value of a key is filed as it was. -/
theorem runs_entries (scope : Nat) (s : Store) :
    ∃ ws t, RunsEntries scope s ((ek, e) :: es) (.normal ws) t [] ∧
      ∀ ρ : Renaming, (∀ c ∈ Value.entryClosures ((label, k, v) :: entries), ρ scope c.scope) →
        Value.RenamedEntries ρ ws ((label, k, v) :: entries) := by
  obtain ⟨w, t, hrunKey, hw⟩ := hk.runs scope s
  obtain ⟨w', u, hrun, hw'⟩ := hv.runs scope t
  obtain ⟨ws, u', hruns, hws⟩ := hentries.runs scope u
  have hkey : w.key? = some label := by
    have hsame : w.Renamed (fun _ _ => True) k := hw _ fun _ _ => trivial
    rw [hsame.key?_eq, hlabel]
  refine ⟨(label, w, w') :: ws, u', .cons hrunKey hkey hrun hruns, fun ρ hρ => ?_⟩
  obtain ⟨hkeyScopes, hρ⟩ := List.forall_mem_append.1 hρ
  obtain ⟨hscopes, hmore⟩ := List.forall_mem_append.1 hρ
  exact .cons (.intro (hw ρ hkeyScopes) (hw' ρ hscopes)) (hws ρ hmore)

theorem EntriesReadBack.cons : EntriesReadBack ((label, k, v) :: entries)
    (commaPieces ++ entryPieces ks ps ++ qs) ((ek, e) :: es) where
  text := by
    rw [List.flatMap_append, List.flatMap_append, ← toList_entry hk hv, ← hentries.text,
      List.append_assoc, ← toList_append_comma, Value.writeMoreEntries]
    simp only [String.append_assoc]
  follows hrest := by
    obtain ⟨hopening, hjoined⟩ := joined_entry hk hv (hentries.follows hrest)
    rw [List.append_assoc, List.append_assoc]
    exact follows_firm (by decide) (Token.joined_space hopening hjoined)
  derives line := by
    rw [Token.number_append, Token.number_append]
    obtain ⟨_, _, hentry⟩ := number_entryPieces (Token.lineAfter line commaPieces) ks ps
    rw [hentry, ← List.append_assoc]
    exact .cons rfl (hk.derives _) rfl (hv.derives _) (hentries.derives _)
  runs := runs_entries hk hv hentries hlabel

/-- A hash of entries that read back, in the order of their keys. -/
theorem readsBack_hash (hsorted : SortedMap.Sorted ((label, k, v) :: entries)) :
    ReadsBack (.hash ((label, k, v) :: entries))
      (.mark .lbrace :: (entryPieces ks ps ++ qs ++ [.mark .rbrace]))
      (.hash ((ek, e) :: es)) where
  text := by
    rw [Value.write, Value.writeEntries, List.flatMap_cons, List.flatMap_append,
      List.flatMap_append, ← toList_entry hk hv, ← hentries.text]
    simp [Piece.mark, Piece.chars, Kind.text]
  opening _ := Piece.firstNot_cons rfl rfl _
  joined hrest := by
    have hclose := follows_firm (k := .rbrace) (by decide) hrest.joined
    rw [List.cons_append, List.append_assoc, List.append_assoc]
    exact Token.joined_firm (by decide) (joined_entry hk hv (hentries.follows hclose)).2
  derives line := by
    rw [number_mark, Token.number_append, Token.number_append]
    obtain ⟨_, _, hentry⟩ := number_entryPieces (line + (Piece.mark .lbrace).newlines) ks ps
    rw [hentry]
    exact derives_equality
      (.hash rfl (.cons (hk.derives _) rfl (hv.derives _) (hentries.derives _)) rfl)
  runs scope s := by
    obtain ⟨ws, t, hruns, hws⟩ := runs_entries hk hv hentries hlabel scope s
    have hmap : SortedMap.ofList ws = ws :=
      ((hws (fun _ _ => True) fun _ _ => trivial).sorted hsorted).ofList_eq
    refine ⟨.hash ws, t, ?_, fun ρ hρ => .hash (hws ρ hρ)⟩
    have hhash := RunsExpr.hash hruns
    rwa [BigStep.Ending.map, hmap] at hhash

end Compose

/-! ## All values -/

mutual

/-- **Every tidy value that has a literal reads back.** -/
theorem Value.readsBack : (v : Value) → v.Plain → v.Tidy → ∃ ps e, ReadsBack v ps e
  | .int _, .int hmin, _ => readsBack_int hmin
  | .bool b, _, _ => ⟨_, _, readsBack_bool b⟩
  | .str _, _, .str h => ⟨_, _, readsBack_str h⟩
  | .closure _, _, .closure h => ⟨_, _, readsBack_closure h⟩
  | .array [], _, _ => ⟨_, _, readsBack_canonical (e := .array []) trivial rfl fun scope s =>
      ⟨_, s, .array .nil, fun ρ _ => .array .nil⟩⟩
  | .array (v :: vs), .array hplain, .array htidy => by
    obtain ⟨hplain, hplains⟩ := List.forall_mem_cons.1 hplain
    obtain ⟨htidy, htidies⟩ := List.forall_mem_cons.1 htidy
    obtain ⟨ps, e, hv⟩ := v.readsBack hplain htidy
    obtain ⟨qs, es, hvs⟩ := Value.itemsReadBack vs hplains htidies
    exact ⟨_, _, readsBack_array hv hvs⟩
  | .hash [], _, _ => ⟨_, _, readsBack_canonical (e := .hash []) trivial rfl fun scope s =>
      ⟨_, s, .hash .nil, fun ρ _ => .hash .nil⟩⟩
  | .hash ((label, k, v) :: entries), .hash hkeys hplain,
      .hash hsorted hlabels htidyKeys htidy => by
    obtain ⟨hkey, hkeys⟩ := List.forall_mem_cons.1 hkeys
    obtain ⟨hplain, hplains⟩ := List.forall_mem_cons.1 hplain
    obtain ⟨hlabel, hlabels⟩ := List.forall_mem_cons.1 hlabels
    obtain ⟨htidyKey, htidyKeys⟩ := List.forall_mem_cons.1 htidyKeys
    obtain ⟨htidy, htidies⟩ := List.forall_mem_cons.1 htidy
    obtain ⟨ks, ek, hk⟩ := k.readsBack hkey htidyKey
    obtain ⟨ps, e, hv⟩ := v.readsBack hplain htidy
    obtain ⟨qs, es, hentries⟩ :=
      Value.entriesReadBack entries hkeys hplains hlabels htidyKeys htidies
    exact ⟨_, _, readsBack_hash hk hv hentries hlabel hsorted⟩

theorem Value.itemsReadBack : (vs : List Value) → (∀ v ∈ vs, v.Plain) → (∀ v ∈ vs, v.Tidy) →
    ∃ ps es, ItemsReadBack vs ps es
  | [], _, _ => ⟨_, _, itemsReadBack_nil⟩
  | v :: vs, hplain, htidy => by
    obtain ⟨hplain, hplains⟩ := List.forall_mem_cons.1 hplain
    obtain ⟨htidy, htidies⟩ := List.forall_mem_cons.1 htidy
    obtain ⟨ps, e, hv⟩ := v.readsBack hplain htidy
    obtain ⟨qs, es, hvs⟩ := Value.itemsReadBack vs hplains htidies
    exact ⟨_, _, hvs.cons hv⟩

theorem Value.entriesReadBack : (entries : List (Key × Value × Value)) →
    (∀ p ∈ entries, p.2.1.Plain) → (∀ p ∈ entries, p.2.2.Plain) →
    (∀ p ∈ entries, p.2.1.key? = some p.1) → (∀ p ∈ entries, p.2.1.Tidy) →
    (∀ p ∈ entries, p.2.2.Tidy) → ∃ ps es, EntriesReadBack entries ps es
  | [], _, _, _, _, _ => ⟨_, _, entriesReadBack_nil⟩
  | (label, k, v) :: entries, hkeys, hplain, hlabels, htidyKeys, htidy => by
    obtain ⟨hkey, hkeys⟩ := List.forall_mem_cons.1 hkeys
    obtain ⟨hplain, hplains⟩ := List.forall_mem_cons.1 hplain
    obtain ⟨hlabel, hlabels⟩ := List.forall_mem_cons.1 hlabels
    obtain ⟨htidyKey, htidyKeys⟩ := List.forall_mem_cons.1 htidyKeys
    obtain ⟨htidy, htidies⟩ := List.forall_mem_cons.1 htidy
    obtain ⟨ks, ek, hk⟩ := k.readsBack hkey htidyKey
    obtain ⟨ps, e, hv⟩ := v.readsBack hplain htidy
    obtain ⟨qs, es, hentries⟩ :=
      Value.entriesReadBack entries hkeys hplains hlabels htidyKeys htidies
    exact ⟨_, _, hentries.cons hk hv hlabel⟩

end

/-! ## Programs -/

/-- Nothing follows an expression that stands alone. -/
theorem follows_nil : Follows [] where
  joined := trivial
  stop := by simp [Piece.FirstNot]

/-- The text of a value, as a program, is its expression. -/
theorem ReadsBack.parse {v : Value} {ps : List Piece} {e : Expr} (h : ReadsBack v ps e) :
    Program.parse (v.write true) = .ok [.expr e] := by
  have hjoined : Joined ps := by
    simpa using h.joined follows_nil
  have htokens : (Token.Stream.ofSource (v.write true)).tokens = number 1 ps := by
    rw [Token.Stream.ofSource, h.text, Token.pieces_flatMap hjoined]
    rfl
  rw [Grammar.parse_eq_ok_iff, htokens]
  exact statements_single (h.derives 1)

theorem settled_global : Store.global.Settled := Store.Holds.global

/-- What the semantics says of an expression, the evaluation of the program does. -/
theorem exists_eval_of_runsExpr {e : Expr} {w : Value} {t : Store} {out : List String}
    (h : RunsExpr 0 .global e (.normal w) t out) :
    ∃ fuel, Program.eval fuel 0 [.expr e] .global = ⟨.done w, t, out⟩ := by
  have hblock : BigStep.RunsBlock 0 .global [.expr e] (.normal w) t out := .last (.expr h)
  obtain ⟨fuel, hends⟩ := (hblock.complete settled_global).exists
  have hsettle := (BigStep.ends_settle (block_tracks fuel 0 _) settled_global).2
    ⟨_, hends, rfl⟩
  exact ⟨fuel, (BigStep.ends_ofExcept_iff (Program.eval_tracks fuel 0 _) settled_global).1 hsettle⟩

theorem Remade.display_eq {scope : Nat} {w v : Value} (h : Remade scope w v) :
    w.display = v.display :=
  (h (fun _ _ => True) fun _ _ => trivial).display_eq

/-- A value without functions is made anew as an equal one. -/
theorem Remade.beq {scope : Nat} {w v : Value} (h : Remade scope w v) (hv : v.closures = []) :
    (w == v) = true := by
  have hrenamed : w.Renamed (fun _ _ => False) v := by
    refine h _ fun c hc => ?_
    rw [hv] at hc
    cases hc
  have hw : w.closures = [] := by
    refine List.eq_nil_iff_forall_not_mem.2 fun c hc => ?_
    obtain ⟨j, hj⟩ := hrenamed.exists_scope c hc
    exact hj
  exact hrenamed.same hw

/-- **Displayed data can be read back.**  If a program has an array or a hash as its value, and all
values in it, at every depth, are integers other than the smallest one, truth values, strings,
functions, arrays and hashes, then its text is a program that ends with a value of the same text,
and prints nothing.  If no function is in it, the two values are equal. -/
theorem display_readsBack {fuel : Nat} {source : String} {v : Value}
    (h : (interpret fuel source).outcome = .done v) (hkind : v.kind = .array ∨ v.kind = .hash)
    (hplain : v.Plain) :
    ∃ w s, EndsWith v.display ⟨.done w, s, []⟩ ∧ w.display = v.display ∧
      (v.closures = [] → (w == v) = true) := by
  obtain ⟨ps, e, hback⟩ := v.readsBack hplain (tidy_of_interpret h)
  -- Only the text of a string depends on where it is shown.
  have hdisplay : v.display = v.write true := by
    cases hplain with
    | array | hash => rfl
    | int | bool | str | closure => rcases hkind with hkind | hkind <;> cases hkind
  obtain ⟨w, t, hruns, hremade⟩ := hback.runs 0 .global
  obtain ⟨n, heval⟩ := exists_eval_of_runsExpr hruns
  have hparse : Program.parse v.display = .ok [.expr e] := by
    rw [hdisplay]
    exact hback.parse
  exact ⟨w, t, endsWith_of_eval hparse heval (by simp), hremade.display_eq, hremade.beq⟩

/-- An array of a function and a hash with a negative key. -/
theorem display_readsBack_negative :
    ∃ (source : String) (v : Value),
      source = "[func() \x7b1\x7d, \x7b-1: \"a b\"\x7d]" ∧
      (interpret 4 source).outcome = .done v ∧ v.kind = .array ∧ v.Plain ∧
      ∃ w s, EndsWith v.display ⟨.done w, s, []⟩ ∧ w.display = v.display := by
  have hparse : Program.parse "[func() \x7b1\x7d, \x7b-1: \"a b\"\x7d]" =
      .ok [.expr (.array [.func [] [.expr (.int 1)],
        .hash [(.unary .neg (.int 1), .str "a b")]])] := by
    with_unfolding_all rfl
  have h : (interpret 4 "[func() \x7b1\x7d, \x7b-1: \"a b\"\x7d]").outcome =
      .done (.array [.closure ⟨0, ⟨[], [.expr (.int 1)]⟩, 0⟩,
        .hash [(.int (-1), .int (-1), .str "a b")]]) := by
    rw [interpret_eq hparse]
    with_unfolding_all rfl
  have hplain : Value.Plain (.array [.closure ⟨0, ⟨[], [.expr (.int 1)]⟩, 0⟩,
      .hash [(.int (-1), .int (-1), .str "a b")]]) := by
    refine .array (List.forall_mem_cons.2 ⟨.closure _, List.forall_mem_singleton.2 ?_⟩)
    refine .hash (List.forall_mem_singleton.2 (.int (by decide)))
      (List.forall_mem_singleton.2 (.str _))
  obtain ⟨w, s, hends, hdisplay, -⟩ := display_readsBack h (.inl rfl) hplain
  exact ⟨_, _, rfl, h, rfl, hplain, w, s, hends, hdisplay⟩

end TreeWalk

import TreeWalk.Proofs.Eval.Fuel
import TreeWalk.Interpreter
import TreeWalk.Program.Equality
import TreeWalk.Proofs.Eval.LocalWrites
import TreeWalk.Proofs.Eval.Renaming

/-!
# Separate global scopes

A user of the library may have several global scopes, which live in one store, and run source texts
in them by turns.  **The runs in one of them do not notice the others** (`course_filter`): their
answers are the ones that they have when nothing else is run, from the empty store on.

With the others left out, the scopes and functions of the store have other numbers.  So the two
courses are kept together by a renaming, which relates all that belongs to the global scope in
question (`Mirrors`).  It relates no other global scope to anything.  A run in one of these binds
names in that scope alone and in scopes that it opens itself, and so leaves what is related as it
was; a run in the scope in question cannot tell the two stores apart.
-/

set_option autoImplicit false

namespace TreeWalk

/-! ## Answers -/

/-- What the user sees of a run: the error, or the kind of the value and its text, and the lines
that were printed. -/
structure Answer where
  value : Except Error (Value.Kind × String)
  output : List String

/-- The answer that a result gives, unless the bound on the depth was reached. -/
def Result.answer? (r : Result Error Value) : Option Answer :=
  match r.outcome with
  | .done v => some ⟨.ok (v.kind, v.display), r.output⟩
  | .failed e => some ⟨.error e, r.output⟩
  | .outOfFuel => none

/-- Results that agree up to a renaming of scopes give the same answer. -/
theorem Result.Renamed.answer?_eq {ρ : Renaming} {r r' : Result RuntimeError Value}
    (h : r.Renamed Value.Renamed ρ r') :
    (r.mapError Error.runtime).answer? = (r'.mapError Error.runtime).answer? := by
  obtain ⟨o, u, lines⟩ := r
  obtain ⟨o', u', lines'⟩ := r'
  obtain ⟨-, rfl, houtcome⟩ := h
  cases houtcome with
  | @done v w hv =>
    show some (Answer.mk (.ok (v.kind, v.display)) lines) = some ⟨.ok (w.kind, w.display), lines⟩
    rw [hv.kind_eq, hv.display_eq]
  | failed e => rfl
  | outOfFuel => rfl

/-- A larger bound changes no result of a run that came to an end. -/
theorem run_eq_of_le {m n : Nat} (hle : m ≤ n) {source : String} {scope : Nat} {s : Store}
    {a : Answer} (h : (run m source scope s).answer? = some a) :
    run n source scope s = run m source scope s := by
  rw [run] at h
  rw [run, run]
  cases hp : Program.parse source with
  | error e => rfl
  | ok p =>
    rw [hp] at h
    obtain hout | heq := p.eval_agrees hle scope s
    · simp [Result.mapError, hout, Outcome.mapError, Result.answer?] at h
    · simp only [heq]

/-- All bounds at which a run comes to an end give one result. -/
theorem run_unique {m n : Nat} {source : String} {scope : Nat} {s : Store} {a b : Answer}
    (ha : (run m source scope s).answer? = some a)
    (hb : (run n source scope s).answer? = some b) :
    run m source scope s = run n source scope s := by
  obtain hle | hle := Nat.le_total m n
  · exact (run_eq_of_le hle ha).symm
  · exact run_eq_of_le hle hb

/-! ## Taking turns -/

/-- One step of a user who has global scopes that go by labels. -/
inductive Turn (ι : Type)
  /-- A new global scope gets the label. -/
  | openGlobal (env : ι)
  /-- The source text is run in the scope with the label. -/
  | run (env : ι) (source : String)

/-- The label of the scope that a turn is about. -/
def Turn.env {ι : Type} : Turn ι → ι
  | openGlobal env => env
  | run env _ => env

/-- The store, and the global scopes that are open, by their labels. -/
structure Host (ι : Type) where
  store : Store
  scope? : ι → Option Nat

/-- Nothing is open yet. -/
def Host.start {ι : Type} : Host ι := ⟨.empty, fun _ => none⟩

variable {ι : Type} [DecidableEq ι]

/-- Opens a global scope and gives it the label. -/
def Host.openGlobal (h : Host ι) (env : ι) : Host ι :=
  ⟨h.store.openGlobal.2, fun e => if e = env then some h.store.openGlobal.1 else h.scope? e⟩

/-- The turns can be taken one after the other, every run among them comes to an end, and these are
the answers, each with the label of the scope. -/
inductive Course : Host ι → List (Turn ι) → List (ι × Answer) → Prop
  | nil (host : Host ι) : Course host [] []
  | openGlobal {host : Host ι} {env : ι} {turns : List (Turn ι)} {answers : List (ι × Answer)}
      (h : Course (host.openGlobal env) turns answers) :
      Course host (.openGlobal env :: turns) answers
  | run {host : Host ι} {env : ι} {scope fuel : Nat} {source : String} {answer : Answer}
      {turns : List (Turn ι)} {answers : List (ι × Answer)} (hscope : host.scope? env = some scope)
      (hends : (run fuel source scope host.store).answer? = some answer)
      (h : Course ⟨(TreeWalk.run fuel source scope host.store).store, host.scope?⟩ turns answers) :
      Course host (.run env source :: turns) ((env, answer) :: answers)

/-- The answers are settled by the turns. -/
theorem Course.unique {host : Host ι} {turns : List (Turn ι)} {answers answers' : List (ι × Answer)}
    (h : Course host turns answers) (h' : Course host turns answers') : answers = answers' := by
  induction h generalizing answers' with
  | nil host =>
    cases h'
    rfl
  | openGlobal _ ih =>
    cases h' with
    | openGlobal h' => exact ih h'
  | run hscope hends _ ih =>
    cases h' with
    | run hscope' hends' h' =>
      rw [hscope, Option.some_inj] at hscope'
      subst hscope'
      have heq := run_unique hends hends'
      rw [← heq] at hends' h'
      rw [hends, Option.some_inj] at hends'
      rw [hends', ih h']

/-! ## Runs and a renaming -/

/-- A store may change wherever the renaming relates nothing. -/
theorem Store.Renamed.change_left {ρ : Renaming} {s s' t : Store} (h : s.Renamed ρ t)
    (hsame : ∀ i j, ρ i j → s'.frames[i]? = s.frames[i]?) : s'.Renamed ρ t := by
  refine ⟨fun {i j} hij => ?_, h.right_unique, h.left_unique⟩
  rw [hsame i j hij]
  exact h.frames hij

/-- A scope in which nothing is bound stays as it was. -/
theorem Store.Rebinds.frame_eq {scope : Nat} {names : List String} {s t : Store}
    (h : s.Rebinds scope names t) {i : Nat} (hi : i < s.frames.size) (hne : i ≠ scope) :
    t.frames[i]? = s.frames[i]? := by
  have hf : s.frames[i]? = some s.frames[i] := Array.getElem?_eq_getElem hi
  obtain ⟨g, hg, hother, -⟩ := h i _ hf
  rw [hg, hf, hother hne]

/-- A run binds names in its own scope only. -/
theorem run_rebinds (fuel : Nat) (source : String) (scope : Nat) (s : Store) :
    ∃ names, s.Rebinds scope names (run fuel source scope s).store := by
  rw [run]
  cases Program.parse source with
  | error e => exact ⟨[], (Store.Grows.refl s).rebinds scope []⟩
  | ok p => exact ⟨_, p.eval_writes fuel scope s⟩

/-- The same source text, run in corresponding scopes, has the same answer and leaves stores that
correspond again.  In the first store no scope is related that was there before and was not. -/
theorem run_simulates (fuel : Nat) (source : String) {ρ : Renaming} {i j : Nat} (hij : ρ i j)
    {s t : Store} (hst : s.Renamed ρ t) :
    ∃ ρ', ρ.Le ρ' ∧ (run fuel source i s).answer? = (run fuel source j t).answer? ∧
      (run fuel source i s).store.Renamed ρ' (run fuel source j t).store ∧
      ∀ k l, ρ' k l → k < s.frames.size → ρ k l := by
  rw [run, run]
  cases Program.parse source with
  | error e => exact ⟨ρ, .refl ρ, rfl, hst, fun _ _ hkl _ => hkl⟩
  | ok p =>
    obtain ⟨ρ', hle, hresult, -, n, -, -, hstep⟩ := p.eval_simulates fuel hij (.refl ρ) hst
    refine ⟨ρ', hle, hresult.answer?_eq, hresult.store, fun k l hkl hk => ?_⟩
    obtain hkl | ⟨m, -, rfl, -⟩ := hstep hkl
    · exact hkl
    · exact absurd hk (Nat.not_lt.2 (Nat.le_add_right _ _))

/-! ## Keeping two courses together -/

/-- Every label that is in use stands for a scope of the store. -/
def Host.InStore (host : Host ι) : Prop :=
  ∀ e i, host.scope? e = some i → i < host.store.frames.size

namespace Host

theorem scope?_openGlobal_self (host : Host ι) (env : ι) :
    (host.openGlobal env).scope? env = some host.store.frames.size := if_pos rfl

theorem scope?_openGlobal_of_ne (host : Host ι) {env e : ι} (h : e ≠ env) :
    (host.openGlobal env).scope? e = host.scope? e := if_neg h

theorem size_openGlobal (host : Host ι) (env : ι) :
    (host.openGlobal env).store.frames.size = host.store.frames.size + 1 := Array.size_push _

theorem InStore.openGlobal {host : Host ι} (h : host.InStore) (env : ι) :
    (host.openGlobal env).InStore := by
  intro e i hi
  rw [host.size_openGlobal]
  by_cases he : e = env
  · subst he
    rw [host.scope?_openGlobal_self, Option.some_inj] at hi
    omega
  · rw [host.scope?_openGlobal_of_ne he] at hi
    exact Nat.lt_succ_of_lt (h e i hi)

omit [DecidableEq ι] in
theorem InStore.run {host : Host ι} (h : host.InStore) (fuel : Nat) (source : String)
    (scope : Nat) : InStore ⟨(run fuel source scope host.store).store, host.scope?⟩ := by
  obtain ⟨names, hrebinds⟩ := run_rebinds fuel source scope host.store
  intro e i hi
  exact Nat.lt_of_lt_of_le (h e i hi) hrebinds.size_le

end Host

/-- The second host has what belongs to one label of the first: the scope with that label and all
that came of it correspond, and no other global scope of the first host corresponds to anything. -/
structure Mirrors (env : ι) (ρ : Renaming) (host alone : Host ι) : Prop where
  store : host.store.Renamed ρ alone.store
  scope : Option.Rel ρ (host.scope? env) (alone.scope? env)
  inStore : host.InStore
  apart : ∀ e i j, e ≠ env → host.scope? e = some i → ¬ ρ i j

namespace Mirrors

variable {env e : ι} {ρ : Renaming} {host alone : Host ι}

/-- Both hosts open a scope for the label. -/
theorem openOwn (h : Mirrors env ρ host alone) :
    Mirrors env (ρ.extend host.store.frames.size alone.store.frames.size) (host.openGlobal env)
      (alone.openGlobal env) := by
  refine ⟨h.store.openFrame .none .nil, ?_, h.inStore.openGlobal env, ?_⟩
  · rw [host.scope?_openGlobal_self, alone.scope?_openGlobal_self]
    exact .some (.inr ⟨rfl, rfl⟩)
  · intro e i j he hi
    rw [host.scope?_openGlobal_of_ne he] at hi
    rintro (hij | ⟨rfl, -⟩)
    · exact h.apart e i j he hi hij
    · exact absurd (h.inStore e _ hi) (Nat.lt_irrefl _)

/-- The first host opens a scope for another label. -/
theorem openOther (h : Mirrors env ρ host alone) (he : e ≠ env) :
    Mirrors env ρ (host.openGlobal e) alone := by
  have hframe {i : Nat} (hi : i < host.store.frames.size) :
      (host.openGlobal e).store.frames[i]? = host.store.frames[i]? := by
    show (host.store.frames.push _)[i]? = _
    rw [Array.getElem?_push, if_neg (Nat.ne_of_lt hi)]
  refine ⟨h.store.change_left fun i j hij => hframe (h.store.left_lt hij), ?_,
    h.inStore.openGlobal e, ?_⟩
  · rw [host.scope?_openGlobal_of_ne he.symm]
    exact h.scope
  · intro e' i j he' hi hij
    by_cases hlabel : e' = e
    · -- A scope that has only just been opened is related to nothing.
      subst hlabel
      rw [host.scope?_openGlobal_self, Option.some_inj] at hi
      exact absurd (h.store.left_lt hij) (hi ▸ Nat.lt_irrefl _)
    · rw [host.scope?_openGlobal_of_ne hlabel] at hi
      exact h.apart e' i j he' hi hij

omit [DecidableEq ι] in
/-- The first host runs a source text in the scope with another label. -/
theorem runOther (h : Mirrors env ρ host alone) (he : e ≠ env) {scope : Nat}
    (hscope : host.scope? e = some scope) (fuel : Nat) (source : String) :
    Mirrors env ρ ⟨(run fuel source scope host.store).store, host.scope?⟩ alone := by
  obtain ⟨names, hrebinds⟩ := run_rebinds fuel source scope host.store
  refine ⟨h.store.change_left fun i j hij => ?_, h.scope, h.inStore.run fuel source scope, h.apart⟩
  have hne : i ≠ scope := by
    rintro rfl
    exact h.apart e i j he hscope hij
  exact hrebinds.frame_eq (h.store.left_lt hij) hne

omit [DecidableEq ι] in
/-- Both hosts run the source text in the scope with the label, and have the same answer. -/
theorem runOwn (h : Mirrors env ρ host alone) {scope : Nat} (hscope : host.scope? env = some scope)
    (fuel : Nat) (source : String) :
    ∃ scope' ρ', alone.scope? env = some scope' ∧
      (run fuel source scope host.store).answer? =
        (run fuel source scope' alone.store).answer? ∧
      Mirrors env ρ' ⟨(run fuel source scope host.store).store, host.scope?⟩
        ⟨(run fuel source scope' alone.store).store, alone.scope?⟩ := by
  have hrel := h.scope
  rw [hscope] at hrel
  obtain ⟨scope', hscope', hρ⟩ : ∃ j, alone.scope? env = some j ∧ ρ scope j := by
    generalize alone.scope? env = o at hrel
    cases hrel with
    | some hij => exact ⟨_, rfl, hij⟩
  obtain ⟨ρ', hle, hanswer, hstore, hold⟩ := run_simulates fuel source hρ h.store
  refine ⟨scope', ρ', hscope', hanswer, hstore, ?_, h.inStore.run fuel source scope, ?_⟩
  · rw [hscope, hscope']
    exact .some (hle hρ)
  · intro e i j he hi hij
    exact h.apart e i j he hi (hold i j hij (h.inStore e i hi))

end Mirrors

/-- The turns of one label alone have the answers that they have among the others.  By induction on
the course, with two hosts that belong together. -/
theorem Course.mirror {env : ι} {host : Host ι} {turns : List (Turn ι)}
    {answers : List (ι × Answer)} (h : Course host turns answers) {ρ : Renaming} {alone : Host ι}
    (hmirrors : Mirrors env ρ host alone) :
    Course alone (turns.filter (·.env = env)) (answers.filter (·.1 = env)) := by
  induction h generalizing ρ alone with
  | nil host => exact .nil alone
  | @openGlobal host e turns answers _ ih =>
    by_cases he : e = env
    · subst he
      rw [List.filter_cons_of_pos (by simp [Turn.env])]
      exact .openGlobal (ih hmirrors.openOwn)
    · rw [List.filter_cons_of_neg (by simp [Turn.env, he])]
      exact ih (hmirrors.openOther he)
  | @run host e scope fuel source answer turns answers hscope hends _ ih =>
    by_cases he : e = env
    · subst he
      obtain ⟨scope', ρ', hscope', hanswer, hnext⟩ := hmirrors.runOwn hscope fuel source
      rw [List.filter_cons_of_pos (by simp [Turn.env]), List.filter_cons_of_pos (by simp)]
      exact .run hscope' (hanswer ▸ hends) (ih hnext)
    · rw [List.filter_cons_of_neg (by simp [Turn.env, he]), List.filter_cons_of_neg (by simp [he])]
      exact ih (hmirrors.runOther he hscope fuel source)

omit [DecidableEq ι] in
/-- Nothing is there that could correspond. -/
theorem mirrors_start (env : ι) : Mirrors env (fun _ _ => False) Host.start Host.start where
  store := ⟨nofun, nofun, nofun⟩
  scope := .none
  inStore := nofun
  apart := nofun

/-- **Separate global scopes do not interfere.**  Let turns be taken from the empty store on, each
of which opens a global scope for a label or runs a source text in the scope that has it, and let
every run come to an end.  With the turns of all labels but one left out, every run comes to an end
again, and the answers are those that the runs of this label had. -/
theorem course_filter {turns : List (Turn ι)} {answers : List (ι × Answer)}
    (h : Course .start turns answers) (env : ι) (answers' : List (ι × Answer)) :
    Course .start (turns.filter (·.env = env)) answers' ↔
      answers' = answers.filter (·.1 = env) := by
  have halone := h.mirror (mirrors_start env)
  constructor
  · intro h'
    exact h'.unique halone
  · rintro rfl
    exact halone

/-- The first scope has a function that gives itself, and the second one has a failed run before it
uses the same name for something else. -/
theorem course_filter_interleaved :
    ∃ (turns : List (Turn Bool)) (answers : List (Bool × Answer)),
      turns = [.openGlobal true, .openGlobal false, .run true "var f = func() \x7bf\x7d",
        .run false "f", .run false "var f = 2; puts(f)", .run true "f()"] ∧
      answers = [(true, ⟨.ok (.function, "func() \x7bf;\x7d"), []⟩),
        (false, ⟨.error (.runtime (.undefinedIdentifier "f")), []⟩),
        (false, ⟨.ok (.null, "null"), ["2"]⟩),
        (true, ⟨.ok (.function, "func() \x7bf;\x7d"), []⟩)] ∧
      Course .start turns answers ∧
      Course .start [.openGlobal false, .run false "f", .run false "var f = 2; puts(f)"]
        [(false, ⟨.error (.runtime (.undefinedIdentifier "f")), []⟩),
          (false, ⟨.ok (.null, "null"), ["2"]⟩)] := by
  let f : Closure := ⟨0, ⟨[], [.expr (.ident "f")]⟩, 0⟩
  let opened : Host Bool := (Host.start.openGlobal true).openGlobal false
  let bound : Store := ⟨#[⟨[("f", .closure f)], none⟩, ⟨[], none⟩], 1⟩
  let boundTwice : Store := ⟨#[⟨[("f", .closure f)], none⟩, ⟨[("f", .int 2)], none⟩], 1⟩
  have hbind : run 5 "var f = func() \x7bf\x7d" 0 opened.store =
      ⟨.done (.closure f), bound, []⟩ := by
    have hparse : Program.parse "var f = func() \x7bf\x7d" =
        .ok [.bind "f" (.func [] [.expr (.ident "f")])] := by decide +kernel
    rw [run, hparse]
    with_unfolding_all rfl
  have hmissing : run 5 "f" 1 bound =
      ⟨.failed (.runtime (.undefinedIdentifier "f")), bound, []⟩ := by
    have hparse : Program.parse "f" = .ok [.expr (.ident "f")] := by decide +kernel
    rw [run, hparse]
    with_unfolding_all rfl
  have hother : run 5 "var f = 2; puts(f)" 1 bound = ⟨.done .null, boundTwice, ["2"]⟩ := by
    have hparse : Program.parse "var f = 2; puts(f)" =
        .ok [.bind "f" (.int 2), .expr (.call (.ident "puts") [.ident "f"])] := by decide +kernel
    rw [run, hparse]
    with_unfolding_all rfl
  have hcall : (run 5 "f()" 0 boundTwice).answer? =
      some ⟨.ok (.function, "func() \x7bf;\x7d"), []⟩ := by
    have hparse : Program.parse "f()" = .ok [.expr (.call (.ident "f") [])] := by decide +kernel
    rw [run, hparse]
    with_unfolding_all rfl
  have hscope : opened.scope? true = some 0 := rfl
  have hscope' : opened.scope? false = some 1 := rfl
  have hfourth : Course ⟨boundTwice, opened.scope?⟩ [.run true "f()"] _ :=
    .run hscope hcall (.nil _)
  have hthird : Course ⟨bound, opened.scope?⟩ (.run false "var f = 2; puts(f)" :: _) _ :=
    .run hscope' (congrArg Result.answer? hother) (by rw [hother]; exact hfourth)
  have hsecond : Course ⟨bound, opened.scope?⟩ (.run false "f" :: _) _ :=
    .run hscope' (congrArg Result.answer? hmissing) (by rw [hmissing]; exact hthird)
  have hfirst : Course opened (.run true "var f = func() \x7bf\x7d" :: _) _ :=
    .run hscope (congrArg Result.answer? hbind) (by rw [hbind]; exact hsecond)
  have hcourse := hfirst.openGlobal.openGlobal
  exact ⟨_, _, rfl, rfl, hcourse, (course_filter hcourse false _).2 rfl⟩

end TreeWalk

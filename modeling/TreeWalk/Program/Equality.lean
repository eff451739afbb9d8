import TreeWalk.Program.Basic

/-!
# Equality of programs

Two programs are equal when they are the same tree.  Expressions hold lists of expressions, of
pairs and of statements, so the comparison is a family of functions, one for each kind of list, and
`DecidableEq` for expressions and statements follows from it.
-/

set_option autoImplicit false

namespace TreeWalk

mutual

/-- Whether two expressions are the same tree. -/
def Expr.same : Expr → Expr → Bool
  | .ident a, .ident b => a = b
  | .int a, .int b => a = b
  | .bool a, .bool b => a = b
  | .str a, .str b => a = b
  | .array as, .array bs => Expr.sameList as bs
  | .hash as, .hash bs => Expr.sameEntries as bs
  | .unary o a, .unary p b => o = p && a.same b
  | .binary o a c, .binary p b d => o = p && a.same b && c.same d
  | .index a c, .index b d => a.same b && c.same d
  | .cond a x u, .cond b y v => a.same b && Stmt.sameList x y && Stmt.sameOption u v
  | .func ps x, .func qs y => ps = qs && Stmt.sameList x y
  | .call a xs, .call b ys => a.same b && Expr.sameList xs ys
  | _, _ => false

/-- `Expr.same`, item by item. -/
def Expr.sameList : List Expr → List Expr → Bool
  | [], [] => true
  | a :: as, b :: bs => a.same b && Expr.sameList as bs
  | _, _ => false

/-- `Expr.same`, on keys and values. -/
def Expr.sameEntries : List (Expr × Expr) → List (Expr × Expr) → Bool
  | [], [] => true
  | (a, c) :: as, (b, d) :: bs => a.same b && c.same d && Expr.sameEntries as bs
  | _, _ => false

/-- Whether two statements are the same tree. -/
def Stmt.same : Stmt → Stmt → Bool
  | .bind n a, .bind m b => n = m && a.same b
  | .ret a, .ret b => a.same b
  | .expr a, .expr b => a.same b
  | _, _ => false

/-- `Stmt.same`, statement by statement. -/
def Stmt.sameList : List Stmt → List Stmt → Bool
  | [], [] => true
  | a :: as, b :: bs => a.same b && Stmt.sameList as bs
  | _, _ => false

/-- `Stmt.sameList`, where there are statements at all. -/
def Stmt.sameOption : Option (List Stmt) → Option (List Stmt) → Bool
  | none, none => true
  | some a, some b => Stmt.sameList a b
  | _, _ => false

end

/-! ## The comparison decides equality -/

mutual

theorem Expr.same_iff : (a b : Expr) → (a.same b = true ↔ a = b)
  | .ident _, b => by cases b <;> simp [Expr.same]
  | .int _, b => by cases b <;> simp [Expr.same]
  | .bool _, b => by cases b <;> simp [Expr.same]
  | .str _, b => by cases b <;> simp [Expr.same]
  | .array as, b => by cases b <;> simp [Expr.same, Expr.sameList_iff as]
  | .hash as, b => by cases b <;> simp [Expr.same, Expr.sameEntries_iff as]
  | .unary _ a, b => by cases b <;> simp [Expr.same, a.same_iff]
  | .binary _ a c, b => by cases b <;> simp [Expr.same, a.same_iff, c.same_iff, and_assoc]
  | .index a c, b => by cases b <;> simp [Expr.same, a.same_iff, c.same_iff]
  | .cond a x u, b => by
    cases b <;>
      simp [Expr.same, a.same_iff, Stmt.sameList_iff x, Stmt.sameOption_iff u, and_assoc]
  | .func _ x, b => by cases b <;> simp [Expr.same, Stmt.sameList_iff x]
  | .call a xs, b => by cases b <;> simp [Expr.same, a.same_iff, Expr.sameList_iff xs]

theorem Expr.sameList_iff : (as bs : List Expr) → (Expr.sameList as bs = true ↔ as = bs)
  | [], bs => by cases bs <;> simp [Expr.sameList]
  | a :: as, bs => by cases bs <;> simp [Expr.sameList, a.same_iff, Expr.sameList_iff as]

theorem Expr.sameEntries_iff :
    (as bs : List (Expr × Expr)) → (Expr.sameEntries as bs = true ↔ as = bs)
  | [], bs => by cases bs <;> simp [Expr.sameEntries]
  | (a, c) :: as, bs => by
    cases bs with
    | nil => simp [Expr.sameEntries]
    | cons b bs =>
      obtain ⟨b, d⟩ := b
      simp [Expr.sameEntries, a.same_iff, c.same_iff, Expr.sameEntries_iff as]

theorem Stmt.same_iff : (a b : Stmt) → (a.same b = true ↔ a = b)
  | .bind _ a, b => by cases b <;> simp [Stmt.same, a.same_iff]
  | .ret a, b => by cases b <;> simp [Stmt.same, a.same_iff]
  | .expr a, b => by cases b <;> simp [Stmt.same, a.same_iff]

theorem Stmt.sameList_iff : (as bs : List Stmt) → (Stmt.sameList as bs = true ↔ as = bs)
  | [], bs => by cases bs <;> simp [Stmt.sameList]
  | a :: as, bs => by cases bs <;> simp [Stmt.sameList, a.same_iff, Stmt.sameList_iff as]

theorem Stmt.sameOption_iff :
    (a b : Option (List Stmt)) → (Stmt.sameOption a b = true ↔ a = b)
  | none, b => by cases b <;> simp [Stmt.sameOption]
  | some a, b => by cases b <;> simp [Stmt.sameOption, Stmt.sameList_iff a]

end

instance : DecidableEq Expr := fun a b => decidable_of_iff _ (a.same_iff b)

instance : DecidableEq Stmt := fun a b => decidable_of_iff _ (a.same_iff b)

deriving instance DecidableEq for Lambda

end TreeWalk

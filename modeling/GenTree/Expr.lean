import GenTree.Domain

/-!
# Formulas over a domain

`ZExpr` has the formulas the program builds itself: the constants, the atoms
`VarDomain::eq(val)`, the binary connectives of the `z3::expr` operators, and
the n-ary `z3::mk_and` and `z3::mk_or`.  `ZExpr.sat` is their meaning under an
assignment of value indices.

The solver is code outside the repository.  `Solver` is its interface as the
program uses it: the asserted formulas, one assumption, and either no model or a
model that may leave variables out.  The first argument counts the calls, so
that the answer may depend on everything that happened before.
-/

namespace GenTree

open Outcome

/-- The formulas the program builds. -/
inductive ZExpr
  | ztrue
  | zfalse
  | eq (var val : ℕ)
  | and (a b : ZExpr)
  | or (a b : ZExpr)
  | not (a : ZExpr)
  | mkAnd (es : List ZExpr)
  | mkOr (es : List ZExpr)

namespace ZExpr

/-- `Context::zbool`. -/
def zbool : Bool → ZExpr
  | true => .ztrue
  | false => .zfalse

mutual

/-- The truth value of a formula under an assignment. -/
def sat (a : ℕ → ℕ) : ZExpr → Bool
  | .ztrue => true
  | .zfalse => false
  | .eq var val => a var == val
  | .and e f => sat a e && sat a f
  | .or e f => sat a e || sat a f
  | .not e => !sat a e
  | .mkAnd es => satAll a es
  | .mkOr es => satAny a es

/-- The truth value of an n-ary conjunction. -/
def satAll (a : ℕ → ℕ) : List ZExpr → Bool
  | [] => true
  | e :: es => sat a e && satAll a es

/-- The truth value of an n-ary disjunction. -/
def satAny (a : ℕ → ℕ) : List ZExpr → Bool
  | [] => false
  | e :: es => sat a e || satAny a es

end

section Sat

variable (a : ℕ → ℕ)

@[simp] theorem satAll_eq (es : List ZExpr) : satAll a es = es.all (sat a) := by
  induction es with
  | nil => rfl
  | cons e es ih => simp [satAll, ih]

@[simp] theorem satAny_eq (es : List ZExpr) : satAny a es = es.any (sat a) := by
  induction es with
  | nil => rfl
  | cons e es ih => simp [satAny, ih]

@[simp] theorem sat_ztrue : sat a .ztrue = true := by rw [sat]

@[simp] theorem sat_zfalse : sat a .zfalse = false := by rw [sat]

@[simp] theorem sat_zbool (b : Bool) : sat a (zbool b) = b := by
  cases b <;> simp [zbool]

@[simp] theorem sat_eq (var val : ℕ) : sat a (.eq var val) = (a var == val) := by rw [sat]

@[simp] theorem sat_and (e f : ZExpr) : sat a (.and e f) = (sat a e && sat a f) := by rw [sat]

@[simp] theorem sat_or (e f : ZExpr) : sat a (.or e f) = (sat a e || sat a f) := by rw [sat]

@[simp] theorem sat_not (e : ZExpr) : sat a (.not e) = !sat a e := by rw [sat]

@[simp] theorem sat_mkAnd (es : List ZExpr) : sat a (.mkAnd es) = es.all (sat a) := by
  rw [sat, satAll_eq]

@[simp] theorem sat_mkOr (es : List ZExpr) : sat a (.mkOr es) = es.any (sat a) := by
  rw [sat, satAny_eq]

end Sat

end ZExpr

/-- `Config::to_expr`: the conjunction of the fixed options, `true` for an
option that is not fixed. -/
def Config.toExpr (c : Config) : ZExpr :=
  .mkAnd (c.values.zipIdx.map fun (v, i) => if v ≠ -1 then .eq i v.toNat else .ztrue)

/-- A model of the solver: a value for each variable it does not leave out. -/
abbrev ZModel := ℕ → Option ℕ

/-- `solver->check(1, &e)` after a number of `add`s: a model when the answer is
`sat`. -/
abbrev Solver := ℕ → List ZExpr → ZExpr → Option ZModel

end GenTree

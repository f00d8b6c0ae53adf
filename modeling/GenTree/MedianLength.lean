import GenTree.Library.OrderStatistic
import GenTree.LocEntry
import Mathlib.Data.Rat.Floor

/-!
# The lengths of the interactions

`run_analyze_2` looks at the formula of every interaction: how many options it mentions, and
of which form it is.  The lengths are collected in the order in which the map of the
locations is walked, that is by name, and `vec_median` is asked for their median.  But
`vec_median` takes what stands in the middle of the vector; other callers sort it first.

So `median_len` is the median only if sorting would have left the right lengths in the
middle (`medianLen_iff`).
-/

namespace GenTree

open Outcome OrderStatistic

/-! ## Expressions -/

/-- `decl().decl_kind()`, as far as the program tells kinds apart. -/
inductive DeclKind
  | and
  | or
  | eq
  | uninterpreted
  | other
  deriving DecidableEq

/-- A `z3::expr`: an application of a declaration to arguments, or something else. -/
inductive Z3Ast
  | app (kind : DeclKind) (name : String) (args : List Z3Ast)
  | other

namespace Z3Ast

/-- `is_app`. -/
def isApp : Z3Ast → Bool
  | .app .. => true
  | .other => false

/-- `is_eq`. -/
def isEq : Z3Ast → Bool
  | .app .eq _ _ => true
  | _ => false

/-- `is_and`. -/
def isAnd : Z3Ast → Bool
  | .app .and _ _ => true
  | _ => false

/-- `is_or`. -/
def isOr : Z3Ast → Bool
  | .app .or _ _ => true
  | _ => false

/-- `is_const`. -/
def isConst : Z3Ast → Bool
  | .app _ _ [] => true
  | _ => false

mutual

/-- `collect_vars`.  The arguments of something that is no application are undefined. -/
def collectVars (res : Finset String) : Z3Ast → Except Abort (Finset String)
  | .app .uninterpreted name [] => .ok (insert name res)
  | .app _ _ args => collectVarsAll res args
  | .other => .error .exprApp

/-- The loop of `collect_vars`. -/
def collectVarsAll (res : Finset String) : List Z3Ast → Except Abort (Finset String)
  | [] => .ok res
  | e :: es => do
      let res ← collectVars res e
      collectVarsAll res es

end

/-- The option the expression is the variable of. -/
def zvarOf (dom : Domain) : Z3Ast → Option ℕ
  | .app .uninterpreted name [] => dom.vars.findIdx? fun v => v.name == name
  | _ => none

/-- The loop over the arguments of a clause in `is_pure`: all of them compare the same
option, which is `last_id` if there is one already. -/
def pureClause (dom : Domain) : Option ℕ → List Z3Ast → Except Abort Bool
  | _, [] => .ok true
  | lastId, .app .eq _ args :: xs => do
      check (args.length = 2) .pureEqArgs
      let lhs ← vecAt args 0
      match zvarOf dom lhs, lastId with
      | none, _ => .ok false
      | some id, none => pureClause dom (some id) xs
      | some id, some last => if last ≠ id then .ok false else pureClause dom (some last) xs
  | _, _ :: _ => .ok false

/-- The loop of `is_pure`. -/
def pureClauses (dom : Domain) (inner : DeclKind) : List Z3Ast → Except Abort Bool
  | [] => .ok true
  | .app .eq _ _ :: gs => pureClauses dom inner gs
  | .app kind _ args :: gs =>
      if kind = inner then do
        let ok ← pureClause dom none args
        if ok then pureClauses dom inner gs else .ok false
      else .ok false
  | .other :: _ => .error .exprApp

/-- `is_pure`. -/
def isPure (dom : Domain) (outer inner : DeclKind) : Z3Ast → Except Abort Bool
  | .app kind _ args => do
      check (kind = outer) .pureKind
      check (0 < args.length) .pureArgs
      pureClauses dom inner args
  | .other => .error .exprApp

/-- The loop of `is_igen_compat`. -/
def igenClauses (dom : Domain) : Bool → List Z3Ast → Except Abort Bool
  | _, [] => .ok true
  | hasOrClause, g :: gs =>
      if g.isEq then igenClauses dom hasOrClause gs
      else if hasOrClause || !g.isOr then .ok false
      else do
        let ok ← isPure dom .or .uninterpreted g
        if ok then igenClauses dom true gs else .ok false

/-- `is_igen_compat`. -/
def isIgenCompat (dom : Domain) : Z3Ast → Except Abort Bool
  | .app .and _ args => do
      check (0 < args.length) .pureArgs
      igenClauses dom false args
  | _ => .ok false

end Z3Ast

/-! ## `run_analyze_2` -/

/-- The counters of `run_analyze_2`, and `vec_len`. -/
structure LenStat where
  cntSingular : ℕ := 0
  cntAnd : ℕ := 0
  cntOr : ℕ := 0
  cntMixed : ℕ := 0
  cntPure : ℕ := 0
  cntMixOk : ℕ := 0
  cntMixFail : ℕ := 0
  vecLen : List ℤ := []

/-- What `run_analyze_2` makes of the interactions; what it copies from the header of the
report is left out. -/
structure Analysis2 where
  stat : LenStat
  cntTotal : ℕ
  maxLen : ℤ
  medianLen : ℤ

/-- `a && b`. -/
def andAlso (a : Bool) (b : Except Abort Bool) : Except Abort Bool := if a then b else .ok false

namespace LenStat

/-- The form of one interaction. -/
def classify (dom : Domain) (st : LenStat) (e : Z3Ast) : Except Abort LenStat :=
  if e.isConst || e.isEq then
    .ok { st with cntSingular := st.cntSingular + 1, cntPure := st.cntPure + 1 }
  else do
    let pureAnd ← andAlso e.isAnd (e.isPure dom .and .or)
    if pureAnd then .ok { st with cntAnd := st.cntAnd + 1, cntPure := st.cntPure + 1 }
    else do
      let pureOr ← andAlso e.isOr (e.isPure dom .or .uninterpreted)
      if pureOr then .ok { st with cntOr := st.cntOr + 1, cntPure := st.cntPure + 1 }
      else do
        let igCompat ← e.isIgenCompat dom
        .ok { st with
          cntMixed := st.cntMixed + 1
          cntMixOk := if igCompat then st.cntMixOk + 1 else st.cntMixOk
          cntMixFail := if igCompat then st.cntMixFail else st.cntMixFail + 1 }

/-- The body of the loop over the locations. -/
def addLoc (dom : Domain) (st : LenStat) (dat : LocEntry Z3Ast) : Except Abort LenStat :=
  if dat.isFirst then do
    let vars ← dat.e.collectVars ∅
    let st := { st with vecLen := st.vecLen ++ [(vars.card : ℤ)] }
    check (dat.e.isApp = true) .exprApp
    classify dom st dat.e
  else .ok st

end LenStat

/-- The sum of two `int`s. -/
def addInt (a b : ℤ) : Except Abort ℤ := do
  check (a + b ≤ intMax) .intOverflow
  .ok (a + b)

/-- `vec_median` of a vector of `int`s.  The `double`s that occur are halves of `int`s. -/
def vecMedian (vec : List ℤ) : Except Abort ℚ := do
  let size := vec.length
  if size = 0 then .error .medianEmpty
  else do
    let mid := size / 2
    if size % 2 = 0 then do
      let sum ← addInt (← vecAt vec mid) (← vecAt vec (mid - 1))
      .ok (sum / 2)
    else do
      let x ← vecAt vec mid
      .ok x

/-- `*std::max_element`. -/
def maxElement : List ℤ → Except Abort ℤ
  | [] => .error .outOfRange
  | x :: xs => .ok (xs.foldl max x)

/-- The conversion `(int) x` of a `double`. -/
def truncInt (x : ℚ) : ℤ := if 0 ≤ x then ⌊x⌋ else ⌈x⌉

/-- `run_analyze_2` on what `read_file` has returned. -/
def runAnalyze2 {Name : Type} (dom : Domain) (ma : List (Name × LocEntry Z3Ast)) :
    Except Abort Analysis2 := do
  let stat ← (ma.map Prod.snd).foldlM (LenStat.addLoc dom) {}
  let maxLen ← maxElement stat.vecLen
  let median ← vecMedian stat.vecLen
  .ok {
    stat, maxLen
    cntTotal := stat.cntSingular + stat.cntAnd + stat.cntOr + stat.cntMixed
    medianLen := truncInt median }

/-! ## The lengths -/

namespace Z3Ast

mutual

/-- The options the expression mentions. -/
def vars : Z3Ast → Finset String
  | .app .uninterpreted name [] => {name}
  | .app _ _ args => varsAll args
  | .other => ∅

/-- The options a list of expressions mentions. -/
def varsAll : List Z3Ast → Finset String
  | [] => ∅
  | e :: es => vars e ∪ varsAll es

end

mutual

/-- `collect_vars` adds the options of the expression. -/
theorem collectVars_eq {res s : Finset String} :
    ∀ e : Z3Ast, e.collectVars res = .ok s → s = res ∪ e.vars
  | .other, h => by
      rw [collectVars] at h
      cases h
  | .app kind name args, h => by
      by_cases hvar : kind = .uninterpreted ∧ args = []
      · obtain ⟨rfl, rfl⟩ := hvar
        rw [collectVars] at h
        cases h
        rw [vars, Finset.insert_eq, Finset.union_comm]
      · have hne : kind = .uninterpreted → args = [] → False := fun hkind hargs => hvar ⟨hkind, hargs⟩
        rw [collectVars] at h
        · rw [vars]
          · exact collectVarsAll_eq args h
          · exact hne
        · exact hne

/-- The loop of `collect_vars`. -/
theorem collectVarsAll_eq {res s : Finset String} :
    ∀ es : List Z3Ast, collectVarsAll res es = .ok s → s = res ∪ varsAll es
  | [], h => by
      rw [collectVarsAll] at h
      cases h
      rw [varsAll, Finset.union_empty]
  | e :: es, h => by
      rw [collectVarsAll] at h
      obtain ⟨res', he, hes⟩ := bind_eq_ok.mp h
      rw [collectVarsAll_eq es hes, collectVars_eq e he, varsAll, Finset.union_assoc]

end

end Z3Ast

/-- The number of options in an interaction. -/
def LocEntry.len (dat : LocEntry Z3Ast) : ℤ := (dat.e.vars.card : ℤ)

/-- **The lengths of the interactions**, in the order of the locations. -/
def lengths {Name : Type} (ma : List (Name × LocEntry Z3Ast)) : List ℤ :=
  ((ma.map Prod.snd).filter LocEntry.isFirst).map LocEntry.len

theorem lengths_nonneg {Name : Type} {ma : List (Name × LocEntry Z3Ast)} : ∀ n ∈ lengths ma, 0 ≤ n := by
  intro n hn
  obtain ⟨dat, -, rfl⟩ := List.mem_map.mp hn
  exact Int.natCast_nonneg _

namespace LenStat

variable {dom : Domain} {st st' : LenStat}

theorem classify_vecLen {e : Z3Ast} (h : classify dom st e = .ok st') :
    st'.vecLen = st.vecLen := by
  unfold classify at h
  split at h
  · cases h
    rfl
  · obtain ⟨pureAnd, -, h⟩ := bind_eq_ok.mp h
    split at h
    · cases h
      rfl
    · obtain ⟨pureOr, -, h⟩ := bind_eq_ok.mp h
      split at h
      · cases h
        rfl
      · obtain ⟨igCompat, -, h⟩ := bind_eq_ok.mp h
        cases h
        rfl

theorem addLoc_vecLen {dat : LocEntry Z3Ast} (h : addLoc dom st dat = .ok st') :
    st'.vecLen = st.vecLen ++ ([dat].filter LocEntry.isFirst).map LocEntry.len := by
  unfold addLoc at h
  split at h
  · next hfirst =>
      obtain ⟨vars, hvars, h⟩ := bind_eq_ok.mp h
      obtain ⟨-, -, h⟩ := bind_eq_ok.mp h
      have hcard := dat.e.collectVars_eq hvars
      rw [Finset.empty_union] at hcard
      rw [classify_vecLen h, hcard]
      simp [hfirst, LocEntry.len]
  · next hnot =>
      cases h
      simp [hnot]

/-- The loop collects the lengths. -/
theorem foldlM_vecLen {dats : List (LocEntry Z3Ast)} (h : dats.foldlM (addLoc dom) st = .ok st') :
    st'.vecLen = st.vecLen ++ (dats.filter LocEntry.isFirst).map LocEntry.len := by
  induction dats generalizing st with
  | nil =>
      cases h
      simp
  | cons dat dats ih =>
      rw [List.foldlM_cons] at h
      obtain ⟨st₁, hfirst, hrest⟩ := bind_eq_ok.mp h
      rw [ih hrest, addLoc_vecLen hfirst, List.append_assoc, ← List.map_append, ← List.filter_append,
        List.singleton_append]

end LenStat

/-! ## The median -/

/-- The median of a multiset: the mean of the two elements in the middle of the sorted
list, which are the same one if the number of elements is odd. -/
def medianOf (s : Multiset ℤ) : ℚ :=
  let sorted := s.sort (· ≤ ·)
  ((sorted.getD ((s.card - 1) / 2) 0 + sorted.getD (s.card / 2) 0 : ℤ) : ℚ) / 2

/-- Sorting the vector would leave the right elements in the middle: the middle one, if
there is one, is smaller than at most half of the others and larger than at most half of
them; the two middle ones have, up to rounding, the mean of those that sorting would put
there. -/
def MiddleInPlace (vec : List ℤ) : Prop :=
  let mid := vec.length / 2
  if vec.length % 2 = 1 then HasRank vec mid (vec.getD mid 0)
  else ∃ lo hi, HasRank vec (mid - 1) lo ∧ HasRank vec mid hi ∧
    (vec.getD mid 0 + vec.getD (mid - 1) 0) / 2 = (lo + hi) / 2

theorem truncInt_intCast (x : ℤ) : truncInt x = x := by
  unfold truncInt
  split
  · exact Int.floor_intCast x
  · exact Int.ceil_intCast x

theorem floor_half (x : ℤ) : ⌊((x : ℤ) : ℚ) / 2⌋ = x / 2 := by
  exact_mod_cast Rat.floor_intCast_div_natCast x 2

theorem truncInt_half {x : ℤ} (hx : 0 ≤ x) : truncInt ((x : ℚ) / 2) = x / 2 := by
  unfold truncInt
  rw [if_pos, floor_half]
  have : (0 : ℚ) ≤ x := by exact_mod_cast hx
  linarith

/-- What the function returns, on a vector of lengths. -/
theorem truncInt_vecMedian {vec : List ℤ} (hvec : ∀ n ∈ vec, 0 ≤ n) {m : ℚ}
    (h : vecMedian vec = .ok m) :
    0 < vec.length ∧ truncInt m =
      (vec.getD ((vec.length - 1) / 2) 0 + vec.getD (vec.length / 2) 0) / 2 := by
  unfold vecMedian at h
  dsimp only at h
  split at h
  · cases h
  · next hne =>
      refine ⟨Nat.pos_of_ne_zero hne, ?_⟩
      have hget : ∀ {j : ℕ} {x : ℤ}, vecAt vec j = .ok x → vec.getD j 0 = x := by
        intro j x hx
        rw [List.getD_eq_getElem?_getD, vecAt_eq_ok.mp hx, Option.getD_some]
      have hnonneg : ∀ j, 0 ≤ vec.getD j 0 := by
        intro j
        rw [List.getD_eq_getElem?_getD]
        cases hj : vec[j]? with
        | none => exact le_refl 0
        | some x => exact hvec x (List.mem_of_getElem? hj)
      split at h
      · next heven =>
          obtain ⟨a, ha, h⟩ := bind_eq_ok.mp h
          obtain ⟨b, hb, h⟩ := bind_eq_ok.mp h
          obtain ⟨sum, hsum, h⟩ := bind_eq_ok.mp h
          cases h
          obtain ⟨-, -, hsum⟩ := bind_eq_ok.mp hsum
          cases hsum
          rw [← hget ha, ← hget hb, truncInt_half (Int.add_nonneg (hnonneg _) (hnonneg _)),
            show (vec.length - 1) / 2 = vec.length / 2 - 1 by omega, add_comm]
      · next hodd =>
          obtain ⟨x, hx, h⟩ := bind_eq_ok.mp h
          cases h
          rw [truncInt_intCast, show (vec.length - 1) / 2 = vec.length / 2 by omega, hget hx]
          omega

/-- The elements in the middle of the sorted list, by their ranks. -/
theorem floor_medianOf {vec : List ℤ} (hpos : 0 < vec.length) :
    ∃ lo hi, HasRank vec ((vec.length - 1) / 2) lo ∧ HasRank vec (vec.length / 2) hi ∧
      ⌊medianOf vec⌋ = (lo + hi) / 2 := by
  have hlen : (Multiset.sort (vec : Multiset ℤ) (· ≤ ·)).length = vec.length := by
    rw [Multiset.length_sort, Multiset.coe_card]
  have hrank : ∀ j < vec.length,
      HasRank vec j ((Multiset.sort (vec : Multiset ℤ) (· ≤ ·)).getD j 0) := by
    intro j hj
    rw [hasRank_iff_sort, List.getD_eq_getElem?_getD, List.getElem?_eq_getElem (by omega)]
    rfl
  refine ⟨_, _, hrank _ (by omega), hrank _ (by omega), ?_⟩
  unfold medianOf
  rw [Multiset.coe_card, floor_half]

/-- **The median is right when the middle is in place.** -/
theorem medianLen_iff {Name : Type} (dom : Domain) (ma : List (Name × LocEntry Z3Ast))
    {r : Analysis2} (h : runAnalyze2 dom ma = .ok r) :
    r.medianLen = ⌊medianOf (lengths ma)⌋ ↔ MiddleInPlace (lengths ma) := by
  unfold runAnalyze2 at h
  obtain ⟨stat, hstat, h⟩ := bind_eq_ok.mp h
  obtain ⟨maxLen, -, h⟩ := bind_eq_ok.mp h
  obtain ⟨median, hmedian, h⟩ := bind_eq_ok.mp h
  cases h
  have hvec : stat.vecLen = lengths ma := by
    rw [LenStat.foldlM_vecLen hstat]
    rfl
  rw [hvec] at hmedian
  obtain ⟨hpos, hcode⟩ := truncInt_vecMedian lengths_nonneg hmedian
  obtain ⟨lo, hi, hlo, hhi, hspec⟩ := floor_medianOf hpos
  dsimp only
  rw [hcode, hspec]
  unfold MiddleInPlace
  dsimp only
  split
  · next hodd =>
      have hmid : ((lengths ma).length - 1) / 2 = (lengths ma).length / 2 := by omega
      rw [hmid] at hlo ⊢
      obtain rfl := hlo.unique hhi
      constructor
      · intro heq
        rwa [show (lengths ma).getD ((lengths ma).length / 2) 0 = lo by omega]
      · intro hrank
        rw [hrank.unique hlo]
  · next heven =>
      have hmid : ((lengths ma).length - 1) / 2 = (lengths ma).length / 2 - 1 := by omega
      rw [hmid] at hlo ⊢
      rw [add_comm ((lengths ma).getD _ 0)]
      constructor
      · intro heq
        exact ⟨lo, hi, hlo, hhi, heq⟩
      · rintro ⟨lo', hi', hlo', hhi', heq⟩
        rw [heq, hlo'.unique hlo, hhi'.unique hhi]

/-! ## Three interactions -/

/-- The test of a switch. -/
def Z3Ast.switchOn (name : String) : Z3Ast :=
  .app .eq "=" [.app .uninterpreted name [], .app .other "1" []]

/-- The entry of an interaction that is not ignored. -/
def LocEntry.ofExpr (e : Z3Ast) (tree : CTree) (id : ℕ) : LocEntry Z3Ast :=
  { e, tree, ignored := false, isFirst := true, id }

/-- Three locations in the order of their names, with the formulas `s0 = 1`, the conjunction
of three switches, and that of two. -/
def threeInteractions (tree : ℕ → CTree) : List (String × LocEntry Z3Ast) :=
  [("a", .ofExpr (.switchOn "0") (tree 0) 0),
    ("b", .ofExpr (.app .and "and" [.switchOn "0", .switchOn "1", .switchOn "2"]) (tree 1) 1),
    ("c", .ofExpr (.app .and "and" [.switchOn "1", .switchOn "2"]) (tree 2) 2)]

theorem medianLen_iff_three :
    ∃ r, runAnalyze2 (.switches 3 (by decide)) (threeInteractions fun _ => {}) = .ok r ∧
      (r.medianLen = ⌊medianOf (lengths (threeInteractions fun _ => {}))⌋ ↔
        MiddleInPlace (lengths (threeInteractions fun _ => {}))) :=
  ⟨_, rfl, medianLen_iff (.switches 3 (by decide)) (threeInteractions fun _ => {}) rfl⟩

/-- One, three and two options: the code returns 3, the median is 2, whatever the trees are. -/
theorem medianLen_threeInteractions :
    ¬∃ tree : ℕ → CTree, ∀ r,
      runAnalyze2 (.switches 3 (by decide)) (threeInteractions tree) = .ok r →
        r.medianLen = ⌊medianOf (lengths (threeInteractions tree))⌋ := by
  rintro ⟨tree, hmedian⟩
  have hlengths : lengths (threeInteractions tree) = [1, 3, 2] := by
    simp only [lengths, threeInteractions, LocEntry.ofExpr, List.map_cons, List.map_nil,
      List.filter_cons_of_pos, List.filter_nil, LocEntry.len]
    decide
  obtain ⟨lo, hi, hlo, hhi, hspec⟩ := floor_medianOf (show 0 < [(1 : ℤ), 3, 2].length by decide)
  have hrank : HasRank [(1 : ℤ), 3, 2] 1 2 := by decide
  have hlo2 : lo = 2 := HasRank.unique hlo hrank
  have hhi2 : hi = 2 := HasRank.unique hhi hrank
  obtain ⟨r, hrun, hthree⟩ : ∃ r,
      runAnalyze2 (.switches 3 (by decide)) (threeInteractions tree) = .ok r ∧ r.medianLen = 3 :=
    ⟨_, rfl, truncInt_intCast 3⟩
  have hcode := hmedian r hrun
  rw [hthree, hlengths, hspec, hlo2, hhi2] at hcode
  exact absurd hcode (by decide)

end GenTree

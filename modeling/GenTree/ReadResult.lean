import GenTree.ComparedReports
import GenTree.MedianLength

/-!
# Reading the result of an experiment

`run_analyze_2` reads a report and returns what is in it: the forms and lengths of its
interactions, and the numbers of its status line.  The two halves have been followed apart
(`runAnalyze2`, `readParams`); here the function is run on the text of a file.

* **What Z3 hands out.**  The forms are read off Z3's own terms.  These are taken through a
  map from formulas to terms, of which nothing is asked but that the terms are those of a
  formula without quantifiers (`Z3Ast.Proper`): then no check of the loop can fire
  (`LenStat.addLoc_total`), whatever the formulas are.
* **No groups.**  Then `vec_len` is empty, and the maximum of an empty vector is taken.  A
  report without groups is read back by `read_file`, but not by this function.
* `RunsTo.report_params` — every report of every run.
-/

namespace GenTree

open Outcome

/-! ## Terms of formulas -/

namespace Z3Ast

mutual

/-- A term of a formula without quantifiers: everything is an application, an equation has
two sides, and a conjunction or disjunction is not empty. -/
def Proper : Z3Ast → Prop
  | .app kind _ args =>
      (kind = .eq → args.length = 2) ∧ (kind = .and ∨ kind = .or → args ≠ []) ∧ ProperAll args
  | .other => False

/-- A list of such terms. -/
def ProperAll : List Z3Ast → Prop
  | [] => True
  | e :: es => e.Proper ∧ ProperAll es

end

mutual

theorem collectVars_total {e : Z3Ast} (h : e.Proper) (res : Finset String) :
    ∃ s, e.collectVars res = .ok s := by
  match e, h with
  | .app kind name args, h =>
      rw [Proper] at h
      by_cases hvar : kind = .uninterpreted ∧ args = []
      · obtain ⟨rfl, rfl⟩ := hvar
        exact ⟨_, by rw [collectVars]⟩
      · have hne : kind = .uninterpreted → args = [] → False := fun hkind hargs => hvar ⟨hkind, hargs⟩
        rw [collectVars]
        · exact collectVarsAll_total h.2.2 res
        · exact hne

theorem collectVarsAll_total {es : List Z3Ast} (h : ProperAll es) (res : Finset String) :
    ∃ s, collectVarsAll res es = .ok s := by
  match es, h with
  | [], _ => exact ⟨res, by rw [collectVarsAll]⟩
  | e :: es, h =>
      rw [ProperAll] at h
      obtain ⟨res', he⟩ := collectVars_total h.1 res
      obtain ⟨s, hes⟩ := collectVarsAll_total h.2 res'
      exact ⟨s, by rw [collectVarsAll, he, ok_bind, hes]⟩

end

theorem pureClause_total {dom : Domain} {xs : List Z3Ast} (h : ProperAll xs) (lastId : Option ℕ) :
    ∃ b, pureClause dom lastId xs = .ok b := by
  induction xs generalizing lastId with
  | nil => exact ⟨true, by rw [pureClause]⟩
  | cons x xs ih =>
      rw [ProperAll] at h
      unfold pureClause
      split
      · exact ⟨_, rfl⟩
      · next _ name args xs' heq =>
          obtain ⟨rfl, rfl⟩ := List.cons.inj heq
          have hx := h.1
          rw [Proper] at hx
          have hlen := hx.1 rfl
          obtain ⟨lhs, hlhs⟩ : ∃ lhs, args[0]? = some lhs :=
            ⟨_, List.getElem?_eq_getElem (by omega)⟩
          rw [check_pos hlen, ok_bind, vecAt_of_getElem? hlhs, ok_bind]
          split
          · exact ⟨_, rfl⟩
          · exact ih h.2 _
          · split
            · exact ⟨_, rfl⟩
            · exact ih h.2 _
      · exact ⟨_, rfl⟩

theorem pureClauses_total {dom : Domain} {inner : DeclKind} {gs : List Z3Ast} (h : ProperAll gs) :
    ∃ b, pureClauses dom inner gs = .ok b := by
  induction gs with
  | nil => exact ⟨true, by rw [pureClauses]⟩
  | cons g gs ih =>
      rw [ProperAll] at h
      have hrest := ih h.2
      unfold pureClauses
      split
      · exact ⟨_, rfl⟩
      · next heq =>
          obtain ⟨rfl, rfl⟩ := List.cons.inj heq
          exact hrest
      · next args _ _ heq =>
          obtain ⟨rfl, rfl⟩ := List.cons.inj heq
          have hg := h.1
          rw [Proper] at hg
          split
          · obtain ⟨b, hb⟩ := @pureClause_total dom args hg.2.2 none
            rw [hb, ok_bind]
            split
            · exact hrest
            · exact ⟨_, rfl⟩
          · exact ⟨_, rfl⟩
      · next heq =>
          obtain ⟨rfl, -⟩ := List.cons.inj heq
          exact h.1.elim

/-- `is_pure` of a term of the right kind. -/
theorem isPure_total {dom : Domain} {outer inner : DeclKind} (houter : outer = .and ∨ outer = .or)
    {name : String} {args : List Z3Ast} (h : (app outer name args).Proper) :
    ∃ b, (app outer name args).isPure dom outer inner = .ok b := by
  rw [Proper] at h
  have hpos : 0 < args.length := List.length_pos_iff.mpr (h.2.1 houter)
  rw [isPure, check_pos rfl, ok_bind, check_pos hpos, ok_bind]
  exact pureClauses_total h.2.2

theorem igenClauses_total {dom : Domain} {gs : List Z3Ast} (h : ProperAll gs) (hasOrClause : Bool) :
    ∃ b, igenClauses dom hasOrClause gs = .ok b := by
  induction gs generalizing hasOrClause with
  | nil => exact ⟨true, by rw [igenClauses]⟩
  | cons g gs ih =>
      rw [ProperAll] at h
      rw [igenClauses]
      split
      · exact ih h.2 _
      · split
        · exact ⟨_, rfl⟩
        · next hno =>
            obtain ⟨name, args, rfl⟩ : ∃ name args, g = app .or name args := by
              cases g with
              | other => simp [isOr] at hno
              | app kind name args => cases kind <;> simp_all [isOr]
            obtain ⟨b, hb⟩ := @isPure_total dom _ .uninterpreted (.inr rfl) _ _ h.1
            rw [hb, ok_bind]
            split
            · exact ih h.2 _
            · exact ⟨_, rfl⟩

end Z3Ast

/-! ## The loop over the interactions -/

namespace LenStat

variable {dom : Domain} {st st' : LenStat}

/-- `cnt_total`. -/
def total (st : LenStat) : ℕ := st.cntSingular + st.cntAnd + st.cntOr + st.cntMixed

/-- A disjunction and a conjunction are asked only about terms of their own kind. -/
theorem andAlso_total {a : Bool} {b : Except Abort Bool} (h : a = true → ∃ r, b = .ok r) :
    ∃ r, andAlso a b = .ok r := by
  cases a with
  | false => exact ⟨false, rfl⟩
  | true => exact h rfl

/-- **Every interaction is of one form.** -/
theorem classify_total {e : Z3Ast} (he : e.Proper) :
    ∃ st', classify dom st e = .ok st' ∧ st'.total = st.total + 1 := by
  obtain ⟨kind, name, args, rfl⟩ : ∃ kind name args, e = .app kind name args := by
    cases e with
    | other => exact he.elim
    | app kind name args => exact ⟨kind, name, args, rfl⟩
  have hand : ∃ r, andAlso (Z3Ast.app kind name args).isAnd
      ((Z3Ast.app kind name args).isPure dom .and .or) = .ok r := by
    refine andAlso_total fun hkind => ?_
    cases kind <;> simp only [Z3Ast.isAnd, Bool.false_eq_true] at hkind
    exact Z3Ast.isPure_total (.inl rfl) he
  have hor : ∃ r, andAlso (Z3Ast.app kind name args).isOr
      ((Z3Ast.app kind name args).isPure dom .or .uninterpreted) = .ok r := by
    refine andAlso_total fun hkind => ?_
    cases kind <;> simp only [Z3Ast.isOr, Bool.false_eq_true] at hkind
    exact Z3Ast.isPure_total (.inr rfl) he
  have hcompat : ∃ r, (Z3Ast.app kind name args).isIgenCompat dom = .ok r := by
    rw [Z3Ast.Proper] at he
    cases kind with
    | and =>
        rw [Z3Ast.isIgenCompat, check_pos (List.length_pos_iff.mpr (he.2.1 (.inl rfl))), ok_bind]
        exact Z3Ast.igenClauses_total he.2.2 false
    | or => exact ⟨false, rfl⟩
    | eq => exact ⟨false, rfl⟩
    | uninterpreted => exact ⟨false, rfl⟩
    | other => exact ⟨false, rfl⟩
  obtain ⟨pureAnd, hand⟩ := hand
  obtain ⟨pureOr, hor⟩ := hor
  obtain ⟨igCompat, hcompat⟩ := hcompat
  unfold classify
  rw [hand, hor, hcompat]
  simp only [ok_bind]
  split
  · exact ⟨_, rfl, by simp only [total]; omega⟩
  · split
    · exact ⟨_, rfl, by simp only [total]; omega⟩
    · split
      · exact ⟨_, rfl, by simp only [total]; omega⟩
      · exact ⟨_, rfl, by simp only [total]; omega⟩

/-- **One location.**  No check fires; the first location of a group is counted once. -/
theorem addLoc_total {dat : LocEntry Z3Ast} (he : dat.e.Proper) :
    ∃ st', addLoc dom st dat = .ok st' ∧
      st'.total = st.total + ([dat].filter LocEntry.isFirst).length := by
  unfold addLoc
  split
  · next hfirst =>
      obtain ⟨vars, hvars⟩ := Z3Ast.collectVars_total he ∅
      have happ : dat.e.isApp = true := by
        cases hdat : dat.e with
        | other =>
            rw [hdat] at he
            exact he.elim
        | app kind name args => rfl
      obtain ⟨st', hst', htotal⟩ :=
        @classify_total dom { st with vecLen := st.vecLen ++ [(vars.card : ℤ)] } _ he
      refine ⟨st', ?_, ?_⟩
      · rw [hvars, ok_bind, check_pos happ, ok_bind, hst']
      · rw [htotal]
        simp [total, hfirst]
  · next hno =>
      exact ⟨st, rfl, by simp [hno]⟩

/-- **All locations.** -/
theorem foldlM_total {dats : List (LocEntry Z3Ast)} (he : ∀ dat ∈ dats, dat.e.Proper)
    (st : LenStat) : ∃ st', dats.foldlM (addLoc dom) st = .ok st' ∧
      st'.total = st.total + (dats.filter LocEntry.isFirst).length := by
  induction dats generalizing st with
  | nil => exact ⟨st, rfl, rfl⟩
  | cons dat dats ih =>
      rw [List.forall_mem_cons] at he
      obtain ⟨st₁, hfirst, hone⟩ := @addLoc_total dom st _ he.1
      obtain ⟨st₂, hrest, hall⟩ := ih he.2 st₁
      refine ⟨st₂, by rw [List.foldlM_cons, hfirst, ok_bind, hrest], ?_⟩
      rw [hall, hone, Nat.add_assoc, ← List.length_append, ← List.filter_append,
        List.singleton_append]

end LenStat

/-! ## The greatest and the middle length -/

theorem maxElement_total {vec : List ℤ} (hne : vec ≠ []) :
    ∃ m, maxElement vec = .ok m ∧ m ∈ vec ∧ ∀ n ∈ vec, n ≤ m := by
  obtain ⟨x, xs, rfl⟩ := List.exists_cons_of_ne_nil hne
  refine ⟨_, rfl, ?_⟩
  induction xs generalizing x with
  | nil => exact ⟨List.mem_singleton_self x, fun n hn => (List.mem_singleton.mp hn).le⟩
  | cons y ys ih =>
      obtain ⟨hmem, hle⟩ := ih (max x y) (List.cons_ne_nil _ _)
      rw [List.foldl_cons]
      constructor
      · rcases List.mem_cons.mp hmem with heq | hin
        · rw [heq]
          rcases max_choice x y with hmax | hmax <;> rw [hmax] <;> simp
        · exact List.mem_cons_of_mem _ (List.mem_cons_of_mem _ hin)
      · intro n hn
        rcases List.mem_cons.mp hn with rfl | hn
        · exact (le_max_left n y).trans (hle _ List.mem_cons_self)
        · rcases List.mem_cons.mp hn with rfl | hn
          · exact (le_max_right x n).trans (hle _ List.mem_cons_self)
          · exact hle n (List.mem_cons_of_mem _ hn)

/-- The median of lengths of which no two are too large. -/
theorem vecMedian_total {vec : List ℤ} (hne : vec ≠ []) (hvec : ∀ n ∈ vec, 2 * n ≤ intMax) :
    ∃ m, vecMedian vec = .ok m := by
  have hpos := List.length_pos_iff.mpr hne
  have hget : ∀ j < vec.length, ∃ x, vecAt vec j = .ok x ∧ 2 * x ≤ intMax := by
    intro j hj
    have hx := List.getElem?_eq_getElem hj
    exact ⟨_, vecAt_of_getElem? hx, hvec _ (List.mem_of_getElem? hx)⟩
  obtain ⟨a, ha, hale⟩ := hget (vec.length / 2) (by omega)
  obtain ⟨b, hb, hble⟩ := hget (vec.length / 2 - 1) (by omega)
  unfold vecMedian
  dsimp only
  rw [if_neg hpos.ne', ha, hb]
  split
  · rw [ok_bind, ok_bind, addInt, check_pos (by omega)]
    exact ⟨_, rfl⟩
  · exact ⟨_, rfl⟩

/-- **The interactions of a file**, when there are some. -/
theorem runAnalyze2_total {Name : Type} {dom : Domain} {ma : List (Name × LocEntry Z3Ast)}
    (hproper : ∀ p ∈ ma, p.2.e.Proper) (hshort : ∀ p ∈ ma, 2 * p.2.len ≤ intMax)
    (hne : lengths ma ≠ []) : ∃ a, runAnalyze2 dom ma = .ok a ∧
      a.cntTotal = (lengths ma).length ∧ a.maxLen ∈ lengths ma ∧ ∀ n ∈ lengths ma, n ≤ a.maxLen := by
  have hproper' : ∀ dat ∈ ma.map Prod.snd, dat.e.Proper := by
    intro dat hdat
    obtain ⟨p, hp, rfl⟩ := List.mem_map.mp hdat
    exact hproper p hp
  have hlen : ∀ n ∈ lengths ma, 2 * n ≤ intMax := by
    intro n hn
    obtain ⟨dat, hdat, rfl⟩ := List.mem_map.mp hn
    obtain ⟨p, hp, rfl⟩ := List.mem_map.mp (List.mem_of_mem_filter hdat)
    exact hshort p hp
  obtain ⟨stat, hstat, htotal⟩ := @LenStat.foldlM_total dom _ hproper' {}
  have hvec : stat.vecLen = lengths ma := by
    rw [LenStat.foldlM_vecLen hstat]
    rfl
  obtain ⟨maxLen, hmax, hgreatest⟩ := maxElement_total hne
  obtain ⟨median, hmedian⟩ := vecMedian_total hne hlen
  refine ⟨{ stat, maxLen, cntTotal := stat.total, medianLen := truncInt median }, ?_, ?_, hgreatest⟩
  · rw [runAnalyze2, hstat, ok_bind, hvec, hmax, ok_bind, hmedian, ok_bind]
    rfl
  · rw [lengths, List.length_map]
    exact htotal.trans (Nat.zero_add _)

/-! ## The function -/

section Code

variable {Expr : Type}

/-- The entries with Z3's own terms for their formulas. -/
def ReadSt.terms (st : ReadSt Expr) (ast : Expr → Z3Ast) : List (Str × LocEntry Z3Ast) :=
  st.byName.map fun p => (p.1, p.2.withExpr (ast p.2.e))

/-- `run_analyze_2` on the text of the file. -/
def runAnalyze2Text (dom : Domain) (z : Z3Text Expr) (ast : Expr → Z3Ast) (text : Str)
    (analyzer : Analyzer) : Except AnalyzerFault (Analysis2 × StatusLine.Params) := do
  let st ← readFile dom z (some []) analyzer text
  let params ← StatusLine.splitParams (st.globalComments.getD [])
  let analysis ← runAnalyze2 dom (st.terms ast)
  let numbers ← StatusLine.readParams params
  .ok (analysis, numbers)

end Code

section Reading

variable {Expr : Type} {dom : Domain} {z : Z3Text Expr} {holds : Expr → (ℕ → ℕ) → Prop}
  {strat : ExprStrat} {expensiveSimplify leak : Bool} {r : Report Str} {st : ReadSt Expr}
  {ast : Expr → Z3Ast}

/-- What has been read for a group. -/
def Group.ReadAs (dom : Domain) (z : Z3Text Expr) (expensiveSimplify : Bool) (g : Group Str)
    (e : Expr) : Prop :=
  z.reread dom (g.finalExpr z expensiveSimplify) = .ok e

/-- There is one length for each group. -/
theorem ReadTo.length_lengths (h : ReadTo dom z holds strat expensiveSimplify leak r.groups st)
    (hr : r.Printed dom strat) (htagged : st.Tagged) :
    (lengths (st.terms ast)).length = r.groups.length := by
  have hfirsts : ((st.terms ast).map Prod.snd).filter LocEntry.isFirst =
      (st.byName.filter fun p => p.2.isFirst).map fun p => p.2.withExpr (ast p.2.e) := by
    rw [ReadSt.terms, List.map_map, List.filter_map]
    rfl
  rw [lengths, List.length_map, hfirsts, List.length_map, ← hr.length_firstLocs,
    ← (h.firsts_perm hr htagged).length_eq, List.length_map]

/-- The term of an entry is that of its group. -/
theorem ReadTo.term_of_mem (h : ReadTo dom z holds strat expensiveSimplify leak r.groups st)
    {p : Str × LocEntry Z3Ast} (hp : p ∈ st.terms ast) :
    ∃ g ∈ r.groups, p.1 ∈ g.names ∧ ∃ e, g.ReadAs dom z expensiveSimplify e ∧ p.2.e = ast e := by
  obtain ⟨q, hq, rfl⟩ := List.mem_map.mp hp
  obtain ⟨q', hq', rfl⟩ := List.mem_map.mp (st.byName_perm.mem_iff.mp hq)
  obtain ⟨g, hg, hname, he⟩ := h.exprs q' hq'
  exact ⟨g, hg, hname, _, he, rfl⟩

/-- **The lengths are those of the groups.** -/
theorem ReadTo.mem_lengths_iff (h : ReadTo dom z holds strat expensiveSimplify leak r.groups st)
    (hr : r.Printed dom strat) (htagged : st.Tagged) {n : ℤ} : n ∈ lengths (st.terms ast) ↔
      ∃ g ∈ r.groups, ∃ e, g.ReadAs dom z expensiveSimplify e ∧ n = (ast e).vars.card := by
  constructor
  · intro hn
    obtain ⟨dat, hdat, rfl⟩ := List.mem_map.mp hn
    obtain ⟨p, hp, rfl⟩ := List.mem_map.mp (List.mem_of_mem_filter hdat)
    obtain ⟨g, hg, -, e, he, heq⟩ := h.term_of_mem hp
    exact ⟨g, hg, e, he, by rw [LocEntry.len, heq]⟩
  · rintro ⟨g, hg, e, he, rfl⟩
    -- the first location of the group has an entry, and it is that of the group
    obtain ⟨s, names, hnames⟩ := List.exists_cons_of_ne_nil (hr.names_ne g hg)
    have hfirst : s ∈ r.firstLocs := List.mem_filterMap.mpr ⟨g, hg, by rw [hnames]; rfl⟩
    rw [← (h.firsts_perm hr htagged).mem_iff] at hfirst
    obtain ⟨q, hq, rfl⟩ := List.mem_map.mp hfirst
    obtain ⟨hq, hmarked⟩ := List.mem_filter.mp hq
    have hmem : (q.1, q.2.withExpr (ast q.2.e)) ∈ st.terms ast := List.mem_map_of_mem hq
    obtain ⟨g', hg', hname, e', he', heq⟩ := h.term_of_mem hmem
    obtain rfl := hr.group_unique hg hg' (by rw [hnames]; exact List.mem_cons_self) hname
    obtain rfl := Except.ok.inj (he.symm.trans he')
    refine List.mem_map.mpr ⟨_, List.mem_filter.mpr ⟨List.mem_map_of_mem hmem, hmarked⟩, ?_⟩
    rw [LocEntry.len, heq]

/-- **A file that has been read** is analyzed. -/
theorem ReadTo.runAnalyze2Text
    (hto : ReadTo dom z holds strat expensiveSimplify leak r.groups st) (hr : r.Printed dom strat)
    (htagged : st.Tagged)
    (hforms : ∀ g ∈ r.groups, ∀ e, g.ReadAs dom z expensiveSimplify e →
      (ast e).Proper ∧ 2 * ((ast e).vars.card : ℤ) ≤ intMax)
    {analyzer : Analyzer} {text : Str} {gcmt : List Str} {h : Header}
    (hread : readFile dom z (some []) analyzer text = .ok st)
    (hgcmt : st.globalComments = some gcmt) (hline : gcmt[2]? = some (h.statusLine r))
    (hfits : StatusLine.Fits h r) :
    (r.groups = [] → runAnalyze2Text dom z ast text analyzer = .error (.lower .outOfRange)) ∧
      (r.groups ≠ [] → ∃ a,
        runAnalyze2Text dom z ast text analyzer = .ok (a, StatusLine.params h r) ∧
          a.cntTotal = r.groups.length ∧ a.maxLen ∈ lengths (st.terms ast) ∧
          ∀ n ∈ lengths (st.terms ast), n ≤ a.maxLen) := by
  have hlen := @ReadTo.length_lengths _ _ _ _ _ _ _ _ _ ast hto hr htagged
  have hterm : ∀ p ∈ st.terms ast, p.2.e.Proper ∧ 2 * p.2.len ≤ intMax := by
    intro p hp
    obtain ⟨g, hg, -, e, he, heq⟩ := hto.term_of_mem hp
    rw [LocEntry.len, heq]
    exact hforms g hg e he
  have hsplit := StatusLine.splitParams_eq hline
  constructor
  · intro hnil
    -- nothing has been read, so there is no greatest length
    have hnone : st.terms ast = [] := by
      refine List.eq_nil_iff_forall_not_mem.mpr fun p hp => ?_
      obtain ⟨g, hg, -⟩ := hto.term_of_mem hp
      rw [hnil] at hg
      cases hg
    unfold GenTree.runAnalyze2Text
    rw [hread, liftM_ok, ok_bind, hgcmt, Option.getD_some, hsplit, liftParam_ok, ok_bind, hnone]
    rfl
  · intro hne
    obtain ⟨a, hanalyze, htotal, hmem, hle⟩ := @runAnalyze2_total _ dom _
      (fun p hp => (hterm p hp).1) (fun p hp => (hterm p hp).2) (by
        intro hnil
        rw [hnil] at hlen
        exact hne (List.length_eq_zero_iff.mp hlen.symm))
    refine ⟨a, ?_, htotal.trans hlen, hmem, hle⟩
    unfold GenTree.runAnalyze2Text
    rw [hread, liftM_ok, ok_bind, hgcmt, Option.getD_some, hsplit, liftParam_ok, ok_bind, hanalyze,
      liftM_ok, ok_bind, StatusLine.readParams_eq hfits, liftParam_ok, ok_bind]

end Reading

/-! ## Reports of runs -/

/-- **The result of every report.**  Whatever run has written a report that can be read,
`run_analyze_2` reads it.  With at least one group it returns every number of the status line
under its own name, the number of groups, and the greatest number of options in an
interaction; with no group it takes the maximum of nothing.

The formulas are those that Z3 has read (`Group.ReadAs`), and what is asked of Z3's terms is
asked of them only. -/
theorem RunsTo.report_params {Hash Expr : Type} [DecidableEq Hash] {env : Env Str Hash}
    {guard : Label × St Str Hash → Prop} {l : Label} {s : St Str Hash}
    (hrun : RunsTo env guard l s) {r : Report Str} (hr : r ∈ s.reports) {z : Z3Text Expr}
    {holds : Expr → (ℕ → ℕ) → Prop} (hz : z.Correct env.dom holds) {expensiveSimplify : Bool}
    (hreadable : r.Readable env.dom z holds expensiveSimplify) {h : Header}
    (hargs : '\n' ∉ h.argLine) {analyzer : Analyzer} (hclean : analyzer.Clean)
    (hfits : StatusLine.Fits h r) {ast : Expr → Z3Ast}
    (hforms : ∀ g ∈ r.groups, ∀ e, g.ReadAs env.dom z expensiveSimplify e →
      (ast e).Proper ∧ 2 * ((ast e).vars.card : ℤ) ≤ intMax) :
    (r.groups = [] → runAnalyze2Text env.dom z ast (r.text z h expensiveSimplify) analyzer =
        .error (.lower .outOfRange)) ∧
      (r.groups ≠ [] → ∃ a,
        runAnalyze2Text env.dom z ast (r.text z h expensiveSimplify) analyzer =
            .ok (a, StatusLine.params h r) ∧
          a.cntTotal = r.groups.length ∧
          (∃ g ∈ r.groups, ∃ e, g.ReadAs env.dom z expensiveSimplify e ∧
            a.maxLen = (ast e).vars.card) ∧
          ∀ g ∈ r.groups, ∀ e, g.ReadAs env.dom z expensiveSimplify e →
            ((ast e).vars.card : ℤ) ≤ a.maxLen) := by
  have hprinted := hrun.reports_printed r hr
  obtain ⟨st, hread, hto⟩ := hprinted.readFile hz hreadable hargs hclean (some [])
  obtain ⟨gcmt, hgcmt, hline⟩ := readFile_comments hargs hread
  have htagged := readFile_tagged hread
  obtain ⟨hnone, hsome⟩ :=
    hto.runAnalyze2Text hprinted htagged hforms hread hgcmt hline hfits
  refine ⟨hnone, fun hne => ?_⟩
  obtain ⟨a, hrun, htotal, hmem, hle⟩ := hsome hne
  refine ⟨a, hrun, htotal, (hto.mem_lengths_iff hprinted htagged).mp hmem, fun g hg e he => ?_⟩
  exact hle _ ((hto.mem_lengths_iff hprinted htagged).mpr ⟨g, hg, e, he, rfl⟩)

/-! ## A small result -/

/-- Z3's terms for the formulas of one switch. -/
def ZExpr.switchTerm : ZExpr → Z3Ast
  | .ztrue => .app .other "true" []
  | .eq _ val =>
      .app .eq "=" [.app .uninterpreted "0" [], .app .other (toString val) []]
  | _ => .other

theorem ZExpr.switchTerm_proper {e : ZExpr} (he : e ∈ ofSwitch) : e.switchTerm.Proper := by
  simp only [ofSwitch, List.mem_cons, List.not_mem_nil, or_false] at he
  rcases he with rfl | rfl | rfl <;> simp [switchTerm, Z3Ast.Proper, Z3Ast.ProperAll]

theorem ZExpr.card_vars_switchTerm {e : ZExpr} (he : e ∈ ofSwitch) :
    e.switchTerm.vars.card ≤ 1 := by
  simp only [ofSwitch, List.mem_cons, List.not_mem_nil, or_false] at he
  rcases he with rfl | rfl | rfl <;>
    simp [switchTerm, Z3Ast.vars, Z3Ast.varsAll]

/-- A report with the formulas of one switch: two groups, and one option in each formula. -/
theorem RunsTo.report_params_switchOn : ∃ l s r,
    RunsTo (.switching predNames predNames_nodup) (fun _ => True) l s ∧ r ∈ s.reports ∧
      ∃ a, runAnalyze2Text Env.switchOn.dom Z3Text.onOff ZExpr.switchTerm
          (r.text .onOff (.ofArgs [['-', 'O'], ['b', '.', 't', 'x', 't']]) false) {} =
            .ok (a, StatusLine.params (.ofArgs [['-', 'O'], ['b', '.', 't', 'x', 't']]) r) ∧
        a.cntTotal = 2 ∧ a.maxLen ≤ 1 := by
  obtain ⟨-, -, -, l, s, r, -, -, hrun, hr, hsmall, -, hsaid⟩ := Env.exists_onOff_reports
  have hreadable := hsaid.readable (by decide) (by decide) (by decide)
  have hargs : '\n' ∉ (Header.ofArgs [['-', 'O'], ['b', '.', 't', 'x', 't']]).argLine := by decide
  have hclean : ({} : Analyzer).Clean := fun _ _ h => by cases h
  have hdom : (Env.switching predNames predNames_nodup).dom = Env.switchOn.dom := rfl
  -- what is read are formulas of the switch
  have hforms : ∀ g ∈ r.groups, ∀ e, g.ReadAs Env.switchOn.dom .onOff false e →
      e ∈ ZExpr.ofSwitch := by
    intro g hg e he
    rw [hsaid.eq_of_reread (by decide) hg he]
    have hmem : (g.names, g.expr) ∈ _ := hsaid ▸ List.mem_map_of_mem hg
    exact ZExpr.mem_ofSwitch ((by decide : ∀ p ∈ [([['a'], ['b']], ZExpr.eq 0 0),
      ([['d']], ZExpr.eq 0 1)], p.2.switchIdx.isSome) _ hmem)
  have hparams := @RunsTo.report_params (List ℤ) ZExpr _ _ _ _ _ hrun _ hr .onOff ZExpr.Holds
  rw [hdom] at hparams
  obtain ⟨-, hsome⟩ := hparams Z3Text.onOff_correct hreadable hargs hclean
    (StatusLine.fits_of_small hsmall) fun g hg e he => by
      have hcard := ZExpr.card_vars_switchTerm (hforms g hg e he)
      refine ⟨ZExpr.switchTerm_proper (hforms g hg e he), ?_⟩
      unfold intMax
      omega
  obtain ⟨a, hres, htotal, ⟨g, hg, e, he, hmax⟩, -⟩ := hsome (by
    intro hnil
    have hlen := hsaid.length
    rw [hnil] at hlen
    cases hlen)
  refine ⟨l, s, r, hrun, hr, a, hres, htotal.trans hsaid.length, ?_⟩
  rw [hmax]
  exact_mod_cast ZExpr.card_vars_switchTerm (hforms g hg e he)

end GenTree

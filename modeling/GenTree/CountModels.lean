import GenTree.Exhaustive
import GenTree.Expr
import GenTree.Library.Peeling
import Mathlib.Algebra.BigOperators.Ring.List
import Mathlib.Data.Finset.Basic

/-!
# Counting models

`Analyzer::count_models` asks Z3 for models of a formula again and again.  A model may leave
options out, and then it stands for a *cube*, all configurations that have the values it
does give.  `to_expr` turns the model into the conjunction that describes the cube and
multiplies up its size; the negation of the conjunction is asserted, so that no later model
has a configuration of the cube.  The counts are kept under the hash of the formula and the
limit.

Z3 is code outside the repository.  `Z3` is its interface as `count_models` uses it, for any
type of expressions, and `Z3.Correct` what the program relies on.  The loop then peels cubes
off the set of solutions (`countLoop_spec`).
-/

namespace GenTree

open Outcome Peeling

/-! ## The functions -/

/-- The answer of `solver->check()`, with `get_model()`. -/
inductive CheckResult
  | unsat
  | unknown
  | sat (m : ZModel)

/-- What `count_models` uses of Z3: `build` is what the operators of `z3::expr` make of a
formula, `hash` is `expr::hash`, and `check` is given the formulas that have been added to
the solver.  Its first argument counts the calls, so that the answer may depend on
everything that happened before. -/
structure Z3 (Expr : Type) where
  build : ZExpr → Expr
  hash : Expr → UInt32
  check : ℕ → List Expr → CheckResult

/-- The cache of an `Analyzer`, and the number of checks it has made. -/
structure Analyzer where
  cacheCountModels : UInt32 × ℤ → Option ℕ := fun _ => none
  nCheck : ℕ := 0

/-- `Analyzer::to_expr`: the conjunction of what the model says, and `ncex` times the number
of configurations that agree with it. -/
def toExpr (dom : Domain) (m : ZModel) (ncex : ℕ) : Except Abort (ZExpr × ℕ) := do
  let (vecExpr, ncex) ← (List.range dom.nVars).foldlM (fun (vecExpr, ncex) id =>
    match m id with
    | some v => do
        -- `val_id_of(v)`
        check (v < dom.nValues id) .modelValue
        .ok (vecExpr ++ [.eq id v], ncex)
    | none => .ok (vecExpr, ncex * dom.nValues id)) ([], ncex)
  .ok (.mkAnd vecExpr, ncex)

/-- The loop of `count_models`, for at most `left` more runs.  Returns `ncex`, `v_models`
and the number of checks. -/
def countLoop {Expr : Type} (dom : Domain) (z : Z3 Expr) :
    ℕ → List Expr → ℕ → Option (List Expr) → ℕ → Except Abort (ℕ × Option (List Expr) × ℕ)
  | 0, _, ncex, vModels, nCheck => .ok (ncex, vModels, nCheck)
  | left + 1, solver, ncex, vModels, nCheck =>
      match z.check nCheck solver with
      | .unsat => .ok (ncex, vModels, nCheck + 1)
      | .unknown => .ok (max ncex 1, vModels, nCheck + 1)
      | .sat m => do
          let (mexpr, thisCex) ← toExpr dom m 1
          countLoop dom z left (solver ++ [z.build (.not mexpr)]) (ncex + thisCex)
            (vModels.map (· ++ [z.build mexpr])) (nCheck + 1)

/-- `count_models`; `none` for `v_models` is the null pointer.  The count is a `double` in
the source. -/
def countModels {Expr : Type} (dom : Domain) (z : Z3 Expr) (ex : Expr) (limNRuns : ℤ)
    (vModels : Option (List Expr)) (st : Analyzer) :
    Except Abort (ℕ × Option (List Expr) × Analyzer) :=
  let cacheKey := (z.hash ex, limNRuns)
  match vModels, st.cacheCountModels cacheKey with
  | none, some ncex => .ok (ncex, none, st)
  | vModels, _ => do
      let (ncex, vModels, nCheck) ← countLoop dom z limNRuns.toNat [ex] 0 vModels st.nCheck
      .ok (ncex, vModels,
        { cacheCountModels := Function.update st.cacheCountModels cacheKey (some ncex), nCheck })

/-- `DEF_LIM_MODELS`. -/
def defLimModels : ℤ := intMax

/-! ## Cubes -/

namespace ZModel

variable {dom : Domain}

/-- The values the model gives are values of the options. -/
def InRange (dom : Domain) (m : ZModel) : Prop :=
  ∀ var < dom.nVars, ∀ v, m var = some v → v < dom.nValues var

/-- The configuration **completes** the model. -/
def Completes (dom : Domain) (m : ZModel) (c : Config) : Prop :=
  ∀ var < dom.nVars, ∀ v, m var = some v → c.val var = v

/-- What the model says, as a formula. -/
def expr (dom : Domain) (m : ZModel) : ZExpr :=
  .mkAnd ((List.range dom.nVars).filterMap fun id => (m id).map (ZExpr.eq id))

/-- The number of configurations that complete the model. -/
def size (dom : Domain) (m : ZModel) : ℕ :=
  ((List.range dom.nVars).map fun id => if m id = none then dom.nValues id else 1).prod

theorem sat_expr (m : ZModel) (c : Config) :
    (m.expr dom).sat c.val = true ↔ m.Completes dom c := by
  rw [expr, ZExpr.sat_mkAnd, List.all_eq_true]
  constructor
  · intro h var hvar v hv
    have hmem : ZExpr.eq var v ∈
        (List.range dom.nVars).filterMap fun id => (m id).map (ZExpr.eq id) :=
      List.mem_filterMap.mpr ⟨var, List.mem_range.mpr hvar, by rw [hv]; rfl⟩
    simpa using h _ hmem
  · intro h e he
    obtain ⟨var, hvar, heq⟩ := List.mem_filterMap.mp he
    obtain ⟨v, hv, rfl⟩ := Option.map_eq_some_iff.mp heq
    simpa using h var (List.mem_range.mp hvar) v hv

/-- **`to_expr`** describes the cube and measures it. -/
theorem toExpr_eq {m : ZModel} (h : m.InRange dom) (ncex : ℕ) :
    toExpr dom m ncex = .ok (m.expr dom, ncex * m.size dom) := by
  unfold toExpr expr size
  suffices hfold : ∀ (l : List ℕ) (es : List ZExpr) (n : ℕ), (∀ id ∈ l, id < dom.nVars) →
      l.foldlM _ (es, n) = (.ok (es ++ l.filterMap fun id => (m id).map (ZExpr.eq id),
        n * (l.map fun id => if m id = none then dom.nValues id else 1).prod) :
          Except Abort (List ZExpr × ℕ)) by
    rw [hfold _ [] ncex fun id hid => List.mem_range.mp hid]
    rfl
  intro l
  induction l with
  | nil =>
      intro es n _
      rw [List.filterMap_nil, List.map_nil, List.prod_nil, List.append_nil, Nat.mul_one]
      rfl
  | cons id l ih =>
      intro es n hl
      obtain ⟨hid, hl⟩ := List.forall_mem_cons.mp hl
      rw [List.foldlM_cons]
      cases hm : m id with
      | none =>
          rw [ok_bind, ih _ _ hl]
          simp [hm, Nat.mul_assoc]
      | some v =>
          simp only [check_pos (h id hid v hm), ok_bind]
          rw [ih _ _ hl]
          simp [hm]

end ZModel

/-- The values of the complete configurations. -/
def space (dom : Domain) : Finset (List ℤ) := (allValues dom.vars).toFinset

theorem mem_space {dom : Domain} {values : List ℤ} :
    values ∈ space dom ↔ ({ values } : Config).Complete dom := by
  rw [space, List.mem_toFinset, complete_iff_mem_allValues]

namespace ZModel

variable {dom : Domain} {m : ZModel}

instance (dom : Domain) (m : ZModel) : DecidablePred (m.Completes dom) := fun c =>
  decidable_of_iff (∀ var < dom.nVars, m var = none ∨ m var = some (c.val var)) <| by
    refine forall₂_congr fun var _ => ?_
    cases m var with
    | none => simp
    | some v => simp [eq_comm]

/-- The configurations a model stands for. -/
def cube (dom : Domain) (m : ZModel) : Finset (List ℤ) :=
  (space dom).filter fun values => m.Completes dom { values }

theorem mem_cube {values : List ℤ} :
    values ∈ m.cube dom ↔
      ({ values } : Config).Complete dom ∧ m.Completes dom { values } := by
  rw [cube, Finset.mem_filter, mem_space]

/-- The model as a template. -/
def templ (dom : Domain) (m : ZModel) : Config where
  values := (List.range dom.nVars).map fun id => (m id).elim (-1) Nat.cast

theorem getElem?_templ {var : ℕ} (hvar : var < dom.nVars) :
    (m.templ dom).values[var]? = some ((m var).elim (-1) Nat.cast) := by
  simp [templ, hvar]

theorem templ_template (h : m.InRange dom) : (m.templ dom).Template dom := by
  refine ⟨by simp [templ], fun var t ht => ?_⟩
  have hvar : var < dom.nVars := by
    simpa [templ] using (List.getElem?_eq_some_iff.mp ht).1
  rw [getElem?_templ hvar, Option.some.injEq] at ht
  subst ht
  cases hm : m var with
  | none => exact .inl rfl
  | some v =>
      have := h var hvar v hm
      exact .inr ⟨Int.natCast_nonneg v, by simpa using this⟩

theorem templ_matches_iff {c : Config} (hc : c.Complete dom) :
    (m.templ dom).Matches dom c ↔ m.Completes dom c := by
  refine forall₂_congr fun var hvar => ?_
  rw [getElem?_templ hvar, hc.getElem? hvar]
  cases m var with
  | none => simp
  | some v =>
      have hne : (v : ℤ) ≠ -1 := by omega
      simp only [Option.elim_some, Option.some.injEq, hne, false_or, forall_eq']
      omega

theorem prod_openOptions_range' (m : ZModel) (g : ℕ → ℕ) (vs : List VarDomain) (k : ℕ)
    (hg : ∀ (i : ℕ) (v : VarDomain), vs[i]? = some v → g (k + i) = v.nValues) :
    ((openOptions vs ((List.range' k vs.length).map fun id => (m id).elim (-1) Nat.cast)).map
        VarDomain.nValues).prod =
      ((List.range' k vs.length).map fun id => if m id = none then g id else 1).prod := by
  induction vs generalizing k with
  | nil => simp [openOptions]
  | cons v vs ih =>
      have hrest := ih (k + 1) fun i w hw => by
        have := hg (i + 1) w (by simpa using hw)
        rwa [show k + 1 + i = k + (i + 1) by omega]
      have hv : g k = v.nValues := hg 0 v rfl
      unfold openOptions at hrest ⊢
      rw [List.length_cons, List.range'_succ, List.map_cons, List.map_cons, List.prod_cons, ← hrest,
        List.zip_cons_cons]
      cases hm : m k with
      | none => simp [hv]
      | some x =>
          have hne : (x : ℤ) ≠ -1 := by omega
          simp [hne]

/-- The value counts of the options the model leaves open. -/
theorem prod_openOptions (m : ZModel) :
    ((openOptions dom.vars (m.templ dom).values).map VarDomain.nValues).prod = m.size dom := by
  have hrange := prod_openOptions_range' m dom.nValues dom.vars 0 fun i v hv => by
    rw [Nat.zero_add, Domain.nValues_of_getElem? hv]
  rw [← List.range_eq_range'] at hrange
  exact hrange

/-- **The size of a cube.** -/
theorem card_cube (h : m.InRange dom) : (m.cube dom).card = m.size dom := by
  have hcube : m.cube dom = (templValues dom.vars (m.templ dom).values).toFinset := by
    ext values
    have htempl := templ_template h
    rw [mem_cube, List.mem_toFinset, mem_templValues (fits_of_template htempl)]
    constructor
    · rintro ⟨hc, hm⟩
      exact ⟨mem_allValues.mp (complete_iff_mem_allValues.mp hc),
        (agrees_iff_matches htempl hc.1).mpr ((templ_matches_iff hc).mpr hm)⟩
    · rintro ⟨hhas, hagree⟩
      have hc : ({ values } : Config).Complete dom :=
        complete_iff_mem_allValues.mpr (mem_allValues.mpr hhas)
      exact ⟨hc, (templ_matches_iff hc).mp ((agrees_iff_matches htempl hc.1).mp hagree)⟩
  rw [hcube, List.toFinset_card_of_nodup, length_templValues, prod_openOptions]
  exact (pairwise_templValues _ _).imp ne_of_lt

end ZModel

/-! ## What is asked of the solver -/

/-- **What the program relies on**: the operators of `z3::expr` mean what they say, `unsat`
is right, the solver never gives up, and every completion of a model satisfies what has
been asserted.  `holds` is the meaning of an expression under an assignment. -/
structure Z3.Correct {Expr : Type} (dom : Domain) (z : Z3 Expr)
    (holds : Expr → (ℕ → ℕ) → Prop) : Prop where
  build : ∀ (f : ZExpr) (c : Config), c.Complete dom → (holds (z.build f) c.val ↔ f.sat c.val = true)
  unsat : ∀ n solver, z.check n solver = .unsat → ∀ c : Config, c.Complete dom →
    ¬∀ e ∈ solver, holds e c.val
  known : ∀ n solver, z.check n solver ≠ .unknown
  inRange : ∀ n solver m, z.check n solver = .sat m → m.InRange dom
  model : ∀ n solver m, z.check n solver = .sat m → ∀ c : Config, c.Complete dom →
    m.Completes dom c → ∀ e ∈ solver, holds e c.val

section Count

variable {Expr : Type} {dom : Domain} {z : Z3 Expr} {holds : Expr → (ℕ → ℕ) → Prop}

open Classical in
/-- The configurations that satisfy all of the expressions. -/
noncomputable def solutions (dom : Domain) (holds : Expr → (ℕ → ℕ) → Prop) (solver : List Expr) :
    Finset (List ℤ) :=
  (space dom).filter fun values => ∀ e ∈ solver, holds e (Config.val { values })

theorem mem_solutions {solver : List Expr} {values : List ℤ} :
    values ∈ solutions dom holds solver ↔ ({ values } : Config).Complete dom ∧
      ∀ e ∈ solver, holds e (Config.val { values }) := by
  simp only [solutions, Finset.mem_filter, mem_space]

theorem card_solutions_le (solver : List Expr) :
    (solutions dom holds solver).card ≤ (space dom).card :=
  Finset.card_le_card fun _ h => mem_space.mpr (mem_solutions.mp h).1

/-- There is a configuration that completes a model. -/
theorem cube_nonempty {m : ZModel} (h : m.InRange dom) : (m.cube dom).Nonempty := by
  have hfits := fits_of_template (ZModel.templ_template h)
  rw [← Finset.card_pos, ZModel.card_cube h, ZModel.size]
  refine Nat.pos_of_ne_zero (List.prod_ne_zero fun hmem => ?_)
  obtain ⟨id, hid, hzero⟩ := List.mem_map.mp hmem
  have hpos := dom.nValues_pos (List.mem_range.mp hid)
  split at hzero <;> omega

/-- Blocking a cube takes it out of the solutions. -/
theorem solutions_block (hz : z.Correct dom holds) (solver : List Expr) (m : ZModel) :
    solutions dom holds (solver ++ [z.build (.not (m.expr dom))]) =
      solutions dom holds solver \ m.cube dom := by
  ext values
  rw [Finset.mem_sdiff, mem_solutions, mem_solutions, ZModel.mem_cube, List.forall_mem_append]
  constructor
  · rintro ⟨hc, hall, hnot⟩
    refine ⟨⟨hc, hall⟩, fun hcube => ?_⟩
    have hblock := (hz.build _ _ hc).mp (hnot _ (List.mem_singleton_self _))
    rw [ZExpr.sat_not, Bool.not_eq_true', ← Bool.not_eq_true, ZModel.sat_expr] at hblock
    exact hblock hcube.2
  · rintro ⟨⟨hc, hall⟩, hnot⟩
    refine ⟨hc, hall, fun e he => ?_⟩
    rw [List.mem_singleton.mp he, hz.build _ _ hc, ZExpr.sat_not, Bool.not_eq_true',
      ← Bool.not_eq_true, ZModel.sat_expr]
    exact fun hm => hnot ⟨hc, hm⟩

/-- **The loop of `count_models`** peels cubes off the solutions.  It ends when none is left
or when it has used up its runs, and adds the sizes of the cubes. -/
theorem countLoop_spec (hz : z.Correct dom holds) (left : ℕ) (solver : List Expr) (ncex : ℕ)
    (vModels : Option (List Expr)) (nCheck : ℕ) :
    ∃ (ms : List ZModel) (R : Finset (List ℤ)) (nCheck' : ℕ),
      countLoop dom z left solver ncex vModels nCheck =
        .ok (ncex + (ms.map (ZModel.size dom)).sum,
          vModels.map (· ++ ms.map fun m => z.build (m.expr dom)), nCheck') ∧
      (∀ m ∈ ms, m.InRange dom) ∧
      Peeled (solutions dom holds solver) (ms.map (ZModel.cube dom)) R ∧
      (R = ∅ ∨ ms.length = left) := by
  induction left generalizing solver ncex vModels nCheck with
  | zero =>
      refine ⟨[], _, nCheck, ?_, by simp, .nil _, .inr rfl⟩
      rw [countLoop]
      simp
  | succ left ih =>
      rw [countLoop]
      cases hcheck : z.check nCheck solver with
      | unsat =>
          refine ⟨[], _, nCheck + 1, by simp, by simp, .nil _, .inl ?_⟩
          refine Finset.eq_empty_of_forall_notMem fun values hvalues => ?_
          obtain ⟨hc, hall⟩ := mem_solutions.mp hvalues
          exact hz.unsat _ _ hcheck _ hc hall
      | unknown => exact absurd hcheck (hz.known _ _)
      | sat m =>
          have hm := hz.inRange _ _ _ hcheck
          have hsub : m.cube dom ⊆ solutions dom holds solver := by
            intro values hvalues
            obtain ⟨hc, hcompletes⟩ := ZModel.mem_cube.mp hvalues
            exact mem_solutions.mpr ⟨hc, hz.model _ _ _ hcheck _ hc hcompletes⟩
          obtain ⟨ms, R, nCheck', hrun, hrange, hpeel, hend⟩ :=
            ih (solver ++ [z.build (.not (m.expr dom))]) (ncex + 1 * m.size dom)
              (vModels.map (· ++ [z.build (m.expr dom)])) (nCheck + 1)
          rw [solutions_block hz] at hpeel
          refine ⟨m :: ms, R, nCheck', ?_, List.forall_mem_cons.mpr ⟨hm, hrange⟩,
            .cons (cube_nonempty hm) hsub hpeel, hend.imp_right fun h => by simp [h]⟩
          dsimp only
          rw [ZModel.toExpr_eq hm, ok_bind, hrun]
          simp [Nat.add_assoc, Option.map_map, Function.comp_def]

/-- The sizes of the cubes add up to what is gone. -/
theorem sum_sizes {S R : Finset (List ℤ)} {ms : List ZModel} (hrange : ∀ m ∈ ms, m.InRange dom)
    (hpeel : Peeled S (ms.map (ZModel.cube dom)) R) :
    (ms.map (ZModel.size dom)).sum + R.card = S.card ∧
      ms.length ≤ (ms.map (ZModel.size dom)).sum := by
  have hsizes : (ms.map (ZModel.cube dom)).map Finset.card = ms.map (ZModel.size dom) := by
    rw [List.map_map]
    exact List.map_congr_left fun m hm => ZModel.card_cube (hrange m hm)
  have hcard := hpeel.sum_card
  have hlen := hpeel.length_le
  rw [hsizes] at hcard hlen
  rw [List.length_map] at hlen
  exact ⟨hcard, hlen⟩

/-! ## `count_models` -/

/-- A call whose answer is not in the cache, or that asks for the models, runs the loop. -/
theorem countModels_run {ex : Expr} {lim : ℤ} {vModels : Option (List Expr)} {st : Analyzer}
    (huncached : vModels = none → st.cacheCountModels (z.hash ex, lim) = none) :
    countModels dom z ex lim vModels st =
      countLoop dom z lim.toNat [ex] 0 vModels st.nCheck >>= fun r =>
        .ok (r.1, r.2.1,
          { cacheCountModels :=
              Function.update st.cacheCountModels (z.hash ex, lim) (some r.1)
            nCheck := r.2.2 }) := by
  cases vModels with
  | none =>
      have hnone := huncached rfl
      simp only [countModels, hnone]
  | some vs => simp only [countModels]

theorem mem_solutions_singleton {ex : Expr} {values : List ℤ} :
    values ∈ solutions dom holds [ex] ↔
      ({ values } : Config).Complete dom ∧ holds ex (Config.val { values }) := by
  rw [mem_solutions, List.forall_mem_singleton]

theorem solutions_singleton_congr {x y : Expr}
    (h : ∀ c : Config, c.Complete dom → (holds x c.val ↔ holds y c.val)) :
    solutions dom holds [x] = solutions dom holds [y] := by
  ext values
  rw [mem_solutions_singleton, mem_solutions_singleton]
  exact and_congr_right fun hc => h _ hc

theorem card_solutions_pos {ex : Expr} :
    0 < (solutions dom holds [ex]).card ↔ ∃ c : Config, c.Complete dom ∧ holds ex c.val := by
  rw [Finset.card_pos]
  constructor
  · rintro ⟨values, hvalues⟩
    exact ⟨_, mem_solutions_singleton.mp hvalues⟩
  · rintro ⟨c, hc, h⟩
    exact ⟨c.values, mem_solutions_singleton.mpr ⟨hc, h⟩⟩

/-- The expression of a model holds on its cube. -/
theorem holds_expr_iff (hz : z.Correct dom holds) {m : ZModel} {c : Config} (hc : c.Complete dom) :
    holds (z.build (m.expr dom)) c.val ↔ c.values ∈ m.cube dom := by
  rw [hz.build _ _ hc, ZModel.sat_expr, ZModel.mem_cube]
  exact ⟨fun h => ⟨hc, h⟩, fun h => h.2⟩

section Cubes

variable {S R : Finset (List ℤ)} {ms : List ZModel}

/-- Cubes that are peeled off one after the other are disjoint. -/
theorem cubes_disjoint (hz : z.Correct dom holds) (hpeel : Peeled S (ms.map (ZModel.cube dom)) R) :
    (ms.map fun m => z.build (m.expr dom)).Pairwise fun e e' =>
      ∀ c : Config, c.Complete dom → ¬(holds e c.val ∧ holds e' c.val) := by
  have hdisj := hpeel.pairwise_disjoint
  rw [List.pairwise_map] at hdisj ⊢
  refine hdisj.imp fun {m m'} hmm c hc => ?_
  rintro ⟨h, h'⟩
  exact Finset.disjoint_left.mp hmm ((holds_expr_iff hz hc).mp h) ((holds_expr_iff hz hc).mp h')

/-- Each cube implies what is counted. -/
theorem cubes_sound (hz : z.Correct dom holds) {ex : Expr}
    (hpeel : Peeled (solutions dom holds [ex]) (ms.map (ZModel.cube dom)) R) :
    ∀ e ∈ ms.map (fun m => z.build (m.expr dom)), ∀ c : Config, c.Complete dom →
      holds e c.val → holds ex c.val := by
  intro e he c hc h
  obtain ⟨m, hm, rfl⟩ := List.mem_map.mp he
  have hin := hpeel.subset_of_mem (List.mem_map_of_mem hm) ((holds_expr_iff hz hc).mp h)
  exact (mem_solutions_singleton.mp hin).2

/-- What is counted implies one of the cubes, when nothing is left. -/
theorem cubes_cover (hz : z.Correct dom holds) {ex : Expr}
    (hpeel : Peeled (solutions dom holds [ex]) (ms.map (ZModel.cube dom)) ∅) {c : Config}
    (hc : c.Complete dom) (h : holds ex c.val) :
    ∃ e ∈ ms.map (fun m => z.build (m.expr dom)), holds e c.val := by
  have hmem : c.values ∈ solutions dom holds [ex] := mem_solutions_singleton.mpr ⟨hc, h⟩
  rcases hpeel.mem_iff.mp hmem with hnone | ⟨C, hC, hin⟩
  · exact absurd hnone (Finset.notMem_empty _)
  · obtain ⟨m, hm, rfl⟩ := List.mem_map.mp hC
    exact ⟨_, List.mem_map_of_mem hm, (holds_expr_iff hz hc).mpr hin⟩

end Cubes

/-- **Exact counting.**  Without a run limit, a call that is not answered from the cache
returns the number of complete configurations that satisfy `ex`, if there are fewer than
`2 ^ 31 - 1`; the cubes it appends to `v_models` are disjoint, each implies `ex`, and `ex`
implies one of them.  With a run limit of at least one, the result is positive exactly if
`ex` is satisfiable, and never too large. -/
theorem countModels_exact (hz : z.Correct dom holds) (ex : Expr) (st : Analyzer) :
    ((solutions dom holds [ex]).card < 2 ^ 31 - 1 → ∀ vModels,
      (vModels = none → st.cacheCountModels (z.hash ex, defLimModels) = none) →
      ∃ cubes st', countModels dom z ex defLimModels vModels st =
          .ok ((solutions dom holds [ex]).card, vModels.map (· ++ cubes), st') ∧
        cubes.Pairwise (fun e e' => ∀ c : Config, c.Complete dom →
          ¬(holds e c.val ∧ holds e' c.val)) ∧
        (∀ e ∈ cubes, ∀ c : Config, c.Complete dom → holds e c.val → holds ex c.val) ∧
        ∀ c : Config, c.Complete dom → holds ex c.val → ∃ e ∈ cubes, holds e c.val) ∧
    ∀ lim : ℤ, 1 ≤ lim → ∀ vModels,
      (vModels = none → st.cacheCountModels (z.hash ex, lim) = none) →
      ∃ n out st', countModels dom z ex lim vModels st = .ok (n, out, st') ∧
        (0 < n ↔ ∃ c : Config, c.Complete dom ∧ holds ex c.val) ∧
        n ≤ (solutions dom holds [ex]).card := by
  constructor
  · intro hlt vModels huncached
    obtain ⟨ms, R, nCheck', hrun, hrange, hpeel, hend⟩ :=
      countLoop_spec hz defLimModels.toNat [ex] 0 vModels st.nCheck
    obtain ⟨hcard, hlen⟩ := sum_sizes hrange hpeel
    -- fewer cubes than runs, so the loop has ended because nothing was left
    have hR : R = ∅ := by
      refine hend.resolve_right fun hfull => ?_
      have hruns : defLimModels.toNat = 2 ^ 31 - 1 := rfl
      omega
    subst hR
    rw [Finset.card_empty, Nat.add_zero] at hcard
    have hcall := @countModels_run _ dom z _ _ _ _ huncached
    rw [hrun, ok_bind, Nat.zero_add, hcard] at hcall
    exact ⟨_, _, hcall, cubes_disjoint hz hpeel, cubes_sound hz hpeel,
      fun c hc h => cubes_cover hz hpeel hc h⟩
  · intro lim hlim vModels huncached
    obtain ⟨ms, R, nCheck', hrun, hrange, hpeel, hend⟩ :=
      countLoop_spec hz lim.toNat [ex] 0 vModels st.nCheck
    obtain ⟨hcard, hlen⟩ := sum_sizes hrange hpeel
    have hcall := @countModels_run _ dom z _ _ _ _ huncached
    rw [hrun, ok_bind, Nat.zero_add] at hcall
    refine ⟨_, _, _, hcall, ?_, by omega⟩
    rw [← card_solutions_pos]
    constructor
    · intro hpos
      omega
    · intro hpos
      rcases hend with rfl | hfull
      · rw [Finset.card_empty] at hcard
        omega
      · omega

end Count

/-! ## A solver that searches -/

/-- A formula holds under an assignment. -/
def ZExpr.Holds (e : ZExpr) (a : ℕ → ℕ) : Prop := e.sat a = true

/-- A solver that looks for the first configuration that satisfies everything. -/
def Z3.searching (dom : Domain) : Z3 ZExpr where
  build := id
  hash _ := 0
  check _ solver :=
    match (allValues dom.vars).find? fun values =>
        solver.all fun e => e.sat (Config.val { values }) with
    | none => .unsat
    | some values => .sat fun var => if var < dom.nVars then some (Config.val { values } var) else none

theorem Z3.searching_correct (dom : Domain) :
    (Z3.searching dom).Correct dom ZExpr.Holds where
  build _ _ _ := .rfl
  unsat n solver h c hc := by
    unfold searching at h
    dsimp only at h
    split at h
    · next hnone =>
        intro hall
        have hno := List.find?_eq_none.mp hnone c.values (complete_iff_mem_allValues.mp hc)
        exact hno (List.all_eq_true.mpr hall)
    · cases h
  known n solver h := by
    unfold searching at h
    dsimp only at h
    split at h <;> cases h
  inRange n solver m h := by
    unfold searching at h
    dsimp only at h
    split at h
    · cases h
    · next values hsome =>
        cases h
        intro var hvar v hv
        have hc : ({ values } : Config).Complete dom :=
          complete_iff_mem_allValues.mpr (List.mem_of_find?_eq_some hsome)
        dsimp only at hv
        rw [if_pos hvar, Option.some.injEq] at hv
        rw [← hv]
        exact hc.val_lt hvar
  model n solver m h c hc hm := by
    unfold searching at h
    dsimp only at h
    split at h
    · cases h
    · next values hsome =>
        cases h
        have hc' : ({ values } : Config).Complete dom :=
          complete_iff_mem_allValues.mpr (List.mem_of_find?_eq_some hsome)
        have hvalues : c.values = values :=
          hc.values_ext hc' fun var hvar => hm var hvar _ (if_pos hvar)
        have hall := List.find?_some hsome
        have hval : c.val = Config.val { values } := by
          funext var
          rw [Config.val, Config.val, hvalues]
        intro e he
        rw [hval]
        exact List.all_eq_true.mp hall e he

/-- Options are taken out of a model, one after the other, as long as every configuration it
then stands for is one of `ok`. -/
def ZModel.shorten (dom : Domain) (ok : List ℤ → Bool) : List ℕ → ZModel → ZModel
  | [], m => m
  | var :: vars, m =>
    let m' : ZModel := fun x => if x = var then none else m x
    if (allValues dom.vars).all fun values => !decide (m'.Completes dom { values }) || ok values then
      shorten dom ok vars m'
    else shorten dom ok vars m

/-- What stands for configurations of `ok` only still does so. -/
theorem ZModel.shorten_spec {dom : Domain} {ok : List ℤ → Bool} (vars : List ℕ) {m : ZModel}
    (hrange : m.InRange dom)
    (hok : ∀ c : Config, c.Complete dom → m.Completes dom c → ok c.values = true) :
    (m.shorten dom ok vars).InRange dom ∧ ∀ c : Config, c.Complete dom →
      (m.shorten dom ok vars).Completes dom c → ok c.values = true := by
  induction vars generalizing m with
  | nil => exact ⟨hrange, hok⟩
  | cons var vars ih =>
      rw [shorten]
      split
      · next hall =>
          refine ih (fun x hx v hv => ?_) fun c hc hcompletes => ?_
          · split at hv
            · cases hv
            · exact hrange x hx v hv
          · have hthis := List.all_eq_true.mp hall c.values (complete_iff_mem_allValues.mp hc)
            rw [Bool.or_eq_true, Bool.not_eq_true', decide_eq_false_iff_not] at hthis
            exact hthis.resolve_left fun hnot => hnot hcompletes
      · exact ih hrange hok

/-- The searching solver with models that say no more than they have to. -/
def Z3.shortening (dom : Domain) : Z3 ZExpr :=
  { Z3.searching dom with
    check := fun n solver =>
      match (Z3.searching dom).check n solver with
      | .sat m => .sat (m.shorten dom (fun values => solver.all fun e =>
          e.sat (Config.val { values })) (List.range dom.nVars))
      | .unsat => .unsat
      | .unknown => .unknown }

theorem Z3.shortening_correct (dom : Domain) :
    (Z3.shortening dom).Correct dom ZExpr.Holds := by
  have hsearch := Z3.searching_correct dom
  have hshort : ∀ n solver m, (Z3.shortening dom).check n solver = .sat m → m.InRange dom ∧
      ∀ c : Config, c.Complete dom → m.Completes dom c →
        (solver.all fun e => e.sat (Config.val { values := c.values })) = true := by
    intro n solver m h
    unfold shortening at h
    dsimp only at h
    split at h
    · next m' hm' =>
        cases h
        refine ZModel.shorten_spec _ (hsearch.inRange _ _ _ hm') fun c hc hcompletes => ?_
        exact List.all_eq_true.mpr (hsearch.model _ _ _ hm' c hc hcompletes)
    · cases h
    · cases h
  refine ⟨hsearch.build, fun n solver h => ?_, fun n solver h => ?_,
    fun n solver m h => (hshort n solver m h).1, fun n solver m h c hc hcompletes => ?_⟩
  · unfold shortening at h
    dsimp only at h
    split at h
    · cases h
    · next hunsat => exact hsearch.unsat n solver hunsat
    · cases h
  · unfold shortening at h
    dsimp only at h
    split at h
    · cases h
    · cases h
    · next hunknown => exact hsearch.known n solver hunknown
  · exact List.all_eq_true.mp ((hshort n solver m h).2 c hc hcompletes)

/-- Two switches of which one is on.  The first model leaves the first switch open, and counts
for two. -/
theorem countModels_exact_or :
    let dom := Domain.switches 2 (by decide)
    let ex := ZExpr.or (.eq 0 1) (.eq 1 1)
    (∃ m, (Z3.shortening dom).check 0 [ex] = .sat m ∧ m 0 = none ∧ m 1 = some 1) ∧
      ∃ cubes st', countModels dom (.shortening dom) ex defLimModels (some []) {} =
        .ok ((solutions dom ZExpr.Holds [ex]).card, some cubes, st') := by
  intro dom ex
  have hcard : (solutions dom ZExpr.Holds [ex]).card < 2 ^ 31 - 1 := by
    refine Nat.lt_of_le_of_lt (card_solutions_le _) ?_
    have hspace : (space dom).card = 4 := by decide
    omega
  obtain ⟨cubes, st', hcall, -⟩ :=
    (countModels_exact (Z3.shortening_correct dom) ex {}).1 hcard (some []) (by simp)
  exact ⟨⟨_, rfl, by decide, by decide⟩, cubes, st', hcall⟩

end GenTree

import GenTree.Partition
import GenTree.SplitChoice

/-!
# No useless split

`evaluate_split` calls `select_best_var` twice.  The first pass takes only options whose
gain reaches the threshold and whose information is positive, which means that they take
two values at the node.  If it takes none, the second pass looks at all untested options.

The tables come from floating-point logarithms in the code.  `InfoTables` has the facts
that exact arithmetic gives about them, and from these facts alone the choice is always an
untested option with two values at the node.  The first pass can come to nothing only if
the threshold is a number, so that some option is possible; then that option has a positive
ratio in the second pass, and only options with a positive gain compete with it.  If no
option is possible, the threshold is `NaN`, which no gain is below, and the first pass
takes any option that is not constant.
-/

namespace GenTree

open Outcome BestScan

variable {K : Type*} [Field K] [LinearOrder K]

/-- The option has the same value on all configurations. -/
def ConstantOn (var : ℕ) (cs : List Config) : Prop :=
  ∀ c ∈ cs, ∀ c' ∈ cs, c.val var = c'.val var

instance (var : ℕ) (cs : List Config) : Decidable (ConstantOn var cs) :=
  inferInstanceAs (Decidable (∀ c ∈ cs, ∀ c' ∈ cs, _))

/-- The selection of `evaluate_split`: the first pass, and the second if it has found no
option. -/
def chooseVar (dom : Domain) (stdLog2 : K → K) (params : SplitParams) (tested : List Bool)
    (t : InfGain K) (nTotal : ℕ) : ℤ :=
  let m := mingain dom stdLog2 params tested t nTotal
  let splitvar := selectBestVar dom tested t m true
  if splitvar = -1 then selectBestVar dom tested t m false else splitvar

/-- The facts of exact arithmetic about the tables of a node with the configurations
`cs`. -/
structure InfGain.Exact (dom : Domain) (tested : List Bool) (cs : List Config) (t : InfGain K) :
    Prop where
  info_nonneg : ∀ var < dom.nVars, tested[var]? = some false → 0 ≤ t.info var
  gain_nonneg : ∀ var < dom.nVars, tested[var]? = some false → 0 ≤ t.gain var
  info_eq_zero : ∀ var < dom.nVars, tested[var]? = some false →
    (t.info var = 0 ↔ ConstantOn var cs)
  gain_eq_zero : ∀ var < dom.nVars, tested[var]? = some false → ConstantOn var cs → t.gain var = 0

/-- The tables that `calc_inf_gain` computes, for every mixed node. -/
structure InfoTables (K : Type*) [Field K] [LinearOrder K] (dom : Domain) where
  tables : List Bool → List Config → List Config → InfGain K
  exact : ∀ tested miss hit, miss ≠ [] → hit ≠ [] → (∀ c ∈ miss ++ hit, c.Complete dom) →
    (tables tested miss hit).Exact dom tested (miss ++ hit)

section Choose

variable {dom : Domain} {stdLog2 : K → K} {params : SplitParams}
  {tested : List Bool} {t : InfGain K} {m : Option K} {firstPass : Bool}

/-- What a pass of `select_best_var` returns. -/
theorem selectBestVar_cases [IsStrictOrderedRing K] (dom : Domain) (tested : List Bool)
    (t : InfGain K) (m : Option K) (firstPass : Bool) :
    selectBestVar dom tested t m firstPass = -1 ∧ eligibles dom tested t m firstPass = [] ∨
      ∃ var : ℕ, selectBestVar dom tested t m firstPass = var ∧
        var ∈ eligibles dom tested t m firstPass ∧
          ((∃ u ∈ eligibles dom tested t m firstPass, 0 < ratioOf t m firstPass u) →
            0 < ratioOf t m firstPass var) := by
  rw [selectBestVar, bestLoop_eq]
  cases hscan : scan (Breaks (fun _ var => t.gain var < t.gain var) dom t m firstPass) none
      (eligibles dom tested t m firstPass) with
  | none => exact .inl ⟨rfl, scan_eq_none_iff.mp hscan⟩
  | some var =>
      refine .inr ⟨var, rfl, mem_of_scan hscan, fun hex => ?_⟩
      refine scan_prefers (P := fun u => 0 < ratioOf t m firstPass u) ?_ ?_ hex hscan
      · intro u s hus hs
        rcases breaks_code_iff.mp hus with hlt | ⟨hnear, -⟩
        · exact hs.trans hlt
        · unfold NearTied at hnear
          linarith
      · intro u s hu hs
        exact breaks_code_iff.mpr (.inl ((not_lt.mp hs).trans_lt hu))

theorem ratio_first_eq_some {var : ℕ} {val : K} (h : ratio t m true var = some val) :
    0 < t.info var ∧ val = t.gain var / t.info var := by
  unfold ratio at h
  simp only [if_true] at h
  split at h
  · cases h
  · next hskip =>
      simp only [Bool.or_eq_true, decide_eq_true_eq, not_or, not_le] at hskip
      exact ⟨hskip.2, (Option.some.inj h).symm⟩

/-- In the second pass every untested option has a ratio, and it is positive exactly if the
gain is. -/
theorem ratioOf_second [IsStrictOrderedRing K] {var : ℕ} : 0 < ratioOf t m false var ↔ 0 < t.gain var := by
  have hinf : 0 < if t.info var ≤ 0 then epsilon else t.info var := by
    split
    · norm_num [epsilon]
    · next h => exact not_le.mp h
  show 0 < t.gain var / _ ↔ _
  exact div_pos_iff_of_pos_right hinf

theorem mingain_eq_none_iff {nTotal : ℕ} :
    mingain dom stdLog2 params tested t nTotal = none ↔ possibleVars dom params tested t = [] := by
  have hlen : (possibleScan dom params tested t).2 = (possibleVars dom params tested t).length := by
    rw [possibleScan_eq]
  unfold mingain
  rw [← List.length_eq_zero_iff, ← hlen]
  dsimp only
  by_cases h : (possibleScan dom params tested t).2 = 0 <;> simp [h]

section Exact

variable {cs : List Config} (hexact : t.Exact dom tested cs)

include hexact

/-- With no threshold, the first pass takes every untested option that is not constant. -/
theorem InfGain.Exact.mem_eligibles_of_nan [IsStrictOrderedRing K] {var : ℕ}
    (hlt : var < dom.nVars) (huntested : tested[var]? = some false) (hvar : ¬ConstantOn var cs) :
    var ∈ eligibles dom tested t none true := by
  have hne : t.info var ≠ 0 := fun h => hvar ((hexact.info_eq_zero var hlt huntested).mp h)
  have hpos : 0 < t.info var := lt_of_le_of_ne (hexact.info_nonneg var hlt huntested) hne.symm
  have hratio : ratio t none true var = some (t.gain var / t.info var) := by
    simp [ratio, ltNaN, hpos]
  have hdiv : 0 ≤ t.gain var / t.info var :=
    div_nonneg (hexact.gain_nonneg var hlt huntested) hpos.le
  refine mem_eligibles.mpr ⟨hlt, huntested, by rw [hratio]; rfl, ?_⟩
  rw [ratioOf, hratio, Option.getD_some]
  linarith

/-- What the first pass takes is not constant. -/
theorem InfGain.Exact.not_constant_first {var : ℕ} (h : var ∈ eligibles dom tested t m true) :
    ¬ConstantOn var cs := by
  obtain ⟨hlt, huntested, hsome, -⟩ := mem_eligibles.mp h
  obtain ⟨val, hval⟩ := Option.isSome_iff_exists.mp hsome
  intro hconst
  have hpos := (ratio_first_eq_some hval).1
  rw [(hexact.info_eq_zero var hlt huntested).mpr hconst] at hpos
  exact lt_irrefl _ hpos

/-- When the first pass takes nothing, some untested option has a positive gain. -/
theorem InfGain.Exact.exists_gain_pos [IsStrictOrderedRing K] {nTotal v : ℕ}
    (hlt : v < dom.nVars) (huntested : tested[v]? = some false) (hv : ¬ConstantOn v cs)
    (hnone : eligibles dom tested t (mingain dom stdLog2 params tested t nTotal) true = []) :
    ∃ p < dom.nVars, tested[p]? = some false ∧ 0 < t.gain p := by
  have hpossible : possibleVars dom params tested t ≠ [] := by
    intro hnil
    rw [mingain_eq_none_iff.mpr hnil] at hnone
    have hmem := hexact.mem_eligibles_of_nan hlt huntested hv
    rw [hnone] at hmem
    cases hmem
  obtain ⟨p, hp⟩ := List.exists_mem_of_ne_nil _ hpossible
  obtain ⟨hp, hptested, hgain, -⟩ := mem_possibleVars.mp hp
  refine ⟨p, hp, hptested, lt_of_lt_of_le ?_ hgain⟩
  norm_num [epsilon]

/-- **The choice is useful**: if some untested option is not constant, the two passes
return such an option. -/
theorem InfGain.Exact.chooseVar_useful [IsStrictOrderedRing K] {nTotal v : ℕ}
    (hlt : v < dom.nVars) (huntested : tested[v]? = some false) (hv : ¬ConstantOn v cs) :
    ∃ var : ℕ, chooseVar dom stdLog2 params tested t nTotal = var ∧
      tested[var]? = some false ∧ ¬ConstantOn var cs := by
  unfold chooseVar
  rcases selectBestVar_cases dom tested t (mingain dom stdLog2 params tested t nTotal) true with
    ⟨hnone, hnil⟩ | ⟨var, hvar, hmem, -⟩
  · -- the second pass: options with a positive gain win
    obtain ⟨p, hp, hptested, hgain⟩ := hexact.exists_gain_pos hlt huntested hv hnil
    have hratio : 0 < ratioOf t (mingain dom stdLog2 params tested t nTotal) false p :=
      ratioOf_second.mpr hgain
    have hpmem : p ∈ eligibles dom tested t (mingain dom stdLog2 params tested t nTotal) false :=
      mem_eligibles.mpr ⟨hp, hptested, rfl, by linarith⟩
    simp only [hnone, if_true]
    rcases selectBestVar_cases dom tested t (mingain dom stdLog2 params tested t nTotal) false with
      ⟨-, hnil'⟩ | ⟨var, hvar, hmem, hpos⟩
    · rw [hnil'] at hpmem
      cases hpmem
    · obtain ⟨hvarlt, hvartested, -⟩ := mem_eligibles.mp hmem
      refine ⟨var, hvar, hvartested, fun hconst => ?_⟩
      have hvargain := ratioOf_second.mp (hpos ⟨p, hpmem, hratio⟩)
      rw [hexact.gain_eq_zero var hvarlt hvartested hconst] at hvargain
      exact lt_irrefl _ hvargain
  · have hne : (var : ℤ) ≠ -1 := by omega
    refine ⟨var, ?_, (mem_eligibles.mp hmem).2.1, hexact.not_constant_first hmem⟩
    simp only [hvar, if_neg hne]

end Exact

/-- The selection never returns a tested option. -/
theorem chooseVar_untested [IsStrictOrderedRing K] {nTotal : ℕ} :
    chooseVar dom stdLog2 params tested t nTotal = -1 ∨
      ∃ v : ℕ, chooseVar dom stdLog2 params tested t nTotal = v ∧ tested[v]? = some false := by
  have hpass : ∀ firstPass, selectBestVar dom tested t
        (mingain dom stdLog2 params tested t nTotal) firstPass = -1 ∨
      ∃ v : ℕ, selectBestVar dom tested t (mingain dom stdLog2 params tested t nTotal)
        firstPass = v ∧ tested[v]? = some false := by
    intro firstPass
    rcases selectBestVar_cases dom tested t (mingain dom stdLog2 params tested t nTotal) firstPass with
      ⟨hnone, -⟩ | ⟨var, hvar, hmem, -⟩
    · exact .inl hnone
    · exact .inr ⟨var, hvar, (mem_eligibles.mp hmem).2.1⟩
  unfold chooseVar
  dsimp only
  split
  · exact hpass false
  · exact hpass true

end Choose

/-! ## Trees grown from the tables -/

/-- The selector of the code, for given tables. -/
def Selector.ofTables [IsStrictOrderedRing K] {dom : Domain} (stdLog2 : K → K)
    (tables : InfoTables K dom) : Selector where
  choose params tested miss hit :=
    chooseVar dom stdLog2 params tested (tables.tables tested miss hit) (miss.length + hit.length)
  untested _ _ _ _ := chooseVar_untested

section Trees

variable [IsStrictOrderedRing K] {dom : Domain}

/-- At a mixed node whose misses differ from its hits at untested options, the choice is
useful. -/
theorem choose_useful (stdLog2 : K → K) (tables : InfoTables K dom) (params : SplitParams)
    {nd : NodeData} {vecs : Vecs} (hready : Ready dom nd vecs) (hmixed : nd.isLeaf = false)
    (hsep : Separated nd vecs) :
    ∃ var : ℕ, (Selector.ofTables stdLog2 tables).choose params nd.testedVars
        (nd.side vecs false) (nd.side vecs true) = var ∧
      nd.testedVars[var]? = some false ∧
      ¬ConstantOn var (nd.side vecs false ++ nd.side vecs true) := by
  obtain ⟨v, hv, m, hm, c, hc, hne⟩ := hsep.exists_untested hready hmixed
  have hlt : v < dom.nVars := by
    rw [← hready.tested]
    exact (List.getElem?_eq_some_iff.mp hv).1
  have hcomplete : ∀ c ∈ nd.side vecs false ++ nd.side vecs true, c.Complete dom := by
    intro c hc
    rcases List.mem_append.mp hc with hc | hc
    · exact hready.complete false c hc
    · exact hready.complete true c hc
  refine (tables.exact nd.testedVars _ _ (nd.side_ne_nil hready hmixed false)
    (nd.side_ne_nil hready hmixed true) hcomplete).chooseVar_useful hlt hv fun hconst => ?_
  exact hne (hconst m (List.mem_append_left _ hm) c (List.mem_append_right _ hc))

/-- **No useless split.**  A tree is grown from pairwise distinct complete configurations,
with the thresholds of `calc_inf_gain` and the two passes of `select_best_var` on tables
with the facts of exact arithmetic.  At every mixed node an untested option is found, and
two of the node's configurations differ in it; so the tree is finished. -/
theorem evaluateSplit_useful (stdLog2 : K → K) (tables : InfoTables K dom) (params : SplitParams)
    {vecs : Vecs} (hcomplete : ∀ s, ∀ c ∈ vecs.get s, c.Complete dom)
    (hdistinct : ((vecs.miss ++ vecs.hit).map Config.values).Nodup) (fuel : ℕ)
    (hfuel : dom.nVars < fuel) :
    (∀ fuel' nd vecs', Called dom (.ofTables stdLog2 tables) params fuel
        (.root dom (fullRanges vecs)) vecs fuel' nd vecs' → nd.isLeaf = false →
      ∃ var : ℕ, chooseVar dom stdLog2 params nd.testedVars
          (tables.tables nd.testedVars (nd.side vecs' false) (nd.side vecs' true))
          ((nd.side vecs' false).length + (nd.side vecs' true).length) = var ∧
        nd.testedVars[var]? = some false ∧
        ∃ c ∈ nd.side vecs' false ++ nd.side vecs' true,
          ∃ c' ∈ nd.side vecs' false ++ nd.side vecs' true, c.val var ≠ c'.val var) ∧
    ∃ r, evaluateSplit dom (.ofTables stdLog2 tables) params fuel
      (.root dom (fullRanges vecs)) vecs = .ok r := by
  have hready := ready_root hcomplete
  have hcount : (NodeData.root dom (fullRanges vecs)).testedVars.count false < fuel := by
    rwa [count_root]
  have hapart : Apart vecs := by
    intro m hm h hh heq
    rw [List.map_append] at hdistinct
    exact List.disjoint_of_nodup_append hdistinct (List.mem_map_of_mem hm)
      (heq ▸ List.mem_map_of_mem hh)
  have hsep := separated_root hcomplete hapart
  constructor
  · intro fuel' nd vecs' hcall hmixed
    obtain ⟨hnd, -, hndsep⟩ := hcall.ready hready hcount
    obtain ⟨var, hvar, huntested, hconst⟩ :=
      choose_useful stdLog2 tables params hnd hmixed (hndsep hsep)
    unfold ConstantOn at hconst
    push Not at hconst
    exact ⟨var, hvar, huntested, hconst⟩
  · refine ((evaluateSplit_rule Placed.isLocal (fun _ _ hready hleaf => .leaf hready hleaf)
      (fun _ _ _ _ _ _ _ hsplit _ => .node hsplit) fuel hready hcount).mono
      (fun _ _ => trivial) ?_ : Meets _ (fun _ => True) fun _ => False).exists_ok.imp
        fun _ h => h.1
    rintro e ⟨-, nd, vecs', hnd, hmixed, hndsep, hnone⟩
    obtain ⟨var, hvar, -⟩ := choose_useful stdLog2 tables params hnd hmixed (hndsep hsep)
    rw [hvar] at hnone
    omega

end Trees

/-- How many pairs from the two lists have different values of an option. -/
def pairsApart (var : ℕ) (cs cs' : List Config) : ℕ :=
  (cs.flatMap fun c => cs'.map fun c' => (c.val var, c'.val var)).countP fun p => p.1 != p.2

theorem pairsApart_eq_zero {var : ℕ} {cs cs' : List Config} :
    pairsApart var cs cs' = 0 ↔ ∀ c ∈ cs, ∀ c' ∈ cs', c.val var = c'.val var := by
  simp only [pairsApart, List.countP_eq_zero, List.mem_flatMap, List.mem_map, bne_iff_ne, ne_eq,
    not_not]
  constructor
  · intro h c hc c' hc'
    exact h _ ⟨c, hc, c', hc', rfl⟩
  · rintro h p ⟨c, hc, c', hc', rfl⟩
    exact h c hc c' hc'

/-- Tables that count pairs: the gain of an option is how many misses it tells apart from how
many hits, and its information the same for all configurations of the node. -/
def InfoTables.pairs (dom : Domain) : InfoTables ℚ dom where
  tables _ miss hit :=
    { info := fun var => pairsApart var (miss ++ hit) (miss ++ hit)
      gain := fun var => pairsApart var miss hit }
  exact _ _ _ _ _ _ :=
    { info_nonneg := fun _ _ _ => Nat.cast_nonneg _
      gain_nonneg := fun _ _ _ => Nat.cast_nonneg _
      info_eq_zero := fun _ _ _ => Nat.cast_eq_zero.trans pairsApart_eq_zero
      gain_eq_zero := fun _ _ _ h => Nat.cast_eq_zero.mpr (pairsApart_eq_zero.mpr
        fun m hm c hc => h m (List.mem_append_left _ hm) c (List.mem_append_right _ hc)) }

/-- Three switches, with the gains 3, 4 and 3: the second one is tested first. -/
theorem evaluateSplit_useful_gains :
    let dom := Domain.switches 3 (by decide)
    let miss : List Config := [{ values := [0, 0, 0] }, { values := [1, 0, 1] }, { values := [0, 1, 0] }]
    let hit : List Config := [{ values := [1, 1, 0] }, { values := [0, 1, 1] }]
    let params : SplitParams := ⟨5, false, 1, 0⟩
    let t := (InfoTables.pairs dom).tables [false, false, false] miss hit
    (t.gain 0, t.gain 1, t.gain 2) = (3, 4, 3) ∧
      (∃ var : ℕ, chooseVar dom id params [false, false, false] t 5 = var ∧
        ∃ c ∈ miss ++ hit, ∃ c' ∈ miss ++ hit, c.val var ≠ c'.val var) ∧
      ∃ r, evaluateSplit dom (.ofTables id (.pairs dom)) params 4
        (.root dom (fullRanges ⟨miss, hit⟩)) ⟨miss, hit⟩ = .ok r := by
  intro dom miss hit params t
  obtain ⟨hcalls, hrun⟩ := @evaluateSplit_useful _ _ _ _ _ id (.pairs dom) params ⟨miss, hit⟩
    (by decide) (by decide) 4 (by decide)
  obtain ⟨var, hvar, -, hdiffer⟩ := hcalls 4 _ _ .root rfl
  exact ⟨by decide, ⟨var, hvar, hdiffer⟩, hrun⟩

end GenTree

import GenTree.AllConfigs
import GenTree.FinalReport
import GenTree.Formula
import GenTree.Reports
import GenTree.Verdict

/-!
# The ground truth

Under `--full` all configurations are run first, the loop of `run_alg` is not entered,
and one report is written.  The store then says what the program under test does
(`Exhausted`): it holds every complete configuration once, and a configuration covers a
location exactly when the program gives its name.

Nothing below can stop in such a store.  The configurations are complete and distinct, so
every tree is grown to its end; the tree fits all configurations, so it is productive and
its formula is built; and the formula is satisfied by exactly the configurations that
cover the location.  Locations that are printed together are covered by the same
configurations, so one formula speaks for all of them (`fullRun_groundTruth`).

The one thing that can go wrong is that two configurations have the same hash: then the
`CHECK` that no configuration is run twice fires before anything is reported.
-/

namespace GenTree

open Outcome Leaders

/-- **Reports that tell the truth** about the program `f`: every location that some
configuration covers is printed, with a formula that is satisfied by exactly the
configurations that cover it. -/
def Report.GroundTruth {Name : Type} (dom : Domain) (f : List ℤ → List Name)
    (r : Report Name) : Prop :=
  ∀ c : Config, c.Complete dom → ∀ name ∈ f c.values,
    (∃ g ∈ r.groups, name ∈ g.names) ∧
      ∀ g ∈ r.groups, name ∈ g.names → ∀ c' : Config, c'.Complete dom →
        (g.expr.sat c'.val = true ↔ name ∈ f c'.values)

section GroundTruth

variable {Name Hash : Type} [DecidableEq Name] [DecidableEq Hash] {env : Env Name Hash}
  {f : List ℤ → List Name}

/-- The store holds all configurations, with what the program `f` says about them. -/
structure Exhausted (env : Env Name Hash) (f : List ℤ → List Name) (cov : CoverageStore Name) :
    Prop where
  stocked : Stocked env cov
  values : cov.configs.map Config.values = allValues env.dom.vars
  covers : ∀ c ∈ cov.configs, ∀ (j : ℕ) (l : Location Name), cov.locs[j]? = some l →
    (j ∈ c.covLocs ↔ l.name ∈ f c.values)
  known : ∀ c ∈ cov.configs, ∀ name ∈ f c.values, ∃ l ∈ cov.locs, l.name = name

/-! ## Running all configurations -/

/-- Two complete configurations with one hash. -/
def HashClash (env : Env Name Hash) : Prop :=
  ∃ c c' : Config, c.Complete env.dom ∧ c'.Complete env.dom ∧ c.values ≠ c'.values ∧
    env.confHash c.values = env.confHash c'.values

omit [DecidableEq Name] [DecidableEq Hash] in
/-- The names a deterministic program gives. -/
theorem Env.namesFrom_eq_map (hprogram : ∀ k values, env.program k values = f values) (n : ℕ)
    (cs : List Config) : env.namesFrom n cs = cs.map fun c => f c.values := by
  refine List.ext_getElem? fun i => ?_
  simp only [namesFrom, List.getElem?_mapIdx, List.getElem?_map, hprogram]

omit [DecidableEq Hash] in
/-- What has been run from an empty store. -/
theorem Ran.exhausted {s s' : St Name Hash} {cs : List Config}
    (hprogram : ∀ k values, env.program k values = f values) (h : Ran env s cs s')
    (hempty : s.cov = {}) (hfresh : AllFresh env.dom cs)
    (hcs : cs.map Config.values = allValues env.dom.vars) : Exhausted env f s'.cov := by
  have hstocked : Stocked env s.cov := by
    rw [hempty]
    exact ⟨⟨[], CoverageStore.valid_empty⟩, by simp⟩
  have hvalues : s'.cov.configs.map Config.values = cs.map Config.values := by
    rw [h.values, hempty]
    simp
  have hv := h.valid [] (by rw [hempty]; exact CoverageStore.valid_empty)
  rw [List.nil_append, Env.namesFrom_eq_map hprogram] at hv
  -- the history at the position of a configuration
  have hhist : ∀ (i : ℕ) (c : Config), s'.cov.configs[i]? = some c →
      (cs.map fun c => f c.values)[i]? = some (f c.values) := by
    intro i c hc
    have hget := congrArg (fun l => l[i]?) hvalues
    simp only [List.getElem?_map, hc, Option.map_some] at hget
    obtain ⟨c', hc', heq⟩ := Option.map_eq_some_iff.mp hget.symm
    rw [List.getElem?_map, hc', Option.map_some, heq]
  refine ⟨hstocked.ran h hfresh, hvalues.trans hcs, fun c hc j l hl => ?_,
    fun c hc name hname => ?_⟩
  · obtain ⟨i, hi⟩ := List.mem_iff_getElem?.mp hc
    rw [hv.mem_covLocs_iff hi hl, hv.covBy l (List.mem_of_getElem? hl), mem_covering, hhist i c hi]
    simp
  · obtain ⟨i, hi⟩ := List.mem_iff_getElem?.mp hc
    exact hv.known _ (List.mem_of_getElem? (hhist i c hi)) name hname

/-- All configurations as they are run. -/
def Env.runAll (env : Env Name Hash) : List Config :=
  (allValues env.dom.vars).map fun values => { values, hashed := some values }

omit [DecidableEq Name] [DecidableEq Hash] in
theorem Env.runAll_fresh (env : Env Name Hash) : AllFresh env.dom env.runAll := by
  intro c hc
  obtain ⟨values, hvalues, rfl⟩ := List.mem_map.mp hc
  exact ⟨rfl, rfl, (mem_allValues.mp hvalues).length_eq.symm⟩

omit [DecidableEq Name] [DecidableEq Hash] in
/-- All configurations can be run, unless two of them have the same hash. -/
theorem Env.hashClash_of_not_nodup
    (h : ¬ (env.runAll.map fun c => env.confHash c.hashKey).Nodup) : HashClash env := by
  by_contra hclash
  refine h ?_
  have hhash : (env.runAll.map fun c => env.confHash c.hashKey) =
      (allValues env.dom.vars).map env.confHash := by
    rw [runAll, List.map_map]
    rfl
  rw [hhash]
  refine (nodup_allValues _).map_on fun x hx y hy heq => ?_
  by_contra hne
  exact hclash ⟨{ values := x }, { values := y }, complete_iff_mem_allValues.mpr hx,
    complete_iff_mem_allValues.mpr hy, hne, heq⟩

/-- What is done under `--full` before the loop. -/
theorem Env.init_full_eq (hfull : env.options.full = true)
    (hrange : ∀ v ∈ env.dom.vars, v.nValues ≤ 32768) : ∃ hashes : List Hash, env.init =
      (({ setConfHash := hashes } : St Name Hash).runConfigs env env.runAll >>= fun r => .ok r.1) := by
  have hconfigs : env.initConfigs =
      .ok ((allValues env.dom.vars).map fun values => { values }, 0) := by
    rw [initConfigs, if_pos hfull, genAllConfigs_eq hrange, ok_bind]
  have htouch : ((allValues env.dom.vars).map fun values => ({ values } : Config)).map
      Config.touchHash = env.runAll := by
    rw [List.map_map]
    rfl
  refine ⟨((allValues env.dom.vars).map fun values => env.confHash values).dedup, ?_⟩
  rw [init, hconfigs, lift_ok, ok_bind]
  dsimp only
  rw [htouch, List.map_map]
  rfl

/-- **`--full`** runs all configurations, unless two of them have the same hash. -/
theorem Env.init_full (hprogram : ∀ k values, env.program k values = f values)
    (hfull : env.options.full = true) (hrange : ∀ v ∈ env.dom.vars, v.nValues ≤ 32768) :
    Meets env.init (fun s => Exhausted env f s.cov ∧ s.vLocData = [] ∧ s.reports = [])
      (fun e => e = .confRanTwice ∧ HashClash env) := by
  obtain ⟨hashes, hinit⟩ := env.init_full_eq hfull hrange
  rw [hinit]
  refine meets_bind ((St.runConfigs_meets ⟨[], CoverageStore.valid_empty⟩ env.runAll_fresh).mono
    (fun _ h => h) ?_) ?_
  · rintro e ⟨rfl, hdup⟩
    refine ⟨rfl, hashClash_of_not_nodup fun hnodup => hdup ?_⟩
    rw [List.append_nil]
    exact List.nodup_reverse.mpr hnodup
  · rintro ⟨s, ids⟩ hran
    have hstate := hran.state
    dsimp only at hstate
    have hvalues : env.runAll.map Config.values = allValues env.dom.vars := by
      simp [runAll, Function.comp_def]
    exact ⟨hran.exhausted hprogram rfl env.runAll_fresh hvalues, by rw [hstate], by rw [hstate]⟩

/-- Two configurations with the same hash are not run: `--full` stops before the loop. -/
theorem Env.init_full_of_hashClash (hfull : env.options.full = true)
    (hrange : ∀ v ∈ env.dom.vars, v.nValues ≤ 32768) (hclash : HashClash env) :
    env.init = .error .confRanTwice := by
  obtain ⟨hashes, hinit⟩ := env.init_full_eq hfull hrange
  have hmeets := @St.runConfigs_meets _ _ _ _ env { setConfHash := hashes }
    ⟨[], CoverageStore.valid_empty⟩ _ env.runAll_fresh
  cases hrun : ({ setConfHash := hashes } : St Name Hash).runConfigs env env.runAll with
  | error e =>
      obtain ⟨rfl, -⟩ := hmeets.of_eq_error hrun
      rw [hinit, hrun]
      rfl
  | ok r =>
      -- what has been run has been run under hashes that are all different
      have hnodup := (St.runConfigs_nodup (List.nodup_nil) _).of_eq_ok hrun
      rw [(hmeets.of_eq_ok hrun).hashes, List.append_nil, List.nodup_reverse, runAll,
        List.map_map] at hnodup
      obtain ⟨c, c', hc, hc', hne, heq⟩ := hclash
      exact absurd (List.inj_on_of_nodup_map hnodup (complete_iff_mem_allValues.mp hc)
        (complete_iff_mem_allValues.mp hc') heq) hne

/-! ## Trees -/

namespace Exhausted

variable {cov : CoverageStore Name}

omit [DecidableEq Hash]

theorem complete (h : Exhausted env f cov) : ∀ c ∈ cov.configs, c.Complete env.dom := by
  intro c hc
  rw [complete_iff_mem_allValues, ← h.values]
  exact List.mem_map_of_mem hc

/-- The configuration of the store with the values of `c`. -/
theorem exists_config (h : Exhausted env f cov) {c : Config} (hc : c.Complete env.dom) :
    ∃ c₀ ∈ cov.configs, c₀.values = c.values := by
  rw [complete_iff_mem_allValues, ← h.values] at hc
  exact List.mem_map.mp hc

theorem distinct (h : Exhausted env f cov) : cov.Distinct env.dom where
  complete := h.complete
  nodup := by
    rw [h.values]
    exact nodup_allValues _

/-- **The formula of a tree** is satisfied by exactly the configurations on which the program
covers the location. -/
theorem sat_iff (h : Exhausted env f cov) {j : ℕ} {l : Location Name}
    (hl : cov.locs[j]? = some l) {t : CTree} {root : CNode}
    (hfits : t.Fits env.dom (cov.samples j) root) {strat : ExprStrat} {e : ZExpr}
    (he : t.buildZexpr env.dom strat = .ok e) {c : Config} (hc : c.Complete env.dom) :
    e.sat c.val = true ↔ l.name ∈ f c.values := by
  obtain ⟨c₀, hmem, heq⟩ := h.exists_config hc
  have hval : c.val = c₀.val := by
    funext var
    rw [Config.val, Config.val, heq]
  rw [hval, h.distinct.sat_iff hfits he hmem, h.covers c₀ hmem j l hl, heq]

end Exhausted

/-! ## The report -/

/-- The record is printed with a tree that fits all configurations. -/
def Built (env : Env Name Hash) (s : St Name Hash) (j : ℕ) (d : LocData) : Prop :=
  d.needRebuild = false ∧ ∃ t root, d.tree = some t ∧ t.Fits env.dom (s.cov.samples j) root

namespace Exhausted

variable {s s₁ : St Name Hash}

/-- The block behind the loop builds the trees of all unlinked records. -/
theorem built (h : Exhausted env f s.cov) (hs : Base env s) (htotal : env.select.Total)
    (hnil : s.vLocData = []) (hprep : PreparedFinal env s s₁) (j : ℕ) (d : LocData)
    (hd : s₁.vLocData[j]? = some d) (hlinked : d.linked = false) : Built env s₁ j d := by
  cases hprep with
  | same hne _ => exact absurd hnil hne
  | @fresh s₀ new _ hrun href =>
      obtain ⟨hcov, hlen, hdat⟩ := hs.prepareVecLocData hrun
      have hlt := (List.getElem?_eq_some_iff.mp hd).1
      rw [href.length] at hlt
      have hd₀ := List.getElem?_eq_getElem hlt
      obtain ⟨d₂, hd₂, hrefresh⟩ := href.dat_all j _ hd₀
      rw [hd, Option.some.injEq] at hd₂
      subst hd₂
      have hprepared := hdat j _ hd₀
      cases hrefresh with
      | kept hkept =>
          -- there was no record before, so the record is linked or due
          cases hprepared with
          | linked _ hparent _ _ _ => simp [LocData.linked, hparent] at hlinked
          | kept _ hold _ => simp [hnil] at hold
          | new _ _ _ _ _ hneed => simp [hlinked, hneed] at hkept
      | rebuilt _ _ _ _ _ htree =>
          rw [(hs.prepared_dat hprepared).1] at htree
          have h₀ : Exhausted env f s₀.cov := by rwa [hcov]
          obtain ⟨root, hfits⟩ := (h₀.distinct.newTree_meets h₀.stocked htotal
            (by rwa [hcov, ← hlen])).of_eq_ok htree
          exact ⟨rfl, _, root, rfl, by rwa [href.cov_eq]⟩

omit [DecidableEq Hash] in
/-- **The report tells the truth.** -/
theorem groundTruth (h : Exhausted env f s.cov) (hs : Base env s) (hgroup : Grouped s)
    (hlen : s.vLocData.length = s.cov.nLocs)
    (hbuilt : ∀ (j : ℕ) (d : LocData), s.vLocData[j]? = some d → d.linked = false →
      Built env s j d) {groups : List (Group Name)}
    (hgroups : List.Forall₂ (GroupOf env s) (s.unlinkedOf (List.range s.vLocData.length)) groups)
    (iter nConfigs nLocs nUniq : ℕ) :
    Report.GroundTruth env.dom f ⟨iter, nConfigs, nLocs, nUniq, groups⟩ := by
  have hroot := hgroup.rooted
  obtain ⟨hist, hv⟩ := h.stocked.valid
  intro c hc name hname
  -- the location with the name, and its record
  obtain ⟨c₀, hc₀, hvalues⟩ := h.exists_config hc
  rw [← hvalues] at hname
  obtain ⟨l, hmem, rfl⟩ := h.known c₀ hc₀ name hname
  obtain ⟨k, hk⟩ := List.mem_iff_getElem?.mp hmem
  have hlt : k < s.vLocData.length := by
    rw [hlen]
    exact (List.getElem?_eq_some_iff.mp hk).1
  have hd := List.getElem?_eq_getElem hlt
  refine ⟨?_, fun g hg hname' c' hc' => ?_⟩
  · obtain ⟨g, hg, hgroup⟩ := forall₂_exists_right hgroups (hroot.root_mem hs hd)
    exact ⟨g, hg, (GroupOf.mem_names_iff hs hgroup hk).mpr ⟨_, hd, rfl⟩⟩
  · obtain ⟨u, hu, hgroupOf⟩ := forall₂_exists_left hgroups hg
    obtain ⟨d, hd, rfl⟩ := (GroupOf.mem_names_iff hs hgroupOf hk).mp hname'
    obtain ⟨e, he, hunlinked⟩ := St.mem_unlinkedOf.mp hu
    obtain ⟨hneed, t, root, htree, hfits⟩ := hbuilt _ e he hunlinked
    obtain ⟨e', t', he', hexpr, htree'⟩ := hgroupOf.expr
    rw [he, Option.some.injEq] at he'
    subst he'
    rw [hneed, if_neg (by simp), htree, Option.some.injEq] at htree'
    subst htree'
    -- the root has the coverage of the location
    have hcov := covBy_root hgroup.parent hs hd
    rw [CoverageStore.covBy, CoverageStore.covBy, hk, Option.map_some] at hcov
    obtain ⟨l', hl', hcovBy⟩ := Option.map_eq_some_iff.mp hcov
    obtain ⟨c₁, hc₁, hvalues₁⟩ := h.exists_config hc'
    obtain ⟨i, hi⟩ := List.mem_iff_getElem?.mp hc₁
    rw [h.sat_iff hl' hfits hexpr hc', ← hvalues₁, ← h.covers c₁ hc₁ _ l' hl',
      ← h.covers c₁ hc₁ _ l hk, hv.mem_covLocs_iff hi hl', hv.mem_covLocs_iff hi hk, hcovBy]

/-- **The last step** of a `--full` run succeeds and writes a report that tells the
truth. -/
theorem final_meets (h : Exhausted env f s.cov) (hs : Base env s) (htotal : env.select.Total)
    (hinj : Function.Injective env.locHash) (hnil : s.vLocData = []) (iter : ℕ) :
    Meets (step env (.final iter, s))
      (fun y => y.1 = .done ∧ ∃ r, y.2.reports = s.reports ++ [r] ∧ r.GroundTruth env.dom f)
      fun _ => False := by
  have hdue : IgnoredDue s := fun d hd => by simp [hnil] at hd
  have hprint : Printing env s := fun j d hd => by simp [hnil] at hd
  refine (hs.final_total hdue hprint h.distinct htotal iter).imp ?_
  rintro y ⟨hdone, s₁, hprep, hfin⟩
  obtain ⟨groups, hreports, hgroups⟩ := hfin.reports
  refine ⟨hdone, _, by rw [hreports, hprep.reports], ?_⟩
  have h₁ : Exhausted env f s₁.cov := by rwa [hprep.cov hs]
  have hbuilt := h.built hs htotal hnil hprep
  have hs₁ := hs.preparedFinal hprep
  cases hprep with
  | same hne _ => exact absurd hnil hne
  | fresh _ hrun href =>
      obtain ⟨hgroup, hlen⟩ := grouped_of_fresh hinj hs hrun href
      exact h₁.groundTruth hs₁ hgroup hlen hbuilt hgroups _ _ _ _

end Exhausted

/-- **The ground truth.**  For every domain, every deterministic program and every choice
of untested split variables, a run under `--full` ends with one report, which tells the
truth, unless two configurations have the same hash: then it stops before it has
reported anything. -/
theorem fullRun_groundTruth (hprogram : ∀ k values, env.program k values = f values)
    (hrange : ∀ v ∈ env.dom.vars, v.nValues ≤ 32767) (hfull : env.options.full = true)
    (htotal : env.select.Total) (hinj : Function.Injective env.locHash) :
    (∃ s r, RunsTo env (fun _ => True) .done s ∧ s.reports = [r] ∧ r.GroundTruth env.dom f) ∨
      env.init = .error .confRanTwice ∧ HashClash env := by
  have hmeets := Env.init_full hprogram hfull fun v hv => (hrange v hv).trans (by decide)
  cases hinit : env.init with
  | error e =>
      obtain ⟨rfl, hclash⟩ := hmeets.of_eq_error hinit
      exact .inr ⟨rfl, hclash⟩
  | ok s₀ =>
      obtain ⟨hall, hnil, hreports⟩ := hmeets.of_eq_ok hinit
      -- the loop is not entered
      have hhead : step env (.head 1, s₀) = .ok (.final 1, s₀) := by
        have hrounds : ¬ ((1 : ℕ) : ℤ) ≤ env.nIterations := by
          rw [Env.nIterations, if_pos hfull]
          omega
        rw [step, if_neg hrounds]
      have hrun : RunsTo env (fun _ => True) (.final 1) s₀ :=
        ⟨s₀, hinit, Machine.Reach.refl.tail trivial hhead⟩
      obtain ⟨⟨l, s⟩, hstep, hl, r, hr, htruth⟩ :=
        (hall.final_meets hrun.base htotal hinj hnil 1).exists_ok
      obtain rfl : l = .done := hl
      exact .inl ⟨s, r, hrun.tail trivial hstep, by rw [hr, hreports, List.nil_append], htruth⟩

end GroundTruth

/-- Three switches and a program with two locations: every hash is the hash of one
configuration only. -/
theorem fullRun_groundTruth_exhaustive :
    ∃ s r, RunsTo Env.exhaustive (fun _ => True) .done s ∧ s.reports = [r] ∧
      r.GroundTruth Env.exhaustive.dom fun v =>
        if v = [1, 1, 1] then [1] else if v = [0, 1, 1] then [2] else [] := by
  have hprogram : ∀ k values, Env.exhaustive.program k values =
      if values = [1, 1, 1] then [1] else if values = [0, 1, 1] then [2] else [] := by
    intro k values
    refine List.Nodup.dedup ?_
    dsimp only
    split
    · simp
    · split <;> simp
  have htruth := fullRun_groundTruth hprogram (by decide) rfl Selector.firstUntested_total
    (Env.small_locHash_injective fun _ => [])
  refine htruth.resolve_right fun hclash => ?_
  obtain ⟨-, c, c', -, -, hne, heq⟩ := hclash
  exact hne heq

end GenTree

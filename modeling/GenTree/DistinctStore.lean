import GenTree.Formula
import GenTree.Generated
import GenTree.Queue
import GenTree.Verdict

/-!
# Stores without duplicates

A tree is built from all configurations that have been run, the hits of a location against
its misses.  `build_tree` can fail in one way only: two configurations with the same values
are on different sides, and there is no option left to split on.  In a store of complete
configurations no two of which are the same (`CoverageStore.Distinct`) this does not happen.
So every tree that is built fits the store, and its formula is satisfied by exactly the
configurations that cover the location (`CoverageStore.Distinct.sat_iff`).

The `CHECK` on the set of hashes keeps duplicates out of a store, and what the generators
make is complete.  Hence the store has this property throughout a run (`RunsTo.distinct`).
-/

namespace GenTree

open Outcome

/-- The configurations of the store are **complete, and no two are the same**. -/
structure CoverageStore.Distinct {Name : Type} (cov : CoverageStore Name) (dom : Domain) :
    Prop where
  complete : ∀ c ∈ cov.configs, c.Complete dom
  nodup : (cov.configs.map Config.values).Nodup

/-! ## Trees -/

namespace CoverageStore.Distinct

variable {Name : Type} {dom : Domain} {cov : CoverageStore Name} {j : ℕ}

theorem mem_samples_complete (h : cov.Distinct dom) (j : ℕ) (b : Bool) :
    ∀ c ∈ (cov.samples j).get b, c.Complete dom :=
  fun c hc => h.complete c (mem_samples.mp hc).1

/-- A miss and a hit with the same values would be one configuration. -/
theorem apart (h : cov.Distinct dom) (j : ℕ) : Apart (cov.samples j) := by
  intro m hm c hc heq
  obtain ⟨hm, hmiss⟩ := (mem_samples (b := false)).mp hm
  obtain ⟨hc, hhit⟩ := (mem_samples (b := true)).mp hc
  rw [List.inj_on_of_nodup_map h.nodup hm hc heq, hhit] at hmiss
  cases hmiss

/-- **Every tree is grown to its end.** -/
theorem buildTree_meets (h : cov.Distinct dom) {select : Selector} (htotal : select.Total)
    {tree : CTree} (hconfigs : tree.configs = cov.samples j) :
    Meets (tree.buildTree dom select) (fun t => ∃ root, t.Fits dom (cov.samples j) root)
      fun _ => False := by
  rw [← hconfigs]
  refine (CTree.buildTree_meets select fun b => ?_).mono (fun t ht => ht.1) fun e he => ?_
  · rw [hconfigs]
    exact h.mem_samples_complete j b
  · refine he.2 ⟨htotal, ?_⟩
    rw [hconfigs]
    exact h.apart j

/-- A new tree fits the store. -/
theorem newTree_meets {Hash : Type} [DecidableEq Name] {env : Env Name Hash} {s : St Name Hash}
    (h : s.cov.Distinct env.dom) (hs : Stocked env s.cov) (htotal : env.select.Total)
    (hj : j < s.cov.nLocs) :
    Meets (s.newTree env j) (fun t => ∃ root, t.Fits env.dom (s.cov.samples j) root)
      fun _ => False := by
  obtain ⟨hist, hv⟩ := hs.valid
  have hl := List.getElem?_eq_getElem (show j < s.cov.locs.length from hj)
  rw [St.newTree, vecAt_of_getElem? hl, ok_bind, hv.prepareData env.dom hl, ok_bind]
  exact h.buildTree_meets htotal rfl

/-- **The formula of a tree that fits** is satisfied by exactly the configurations that cover
the location. -/
theorem exists_zexpr (h : cov.Distinct dom) {t : CTree} {root : CNode}
    (hfits : t.Fits dom (cov.samples j) root) (strat : ExprStrat) :
    ∃ e, t.buildZexpr dom strat = .ok e ∧
      ∀ c ∈ cov.configs, e.sat c.val = true ↔ j ∈ c.covLocs := by
  obtain ⟨e, he, hform⟩ := hfits.buildZexpr (h.mem_samples_complete j true) strat
  refine ⟨e, he, fun c hc => ?_⟩
  have hcomplete := h.complete c hc
  rw [hform]
  by_cases hcov : j ∈ c.covLocs
  · have hhit := (mem_samples (b := true)).mpr ⟨hc, decide_eq_true hcov⟩
    simp [hfits.eval_hit hcomplete hhit, hcov]
  · have hmiss := (mem_samples (b := false)).mpr ⟨hc, decide_eq_false hcov⟩
    simp [hfits.eval_miss hcomplete hmiss, hcov]

theorem sat_iff (h : cov.Distinct dom) {t : CTree} {root : CNode}
    (hfits : t.Fits dom (cov.samples j) root) {strat : ExprStrat} {e : ZExpr}
    (he : t.buildZexpr dom strat = .ok e) {c : Config} (hc : c ∈ cov.configs) :
    e.sat c.val = true ↔ j ∈ c.covLocs := by
  obtain ⟨e', he', hiff⟩ := h.exists_zexpr hfits strat
  rw [he, Except.ok.injEq] at he'
  subst he'
  exact hiff c hc

end CoverageStore.Distinct

/-! ## The store of a run -/

section Runs

variable {Name Hash : Type} [DecidableEq Name] [DecidableEq Hash] {env : Env Name Hash}

/-- **The store grows**: one step. -/
theorem Stepped.grows {x y : Label × St Name Hash} (h : Stepped env x y) (hx : Base env x.2) :
    x.2.cov.Grows y.2.cov := by
  cases h with
  | start _ | stop | endTurns _ | pick _ | «return» _ | endConfig _ | terminate | enqueueAll | goOn
  | giveUp | brk _ | quiet _ | noSave | done => exact .refl _
  | turn _ hrun =>
      obtain ⟨d, d', -, hturned⟩ := hx.turned hrun
      exact hturned.grows
  | recheck _ _ hre =>
      obtain rfl | ⟨d, d', hmoved, -⟩ := hre.moved
      · exact .refl _
      · exact hmoved.grows
  | @usr _ s s' _ hfin =>
      show s.cov.Grows s'.cov
      rw [hfin.state]
      exact .refl _
  | @save _ s s' hfin =>
      show s.cov.Grows s'.cov
      rw [hfin.state]
      exact .refl _
  | @finish _ s s₁ s' hprep hfin =>
      show s.cov.Grows s'.cov
      rw [hfin.state, hprep.cov hx]
      exact .refl _

/-- What has been run before the loop is complete. -/
theorem Env.init_complete (h : env.Regular) :
    Meets env.init (fun s => ∀ c ∈ s.cov.configs, c.Complete env.dom) fun _ => True := by
  rw [init]
  refine meets_lift_bind (fun _ => trivial) fun r hr => ?_
  obtain ⟨configs, rng⟩ := r
  have hmade := (Env.initConfigs_made h).of_eq_ok hr
  dsimp only at hmade ⊢
  have htouched : ∀ c ∈ configs.map Config.touchHash, c.Made env.dom :=
    List.forall_mem_map.mpr fun c hc => (hmade c hc).touchHash
  refine meets_bind ((St.runConfigs_meets ⟨[], CoverageStore.valid_empty⟩ fun c hc =>
    (htouched c hc).fresh).mono (fun _ hran => hran) fun _ _ => trivial) fun p hran c hc => ?_
  have hvalues := List.mem_map_of_mem (f := Config.values) hc
  rw [hran.values, List.map_nil, List.nil_append] at hvalues
  obtain ⟨c', hc', heq⟩ := List.mem_map.mp hvalues
  have hcomplete := (htouched c' hc').complete
  rwa [Config.Complete, heq] at hcomplete

/-- **The store of a run** holds complete configurations, and no two are the same. -/
theorem RunsTo.distinct (hreg : env.Regular) {guard : Label × St Name Hash → Prop} {l : Label}
    {s : St Name Hash} (h : RunsTo env guard l s) : s.cov.Distinct env.dom := by
  have hstart := h
  obtain ⟨s₀, hinit, -⟩ := hstart
  have htally := h.tally hreg.solver hinit
  have hgrows : s₀.cov.Grows s.cov := by
    refine h.invariant (fun x => s₀.cov.Grows x.2.cov) (fun x y hx hgrows _ hstep =>
      hgrows.trans (hstep.grows hx.base)) fun s₁ hs₁ => ?_
    cases hinit.symm.trans hs₁
    exact .refl _
  refine ⟨fun c hc => ?_, nodup_values_of_ran htally.ran htally.nodup⟩
  obtain ⟨i, hi⟩ := List.mem_iff_getElem?.mp hc
  rcases Nat.lt_or_ge i s₀.cov.configs.length with hlt | hge
  · -- it was there before the loop
    have hget := List.getElem?_eq_getElem hlt
    have hsame := hgrows.configs i _ hget
    rw [hi, Option.some.injEq] at hsame
    rw [hsame]
    exact (Env.init_complete hreg).of_eq_ok hinit _ (List.getElem_mem hlt)
  · refine complete_iff_mem_allValues.mpr
      (mem_allValues_of_spaceValues hreg.range (htally.later _ ?_))
    refine List.mem_iff_getElem?.mpr ⟨i - s₀.cov.nConfigs, ?_⟩
    rw [List.getElem?_drop, CoverageStore.nConfigs, Nat.add_sub_cancel' hge, List.getElem?_map,
      hi, Option.map_some]

end Runs

end GenTree

import GenTree.DistinctStore
import GenTree.FinalReport
import GenTree.TruthScan

/-!
# The store of the first iterative algorithm

Every configuration that `IterativeAlgorithm` runs is as the generators make it
(`Config.Made`), as long as what the solver answers is a model and the caller has given seeds
that are configurations (`Env.Regular`).

The invariant `Enrolled` is stronger than validity of the store.  A valid store may hold any
configurations with any coverage; here configuration `i` covers what the program gave in its
`i`-th run, so that the report of a run can be compared with the program.  The set of hashes
has to be that of the store: only then does the `CHECK` on the set keep two configurations
with the same values out of the store.

* `generates_made` — what is generated is made.
* `Enrolled.registerRun`, `Enrolled.runConfigs` — what is run is enrolled.
* `RunsTo.enrolled` — in every run.
-/

namespace GenTree

open Outcome

/-! ## What the algorithm is given -/

namespace IterativeAlgorithm

variable {Name Hash : Type} {env : Env Name Hash}

/-- What the run of the first algorithm rests on: value indices fit into a `short`, the seeds
are configurations, and what the solver answers is a model. -/
structure Env.Regular (env : Env Name Hash) : Prop where
  short : ∀ v ∈ env.dom.vars, v.nValues ≤ 32767
  seeds : ∀ values ∈ env.options.seedConfigs, Config.Complete env.dom { values }
  solver : env.solver.Sound env.dom

theorem Env.Regular.range (h : env.Regular) : ∀ v ∈ env.dom.vars, v.nValues ≤ 32768 :=
  fun v hv => (h.short v hv).trans (by decide)

theorem generates_made [DecidableEq Hash] (hreg : env.Regular) :
    Generates env fun c => c.Made env.dom where
  touchHash _ hc := hc.touchHash
  all := genAllConfigs_made hreg.range
  covering rng := genOneConveringConfigs_made hreg.short rng
  seeds := getSeedConfigs_made hreg.range hreg.seeds
  leaf tree node lim rng solverCalls :=
    CTree.genOneConveringConfigs_made hreg.range hreg.solver tree node lim rng solverCalls

/-! ## The store -/

section Store

variable [DecidableEq Name] [DecidableEq Hash]

/-- The store **holds what has been run**: the configurations have values for all options and
no two are the same, and configuration `i` covers what the program has given in run `i`. -/
structure Enrolled (env : Env Name Hash) (s : St Name Hash) : Prop where
  valid : s.cov.Valid (s.cov.configs.mapIdx fun i c => env.program i c.values)
  complete : ∀ c ∈ s.cov.configs, c.Complete env.dom
  ran : s.setRanConfHash = (s.cov.configs.map fun c => env.confHash c.values).reverse
  nodup : s.setRanConfHash.Nodup

namespace Enrolled

variable {s s' : St Name Hash}

omit [DecidableEq Hash] in
/-- Only the store and the set of hashes matter. -/
theorem of_same (h : Enrolled env s) (hsame : s.SameRuns s') : Enrolled env s' := by
  obtain ⟨hcov, hran⟩ := hsame
  exact ⟨by rw [hcov]; exact h.valid, by rw [hcov]; exact h.complete,
    by rw [hran, hcov]; exact h.ran, by rw [hran]; exact h.nodup⟩

omit [DecidableEq Hash] in
theorem distinct (h : Enrolled env s) : s.cov.Distinct env.dom :=
  ⟨h.complete, nodup_values_of_ran h.ran h.nodup⟩

omit [DecidableEq Hash] in
/-- The configurations that cover a location are those for which the program has given its
name. -/
theorem mem_covLocs_iff (h : Enrolled env s) {i j : ℕ} {c : Config} {l : Location Name}
    (hc : s.cov.configs[i]? = some c) (hl : s.cov.locs[j]? = some l) :
    j ∈ c.covLocs ↔ l.name ∈ env.program i c.values := by
  rw [h.valid.mem_covLocs_iff hc hl, h.valid.covBy l (List.mem_of_getElem? hl),
    mem_covering, List.getElem?_mapIdx, hc]
  simp

/-- **One configuration is run.** -/
theorem registerRun (h : Enrolled env s) {c : Config} (hc : c.Made env.dom) (ids : List ℕ) :
    Meets (St.registerRun env (s, ids) (c, env.program s.cov.nConfigs c.values))
      (fun r => Enrolled env r.1 ∧ r.1.cov.nConfigs = s.cov.nConfigs + 1) fun _ => True := by
  obtain ⟨cov', n, hrun, hreg, hvalid⟩ :=
    h.valid.registerCov hc.fresh.id hc.fresh.covLocs (env.program_nodup s.cov.nConfigs c.values)
  obtain ⟨covLocs, hconfigs, -, -⟩ := hreg.configs
  unfold St.registerRun
  dsimp only
  rw [hrun, ok_bind]
  refine meets_check_bind (fun hnew => ?_) fun _ => trivial
  rw [hc.keyed] at hnew ⊢
  refine ⟨⟨?_, fun c' hc' => ?_, ?_, List.nodup_cons.mpr ⟨hnew, h.nodup⟩⟩, ?_⟩
  · rw [hconfigs, List.mapIdx_append, List.mapIdx_cons, List.mapIdx_nil, Nat.zero_add]
    exact hvalid
  · rw [hconfigs, List.mem_append, List.mem_singleton] at hc'
    rcases hc' with hc' | rfl
    · exact h.complete c' hc'
    · exact hc.complete
  · rw [hconfigs, List.map_append, List.reverse_append, h.ran]
    rfl
  · rw [CoverageStore.nConfigs, hconfigs, List.length_append]
    rfl

/-- **`run_configs`** on configurations as the generators make them. -/
theorem runConfigs (h : Enrolled env s) {cs : List Config} (hcs : AllMade env.dom cs) :
    Meets (s.runConfigs env cs) (fun r => Enrolled env r.1) fun _ => True := by
  unfold St.runConfigs
  refine (meets_foldlM (fun (done : List (Config × List Name)) (p : St Name Hash × List ℕ) =>
    Enrolled env p.1 ∧ p.1.cov.nConfigs = s.cov.nConfigs + done.length) _ ?_ ⟨h, rfl⟩).imp
      fun r hr => hr.1
  rintro done ⟨c, names⟩ rest ⟨s', ids⟩ hsplit ⟨hs', hlen⟩
  dsimp only at hs' hlen
  -- the names are those of the run that comes next
  have hget : (cs.zip (cs.mapIdx fun i c => env.program (s.cov.nConfigs + i) c.values))[done.length]? =
      some (c, names) := by
    rw [hsplit]
    simp
  rw [List.getElem?_zip_eq_some, List.getElem?_mapIdx] at hget
  obtain ⟨hc, hnames⟩ := hget
  dsimp only at hc hnames
  rw [hc, Option.map_some, Option.some.injEq, ← hlen] at hnames
  subst hnames
  refine (hs'.registerRun (hcs c (List.mem_of_getElem? hc)) ids).imp fun r hr => ⟨hr.1, ?_⟩
  rw [hr.2, hlen, List.length_append, List.length_singleton, Nat.add_assoc]

end Enrolled

/-- Running what the generators make keeps the store. -/
theorem Enrolled.kept (env : Env Name Hash) :
    Kept env (fun c => c.Made env.dom) (Enrolled env) where
  same _ _ h hsame := h.of_same hsame
  empty s hcov hran := by
    refine ⟨?_, ?_, ?_, ?_⟩
    · rw [hcov]
      exact CoverageStore.valid_empty
    · simp [hcov]
    · simp [hcov, hran]
    · simp [hran]
  runConfigs _ _ h hcs := h.runConfigs hcs

/-- **The store holds what has been run**, in every run. -/
theorem RunsTo.enrolled (hreg : env.Regular) {l : Label} {s : St Name Hash}
    (h : RunsTo env l s) : Enrolled env s :=
  h.kept (Enrolled.kept env) (generates_made hreg)

end Store

end IterativeAlgorithm

end GenTree

import GenTree.InitialConfigs
import GenTree.Steps

/-!
# No configuration is run twice

Two sets keep book of the configurations: `set_conf_hash` of those that have been
made, `set_ran_conf_hash` of those that have been run.  Between two steps they are the
same set, without repetitions, and it is the set of the hashes of the registered
configurations (`Ledger`).  Making counterexamples puts the first set ahead by exactly
the configurations that are made, and running them lets the second one catch up.

What a run begins with decides everything: the ledger is in order from the beginning
exactly when the seeds stand apart (`Env.neverTwice_iff`).
-/

namespace GenTree

open Outcome

/-- The `CHECK`s about the hashes of configurations. -/
def Fault.OfHashes : Fault → Prop
  | .confRanTwice | .confHashSizes => True
  | .lower _ | .iterDup | .iterLinked | .oneLocLinked | .oneLocNullTree | .recheckNullTree
  | .enqueueIgnored | .buildNotNeeded | .finishIgnored | .finishNullTree => False

theorem Fault.IsLower.not_ofHashes {f : Fault} (h : f.IsLower) : ¬ f.OfHashes := by
  obtain ⟨a, rfl⟩ := h
  exact not_false

section RunOnce

variable {Name Hash : Type} [DecidableEq Name] [DecidableEq Hash] {env : Env Name Hash}

omit [DecidableEq Name] [DecidableEq Hash] in
theorem FinishCulprit.not_ofHashes {s : St Name Hash} {f : Fault} (h : FinishCulprit env s f) :
    ¬ f.OfHashes := by
  cases h <;> exact not_false

omit [DecidableEq Hash] in
/-- The set of hashes is kept in the order of the runs, the latest first.  Where no hash is in
it twice, no configuration has been run twice. -/
theorem nodup_values_of_ran {confHash : List ℤ → Hash} {cs : List Config} {ran : List Hash}
    (hran : ran = (cs.map fun c => confHash c.values).reverse) (hnodup : ran.Nodup) :
    (cs.map Config.values).Nodup := by
  rw [hran, List.nodup_reverse] at hnodup
  refine .of_map confHash ?_
  rwa [List.map_map]

/-- The **ledger** is in order: what has been made has been run, once. -/
structure Ledger (env : Env Name Hash) (s : St Name Hash) : Prop where
  stocked : Stocked env s.cov
  ran : s.setRanConfHash = (s.cov.configs.map fun c => env.confHash c.values).reverse
  known : s.setConfHash.Perm s.setRanConfHash
  nodup : s.setRanConfHash.Nodup

namespace Ledger

variable {s s' : St Name Hash}

omit [DecidableEq Hash] in
/-- Only the store and the two sets matter. -/
theorem of_eq (h : Ledger env s) (hcov : s'.cov = s.cov) (hknown : s'.setConfHash = s.setConfHash)
    (hran : s'.setRanConfHash = s.setRanConfHash) : Ledger env s' where
  stocked := by rw [hcov]; exact h.stocked
  ran := by rw [hran, hcov]; exact h.ran
  known := by rw [hknown, hran]; exact h.known
  nodup := by rw [hran]; exact h.nodup

omit [DecidableEq Hash] in
theorem nodup_values (h : Ledger env s) : (s.cov.configs.map Config.values).Nodup :=
  nodup_values_of_ran h.ran h.nodup

end Ledger

/-! ## Counterexamples -/

/-- The configurations that have been made are those whose hashes have become
known. -/
structure Booked (env : Env Name Hash) (s : St Name Hash) (r : St Name Hash × List Config) :
    Prop where
  keyed : AllKeyed r.2
  known : r.1.setConfHash = (r.2.map fun c => env.confHash c.values).reverse ++ s.setConfHash
  nodup : s.setConfHash.Nodup → r.1.setConfHash.Nodup

omit [DecidableEq Name] in
theorem booked_cexRule (s : St Name Hash) : CexRule env (Booked env s) where
  draws _ _ _ _ h := ⟨h.keyed, h.known, h.nodup⟩
  add p c hc hp := by
    obtain ⟨tree, node, lim, rng, solverCalls, r, hr, hmem⟩ := hc
    have hkeyed : c.Keyed :=
      (tree.genOneConveringConfigs_keyed node lim rng solverCalls).of_eq_ok hr c hmem
    have hhash : env.confHash c.hashKey = env.confHash c.values := congrArg env.confHash hkeyed
    rw [St.addCex]
    dsimp only
    rw [hhash]
    split
    · exact hp
    · next hnew =>
        refine ⟨hp.keyed.concat hkeyed.touchHash, ?_, fun hnodup => ?_⟩
        · show _ :: p.1.setConfHash = _
          rw [hp.known, List.map_append, List.reverse_append]
          rfl
        · exact List.nodup_cons.mpr ⟨hnew, hp.nodup hnodup⟩

omit [DecidableEq Name] in
theorem St.makeCex_booked (s : St Name Hash) (tree : CTree) (heavy : Bool) :
    Meets (s.makeCex env tree heavy) (fun r => Made env s r ∧ Booked env s r)
      fun f => ¬ f.OfHashes := by
  have hrule : CexRule env (Booked env s) := booked_cexRule s
  have hbooked := hrule.makeCex tree heavy ⟨by simp [AllKeyed], rfl, fun hnodup => hnodup⟩
  exact ((s.makeCex_meets tree heavy).and hbooked).mono (fun _ h => h) fun _ hf => hf.not_ofHashes

/-- **Counterexamples are run** for the first time. -/
theorem Ledger.runConfigs {s s₁ : St Name Hash} {cex : List Config} (h : Ledger env s)
    (hmade : Made env s (s₁, cex)) (hbooked : Booked env s (s₁, cex)) :
    Meets (s₁.runConfigs env cex) (fun r => Ledger env r.1) fun f => ¬ f.OfHashes := by
  obtain ⟨hdrew, hfresh⟩ := hmade
  dsimp only at hdrew hfresh
  have hcov : s₁.cov = s.cov := by rw [hdrew]
  have hran : s₁.setRanConfHash = s.setRanConfHash := by rw [hdrew]
  have hstocked : Stocked env s₁.cov := by rw [hcov]; exact h.stocked
  have hhashes : (cex.map fun c => env.confHash c.hashKey) =
      cex.map fun c => env.confHash c.values :=
    List.map_congr_left fun c hc => congrArg env.confHash (hbooked.keyed c hc)
  -- the set that is ahead already holds what the other one will hold
  have hahead : s₁.setConfHash.Perm
      ((cex.map fun c => env.confHash c.hashKey).reverse ++ s₁.setRanConfHash) := by
    rw [hbooked.known, hhashes, hran]
    exact h.known.append_left _
  have hnodup : s₁.setConfHash.Nodup := hbooked.nodup (h.known.nodup_iff.mpr h.nodup)
  refine (St.runConfigs_meets hstocked.valid hfresh).mono ?_ ?_
  · rintro ⟨s₂, ids⟩ hruns
    have hstate := hruns.state
    dsimp only at hruns hstate ⊢
    refine ⟨hstocked.ran hruns hfresh, ?_, ?_, ?_⟩
    · have hvalues := congrArg (List.map env.confHash) hruns.values
      rw [List.map_append, List.map_map, List.map_map, List.map_map] at hvalues
      rw [hruns.hashes, hhashes, hran, h.ran, ← List.reverse_append, ← hcov]
      exact congrArg List.reverse hvalues.symm
    · rw [hruns.hashes, hstate]
      exact hahead
    · rw [hruns.hashes]
      exact hahead.nodup_iff.mp hnodup
  · rintro f ⟨-, hdup⟩
    exact absurd (hahead.nodup_iff.mp hnodup) hdup

/-! ## A turn -/

omit [DecidableEq Name] [DecidableEq Hash] in
theorem St.buildTree_setDat (s : St Name Hash) (j iter : ℕ) :
    Meets (s.buildTree env j iter) (fun s' => ∃ d, s' = s.setDat j d) fun f => ¬ f.OfHashes := by
  rw [buildTree]
  refine meets_lift_bind (fun _ => not_false) fun d _ => ?_
  refine meets_check_bind (fun _ => ?_) fun _ => not_false
  exact meets_lift_bind (fun _ => not_false) fun t _ => ⟨_, rfl⟩

omit [DecidableEq Hash] in
theorem Ledger.setDat {s : St Name Hash} (h : Ledger env s) (j : ℕ) (d : LocData) :
    Ledger env (s.setDat j d) := h.of_eq rfl rfl rfl

/-- `run_one_loc` keeps the ledger in order. -/
theorem Ledger.runOneLoc {s : St Name Hash} (h : Ledger env s) (iter j : ℕ)
    (rebuild heavy : Bool) :
    Meets (s.runOneLoc env iter j rebuild heavy) (fun r => Ledger env r.1)
      fun f => ¬ f.OfHashes := by
  rw [St.runOneLoc]
  refine meets_lift_bind (fun _ => not_false) fun d _ => ?_
  refine meets_check_bind (fun _ => ?_) fun _ => not_false
  have hbuild : Meets (if rebuild then s.buildTree env j iter else .ok s) (Ledger env)
      fun f => ¬ f.OfHashes := by
    split
    · refine (St.buildTree_setDat s j iter).imp ?_
      rintro s' ⟨d', rfl⟩
      exact h.setDat j d'
    · exact h
  refine meets_bind hbuild fun s₁ hs₁ => ?_
  refine meets_lift_bind (fun _ => not_false) fun d₁ _ => ?_
  split
  · exact not_false
  · next tree _ =>
      refine meets_bind (s₁.makeCex_booked tree heavy) ?_
      rintro ⟨s₂, cex⟩ ⟨hmade, hbooked⟩
      dsimp only
      split
      · next hnil =>
          subst hnil
          have hdrew : s₂ = _ := hmade.1
          refine hs₁.of_eq (by rw [hdrew]) ?_ (by rw [hdrew])
          simpa using hbooked.known
      · refine meets_bind (hs₁.runConfigs hmade hbooked) fun r hr => ?_
        refine meets_lift_bind (fun _ => not_false) fun t _ => ?_
        exact hr.setDat j _

/-- So does the loop over `t`. -/
theorem Ledger.tries {s : St Name Hash} (h : Ledger env s) (iter j : ℕ)
    (consecutiveSuccess : ℤ) (left : ℕ) (cSuccess : ℤ) :
    Meets (St.tries env iter j consecutiveSuccess left cSuccess s) (fun r => Ledger env r.1)
      fun f => ¬ f.OfHashes := by
  induction left generalizing cSuccess s with
  | zero => exact h
  | succ left ih =>
      rw [St.tries]
      have hread : Ledger env (s.readSignal env) := h.of_eq rfl rfl rfl
      dsimp only
      split
      · exact hread
      · refine meets_lift_bind (fun _ => not_false) fun d _ => ?_
        refine meets_bind (hread.runOneLoc iter j _ _) ?_
        rintro ⟨s₁, ok⟩ hs₁
        refine meets_lift_bind (fun _ => not_false) fun d₁ _ => ?_
        split
        · split
          · exact hs₁.setDat j _
          · exact ih (hs₁.setDat j _) _
        · exact ih (hs₁.setDat j _) 0

omit [DecidableEq Hash] in
theorem Ledger.enqueueNext {s : St Name Hash} (h : Ledger env s) (j : ℕ) :
    Meets (s.enqueueNext env j) (Ledger env) fun f => ¬ f.OfHashes := by
  rw [St.enqueueNext]
  refine meets_lift_bind (fun _ => not_false) fun d _ => ?_
  refine meets_check_bind (fun _ => ?_) fun _ => not_false
  dsimp only
  split
  · exact h.setDat j _
  · exact h.of_eq rfl rfl rfl

/-- **A turn keeps the ledger in order.** -/
theorem Ledger.turn {s : St Name Hash} (h : Ledger env s) (iter j : ℕ) :
    Meets (s.turn env iter j) (fun r => Ledger env r.1) fun f => ¬ f.OfHashes := by
  rw [St.turn]
  refine meets_lift_bind (fun _ => not_false) fun d _ => ?_
  refine meets_check_bind (fun _ => ?_) fun _ => not_false
  refine meets_bind (h.tries iter j _ _ 0) ?_
  rintro ⟨s₁, ended⟩ hs₁
  cases ended with
  | interrupted => exact hs₁
  | finished => exact meets_lift_bind (fun _ => not_false) fun d₁ _ => hs₁.setDat j _
  | exhausted => exact meets_bind (hs₁.enqueueNext j) fun s₂ hs₂ => hs₂

/-! ## Steps -/

omit [DecidableEq Hash] in
theorem Rechecked.ledger {c : Config} {k : ℕ} {it it' : List ℕ} {s s' : St Name Hash}
    (h : Rechecked env c k it s s' it') (hs : Ledger env s) : Ledger env s' := by
  cases h with
  | absent _ => exact hs
  | skipped _ _ => exact hs
  | right _ _ _ _ _ _ _ => exact hs.setDat k _
  | wrong _ _ _ _ henq =>
      cases henq with
      | ignored _ _ _ _ _ hstate =>
          rw [hstate]
          exact (hs.setDat k _).setDat k _
      | queued _ _ _ _ _ _ hstate =>
          rw [hstate]
          exact hs.of_eq rfl rfl rfl

omit [DecidableEq Hash] in
theorem Finished.ledger {buildTreeTemp : Bool} {iter : ℕ} {s s' : St Name Hash}
    (h : Finished env buildTreeTemp s iter s') (hs : Ledger env s) : Ledger env s' := by
  rw [h.state]
  exact hs.of_eq rfl rfl rfl

theorem PreparedFinal.ledger {s s' : St Name Hash} (h : PreparedFinal env s s')
    (hs : Ledger env s) : Ledger env s' := by
  cases h with
  | same _ hstate => rwa [hstate]
  | fresh _ hprep href =>
      obtain ⟨p, -, heq⟩ := bind_eq_ok.mp hprep
      cases heq
      rw [href.state]
      exact hs.of_eq rfl rfl rfl

/-- **Every step keeps the ledger in order**, and no step dies because of a hash. -/
theorem Ledger.step {x : Label × St Name Hash} (h : Ledger env x.2) (hx : Base env x.2) :
    Meets (step env x) (fun y => Ledger env y.2) fun f => ¬ f.OfHashes := by
  obtain ⟨l, s⟩ := x
  cases l with
  | head iter =>
      rw [GenTree.step]
      split
      · refine meets_check_bind (fun _ => ?_) fun hne => absurd h.known.length_eq hne
        refine meets_bind ((St.startIter_meets hx).mono (fun _ hs => hs) ?_) ?_
        · rintro f ⟨rfl, -⟩
          exact not_false
        · rintro s' ⟨rfl, -⟩
          exact h.of_eq rfl rfl rfl
      · exact h
  | turns iter k =>
      rw [GenTree.step]
      split
      · exact h
      · exact meets_bind (h.turn iter _) fun r hr => hr
  | recheck iter i =>
      rw [GenTree.step]
      split
      · exact meets_lift_bind (fun _ => not_false) fun c _ => h
      · exact h
  | recheckAt iter i k it =>
      rw [GenTree.step]
      split
      · exact h
      · next loc hloc =>
          obtain ⟨hist, hv⟩ := hx.stocked.valid
          refine meets_lift_bind (fun _ => not_false) fun c _ => ?_
          refine meets_bind ((St.recheckLoc_meets (hv.locId k loc hloc)).mono (fun _ hs => hs) ?_) ?_
          · rintro f (hlower | ⟨rfl, -⟩)
            · exact hlower.not_ofHashes
            · exact not_false
          · exact fun r hr => hr.ledger h
  | returned iter empty =>
      cases empty with
      | true =>
          rw [GenTree.step]
          split
          · exact h.of_eq rfl rfl rfl
          · exact h.of_eq rfl rfl rfl
      | false => exact h.of_eq rfl rfl rfl
  | interrupted iter => exact h.of_eq rfl rfl rfl
  | signals iter =>
      have hread : Ledger env (s.readSignal env) := h.of_eq rfl rfl rfl
      have hfinish : Meets ((s.readSignal env).finishAlg env iter false) (Ledger env)
          fun f => ¬ f.OfHashes :=
        (St.finishAlg_meets _ iter false).mono (fun _ hfin => hfin.ledger hread)
          fun _ hf => hf.not_ofHashes
      rw [GenTree.step]
      split
      · exact hread
      · exact meets_bind hfinish fun s' hs' => hs'.of_eq rfl rfl rfl
      · exact meets_bind hfinish fun s' hs' => hs'.of_eq rfl rfl rfl
      · exact hread
      · exact hread
  | save iter =>
      rw [GenTree.step]
      split
      · refine meets_bind ((St.finishAlg_meets s iter true).mono (fun _ hfin => hfin.ledger h)
          fun _ hf => hf.not_ofHashes) fun s' hs' => hs'
      · exact h
  | final iter =>
      rw [GenTree.step]
      refine meets_bind ((St.prepareFinal_meets s).mono (fun _ hprep => hprep.ledger h)
        fun _ hf => hf.isLower.not_ofHashes) fun s₁ hs₁ => ?_
      exact meets_bind ((St.finishAlg_meets s₁ iter false).mono (fun _ hfin => hfin.ledger hs₁)
        fun _ hf => hf.not_ofHashes) fun s' hs' => hs'
  | done => exact h

/-! ## Runs -/

/-- The state `run_alg` runs the initial configurations in. -/
def Env.beforeRuns (env : Env Name Hash) (configs : List Config) (rng : ℕ) : St Name Hash :=
  { rng, setConfHash := (configs.map fun c => env.confHash c.hashKey).dedup }

/-- The initial configurations are run. -/
theorem Env.init_ran {configs : List Config} {rng : ℕ} (h : env.initConfigs = .ok (configs, rng)) :
    Meets env.init (Ran env (env.beforeRuns configs rng) (configs.map Config.touchHash))
      (RanTwice env (env.beforeRuns configs rng) (configs.map Config.touchHash)) := by
  have hfresh := env.initConfigs_fresh.of_eq_ok h
  rw [init, h, lift_ok, ok_bind]
  refine meets_bind (St.runConfigs_meets ⟨[], CoverageStore.valid_empty⟩ ?_) fun r hran => hran
  intro c hc
  obtain ⟨c', hc', rfl⟩ := List.mem_map.mp hc
  exact (hfresh c' hc').touchHash

/-- The ledger at the beginning: it is in order when the seeds stand apart. -/
theorem Env.init_ledger (hinj : Function.Injective env.confHash) (hapart : env.SeedsApart) :
    Meets env.init (Ledger env) fun f => ¬ f.OfHashes := by
  cases hconfigs : env.initConfigs with
  | error a =>
      rw [init, hconfigs]
      exact not_false
  | ok r =>
      obtain ⟨configs, rng⟩ := r
      obtain ⟨hkeyed, hnodup⟩ := env.initConfigs_meets.of_eq_ok hconfigs
      dsimp only at hkeyed hnodup
      have hhashes : (configs.map fun c => env.confHash c.hashKey) =
          configs.map fun c => env.confHash c.values :=
        List.map_congr_left fun c hc => congrArg env.confHash (hkeyed c hc)
      have hruns : ((configs.map Config.touchHash).map fun c => env.confHash c.hashKey) =
          configs.map fun c => env.confHash c.values := by
        rw [← hhashes, List.map_map]
        rfl
      have hdistinct : (configs.map fun c => env.confHash c.values).Nodup := by
        have := (hnodup hapart).map hinj
        rwa [List.map_map] at this
      cases hinit : env.init with
      | error f =>
          obtain ⟨-, hdup⟩ := (init_ran hconfigs).of_eq_error hinit
          rw [hruns, beforeRuns, List.append_nil, List.nodup_reverse] at hdup
          exact absurd hdistinct hdup
      | ok s =>
          have hran := (init_ran hconfigs).of_eq_ok hinit
          have hset : s.setRanConfHash = (configs.map fun c => env.confHash c.values).reverse := by
            rw [hran.hashes, hruns, beforeRuns, List.append_nil]
          refine ⟨(env.init_meets.of_eq_ok hinit).1.stocked, ?_, ?_, ?_⟩
          · have hvalues := congrArg (List.map env.confHash) hran.values
            simp only [beforeRuns, List.map_map, List.map_nil, List.nil_append] at hvalues
            rw [hset]
            exact congrArg List.reverse hvalues.symm
          · have hknown : s.setConfHash = (configs.map fun c => env.confHash c.hashKey).dedup := by
              rw [hran.state, beforeRuns]
            rw [hknown, hset, hhashes, hdistinct.dedup]
            exact (List.reverse_perm _).symm
          · rw [hset]
            exact List.nodup_reverse.mpr hdistinct

/-- **The ledger is in order in every state of every run.** -/
theorem RunsTo.ledger (hinj : Function.Injective env.confHash) (hapart : env.SeedsApart)
    {guard : Label × St Name Hash → Prop} {l : Label} {s : St Name Hash}
    (h : RunsTo env guard l s) : Ledger env s := by
  obtain ⟨s₀, hinit, hreach⟩ := h
  refine (hreach.invariant (fun x => Base env x.2 ∧ Ledger env x.2) (E := fun _ => True)
    (fun x hx _ => ?_) ⟨(env.init_meets.of_eq_ok hinit).1, ?_⟩).2
  · obtain ⟨hbase, hledger⟩ := hx
    exact ((step_meets hbase).mono (fun y hy => hy.base hbase) fun _ _ => trivial).and
      ((hledger.step hbase).mono (fun _ hy => hy) fun _ _ => trivial)
  · exact (env.init_ledger hinj hapart).of_eq_ok hinit

/-- **No configuration is run twice**: those that are registered differ from each
other, no `CHECK` about a hash ends the run, before its first step or at one of them,
and the two sets are of one size at the start of every iteration.  A configuration
that `_run_configs` is given is registered, or its hash is the one the `CHECK` dies
of. -/
structure Env.NeverTwice (env : Env Name Hash) : Prop where
  init : ∀ f, env.init = .error f → ¬ f.OfHashes
  values : ∀ l s, RunsTo env (fun _ => True) l s → (s.cov.configs.map Config.values).Nodup
  step : ∀ l s f, RunsTo env (fun _ => True) l s → step env (l, s) = .error f → ¬ f.OfHashes
  sizes : ∀ iter s, RunsTo env (fun _ => True) (.head iter) s →
    s.setConfHash.length = s.setRanConfHash.length

/-- **Configurations are run once** exactly when the seeds stand apart. -/
theorem Env.neverTwice_iff (env : Env Name Hash) (hinj : Function.Injective env.confHash) :
    env.NeverTwice ↔ env.SeedsApart := by
  constructor
  · intro hnever hfull hrand covering rng seeds hcovering hseeds
    have hran := init_ran (initConfigs_default hfull hrand hcovering hseeds)
    -- the initial configurations have been run without a repetition
    have hdistinct : ((covering ++ seeds).map Config.values).Nodup := by
      cases hinit : env.init with
      | error f =>
          obtain ⟨rfl, -⟩ := hran.of_eq_error hinit
          exact absurd trivial (hnever.init _ hinit)
      | ok s₀ =>
          have hnodup := hnever.values _ s₀ ⟨s₀, hinit, .refl⟩
          rwa [(hran.of_eq_ok hinit).values, List.map_map] at hnodup
    rw [List.map_append] at hdistinct
    refine ⟨hdistinct.of_append_left, hdistinct.of_append_right, fun c hc hmem => ?_⟩
    exact List.disjoint_of_nodup_append hdistinct hmem (List.mem_map_of_mem hc)
  · intro hapart
    exact {
      init := fun f hf => (env.init_ledger hinj hapart).of_eq_error hf
      values := fun l s hrun => (hrun.ledger hinj hapart).nodup_values
      step := fun l s f hrun hf => ((hrun.ledger hinj hapart).step hrun.base).of_eq_error hf
      sizes := fun iter s hrun => (hrun.ledger hinj hapart).known.length_eq }

end RunOnce

/-! ## Seeds -/

/-- Three switches, a program that covers nothing, and seeds. -/
def Env.seeded (seeds : List (List ℤ)) : Env ℕ (List ℤ) :=
  { Env.small (fun _ => []) with options := { rounds := 1, seedConfigs := seeds } }

/-- A seed that is none of the covering configurations `000` and `111`. -/
theorem Env.neverTwice_iff_seed :
    (Env.seeded [[0, 1, 1]]).NeverTwice ∧ (Env.seeded [[0, 1, 1]]).SeedsApart := by
  have hapart : (Env.seeded [[0, 1, 1]]).SeedsApart := by
    refine seedsApart_of_labels (by decide) fun covering rng seeds hcovering hseeds => ?_
    have hcov : GenTree.genOneConveringConfigs (Env.seeded [[0, 1, 1]]).dom
        (Env.seeded [[0, 1, 1]]).draws 0 =
        .ok ([{ values := [0, 0, 0] }, { values := [1, 1, 1] }], 6) := by
      decide
    have hseed : getSeedConfigs (Env.seeded [[0, 1, 1]]).dom [[0, 1, 1]] =
        .ok [{ values := [0, 1, 1] }] := by
      decide
    cases hcov.symm.trans hcovering
    cases hseed.symm.trans hseeds
    decide
  exact ⟨((Env.seeded [[0, 1, 1]]).neverTwice_iff fun _ _ h => h).mpr hapart, hapart⟩

/-- The fault a run dies with before its first iteration. -/
def Env.initFault {Name Hash : Type} [DecidableEq Name] [DecidableEq Hash]
    (env : Env Name Hash) : Option Fault :=
  match env.init with
  | .ok _ => none
  | .error f => some f

/-- The same valid seed given twice: the run dies before its first iteration. -/
theorem Env.init_seed_twice :
    let env := Env.seeded [[0, 1, 1], [0, 1, 1]]
    Function.Injective env.confHash ∧
      (∃ seeds, getSeedConfigs env.dom env.options.seedConfigs = .ok seeds) ∧
      env.init = .error .confRanTwice ∧ ¬ env.NeverTwice := by
  intro env
  have hfault : env.initFault = some .confRanTwice := by decide +kernel
  have hinit : env.init = .error .confRanTwice := by
    unfold Env.initFault at hfault
    split at hfault
    · cases hfault
    · next f hf => rw [hf, Option.some.inj hfault]
  refine ⟨fun _ _ h => h, ⟨[{ values := [0, 1, 1] }, { values := [0, 1, 1] }], by decide⟩, hinit, ?_⟩
  intro hnever
  exact hnever.init _ hinit trivial

end GenTree

import GenTree.IterAlgo
import GenTree.Steps

/-!
# What the first iterative algorithm runs

`IterativeAlgorithm` touches the coverage store and the set of hashes in one place only:
`run_configs`.  Everything else it does (building trees, gathering leaves, choosing
counterexamples, comparing) works on the records.  So an invariant of the store is kept by a
whole run as soon as `run_configs` keeps it for the configurations that come there, and these
come from four generators.

This module says both once, for any property `Good` of configurations and any property of
states:

* `St.SameRuns` — nothing has been run between two states; the frame of all functions but
  `run_configs`.
* `Generates env Good` — the generators make good configurations.  What is drawn and what the
  solver answers stays open, so an instance has to be proved for every draw and answer.
* `Chosen Good s p` — a choice of counterexamples that was begun in `s`.
* `Kept env Good I` — running good configurations keeps `I`.
* `RunsTo.kept` — then `I` holds in every state of every run.

That the store is valid (`RunsTo.valid`) and that it holds what has been run
(`RunsTo.enrolled`) are the two instances.
-/

namespace GenTree

open Outcome

namespace IterativeAlgorithm

variable {Name Hash : Type} {env : Env Name Hash}

/-- Nothing has been run between the two states. -/
structure St.SameRuns (s s' : St Name Hash) : Prop where
  cov : s'.cov = s.cov
  ran : s'.setRanConfHash = s.setRanConfHash

theorem St.SameRuns.refl (s : St Name Hash) : s.SameRuns s := ⟨rfl, rfl⟩

theorem St.SameRuns.trans {s s' s'' : St Name Hash} (h : s.SameRuns s') (h' : s'.SameRuns s'') :
    s.SameRuns s'' := ⟨h'.cov.trans h.cov, h'.ran.trans h.ran⟩

/-! ## What runs nothing -/

theorem newTree_same (s : St Name Hash) (id : ℕ) (d : LocData) (loc : Location Name) :
    Meets (s.newTree env id d loc) (fun r => s.SameRuns r.1) fun _ => True := by
  unfold St.newTree
  refine meets_bind_of_eq (fun _ _ => trivial) fun tree _ => ?_
  refine meets_bind_of_eq (fun _ _ => trivial) fun tree' _ => ?_
  exact ⟨rfl, rfl⟩

theorem gatherLoc_same (p : Prep Name Hash) (loc : Location Name) :
    Meets (gatherLoc p loc) (fun p' => p.s.SameRuns p'.s) fun _ => True := by
  unfold gatherLoc
  refine meets_bind_of_eq (fun _ _ => trivial) fun id _ => ?_
  refine meets_bind_of_eq (fun _ _ => trivial) fun d _ => ?_
  split
  · refine meets_bind_of_eq (fun _ _ => trivial) fun tree _ => ?_
    refine meets_bind_of_eq (fun _ _ => trivial) fun nMinCases _ => ?_
    exact meets_bind_of_eq (fun _ _ => trivial) fun nodes _ => ⟨rfl, rfl⟩
  · exact .refl p.s

/-- A loop over the locations that runs nothing. -/
theorem foldlM_same {body : Prep Name Hash → Location Name → Except Abort (Prep Name Hash)}
    (hbody : ∀ p loc, Meets (body p loc) (fun p' => p.s.SameRuns p'.s) fun _ => True)
    (locs : List (Location Name)) (p : Prep Name Hash) :
    Meets (locs.foldlM body p) (fun p' => p.s.SameRuns p'.s) fun _ => True := by
  apply meets_foldlM_const (fun p' : Prep Name Hash => p.s.SameRuns p'.s)
  · intro loc _ p' hp'
    exact (hbody p' loc).imp fun p'' hp'' => hp'.trans hp''
  · exact .refl p.s

section Compare

variable {igThr iter : ℤ} {c : Config}

theorem treeEval_same (s : St Name Hash) (d : LocData) (truth : Bool) :
    Meets (treeEval s d c truth) (fun r => s.SameRuns r.2) fun _ => True := by
  unfold treeEval
  split
  · refine meets_bind_of_eq (fun _ _ => trivial) fun tree _ => ?_
    exact meets_bind_of_eq (fun _ _ => trivial) fun r _ => ⟨rfl, rfl⟩
  · refine meets_bind_of_eq (fun _ _ => trivial) fun tree _ => ?_
    exact meets_bind_of_eq (fun _ _ => trivial) fun r _ => .refl s
  · trivial

theorem compareLoc_same (sc : Scan Name Hash) (id : ℕ) :
    Meets (compareLoc igThr iter c sc id) (fun sc' => sc.s.SameRuns sc'.s) fun _ => True := by
  unfold compareLoc
  refine meets_bind_of_eq (fun _ _ => trivial) fun d _ => ?_
  split
  · exact .refl sc.s
  · split
    · exact .refl sc.s
    · refine meets_bind (treeEval_same sc.s d _) fun r hr => ?_
      dsimp only
      split
      · exact hr.trans ⟨rfl, rfl⟩
      · exact hr.trans ⟨rfl, rfl⟩

theorem compareLocs_same (locs : List (Location Name)) (sc : Scan Name Hash) :
    Meets (compareLocs igThr iter c locs sc) (fun sc' => sc.s.SameRuns sc'.s) fun _ => True := by
  induction locs generalizing sc with
  | nil => exact .refl sc.s
  | cons loc locs ih =>
      rw [compareLocs]
      refine meets_bind_of_eq (fun _ _ => trivial) fun id _ => ?_
      split
      · exact .refl sc.s
      · refine meets_bind (compareLoc_same sc id) fun sc' hsc' => ?_
        exact (ih sc').imp fun sc'' hsc'' => hsc'.trans hsc''

end Compare

section Runs

variable [DecidableEq Hash]

theorem prepareLoc_same (p : Prep Name Hash) (loc : Location Name) :
    Meets (prepareLoc env p loc) (fun p' => p.s.SameRuns p'.s) fun _ => True := by
  unfold prepareLoc
  refine meets_bind_of_eq (fun _ _ => trivial) fun id _ => ?_
  refine meets_bind_of_eq (fun _ _ => trivial) fun d _ => ?_
  split
  · exact meets_bind_of_eq (fun _ _ => trivial) fun m _ => ⟨rfl, rfl⟩
  · dsimp only
    split
    · refine meets_bind (newTree_same p.s id _ loc) fun r hr => ?_
      refine meets_bind_of_eq (fun _ _ => trivial) fun nMinCases _ => ?_
      exact meets_bind_of_eq (fun _ _ => trivial) fun leaves _ => hr
    · exact ⟨rfl, rfl⟩

theorem finalizeLoc_same (p : Prep Name Hash) (loc : Location Name) :
    Meets (finalizeLoc env p loc) (fun p' => p.s.SameRuns p'.s) fun _ => True := by
  unfold finalizeLoc
  refine meets_bind_of_eq (fun _ _ => trivial) fun id _ => ?_
  split
  · exact .refl p.s
  · refine meets_bind_of_eq (fun _ _ => trivial) fun d _ => ?_
    split
    · exact meets_bind_of_eq (fun _ _ => trivial) fun m _ => ⟨rfl, rfl⟩
    · exact meets_bind (newTree_same p.s id _ loc) fun r hr => hr

theorem finalizeBuildTrees_same (s : St Name Hash) :
    Meets (finalizeBuildTrees env s) (fun s' => s.SameRuns s') fun _ => True :=
  meets_bind (foldlM_same finalizeLoc_same s.cov.locs { s }) fun _ hp => hp

/-! ## Counterexamples -/

variable {Good : Config → Prop}

/-- **The generators make good configurations**, and `touchHash`, which the algorithm calls on
each of them, leaves them so. -/
structure Generates (env : Env Name Hash) (Good : Config → Prop) : Prop where
  touchHash : ∀ c, Good c → Good c.touchHash
  all : Meets (genAllConfigs env.dom) (fun cs => ∀ c ∈ cs, Good c) fun _ => True
  covering : ∀ rng, Meets (GenTree.genOneConveringConfigs env.dom env.draws rng)
    (fun r => ∀ c ∈ r.1, Good c) fun _ => True
  seeds : Meets (getSeedConfigs env.dom env.options.seedConfigs) (fun cs => ∀ c ∈ cs, Good c)
    fun _ => True
  leaf : ∀ (tree : CTree) (node : NodeRef) (lim : ℤ) (rng solverCalls : ℕ),
    Meets (tree.genOneConveringConfigs env.dom env.draws env.solver env.confHash node lim rng
      solverCalls) (fun r => ∀ c ∈ r.1, Good c) fun _ => True

/-- A choice of counterexamples: nothing has been run since `s`, and they are good. -/
structure Chosen (Good : Config → Prop) (s : St Name Hash) (p : Choice Name Hash) : Prop where
  same : s.SameRuns p.s
  good : ∀ c ∈ p.cex, Good c

namespace Chosen

variable {s : St Name Hash} {p : Choice Name Hash}

omit [DecidableEq Hash] in
/-- The state of a choice may draw and call the solver. -/
theorem next (h : Chosen Good s p) (rng solverCalls : ℕ) (skippedMe : ℕ) :
    Chosen Good s { p with s := { p.s with rng, solverCalls }, skippedMe } :=
  ⟨h.same.trans ⟨rfl, rfl⟩, h.good⟩

theorem addCex (hgen : Generates env Good) (h : Chosen Good s p) {c : Config} (hc : Good c) :
    Chosen Good s (addCex env p c) := by
  unfold IterativeAlgorithm.addCex
  dsimp only
  split
  · exact ⟨h.same, h.good⟩
  · refine ⟨h.same.trans ⟨rfl, rfl⟩, fun x hx => ?_⟩
    rcases List.mem_append.mp hx with hx | hx
    · exact h.good x hx
    · rw [List.mem_singleton.mp hx]
      exact hgen.touchHash c hc

theorem foldl_addCex (hgen : Generates env Good) (h : Chosen Good s p) {cs : List Config}
    (hcs : ∀ c ∈ cs, Good c) : Chosen Good s (cs.foldl (IterativeAlgorithm.addCex env) p) := by
  induction cs generalizing p with
  | nil => exact h
  | cons c cs ih =>
      obtain ⟨hc, hcs⟩ := List.forall_mem_cons.mp hcs
      exact ih (h.addCex hgen hc) hcs

theorem genFor (hgen : Generates env Good) (h : Chosen Good s p) (leaf : Leaf) :
    Meets (genFor env p leaf) (Chosen Good s) fun _ => True := by
  unfold IterativeAlgorithm.genFor
  refine meets_bind_of_eq (fun _ _ => trivial) fun tree _ => ?_
  refine meets_bind (hgen.leaf ..) ?_
  rintro ⟨configs, rng, solverCalls⟩ hr
  exact (h.next rng solverCalls 0).foldl_addCex hgen hr

theorem genLeaves (hgen : Generates env Good) (h : Chosen Good s p) (leaves : List Leaf) :
    Meets (genLeaves env leaves p) (Chosen Good s) fun _ => True := by
  induction leaves generalizing p with
  | nil => exact h
  | cons leaf leaves ih =>
      rw [IterativeAlgorithm.genLeaves]
      split
      · exact h
      · split
        · exact h
        · exact meets_bind (h.genFor hgen leaf) fun p' hp' => ih hp'

theorem genRand (hgen : Generates env Good) (h : Chosen Good s p) (leaves : List Leaf)
    (fuel randSkip : ℕ) :
    Meets (genRand env leaves fuel randSkip p) (Chosen Good s) fun _ => True := by
  induction fuel generalizing randSkip p with
  | zero => trivial
  | succ fuel ih =>
      rw [IterativeAlgorithm.genRand]
      split
      · refine meets_bind_of_eq (fun _ _ => trivial) fun i _ => ?_
        refine meets_bind_of_eq (fun _ _ => trivial) fun leaf _ => ?_
        refine meets_bind ((h.next i.2 p.s.solverCalls p.skippedMe).genFor hgen leaf) fun p' hp' => ?_
        split
        · split
          · exact hp'
          · exact ih hp' _
        · exact ih hp' _
      · exact h

theorem genReverse (hgen : Generates env Good) (h : Chosen Good s p) (leaves : List Leaf) :
    Meets (genReverse env leaves p) (Chosen Good s) fun _ => True := by
  induction leaves generalizing p with
  | nil => exact h
  | cons leaf leaves ih =>
      rw [IterativeAlgorithm.genReverse]
      split
      · exact h
      · exact meets_bind (h.genFor hgen leaf) fun p' hp' => ih hp'

theorem genCovering (hgen : Generates env Good) (h : Chosen Good s p) (left : ℕ) :
    Meets (genCovering env left p) (Chosen Good s) fun _ => True := by
  induction left generalizing p with
  | zero => exact h
  | succ left ih =>
      rw [IterativeAlgorithm.genCovering]
      split
      · refine meets_bind (hgen.covering _) ?_
        rintro ⟨vp, rng⟩ hr
        exact ih ((h.next rng p.s.solverCalls p.skippedMe).foldl_addCex hgen hr)
      · exact h

end Chosen

/-- **The counterexamples of an iteration** are good, and choosing them runs nothing. -/
theorem genCex_chosen (hgen : Generates env Good) (s : St Name Hash) (leaves : List Leaf) :
    Meets (genCex env s leaves) (Chosen Good s) fun _ => True := by
  have hbegin : Chosen Good s { s } := ⟨.refl s, by simp⟩
  unfold genCex
  refine meets_bind (Q := Chosen Good s) ?_ fun p hp => ?_
  · split
    · exact hbegin.genLeaves hgen leaves
    · exact hbegin
  · refine meets_bind (Q := Chosen Good s) ?_ fun p' hp' => hp'.genCovering hgen 30
    split
    · refine meets_bind (hp.genRand hgen leaves env.retryFuel 0) fun p' hp' => ?_
      exact hp'.genReverse hgen leaves.reverse
    · exact hp

/-! ## Runs -/

variable [DecidableEq Name] {I : St Name Hash → Prop}

/-- **Running good configurations keeps `I`**, which speaks of what has been run only. -/
structure Kept (env : Env Name Hash) (Good : Config → Prop) (I : St Name Hash → Prop) : Prop where
  same : ∀ s s', I s → s.SameRuns s' → I s'
  empty : ∀ s, s.cov = {} → s.setRanConfHash = [] → I s
  runConfigs : ∀ s cs, I s → (∀ c ∈ cs, Good c) →
    Meets (s.runConfigs env cs) (fun r => I r.1) fun _ => True

namespace Kept

/-- An iteration runs its counterexamples. -/
theorem startIteration (h : Kept env Good I) (hgen : Generates env Good) {s : St Name Hash}
    (hs : I s) (iter : ℕ) :
    Meets (startIteration env s iter) (fun r => I r.1) fun _ => True := by
  unfold IterativeAlgorithm.startIteration
  have hbegin : s.SameRuns (s.resize s.cov.nLocs) := ⟨rfl, rfl⟩
  refine meets_bind (foldlM_same prepareLoc_same s.cov.locs _) fun p hp => ?_
  refine meets_bind (Q := fun p' : Prep Name Hash => p.s.SameRuns p'.s) ?_ fun p' hp' => ?_
  · split
    · exact foldlM_same gatherLoc_same _ p
    · exact .refl p.s
  · refine meets_bind (genCex_chosen hgen p'.s _) fun ch hch => ?_
    have hchoice := h.same _ _ hs (((hbegin.trans hp).trans hp').trans hch.same)
    split
    · exact hchoice
    · exact meets_bind (h.runConfigs _ _ hchoice hch.good) fun r hr => hr

/-- The initial configurations. -/
theorem init (h : Kept env Good I) (hgen : Generates env Good) :
    Meets env.init I fun _ => True := by
  unfold Env.init
  refine meets_bind (Q := fun r : List Config × ℕ => ∀ c ∈ r.1, Good c) ?_ fun r hr => ?_
  · split
    · exact meets_bind hgen.all fun cs hcs => hcs
    · refine meets_bind (hgen.covering 0) fun p hp => ?_
      refine meets_bind hgen.seeds fun seeds hseeds => ?_
      exact fun c hc => (List.mem_append.mp hc).elim (hp c) (hseeds c)
  · have htouched : ∀ c ∈ r.1.map Config.touchHash, Good c := by
      intro c hc
      obtain ⟨c', hc', rfl⟩ := List.mem_map.mp hc
      exact hgen.touchHash c' (hr c' hc')
    exact meets_bind (h.runConfigs _ _ (h.empty _ rfl rfl) htouched) fun p hp => hp

/-- **One step.** -/
theorem step (h : Kept env Good I) (hgen : Generates env Good) (x : Label × St Name Hash)
    (hx : I x.2) : Meets (step env x) (fun y => I y.2) fun _ => True := by
  obtain ⟨l, s⟩ := x
  match l with
  | .head iter =>
      rw [IterativeAlgorithm.step]
      split
      · refine meets_bind (h.startIteration hgen hx iter) fun r hr => ?_
        dsimp only
        split <;> exact hr
      · exact hx
  | .compare r (id :: ids) =>
      rw [IterativeAlgorithm.step]
      refine meets_bind_of_eq (fun _ _ => trivial) fun c _ => ?_
      exact meets_bind (compareLocs_same s.cov.locs _) fun sc hsc => h.same _ _ hx hsc
  | .compare r [] =>
      rw [IterativeAlgorithm.step]
      split
      · exact h.same _ _ hx ⟨rfl, rfl⟩
      · exact h.same _ _ hx ⟨rfl, rfl⟩
  | .returned iter true =>
      rw [IterativeAlgorithm.step]
      split
      · exact hx
      · split
        · exact meets_bind (finalizeBuildTrees_same s) fun s' hs' => h.same _ _ hx hs'
        · exact hx
  | .returned iter false => exact hx
  | .final =>
      rw [IterativeAlgorithm.step]
      exact meets_bind (finalizeBuildTrees_same s) fun s' hs' => h.same _ _ hx hs'
  | .done => exact hx

end Kept

/-- **What running good configurations keeps** holds in every state of every run. -/
theorem RunsTo.kept (h : Kept env Good I) (hgen : Generates env Good) {l : Label}
    {s : St Name Hash} (hrun : RunsTo env l s) : I s := by
  obtain ⟨s₀, hinit, hreach⟩ := hrun
  exact hreach.invariant (fun x => I x.2) (fun x hx _ => h.step hgen x hx)
    ((h.init hgen).of_eq_ok hinit)

end Runs

end IterativeAlgorithm

end GenTree

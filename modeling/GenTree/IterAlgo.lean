import GenTree.Fresh

/-!
# The first iterative algorithm

`IterativeAlgorithm` learns one decision tree for each group of locations with the same
coverage, and throws a tree away as soon as a counterexample shows that it is wrong.  The
record of a location holds a tree of its own (`tree`), or that of the first location of its
group (`sharedTree`), or none, when its tree has been thrown away; such a location waits for
the next iteration, and one that has been wrong too often is ignored for good.

`alg_test_1_iteration` is translated in its parts: the loop that makes the trees, the loops
that choose counterexamples, `run_configs`, and the comparison of the trees with each
counterexample.  `run_alg_test_1` is a machine with a step for each counterexample.  Trees are
shared by pointer and changed in place, so they are kept in a list, and a pointer is a position.

`finish_alg1` prints the formulas and changes nothing; it is left out, as are the numbers
that are only logged.
-/

namespace GenTree

open Outcome

namespace IterativeAlgorithm

/-! ## Parameters -/

/-- A leaf of one of the trees. -/
structure Leaf where
  tree : ℕ
  node : NodeRef

/-- `std::sort` of the leaves, few cases first, then deep leaves. -/
structure LeavesSort where
  sort : List Leaf → List Leaf
  perm : ∀ l, (sort l).Perm l
  sorted : ∀ l, (sort l).Pairwise fun a b => leafLe a.node b.node = true

/-- Everything a run depends on.  `ignoreThr` is `get_cur_ignore_thr`, which computes with
floating point numbers; `sigint iter` says whether `SIGINT` has been delivered when the
iteration `iter` has ended; `retryFuel` bounds the loop over random leaves. -/
structure Env (Name Hash : Type) where
  dom : Domain
  program : ℕ → List ℤ → List Name
  program_nodup : ∀ k values, (program k values).Nodup
  confHash : List ℤ → Hash
  locHash : List ℕ → Hash
  select : Selector
  solver : Solver
  draws : ℕ → ℕ
  leavesSort : LeavesSort
  ignoreThr : ℤ → ℤ
  sigint : ℕ → Bool
  retryFuel : ℕ
  options : Options

/-! ## The state -/

/-- `REBUILD_THR`. -/
def rebuildThr : ℕ := 100

/-- `LocData`; a pointer to a tree is its position among the trees that have been made. -/
structure LocData where
  tree : Option ℕ := none
  sharedTree : Option ℕ := none
  rebuildIter : List ℤ := []
  ignored : Bool := false
  deriving DecidableEq

namespace LocData

/-- `re_iter.push_back(iter)`: a full circular buffer loses its first element. -/
def pushBack (d : LocData) (iter : ℤ) : LocData :=
  { d with rebuildIter :=
      (if d.rebuildIter.length < rebuildThr then d.rebuildIter else d.rebuildIter.tail) ++ [iter] }

/-- The loop over `re_iter.pop_front()`. -/
def popOld (d : LocData) (iter : ℤ) : LocData :=
  { d with rebuildIter := d.rebuildIter.dropWhile fun i => i < iter - rebuildThr }

end LocData

/-- The fields of `IterativeAlgorithm` and what it shares with its context.  `trees` are the
trees that have been made so far. -/
structure St (Name Hash : Type) where
  cov : CoverageStore Name := {}
  setConfHash : List Hash := []
  setRanConfHash : List Hash := []
  vecLocData : List LocData := []
  trees : List CTree := []
  iterTryNodes : Bool := true
  terminateCounter : ℤ := 0
  rng : ℕ := 0
  solverCalls : ℕ := 0

variable {Name Hash : Type}

namespace St

/-- The record of a location is overwritten. -/
def setDat (s : St Name Hash) (id : ℕ) (d : LocData) : St Name Hash :=
  { s with vecLocData := s.vecLocData.set id d }

/-- `vec_loc_data.resize(n)`. -/
def resize (s : St Name Hash) (n : ℕ) : St Name Hash :=
  { s with vecLocData :=
      s.vecLocData.take n ++ List.replicate (n - s.vecLocData.length) {} }

/-- `tree = new CTree(ctx()), tree->prepare_data(loc), tree->build_tree()`, for the location
with the record `d`. -/
def newTree (env : Env Name Hash) (s : St Name Hash) (id : ℕ) (d : LocData)
    (loc : Location Name) : Except Abort (St Name Hash × CTree) := do
  let tree ← CTree.prepareData env.dom s.cov {} loc
  let tree ← tree.buildTree env.dom env.select
  let s' := s.setDat id { d with tree := some s.trees.length }
  .ok ({ s' with trees := s.trees ++ [tree] }, tree)

end St

section Algorithm

variable [DecidableEq Name] [DecidableEq Hash]

/-! ## The trees -/

/-- The local state of the loops that make the trees. -/
structure Prep (Name Hash : Type) where
  s : St Name Hash
  mapLocHash : List (Hash × ℕ) := []
  leaves : List Leaf := []
  nMinCases : ℤ := intMax

/-- One pass of the first loop of `alg_test_1_iteration`. -/
def prepareLoc (env : Env Name Hash) (p : Prep Name Hash) (loc : Location Name) :
    Except Abort (Prep Name Hash) := do
  let id ← loc.index
  let d ← vecAt p.s.vecLocData id
  match p.mapLocHash.lookup (env.locHash loc.covBy) with
  | some mloc => do
      let m ← vecAt p.s.vecLocData mloc
      .ok { p with s := p.s.setDat id { d with tree := none, sharedTree := m.tree } }
  | none =>
      let d := { d with sharedTree := none }
      let mapLocHash := p.mapLocHash ++ [(env.locHash loc.covBy, id)]
      if d.tree = none then do
        let (s, tree) ← p.s.newTree env id d loc
        let nMinCases ← tree.nMinCases
        let leaves ← (if p.leaves.isEmpty then do
            let nodes ← tree.gatherNodes [] 0 16
            .ok (nodes.map (Leaf.mk p.s.trees.length))
          else .ok p.leaves)
        .ok { s, mapLocHash, leaves, nMinCases := min p.nMinCases nMinCases }
      else .ok { p with s := p.s.setDat id d, mapLocHash }

/-- One pass of the second loop of `alg_test_1_iteration`, which is made when no leaves have
been found. -/
def gatherLoc (p : Prep Name Hash) (loc : Location Name) : Except Abort (Prep Name Hash) := do
  let id ← loc.index
  let d ← vecAt p.s.vecLocData id
  match d.ignored, d.tree with
  | false, some ptr => do
      let tree ← vecAt p.s.trees ptr
      let nMinCases ← tree.nMinCases
      let nodes ← tree.gatherNodes [] 0 ((p.s.cov.nConfigs : ℤ) - 1)
      .ok { p with
        leaves := p.leaves ++ nodes.map (Leaf.mk ptr)
        nMinCases := min p.nMinCases nMinCases }
  | _, _ => .ok p

/-- One pass of the loop of `finalize_build_trees`: every group gets a new tree. -/
def finalizeLoc (env : Env Name Hash) (p : Prep Name Hash) (loc : Location Name) :
    Except Abort (Prep Name Hash) := do
  let id ← loc.index
  if p.s.vecLocData.length ≤ id then .ok p
  else
    let d ← vecAt p.s.vecLocData id
    match p.mapLocHash.lookup (env.locHash loc.covBy) with
    | some mloc => do
        let m ← vecAt p.s.vecLocData mloc
        .ok { p with s := p.s.setDat id { d with tree := none, sharedTree := m.tree } }
    | none => do
        let (s, _) ← p.s.newTree env id { d with sharedTree := none } loc
        .ok { p with s, mapLocHash := p.mapLocHash ++ [(env.locHash loc.covBy, id)] }

/-- `finalize_build_trees`. -/
def finalizeBuildTrees (env : Env Name Hash) (s : St Name Hash) : Except Abort (St Name Hash) := do
  let p ← s.cov.locs.foldlM (finalizeLoc env) { s }
  .ok p.s

/-! ## Counterexamples -/

/-- The configurations chosen so far, with the number of those that the latest `gen_for` has
skipped. -/
structure Choice (Name Hash : Type) where
  s : St Name Hash
  cex : List Config := []
  skippedMe : ℕ := 0

/-- A configuration is chosen unless its hash is known. -/
def addCex (env : Env Name Hash) (p : Choice Name Hash) (c : Config) : Choice Name Hash :=
  let hash := env.confHash c.hashKey
  if hash ∈ p.s.setConfHash then { p with skippedMe := p.skippedMe + 1 }
  else { p with
    s := { p.s with setConfHash := hash :: p.s.setConfHash }
    cex := p.cex ++ [c.touchHash] }

/-- `gen_for`. -/
def genFor (env : Env Name Hash) (p : Choice Name Hash) (leaf : Leaf) :
    Except Abort (Choice Name Hash) := do
  let tree ← vecAt p.s.trees leaf.tree
  let (configs, rng, solverCalls) ← tree.genOneConveringConfigs env.dom env.draws env.solver
    env.confHash leaf.node intMax p.s.rng p.s.solverCalls
  .ok (configs.foldl (addCex env) { p with s := { p.s with rng, solverCalls }, skippedMe := 0 })

/-- The loop over the leaves in their order. -/
def genLeaves (env : Env Name Hash) :
    List Leaf → Choice Name Hash → Except Abort (Choice Name Hash)
  | [], p => .ok p
  | leaf :: leaves, p =>
      if 0 < leaf.node.node.data.minCases ∧ 10 < p.cex.length then .ok p
      else if 20 < p.cex.length then .ok p
      else do
        let p ← genFor env p leaf
        genLeaves env leaves p

/-- The loop over random leaves. -/
def genRand (env : Env Name Hash) (leaves : List Leaf) :
    ℕ → ℕ → Choice Name Hash → Except Abort (Choice Name Hash)
  | 0, _, _ => .error .outOfFuel
  | fuel + 1, randSkip, p =>
      if p.cex.length < 40 then do
        let (i, rng) ← randBelow env.draws p.s.rng leaves.length
        let leaf ← vecAt leaves i
        let p ← genFor env { p with s := { p.s with rng } } leaf
        if 0 < p.skippedMe then
          if randSkip + 1 = 10 then .ok p else genRand env leaves fuel (randSkip + 1) p
        else genRand env leaves fuel randSkip p
      else .ok p

/-- The loop over the leaves from the last one on. -/
def genReverse (env : Env Name Hash) :
    List Leaf → Choice Name Hash → Except Abort (Choice Name Hash)
  | [], p => .ok p
  | leaf :: leaves, p =>
      if 50 < p.cex.length then .ok p
      else do
        let p ← genFor env p leaf
        genReverse env leaves p

/-- The loop that tries covering configurations of the domain, with the number of passes
left. -/
def genCovering (env : Env Name Hash) :
    ℕ → Choice Name Hash → Except Abort (Choice Name Hash)
  | 0, p => .ok p
  | left + 1, p =>
      if p.cex = [] then do
        let (vp, rng) ← genOneConveringConfigs env.dom env.draws p.s.rng
        genCovering env left (vp.foldl (addCex env) { p with s := { p.s with rng } })
      else .ok p

/-- The counterexamples of an iteration. -/
def genCex (env : Env Name Hash) (s : St Name Hash) (leaves : List Leaf) :
    Except Abort (Choice Name Hash) := do
  let p ← (if s.iterTryNodes then genLeaves env leaves { s } else .ok { s })
  let p ← (if s.iterTryNodes && decide (4 ≤ s.terminateCounter) then do
      let p ← genRand env leaves env.retryFuel 0 p
      genReverse env leaves.reverse p
    else .ok p)
  genCovering env 30 p

/-! ## Running configurations -/

namespace St

/-- The loop of `run_configs` for one configuration and the names the runner has returned
for it.  The ids of the registered configurations are the pointers to them. -/
def registerRun (env : Env Name Hash) (p : St Name Hash × List ℕ)
    (run : Config × List Name) : Except Abort (St Name Hash × List ℕ) := do
  let (s, ids) := p
  let (c, locNames) := run
  let id := c.id.getD s.cov.nConfigs
  let (cov, _) ← s.cov.registerCov c locNames
  let hash := env.confHash c.hashKey
  check (hash ∉ s.setRanConfHash) .ranTwice
  .ok ({ s with cov, setRanConfHash := hash :: s.setRanConfHash }, ids ++ [id])

/-- `run_configs`. -/
def runConfigs (env : Env Name Hash) (s : St Name Hash) (configs : List Config) :
    Except Abort (St Name Hash × List ℕ) :=
  let vLocNames := configs.mapIdx fun i c => env.program (s.cov.nConfigs + i) c.values
  (configs.zip vLocNames).foldlM (registerRun env) (s, [])

end St

/-! ## The comparison -/

/-- The comparison of the trees with one counterexample: `it` is the rest of its
`cov_loc_ids`, and `nRebuilds` the number of trees thrown away. -/
structure Scan (Name Hash : Type) where
  s : St Name Hash
  it : List ℕ
  nRebuilds : ℕ := 0

/-- `new_truth`. -/
def newTruth (it : List ℕ) (id : ℕ) : Bool := decide (it.head? = some id)

/-- `tree_eval`: a location without a tree of its own asks the tree of its group. -/
def treeEval (s : St Name Hash) (d : LocData) (c : Config) (newTruth : Bool) :
    Except Abort (Bool × St Name Hash) :=
  match d.tree, d.sharedTree with
  | some ptr, _ => do
      let tree ← vecAt s.trees ptr
      let (res, tree) ← tree.testAddConfig c newTruth
      .ok (res.1, { s with trees := s.trees.set ptr tree })
  | none, some ptr => do
      let tree ← vecAt s.trees ptr
      let res ← tree.testConfig c
      .ok (res.1, s)
  | none, none => .error .nullPointer

/-- What becomes of a record whose tree has been wrong: it is ignored, or its tree is thrown
away, which the truth value says. -/
def rebuild (igThr iter : ℤ) (d : LocData) : LocData × Bool :=
  let d := (d.pushBack iter).popOld iter
  if igThr < d.rebuildIter.length then ({ d with ignored := true }, false)
  else ({ d with tree := none, sharedTree := none }, true)

/-- The body of the comparison for the location `id`.  A location without a tree and an
ignored one are passed over, with `it` as it is. -/
def compareLoc (igThr iter : ℤ) (c : Config) (sc : Scan Name Hash) (id : ℕ) :
    Except Abort (Scan Name Hash) := do
  let d ← vecAt sc.s.vecLocData id
  if d.tree = none ∧ d.sharedTree = none then .ok sc
  else if d.ignored then .ok sc
  else
    let truth := newTruth sc.it id
    let it := if truth then sc.it.tail else sc.it
    let (eval, s) ← treeEval sc.s d c truth
    if eval ≠ truth then
      let (d, thrown) := rebuild igThr iter d
      .ok { s := s.setDat id d, it, nRebuilds := if thrown then sc.nRebuilds + 1 else sc.nRebuilds }
    else .ok { sc with s := s.setDat id (d.popOld iter), it }

/-- The comparison with the counterexample `c`, for the locations `locs`, up to the first
one that was not known when the iteration began. -/
def compareLocs (igThr iter : ℤ) (c : Config) :
    List (Location Name) → Scan Name Hash → Except Abort (Scan Name Hash)
  | [], sc => .ok sc
  | loc :: locs, sc => do
      let id ← loc.index
      if sc.s.vecLocData.length ≤ id then .ok sc
      else
        let sc ← compareLoc igThr iter c sc id
        compareLocs igThr iter c locs sc

/-! ## `run_alg_test_1` -/

/-- The numbers that an iteration keeps for its end. -/
structure Round where
  iter : ℕ
  nNewLocs : ℤ
  nMinCases : ℤ
  nRebuilds : ℕ := 0

/-- `alg_test_1_iteration` up to the comparison, with the counterexamples that have been
run, or nothing when there is none. -/
def startIteration (env : Env Name Hash) (s : St Name Hash) (iter : ℕ) :
    Except Abort (St Name Hash × Option (Round × List ℕ)) := do
  let p ← s.cov.locs.foldlM (prepareLoc env) { s := s.resize s.cov.nLocs }
  let p ← (if p.leaves.isEmpty then p.s.cov.locs.foldlM gatherLoc p else .ok p)
  let ch ← genCex env p.s (env.leavesSort.sort p.leaves)
  if ch.cex = [] then .ok (ch.s, none)
  else
    let (s, ids) ← ch.s.runConfigs env ch.cex
    let nNewLocs : ℤ := (s.cov.nLocs : ℤ) - s.vecLocData.length
    .ok (s, some ({ iter, nNewLocs, nMinCases := p.nMinCases }, ids))

/-- `need_term`. -/
def Round.needTerm (r : Round) : Bool :=
  decide (r.nRebuilds = 0 ∧ r.nNewLocs = 0 ∧ 0 < r.nMinCases)

/-- `run_alg_test_1` up to its loop. -/
def Env.init (env : Env Name Hash) : Except Abort (St Name Hash) := do
  let (configs, rng) ← (if env.options.full then do
      let configs ← genAllConfigs env.dom
      .ok (configs, 0)
    else do
      let (covering, rng) ← genOneConveringConfigs env.dom env.draws 0
      let seeds ← getSeedConfigs env.dom env.options.seedConfigs
      .ok (covering ++ seeds, rng))
  let hashes := configs.map fun c => env.confHash c.hashKey
  let (s, _) ← St.runConfigs env
    { rng, setConfHash := hashes.dedup, iterTryNodes := !env.options.full }
    (configs.map Config.touchHash)
  .ok s

/-- The places between two steps. -/
inductive Label
  /-- `run_alg_test_1`: the condition of the loop. -/
  | head (iter : ℕ)
  /-- `alg_test_1_iteration`: before the comparison with the first of the counterexamples
  that are left. -/
  | compare (r : Round) (ids : List ℕ)
  /-- `alg_test_1_iteration` has returned whether to go on. -/
  | returned (iter : ℕ) (again : Bool)
  /-- `run_alg_test_1`: behind the loop. -/
  | final
  /-- `run_alg_test_1` has returned. -/
  | done

/-- What the program does between two labels. -/
def step (env : Env Name Hash) : Label × St Name Hash → Except Abort (Label × St Name Hash)
  | (.head iter, s) =>
      if (iter : ℤ) ≤ env.options.rounds then do
        let (s, round) ← startIteration env s iter
        match round with
        | none => .ok (.returned iter false, s)
        | some (r, ids) => .ok (.compare r ids, s)
      else .ok (.final, s)
  | (.compare r (id :: ids), s) => do
      let c ← vecAt s.cov.configs id
      let sc ← compareLocs (env.ignoreThr r.iter) r.iter c s.cov.locs
        { s, it := c.covLocs, nRebuilds := r.nRebuilds }
      .ok (.compare { r with nRebuilds := sc.nRebuilds } ids, sc.s)
  | (.compare r [], s) =>
      if r.needTerm then
        let s := { s with terminateCounter := s.terminateCounter + 1 }
        .ok (.returned r.iter (decide (s.terminateCounter ≠ env.options.termCnt)), s)
      else .ok (.returned r.iter true, { s with terminateCounter := 0 })
  | (.returned iter true, s) =>
      if env.sigint iter then .ok (.final, s)
      else if iter % 100 = 0 then do
        let s ← finalizeBuildTrees env s
        .ok (.head (iter + 1), s)
      else .ok (.head (iter + 1), s)
  | (.returned _ false, s) => .ok (.final, s)
  | (.final, s) => do
      let s ← finalizeBuildTrees env s
      .ok (.done, s)
  | (.done, s) => .ok (.done, s)

/-- **Runs.**  The program under `env` comes to the label `l` in the state `s`. -/
def RunsTo (env : Env Name Hash) (l : Label) (s : St Name Hash) : Prop :=
  ∃ s₀, env.init = .ok s₀ ∧ Machine.Reach (step env) (fun _ => True) (.head 1, s₀) (l, s)

end Algorithm

end IterativeAlgorithm

end GenTree

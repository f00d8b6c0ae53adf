import GenTree.Cex
import GenTree.TreeText
import GenTree.Library.Machine

/-!
# The main loop

`Iter2` alternates between running configurations and learning one decision tree
for each group of locations with the same coverage.  A record `LocData` belongs
to each location; the record of a location whose coverage another record has
already is linked to that record.

`run_alg` and the loops of `run_iter` are a machine: `Label` is the place the
control is at, and `step` does what the source does from there to the next
label.  The bodies of the loops are functions under the source's words, `turn`
for one record of `v_this_iter` and `recheckLoc` for one configuration and one
location of the re-check.  A run is any number of steps from the state `init` leaves behind
(`Machine.Reach`), so what holds *between* two passes of a loop can be stated as
well as what holds when the loop has ended.

A pointer to a record is the id of its location: `v_loc_data` holds the record at
that position.  Everything that is not decided here is a parameter (`Env`): the
program under test, the hashes, the split variable, the solver, the random
draws, the order `std::sort` leaves equal leaves in, and the signals.
-/

namespace GenTree

open Outcome

/-! ## Parameters -/

/-- The places where a run of the algorithm dies: in the code below (`lower`), or
at one of its own `CHECK`s. -/
inductive Fault
  | lower (a : Abort)
  /-- `_run_configs`: `CHECK(set_ran_conf_hash.insert(c->hash()).second)`. -/
  | confRanTwice
  /-- `run_alg`: `CHECK_EQ(set_conf_hash.size(), set_ran_conf_hash.size())`. -/
  | confHashSizes
  /-- `run_iter`: `CHECK(is_no_dup(v_this_iter))`. -/
  | iterDup
  /-- `run_iter`: `CHECK(!dat->linked())`. -/
  | iterLinked
  /-- `run_one_loc`: `CHECK(!dat->linked())`. -/
  | oneLocLinked
  /-- `run_one_loc`: the tree is null and is dereferenced. -/
  | oneLocNullTree
  /-- `run_iter`, in the re-check: `CHECK_NE(dat->tree, nullptr)`. -/
  | recheckNullTree
  /-- `enqueue_next`: `CHECK(!dat->ignored)`. -/
  | enqueueIgnored
  /-- `build_tree`: `CHECK(d->need_rebuild)`. -/
  | buildNotNeeded
  /-- `finish_alg`: `CHECK(!dat->ignored || dat->need_rebuild)`. -/
  | finishIgnored
  /-- `finish_alg`: `CHECK_NE(tree, nullptr)`. -/
  | finishNullTree
  deriving DecidableEq, Repr

instance : MonadLift (Except Abort) (Except Fault) where
  monadLift x := x.mapError .lower

/-- What the script sets.  `messedUpIncr n` is
`(int) std::ceil(n * p_messed_up_factor)`. -/
structure Params where
  maxTerminateCounter : ℤ
  thrMessedUpKickin : ℤ
  thrStuckKickin : ℤ
  maxMessedUp : ℤ
  maxStuck : ℤ
  messedUpIncr : ℤ → ℤ
  limTimes : ℤ
  consecutiveSuccess : ℤ
  thrMessedUpSwitch : ℤ
  messedLimTimes : ℤ
  messedConsecutiveSuccess : ℤ
  genCexLimLeaves : ℤ
  genCexHeavy : ℤ × ℤ × ℤ
  genCexNormal : ℤ × ℤ × ℤ
  genCexRetry : ℤ × ℤ × ℤ

/-- The command line: `--full`, `--rand`, `--seed-configs`, `--rounds`,
`--term-cnt`, `--save-each-iteration` and `--disj-conj`. -/
structure Options where
  full : Bool := false
  rand : Option ℤ := none
  seedConfigs : List (List ℤ) := []
  rounds : ℤ
  termCnt : ℤ := 0
  saveEachIteration : Bool := false
  disjConj : Bool := false

/-- The signals with a handler; `brk` is `SIGINT` or `SIGRTMIN + 1`, and `rt2` is
`SIGRTMIN + 2`. -/
inductive Signal
  | brk
  | usr1
  | usr2
  | rt2
  deriving DecidableEq, Repr

/-- The order `sort_leaves` sorts by: few cases first, then deep leaves. -/
def leafLe (a b : NodeRef) : Bool :=
  let (x, y) := (a.node.data, b.node.data)
  if x.minCases ≠ y.minCases then decide (x.minCases < y.minCases)
  else decide (y.depth ≤ x.depth)

/-- `std::sort` in that order, which may leave equal leaves in any order. -/
structure LeafSort where
  sort : List NodeRef → List NodeRef
  perm : ∀ l, (sort l).Perm l
  sorted : ∀ l, (sort l).Pairwise fun a b => leafLe a b = true

/-- Everything a run depends on.  The `k`-th configuration that is run covers the
locations `program k values`; `arrives k` is the last signal delivered before the
`k`-th time the status is read. -/
structure Env (Name Hash : Type) where
  dom : Domain
  program : ℕ → List ℤ → List Name
  program_nodup : ∀ k values, (program k values).Nodup
  confHash : List ℤ → Hash
  locHash : List ℕ → Hash
  select : Selector
  solver : Solver
  draws : ℕ → ℕ
  leafSort : LeafSort
  arrives : ℕ → Option Signal
  randFuel : ℕ
  params : Params
  options : Options

/-! ## The state -/

/-- `Iter2::LocData`. -/
structure LocData where
  loc : ℕ
  parent : Option ℕ := none
  tree : Option CTree := none
  queuedNext : Bool := false
  ignored : Bool := false
  needRebuild : Bool := true
  messedUp : ℤ := 0
  nStuck : ℤ := 0
  lastBuildIter : ℤ := -1
  lastBuildNConfigs : ℤ := -1

namespace LocData

/-- `linked`. -/
def linked (d : LocData) : Bool := d.parent.isSome

/-- `link_to`. -/
def linkTo (d : LocData) (p : Option ℕ) : LocData :=
  { d with parent := p, tree := none, needRebuild := true }

/-- `unlink`. -/
def unlink (d : LocData) : LocData := d.linkTo none

end LocData

/-- What `finish_alg` prints for one record, with the formula before it is
simplified. -/
structure Group (Name : Type) where
  ignored : Bool
  nMiss : ℕ
  nHit : ℕ
  lastBuildIter : ℤ
  lastBuildNConfigs : ℤ
  names : List Name
  expr : ZExpr
  tree : List Char

/-- What one call of `finish_alg` prints. -/
structure Report (Name : Type) where
  iter : ℕ
  nConfigs : ℕ
  nLocs : ℕ
  nUniq : ℕ
  groups : List (Group Name)

/-- The fields of `Iter2` and what it shares with its context.  `prevNConf` is the
local variable `prev_n_conf` of the latest `run_iter`, and `signal` is
`gSignalStatus`, `none` for zero. -/
structure St (Name Hash : Type) where
  cov : CoverageStore Name := {}
  terminateCounter : ℤ := 0
  setConfHash : List Hash := []
  setRanConfHash : List Hash := []
  vLocData : List LocData := []
  vThisIter : List ℕ := []
  vNextIter : List ℕ := []
  vUniq : List ℕ := []
  prevNConf : ℕ := 0
  rng : ℕ := 0
  solverCalls : ℕ := 0
  signal : Option Signal := none
  signalReads : ℕ := 0
  reports : List (Report Name) := []

section Algorithm

variable {Name Hash : Type} [DecidableEq Name] [DecidableEq Hash]

namespace St

/-- The record a pointer points to. -/
def dat (s : St Name Hash) (j : ℕ) : Except Abort LocData := vecAt s.vLocData j

/-- A record is overwritten. -/
def setDat (s : St Name Hash) (j : ℕ) (d : LocData) : St Name Hash :=
  { s with vLocData := s.vLocData.set j d }

/-- A read of `gSignalStatus`. -/
def readSignal (env : Env Name Hash) (s : St Name Hash) : St Name Hash :=
  { s with
    signal := (env.arrives s.signalReads).or s.signal
    signalReads := s.signalReads + 1 }

end St

/-- `loc->id()` as an index. -/
def Location.index (loc : Location Name) : Except Abort ℕ :=
  match loc.id with
  | none => .error .outOfRange
  | some id => .ok id

/-! ## Running configurations -/

namespace St

/-- The loop of `_run_configs` for one configuration and the names the runner has
returned for it.  The ids of the registered configurations are the pointers to
them. -/
def registerRun (env : Env Name Hash) (p : St Name Hash × List ℕ)
    (run : Config × List Name) : Except Fault (St Name Hash × List ℕ) := do
  let (s, ids) := p
  let (c, locNames) := run
  let id := c.id.getD s.cov.nConfigs
  let (cov, _) ← s.cov.registerCov c locNames
  let hash := env.confHash c.hashKey
  check (hash ∉ s.setRanConfHash) .confRanTwice
  .ok ({ s with cov, setRanConfHash := hash :: s.setRanConfHash }, ids ++ [id])

/-- `_run_configs`. -/
def runChunk (env : Env Name Hash) (s : St Name Hash) (configs : List Config) :
    Except Fault (St Name Hash × List ℕ) :=
  let vLocNames := configs.mapIdx fun i c => env.program (s.cov.nConfigs + i) c.values
  (configs.zip vLocNames).foldlM (registerRun env) (s, [])

/-- The loop of `run_configs` over slices of `SPLIT` configurations. -/
def runSlices (env : Env Name Hash) :
    ℕ → St Name Hash × List ℕ → List Config → Except Fault (St Name Hash × List ℕ)
  | 0, _, _ => .error (.lower .outOfFuel)
  | fuel + 1, (s, ids), configs =>
      if configs = [] then .ok (s, ids)
      else do
        let (s, new) ← s.runChunk env (configs.take 1000)
        runSlices env fuel (s, ids ++ new) (configs.drop 1000)

/-- `run_configs`. -/
def runConfigs (env : Env Name Hash) (s : St Name Hash) (configs : List Config) :
    Except Fault (St Name Hash × List ℕ) :=
  if configs.length ≤ 1000 then s.runChunk env configs
  else runSlices env (configs.length + 1) (s, []) configs

/-! ## Records -/

/-- The local state of `prepare_vec_loc_data`. -/
structure Prep (Hash : Type) where
  vLocData : List LocData
  vNewLocdat : List ℕ := []
  mapHashLocs : List (Hash × ℕ) := []
  vUniq : List ℕ := []

/-- `v_loc_data[id] = dat`: the place has been made by `resize`, which fills
`v_loc_data` up with null pointers. -/
def putDat (l : List LocData) (id : ℕ) (dat : LocData) : List LocData :=
  if id < l.length then l.set id dat else l ++ [dat]

/-- One pass of the loop of `prepare_vec_loc_data`. -/
def prepareLoc (locHash : List ℕ → Hash) (p : Prep Hash) (loc : Location Name) :
    Except Abort (Prep Hash) := do
  let id ← loc.index
  let isNew := p.vLocData[id]?.isNone
  let dat := p.vLocData[id]?.getD { loc := id }
  match p.mapHashLocs.lookup (locHash loc.covBy) with
  | some first =>
      .ok { p with vLocData := putDat p.vLocData id (dat.linkTo (some first)) }
  | none =>
      .ok {
        vLocData := putDat p.vLocData id (if dat.linked then dat.unlink else dat)
        vNewLocdat :=
          if isNew || dat.linked then p.vNewLocdat ++ [id] else p.vNewLocdat
        mapHashLocs := p.mapHashLocs ++ [(locHash loc.covBy, id)]
        vUniq := p.vUniq ++ [id] }

/-- `prepare_vec_loc_data`. -/
def prepareVecLocData (env : Env Name Hash) (s : St Name Hash) :
    Except Abort (St Name Hash × List ℕ) := do
  let p ← s.cov.locs.foldlM (prepareLoc env.locHash) ({ vLocData := s.vLocData } : Prep Hash)
  .ok ({ s with vLocData := p.vLocData, vUniq := p.vUniq }, p.vNewLocdat)

/-- The tree that `prepare_data` and `build_tree` make for the location of a
record. -/
def newTree (env : Env Name Hash) (s : St Name Hash) (loc : ℕ) : Except Abort CTree := do
  let loc ← vecAt s.cov.locs loc
  let tree ← CTree.prepareData env.dom s.cov {} loc
  tree.buildTree env.dom env.select

/-- `build_tree`. -/
def buildTree (env : Env Name Hash) (s : St Name Hash) (j curIter : ℕ) :
    Except Fault (St Name Hash) := do
  let d ← s.dat j
  check (d.needRebuild = true) .buildNotNeeded
  let tree ← s.newTree env d.loc
  .ok (s.setDat j { d with
    tree := some tree, needRebuild := false, lastBuildIter := curIter
    lastBuildNConfigs := s.cov.nConfigs })

/-- The first lines of `enqueue_next`: the counters of the record, and `ig_1 || ig_2`.
A counter is only touched when the left operand of its `&&` holds. -/
def countFailure (env : Env Name Hash) (s : St Name Hash) (d : LocData) : LocData × Bool :=
  let counts1 := decide (0 < s.terminateCounter ∧ env.params.thrMessedUpKickin < s.cov.nConfigs)
  let messedUp :=
    if counts1 then d.messedUp + env.params.messedUpIncr s.terminateCounter else d.messedUp
  let ig1 := counts1 && decide (env.params.maxMessedUp ≤ messedUp)
  let counts2 := decide (env.params.thrStuckKickin < s.cov.nConfigs)
  let nStuck := if counts2 then d.nStuck + 1 else d.nStuck
  let ig2 := counts2 && decide (env.params.maxStuck ≤ nStuck)
  ({ d with messedUp, nStuck }, ig1 || ig2)

/-- `enqueue_next`. -/
def enqueueNext (env : Env Name Hash) (s : St Name Hash) (j : ℕ) :
    Except Fault (St Name Hash) := do
  let d ← s.dat j
  check (d.ignored = false) .enqueueIgnored
  let (d, ig) := s.countFailure env d
  if ig then .ok (s.setDat j { d with ignored := true, needRebuild := true })
  else
    .ok { s.setDat j { d with queuedNext := true } with vNextIter := s.vNextIter ++ [j] }

/-- `enqueue_all`. -/
def enqueueAll (s : St Name Hash) : St Name Hash :=
  { s with vNextIter := s.vNextIter ++
      s.vUniq.filter fun j => (s.vLocData[j]?.map fun d => !d.ignored).getD false }

/-! ## Counterexamples -/

/-- The body of the loop of `gen_for`: a configuration whose hash is known is
skipped. -/
def addCex (env : Env Name Hash) (p : St Name Hash × List Config) (c : Config) :
    St Name Hash × List Config :=
  let hash := env.confHash c.hashKey
  if hash ∈ p.1.setConfHash then p
  else ({ p.1 with setConfHash := hash :: p.1.setConfHash }, p.2 ++ [c.touchHash])

/-- `gen_for` of `gen_cex`. -/
def genFor (env : Env Name Hash) (tree : CTree) (p : St Name Hash × List Config)
    (node : NodeRef) : Except Fault (St Name Hash × List Config) := do
  let (s, cex) := p
  let (configs, rng, solverCalls) ← tree.genOneConveringConfigs env.dom env.draws env.solver
    env.confHash node intMax s.rng s.solverCalls
  .ok (configs.foldl (addCex env) ({ s with rng, solverCalls }, cex))

/-- A loop of `gen_cex` over leaves, until there are `n` configurations. -/
def genOver (env : Env Name Hash) (tree : CTree) (n : ℤ) :
    List NodeRef → St Name Hash × List Config → Except Fault (St Name Hash × List Config)
  | [], p => .ok p
  | node :: nodes, p =>
      if n ≤ p.2.length then .ok p
      else do
        let p ← genFor env tree p node
        genOver env tree n nodes p

/-- The loop of `gen_cex` over random leaves, for `k` more times. -/
def genRand (env : Env Name Hash) (tree : CTree) (n : ℤ) (leaves : List NodeRef) :
    ℕ → St Name Hash × List Config → Except Fault (St Name Hash × List Config)
  | 0, p => .ok p
  | k + 1, (s, cex) =>
      if n ≤ cex.length then .ok (s, cex)
      else do
        let (i, rng) ← randBelow env.draws s.rng leaves.length
        let node ← vecAt leaves i
        let p ← genFor env tree ({ s with rng }, cex) node
        genRand env tree n leaves k p

/-- `gen_cex`: from the smallest leaves on, from random leaves, and from the
largest leaves on. -/
def genCex (env : Env Name Hash) (s : St Name Hash) (tree : CTree) (leaves : List NodeRef)
    (nGen : ℤ × ℤ × ℤ) : Except Fault (St Name Hash × List Config) := do
  let (nSmall, nRand, nLarge) := nGen
  let p ← genOver env tree nSmall leaves (s, [])
  let p ← genRand env tree (nRand + p.2.length) leaves 10 p
  genOver env tree (nLarge + p.2.length) leaves.reverse p

/-- The first part of `run_one_loc`: leaves are gathered, and configurations are
made for them. -/
def makeCex (env : Env Name Hash) (s : St Name Hash) (tree : CTree) (heavy : Bool) :
    Except Fault (St Name Hash × List Config) := do
  if heavy then
    let leaves ← tree.gatherNodes [] 0 intMax
    s.genCex env tree (env.leafSort.sort leaves) env.params.genCexHeavy
  else
    let nMinCases ← tree.nMinCases
    let leaves ← tree.gatherNodes [] 0 (max env.params.genCexLimLeaves (nMinCases + 1))
    let leaves := env.leafSort.sort leaves
    let (s, cex) ← s.genCex env tree leaves env.params.genCexNormal
    if cex ≠ [] then .ok (s, cex)
    else
      let leaves ← tree.gatherNodes leaves 0 intMax
      s.genCex env tree (env.leafSort.sort leaves) env.params.genCexRetry

/-- The last loop of `run_one_loc`, up to the first configuration the tree is
wrong about.  `std::binary_search` on the sorted `cov_loc_ids` is membership. -/
def testCex (cov : CoverageStore Name) (loc : ℕ) :
    CTree → List ℕ → Except Abort (CTree × Bool)
  | tree, [] => .ok (tree, true)
  | tree, id :: ids => do
      let c ← vecAt cov.configs id
      let newTruth := decide (loc ∈ c.covLocs)
      let (res, tree) ← tree.testAddConfig c newTruth
      if res.1 ≠ newTruth then .ok (tree, false) else testCex cov loc tree ids

/-- `run_one_loc` for the record `j`. -/
def runOneLoc (env : Env Name Hash) (s : St Name Hash) (iter j : ℕ) (rebuild heavy : Bool) :
    Except Fault (St Name Hash × Bool) := do
  let d ← s.dat j
  check (d.linked = false) .oneLocLinked
  let s ← (if rebuild then s.buildTree env j iter else .ok s)
  let d ← s.dat j
  match d.tree with
  | none => .error .oneLocNullTree
  | some tree => do
      let (s, cex) ← s.makeCex env tree heavy
      if cex = [] then .ok (s, true)
      else
        let (s, ids) ← s.runConfigs env cex
        let (tree, ok) ← testCex s.cov d.loc tree ids
        .ok (s.setDat j { d with tree := some tree }, ok)

/-! ## One iteration -/

/-- The first lines of `run_iter`, up to its first loop. -/
def startIter (env : Env Name Hash) (s : St Name Hash) : Except Fault (St Name Hash) := do
  let s := { s with vThisIter := s.vNextIter, vNextIter := [] }
  let (s, vNewLocdat) ← s.prepareVecLocData env
  let s := { s with vThisIter := s.vThisIter ++ vNewLocdat }
  check (s.vThisIter.Nodup) .iterDup
  .ok { s with
    prevNConf := s.cov.nConfigs
    vLocData := s.vLocData.map fun d => { d with queuedNext := false } }

/-- How the loop over `t` for one record has ended. -/
inductive TurnEnd
  | interrupted
  | finished
  | exhausted
  deriving DecidableEq, Repr

/-- The loop over `t`, with the number of passes left and `c_success`. -/
def tries (env : Env Name Hash) (iter j : ℕ) (consecutiveSuccess : ℤ) :
    ℕ → ℤ → St Name Hash → Except Fault (St Name Hash × TurnEnd)
  | 0, _, s => .ok (s, .exhausted)
  | left + 1, cSuccess, s => do
      let s := s.readSignal env
      if s.signal = some .brk then .ok (s, .interrupted)
      else
        let d ← s.dat j
        let (s, ok) ← s.runOneLoc env iter j d.needRebuild (!d.needRebuild)
        let d ← s.dat j
        if ok then
          let s := s.setDat j { d with needRebuild := false }
          if cSuccess + 1 = consecutiveSuccess then .ok (s, .finished)
          else tries env iter j consecutiveSuccess left (cSuccess + 1) s
        else
          tries env iter j consecutiveSuccess left 0 (s.setDat j { d with needRebuild := true })

/-- The body of the first loop of `run_iter` for the record `j`.  The truth value
is whether the iteration has been interrupted. -/
def turn (env : Env Name Hash) (s : St Name Hash) (iter j : ℕ) :
    Except Fault (St Name Hash × Bool) := do
  let d ← s.dat j
  check (d.linked = false) .iterLinked
  let messed := decide (env.params.thrMessedUpSwitch ≤ d.messedUp)
  let limTimes := if messed then env.params.messedLimTimes else env.params.limTimes
  let consecutiveSuccess :=
    if messed then env.params.messedConsecutiveSuccess else env.params.consecutiveSuccess
  let (s, ended) ← tries env iter j consecutiveSuccess limTimes.toNat 0 s
  match ended with
  | .interrupted => .ok (s, true)
  | .finished => do
      let d ← s.dat j
      .ok (s.setDat j { d with nStuck := 0 }, false)
  | .exhausted => do
      let s ← s.enqueueNext env j
      .ok (s, false)

/-- The body of the re-check for the configuration `c` and one location.  The
list `it` is the rest of the configuration's `cov_loc_ids`. -/
def recheckLoc (env : Env Name Hash) (c : Config) (p : St Name Hash × List ℕ)
    (loc : Location Name) : Except Fault (St Name Hash × List ℕ) := do
  let (s, it) := p
  let id ← loc.index
  if s.vLocData.length ≤ id then .ok (s, it)
  else
    let newTruth := decide (it.head? = some id)
    let it := if newTruth then it.tail else it
    let d ← s.dat id
    if d.linked || d.queuedNext || d.ignored then .ok (s, it)
    else
      match d.tree with
      | none => .error .recheckNullTree
      | some tree => do
          let tree ← tree.buildInterpreter env.dom
          let (treeEval, tree) ← tree.interpretAdd env.dom c
          let d := { d with tree := some tree }
          if newTruth ≠ treeEval then
            let s ← (s.setDat id { d with needRebuild := true }).enqueueNext env id
            .ok (s, it)
          else .ok (s.setDat id d, it)

/-! ## Reports -/

/-- `vvp[j]`: the names of the record `j` and of the records linked to it. -/
def groupNames (s : St Name Hash) (j : ℕ) : Except Abort (List Name) := do
  let ds := s.vLocData.filter fun d => decide (d.parent.getD d.loc = j)
  ds.mapM fun d => do
    let loc ← vecAt s.cov.locs d.loc
    .ok loc.name

/-- `expr_strat`. -/
def exprStrat (env : Env Name Hash) : ExprStrat :=
  if env.options.disjConj then .disjOfConj else .freeMix

/-- The lines that are printed for the record `j`, with the tree that has been
chosen for it. -/
def printGroup (env : Env Name Hash) (s : St Name Hash) (j : ℕ) (d : LocData) (tree : CTree) :
    Except Abort (Group Name) := do
  let expr ← tree.buildZexpr env.dom (exprStrat env)
  let names ← s.groupNames j
  let text ← tree.serialize
  .ok {
    ignored := d.ignored
    nMiss := tree.configs.miss.length + tree.nNewConfigs.miss
    nHit := tree.configs.hit.length + tree.nNewConfigs.hit
    lastBuildIter := d.lastBuildIter, lastBuildNConfigs := d.lastBuildNConfigs
    names, expr, tree := text }

/-- The body of the last loop of `finish_alg` for the record `j`. -/
def finishLoc (env : Env Name Hash) (iter : ℕ) (buildTreeTemp : Bool)
    (p : St Name Hash × List (Group Name)) (j : ℕ) :
    Except Fault (St Name Hash × List (Group Name)) := do
  let (s, groups) := p
  let d ← s.dat j
  if d.linked then .ok (s, groups)
  else
    check (d.ignored = true → d.needRebuild = true) .finishIgnored
    let s ← (if !buildTreeTemp && d.needRebuild then s.buildTree env j iter else .ok s)
    let d ← s.dat j
    let tree ← (if buildTreeTemp && d.needRebuild then do
        let tree ← s.newTree env d.loc
        .ok (some tree)
      else .ok d.tree)
    match tree with
    | none => .error .finishNullTree
    | some tree => do
        let g ← s.printGroup env j d tree
        .ok (s, groups ++ [g])

/-- `finish_alg`. -/
def finishAlg (env : Env Name Hash) (s : St Name Hash) (iter : ℕ) (buildTreeTemp : Bool) :
    Except Fault (St Name Hash) := do
  let (s, groups) ←
    (List.range s.vLocData.length).foldlM (finishLoc env iter buildTreeTemp) (s, [])
  .ok { s with reports := s.reports ++ [{
    iter, nConfigs := s.cov.nConfigs, nLocs := s.cov.nLocs, nUniq := s.vUniq.length, groups }] }

end St

/-! ## `run_alg` -/

/-- One try of `gen_rand_configs`: all options of `c` are set at random. -/
def fillRand (dom : Domain) (draws : ℕ → ℕ) (c : Config) (rng : ℕ) :
    Except Abort (Config × ℕ) :=
  (List.range dom.nVars).foldlM (fun p var => do
    let (v, rng) ← randBelow draws p.2 (dom.nValues var)
    let c ← p.1.set dom var v
    .ok (c, rng)) (c, rng)

/-- The `do` loop of `gen_rand_configs`, which ends when a new hash comes up. -/
def retryRand (dom : Domain) (draws : ℕ → ℕ) (confHash : List ℤ → Hash) (seen : List Hash) :
    ℕ → Config → ℕ → Except Abort (Config × ℕ)
  | 0, _, _ => .error .outOfFuel
  | fuel + 1, c, rng => do
      let (c, rng) ← fillRand dom draws c rng
      let c := c.rehash
      if confHash c.hashKey ∈ seen then retryRand dom draws confHash seen fuel c rng
      else .ok (c, rng)

/-- `gen_rand_configs`, for `num` more configurations. -/
def genRandConfigs (dom : Domain) (draws : ℕ → ℕ) (confHash : List ℤ → Hash) (fuel : ℕ) :
    ℕ → List Hash → List Config → ℕ → Except Abort (List Config × ℕ)
  | 0, _, ret, rng => .ok (ret, rng)
  | num + 1, seen, ret, rng => do
      let (c, rng) ← retryRand dom draws confHash seen fuel (Config.new dom) rng
      genRandConfigs dom draws confHash fuel num (confHash c.hashKey :: seen) (ret ++ [c]) rng

/-- `get_seed_configs`. -/
def getSeedConfigs (dom : Domain) (seeds : List (List ℤ)) : Except Abort (List Config) :=
  seeds.mapM (Config.ofValues dom)

namespace Env

/-- `n_iterations`. -/
def nIterations (env : Env Name Hash) : ℤ := if env.options.full then 0 else env.options.rounds

/-- `max_terminate_counter`. -/
def maxTerminateCounter (env : Env Name Hash) : ℤ :=
  if env.options.termCnt = 0 then env.params.maxTerminateCounter else env.options.termCnt

/-- `init_configs`, with the number of draws used. -/
def initConfigs (env : Env Name Hash) : Except Abort (List Config × ℕ) :=
  if env.options.full then do
    let configs ← genAllConfigs env.dom
    .ok (configs, 0)
  else
    match env.options.rand with
    | some num => genRandConfigs env.dom env.draws env.confHash env.randFuel num.toNat [] [] 0
    | none => do
        let (covering, rng) ← GenTree.genOneConveringConfigs env.dom env.draws 0
        let seeds ← getSeedConfigs env.dom env.options.seedConfigs
        .ok (covering ++ seeds, rng)

/-- `run_alg` up to its loop. -/
def init (env : Env Name Hash) : Except Fault (St Name Hash) := do
  let (configs, rng) ← env.initConfigs
  let hashes := configs.map fun c => env.confHash c.hashKey
  let (s, _) ← St.runConfigs env { rng, setConfHash := hashes.dedup }
    (configs.map Config.touchHash)
  .ok s

end Env

/-- The places between two steps. -/
inductive Label
  /-- `run_alg`: the condition of the loop. -/
  | head (iter : ℕ)
  /-- `run_iter`: the first loop, before the `k`-th record. -/
  | turns (iter k : ℕ)
  /-- `run_iter`: the re-check, before the `i`-th configuration. -/
  | recheck (iter i : ℕ)
  /-- `run_iter`: the re-check of the `i`-th configuration, before the `k`-th
  location; `it` is the rest of the configuration's `cov_loc_ids`. -/
  | recheckAt (iter i k : ℕ) (it : List ℕ)
  /-- `run_iter` has run to its end and returns `v_next_iter.empty()`. -/
  | returned (iter : ℕ) (empty : Bool)
  /-- `run_iter` has returned `false` because of a signal. -/
  | interrupted (iter : ℕ)
  /-- `run_alg`: the signal status is about to be read. -/
  | signals (iter : ℕ)
  /-- `run_alg`: `if (save_each_iteration)`. -/
  | save (iter : ℕ)
  /-- `run_alg`: behind the loop. -/
  | final (iter : ℕ)
  /-- `run_alg` has returned. -/
  | done
  deriving DecidableEq, Repr

/-- `run_alg` from `if (v_loc_data.empty())` to `finish_alg`. -/
def St.prepareFinal (env : Env Name Hash) (s : St Name Hash) : Except Fault (St Name Hash) :=
  if s.vLocData.isEmpty then do
    let (s, _) ← s.prepareVecLocData env
    (List.range s.vLocData.length).foldlM (fun s j => do
      let d ← s.dat j
      if !d.linked && d.needRebuild then s.buildTree env j 0 else .ok s) s
  else .ok s

/-- What the program does between two labels. -/
def step (env : Env Name Hash) : Label × St Name Hash → Except Fault (Label × St Name Hash)
  | (.head iter, s) =>
      if (iter : ℤ) ≤ env.nIterations then do
        check (s.setConfHash.length = s.setRanConfHash.length) .confHashSizes
        let s ← s.startIter env
        .ok (.turns iter 0, s)
      else .ok (.final iter, s)
  | (.turns iter k, s) =>
      match s.vThisIter[k]? with
      | none => .ok (.recheck iter s.prevNConf, s)
      | some j => do
          let (s, interrupted) ← s.turn env iter j
          .ok (if interrupted then .interrupted iter else .turns iter (k + 1), s)
  | (.recheck iter i, s) =>
      if i < s.cov.nConfigs then do
        let c ← vecAt s.cov.configs i
        .ok (.recheckAt iter i 0 c.covLocs, s)
      else .ok (.returned iter s.vNextIter.isEmpty, s)
  | (.recheckAt iter i k it, s) =>
      match s.cov.locs[k]? with
      | none => .ok (.recheck iter (i + 1), s)
      | some loc => do
          let c ← vecAt s.cov.configs i
          let (s, it) ← St.recheckLoc env c (s, it) loc
          .ok (.recheckAt iter i (k + 1) it, s)
  | (.returned iter true, s) =>
      let s := { s with terminateCounter := s.terminateCounter + 1 }
      if s.terminateCounter = env.maxTerminateCounter then .ok (.final iter, s)
      else .ok (.signals iter, s.enqueueAll)
  | (.returned iter false, s) => .ok (.signals iter, { s with terminateCounter := 0 })
  | (.interrupted iter, s) => .ok (.signals iter, { s with terminateCounter := 0 })
  | (.signals iter, s) =>
      let s := s.readSignal env
      match s.signal with
      | some .brk => .ok (.final iter, s)
      | some .usr1 | some .usr2 => do
          let s ← s.finishAlg env iter false
          .ok (.save iter, { s with signal := none })
      | some .rt2 | none => .ok (.save iter, s)
  | (.save iter, s) => do
      let s ← (if env.options.saveEachIteration then s.finishAlg env iter true else .ok s)
      .ok (.head (iter + 1), s)
  | (.final iter, s) => do
      let s ← s.prepareFinal env
      let s ← s.finishAlg env iter false
      .ok (.done, s)
  | (.done, s) => .ok (.done, s)

/-- **Runs.**  The program under `env` comes to the label `l` in the state `s`, by
steps from states that meet the guard. -/
def RunsTo (env : Env Name Hash) (guard : Label × St Name Hash → Prop) (l : Label)
    (s : St Name Hash) : Prop :=
  ∃ s₀, env.init = .ok s₀ ∧ Machine.Reach (step env) guard (.head 1, s₀) (l, s)

end Algorithm

end GenTree

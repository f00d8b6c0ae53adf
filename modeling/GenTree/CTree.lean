import GenTree.CNode
import GenTree.CoverageStore

/-!
# Decision trees of locations

`CTree` owns the two configuration vectors the nodes point into, the root, and
the flat code `interpreter_` that is compiled from the root on demand.

`prepareData` fills the vectors by one forward scan of the store's
configurations against the sorted id list of the location; `buildTree` grows the
root in place.
-/

namespace GenTree

open Outcome

/-- `CTree`. -/
structure CTree where
  configs : Vecs := ⟨[], []⟩
  root : Option CNode := none
  interpreter : List ℤ := []
  nNewConfigs : Arr2 ℕ := ⟨0, 0⟩
  defaultHit : Bool := false
  params : SplitParams := ⟨0, false, 0, 0⟩

/-- `CTree::ExprStrat`. -/
inductive ExprStrat
  | freeMix
  | disjOfConj
  deriving DecidableEq, Repr

/-- The scan of `prepare_data`: `it` runs through the ids of the covering
configurations. -/
def scanConfigs : List Config → List ℕ → Vecs → Vecs
  | [], _, vecs => vecs
  | c :: cs, [], vecs => scanConfigs cs [] { vecs with miss := vecs.miss ++ [c] }
  | c :: cs, it :: its, vecs =>
      if c.id = some it then scanConfigs cs its { vecs with hit := vecs.hit ++ [c] }
      else scanConfigs cs (it :: its) { vecs with miss := vecs.miss ++ [c] }

/-- `multi_val_`, `avgain_wt_` and `mdl_wt_` as `prepare_data` sets them for a
number of cases. -/
def splitParams (dom : Domain) (nCases : ℕ) : SplitParams :=
  let half : ℕ := (nCases + 1) / 2
  let frac : ℚ := ((half : ℚ) - 500) / 500
  { nCases
    multiVal := dom.vars.foldl
      (fun _ v => decide ((3 / 10 : ℚ) * ((nCases : ℚ) + 1) ≤ (v.nValues : ℚ))) true
    avgainWt := if half ≤ 500 then 1 else if 1000 ≤ half then 0 else 1 - frac
    mdlWt := if half ≤ 500 then 0 else if 1000 ≤ half then 9 / 10 else 9 / 10 * frac }

namespace CTree

section Build

variable {Name : Type}

/-- `prepare_data`. -/
def prepareData (dom : Domain) (cov : CoverageStore Name) (tree : CTree)
    (loc : Location Name) : Except Abort CTree := do
  check (loc.id ≠ none) .prepareNoId
  check (tree.root.isNone) .treeHasRoot
  let configs := scanConfigs cov.configs loc.covBy tree.configs
  .ok { tree with
    configs
    defaultHit := decide (configs.miss.length < configs.hit.length)
    params := splitParams dom cov.configs.length }

/-- `build_tree`. -/
def buildTree (dom : Domain) (select : Selector) (tree : CTree) : Except Abort CTree := do
  let rootData := NodeData.root dom
    ⟨⟨0, tree.configs.miss.length⟩, ⟨0, tree.configs.hit.length⟩⟩
  let (root, configs) ←
    evaluateSplit dom select tree.params (dom.nVars + 1) rootData tree.configs
  .ok { tree with root := some root, configs }

end Build

/-- `root_`, where the code checks that it is there. -/
def rootNode (tree : CTree) : Except Abort CNode :=
  match tree.root with
  | none => .error .treeNoRoot
  | some root => .ok root

/-- `test_config`. -/
def testConfig (tree : CTree) (conf : Config) : Except Abort (Bool × ℕ) := do
  let root ← tree.rootNode
  root.testConfig tree.defaultHit conf

/-- `test_add_config`. -/
def testAddConfig (tree : CTree) (conf : Config) (val : Bool) :
    Except Abort ((Bool × ℕ) × CTree) := do
  let root ← tree.rootNode
  let nNewConfigs := tree.nNewConfigs.set val (tree.nNewConfigs.get val + 1)
  let (res, root) ← root.testAddConfig tree.defaultHit conf val
  .ok (res, { tree with root := some root, nNewConfigs })

/-- `build_zexpr`. -/
def buildZexpr (dom : Domain) (tree : CTree) (strat : ExprStrat) : Except Abort ZExpr := do
  let root ← tree.rootNode
  match strat with
  | .freeMix => root.buildZexprMixed dom tree.defaultHit
  | .disjOfConj => .ok (.mkOr (root.buildZexprDisjConj tree.defaultHit .ztrue))

/-- `build_interpreter`: the code is compiled unless there is code already. -/
def buildInterpreter (dom : Domain) (tree : CTree) : Except Abort CTree :=
  if tree.interpreter ≠ [] then .ok tree
  else
    match tree.root with
    | none => .error .nullPointer
    | some root => do
        let interpreter ← root.buildInterpreter dom tree.defaultHit []
        .ok { tree with interpreter }

/-- The loop of `interpret`, at position `it` of the code. -/
def interpretLoop (dom : Domain) (code : List ℤ) (conf : Config) :
    ℕ → ℤ → Except Abort Bool
  | 0, _ => .error .outOfFuel
  | fuel + 1, it => do
      check (0 ≤ it ∧ it < code.length) .codeRange
      let instr ← vecAt code it.toNat
      if instr = CNode.kInterpretHit then .ok true
      else if instr = CNode.kInterpretMiss then .ok false
      else do
        let var ← sizeT instr
        let v ← conf.get var
        if v = 0 then interpretLoop dom code conf fuel (it + dom.nValues var)
        else do
          let it ← vecAt code (← sizeT (it + v))
          interpretLoop dom code conf fuel it

/-- `interpret`.  Every instruction moves forward in the code, so its length is
enough fuel. -/
def interpret (dom : Domain) (tree : CTree) (conf : Config) : Except Abort Bool :=
  interpretLoop dom tree.interpreter conf tree.interpreter.length 0

/-- `interpret_add`. -/
def interpretAdd (dom : Domain) (tree : CTree) (conf : Config) :
    Except Abort (Bool × CTree) := do
  let val ← tree.interpret dom conf
  .ok (val, { tree with nNewConfigs := tree.nNewConfigs.set val (tree.nNewConfigs.get val + 1) })

/-- `n_min_cases`. -/
def nMinCases (tree : CTree) : Except Abort ℤ :=
  match tree.root with
  | none => .error .nullPointer
  | some root => .ok root.data.minCases

/-- `gather_small_leaves`. -/
def gatherSmallLeaves (dom : Domain) (tree : CTree) (minConfs maxConfs : ℤ) :
    Except Abort (List Config) := do
  let root ← tree.rootNode
  let curtpl ← (Config.new dom).fill dom (-1)
  let (_, res) ← GenTree.gatherSmallLeaves dom minConfs maxConfs root (curtpl, [])
  .ok res

/-- `gather_nodes`: the leaves are appended to `res`. -/
def gatherNodes (tree : CTree) (res : List NodeRef) (minConfs maxConfs : ℤ) :
    Except Abort (List NodeRef) := do
  let root ← tree.rootNode
  let leaves ← gatherLeavesNodes minConfs maxConfs [] root
  .ok (res ++ leaves)

end CTree

end GenTree

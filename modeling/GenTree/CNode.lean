import GenTree.Expr
import GenTree.Library.CountingSort
import GenTree.Library.DecisionTree
import Mathlib.Data.Rat.Init

/-!
# Tree nodes

`CNode` is translated field by field.  A node does not own its configurations:
it has two ranges into the two configuration vectors of its tree, one for misses
and one for hits, and growing the tree rearranges the vectors inside those
ranges.  The functions that grow a tree therefore take the two vectors and
return them.

A C++ node points to its parent.  A node that has been picked out of a tree is a
`NodeRef` here, which carries the chain of its ancestors.

The choice of the split variable compares floating-point information gains.  It
is a parameter of the model: a `Selector` is any function of what
`calc_inf_gain` and `select_best_var` read that, like `select_best_var`, passes
over the tested variables.
-/

namespace GenTree

open Outcome CountingSort

/-- `boost::sub_range<vec<PConfig>>`: begin and end positions in a vector. -/
structure SubRange where
  beg : ℕ
  stop : ℕ
  deriving DecidableEq, Repr

namespace SubRange

/-- `size()`. -/
def size (r : SubRange) : ℕ := r.stop - r.beg

/-- `empty()`: begin is end. -/
def empty (r : SubRange) : Bool := r.beg == r.stop

/-- The configurations of the range. -/
def of (r : SubRange) (vec : List Config) : List Config := window vec r.beg r.stop

end SubRange

/-- The two configuration vectors of a tree, misses and hits. -/
abbrev Vecs := Arr2 (List Config)

/-- The fields of a `CNode` other than its children. -/
structure NodeData where
  id : ℕ
  depth : ℕ
  configs : Arr2 SubRange
  testedVars : List Bool
  splitvar : ℤ := -1
  minCases : ℤ := 0
  newConfigs : List Config := []
  deriving DecidableEq

namespace NodeData

/-- `n_hits`. -/
def nHits (nd : NodeData) : ℕ := nd.configs.hit.size

/-- `n_misses`. -/
def nMisses (nd : NodeData) : ℕ := nd.configs.miss.size

/-- `n_total`. -/
def nTotal (nd : NodeData) : ℕ := nd.nHits + nd.nMisses

/-- `is_leaf`. -/
def isLeaf (nd : NodeData) : Bool := nd.configs.hit.empty || nd.configs.miss.empty

/-- `leaf_value`, with the `default_hit_` of the tree.  Every caller has tested
`is_leaf()` just before, so its `CHECK(is_leaf())` has no failing branch. -/
def leafValue (defaultHit : Bool) (nd : NodeData) : Bool :=
  if nd.configs.hit.empty && nd.configs.miss.empty then defaultHit
  else !nd.configs.hit.empty

/-- The constructor without a parent. -/
def root (dom : Domain) (configs : Arr2 SubRange) : NodeData :=
  { id := 0, depth := 0, configs, testedVars := List.replicate dom.nVars false }

/-- The constructor with a parent. -/
def child (parent : NodeData) (id : ℕ) (configs : Arr2 SubRange) : NodeData :=
  { id, depth := parent.depth + 1, configs, testedVars := parent.testedVars }

end NodeData

/-- `CNode`. -/
inductive CNode
  | mk (data : NodeData) (childs : List CNode)

namespace CNode

/-- The fields of a node. -/
def data : CNode → NodeData
  | mk nd _ => nd

/-- The children of a node. -/
def childs : CNode → List CNode
  | mk _ kids => kids

@[simp] theorem data_mk (nd : NodeData) (kids : List CNode) : (mk nd kids).data = nd := rfl

@[simp] theorem childs_mk (nd : NodeData) (kids : List CNode) :
    (mk nd kids).childs = kids := rfl

/-- Induction over nodes, with the hypothesis for every child. -/
@[elab_as_elim, induction_eliminator]
theorem induction {motive : CNode → Prop}
    (mk : ∀ nd kids, (∀ k ∈ kids, motive k) → motive (.mk nd kids)) :
    ∀ t, motive t := fun t =>
  CNode.rec (motive_1 := motive) (motive_2 := fun kids => ∀ k ∈ kids, motive k)
    mk (fun k hk => absurd hk List.not_mem_nil)
    (fun k kids hk hkids k' hk' => by
      rcases List.mem_cons.mp hk' with rfl | hmem
      · exact hk
      · exact hkids k' hmem) t

end CNode

/-! ## Growing a tree -/

/-- What `prepare_data` computes for the choice of split variables. -/
structure SplitParams where
  nCases : ℕ
  multiVal : Bool
  avgainWt : ℚ
  mdlWt : ℚ

/-- The choice of a split variable, from the tree's parameters, the tested
variables of the node, and its misses and hits; `-1` is no variable. -/
structure Selector where
  choose : SplitParams → List Bool → List Config → List Config → ℤ
  untested : ∀ params tested miss hit, choose params tested miss hit = -1 ∨
    ∃ v : ℕ, choose params tested miss hit = v ∧ tested[v]? = some false

/-- A selector is **total** when it returns a variable at every mixed node that
has an untested one. -/
def Selector.Total (select : Selector) : Prop :=
  ∀ params tested miss hit, miss ≠ [] → hit ≠ [] → false ∈ tested →
    select.choose params tested miss hit ≠ -1

/-- The selector that takes the first untested variable. -/
def Selector.firstUntested : Selector where
  choose _ tested _ _ := if false ∈ tested then (tested.idxOf false : ℤ) else -1
  untested _ tested _ _ := by
    split
    · next h => exact .inr ⟨_, rfl, List.getElem?_idxOf h⟩
    · exact .inl rfl

theorem Selector.firstUntested_total : Selector.firstUntested.Total := by
  intro params tested miss hit _ _ hmem
  simp only [Selector.firstUntested, if_pos hmem]
  omega

/-- `++freq[var][v]`. -/
def bump (row : List ℕ) (v : ℤ) : Except Abort (List ℕ) := do
  let i ← sizeT v
  let n ← vecAt row i
  .ok (row.set i (n + 1))

/-- `++freq[var_id][vals[var_id]]` for every variable. -/
def bumpRows : List (List ℕ) → List ℤ → Except Abort (List (List ℕ))
  | [], _ => .ok []
  | _ :: _, [] => .error .outOfRange
  | row :: rows, v :: vs => do
      let row ← bump row v
      let rows ← bumpRows rows vs
      .ok (row :: rows)

/-- One half of `calc_freq`: the table is cleared and the configurations are
counted, for each variable and value. -/
def calcFreq (dom : Domain) (configs : List Config) : Except Abort (List (List ℕ)) :=
  configs.foldlM (fun freq c => bumpRows freq c.values)
    (dom.vars.map fun v => List.replicate v.nValues 0)

/-- `x->values()[splitvar]` as an index. -/
def splitKey (splitvar : ℕ) (x : Config) : Option ℕ :=
  x.values[splitvar]?.bind fun v => if 0 ≤ v then some v.toNat else none

/-- One pass of the first loop of `create_childs`: the range `c` of `vec` is
moved out to `t_conf` and back into buckets.  Returns `t_curpos` and the
vector. -/
def splitRange (splitvar nvalues : ℕ) (c : SubRange) (freq : List ℕ)
    (vec : List Config) : Except Abort (List ℕ × List Config) :=
  match scatter (splitKey splitvar) (c.of vec) (starts c.beg freq) vec with
  | none => .error .outOfRange
  | some (curpos, vec) => do
      check (curpos[nvalues - 1]? = some c.stop) .bucketEnd
      .ok (curpos, vec)

/-- The range of child `i`: it ends at the final cursor of its bucket and begins
where the previous bucket ended. -/
def childRange (c : SubRange) (curpos : List ℕ) (i : ℕ) : SubRange :=
  { beg := if i = 0 then c.beg else curpos.getD (i - 1) 0, stop := curpos.getD i 0 }

/-- `create_childs`.  Returns the node, the children it has been given, and the
vectors. -/
def createChilds (dom : Domain) (nd : NodeData) (freq : Arr2 (List (List ℕ)))
    (vecs : Vecs) : Except Abort (NodeData × List NodeData × Vecs) := do
  check (0 ≤ nd.splitvar ∧ nd.splitvar < dom.nVars) .splitvarRange
  let splitvar := nd.splitvar.toNat
  let nvalues := dom.nValues splitvar
  let nd := { nd with testedVars := nd.testedVars.set splitvar true }
  let freqMiss ← vecAt freq.miss splitvar
  let (posMiss, vecMiss) ← splitRange splitvar nvalues nd.configs.miss freqMiss vecs.miss
  let freqHit ← vecAt freq.hit splitvar
  let (posHit, vecHit) ← splitRange splitvar nvalues nd.configs.hit freqHit vecs.hit
  let kids := (List.range nvalues).map fun i =>
    nd.child i ⟨childRange nd.configs.miss posMiss i, childRange nd.configs.hit posHit i⟩
  .ok (nd, kids, ⟨vecMiss, vecHit⟩)

/-- The least `min_cases_in_one_leaf_` of the children. -/
def minOver (kids : List CNode) : ℤ :=
  kids.foldl (fun m c => min m c.data.minCases) intMax

/-- The loop of `evaluate_split` over the children. -/
def evaluateChilds (eval : NodeData → Vecs → Except Abort (CNode × Vecs)) :
    List NodeData → Vecs → Except Abort (List CNode × Vecs)
  | [], vecs => .ok ([], vecs)
  | k :: ks, vecs => do
      let (k, vecs) ← eval k vecs
      let (ks, vecs) ← evaluateChilds eval ks vecs
      .ok (k :: ks, vecs)

/-- `evaluate_split`, with fuel for the depth of the recursion. -/
def evaluateSplit (dom : Domain) (select : Selector) (params : SplitParams) :
    ℕ → NodeData → Vecs → Except Abort (CNode × Vecs)
  | 0, _, _ => .error .outOfFuel
  | fuel + 1, nd, vecs =>
      if nd.isLeaf then do
        check (nd.nHits = 0 ∨ nd.nMisses = 0) .mixedLeaf
        .ok (.mk { nd with minCases := nd.nTotal } [], vecs)
      else do
        let miss := nd.configs.miss.of vecs.miss
        let hit := nd.configs.hit.of vecs.hit
        let freqMiss ← calcFreq dom miss
        let freqHit ← calcFreq dom hit
        let splitvar := select.choose params nd.testedVars miss hit
        check (splitvar ≠ -1) .noSplitvar
        -- `split_by = dom()->vars().at(splitvar)`
        let _ ← vecAt dom.vars (← sizeT splitvar)
        let (nd, kids, vecs) ← createChilds dom { nd with splitvar } ⟨freqMiss, freqHit⟩ vecs
        let (childs, vecs) ← evaluateChilds (evaluateSplit dom select params fuel) kids vecs
        .ok (.mk { nd with minCases := minOver childs } childs, vecs)

/-! ## Reading a tree -/

namespace CNode

/-- The child index a configuration selects at an inner node:
`childs.at(size_t(conf->get(splitvar)))`. -/
def branch (nd : NodeData) (conf : Config) : Except Abort ℕ := do
  check (nd.splitvar ≠ -1) .noSplitvar
  let v ← conf.get (← sizeT nd.splitvar)
  sizeT v

mutual

/-- `test_config`. -/
def testConfig (defaultHit : Bool) (conf : Config) : CNode → Except Abort (Bool × ℕ)
  | mk nd kids =>
      if nd.isLeaf then .ok (nd.leafValue defaultHit, nd.nTotal)
      else do
        let i ← branch nd conf
        testConfigAt defaultHit conf kids i

/-- `test_config` of the `i`-th child. -/
def testConfigAt (defaultHit : Bool) (conf : Config) :
    List CNode → ℕ → Except Abort (Bool × ℕ)
  | [], _ => .error .outOfRange
  | k :: _, 0 => testConfig defaultHit conf k
  | _ :: ks, i + 1 => testConfigAt defaultHit conf ks i

end

mutual

/-- `test_add_config`: the configuration is stored at its leaf when the leaf has
the truth value `val`.  Returns the result and the changed node. -/
def testAddConfig (defaultHit : Bool) (conf : Config) (val : Bool) :
    CNode → Except Abort ((Bool × ℕ) × CNode)
  | mk nd kids =>
      if nd.isLeaf then
        let leafVal := nd.leafValue defaultHit
        if leafVal = val then do
          let nd' := { nd with
            minCases := nd.minCases + 1, newConfigs := nd.newConfigs ++ [conf] }
          check (nd'.minCases = ((nd'.nTotal + nd'.newConfigs.length : ℕ) : ℤ)) .leafCases
          .ok ((leafVal, nd.nTotal), mk nd' kids)
        else .ok ((leafVal, nd.nTotal), mk nd kids)
      else do
        let i ← branch nd conf
        let (res, kids) ← testAddConfigAt defaultHit conf val kids i
        .ok (res, mk { nd with minCases := minOver kids } kids)

/-- `test_add_config` of the `i`-th child. -/
def testAddConfigAt (defaultHit : Bool) (conf : Config) (val : Bool) :
    List CNode → ℕ → Except Abort ((Bool × ℕ) × List CNode)
  | [], _ => .error .outOfRange
  | k :: ks, 0 => do
      let (res, k) ← testAddConfig defaultHit conf val k
      .ok (res, k :: ks)
  | k :: ks, i + 1 => do
      let (res, ks) ← testAddConfigAt defaultHit conf val ks i
      .ok (res, k :: ks)

end

/-! ### Formulas -/

/-- `res = e` for the first clause and `res = res || e` afterwards. -/
def orElse (res : Option ZExpr) (e : ZExpr) : ZExpr :=
  match res with
  | none => e
  | some res => .or res e

mutual

/-- `build_zexpr_mixed`. -/
def buildZexprMixed (dom : Domain) (defaultHit : Bool) : CNode → Except Abort ZExpr
  | mk nd kids =>
      if nd.isLeaf then .ok (.zbool (nd.leafValue defaultHit))
      else do
        check (nd.splitvar ≠ -1 ∧ kids.length = dom.nValues nd.splitvar.toNat) .exprChilds
        match ← mixedChilds dom defaultHit nd.splitvar.toNat kids 0 none with
        | none => .error .exprEmpty
        | some res => .ok res

/-- The loop of `build_zexpr_mixed` over the children from value `val` on.
`none` is `empty_res`. -/
def mixedChilds (dom : Domain) (defaultHit : Bool) (splitvar : ℕ) :
    List CNode → ℕ → Option ZExpr → Except Abort (Option ZExpr)
  | [], _, res => .ok res
  | mk nd kids :: ks, val, res =>
      if nd.isLeaf then
        if nd.leafValue defaultHit then
          mixedChilds dom defaultHit splitvar ks (val + 1)
            (some (orElse res (.eq splitvar val)))
        else mixedChilds dom defaultHit splitvar ks (val + 1) res
      else do
        let e ← buildZexprMixed dom defaultHit (mk nd kids)
        mixedChilds dom defaultHit splitvar ks (val + 1)
          (some (orElse res (.and (.eq splitvar val) e)))

end

mutual

/-- `build_zexpr_disj_conj`: the conjunctions it appends to `vec_res`. -/
def buildZexprDisjConj (defaultHit : Bool) : CNode → ZExpr → List ZExpr
  | mk nd kids, curExpr =>
      if nd.isLeaf && nd.leafValue defaultHit then [curExpr]
      else disjConjChilds defaultHit nd kids 0 curExpr

/-- The loop of `build_zexpr_disj_conj` over the children from value `val`
on. -/
def disjConjChilds (defaultHit : Bool) (nd : NodeData) :
    List CNode → ℕ → ZExpr → List ZExpr
  | [], _, _ => []
  | k :: ks, val, curExpr =>
      let eq := ZExpr.eq nd.splitvar.toNat val
      buildZexprDisjConj defaultHit k (if nd.depth = 0 then eq else .and curExpr eq) ++
        disjConjChilds defaultHit nd ks (val + 1) curExpr

end

/-! ### Flat code -/

/-- `CTree::kInterpretMiss`. -/
def kInterpretMiss : ℤ := -2

/-- `CTree::kInterpretHit`. -/
def kInterpretHit : ℤ := -1

mutual

/-- `build_interpreter`: the code is appended to `dat`. -/
def buildInterpreter (dom : Domain) (defaultHit : Bool) :
    CNode → List ℤ → Except Abort (List ℤ)
  | mk nd kids, dat =>
      if nd.isLeaf then
        .ok (dat ++ [if nd.leafValue defaultHit then kInterpretHit else kInterpretMiss])
      else do
        let dat := dat ++ [nd.splitvar]
        check (kids.length = dom.nValues (← sizeT nd.splitvar)) .codeChilds
        let beg := dat.length
        let dat := vecResize dat (beg + kids.length - 1)
        interpreterChilds dom defaultHit beg 0 kids dat

/-- The loop of `build_interpreter` over the children from child `i` on.  The
jump to child `i + 1` is patched in when the code of child `i` has been
emitted. -/
def interpreterChilds (dom : Domain) (defaultHit : Bool) (beg : ℕ) :
    ℕ → List CNode → List ℤ → Except Abort (List ℤ)
  | _, [], dat => .ok dat
  | _, [k], dat => buildInterpreter dom defaultHit k dat
  | i, k :: k' :: ks, dat => do
      let dat ← buildInterpreter dom defaultHit k dat
      interpreterChilds dom defaultHit beg (i + 1) (k' :: ks) (dat.set (beg + i) dat.length)

end

end CNode

/-! ## Leaves and templates -/

mutual

/-- `gather_small_leaves`: a copy of the template for each leaf whose number of
cases is in the interval.  The template `curtpl` is shared by all calls: a split
variable is fixed for the time a child is visited. -/
def gatherSmallLeaves (dom : Domain) (minConfs maxConfs : ℤ) :
    CNode → Config × List Config → Except Abort (Config × List Config)
  | .mk nd kids, (curtpl, res) =>
      if nd.isLeaf then
        if minConfs ≤ nd.minCases ∧ nd.minCases ≤ maxConfs then do
          -- `new Config(curtpl)` goes through `set_all`
          let c ← Config.ofValues dom curtpl.values
          .ok (curtpl, res ++ [c])
        else .ok (curtpl, res)
      else do
        check (nd.splitvar ≠ -1) .noSplitvar
        smallLeavesChilds dom minConfs maxConfs (← sizeT nd.splitvar) 0 kids (curtpl, res)

/-- The loop of `gather_small_leaves` over the children from value `v` on. -/
def smallLeavesChilds (dom : Domain) (minConfs maxConfs : ℤ) (splitvar : ℕ) :
    ℕ → List CNode → Config × List Config → Except Abort (Config × List Config)
  | _, [], p => .ok p
  | v, k :: ks, (curtpl, res) => do
      let t ← curtpl.get splitvar
      check (t = -1) .splitvarFixed
      let curtpl ← curtpl.set dom splitvar v
      let (curtpl, res) ← gatherSmallLeaves dom minConfs maxConfs k (curtpl, res)
      let curtpl ← curtpl.set dom splitvar (-1)
      smallLeavesChilds dom minConfs maxConfs splitvar (v + 1) ks (curtpl, res)

end

/-- A pointer to a node: the node and its ancestors, the parent first. -/
structure NodeRef where
  node : CNode
  parents : List NodeData

mutual

/-- `gather_leaves_nodes`: the leaves whose number of cases is in the interval,
from left to right. -/
def gatherLeavesNodes (minConfs maxConfs : ℤ) :
    List NodeData → CNode → Except Abort (List NodeRef)
  | parents, .mk nd kids =>
      if nd.isLeaf then
        if minConfs ≤ nd.minCases ∧ nd.minCases ≤ maxConfs then
          .ok [⟨.mk nd kids, parents⟩]
        else .ok []
      else do
        check (nd.splitvar ≠ -1) .noSplitvar
        gatherChilds minConfs maxConfs (nd :: parents) kids

/-- The loop of `gather_leaves_nodes` over the children. -/
def gatherChilds (minConfs maxConfs : ℤ) :
    List NodeData → List CNode → Except Abort (List NodeRef)
  | _, [] => .ok []
  | parents, k :: ks => do
      let res ← gatherLeavesNodes minConfs maxConfs parents k
      let res' ← gatherChilds minConfs maxConfs parents ks
      .ok (res ++ res')

end

/-- `gen_tpl`: the tests on the way to the root are written into `conf`. -/
def genTpl (dom : Domain) : NodeData → List NodeData → Config → Except Abort Config
  | nd, parents, conf => do
      check (nd.isLeaf = true → nd.splitvar = -1) .leafSplitvar
      match parents with
      | [] => .ok conf
      | p :: ps => do
          check (p.splitvar ≠ -1) .noSplitvar
          let conf ← conf.set dom (← sizeT p.splitvar) nd.id
          genTpl dom p ps conf
  termination_by structural _ parents => parents

end GenTree

import GenTree.CTree

/-!
# Configurations for a leaf

`CNode::gen_one_convering_configs` makes new configurations that reach a given
leaf.  The tests on the way to the leaf are the template; every other option is
drawn without replacement from a pool until all pools are empty, so that each of
its values is used once.  A configuration whose hash has been seen is repaired by
the solver: the options that had to be drawn from an empty pool are opened again,
and the solver is asked for values that differ from all the configurations of the
leaf.

A set of hashes is the list of its elements.
-/

namespace GenTree

open Outcome

/-- What the solver scope of the generator excludes: `!c->to_expr()`. -/
def Config.excluded (c : Config) : ZExpr := .not c.toExpr

/-- The local state of the `while` loop: `z3` is the list of formulas added to
the scope, if there is one. -/
structure Gen (Hash : Type) where
  pools : List (List ℤ)
  nFinished : ℕ
  shash : List Hash
  z3 : Option (List ZExpr) := none
  ret : List Config := []
  rng : ℕ
  solverCalls : ℕ

/-- The leaf the generator works for: the template, the configurations of the
leaf in the order in which they are added to the solver scope, and
`use_solver`. -/
structure GenLeaf where
  templ : Config
  known : List Config
  useSolver : Bool

section Gen

variable {Hash : Type} [DecidableEq Hash]

/-- The values of the model for the options that were opened again. -/
def applyModel (dom : Domain) (m : ZModel) (vrand : List ℕ) (conf : Config) :
    Except Abort Config :=
  vrand.foldlM (fun conf id =>
    match m id with
    | none => .error .modelValue
    | some v => conf.set dom id v) conf

/-- One pass of the `while` loop. -/
def genPass (dom : Domain) (draws : ℕ → ℕ) (solver : Solver) (confHash : List ℤ → Hash)
    (leaf : GenLeaf) (g : Gen Hash) : Except Abort (Gen Hash) := do
  let row ← fillRow dom draws 0 leaf.templ.values
    { conf := Config.new dom, pools := g.pools, nFinished := g.nFinished, vrand := [],
      rng := g.rng }
  let g := { g with pools := row.pools, nFinished := row.nFinished, rng := row.rng }
  let conf := row.conf.touchHash
  if confHash conf.hashKey ∉ g.shash then
    .ok { g with
      shash := confHash conf.hashKey :: g.shash
      z3 := g.z3.map (· ++ [conf.excluded])
      ret := g.ret ++ [conf] }
  else if leaf.useSolver then do
    let conf ← row.vrand.foldlM (fun conf id => conf.set dom id (-1)) conf
    let scope := g.z3.getD ((leaf.known ++ g.ret).map Config.excluded)
    let g := { g with z3 := some scope, solverCalls := g.solverCalls + 1 }
    match solver (g.solverCalls - 1) scope conf.toExpr with
    | none => .ok g
    | some m => do
        let conf ← applyModel dom m row.vrand conf
        let conf := conf.rehash
        check (confHash conf.hashKey ∉ g.shash) .genInsert
        .ok { g with
          shash := confHash conf.hashKey :: g.shash
          z3 := some (scope ++ [conf.excluded])
          ret := g.ret ++ [conf] }
  else .ok g

/-- The `while` loop.  Every pass takes a value out of some pool. -/
def genLoop (dom : Domain) (draws : ℕ → ℕ) (solver : Solver) (confHash : List ℤ → Hash)
    (leaf : GenLeaf) (lim : ℤ) : ℕ → Gen Hash → Except Abort (Gen Hash)
  | 0, _ => .error .outOfFuel
  | fuel + 1, g =>
      if g.nFinished < dom.nVars ∧ (g.ret.length : ℤ) < lim then do
        let g ← genPass dom draws solver confHash leaf g
        genLoop dom draws solver confHash leaf lim fuel g
      else .ok g

/-- The pools, with the number of options the template fixes. -/
def leafPools (dom : Domain) (templ : Config) : Except Abort (List (List ℤ) × ℕ) :=
  (List.range dom.nVars).foldlM
    (fun st var => do
      let t ← templ.get var
      if t = -1 then
        .ok (st.1 ++ [(List.range (dom.nValues var)).map fun i : ℕ => (i : ℤ)], st.2)
      else .ok (st.1 ++ [[]], st.2 + 1))
    ([], 0)

/-- The hashes of the configurations of the leaf. -/
def leafHashes (confHash : List ℤ → Hash) (known : List Config) : List Hash :=
  (known.map fun c => confHash c.hashKey).dedup

/-- `CNode::gen_one_convering_configs(lim)` for a leaf of `tree`.  Returns the
configurations and how many draws and solver calls have been made. -/
def CTree.genOneConveringConfigs (dom : Domain) (draws : ℕ → ℕ) (solver : Solver)
    (confHash : List ℤ → Hash) (tree : CTree) (node : NodeRef) (lim : ℤ)
    (rng solverCalls : ℕ) : Except Abort (List Config × ℕ × ℕ) := do
  let nd := node.node.data
  let templ ← (Config.new dom).fill dom (-1)
  let templ ← genTpl dom nd node.parents templ
  check (nd.configs.hit.empty ∨ nd.configs.miss.empty) .genMixed
  let useSolver := decide (nd.nTotal + nd.newConfigs.length ≤ 1000)
  let known := nd.configs.hit.of tree.configs.hit ++ nd.configs.miss.of tree.configs.miss ++
    nd.newConfigs
  let (pools, nFinished) ← leafPools dom templ
  let g ← genLoop dom draws solver confHash ⟨templ, known, useSolver⟩ lim (dom.nAllValues + 1)
    { pools, nFinished, rng, solverCalls
      shash := if useSolver then leafHashes confHash known else [] }
  .ok (g.ret, g.rng, g.solverCalls)

end Gen

end GenTree

import GenTree.CTree

/-!
# The decision tree a node stands for

A `CNode` carries ranges, counters and a tested-variable list; what it decides is
a `DTree` over the option indices.  `CNode.toTree` reads that tree off, with the
leaves labelled by any function of the leaf's fields.  Two labellings matter:

* `CNode.shape` — the truth value of the leaf.  Walking, printing, compiling and
  turning a tree into a formula all depend on the node through its shape only,
  so the theorems about those functions speak of `shape`.
* `CNode.view` — the misses and hits the leaf's ranges cover in the tree's
  vectors, which is what the theorem about growing a tree is about.

`CNode.Wf` is the invariant of both ways a tree comes into being, growing it
from configurations and reading it from text.
-/

namespace GenTree

open Outcome CountingSort

namespace CNode

universe v

variable {β : Type v}

mutual

/-- The decision tree of a node, with the leaves labelled by `label`. -/
def toTree (label : NodeData → β) : CNode → DTree ℕ β
  | mk nd kids =>
      if nd.isLeaf then .leaf (label nd) else .node nd.splitvar.toNat (toTrees label kids)

/-- The decision trees of all children. -/
def toTrees (label : NodeData → β) : List CNode → List (DTree ℕ β)
  | [] => []
  | k :: ks => toTree label k :: toTrees label ks

end

@[simp] theorem toTrees_eq (label : NodeData → β) (kids : List CNode) :
    toTrees label kids = kids.map (toTree label) := by
  induction kids with
  | nil => rfl
  | cons k ks ih => simp [toTrees, ih]

theorem toTree_leaf (label : NodeData → β) {nd : NodeData} {kids : List CNode}
    (h : nd.isLeaf = true) : toTree label (mk nd kids) = .leaf (label nd) := by
  rw [toTree, if_pos h]

theorem toTree_node (label : NodeData → β) {nd : NodeData} {kids : List CNode}
    (h : nd.isLeaf = false) :
    toTree label (mk nd kids) = .node nd.splitvar.toNat (kids.map (toTree label)) := by
  rw [toTree, if_neg (by simp [h]), toTrees_eq]

/-- The tree with the truth values of its leaves. -/
def shape (defaultHit : Bool) (t : CNode) : DTree ℕ Bool := t.toTree (NodeData.leafValue defaultHit)

theorem shape_leaf {d : Bool} {nd : NodeData} {kids : List CNode} (h : nd.isLeaf = true) :
    (mk nd kids).shape d = .leaf (nd.leafValue d) := toTree_leaf _ h

theorem shape_node {d : Bool} {nd : NodeData} {kids : List CNode} {var : ℕ}
    (h : nd.isLeaf = false) (hvar : nd.splitvar = var) :
    (mk nd kids).shape d = .node var (kids.map (shape d)) := by
  have hto : nd.splitvar.toNat = var := by omega
  rw [shape, toTree_node _ h, hto]
  rfl

/-- The tree with the configurations in the ranges of its leaves. -/
def view (vecs : Vecs) (t : CNode) : DTree ℕ (List Config × List Config) :=
  t.toTree fun nd => (nd.configs.miss.of vecs.miss, nd.configs.hit.of vecs.hit)

/-! ## Well-formed nodes -/

/-- A node at depth `depth` is **well formed**: a leaf has no children, and an
inner node tests an option of the domain and has one child for each of its
values, one level further down. -/
inductive Wf (dom : Domain) : ℕ → CNode → Prop
  | leaf {depth : ℕ} {nd : NodeData} (isLeaf : nd.isLeaf = true) (at_depth : nd.depth = depth) :
      Wf dom depth (.mk nd [])
  | node {depth : ℕ} {nd : NodeData} {kids : List CNode} {var : ℕ} (isLeaf : nd.isLeaf = false)
      (at_depth : nd.depth = depth) (splitvar : nd.splitvar = var) (lt : var < dom.nVars)
      (length : kids.length = dom.nValues var) (kid : ∀ k ∈ kids, Wf dom (depth + 1) k) :
      Wf dom depth (.mk nd kids)

section Walk

variable {dom : Domain} {depth : ℕ} {t : CNode} {c : Config}

theorem Wf.shaped (h : t.Wf dom depth) (label : NodeData → β) :
    DTree.Shaped dom.nValues (t.toTree label) := by
  induction h with
  | leaf hleaf _ =>
      rw [toTree_leaf label hleaf]
      exact .leaf _
  | node hleaf _ hvar hlt hlen _ ih =>
      rw [toTree_node label hleaf, hvar, Int.toNat_natCast]
      refine .node (dom.nValues_pos hlt) (by rw [List.length_map, hlen]) fun k hk => ?_
      obtain ⟨k', hk', rfl⟩ := List.mem_map.mp hk
      exact ih k' hk'

theorem testConfigAt_eq (defaultHit : Bool) (kids : List CNode) (i : ℕ) :
    testConfigAt defaultHit c kids i = vecAt kids i >>= testConfig defaultHit c := by
  induction kids generalizing i with
  | nil => simp [testConfigAt, vecAt]
  | cons k ks ih =>
      cases i with
      | zero => simp [testConfigAt, vecAt]
      | succ i => simp [testConfigAt, ih, vecAt]

/-- The child a complete configuration selects. -/
theorem branch_eq (hc : c.Complete dom) {nd : NodeData} {var : ℕ}
    (hvar : nd.splitvar = var) (hlt : var < dom.nVars) : branch nd c = .ok (c.val var) := by
  have hne : nd.splitvar ≠ -1 := by omega
  rw [branch, check_pos hne, ok_bind, hvar, sizeT_natCast, ok_bind, hc.get_eq_ok hlt, ok_bind,
    sizeT_natCast]

/-- **Walking a well-formed tree is evaluating its shape.** -/
theorem Wf.testConfig (h : t.Wf dom depth) (hc : c.Complete dom) (defaultHit : Bool) :
    ∃ b n, t.testConfig defaultHit c = .ok (b, n) ∧
      (t.shape defaultHit).eval c.val = some b := by
  induction h with
  | @leaf depth nd hleaf _ =>
      refine ⟨nd.leafValue defaultHit, nd.nTotal, ?_, ?_⟩
      · rw [CNode.testConfig, if_pos hleaf]
      · rw [shape_leaf hleaf, DTree.eval_leaf]
  | @node depth nd kids var hleaf _ hvar hlt hlen _ ih =>
      have hval : c.val var < kids.length := by rw [hlen]; exact hc.val_lt hlt
      have hget : kids[c.val var]? = some kids[c.val var] := List.getElem?_eq_getElem hval
      obtain ⟨b, n, hb, heval⟩ := ih _ (List.getElem_mem hval)
      refine ⟨b, n, ?_, ?_⟩
      · rw [CNode.testConfig, if_neg (by simp [hleaf]), branch_eq hc hvar hlt, ok_bind,
          testConfigAt_eq, vecAt_of_getElem? hget, ok_bind, hb]
      · rw [shape_node hleaf hvar, DTree.eval_node, List.getElem?_map, hget]
        exact heval

end Walk

end CNode

end GenTree

import GenTree.BuildTree
import Mathlib.Order.Bounds.Basic

/-!
# The leaves of a tree

A leaf is named by its **position**, the list of child indices on the way from the
root.  `CNode.leafPos` is the walk of `test_config`, which stops at a position, and
`CNode.leafAt` reads the fields of the leaf there.

`CNode.Grown` is what `evaluate_split` leaves behind and what `test_add_config`
keeps: children are numbered, no option is tested twice on a path, and every node
knows the least number of cases in a leaf below it.  The numbers are `int`s in the
source, so the minimum is stated for trees whose leaves hold at most `intMax`
configurations.

* **Positions, not nodes.**  A call of `test_add_config` makes a new tree, in which the
  leaf it has changed is another value.  Its position is the same, so a sequence of calls
  can be spoken of (`CTree.callsAt`) and a leaf followed through it.
* **The minimum is kept locally.**  `Grown` says of an inner node that its number is
  `minOver` of the numbers of its children, which is what the source computes, and not
  that it is a minimum over leaves.  The latter follows (`Grown.isLeast`) where nothing
  exceeds `intMax`, with which `minOver` starts; no call has to prove it again.
* **Truth values do not change.**  A leaf keeps a configuration only with its own truth
  value, so what decides about later calls is known from the tree before all of them.

* `Grown.isLeast` — `min_cases_in_one_leaf_` is the minimum over the leaves.
* `Grown.testAddConfig` — one call of `test_add_config` changes one leaf at most.
* `CTree.testAddConfig_run` — the two together, for a sequence of calls.
-/

namespace GenTree

open Outcome

/-- The configurations of a leaf, those it was grown from and those added since. -/
def NodeData.cases (nd : NodeData) : ℕ := nd.nTotal + nd.newConfigs.length

namespace CNode

/-! ## Positions -/

mutual

/-- The position `test_config` walks to. -/
def leafPos (conf : Config) : CNode → Except Abort (List ℕ)
  | mk nd kids =>
      if nd.isLeaf then .ok []
      else do
        let i ← branch nd conf
        let pos ← leafPosAt conf kids i
        .ok (i :: pos)

/-- The position below the `i`-th child. -/
def leafPosAt (conf : Config) : List CNode → ℕ → Except Abort (List ℕ)
  | [], _ => .error .outOfRange
  | k :: _, 0 => leafPos conf k
  | _ :: ks, i + 1 => leafPosAt conf ks i

end

/-- The node at a position. -/
def nodeAt : CNode → List ℕ → Option CNode
  | t, [] => some t
  | t, i :: pos => t.childs[i]?.bind fun k => nodeAt k pos

/-- The fields of the leaf at a position. -/
def leafAt : CNode → List ℕ → Option NodeData
  | t, [] => if t.data.isLeaf then some t.data else none
  | t, i :: pos => if t.data.isLeaf then none else t.childs[i]?.bind fun k => leafAt k pos

/-- The fields of all leaves, from left to right. -/
def leafData (t : CNode) : List NodeData := (t.toTree id).leaves

section Positions

variable {conf : Config} {d : Bool} {nd : NodeData} {kids : List CNode}

theorem leafPosAt_eq (kids : List CNode) (i : ℕ) :
    leafPosAt conf kids i = vecAt kids i >>= leafPos conf := by
  induction kids generalizing i with
  | nil => simp [leafPosAt, vecAt]
  | cons k ks ih =>
      cases i with
      | zero => simp [leafPosAt, vecAt]
      | succ i => simp [leafPosAt, ih, vecAt]

theorem leafPos_leaf (h : nd.isLeaf = true) : leafPos conf (mk nd kids) = .ok [] := by
  rw [leafPos, if_pos h]

theorem leafPos_node (h : nd.isLeaf = false) :
    leafPos conf (mk nd kids) = branch nd conf >>= fun i =>
      vecAt kids i >>= fun k => leafPos conf k >>= fun pos => .ok (i :: pos) := by
  rw [leafPos, if_neg (by simp [h])]
  cases branch nd conf with
  | error e => rfl
  | ok i =>
      simp only [ok_bind, leafPosAt_eq]
      cases vecAt kids i <;> rfl

theorem testConfig_node (h : nd.isLeaf = false) :
    testConfig d conf (mk nd kids) =
      branch nd conf >>= fun i => vecAt kids i >>= testConfig d conf := by
  rw [testConfig, if_neg (by simp [h])]
  cases branch nd conf with
  | error e => rfl
  | ok i => exact testConfigAt_eq d kids i

@[simp] theorem leafAt_nil_leaf (h : nd.isLeaf = true) : leafAt (mk nd kids) [] = some nd := by
  rw [leafAt, data_mk, if_pos h]

@[simp] theorem leafAt_cons_node (h : nd.isLeaf = false) (i : ℕ) (pos : List ℕ) :
    leafAt (mk nd kids) (i :: pos) = kids[i]?.bind fun k => leafAt k pos := by
  rw [leafAt, data_mk, if_neg (by simp [h]), childs_mk]

theorem leafData_leaf (h : nd.isLeaf = true) : leafData (mk nd kids) = [nd] := by
  rw [leafData, toTree_leaf _ h, DTree.leaves_leaf]
  rfl

theorem leafData_node (h : nd.isLeaf = false) :
    leafData (mk nd kids) = kids.flatMap leafData := by
  rw [leafData, toTree_node _ h, DTree.leaves_node, List.flatMap_map]
  rfl

/-- **The walk of `test_config`** ends at a leaf and returns what it finds there. -/
theorem testConfig_of_leafPos {t : CNode} : ∀ {pos : List ℕ}, t.leafPos conf = .ok pos →
    ∃ nd, t.leafAt pos = some nd ∧ t.testConfig d conf = .ok (nd.leafValue d, nd.nTotal) := by
  induction t with
  | mk nd kids ih =>
      intro pos h
      cases hleaf : nd.isLeaf with
      | true =>
          rw [leafPos_leaf hleaf] at h
          cases h
          exact ⟨nd, leafAt_nil_leaf hleaf, by rw [testConfig, if_pos hleaf]⟩
      | false =>
          rw [leafPos_node hleaf] at h
          obtain ⟨i, hi, h⟩ := bind_eq_ok.mp h
          obtain ⟨k, hk, h⟩ := bind_eq_ok.mp h
          obtain ⟨pos', hpos, heq⟩ := bind_eq_ok.mp h
          cases heq
          have hget := vecAt_eq_ok.mp hk
          obtain ⟨nd', hat, htest⟩ := ih k (List.mem_of_getElem? hget) hpos
          refine ⟨nd', ?_, ?_⟩
          · rw [leafAt_cons_node hleaf, hget, Option.bind_some, hat]
          · rw [testConfig_node hleaf, hi, ok_bind, hk, ok_bind, htest]

theorem mem_leafData_of_leafAt {t : CNode} {pos : List ℕ} {nd : NodeData}
    (h : t.leafAt pos = some nd) : nd ∈ t.leafData := by
  induction t generalizing pos with
  | mk nd' kids ih =>
      cases hleaf : nd'.isLeaf with
      | true =>
          cases pos with
          | nil =>
              rw [leafAt_nil_leaf hleaf, Option.some.injEq] at h
              rw [leafData_leaf hleaf, h]
              exact List.mem_singleton_self nd
          | cons i pos => simp [leafAt, hleaf] at h
      | false =>
          cases pos with
          | nil => simp [leafAt, hleaf] at h
          | cons i pos =>
              rw [leafAt_cons_node hleaf, Option.bind_eq_some_iff] at h
              obtain ⟨k, hk, hat⟩ := h
              have hmem := List.mem_of_getElem? hk
              rw [leafData_node hleaf]
              exact List.mem_flatMap.mpr ⟨k, hmem, ih k hmem hat⟩

theorem exists_leafAt_of_mem {t : CNode} {nd : NodeData} (h : nd ∈ t.leafData) :
    ∃ pos, t.leafAt pos = some nd := by
  induction t with
  | mk nd' kids ih =>
      cases hleaf : nd'.isLeaf with
      | true =>
          rw [leafData_leaf hleaf] at h
          obtain rfl := List.mem_singleton.mp h
          exact ⟨[], leafAt_nil_leaf hleaf⟩
      | false =>
          rw [leafData_node hleaf] at h
          obtain ⟨k, hmem, hnd⟩ := List.mem_flatMap.mp h
          obtain ⟨pos, hpos⟩ := ih k hmem hnd
          obtain ⟨i, hi⟩ := List.mem_iff_getElem?.mp hmem
          exact ⟨i :: pos, by rw [leafAt_cons_node hleaf, hi, Option.bind_some, hpos]⟩

end Positions

/-! ## What growing leaves behind -/

theorem minOver_le {kids : List CNode} {k : CNode} (h : k ∈ kids) :
    minOver kids ≤ k.data.minCases := by
  unfold minOver
  suffices hfold : ∀ (ks : List CNode) (m : ℤ),
      ks.foldl (fun m c => min m c.data.minCases) m ≤ m ∧
        ∀ k ∈ ks, ks.foldl (fun m c => min m c.data.minCases) m ≤ k.data.minCases from
    (hfold kids intMax).2 k h
  intro ks
  induction ks with
  | nil => exact fun m => ⟨Int.le_refl m, by simp⟩
  | cons k ks ih =>
      intro m
      obtain ⟨hstart, hall⟩ := ih (min m k.data.minCases)
      rw [List.foldl_cons]
      refine ⟨Int.le_trans hstart (Int.min_le_left ..), fun k' hk' => ?_⟩
      rcases List.mem_cons.mp hk' with rfl | hmem
      · exact Int.le_trans hstart (Int.min_le_right ..)
      · exact hall k' hmem

/-- The minimum over the children is attained, unless all of them are above
`intMax`: then it is `intMax`, which no child has. -/
theorem exists_minOver_eq {kids : List CNode} (h : ∃ k ∈ kids, k.data.minCases ≤ intMax) :
    ∃ k ∈ kids, minOver kids = k.data.minCases := by
  unfold minOver
  suffices hfold : ∀ (ks : List CNode) (m : ℤ),
      ks.foldl (fun m c => min m c.data.minCases) m = m ∨
        ∃ k ∈ ks, ks.foldl (fun m c => min m c.data.minCases) m = k.data.minCases by
    rcases hfold kids intMax with heq | hsome
    · obtain ⟨k, hk, hle⟩ := h
      have := minOver_le hk
      unfold minOver at this
      exact ⟨k, hk, by omega⟩
    · exact hsome
  intro ks
  induction ks with
  | nil => exact fun m => .inl rfl
  | cons k ks ih =>
      intro m
      rw [List.foldl_cons]
      rcases ih (min m k.data.minCases) with heq | ⟨k', hk', heq⟩
      · rcases Int.le_total m k.data.minCases with hle | hle
        · exact .inl (heq.trans (Int.min_eq_left hle))
        · exact .inr ⟨k, List.mem_cons_self .., heq.trans (Int.min_eq_right hle)⟩
      · exact .inr ⟨k', List.mem_cons_of_mem _ hk', heq⟩

/-- The node is **grown** below the options `seen` from at most `n` configurations:
its children carry their numbers, no option is tested twice on a path, a leaf tests
none, and every node knows the number of cases in its smallest leaf.

The bound `n` is on the configurations a leaf was grown from.  It does not move when
configurations are added, which are counted apart, and with a bound on the calls it gives
the bound on `cases` that `Grown.isLeast` asks for. -/
inductive Grown (dom : Domain) (n : ℕ) : Set ℕ → CNode → Prop
  | leaf {seen : Set ℕ} {nd : NodeData} (isLeaf : nd.isLeaf = true) (splitvar : nd.splitvar = -1)
      (total : nd.nTotal ≤ n) (minCases : nd.minCases = nd.cases) : Grown dom n seen (.mk nd [])
  | node {seen : Set ℕ} {nd : NodeData} {kids : List CNode} {var : ℕ} (isLeaf : nd.isLeaf = false)
      (splitvar : nd.splitvar = var) (lt : var < dom.nVars) (fresh : var ∉ seen)
      (length : kids.length = dom.nValues var)
      (id : ∀ (i : ℕ) (k : CNode), kids[i]? = some k → k.data.id = i)
      (minCases : nd.minCases = minOver kids)
      (kid : ∀ k ∈ kids, Grown dom n (insert var seen) k) : Grown dom n seen (.mk nd kids)

namespace Grown

variable {dom : Domain} {n : ℕ} {seen : Set ℕ} {t : CNode}

theorem total_le (h : t.Grown dom n seen) : ∀ nd ∈ t.leafData, nd.nTotal ≤ n := by
  induction h with
  | leaf hleaf _ htotal _ =>
      intro nd hnd
      rw [leafData_leaf hleaf] at hnd
      rwa [List.mem_singleton.mp hnd]
  | node hleaf _ _ _ _ _ _ _ ih =>
      intro nd hnd
      rw [leafData_node hleaf] at hnd
      obtain ⟨k, hk, hmem⟩ := List.mem_flatMap.mp hnd
      exact ih k hk nd hmem

/-- **The minimum over the leaves.** -/
theorem isLeast (h : t.Grown dom n seen) (hint : ∀ nd ∈ t.leafData, (nd.cases : ℤ) ≤ intMax) :
    IsLeast {m : ℤ | ∃ nd ∈ t.leafData, m = nd.cases} t.data.minCases := by
  induction h with
  | leaf hleaf _ _ hmin =>
      rw [data_mk, leafData_leaf hleaf, hmin]
      refine ⟨⟨_, List.mem_singleton_self _, rfl⟩, ?_⟩
      rintro m ⟨nd', hnd', rfl⟩
      rw [List.mem_singleton.mp hnd']
  | @node seen nd kids var hleaf _ hlt _ hlen _ hmin _ ih =>
      rw [leafData_node hleaf] at hint ⊢
      have hkid : ∀ k ∈ kids, ∀ nd' ∈ k.leafData, (nd'.cases : ℤ) ≤ intMax :=
        fun k hk nd' hnd' => hint nd' (List.mem_flatMap.mpr ⟨k, hk, hnd'⟩)
      -- there is a child, and the minimum of each child is one of its leaves
      have hpos : 0 < kids.length := by
        rw [hlen]
        exact dom.nValues_pos hlt
      obtain ⟨nd₀, hnd₀, heq₀⟩ := (ih _ (List.getElem_mem hpos) (hkid _ (List.getElem_mem hpos))).1
      obtain ⟨k, hk, hmink⟩ := exists_minOver_eq
        ⟨_, List.getElem_mem hpos, heq₀ ▸ hkid _ (List.getElem_mem hpos) nd₀ hnd₀⟩
      rw [data_mk, hmin]
      constructor
      · obtain ⟨nd', hnd', heq⟩ := (ih k hk (hkid k hk)).1
        exact ⟨nd', List.mem_flatMap.mpr ⟨k, hk, hnd'⟩, hmink.trans heq⟩
      · rintro m ⟨nd', hnd', rfl⟩
        obtain ⟨k', hk', hmem⟩ := List.mem_flatMap.mp hnd'
        exact Int.le_trans (minOver_le hk') ((ih k' hk' (hkid k' hk')).2 ⟨nd', hmem, rfl⟩)

end Grown

end CNode

/-! ## `evaluate_split` -/

theorem SubRange.size_le {r r' : SubRange} (hbeg : r.beg ≤ r'.beg) (hstop : r'.stop ≤ r.stop) :
    r'.size ≤ r.size := by
  unfold SubRange.size
  omega

section Evaluate

variable {dom : Domain} {select : Selector} {params : SplitParams}

/-- What becomes of a node that has just been made: it is grown, keeps its number, and its
leaves hold no new configurations.

It is said for every set `seen` of options that the node has marked as tested, since the
induction meets the children with larger sets. -/
def BecomesGrown (dom : Domain) (nd : NodeData) (t : CNode) : Prop :=
  nd.splitvar = -1 → nd.newConfigs = [] → ∀ (n : ℕ) (seen : Set ℕ), nd.nTotal ≤ n →
    (∀ v ∈ seen, nd.testedVars[v]? = some true) →
    t.Grown dom n seen ∧ t.data.id = nd.id ∧ ∀ nd' ∈ t.leafData, nd'.newConfigs = []

theorem BecomesGrown.leaf {nd : NodeData} (hleaf : nd.isLeaf = true) :
    BecomesGrown dom nd (.mk { nd with minCases := nd.nTotal } []) := by
  intro hsplit hnew n seen htotal _
  have hleaf' : { nd with minCases := (nd.nTotal : ℤ) }.isLeaf = true := hleaf
  refine ⟨.leaf hleaf hsplit htotal ?_, rfl, fun nd' hnd' => ?_⟩
  · simp [NodeData.cases, hnew, NodeData.nTotal, NodeData.nHits, NodeData.nMisses]
  · rw [CNode.leafData_leaf hleaf'] at hnd'
    rwa [List.mem_singleton.mp hnd']

theorem BecomesGrown.node {nd : NodeData} {vecs vecs₁ vecs₂ : Vecs} {var : ℕ}
    {ranges : ℕ → Arr2 SubRange} {ks : List CNode}
    (h : SplitInto dom (fun nd _ t _ => BecomesGrown dom nd t) nd vecs var ranges vecs₁ ks vecs₂) :
    BecomesGrown dom nd (.mk { nd.split var with minCases := minOver ks } ks) := by
  intro _ hnew n seen htotal hseen
  have hleaf' : { nd.split var with minCases := minOver ks }.isLeaf = false := h.mixed
  have hkid : ∀ (i : ℕ) (k : CNode), ks[i]? = some k →
      k.Grown dom n (insert var seen) ∧ k.data.id = i ∧
        ∀ nd' ∈ k.leafData, nd'.newConfigs = [] := by
    intro i k hk
    obtain ⟨hi, hgrown⟩ := forall₂_range h.grown hk
    refine hgrown rfl rfl n _ ?_ ?_
    · -- the ranges of the child lie inside those of the node
      have hbounds := fun s => (h.parted s).tiled.bounds
        (List.mem_map.mpr ⟨i, List.mem_range.mpr hi, rfl⟩)
      have hm := SubRange.size_le (hbounds false).1 (hbounds false).2.2
      have hh := SubRange.size_le (hbounds true).1 (hbounds true).2.2
      exact Nat.le_trans (Nat.add_le_add hh hm) htotal
    · intro w hw
      show (nd.testedVars.set var true)[w]? = some true
      rw [List.getElem?_set]
      split
      · rw [if_pos (List.getElem?_eq_some_iff.mp h.untested).1]
      · next hne => exact hseen w ((Set.mem_insert_iff.mp hw).resolve_left (Ne.symm hne))
  refine ⟨.node h.mixed rfl h.lt ?_ ?_ (fun i k hk => (hkid i k hk).2.1) rfl ?_, rfl, ?_⟩
  · intro hmem
    have htested := hseen var hmem
    rw [h.untested] at htested
    cases htested
  · simpa using h.grown.length_eq.symm
  · intro k hk
    obtain ⟨i, hi⟩ := List.mem_iff_getElem?.mp hk
    exact (hkid i k hi).1
  · intro nd' hnd'
    rw [CNode.leafData_node hleaf'] at hnd'
    obtain ⟨k, hk, hmem⟩ := List.mem_flatMap.mp hnd'
    obtain ⟨i, hi⟩ := List.mem_iff_getElem?.mp hk
    exact (hkid i k hi).2.2 nd' hmem

/-- **`evaluate_split` grows the node** and keeps its number. -/
theorem evaluateSplit_grown (fuel : ℕ) {nd : NodeData} {vecs : Vecs}
    (h : Ready dom nd vecs) (hfuel : nd.testedVars.count false < fuel) {r : CNode × Vecs}
    (hrun : evaluateSplit dom select params fuel nd vecs = .ok r) : BecomesGrown dom nd r.1 :=
  ((evaluateSplit_rule (F := fun nd _ t _ => BecomesGrown dom nd t) ⟨fun _ h => h, fun h _ => h⟩
    (fun _ _ _ hleaf => .leaf hleaf) (fun _ _ _ _ _ _ _ hsplit _ => .node hsplit) fuel h
    hfuel).of_eq_ok hrun).1

/-- **`build_tree` grows a root.** -/
theorem CTree.buildTree_grown {tree tree' : CTree}
    (hc : ∀ s, ∀ c ∈ tree.configs.get s, c.Complete dom)
    (h : tree.buildTree dom select = .ok tree') :
    ∃ root, tree'.root = some root ∧
      root.Grown dom (tree.configs.hit.length + tree.configs.miss.length) ∅ ∧
        ∀ nd ∈ root.leafData, nd.newConfigs = [] := by
  obtain ⟨⟨root, vecs⟩, hrun, heq⟩ := bind_eq_ok.mp h
  cases heq
  have hgrown := evaluateSplit_grown (dom.nVars + 1) (ready_root hc)
    (by rw [count_root]; exact Nat.lt_succ_self _) hrun rfl rfl
    (tree.configs.hit.length + tree.configs.miss.length) ∅ (Nat.le_refl _)
    fun v hv => absurd hv (Set.notMem_empty v)
  exact ⟨root, rfl, hgrown.1, hgrown.2.2⟩

end Evaluate

/-! ## `test_add_config` -/

/-- The leaf after `test_add_config(c, val)`: it keeps the configuration when it has
the truth value `val`. -/
def NodeData.added (d : Bool) (c : Config) (val : Bool) (nd : NodeData) : NodeData :=
  if nd.leafValue d = val then
    { nd with minCases := nd.minCases + 1, newConfigs := nd.newConfigs ++ [c] }
  else nd

@[simp] theorem NodeData.added_isLeaf (d : Bool) (c : Config) (val : Bool) (nd : NodeData) :
    (nd.added d c val).isLeaf = nd.isLeaf := by
  unfold NodeData.added
  split <;> rfl

@[simp] theorem NodeData.added_leafValue (d : Bool) (c : Config) (val : Bool) (nd : NodeData) :
    (nd.added d c val).leafValue d = nd.leafValue d := by
  unfold NodeData.added
  split <;> rfl

namespace CNode

variable {dom : Domain} {n : ℕ} {seen : Set ℕ} {t t' : CNode} {d val : Bool} {c : Config}

/-- The node `t'` differs from `t` in the leaf at the position `pos` only, which has
been tested with `c`.

`leafAt` is the frame: it says of every position what is there now.  It does not show what
the inner nodes test; the last two clauses say that they decide as before. -/
structure Added (d : Bool) (c : Config) (val : Bool) (pos : List ℕ) (t t' : CNode) : Prop where
  walk : t.leafPos c = .ok pos
  leafAt : ∀ p, t'.leafAt p =
    (t.leafAt p).map fun nd => if p = pos then nd.added d c val else nd
  leafPos : ∀ c', t'.leafPos c' = t.leafPos c'
  testConfig : ∀ c', t'.testConfig d c' = t.testConfig d c'

theorem testAddConfigAt_eq (kids : List CNode) (i : ℕ) :
    testAddConfigAt d c val kids i = vecAt kids i >>= fun k =>
      k.testAddConfig d c val >>= fun r => .ok (r.1, kids.set i r.2) := by
  induction kids generalizing i with
  | nil => rfl
  | cons k ks ih =>
      cases i with
      | zero => rfl
      | succ i =>
          rw [testAddConfigAt, ih]
          show _ = vecAt ks i >>= _
          cases vecAt ks i with
          | error e => rfl
          | ok k' =>
              simp only [ok_bind]
              cases k'.testAddConfig d c val <;> rfl

/-- A leaf that is tested. -/
theorem Added.leaf {nd : NodeData} (h : nd.isLeaf = true) :
    Added d c val [] (.mk nd []) (.mk (nd.added d c val) []) where
  walk := leafPos_leaf h
  leafAt p := by
    have h' : (nd.added d c val).isLeaf = true := by rw [NodeData.added_isLeaf, h]
    cases p with
    | nil => rw [leafAt_nil_leaf h, leafAt_nil_leaf h', Option.map_some, if_pos rfl]
    | cons i p => simp [CNode.leafAt, h]
  leafPos c' := by
    rw [leafPos_leaf h, leafPos_leaf (by rw [NodeData.added_isLeaf, h])]
  testConfig c' := by
    have h' : (nd.added d c val).isLeaf = true := by rw [NodeData.added_isLeaf, h]
    rw [CNode.testConfig, CNode.testConfig, if_pos h, if_pos h', NodeData.added_leafValue]
    unfold NodeData.added
    split <;> rfl

/-- The child `i` is tested, and the minimum of the node is recomputed. -/
theorem Added.node {nd : NodeData} {kids : List CNode} {i : ℕ} {k k' : CNode} {pos : List ℕ}
    (hleaf : nd.isLeaf = false) (hbranch : branch nd c = .ok i) (hk : kids[i]? = some k)
    (h : Added d c val pos k k') (minCases : ℤ) :
    Added d c val (i :: pos) (.mk nd kids) (.mk { nd with minCases } (kids.set i k')) := by
  have hleaf' : NodeData.isLeaf { nd with minCases } = false := hleaf
  have hlt := (List.getElem?_eq_some_iff.mp hk).1
  constructor
  · rw [leafPos_node hleaf, hbranch, ok_bind, vecAt_of_getElem? hk, ok_bind, h.walk, ok_bind]
  · intro p
    cases p with
    | nil => simp [CNode.leafAt, hleaf, hleaf']
    | cons j p =>
        rw [leafAt_cons_node hleaf, leafAt_cons_node hleaf', List.getElem?_set]
        by_cases hij : i = j
        · subst hij
          rw [if_pos rfl, if_pos hlt, hk, Option.bind_some, Option.bind_some, h.leafAt p]
          simp only [List.cons.injEq, true_and]
        · rw [if_neg hij]
          have hne : ∀ p, j :: p ≠ i :: pos := fun p heq => hij (List.cons.inj heq).1.symm
          simp only [hne, if_false]
          cases kids[j]? with
          | none => rfl
          | some k'' => simp
  · intro c'
    rw [leafPos_node hleaf, leafPos_node hleaf']
    show branch nd c' >>= _ = branch nd c' >>= _
    cases branch nd c' with
    | error e => rfl
    | ok j =>
        simp only [ok_bind, vecAt, List.getElem?_set]
        by_cases hij : i = j
        · subst hij
          simp only [if_true, if_pos hlt, hk, ok_bind, h.leafPos c']
        · rw [if_neg hij]
  · intro c'
    rw [testConfig_node hleaf, testConfig_node hleaf']
    show branch nd c' >>= _ = branch nd c' >>= _
    cases branch nd c' with
    | error e => rfl
    | ok j =>
        simp only [ok_bind, vecAt, List.getElem?_set]
        by_cases hij : i = j
        · subst hij
          simp only [if_true, if_pos hlt, hk, ok_bind, h.testConfig c']
        · rw [if_neg hij]

theorem branch_error {nd : NodeData} {var : ℕ} (hvar : nd.splitvar = var) {e : Abort}
    (h : branch nd c = .error e) : e = .outOfRange := by
  have hne : nd.splitvar ≠ -1 := by omega
  rw [branch, check_pos hne, ok_bind, hvar, sizeT_natCast, ok_bind, Config.get, vecAt] at h
  split at h
  · rw [ok_bind, sizeT] at h
    split at h
    · cases h
    · cases h
      rfl
  · cases h
    rfl

/-- **One call of `test_add_config`.**  It changes the leaf its walk ends at, keeps
the numbers right, and stops only when a value of the configuration has no child.
In particular its `CHECK_EQ` does not fire. -/
theorem Grown.testAddConfig (h : t.Grown dom n seen) (d val : Bool) (c : Config) :
    Meets (t.testAddConfig d c val)
      (fun r => r.2.Grown dom n seen ∧ r.2.data.id = t.data.id ∧
        t.testConfig d c = .ok r.1 ∧ ∃ pos, Added d c val pos t r.2)
      (fun e => e = .outOfRange ∧ ¬ c.Complete dom) := by
  induction h with
  | @leaf seen nd hleaf hsplit htotal hmin =>
      have htest : CNode.testConfig d c (mk nd []) = .ok (nd.leafValue d, nd.nTotal) := by
        rw [CNode.testConfig, if_pos hleaf]
      have hadd := @Added.leaf d val c nd hleaf
      rw [CNode.testAddConfig, if_pos hleaf]
      dsimp only
      unfold NodeData.added at hadd
      split
      · next hval =>
          rw [if_pos hval] at hadd
          have hcases : nd.minCases + 1 =
              ((nd.nTotal + (nd.newConfigs ++ [c]).length : ℕ) : ℤ) := by
            rw [hmin, NodeData.cases, List.length_append, List.length_singleton]
            omega
          refine meets_check_bind (fun _ => ?_) fun hne => absurd hcases hne
          exact ⟨.leaf hleaf hsplit htotal hcases, rfl, htest, [], hadd⟩
      · next hval =>
          rw [if_neg hval] at hadd
          exact ⟨.leaf hleaf hsplit htotal hmin, rfl, htest, [], hadd⟩
  | @node seen nd kids var hleaf hvar hlt hfresh hlen hid hmin hkid ih =>
      rw [CNode.testAddConfig, if_neg (by simp [hleaf])]
      cases hbranch : branch nd c with
      | error e =>
          refine ⟨branch_error hvar hbranch, fun hc => ?_⟩
          rw [branch_eq hc hvar hlt] at hbranch
          cases hbranch
      | ok i =>
          rw [ok_bind, testAddConfigAt_eq]
          cases hk : kids[i]? with
          | none =>
              rw [vecAt, hk]
              refine ⟨rfl, fun hc => ?_⟩
              rw [branch_eq hc hvar hlt] at hbranch
              cases hbranch
              have := List.getElem?_eq_none_iff.mp hk
              have := hc.val_lt hlt
              omega
          | some k =>
              rw [vecAt_of_getElem? hk, ok_bind]
              have hmem := List.mem_of_getElem? hk
              have hkids : Meets (k.testAddConfig d c val >>= fun r => .ok (r.1, kids.set i r.2))
                  (fun r => ∃ k', r.2 = kids.set i k' ∧ k'.Grown dom n (insert var seen) ∧
                    k'.data.id = k.data.id ∧ CNode.testConfig d c k = .ok r.1 ∧
                    ∃ pos, Added d c val pos k k')
                  (fun e => e = .outOfRange ∧ ¬ c.Complete dom) :=
                meets_bind (ih k hmem) fun r hr => ⟨r.2, rfl, hr⟩
              refine meets_bind hkids ?_
              rintro ⟨res, ks⟩ ⟨k', hset, hgrown, hidk, htest, pos, hadd⟩
              dsimp only at hset
              subst hset
              refine ⟨.node hleaf hvar hlt hfresh (by rw [List.length_set, hlen]) ?_ rfl ?_, rfl,
                ?_, i :: pos, .node hleaf hbranch hk hadd _⟩
              · intro j k'' hk''
                rw [List.getElem?_set] at hk''
                split at hk''
                · next hij =>
                    subst hij
                    rw [if_pos (List.getElem?_eq_some_iff.mp hk).1, Option.some.injEq] at hk''
                    rw [← hk'', hidk]
                    exact hid i k hk
                · exact hid j k'' hk''
              · intro k'' hk''
                rcases List.mem_or_eq_of_mem_set hk'' with hold | rfl
                · exact hkid k'' hold
                · exact hgrown
              · rw [testConfig_node hleaf, hbranch, ok_bind, vecAt_of_getElem? hk, ok_bind, htest]

/-! ## Gathering leaves -/

mutual

/-- Pointers to all leaves, from left to right. -/
def leafRefs : List NodeData → CNode → List NodeRef
  | parents, mk nd kids =>
      if nd.isLeaf then [⟨mk nd kids, parents⟩] else leafRefsKids (nd :: parents) kids

/-- Pointers to the leaves of all children. -/
def leafRefsKids : List NodeData → List CNode → List NodeRef
  | _, [] => []
  | parents, k :: ks => leafRefs parents k ++ leafRefsKids parents ks

end

@[simp] theorem leafRefsKids_eq (parents : List NodeData) (kids : List CNode) :
    leafRefsKids parents kids = kids.flatMap (leafRefs parents) := by
  induction kids with
  | nil => rfl
  | cons k ks ih => simp [leafRefsKids, ih]

theorem leafRefs_leaf {nd : NodeData} {kids : List CNode} (h : nd.isLeaf = true)
    (parents : List NodeData) : leafRefs parents (mk nd kids) = [⟨mk nd kids, parents⟩] := by
  rw [leafRefs, if_pos h]

theorem leafRefs_node {nd : NodeData} {kids : List CNode} (h : nd.isLeaf = false)
    (parents : List NodeData) :
    leafRefs parents (mk nd kids) = kids.flatMap (leafRefs (nd :: parents)) := by
  rw [leafRefs, if_neg (by simp [h]), leafRefsKids_eq]

/-- The number of cases of a leaf is in an interval. -/
def InCases (minConfs maxConfs : ℤ) (r : NodeRef) : Bool :=
  decide (minConfs ≤ r.node.data.minCases ∧ r.node.data.minCases ≤ maxConfs)

theorem gatherChilds_eq {minConfs maxConfs : ℤ} {parents : List NodeData} {kids : List CNode}
    (h : ∀ k ∈ kids, gatherLeavesNodes minConfs maxConfs parents k =
      .ok ((k.leafRefs parents).filter (InCases minConfs maxConfs))) :
    gatherChilds minConfs maxConfs parents kids =
      .ok ((kids.flatMap (leafRefs parents)).filter (InCases minConfs maxConfs)) := by
  induction kids with
  | nil => rfl
  | cons k ks ih =>
      rw [gatherChilds, h k (List.mem_cons_self ..), ok_bind,
        ih fun k' hk' => h k' (List.mem_cons_of_mem _ hk'), ok_bind, List.flatMap_cons,
        List.filter_append]

/-- **`gather_leaves_nodes`** returns the leaves in the interval. -/
theorem Grown.gatherLeavesNodes_eq (h : t.Grown dom n seen) (minConfs maxConfs : ℤ)
    (parents : List NodeData) : gatherLeavesNodes minConfs maxConfs parents t =
      .ok ((t.leafRefs parents).filter (InCases minConfs maxConfs)) := by
  induction h generalizing parents with
  | @leaf seen nd hleaf _ _ _ =>
      rw [gatherLeavesNodes, if_pos hleaf, leafRefs_leaf hleaf]
      split
      · next hin =>
          have hmem : InCases minConfs maxConfs ⟨.mk nd [], parents⟩ = true := decide_eq_true hin
          rw [List.filter_cons_of_pos hmem, List.filter_nil]
      · next hout =>
          have hmem : ¬ InCases minConfs maxConfs ⟨.mk nd [], parents⟩ = true :=
            decide_eq_true_iff.not.mpr hout
          rw [List.filter_cons_of_neg hmem, List.filter_nil]
  | @node seen nd kids var hleaf hvar _ _ _ _ _ _ ih =>
      have hne : nd.splitvar ≠ -1 := by omega
      rw [gatherLeavesNodes, if_neg (by simp [hleaf]), check_pos hne, ok_bind, leafRefs_node hleaf]
      exact gatherChilds_eq fun k hk => ih k hk _

theorem exists_leafRef_of_mem {nd : NodeData} (h : nd ∈ t.leafData) (parents : List NodeData) :
    ∃ r ∈ t.leafRefs parents, r.node.data = nd := by
  induction t generalizing parents with
  | mk nd' kids ih =>
      cases hleaf : nd'.isLeaf with
      | true =>
          rw [leafData_leaf hleaf] at h
          rw [leafRefs_leaf hleaf]
          exact ⟨_, List.mem_singleton_self _, (List.mem_singleton.mp h).symm⟩
      | false =>
          rw [leafData_node hleaf] at h
          obtain ⟨k, hk, hmem⟩ := List.mem_flatMap.mp h
          obtain ⟨r, hr, heq⟩ := ih k hk hmem (nd' :: parents)
          rw [leafRefs_node hleaf]
          exact ⟨r, List.mem_flatMap.mpr ⟨k, hk, hr⟩, heq⟩

theorem Grown.minCases_eq (h : t.Grown dom n seen) : ∀ nd ∈ t.leafData, nd.minCases = nd.cases := by
  induction h with
  | leaf hleaf _ _ hmin =>
      intro nd hnd
      rw [leafData_leaf hleaf] at hnd
      rwa [List.mem_singleton.mp hnd]
  | node hleaf _ _ _ _ _ _ _ ih =>
      intro nd hnd
      rw [leafData_node hleaf] at hnd
      obtain ⟨k, hk, hmem⟩ := List.mem_flatMap.mp hnd
      exact ih k hk nd hmem

/-- The smallest leaf is in every interval that its number of cases is in.  So `run_one_loc`,
which asks for leaves of one case more than the minimum or less, always finds one. -/
theorem Grown.gatherLeavesNodes_ne_nil (h : t.Grown dom n seen)
    (hint : ∀ nd ∈ t.leafData, (nd.cases : ℤ) ≤ intMax) (parents : List NodeData) :
    ∃ leaves, gatherLeavesNodes 0 (t.data.minCases + 1) parents t = .ok leaves ∧ leaves ≠ [] := by
  refine ⟨_, h.gatherLeavesNodes_eq _ _ parents, ?_⟩
  obtain ⟨⟨nd, hnd, heq⟩, -⟩ := h.isLeast hint
  obtain ⟨r, hr, hdata⟩ := exists_leafRef_of_mem hnd parents
  refine List.ne_nil_of_mem (List.mem_filter.mpr ⟨hr, ?_⟩)
  have := h.minCases_eq nd hnd
  rw [InCases, hdata, decide_eq_true_iff]
  omega

end CNode

/-! ## Sequences of calls -/

/-- A leaf with more configurations. -/
def NodeData.addAll (nd : NodeData) (cs : List Config) : NodeData :=
  { nd with minCases := nd.minCases + (cs.length : ℤ), newConfigs := nd.newConfigs ++ cs }

@[simp] theorem NodeData.addAll_nil (nd : NodeData) : nd.addAll [] = nd := by
  simp [NodeData.addAll]

theorem NodeData.added_addAll (d : Bool) (c : Config) (val : Bool) (nd : NodeData)
    (cs : List Config) : (nd.addAll cs).added d c val =
      nd.addAll (cs ++ if nd.leafValue d = val then [c] else []) := by
  have hval : (nd.addAll cs).leafValue d = nd.leafValue d := rfl
  unfold NodeData.added
  rw [hval]
  split
  · simp [NodeData.addAll, Int.add_assoc]
  · rw [List.append_nil]

namespace CTree

/-- A sequence of calls of `test_add_config`. -/
def testAddAll (tree : CTree) (calls : List (Config × Bool)) : Except Abort CTree :=
  calls.foldlM (fun tree p => do
    let (_, tree) ← tree.testAddConfig p.1 p.2
    .ok tree) tree

section Calls

variable {dom : Domain} {select : Selector} {tree t : CTree}

/-- The calls that lead to the position `pos` with the truth value of the leaf `nd`. -/
def callsAt (root : CNode) (d : Bool) (pos : List ℕ) (nd : NodeData)
    (calls : List (Config × Bool)) : List Config :=
  (calls.filter fun p => decide (root.leafPos p.1 = .ok pos ∧ p.2 = nd.leafValue d)).map Prod.fst

/-- The tree `t` has become `t'` by the calls.  Everything is in terms of the root before all
of them, so that one more call only lengthens the list. -/
structure AddedAll (dom : Domain) (n : ℕ) (t : CTree) (calls : List (Config × Bool))
    (root : CNode) (t' : CTree) : Prop where
  root_eq : ∃ root', t'.root = some root' ∧ root'.Grown dom n ∅ ∧
    (∀ c, root'.leafPos c = root.leafPos c) ∧
    (∀ c, root'.testConfig t.defaultHit c = root.testConfig t.defaultHit c) ∧
    ∀ pos, root'.leafAt pos =
      (root.leafAt pos).map fun nd => nd.addAll (callsAt root t.defaultHit pos nd calls)
  defaultHit : t'.defaultHit = t.defaultHit

theorem callsAt_concat (root : CNode) (d : Bool) (pos : List ℕ) (nd : NodeData)
    (calls : List (Config × Bool)) (c : Config) (val : Bool) :
    callsAt root d pos nd (calls ++ [(c, val)]) = callsAt root d pos nd calls ++
      if root.leafPos c = .ok pos ∧ val = nd.leafValue d then [c] else [] := by
  rw [callsAt, List.filter_append, List.map_append, callsAt, List.filter_singleton]
  by_cases h : root.leafPos c = .ok pos ∧ val = nd.leafValue d
  · simp only [h, and_self, decide_true, cond_true, List.map_cons, List.map_nil, if_true]
  · simp only [h, decide_false, cond_false, List.map_nil, if_false]

/-- The calls one after the other. -/
theorem testAddAll_meets {root : CNode} {n : ℕ} (hroot : t.root = some root)
    (hgrown : root.Grown dom n ∅) (calls : List (Config × Bool)) :
    Meets (t.testAddAll calls) (AddedAll dom n t calls root)
      (fun e => e = .outOfRange ∧ ∃ p ∈ calls, ¬ p.1.Complete dom) := by
  unfold testAddAll
  refine meets_foldlM (AddedAll dom n t · root) calls ?_ ?_
  · rintro done ⟨c, val⟩ rest t₁ hsplit ⟨⟨root₁, hroot₁, hgrown₁, hpos, htest, hat⟩, hhit⟩
    rw [CTree.testAddConfig, rootNode, hroot₁, ok_bind, hhit]
    refine meets_bind (meets_bind ((hgrown₁.testAddConfig t.defaultHit val c).mono
      (fun _ h => h) ?_) ?_) (Q := fun r : (Bool × ℕ) × CTree =>
        AddedAll dom n t (done ++ [(c, val)]) root r.2) fun r hr => hr
    · rintro e ⟨rfl, hc⟩
      exact ⟨rfl, (c, val), by rw [hsplit]; simp, hc⟩
    · rintro ⟨res, root₂⟩ ⟨hgrown₂, -, -, pos, hadd⟩
      refine ⟨⟨root₂, rfl, hgrown₂, fun c' => (hadd.leafPos c').trans (hpos c'),
        fun c' => (hadd.testConfig c').trans (htest c'), fun p => ?_⟩, rfl⟩
      -- the leaf at `p` is the one the call leads to, or it is left alone
      have hwalk : root.leafPos c = .ok pos := (hpos c).symm.trans hadd.walk
      rw [hadd.leafAt, hat]
      cases root.leafAt p with
      | none => rfl
      | some nd =>
          simp only [Option.map_some, callsAt_concat, hwalk, Except.ok.injEq, Option.some.injEq]
          by_cases hp : p = pos
          · simp only [hp, if_true, NodeData.added_addAll, true_and, eq_comm (a := val)]
          · simp only [hp, if_false, Ne.symm hp, false_and, List.append_nil]
  · refine ⟨⟨root, hroot, hgrown, fun _ => rfl, fun _ => rfl, fun pos => ?_⟩, rfl⟩
    cases root.leafAt pos <;> simp [callsAt]

end Calls

end CTree

namespace CNode

variable {dom : Domain} {n : ℕ} {seen : Set ℕ} {t : CNode}

theorem Grown.nodeAt (h : t.Grown dom n seen) {pos : List ℕ} {k : CNode}
    (hk : t.nodeAt pos = some k) : ∃ seen', k.Grown dom n seen' := by
  induction pos generalizing t seen with
  | nil =>
      rw [CNode.nodeAt, Option.some.injEq] at hk
      exact ⟨seen, hk ▸ h⟩
  | cons i pos ih =>
      rw [CNode.nodeAt, Option.bind_eq_some_iff] at hk
      obtain ⟨k', hk', hnode⟩ := hk
      cases h with
      | leaf => simp at hk'
      | node _ _ _ _ _ _ _ hkid => exact ih (hkid k' (List.mem_of_getElem? hk')) hnode

/-- The leaves below a node are leaves of the tree. -/
theorem Grown.leafData_nodeAt (h : t.Grown dom n seen) {pos : List ℕ} {k : CNode}
    (hk : t.nodeAt pos = some k) : k.leafData ⊆ t.leafData := by
  induction pos generalizing t seen with
  | nil =>
      rw [CNode.nodeAt, Option.some.injEq] at hk
      rw [hk]
      exact fun _ hnd => hnd
  | cons i pos ih =>
      rw [CNode.nodeAt, Option.bind_eq_some_iff] at hk
      obtain ⟨k', hk', hnode⟩ := hk
      cases h with
      | leaf => simp at hk'
      | node hleaf _ _ _ _ _ _ hkid =>
          have hmem := List.mem_of_getElem? hk'
          intro nd hnd
          rw [leafData_node hleaf]
          exact List.mem_flatMap.mpr ⟨k', hmem, ih (hkid k' hmem) hnode hnd⟩

end CNode

namespace CTree

variable {dom : Domain} {select : Selector} {tree t : CTree}

/-- The tree `t` after a sequence of calls of `test_add_config`. -/
structure Tallied (t : CTree) (calls : List (Config × Bool)) (t' : CTree) : Prop where
  /-- Every node knows the smallest leaf below it. -/
  minCases : ∃ root, t'.root = some root ∧ ∀ pos k, root.nodeAt pos = some k →
    IsLeast {m : ℤ | ∃ nd ∈ k.leafData, m = nd.cases} k.data.minCases
  /-- A leaf holds what leads to it with its own truth value, in the order of the calls. -/
  newConfigs : ∃ root, t'.root = some root ∧ ∀ pos nd, root.leafAt pos = some nd →
    nd.newConfigs = callsAt root t'.defaultHit pos nd calls
  testConfig : ∀ c, t'.testConfig c = t.testConfig c
  gather : ∃ m leaves, t'.nMinCases = .ok m ∧ t'.gatherNodes [] 0 (m + 1) = .ok leaves ∧
    leaves ≠ []

/-- **The incremental leaf minimum.**  After any sequence of calls of
`test_add_config` on a tree from `build_tree`, every node knows its smallest leaf,
every leaf holds exactly the configurations that lead to it with its own truth
value, `test_config` answers as before, and `run_one_loc` gathers some leaf.  A call
stops only at a value that has no child, never at the `CHECK_EQ`.  The counters are
`int`s. -/
theorem testAddConfig_run (hc : ∀ s, ∀ c ∈ tree.configs.get s, c.Complete dom)
    (hbuild : tree.buildTree dom select = .ok t) (calls : List (Config × Bool))
    (hint : ((tree.configs.hit.length + tree.configs.miss.length + calls.length : ℕ) : ℤ) ≤
      intMax) :
    Meets (t.testAddAll calls) (t.Tallied calls)
      (fun e => e = .outOfRange ∧ ∃ p ∈ calls, ¬ p.1.Complete dom) := by
  obtain ⟨root, hroot, hgrown, hempty⟩ := buildTree_grown hc hbuild
  refine (testAddAll_meets hroot hgrown calls).imp ?_
  rintro t' ⟨⟨root', hroot', hgrown', hpos, htest, hat⟩, hhit⟩
  have hleaf : ∀ pos nd', root'.leafAt pos = some nd' → ∃ nd, root.leafAt pos = some nd ∧
      nd' = nd.addAll (callsAt root t.defaultHit pos nd calls) := by
    intro pos nd' hnd'
    rw [hat, Option.map_eq_some_iff] at hnd'
    obtain ⟨nd, hnd, heq⟩ := hnd'
    exact ⟨nd, hnd, heq.symm⟩
  have hnew : ∀ pos nd, root.leafAt pos = some nd → nd.newConfigs = [] := fun pos nd hnd =>
    hempty nd (CNode.mem_leafData_of_leafAt hnd)
  -- the numbers of cases fit an `int`
  have hcases : ∀ nd' ∈ root'.leafData, (nd'.cases : ℤ) ≤ intMax := by
    intro nd' hnd'
    obtain ⟨pos, hpos'⟩ := CNode.exists_leafAt_of_mem hnd'
    obtain ⟨nd, hnd, rfl⟩ := hleaf pos nd' hpos'
    have htotal := hgrown'.total_le _ hnd'
    have hlen : (callsAt root t.defaultHit pos nd calls).length ≤ calls.length := by
      rw [callsAt, List.length_map]
      exact List.length_filter_le _ _
    have hnil := hnew pos nd hnd
    rw [NodeData.cases]
    simp only [NodeData.addAll, hnil, List.nil_append] at htotal ⊢
    omega
  refine ⟨⟨root', hroot', fun pos k hk => ?_⟩, ⟨root', hroot', fun pos nd' hnd' => ?_⟩,
    fun c => ?_, ?_⟩
  · obtain ⟨seen', hgrownk⟩ := hgrown'.nodeAt hk
    exact hgrownk.isLeast fun nd hnd => hcases nd (hgrown'.leafData_nodeAt hk hnd)
  · obtain ⟨nd, hnd, rfl⟩ := hleaf pos nd' hnd'
    show nd.newConfigs ++ _ = _
    rw [hnew pos nd hnd, List.nil_append, hhit]
    simp only [callsAt, hpos]
    rfl
  · rw [CTree.testConfig, CTree.testConfig, rootNode, rootNode, hroot, hroot', ok_bind, ok_bind,
      hhit, htest]
  · obtain ⟨leaves, hrun, hne⟩ := hgrown'.gatherLeavesNodes_ne_nil hcases []
    refine ⟨root'.data.minCases, leaves, by rw [nMinCases, hroot'], ?_, hne⟩
    rw [gatherNodes, rootNode, hroot', ok_bind, hrun, ok_bind, List.nil_append]

/-- The tree of exclusive or over two switches, and two additions, one of them
with the wrong truth value. -/
theorem testAddConfig_run_xor :
    let dom := Domain.switches 2 (by decide)
    let tree : CTree := { configs :=
      ⟨[{ values := [0, 0] }, { values := [1, 1] }], [{ values := [0, 1] }, { values := [1, 0] }]⟩ }
    let calls : List (Config × Bool) := [({ values := [0, 1] }, true), ({ values := [1, 1] }, true)]
    ∃ t t', tree.buildTree dom .firstUntested = .ok t ∧ t.testAddAll calls = .ok t' ∧
      t.Tallied calls t' := by
  intro dom tree calls
  have hc : ∀ s, ∀ c ∈ tree.configs.get s, c.Complete dom := by decide
  obtain ⟨t, ht, -⟩ := ((buildTree_meets .firstUntested hc).mono (fun _ h => h) fun e he =>
    he.2 ⟨Selector.firstUntested_total, by unfold Apart; decide⟩).exists_ok
  have hrun := testAddConfig_run hc ht calls (by decide)
  obtain ⟨t', ht', htallied⟩ := (hrun.mono (fun _ h => h) fun e he => by
    obtain ⟨-, p, hp, hincomplete⟩ := he
    exact hincomplete ((by decide : ∀ p ∈ calls, p.1.Complete dom) p hp)).exists_ok
  exact ⟨t, t', ht, ht', htallied⟩

end CTree

end GenTree

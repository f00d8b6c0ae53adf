import GenTree.Growth
import Mathlib.Data.List.Pairwise

/-!
# Trees that fit their configurations

`build_tree` puts both configuration vectors whole into the root and grows it.
`CTree.Fits` is what a caller gets: the root is well formed, it is grown from
the two vectors, and its leaves carry the truth values of what they hold.  From
it follow the facts the rest of the program relies on: the tree gives every
configuration it was grown from its own label (`Fits.testConfig_hit`,
`Fits.testConfig_miss`), whatever split variables were chosen.

The faults are explicit.  `build_tree` stops only when no split variable is
found, and it is found whenever the selector is total and no miss has the values
of a hit (`Apart`).
-/

namespace GenTree

open Outcome CountingSort

theorem SubRange.of_full (vec : List Config) : (⟨0, vec.length⟩ : SubRange).of vec = vec := by
  simp [SubRange.of, window]

/-- The ranges of a root: both vectors whole. -/
def fullRanges (vecs : Vecs) : Arr2 SubRange := ⟨⟨0, vecs.miss.length⟩, ⟨0, vecs.hit.length⟩⟩

/-- No miss has the values of a hit. -/
def Apart (vecs : Vecs) : Prop := ∀ m ∈ vecs.miss, ∀ h ∈ vecs.hit, m.values ≠ h.values

section Root

variable {dom : Domain} {vecs : Vecs}

theorem side_root (dom : Domain) (vecs : Vecs) (s : Bool) :
    (NodeData.root dom (fullRanges vecs)).side vecs s = vecs.get s := by
  cases s <;> exact SubRange.of_full _

theorem ready_root (hc : ∀ s, ∀ c ∈ vecs.get s, c.Complete dom) :
    Ready dom (NodeData.root dom (fullRanges vecs)) vecs where
  ordered s := by cases s <;> exact Nat.zero_le _
  inside s := by cases s <;> exact Nat.le_refl _
  complete s c hmem := by
    have hside := side_root dom vecs s
    rw [NodeData.side] at hside
    rw [hside] at hmem
    exact hc s c hmem
  tested := by simp [NodeData.root]

theorem seen_root (ranges : Arr2 SubRange) : (NodeData.root dom ranges).seen = ∅ := by
  ext v
  simp [NodeData.seen, NodeData.root, List.getElem?_replicate]

theorem count_root (ranges : Arr2 SubRange) :
    (NodeData.root dom ranges).testedVars.count false = dom.nVars := by
  simp [NodeData.root]

/-- Complete configurations with different values differ at an option, and the
root has tested none. -/
theorem separated_root (hc : ∀ s, ∀ c ∈ vecs.get s, c.Complete dom) (h : Apart vecs) :
    Separated (NodeData.root dom (fullRanges vecs)) vecs := by
  intro m hm c hmem
  rw [side_root] at hm hmem
  obtain ⟨var, hvar, hne⟩ := (hc false m hm).exists_val_ne (hc true c hmem) (h m hm c hmem)
  exact ⟨var, by simp [NodeData.root, hvar], hne⟩

end Root

/-! ## `build_tree` -/

/-- The root of `tree` **fits** the misses and hits of `vecs`. -/
structure CTree.Fits (dom : Domain) (vecs : Vecs) (tree : CTree) (root : CNode) : Prop where
  root_eq : tree.root = some root
  wf : root.Wf dom 0
  grown : DTree.Grown Config.val dom.nValues ∅ vecs.miss vecs.hit (root.view tree.configs)
  shape : ∀ defaultHit, root.shape defaultHit =
    (root.view tree.configs).map (leafLabel defaultHit)

/-- The root that `evaluate_split` returns. -/
theorem evaluateSplit_root_meets {dom : Domain} (select : Selector) (params : SplitParams)
    {vecs : Vecs} (hc : ∀ s, ∀ c ∈ vecs.get s, c.Complete dom) {fuel : ℕ}
    (hfuel : dom.nVars < fuel) :
    Meets (evaluateSplit dom select params fuel (NodeData.root dom (fullRanges vecs)) vecs)
      (fun r => ∀ tree : CTree,
        CTree.Fits dom vecs { tree with root := some r.1, configs := r.2 } r.1)
      (fun e => e = .noSplitvar ∧ ¬ (select.Total ∧ Apart vecs)) := by
  refine (evaluateSplit_meets select params fuel (ready_root hc)
    (by rw [count_root]; exact hfuel)).mono ?_ ?_
  · rintro ⟨root, vecs'⟩ ⟨hfit, -⟩ tree
    have hgrown := hfit.grown
    rw [seen_root, side_root, side_root] at hgrown
    exact ⟨rfl, hfit.wf, hgrown, hfit.shape⟩
  · rintro e ⟨rfl, hnot⟩
    exact ⟨rfl, fun h => hnot ⟨h.1, separated_root hc h.2⟩⟩

/-- **`build_tree`.**  The root of the result fits the two vectors of the tree. -/
theorem CTree.buildTree_meets {dom : Domain} (select : Selector) {tree : CTree}
    (hc : ∀ s, ∀ c ∈ tree.configs.get s, c.Complete dom) :
    Meets (tree.buildTree dom select)
      (fun t => (∃ root, t.Fits dom tree.configs root) ∧ t.defaultHit = tree.defaultHit ∧
        t.interpreter = tree.interpreter)
      (fun e => e = .noSplitvar ∧ ¬ (select.Total ∧ Apart tree.configs)) := by
  rw [buildTree]
  refine meets_bind (evaluateSplit_root_meets select tree.params hc (Nat.lt_succ_self _)) ?_
  rintro ⟨root, vecs⟩ hfits
  exact ⟨⟨root, hfits tree⟩, rfl, rfl⟩

namespace CTree.Fits

variable {dom : Domain} {vecs : Vecs} {tree : CTree} {root : CNode}

theorem testConfig_eq (h : tree.Fits dom vecs root) (c : Config) :
    tree.testConfig c = root.testConfig tree.defaultHit c := by
  rw [CTree.testConfig, rootNode, h.root_eq, ok_bind]

theorem eval_hit (h : tree.Fits dom vecs root) {c : Config} (hc : c.Complete dom)
    (hmem : c ∈ vecs.hit) (d : Bool) : (root.shape d).eval c.val = some true := by
  obtain ⟨l, hl, hin⟩ := h.grown.eval_hit hmem fun var hpos =>
    hc.val_lt (Domain.lt_nVars_of_nValues_pos hpos)
  rw [h.shape, DTree.eval_map, hl, Option.map_some, leafLabel, if_neg (List.ne_nil_of_mem hin)]

theorem eval_miss (h : tree.Fits dom vecs root) {c : Config} (hc : c.Complete dom)
    (hmem : c ∈ vecs.miss) (d : Bool) : (root.shape d).eval c.val = some false := by
  obtain ⟨l, hl, hin⟩ := h.grown.eval_miss hmem fun var hpos =>
    hc.val_lt (Domain.lt_nVars_of_nValues_pos hpos)
  have hne : l.1 ≠ [] := List.ne_nil_of_mem hin
  have hnil : l.2 = [] :=
    (h.grown.leaves_pure l (DTree.mem_leaves_of_eval hl)).resolve_left hne
  rw [h.shape, DTree.eval_map, hl, Option.map_some, leafLabel, if_pos hnil, if_neg hne]

/-- A hit tests as a hit. -/
theorem testConfig_hit (h : tree.Fits dom vecs root) {c : Config} (hc : c.Complete dom)
    (hmem : c ∈ vecs.hit) (d : Bool) : ∃ n, root.testConfig d c = .ok (true, n) := by
  obtain ⟨b, n, htest, heval⟩ := h.wf.testConfig hc d
  rw [h.eval_hit hc hmem, Option.some.injEq] at heval
  exact ⟨n, by rw [htest, heval]⟩

/-- A miss tests as a miss. -/
theorem testConfig_miss (h : tree.Fits dom vecs root) {c : Config} (hc : c.Complete dom)
    (hmem : c ∈ vecs.miss) (d : Bool) : ∃ n, root.testConfig d c = .ok (false, n) := by
  obtain ⟨b, n, htest, heval⟩ := h.wf.testConfig hc d
  rw [h.eval_miss hc hmem, Option.some.injEq] at heval
  exact ⟨n, by rw [htest, heval]⟩

end CTree.Fits

/-! ## Labelled configurations -/

/-- Configurations with their labels, sorted into misses and hits. -/
def sampleVecs (samples : List (Config × Bool)) : Vecs where
  miss := (samples.filter fun p => !p.2).map Prod.fst
  hit := (samples.filter fun p => p.2).map Prod.fst

theorem mem_sampleVecs {samples : List (Config × Bool)} {c : Config} {s : Bool} :
    c ∈ (sampleVecs samples).get s ↔ (c, s) ∈ samples := by
  cases s <;> simp [sampleVecs]

/-- Pairwise distinct configurations are apart, whatever their labels. -/
theorem apart_sampleVecs {samples : List (Config × Bool)}
    (h : samples.Pairwise fun p q => p.1.values ≠ q.1.values) : Apart (sampleVecs samples) := by
  intro m hm c hc
  have hm' : (m, false) ∈ samples := mem_sampleVecs (s := false).mp hm
  have hc' : (c, true) ∈ samples := mem_sampleVecs (s := true).mp hc
  have hsymm : Std.Symm fun p q : Config × Bool => p.1.values ≠ q.1.values :=
    ⟨fun _ _ hne => hne.symm⟩
  exact h.forall hm' hc' (by simp)

/-- **A tree fits its training data.**  On pairwise distinct complete
configurations with any labels, and with any total choice of untested split
variables, `evaluate_split` runs through: the tree it returns tests no variable
twice on a path, each of its leaves is empty or pure, and it gives every training
configuration its label. -/
theorem evaluateSplit_fits_samples {dom : Domain} {select : Selector} (htotal : select.Total)
    (params : SplitParams) {samples : List (Config × Bool)}
    (hcomplete : ∀ p ∈ samples, p.1.Complete dom)
    (hdistinct : samples.Pairwise fun p q => p.1.values ≠ q.1.values)
    {fuel : ℕ} (hfuel : dom.nVars < fuel) :
    ∃ root vecs,
      evaluateSplit dom select params fuel
        (NodeData.root dom (fullRanges (sampleVecs samples))) (sampleVecs samples) =
          .ok (root, vecs) ∧
      (root.view vecs).ReadOnce ∅ ∧
      (∀ l ∈ (root.view vecs).leaves, l.1 = [] ∨ l.2 = []) ∧
      ∀ p ∈ samples, ∀ defaultHit, ∃ n, root.testConfig defaultHit p.1 = .ok (p.2, n) := by
  have hc : ∀ s, ∀ c ∈ (sampleVecs samples).get s, c.Complete dom :=
    fun s c hmem => hcomplete _ (mem_sampleVecs.mp hmem)
  have hmeets := (evaluateSplit_root_meets select params hc hfuel).mono (fun _ h => h)
    fun e he => he.2 ⟨htotal, apart_sampleVecs hdistinct⟩
  obtain ⟨⟨root, vecs⟩, hrun, hfits⟩ := hmeets.exists_ok
  have hfit := hfits {}
  refine ⟨root, vecs, hrun, hfit.grown.readOnce, hfit.grown.leaves_pure, ?_⟩
  rintro ⟨c, s⟩ hmem d
  have hvec := mem_sampleVecs.mpr hmem
  cases s with
  | false => exact hfit.testConfig_miss (hcomplete _ hmem) hvec d
  | true => exact hfit.testConfig_hit (hcomplete _ hmem) hvec d

/-- Exclusive or over two switches: both must be tested. -/
theorem evaluateSplit_fits_samples_xor :
    let dom := Domain.switches 2 (by decide)
    let samples : List (Config × Bool) :=
      [({ values := [0, 0] }, false), ({ values := [0, 1] }, true),
        ({ values := [1, 0] }, true), ({ values := [1, 1] }, false)]
    ∃ root vecs,
      evaluateSplit dom .firstUntested ⟨4, false, 1, 0⟩ 3
        (NodeData.root dom (fullRanges (sampleVecs samples))) (sampleVecs samples) =
          .ok (root, vecs) ∧
      (root.view vecs).ReadOnce ∅ ∧
      (∀ l ∈ (root.view vecs).leaves, l.1 = [] ∨ l.2 = []) ∧
      ∀ p ∈ samples, ∀ defaultHit, ∃ n, root.testConfig defaultHit p.1 = .ok (p.2, n) :=
  evaluateSplit_fits_samples Selector.firstUntested_total _ (by decide) (by decide) (by decide)

end GenTree

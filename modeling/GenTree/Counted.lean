import Mathlib.Data.Finset.Card
import Mathlib.Data.Finset.Range
import Mathlib.Data.List.Induction
import GenTree.Leaves
import GenTree.Tracking
import GenTree.Verdict

/-!
# What the counters of a tree count

The two numbers that `finish_alg` prints for a tree are the sizes of the vectors it was
grown from and the counters `n_new_configs_`, which `test_add_config` and `interpret_add`
both increase.  The tree **knows** the configurations it was grown from, the first
`n_cases_` of the store, and those its leaves keep; the re-check counts configurations
without keeping them.

`CTree.Counted cov n j t` says that `t` has counted the first `n` configurations of the
store and the others it knows, each once and on its side.  Counting one more that it does
not know keeps this, whoever does it (`Counted.add`); so do new trees, and so do tests
that come out right (`tracked_counted`).
-/

namespace GenTree

open Outcome

/-! ## The configurations that the leaves keep -/

namespace CNode

variable {d val : Bool} {c : Config}

/-- The configurations that the leaves below a node keep. -/
def newConfigs (t : CNode) : List Config := t.leafData.flatMap NodeData.newConfigs

theorem newConfigs_leaf {nd : NodeData} {kids : List CNode} (h : nd.isLeaf = true) :
    (mk nd kids).newConfigs = nd.newConfigs := by
  rw [newConfigs, leafData_leaf h, List.flatMap_singleton]

theorem newConfigs_node {nd : NodeData} {kids : List CNode} (h : nd.isLeaf = false) :
    (mk nd kids).newConfigs = kids.flatMap newConfigs := by
  unfold newConfigs
  rw [leafData_node h, List.flatMap_assoc]

/-- One child keeps one more configuration. -/
theorem testAddConfigAt_newConfigs {kids kids' : List CNode} {i : ℕ} {res : Bool × ℕ}
    (hkids : ∀ k ∈ kids, ∀ k', k.testAddConfig d c val = .ok (res, k') →
      k'.newConfigs.Perm (c :: k.newConfigs))
    (h : testAddConfigAt d c val kids i = .ok (res, kids')) :
    (kids'.flatMap newConfigs).Perm (c :: kids.flatMap newConfigs) := by
  induction kids generalizing i kids' with
  | nil => cases h
  | cons k ks ih =>
      cases i with
      | zero =>
          obtain ⟨⟨res₁, k₁⟩, hrun, heq⟩ := bind_eq_ok.mp h
          cases heq
          rw [List.flatMap_cons, List.flatMap_cons]
          exact (hkids k (List.mem_cons_self ..) _ hrun).append_right _
      | succ i =>
          obtain ⟨⟨res₁, ks₁⟩, hrun, heq⟩ := bind_eq_ok.mp h
          cases heq
          rw [List.flatMap_cons, List.flatMap_cons]
          have hks := ih (fun k' hk' => hkids k' (List.mem_cons_of_mem _ hk')) hrun
          exact (hks.append_left _).trans List.perm_middle

/-- **`test_add_config`** keeps the configuration when the leaf has the value that is
expected. -/
theorem testAddConfig_newConfigs {t : CNode} : ∀ {res : Bool × ℕ} {t' : CNode},
    t.testAddConfig d c val = .ok (res, t') → res.1 = val →
      t'.newConfigs.Perm (c :: t.newConfigs) := by
  induction t with
  | mk nd kids ih =>
      intro res t' h hres
      rw [testAddConfig] at h
      cases hleaf : nd.isLeaf with
      | true =>
          rw [if_pos hleaf] at h
          dsimp only at h
          split at h
          · obtain ⟨-, -, heq⟩ := bind_eq_ok.mp h
            cases heq
            rw [newConfigs_leaf (by exact hleaf), newConfigs_leaf hleaf]
            exact List.perm_append_singleton c nd.newConfigs
          · next hne =>
              cases h
              exact absurd hres hne
      | false =>
          rw [if_neg (by simp [hleaf])] at h
          obtain ⟨i, -, h⟩ := bind_eq_ok.mp h
          obtain ⟨⟨res₁, kids₁⟩, hrun, heq⟩ := bind_eq_ok.mp h
          cases heq
          rw [newConfigs_node (by exact hleaf), newConfigs_node hleaf]
          exact testAddConfigAt_newConfigs (fun k hk k' hk' => ih k hk hk' hres) hrun

end CNode

/-! ## Known configurations and counters -/

namespace CTree

/-- The configurations that the leaves of a tree keep. -/
def newConfigs (t : CTree) : List Config := t.root.elim [] CNode.newConfigs

/-- The tree **knows** the configuration with the id `i`: it was grown from it, or a leaf
keeps it. -/
def Knows (t : CTree) (i : ℕ) : Prop := i < t.params.nCases ∨ ∃ c ∈ t.newConfigs, c.id = some i

instance (t : CTree) (i : ℕ) : Decidable (t.Knows i) :=
  inferInstanceAs (Decidable (_ ∨ _))

/-- The number `finish_alg` prints for one side. -/
def count (t : CTree) (b : Bool) : ℕ := (t.configs.get b).length + t.nNewConfigs.get b

end CTree

section Counted

variable {Name Hash : Type} [DecidableEq Name] [DecidableEq Hash] {env : Env Name Hash}

/-- The `i`-th configuration covers location `j`. -/
def CoverageStore.covers (cov : CoverageStore Name) (j i : ℕ) : Bool :=
  cov.configs[i]?.any fun c => decide (j ∈ c.covLocs)

omit [DecidableEq Name] in
theorem CoverageStore.covers_eq {cov : CoverageStore Name} {j i : ℕ} {c : Config}
    (h : cov.configs[i]? = some c) : cov.covers j i = decide (j ∈ c.covLocs) := by
  rw [covers, h, Option.any_some]

/-- **Counted.**  The tree has counted the first `n` configurations of the store and those
it knows, each of them once. -/
structure CTree.Counted (cov : CoverageStore Name) (n j : ℕ) (t : CTree) : Prop where
  knows_lt : ∀ i, t.Knows i → i < cov.nConfigs
  count_eq : ∀ b, t.count b = ((Finset.range cov.nConfigs).filter fun i =>
    (i < n ∨ t.Knows i) ∧ cov.covers j i = b).card

namespace CTree.Counted

variable {cov cov' : CoverageStore Name} {n j : ℕ} {t t' : CTree}

omit [DecidableEq Name]

/-- The store may grow. -/
theorem grows (h : t.Counted cov n j) (hgrows : cov.Grows cov') (hn : n ≤ cov.nConfigs) :
    t.Counted cov' n j where
  knows_lt i hi := (h.knows_lt i hi).trans_le hgrows.nConfigs_le
  count_eq b := by
    rw [h.count_eq b]
    congr 1
    ext i
    simp only [Finset.mem_filter, Finset.mem_range]
    have hcovers : i < cov.nConfigs → cov'.covers j i = cov.covers j i := by
      intro hi
      have hget := List.getElem?_eq_getElem (show i < cov.configs.length from hi)
      rw [CoverageStore.covers_eq hget, CoverageStore.covers_eq (hgrows.configs i _ hget)]
    constructor
    · rintro ⟨hi, htold, hb⟩
      exact ⟨hi.trans_le hgrows.nConfigs_le, htold, by rw [hcovers hi, hb]⟩
    · rintro ⟨-, htold, hb⟩
      have hi : i < cov.nConfigs := htold.elim (fun hlt => hlt.trans_le hn) (h.knows_lt i)
      exact ⟨hi, htold, by rw [← hcovers hi, hb]⟩

/-- **One more configuration** `m` is counted, and no other. -/
theorem add {n' m : ℕ} (h : t.Counted cov n j) (hm : m < cov.nConfigs)
    (hnew : ¬ (m < n ∨ t.Knows m)) (hknows : ∀ i, t'.Knows i → t.Knows i ∨ i = m)
    (htold : ∀ i, (i < n' ∨ t'.Knows i) ↔ (i < n ∨ t.Knows i) ∨ i = m)
    (hcount : ∀ b, t'.count b = t.count b + if cov.covers j m = b then 1 else 0) :
    t'.Counted cov n' j where
  knows_lt i hi := (hknows i hi).elim (h.knows_lt i) fun heq => by rwa [heq]
  count_eq b := by
    rw [hcount, h.count_eq]
    simp only [htold]
    split
    · next hb =>
        rw [← Finset.card_insert_of_notMem (a := m) (by simp [hnew])]
        congr 1
        ext i
        simp only [Finset.mem_insert, Finset.mem_filter, Finset.mem_range]
        constructor
        · rintro (rfl | ⟨hi, htold, hb'⟩)
          · exact ⟨hm, .inr rfl, hb⟩
          · exact ⟨hi, .inl htold, hb'⟩
        · rintro ⟨hi, htold | rfl, hb'⟩
          · exact .inr ⟨hi, htold, hb'⟩
          · exact .inl rfl
    · next hb =>
        rw [Nat.add_zero]
        congr 1
        ext i
        simp only [Finset.mem_filter, Finset.mem_range]
        constructor
        · rintro ⟨hi, htold, hb'⟩
          exact ⟨hi, .inl htold, hb'⟩
        · rintro ⟨hi, htold | rfl, hb'⟩
          · exact ⟨hi, htold, hb'⟩
          · exact absurd hb' hb

/-- Passing over a configuration that the tree knows. -/
theorem skip (h : t.Counted cov n j) (hknows : t.Knows n) : t.Counted cov (n + 1) j where
  knows_lt := h.knows_lt
  count_eq b := by
    have htold : ∀ i, (i < n + 1 ∨ t.Knows i) ↔ (i < n ∨ t.Knows i) := by
      intro i
      rw [Nat.lt_succ_iff_lt_or_eq, or_assoc]
      refine or_congr_right ⟨fun hor => ?_, .inr⟩
      rcases hor with rfl | hi
      · exact hknows
      · exact hi
    rw [h.count_eq]
    simp only [htold]

/-- At the end every configuration has been counted. -/
theorem count_of_le (h : t.Counted cov n j) (hn : cov.nConfigs ≤ n) (b : Bool) :
    t.count b = ((Finset.range cov.nConfigs).filter fun i => cov.covers j i = b).card := by
  rw [h.count_eq]
  congr 1
  refine Finset.filter_congr fun i hi => ?_
  have hlt : i < n := (Finset.mem_range.mp hi).trans_le hn
  simp [hlt]

end CTree.Counted

/-! ## New trees -/

/-- `build_tree` only rearranges the vectors, and its leaves keep nothing. -/
theorem CTree.buildTree_lengths {dom : Domain} {select : Selector} {tree tree' : CTree}
    (hsized : ∀ s, ∀ c ∈ tree.configs.get s, c.values.length = dom.nVars)
    (h : tree.buildTree dom select = .ok tree') :
    (∀ b, (tree'.configs.get b).length = (tree.configs.get b).length) ∧
      tree'.nNewConfigs = tree.nNewConfigs ∧ tree'.params = tree.params ∧
        tree'.newConfigs = [] := by
  rcases CTree.buildTree_cases hsized h with hc | ⟨nd, hleaf, -, -, hnil, rfl⟩
  · obtain ⟨root, hroot, -, hnew⟩ := CTree.buildTree_grown hc h
    obtain ⟨⟨root', vecs⟩, hrun, heq⟩ := bind_eq_ok.mp h
    have hframed := ((evaluateSplit_meets select tree.params (dom.nVars + 1) (ready_root hc)
      (by rw [count_root]; exact Nat.lt_succ_self _)).of_eq_ok hrun).2
    cases heq
    refine ⟨fun b => (hframed b).length, rfl, rfl, ?_⟩
    rw [CTree.newConfigs, hroot, Option.elim_some]
    exact List.flatMap_eq_nil_iff.mpr hnew
  · refine ⟨fun _ => rfl, rfl, rfl, ?_⟩
    show (CNode.mk nd []).newConfigs = []
    rw [CNode.newConfigs_leaf hleaf, hnil]

/-- The positions of a list where `p` holds. -/
theorem card_filter_range {α : Type} (l : List α) (p : α → Bool) :
    ((Finset.range l.length).filter fun i => (l[i]?.any p) = true).card = l.countP p := by
  induction l using List.reverseRecOn with
  | nil => rfl
  | append_singleton l a ih =>
      have hold : ((Finset.range l.length).filter fun i => ((l ++ [a])[i]?.any p) = true) =
          (Finset.range l.length).filter fun i => (l[i]?.any p) = true :=
        Finset.filter_congr fun i hi => by
          rw [List.getElem?_append_left (Finset.mem_range.mp hi)]
      have hlast : ((l ++ [a])[l.length]?.any p) = p a := by simp
      rw [List.length_append, List.length_singleton, Finset.range_add_one, Finset.filter_insert,
        hlast, hold, List.countP_append, ← ih, List.countP_singleton]
      split
      · rw [Finset.card_insert_of_notMem (by simp)]
      · rfl

omit [DecidableEq Name] in
/-- The number of configurations on one side, by positions and by the list. -/
theorem CoverageStore.card_covers (cov : CoverageStore Name) (j : ℕ) (b : Bool) :
    ((Finset.range cov.nConfigs).filter fun i => cov.covers j i = b).card =
      cov.configs.countP fun c => decide (j ∈ c.covLocs) == b := by
  rw [← card_filter_range]
  congr 1
  refine Finset.filter_congr fun i hi => ?_
  have hget := List.getElem?_eq_getElem (show i < cov.configs.length from Finset.mem_range.mp hi)
  rw [covers_eq hget, hget, Option.any_some, beq_iff_eq]

omit [DecidableEq Name] in
theorem CoverageStore.length_samples (cov : CoverageStore Name) (j : ℕ) (b : Bool) :
    ((cov.samples j).get b).length = cov.configs.countP fun c => decide (j ∈ c.covLocs) == b := by
  rw [List.countP_eq_length_filter]
  cases b <;> simp [samples]

omit [DecidableEq Hash] in
/-- **A new tree** has counted the whole store. -/
theorem St.newTree_counted {s : St Name Hash} (hs : Stocked env s.cov) {j : ℕ} {t : CTree}
    (h : s.newTree env j = .ok t) (n : ℕ) : t.Counted s.cov n j := by
  obtain ⟨tree, hconfigs, -, hzero, hcases, hrun⟩ := newTree_eq hs h
  have hsized : ∀ b, ∀ c ∈ tree.configs.get b, c.values.length = env.dom.nVars := by
    intro b c hmem
    rw [hconfigs] at hmem
    exact hs.sized c (mem_samples.mp hmem).1
  obtain ⟨hlen, hnew, hparams, hnil⟩ := CTree.buildTree_lengths hsized hrun
  have hknows : ∀ i, t.Knows i ↔ i < s.cov.nConfigs := by
    intro i
    rw [CTree.Knows, hparams, hcases, hnil]
    simp
  refine ⟨fun i hi => (hknows i).mp hi, fun b => ?_⟩
  have hcount : t.count b = ((s.cov.samples j).get b).length := by
    rw [CTree.count, hlen, hconfigs, hnew, hzero]
    cases b <;> rfl
  rw [hcount, CoverageStore.length_samples, ← CoverageStore.card_covers]
  congr 1
  refine Finset.filter_congr fun i hi => ?_
  simp [hknows, Finset.mem_range.mp hi]

/-! ## Counting -/

theorem Arr2.get_set {α : Type*} (a : Arr2 α) (b b' : Bool) (x : α) :
    (a.set b x).get b' = if b = b' then x else a.get b' := by
  cases b <;> cases b' <;> rfl

namespace CTree

variable {cov : CoverageStore Name} {n j m : ℕ} {t t' : CTree} {c : Config}

/-- What a test that comes out right changes. -/
theorem testAddConfig_count {val : Bool} {res : Bool × ℕ}
    (h : t.testAddConfig c val = .ok (res, t')) (hres : res.1 = val) :
    t'.newConfigs.Perm (c :: t.newConfigs) ∧ t'.params = t.params ∧
      ∀ b, t'.count b = t.count b + if val = b then 1 else 0 := by
  obtain ⟨root, hroot, h⟩ := bind_eq_ok.mp h
  obtain ⟨⟨res₁, root'⟩, hrun, heq⟩ := bind_eq_ok.mp h
  cases heq
  have hroot : t.root = some root := by
    rw [rootNode] at hroot
    split at hroot
    · cases hroot
    · cases hroot
      assumption
  refine ⟨?_, rfl, fun b => ?_⟩
  · rw [newConfigs, newConfigs, hroot, Option.elim_some, Option.elim_some]
    exact CNode.testAddConfig_newConfigs hrun hres
  · rw [count, count, Arr2.get_set]
    split
    · next heq => rw [heq, Nat.add_assoc]
    · rfl

/-- Compiling a tree counts nothing. -/
theorem buildInterpreter_count {dom : Domain} (h : t.buildInterpreter dom = .ok t') :
    t'.newConfigs = t.newConfigs ∧ t'.params = t.params ∧ ∀ b, t'.count b = t.count b := by
  rw [buildInterpreter] at h
  split at h
  · cases h
    exact ⟨rfl, rfl, fun _ => rfl⟩
  · split at h
    · cases h
    · obtain ⟨code, -, heq⟩ := bind_eq_ok.mp h
      cases heq
      exact ⟨rfl, rfl, fun _ => rfl⟩

/-- `interpret_add` counts without keeping. -/
theorem interpretAdd_count {dom : Domain} {val : Bool}
    (h : t.interpretAdd dom c = .ok (val, t')) :
    t'.newConfigs = t.newConfigs ∧ t'.params = t.params ∧
      ∀ b, t'.count b = t.count b + if val = b then 1 else 0 := by
  obtain ⟨val', -, heq⟩ := bind_eq_ok.mp h
  cases heq
  refine ⟨rfl, rfl, fun b => ?_⟩
  rw [count, count, Arr2.get_set]
  split
  · next heq => rw [heq, Nat.add_assoc]
  · rfl

omit [DecidableEq Name] in
/-- **A test that comes out right** counts one configuration. -/
theorem Counted.test (h : t.Counted cov n j) (hc : cov.configs[m]? = some c)
    (hid : c.id = some m) (hnew : ¬ (m < n ∨ t.Knows m)) {res : Bool × ℕ}
    (htest : t.testAddConfig c (decide (j ∈ c.covLocs)) = .ok (res, t'))
    (hres : res.1 = decide (j ∈ c.covLocs)) :
    t'.Counted cov n j ∧ ∀ i, t'.Knows i ↔ t.Knows i ∨ i = m := by
  obtain ⟨hperm, hparams, hcount⟩ := testAddConfig_count htest hres
  have hknows : ∀ i, t'.Knows i ↔ t.Knows i ∨ i = m := by
    intro i
    simp only [Knows, hparams, hperm.mem_iff, List.mem_cons, or_and_right, exists_or,
      exists_eq_left, hid, Option.some.injEq, eq_comm (a := m)]
    rw [or_assoc, or_comm (a := i = m)]
  refine ⟨h.add (List.getElem?_eq_some_iff.mp hc).1 hnew (fun i => (hknows i).mp) ?_ fun b => ?_,
    hknows⟩
  · intro i
    rw [hknows, or_assoc]
  · rw [hcount, CoverageStore.covers_eq hc]

omit [DecidableEq Name] in
/-- The tests of `run_one_loc`, when all of them come out right. -/
theorem Counted.testCex (hids : ∀ (i : ℕ) (c : Config), cov.configs[i]? = some c → c.id = some i)
    (ids : List ℕ) (h : t.Counted cov n j) (hnodup : ids.Nodup)
    (hnew : ∀ i ∈ ids, ¬ (i < n ∨ t.Knows i)) (hrun : St.testCex cov j t ids = .ok (t', true)) :
    t'.Counted cov n j := by
  induction ids generalizing t with
  | nil =>
      cases hrun
      exact h
  | cons m ids ih =>
      obtain ⟨c, hc, hrun⟩ := bind_eq_ok.mp hrun
      obtain ⟨⟨res, t₁⟩, htest, hrun⟩ := bind_eq_ok.mp hrun
      dsimp only at hrun
      split at hrun
      · cases hrun
      · next hres =>
          have hget := vecAt_eq_ok.mp hc
          obtain ⟨hcounted, hknows⟩ := h.test hget (hids m c hget)
            (hnew m (List.mem_cons_self ..)) htest (not_not.mp hres)
          refine ih hcounted hnodup.of_cons (fun i hi hor => ?_) hrun
          have hne : i ≠ m := fun heq => (List.nodup_cons.mp hnodup).1 (heq ▸ hi)
          refine hnew i (List.mem_cons_of_mem _ hi) (hor.imp_right fun hk => ?_)
          exact ((hknows i).mp hk).resolve_right hne

omit [DecidableEq Hash] [DecidableEq Name] in
/-- **The re-check** counts one configuration that the tree does not know. -/
theorem Counted.interpretAdd (h : t.Counted cov n j) (hc : cov.configs[n]? = some c)
    (hnew : ¬ t.Knows n) {t₁ t₂ : CTree} (hbuild : t.buildInterpreter env.dom = .ok t₁)
    (heval : t₁.interpretAdd env.dom c = .ok (decide (j ∈ c.covLocs), t₂)) :
    t₂.Counted cov (n + 1) j := by
  obtain ⟨hnew₁, hparams₁, hcount₁⟩ := buildInterpreter_count hbuild
  obtain ⟨hnew₂, hparams₂, hcount₂⟩ := interpretAdd_count heval
  have hknows : ∀ i, t₂.Knows i ↔ t.Knows i := by
    intro i
    rw [Knows, Knows, hnew₂, hnew₁, hparams₂, hparams₁]
  refine h.add (List.getElem?_eq_some_iff.mp hc).1 (by simp [hnew])
    (fun i hi => .inl ((hknows i).mp hi)) (fun i => ?_) fun b => ?_
  · rw [hknows, Nat.lt_succ_iff_lt_or_eq]
    exact or_right_comm
  · rw [hcount₂, hcount₁, CoverageStore.covers_eq hc]

end CTree

/-- **Having counted the first configurations** can be followed. -/
theorem tracked_counted : Tracked env fun cov n j t => t.Counted cov n j where
  grows _ _ _ _ _ hgrows hn h := h.grows hgrows hn
  rule cov n j hn :=
    { new := fun _ _ _ hs ht => St.newTree_counted hs ht n
      test := by
        intro s s' cs ids t t' hle hs hcs hrun htest hcounted
        obtain ⟨hran, hids⟩ := (St.runConfigs_ids hs.valid hcs).of_eq_ok hrun
        obtain ⟨hist, hv⟩ := hs.valid
        have hle' := hn.trans hle.nConfigs_le
        dsimp only at hran hids
        refine (hcounted.grows (hran.grows hs.valid) hle').testCex (hran.valid hist hv).confId ids
          ?_ (fun i hi hor => ?_) htest
        · rw [hids]
          exact List.nodup_range'
        · rw [hids, List.mem_range'_1] at hi
          have hlt : i < s.cov.nConfigs := hor.elim (fun h => h.trans_le hle') (hcounted.knows_lt i)
          omega }

end Counted

end GenTree

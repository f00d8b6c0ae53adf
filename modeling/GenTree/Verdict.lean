import GenTree.FlatCode
import GenTree.Records

/-!
# The verdicts of trees

The verdict of a tree about a configuration is what its compiled code returns.
The code is compiled once and cached in the tree, while the tree goes on counting
the configurations it is tested with.  The functions that count change neither the
code nor the cache (`CTree.SameCode`), so a verdict that has been checked once stays
as it is until the tree is replaced.

A new tree is right about every configuration of the store
(`St.newTree_right`).  Nothing has to be assumed about the values of the
configurations: a root that is a leaf does not look at them, and a root that is split
has counted them, which succeeds for values of the domain only.

`CTree.RightOn` says for how many configurations a tree is right, and not that it is right
for all: the store grows while the tree stays, and it is the re-check that goes through the
configurations one by one.  Since a verdict does not change, and a registered configuration
covers what it covers, the number can only grow (`CTree.RightOn.grows`).
-/

namespace GenTree

open Outcome

/-- `build_interpreter` and `interpret`.  The compiled tree is thrown away: the code that is
cached in the tree and the code that would be compiled now give one answer. -/
def CTree.verdict (dom : Domain) (tree : CTree) (conf : Config) : Except Abort Bool := do
  let tree ← tree.buildInterpreter dom
  tree.interpret dom conf

/-! ## Counting does not change the code -/

namespace CNode

variable {dom : Domain} {d val : Bool} {c : Config}

/-- The children differ from `kids` at most in their counters: they have the same code behind
any code that has been written before, which is what an inner node writes them behind. -/
def SameKids (dom : Domain) (d : Bool) (kids kids' : List CNode) : Prop :=
  kids.length = kids'.length ∧ ∀ (i : ℕ) (k k' : CNode), kids[i]? = some k → kids'[i]? = some k' →
    ∀ dat, k.buildInterpreter dom d dat = k'.buildInterpreter dom d dat

theorem SameKids.refl (kids : List CNode) : SameKids dom d kids kids := by
  refine ⟨rfl, fun i k k' hk hk' dat => ?_⟩
  rw [hk, Option.some.injEq] at hk'
  rw [hk']

theorem SameKids.cons {k k' : CNode} {kids kids' : List CNode} (h : SameKids dom d kids kids')
    (hk : ∀ dat, k.buildInterpreter dom d dat = k'.buildInterpreter dom d dat) :
    SameKids dom d (k :: kids) (k' :: kids') := by
  refine ⟨by rw [List.length_cons, List.length_cons, h.1], fun i a a' ha ha' => ?_⟩
  cases i with
  | zero =>
      obtain rfl : k = a := by simpa using ha
      obtain rfl : k' = a' := by simpa using ha'
      exact hk
  | succ i => exact h.2 i a a' (by simpa using ha) (by simpa using ha')

/-- The code of an inner node depends on its variable and the code of its children. -/
theorem SameKids.buildInterpreter_eq {nd nd' : NodeData} {kids kids' : List CNode}
    (h : SameKids dom d kids kids') (hleaf : nd'.isLeaf = nd.isLeaf)
    (hvalue : nd'.leafValue d = nd.leafValue d) (hvar : nd'.splitvar = nd.splitvar)
    (dat : List ℤ) :
    (mk nd kids).buildInterpreter dom d dat = (mk nd' kids').buildInterpreter dom d dat := by
  simp only [CNode.buildInterpreter, hleaf, hvalue, hvar, h.1,
    fun beg i dat => interpreterChilds_congr h.1 h.2 beg i dat]

theorem testAddConfigAt_sameKids {kids kids' : List CNode} {i : ℕ} {res : Bool × ℕ}
    (hkids : ∀ k ∈ kids, ∀ res k', k.testAddConfig d c val = .ok (res, k') →
      ∀ dat, k.buildInterpreter dom d dat = k'.buildInterpreter dom d dat)
    (h : testAddConfigAt d c val kids i = .ok (res, kids')) : SameKids dom d kids kids' := by
  induction kids generalizing i res kids' with
  | nil => simp [testAddConfigAt] at h
  | cons k ks ih =>
      cases i with
      | zero =>
          obtain ⟨⟨res₁, k₁⟩, hrun, heq⟩ := bind_eq_ok.mp h
          cases heq
          exact (SameKids.refl ks).cons (hkids k (List.mem_cons_self ..) _ _ hrun)
      | succ i =>
          obtain ⟨⟨res₁, ks₁⟩, hrun, heq⟩ := bind_eq_ok.mp h
          cases heq
          exact (ih (fun k' hk' => hkids k' (List.mem_cons_of_mem _ hk')) hrun).cons fun _ => rfl

/-- **`test_add_config` counts, and does not change the code.** -/
theorem testAddConfig_buildInterpreter {t : CNode} : ∀ {res : Bool × ℕ} {t' : CNode},
    t.testAddConfig d c val = .ok (res, t') →
      ∀ dat, t.buildInterpreter dom d dat = t'.buildInterpreter dom d dat := by
  induction t with
  | mk nd kids ih =>
      intro res t' h
      rw [testAddConfig] at h
      split at h
      · dsimp only at h
        split at h
        · obtain ⟨-, -, heq⟩ := bind_eq_ok.mp h
          cases heq
          exact (SameKids.refl kids).buildInterpreter_eq rfl rfl rfl
        · cases h
          exact fun _ => rfl
      · obtain ⟨i, -, h⟩ := bind_eq_ok.mp h
        obtain ⟨⟨res₁, kids₁⟩, hrun, heq⟩ := bind_eq_ok.mp h
        cases heq
        exact (testAddConfigAt_sameKids (fun k hk res k' => ih k hk) hrun).buildInterpreter_eq
          rfl rfl rfl

end CNode

namespace CTree

variable {dom : Domain} {tree tree' : CTree} {c : Config}

/-- What `build_interpreter` compiles. -/
def code (dom : Domain) (tree : CTree) : Option (Except Abort (List ℤ)) :=
  tree.root.map fun root => root.buildInterpreter dom tree.defaultHit []

/-- Two trees have the **same code**, compiled or not.  Both are needed: the cache is what is
run if there is one, and the root is what is compiled if there is none. -/
structure SameCode (dom : Domain) (tree tree' : CTree) : Prop where
  interpreter : tree'.interpreter = tree.interpreter
  code : tree'.code dom = tree.code dom

theorem verdict_eq (dom : Domain) (tree : CTree) (c : Config) :
    tree.verdict dom c =
      if tree.interpreter ≠ [] then
        interpretLoop dom tree.interpreter c tree.interpreter.length 0
      else
        match tree.code dom with
        | none => .error .nullPointer
        | some code => code >>= fun code => interpretLoop dom code c code.length 0 := by
  rw [verdict, buildInterpreter, code]
  split
  · rfl
  · cases hroot : tree.root with
    | none => rfl
    | some root =>
        dsimp only [Option.map_some]
        cases root.buildInterpreter dom tree.defaultHit [] <;> rfl

theorem SameCode.verdict_eq (h : tree.SameCode dom tree') (c : Config) :
    tree'.verdict dom c = tree.verdict dom c := by
  rw [CTree.verdict_eq, CTree.verdict_eq, h.interpreter, h.code]

theorem testAddConfig_sameCode {val : Bool} {res : Bool × ℕ}
    (h : tree.testAddConfig c val = .ok (res, tree')) : tree.SameCode dom tree' := by
  obtain ⟨root, hroot, h⟩ := bind_eq_ok.mp h
  obtain ⟨⟨res₁, root'⟩, hrun, heq⟩ := bind_eq_ok.mp h
  cases heq
  have hroot : tree.root = some root := by
    rw [rootNode] at hroot
    split at hroot
    · cases hroot
    · cases hroot
      assumption
  refine ⟨rfl, ?_⟩
  rw [code, code, hroot, Option.map_some, Option.map_some,
    CNode.testAddConfig_buildInterpreter hrun]

theorem interpretAdd_sameCode {res : Bool} (h : tree.interpretAdd dom c = .ok (res, tree')) :
    tree.SameCode dom tree' ∧ tree.interpret dom c = .ok res := by
  obtain ⟨val, hval, heq⟩ := bind_eq_ok.mp h
  cases heq
  exact ⟨⟨rfl, rfl⟩, hval⟩

/-- Compiling a tree changes no verdict. -/
theorem buildInterpreter_verdict_eq (h : tree.buildInterpreter dom = .ok tree') (c : Config) :
    tree'.verdict dom c = tree.verdict dom c ∧ tree.verdict dom c = tree'.interpret dom c := by
  have hverdict : tree.verdict dom c = tree'.interpret dom c := by rw [verdict, h, ok_bind]
  refine ⟨?_, hverdict⟩
  rw [buildInterpreter] at h
  split at h
  · cases h
    rfl
  · next hnil =>
      cases hroot : tree.root with
      | none =>
          rw [hroot] at h
          cases h
      | some root =>
          rw [hroot] at h
          obtain ⟨code, hcode, heq⟩ := bind_eq_ok.mp h
          cases heq
          rw [CTree.verdict_eq, CTree.verdict_eq, if_neg hnil, CTree.code, CTree.code]
          simp only [hroot, Option.map_some, hcode, ok_bind, ne_eq, ite_not]
          split
          · rfl
          · rfl

/-- The verdict of a tree that has not been compiled yet. -/
theorem verdict_of_wf {root : CNode} (hroot : tree.root = some root) (hwf : root.Wf dom 0)
    (hcode : tree.interpreter = []) (hc : c.Complete dom) :
    ∃ b, tree.verdict dom c = .ok b ∧ (root.shape tree.defaultHit).eval c.val = some b := by
  obtain ⟨code, hbuild, hem⟩ := hwf.buildInterpreter (d := tree.defaultHit) []
  obtain ⟨b, hrun, heval⟩ := hem.code.interpretLoop_eq hwf (Nat.le_refl _) hc (Nat.sub_le _ _)
  refine ⟨b, ?_, heval⟩
  simp only [verdict, buildInterpreter, hcode, ne_eq, not_true_eq_false, if_false, hroot, hbuild,
    ok_bind]
  exact hrun

/-- A root that is a leaf has one verdict, whatever the configuration. -/
theorem verdict_of_leaf {nd : NodeData} (hroot : tree.root = some (.mk nd []))
    (hleaf : nd.isLeaf = true) (hcode : tree.interpreter = []) (c : Config) :
    tree.verdict dom c = .ok (nd.leafValue tree.defaultHit) := by
  simp only [verdict, buildInterpreter, hcode, ne_eq, not_true_eq_false, if_false, hroot,
    CNode.buildInterpreter, if_pos hleaf, ok_bind, List.nil_append]
  cases nd.leafValue tree.defaultHit <;> rfl

end CTree

/-! ## Values that can be counted -/

section Count

variable {dom : Domain}

theorem bump_eq_ok {row row' : List ℕ} {v : ℤ} (h : bump row v = .ok row') :
    0 ≤ v ∧ v < row.length ∧ row'.length = row.length := by
  obtain ⟨i, hi, h⟩ := bind_eq_ok.mp h
  obtain ⟨n, hn, heq⟩ := bind_eq_ok.mp h
  cases heq
  rw [sizeT] at hi
  split at hi
  · cases hi
    have hlt := (List.getElem?_eq_some_iff.mp (vecAt_eq_ok.mp hn)).1
    exact ⟨‹_›, by omega, List.length_set⟩
  · cases hi

theorem bumpRows_eq_ok {rows rows' : List (List ℕ)} {vals : List ℤ}
    (h : bumpRows rows vals = .ok rows') :
    rows'.map List.length = rows.map List.length ∧
      ∀ (var : ℕ) (v : ℤ) (row : List ℕ), vals[var]? = some v → rows[var]? = some row →
        0 ≤ v ∧ v < row.length := by
  induction rows generalizing rows' vals with
  | nil =>
      cases h
      exact ⟨rfl, by simp⟩
  | cons row rows ih =>
      cases vals with
      | nil => cases h
      | cons v vs =>
          obtain ⟨row₁, hrow, h⟩ := bind_eq_ok.mp h
          obtain ⟨rows₁, hrows, heq⟩ := bind_eq_ok.mp h
          cases heq
          obtain ⟨hnonneg, hlt, hlen⟩ := bump_eq_ok hrow
          obtain ⟨hlens, hrest⟩ := ih hrows
          refine ⟨by rw [List.map_cons, List.map_cons, hlen, hlens], fun var v' row' hv hr => ?_⟩
          cases var with
          | zero =>
              obtain rfl : v = v' := by simpa using hv
              obtain rfl : row = row' := by simpa using hr
              exact ⟨hnonneg, hlt⟩
          | succ var => exact hrest var v' row' (by simpa using hv) (by simpa using hr)

/-- **Configurations that `calc_freq` counts are complete.** -/
theorem complete_of_calcFreq {configs : List Config} {freq : List (List ℕ)}
    (hsized : ∀ c ∈ configs, c.values.length = dom.nVars)
    (h : calcFreq dom configs = .ok freq) : ∀ c ∈ configs, c.Complete dom := by
  have hempty : (dom.vars.map fun v => List.replicate v.nValues 0).map (@List.length ℕ) =
      dom.vars.map VarDomain.nValues := by simp
  have hmeets : Meets (calcFreq dom configs)
      (fun freq => freq.map List.length = dom.vars.map VarDomain.nValues ∧
        ∀ c ∈ configs, c.Complete dom) (fun _ => True) := by
    unfold calcFreq
    refine meets_foldlM (fun done (freq : List (List ℕ)) =>
      freq.map List.length = dom.vars.map VarDomain.nValues ∧ ∀ c ∈ done, c.Complete dom)
      configs ?_ ⟨hempty, by simp⟩
    rintro done c rest freq hsplit ⟨hlens, hdone⟩
    refine meets_iff_forall_ok.mpr fun freq' hrun => ?_
    obtain ⟨hlens', hvalues⟩ := bumpRows_eq_ok hrun
    refine ⟨hlens'.trans hlens, fun x hx => ?_⟩
    rcases List.mem_append.mp hx with hx | hx
    · exact hdone x hx
    · rw [List.mem_singleton.mp hx]
      have hlen := hsized c (by rw [hsplit]; simp)
      refine ⟨hlen, fun var v hv => ?_⟩
      have hlt := (List.getElem?_eq_some_iff.mp hv).1
      have hvar : dom.vars[var]? = some (dom.vars.get ⟨var, by rwa [hlen] at hlt⟩) :=
        List.getElem?_eq_getElem (by rwa [hlen] at hlt)
      have hrow := congrArg (fun l => l[var]?) hlens
      simp only [List.getElem?_map, hvar, Option.map_some] at hrow
      obtain ⟨row, hget, hrowlen⟩ := Option.map_eq_some_iff.mp hrow
      rw [Domain.nValues_of_getElem? hvar, ← hrowlen]
      exact hvalues var v row hv hget
  exact (hmeets.of_eq_ok h).2

end Count

/-! ## New trees -/

/-- A tree is grown from complete configurations, unless its root is a leaf.  In the first case
the values have been counted, for the gains of the options; in the second nothing is known of
them, and nothing has to be. -/
theorem CTree.buildTree_cases {dom : Domain} {select : Selector} {tree tree' : CTree}
    (hsized : ∀ s, ∀ c ∈ tree.configs.get s, c.values.length = dom.nVars)
    (h : tree.buildTree dom select = .ok tree') :
    (∀ s, ∀ c ∈ tree.configs.get s, c.Complete dom) ∨
      ∃ nd, nd.isLeaf = true ∧ nd.depth = 0 ∧ nd.configs = fullRanges tree.configs ∧
        nd.newConfigs = [] ∧ tree' = { tree with root := some (.mk nd []) } := by
  obtain ⟨⟨root, vecs⟩, hrun, heq⟩ := bind_eq_ok.mp h
  cases heq
  rw [evaluateSplit] at hrun
  split at hrun
  · next hleaf =>
      obtain ⟨-, -, heq⟩ := bind_eq_ok.mp hrun
      cases heq
      refine .inr ⟨_, ?_, ?_, ?_, ?_, rfl⟩
      · exact hleaf
      · rfl
      · rfl
      · rfl
  · obtain ⟨freqMiss, hmiss, hrun⟩ := bind_eq_ok.mp hrun
    obtain ⟨freqHit, hhit, -⟩ := bind_eq_ok.mp hrun
    refine .inl fun s => ?_
    cases s with
    | false =>
        refine @complete_of_calcFreq _ _ freqMiss (hsized false) ?_
        rw [← hmiss]
        exact congrArg _ (SubRange.of_full _).symm
    | true =>
        refine @complete_of_calcFreq _ _ freqHit (hsized true) ?_
        rw [← hhit]
        exact congrArg _ (SubRange.of_full _).symm

section Right

variable {Name Hash : Type} [DecidableEq Name] [DecidableEq Hash] {env : Env Name Hash}

omit [DecidableEq Name] in
theorem mem_samples {cov : CoverageStore Name} {j : ℕ} {c : Config} {b : Bool} :
    c ∈ (cov.samples j).get b ↔ c ∈ cov.configs ∧ decide (j ∈ c.covLocs) = b := by
  cases b <;> simp [CoverageStore.samples]

omit [DecidableEq Hash] in
/-- The data a new tree is grown from. -/
theorem St.newTree_eq {s : St Name Hash} (hs : Stocked env s.cov) {j : ℕ} {t : CTree}
    (h : s.newTree env j = .ok t) :
    ∃ tree : CTree, tree.configs = s.cov.samples j ∧ tree.interpreter = [] ∧
      tree.nNewConfigs = ⟨0, 0⟩ ∧ tree.params.nCases = s.cov.nConfigs ∧
        tree.buildTree env.dom env.select = .ok t := by
  obtain ⟨loc, hloc, h⟩ := bind_eq_ok.mp h
  obtain ⟨tree, htree, hrun⟩ := bind_eq_ok.mp h
  obtain ⟨hist, hv⟩ := hs.valid
  rw [hv.prepareData env.dom (vecAt_eq_ok.mp hloc)] at htree
  cases htree
  exact ⟨_, rfl, rfl, rfl, rfl, hrun⟩

omit [DecidableEq Hash] in
/-- **A new tree is right about every configuration of the store.** -/
theorem St.newTree_right {s : St Name Hash} (hs : Stocked env s.cov) {j : ℕ} {t : CTree}
    (h : s.newTree env j = .ok t) {c : Config} (hc : c ∈ s.cov.configs) :
    t.verdict env.dom c = .ok (decide (j ∈ c.covLocs)) := by
  obtain ⟨tree, hconfigs, hcode, -, -, hrun⟩ := newTree_eq hs h
  have hside : c ∈ tree.configs.get (decide (j ∈ c.covLocs)) := by
    rw [hconfigs]
    exact mem_samples.mpr ⟨hc, rfl⟩
  have hsized : ∀ b, ∀ c ∈ tree.configs.get b, c.values.length = env.dom.nVars := by
    intro b c hmem
    rw [hconfigs] at hmem
    exact hs.sized c (mem_samples.mp hmem).1
  rcases CTree.buildTree_cases hsized hrun with hcomplete | ⟨nd, hleaf, -, hranges, -, rfl⟩
  · obtain ⟨⟨root, hfits⟩, -, hcode'⟩ := (CTree.buildTree_meets _ hcomplete).of_eq_ok hrun
    have hcomp := hcomplete _ c hside
    obtain ⟨b, hverdict, heval⟩ := CTree.verdict_of_wf hfits.root_eq hfits.wf
      (hcode'.trans hcode) hcomp
    rw [hverdict]
    cases hcov : decide (j ∈ c.covLocs) with
    | true =>
        rw [hcov] at hside
        rw [hfits.eval_hit hcomp hside, Option.some.injEq] at heval
        rw [heval]
    | false =>
        rw [hcov] at hside
        rw [hfits.eval_miss hcomp hside, Option.some.injEq] at heval
        rw [heval]
  · have hcode' : ({ tree with root := some (.mk nd []) } : CTree).interpreter = [] := hcode
    have hverdict := @CTree.verdict_of_leaf env.dom _ _ rfl hleaf hcode' c
    rw [hverdict, NodeData.leafValue, hranges]
    rw [NodeData.isLeaf, hranges] at hleaf
    have hpos := List.length_pos_of_mem hside
    cases hcov : decide (j ∈ c.covLocs) with
    | true =>
        rw [hcov] at hpos
        have hhit : (fullRanges tree.configs).hit.empty = false := by
          simpa [fullRanges, SubRange.empty] using hpos.ne
        simp [hhit]
    | false =>
        rw [hcov] at hpos
        have hmiss : (fullRanges tree.configs).miss.empty = false := by
          simpa [fullRanges, SubRange.empty] using hpos.ne
        rw [hmiss, Bool.or_false] at hleaf
        simp [hmiss, hleaf]

/-- `tree` is right about the first `n` configurations of the store, for the location `j`: its
verdict is whether they cover it.  That there is a verdict is part of this. -/
def CTree.RightOn (env : Env Name Hash) (cov : CoverageStore Name) (n j : ℕ) (tree : CTree) :
    Prop :=
  ∀ i < n, ∀ c, cov.configs[i]? = some c →
    tree.verdict env.dom c = .ok (decide (j ∈ c.covLocs))

omit [DecidableEq Name] [DecidableEq Hash] in
theorem CTree.SameCode.rightOn {cov : CoverageStore Name} {n j : ℕ} {tree tree' : CTree}
    (h : tree.SameCode env.dom tree') (hright : tree.RightOn env cov n j) :
    tree'.RightOn env cov n j := by
  intro i hi c hc
  rw [h.verdict_eq]
  exact hright i hi c hc

omit [DecidableEq Name] [DecidableEq Hash] in
/-- The store may grow. -/
theorem CTree.RightOn.grows {cov cov' : CoverageStore Name} {n j : ℕ} {tree : CTree}
    (h : tree.RightOn env cov n j) (hgrows : cov.Grows cov') (hn : n ≤ cov.nConfigs) :
    tree.RightOn env cov' n j := by
  intro i hi c hc
  have hlt : i < cov.configs.length := Nat.lt_of_lt_of_le hi hn
  have hsame := hgrows.configs i _ (List.getElem?_eq_getElem hlt)
  rw [hc, Option.some.injEq] at hsame
  rw [hsame]
  exact h i hi _ (List.getElem?_eq_getElem hlt)

omit [DecidableEq Hash] in
/-- **Trees stay right** while a record is worked on. -/
theorem keepsGood_rightOn (cov : CoverageStore Name) (n j : ℕ) :
    KeepsGood env cov j (CTree.RightOn env cov n j) where
  new s t hgrows hs ht i _ c hc :=
    St.newTree_right hs ht (List.mem_of_getElem? (hgrows.configs i c hc))
  test cov' t t' ids ok h hgood := by
    induction ids generalizing t with
    | nil =>
        cases h
        exact hgood
    | cons id ids ih =>
        obtain ⟨c, -, h⟩ := bind_eq_ok.mp h
        obtain ⟨⟨res, t₁⟩, htest, h⟩ := bind_eq_ok.mp h
        have hgood₁ := (CTree.testAddConfig_sameCode htest).rightOn hgood
        dsimp only at h
        split at h
        · cases h
          exact hgood₁
        · exact ih t₁ h hgood₁

end Right

end GenTree

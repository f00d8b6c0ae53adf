import GenTree.Counted
import GenTree.FinalReport
import GenTree.Formula
import GenTree.HitMiss

/-!
# The trees that are printed

`finish_alg` prints trees that have been counted with since they were built, and that may
have been compiled.  `CTree.Printable` is what all of them have: a well-formed productive
root, and no other code than that of the root.  The text of such a tree is read back to a
tree that decides alike (`CTree.Printable.read`), and either formula is the formula of its
shape (`CTree.Printable.sat_iff`).

`Printing` says that the records have printable trees, which every step of a run keeps
(`Stepped.printing`).  So every report of every run has been printed from such trees, and no
name is printed twice (`RunsTo.reports_printed`).
-/

namespace GenTree

open Outcome Leaders

/-! ## Counting keeps the shape -/

namespace CNode

variable {dom : Domain} {d val : Bool} {c : Config} {depth : ℕ}

theorem testAddConfigAt_shape {kids kids' : List CNode} {i : ℕ} {res : Bool × ℕ}
    (hkids : ∀ k ∈ kids, ∀ res k', k.testAddConfig d c val = .ok (res, k') →
      k'.Wf dom depth ∧ k'.shape d = k.shape d)
    (hwf : ∀ k ∈ kids, k.Wf dom depth) (h : testAddConfigAt d c val kids i = .ok (res, kids')) :
    (∀ k ∈ kids', k.Wf dom depth) ∧ kids'.map (shape d) = kids.map (shape d) := by
  induction kids generalizing i res kids' with
  | nil => cases h
  | cons k ks ih =>
      rw [List.forall_mem_cons] at hwf
      cases i with
      | zero =>
          obtain ⟨⟨res₁, k₁⟩, hrun, heq⟩ := bind_eq_ok.mp h
          cases heq
          obtain ⟨hwf₁, hshape⟩ := hkids k (List.mem_cons_self ..) _ _ hrun
          rw [List.forall_mem_cons, List.map_cons, List.map_cons, hshape]
          exact ⟨⟨hwf₁, hwf.2⟩, rfl⟩
      | succ i =>
          obtain ⟨⟨res₁, ks₁⟩, hrun, heq⟩ := bind_eq_ok.mp h
          cases heq
          obtain ⟨hwf₁, hshape⟩ := ih (fun k' hk' => hkids k' (List.mem_cons_of_mem _ hk'))
            hwf.2 hrun
          rw [List.forall_mem_cons, List.map_cons, List.map_cons, hshape]
          exact ⟨⟨hwf.1, hwf₁⟩, rfl⟩

/-- **`test_add_config` keeps the shape** of a well-formed node. -/
theorem Wf.testAddConfig_shape {t : CNode} (h : t.Wf dom depth) : ∀ {res : Bool × ℕ} {t' : CNode},
    t.testAddConfig d c val = .ok (res, t') → t'.Wf dom depth ∧ t'.shape d = t.shape d := by
  induction h with
  | @leaf depth nd hleaf hdepth =>
      intro res t' h
      rw [testAddConfig, if_pos hleaf] at h
      dsimp only at h
      split at h
      · obtain ⟨-, -, heq⟩ := bind_eq_ok.mp h
        cases heq
        exact ⟨.leaf hleaf hdepth, by rw [shape_leaf hleaf, shape_leaf (by exact hleaf)]; rfl⟩
      · cases h
        exact ⟨.leaf hleaf hdepth, rfl⟩
  | @node depth nd kids var hleaf hdepth hvar hlt hlen hkid ih =>
      intro res t' h
      rw [testAddConfig, if_neg (by simp [hleaf])] at h
      obtain ⟨i, -, h⟩ := bind_eq_ok.mp h
      obtain ⟨⟨res₁, kids₁⟩, hrun, heq⟩ := bind_eq_ok.mp h
      cases heq
      obtain ⟨hwf, hshape⟩ := testAddConfigAt_shape (fun k hk _ _ => ih k hk) hkid hrun
      have hlen₁ : kids₁.length = kids.length := by simpa using congrArg List.length hshape
      refine ⟨.node hleaf hdepth hvar hlt (hlen₁.trans hlen) hwf, ?_⟩
      rw [shape_node hleaf hvar, shape_node (by exact hleaf) (by exact hvar), hshape]

end CNode

/-! ## Printable trees -/

/-- Every option has a first value. -/
theorem Config.exists_complete (dom : Domain) : ∃ c : Config, c.Complete dom := by
  refine ⟨{ values := List.replicate dom.nVars 0 }, List.length_replicate, fun var v hv => ?_⟩
  rw [List.getElem?_replicate] at hv
  split at hv
  · next hlt =>
      obtain rfl := Option.some.inj hv
      exact ⟨le_rfl, by exact_mod_cast Domain.nValues_pos hlt⟩
  · cases hv

/-- The root is well formed and productive, the tree has no other code than that of the root,
and it accepts some configuration.  The last is so because a tree is grown only for a location
that has been covered, and what the shape accepts does not change while a tree is counted
with. -/
def CTree.Printable (dom : Domain) (tree : CTree) : Prop :=
  ∃ root, tree.root = some root ∧ root.Wf dom 0 ∧ (root.shape tree.defaultHit).Productive ∧
    (tree.interpreter = [] ∨ root.buildInterpreter dom tree.defaultHit [] = .ok tree.interpreter) ∧
    ∃ c : Config, c.Complete dom ∧ (root.shape tree.defaultHit).eval c.val = some true

namespace CTree

variable {dom : Domain} {tree tree' : CTree}

/-- Compiled code decides as the root does. -/
theorem SameAs.of_compiled {root : CNode} (hroot : tree.root = some root)
    (hcode : tree.interpreter = [] ∨
      root.buildInterpreter dom tree.defaultHit [] = .ok tree.interpreter)
    (h : ({ tree with interpreter := [] } : CTree).SameAs dom tree') : tree.SameAs dom tree' where
  shape := h.shape
  testConfig := h.testConfig
  buildZexpr := h.buildZexpr
  interpret c := by
    rw [← h.interpret]
    have hverdict := verdict_eq dom tree c
    have hverdict' := verdict_eq dom { tree with interpreter := [] } c
    rw [verdict] at hverdict hverdict'
    rw [hverdict, hverdict']
    simp only [code, hroot, Option.map_some, ne_eq, not_true_eq_false, if_false]
    split
    · next hne => rw [hcode.resolve_left hne, ok_bind]
    · rfl

namespace Printable

theorem testAddConfig {c : Config} {val : Bool} {res : Bool × ℕ} (h : tree.Printable dom)
    (hrun : tree.testAddConfig c val = .ok (res, tree')) : tree'.Printable dom := by
  obtain ⟨root, hroot, hwf, hprod, hcode, hsome⟩ := h
  obtain ⟨root₁, hroot₁, hrun⟩ := bind_eq_ok.mp hrun
  rw [rootNode, hroot] at hroot₁
  cases hroot₁
  obtain ⟨⟨res₁, root'⟩, htest, heq⟩ := bind_eq_ok.mp hrun
  cases heq
  obtain ⟨hwf', hshape⟩ := hwf.testAddConfig_shape htest
  have hsame : root.buildInterpreter dom tree.defaultHit [] =
      root'.buildInterpreter dom tree.defaultHit [] :=
    CNode.testAddConfig_buildInterpreter htest []
  refine ⟨root', rfl, hwf', ?_, ?_, ?_⟩
  · rw [hshape]
    exact hprod
  · rw [← hsame]
    exact hcode
  · rw [hshape]
    exact hsome

theorem buildInterpreter (h : tree.Printable dom) (hrun : tree.buildInterpreter dom = .ok tree') :
    tree'.Printable dom := by
  obtain ⟨root, hroot, hwf, hprod, hcode, hsome⟩ := h
  rw [CTree.buildInterpreter, hroot] at hrun
  split at hrun
  · cases hrun
    exact ⟨root, hroot, hwf, hprod, hcode, hsome⟩
  · obtain ⟨code, hbuild, heq⟩ := bind_eq_ok.mp hrun
    cases heq
    exact ⟨root, rfl, hwf, hprod, .inr hbuild, hsome⟩

theorem interpretAdd {c : Config} {res : Bool} (h : tree.Printable dom)
    (hrun : tree.interpretAdd dom c = .ok (res, tree')) : tree'.Printable dom := by
  obtain ⟨val, -, heq⟩ := bind_eq_ok.mp hrun
  cases heq
  exact h

/-- **The text of a printable tree** is that of its shape, and it is read back. -/
theorem read (h : tree.Printable dom) {text : List Char} (htext : tree.serialize = .ok text) :
    ∃ sh tree', text = shapeText sh false ∧ sh.Shaped dom.nValues ∧
      CTree.deserialize dom {} text = .ok (tree', []) ∧ tree.SameAs dom tree' := by
  obtain ⟨root, hroot, hwf, -, hcode, -⟩ := h
  obtain ⟨tree', root', htext', hread, hroot', hwf', hcode', hshape⟩ := deserialize_of_wf hroot hwf
  rw [htext, Except.ok.injEq] at htext'
  subst htext'
  refine ⟨_, tree', rfl, hwf.shaped _, hread, .of_compiled hroot hcode ?_⟩
  exact .of_shape hroot hroot' hwf hwf' rfl hcode' hshape

/-- **The formulas of a printable tree** hold where its shape evaluates to `true`, and the
walk ends with what the shape evaluates to. -/
theorem sat_iff (h : tree.Printable dom) : ∃ sh : DTree ℕ Bool,
    (∀ strat, ∃ e, tree.buildZexpr dom strat = .ok e ∧
      ∀ a, e.sat a = true ↔ sh.eval a = some true) ∧
    ∀ c : Config, c.Complete dom → ∃ b n, tree.testConfig c = .ok (b, n) ∧
      sh.eval c.val = some b := by
  obtain ⟨root, hroot, hwf, hprod, -, -⟩ := h
  refine ⟨root.shape tree.defaultHit, fun strat => ?_, fun c hc => ?_⟩
  · cases strat with
    | freeMix =>
        obtain ⟨e, hbuild, hform⟩ := hwf.buildZexprMixed hprod
        refine ⟨e, ?_, hform⟩
        rw [buildZexpr, rootNode, hroot, ok_bind]
        exact hbuild
    | disjOfConj =>
        refine ⟨_, by rw [buildZexpr, rootNode, hroot, ok_bind], fun a => ?_⟩
        rw [ZExpr.sat_mkOr, hwf.buildZexprDisjConj a .ztrue fun _ => ZExpr.sat_ztrue a]
        simp
  · obtain ⟨b, n, htest, heval⟩ := hwf.testConfig hc tree.defaultHit
    exact ⟨b, n, by rw [CTree.testConfig, rootNode, hroot, ok_bind, htest], heval⟩

/-- Some configuration satisfies the formula of a printable tree. -/
theorem exists_sat (h : tree.Printable dom) {strat : ExprStrat} {e : ZExpr}
    (he : tree.buildZexpr dom strat = .ok e) :
    ∃ c : Config, c.Complete dom ∧ e.sat c.val = true := by
  obtain ⟨sh, hsat, hwalk⟩ := h.sat_iff
  obtain ⟨root, hroot, hwf, -, -, c, hc, heval⟩ := h
  obtain ⟨e', he', hiff⟩ := hsat strat
  obtain rfl := Except.ok.inj (he'.symm.trans he)
  obtain ⟨b, n, htest, hb⟩ := hwalk c hc
  obtain ⟨b', n', htest', hb'⟩ := hwf.testConfig hc tree.defaultHit
  rw [CTree.testConfig, rootNode, hroot, ok_bind, htest', Except.ok.injEq, Prod.mk.injEq] at htest
  rw [heval, Option.some.injEq] at hb'
  refine ⟨c, hc, (hiff c.val).mpr ?_⟩
  rw [hb, ← htest.1, hb']

end Printable

end CTree

section Runs

variable {Name Hash : Type} [DecidableEq Name] [DecidableEq Hash] {env : Env Name Hash}

omit [DecidableEq Hash] in
/-- A location for which a tree is built has been covered. -/
theorem St.exists_hit_of_newTree {s : St Name Hash} (hs : Stocked env s.cov) {j : ℕ} {t : CTree}
    (h : s.newTree env j = .ok t) : ∃ c ∈ s.cov.configs, j ∈ c.covLocs := by
  obtain ⟨loc, hloc, -⟩ := bind_eq_ok.mp h
  have hget := vecAt_eq_ok.mp hloc
  obtain ⟨hist, hv⟩ := hs.valid
  obtain ⟨i, hi⟩ := List.exists_mem_of_ne_nil _ (hv.discovered loc (List.mem_of_getElem? hget))
  have hlt : i < s.cov.configs.length := by
    rw [hv.covBy loc (List.mem_of_getElem? hget), mem_covering] at hi
    obtain ⟨names, hnames, -⟩ := hi
    rw [hv.nConfigs]
    exact (List.getElem?_eq_some_iff.mp hnames).1
  have hc := List.getElem?_eq_getElem hlt
  exact ⟨_, List.getElem_mem hlt, (hv.mem_covLocs i _ hc j).mpr ⟨loc, hget, hi⟩⟩

omit [DecidableEq Hash] in
/-- A new tree is printable. -/
theorem St.newTree_printable {s : St Name Hash} (hs : Stocked env s.cov) {j : ℕ} {t : CTree}
    (h : s.newTree env j = .ok t) : t.Printable env.dom := by
  obtain ⟨hit, hmem, hcov⟩ := exists_hit_of_newTree hs h
  obtain ⟨tree, hconfigs, hcode, -, -, hrun⟩ := newTree_eq hs h
  have hhit : hit ∈ tree.configs.hit := by
    show hit ∈ tree.configs.get true
    rw [hconfigs]
    exact mem_samples.mpr ⟨hmem, decide_eq_true hcov⟩
  have hsized : ∀ b, ∀ c ∈ tree.configs.get b, c.values.length = env.dom.nVars := by
    intro b c hmem
    rw [hconfigs] at hmem
    exact hs.sized c (mem_samples.mp hmem).1
  rcases CTree.buildTree_cases hsized hrun with hcomplete | ⟨nd, hleaf, hdepth, hranges, -, rfl⟩
  · obtain ⟨⟨root, hfits⟩, -, hcode'⟩ := (CTree.buildTree_meets _ hcomplete).of_eq_ok hrun
    have hcomp := hcomplete true hit hhit
    exact ⟨root, hfits.root_eq, hfits.wf, hfits.productive (hcomplete true) _,
      .inl (hcode'.trans hcode), hit, hcomp, hfits.eval_hit hcomp hhit _⟩
  · obtain ⟨c, hc⟩ := Config.exists_complete env.dom
    refine ⟨_, rfl, .leaf hleaf hdepth, ?_, .inl hcode, c, hc, ?_⟩
    · rw [CNode.shape_leaf hleaf]
      exact .leaf _
    · -- the hits are in the leaf, so there are no misses in it
      have hempty : nd.configs.hit.empty = false := by
        rw [hranges]
        simpa [fullRanges, SubRange.empty] using (List.length_pos_of_mem hhit).ne
      rw [CNode.shape_leaf hleaf, DTree.eval_leaf, NodeData.leafValue, hempty]
      rfl

omit [DecidableEq Hash] in
/-- Testing configurations keeps a tree printable. -/
theorem keepsGood_printable (cov : CoverageStore Name) (j : ℕ) :
    KeepsGood env cov j (CTree.Printable env.dom) where
  new s t _ hs ht := St.newTree_printable hs ht
  test cov' t t' ids ok h hprint := by
    induction ids generalizing t with
    | nil =>
        cases h
        exact hprint
    | cons id ids ih =>
        obtain ⟨c, -, h⟩ := bind_eq_ok.mp h
        obtain ⟨⟨res, t₁⟩, htest, h⟩ := bind_eq_ok.mp h
        have hprint₁ := hprint.testAddConfig htest
        dsimp only at h
        split at h
        · cases h
          exact hprint₁
        · exact ih t₁ h hprint₁

/-! ## Trees in runs -/

/-- The trees that a report may print without building them are printable. -/
def Printing (env : Env Name Hash) (s : St Name Hash) : Prop :=
  ∀ (j : ℕ) (d : LocData), s.vLocData[j]? = some d → d.linked = false → d.ignored = false →
    d.Sound (CTree.Printable env.dom)

theorem tracked_printable : Tracked env fun _ _ _ t => t.Printable env.dom where
  grows _ _ _ _ _ _ _ h := h
  rule cov _ j _ := (keepsGood_printable cov j).rule

namespace Printing

variable {s s' : St Name Hash}

omit [DecidableEq Name] [DecidableEq Hash] in
theorem iff_soundTo : Printing env s ↔ SoundTo (fun _ _ _ t => t.Printable env.dom) s 0 0 :=
  Iff.rfl

omit [DecidableEq Name] [DecidableEq Hash] in
theorem of_eq (h : Printing env s) (hdat : s'.vLocData = s.vLocData) : Printing env s' := by
  intro j d hd
  rw [hdat] at hd
  exact h j d hd

omit [DecidableEq Name] [DecidableEq Hash] in
/-- One record is changed. -/
theorem set (h : Printing env s) {k : ℕ} {d' : LocData} (hdat : s'.vLocData = s.vLocData.set k d')
    (hd' : d'.Sound (CTree.Printable env.dom)) : Printing env s' := by
  intro j d hd hlinked hign
  rw [hdat] at hd
  obtain ⟨rfl, rfl⟩ | ⟨-, hd⟩ := getElem?_set_cases hd
  · exact hd'
  · exact h j d hd hlinked hign

omit [DecidableEq Name] [DecidableEq Hash] in
/-- **The re-check of one record.** -/
theorem rechecked {c : Config} {k : ℕ} {it it' : List ℕ} (h : Printing env s)
    (hre : Rechecked env c k it s s' it') : Printing env s' := by
  cases hre with
  | absent _ | skipped _ _ => exact h
  | @right d t t₁ t₂ hd hlinked _ hign htree hbuild heval =>
      refine h.set rfl fun hneed => ⟨t₂, rfl, ?_⟩
      obtain ⟨t', ht', hprint⟩ := h k d hd hlinked hign hneed
      rw [htree, Option.some.injEq] at ht'
      subst ht'
      exact (hprint.buildInterpreter hbuild).interpretAdd heval
  | wrong _ _ _ _ henq =>
      cases henq with
      | ignored _ _ _ _ hneed hstate =>
          subst hstate
          exact h.set (k := k) (by simp [St.setDat]) (LocData.sound_of_needRebuild hneed)
      | queued _ _ _ _ hneed _ hstate =>
          subst hstate
          exact h.set (k := k) (by simp [St.setDat]) (LocData.sound_of_needRebuild hneed)

/-- A report builds new trees at most. -/
theorem finished (h : Printing env s) (hs : Base env s) {buildTreeTemp : Bool} {iter : ℕ}
    (hfin : Finished env buildTreeTemp s iter s') : Printing env s' :=
  iff_soundTo.mpr ((iff_soundTo.mp h).finished tracked_printable hs (Nat.zero_le _) hfin)

/-- The block behind the loop builds new trees. -/
theorem preparedFinal (h : Printing env s) (hs : Base env s)
    (hprep : PreparedFinal env s s') : Printing env s' := by
  cases hprep with
  | same _ hstate => rwa [hstate]
  | @fresh s₁ new hnil hrun href =>
      obtain ⟨hcov, hlen, hdat⟩ := hs.prepareVecLocData hrun
      have hbase : Base env s₁ :=
        ⟨by rw [hcov]; exact hs.stocked, fun j d' hd' => (hs.prepared_dat (hdat j d' hd')).1,
          by rw [hlen, hcov], fun j d' hd' => (hs.prepared_dat (hdat j d' hd')).2⟩
      intro j d' hd' hlinked hign
      have hlt := (List.getElem?_eq_some_iff.mp hd').1
      rw [href.length] at hlt
      have hd := List.getElem?_eq_getElem hlt
      generalize s₁.vLocData[j] = d at hd
      obtain ⟨d₂, hd₂, hrefresh⟩ := href.dat_all j d hd
      rw [hd', Option.some.injEq] at hd₂
      subst hd₂
      cases hrefresh with
      | kept hor =>
          -- there were no records, so this one is new and due to be rebuilt
          cases hdat j d' hd with
          | linked _ _ _ _ hneed => exact LocData.sound_of_needRebuild hneed
          | kept _ hold _ =>
              rw [hnil] at hold
              cases hold
          | new _ _ _ _ _ hneed => exact LocData.sound_of_needRebuild hneed
      | @rebuilt t _ _ _ _ _ htree =>
          exact fun _ => ⟨t, rfl, St.newTree_printable hbase.stocked htree⟩

end Printing

/-- **Trees stay printable**: one step. -/
theorem Stepped.printing {x y : Label × St Name Hash} (h : Stepped env x y) (hx : Base env x.2)
    (hprint : Printing env x.2) : Printing env y.2 := by
  cases h with
  | start _ => exact Printing.iff_soundTo.mpr (Printing.iff_soundTo.mp hprint).started
  | stop | endTurns _ | pick _ | «return» _ | endConfig _ | terminate | enqueueAll | goOn
  | giveUp | brk _ | quiet _ | noSave | done => exact hprint.of_eq rfl
  | turn _ hrun =>
      have hsound := Printing.iff_soundTo.mp hprint
      exact Printing.iff_soundTo.mpr (hsound.turn tracked_printable hx (Nat.zero_le _) hrun)
  | recheck _ _ hre => exact hprint.rechecked hre
  | @usr _ s s' _ hfin =>
      have hread : Printing env (s.readSignal env) := hprint.of_eq rfl
      exact (hread.finished (hx.of_eq rfl rfl) hfin).of_eq rfl
  | save hfin => exact hprint.finished hx hfin
  | finish hprep hfin =>
      exact (hprint.preparedFinal hx hprep).finished (hx.preparedFinal hprep) hfin

/-! ## Printed groups -/

/-- The formula and the text of the group are those of the tree `t`. -/
structure Group.PrintedFrom (dom : Domain) (strat : ExprStrat) (g : Group Name) (t : CTree) :
    Prop where
  printable : t.Printable dom
  expr : t.buildZexpr dom strat = .ok g.expr
  tree : t.serialize = .ok g.tree

/-- Every group of the report has names and has been printed from a tree, and no name is
printed twice. -/
structure Report.Printed (dom : Domain) (strat : ExprStrat) (r : Report Name) : Prop where
  printedFrom : ∀ g ∈ r.groups, ∃ t, g.PrintedFrom dom strat t
  names_ne : ∀ g ∈ r.groups, g.names ≠ []
  nodup : (r.groups.flatMap Group.names).Nodup

omit [DecidableEq Hash] in
/-- The tree that a report prints a record with is printable. -/
theorem Printing.printable {s : St Name Hash} (h : Printing env s) (hs : Base env s) {j : ℕ}
    {d : LocData} {t : CTree} (hd : s.vLocData[j]? = some d) (hlinked : d.linked = false)
    (hdue : d.ignored = true → d.needRebuild = true)
    (htree : if d.needRebuild then s.newTree env d.loc = .ok t else d.tree = some t) :
    t.Printable env.dom := by
  cases hneed : d.needRebuild with
  | true =>
      rw [if_pos hneed] at htree
      exact St.newTree_printable hs.stocked htree
  | false =>
      rw [if_neg (by simp [hneed])] at htree
      have hign : d.ignored = false := by
        by_contra htrue
        rw [hdue (by simpa using htrue)] at hneed
        cases hneed
      obtain ⟨t', ht', hprintable⟩ := h j d hd hlinked hign hneed
      rw [htree, Option.some.injEq] at ht'
      rwa [ht']

omit [DecidableEq Hash] in
/-- Nothing dies of printing such a tree. -/
theorem CTree.Printable.not_unprintable {s : St Name Hash} {t : CTree} (h : t.Printable env.dom)
    (hs : Base env s) (j : ℕ) (a : Abort) : ¬ Unprintable env s j t a := by
  rintro (hexpr | hnames | htext)
  · obtain ⟨sh, hsat, -⟩ := h.sat_iff
    obtain ⟨e, he, -⟩ := hsat (St.exprStrat env)
    rw [he] at hexpr
    cases hexpr
  · rw [St.groupNames_eq hs] at hnames
    cases hnames
  · obtain ⟨root, hroot, -⟩ := h
    rw [CTree.serialize, CTree.rootNode, hroot, ok_bind] at htext
    cases htext

omit [DecidableEq Hash] in
theorem GroupOf.printedFrom {s : St Name Hash} {j : ℕ} {g : Group Name} (hg : GroupOf env s j g)
    (hs : Base env s) (hprint : Printing env s)
    (hj : j ∈ s.unlinkedOf (List.range s.vLocData.length)) :
    ∃ t, g.PrintedFrom env.dom (St.exprStrat env) t := by
  obtain ⟨d₀, hd₀, hlinked⟩ := St.mem_unlinkedOf.mp hj
  obtain ⟨d, d', t, hd, -, hdue, htree, hrun⟩ := hg.print
  rw [hd, Option.some.injEq] at hd₀
  subst hd₀
  have hprintable := hprint.printable hs hd hlinked hdue htree
  obtain ⟨expr, hexpr, hrun⟩ := bind_eq_ok.mp hrun
  obtain ⟨names, -, hrun⟩ := bind_eq_ok.mp hrun
  obtain ⟨text, htext, hrun⟩ := bind_eq_ok.mp hrun
  cases hrun
  exact ⟨t, hprintable, hexpr, htext⟩

omit [DecidableEq Hash] in
/-- A group has the name of its record. -/
theorem GroupOf.names_ne_nil {s : St Name Hash} {j : ℕ} {g : Group Name} (hg : GroupOf env s j g)
    (hs : Base env s) (hj : j ∈ s.unlinkedOf (List.range s.vLocData.length)) : g.names ≠ [] := by
  obtain ⟨d, hd, hlinked⟩ := St.mem_unlinkedOf.mp hj
  have hnone : d.parent = none := by simpa [LocData.linked] using hlinked
  have hlt := Nat.lt_of_lt_of_le (List.getElem?_eq_some_iff.mp hd).1 hs.length_le
  have hroot : d.root = j := by rw [LocData.root, hnone, Option.getD_none, hs.loc_eq j d hd]
  have hmem := (GroupOf.mem_names_iff hs hg (List.getElem?_eq_getElem hlt)).mpr ⟨d, hd, hroot⟩
  exact List.ne_nil_of_mem hmem

omit [DecidableEq Hash] in
/-- No name is printed twice. -/
theorem nodup_names {s : St Name Hash} {groups : List (Group Name)} (hs : Base env s)
    (hgroups : List.Forall₂ (GroupOf env s) (s.unlinkedOf (List.range s.vLocData.length)) groups) :
    (groups.flatMap Group.names).Nodup := by
  obtain ⟨hist, hv⟩ := hs.stocked.valid
  have hlocs : (s.cov.locs.map Location.name).Nodup := by
    refine List.nodup_iff_injective_get.mpr fun i j heq => Fin.ext ?_
    have hi := List.getElem?_eq_getElem (by simpa using i.isLt : i.val < s.cov.locs.length)
    have hj := List.getElem?_eq_getElem (by simpa using j.isLt : j.val < s.cov.locs.length)
    exact hv.name_inj hi hj (by simpa using heq)
  have hrecords : (s.vLocData.filterMap s.nameOf).Nodup := by
    rw [St.filterMap_nameOf hs]
    exact hlocs.sublist ((List.take_sublist _ _).map _)
  have hids : (s.unlinkedOf (List.range s.vLocData.length)).Nodup := List.nodup_range.filter _
  rw [flatMap_names_eq hs hgroups,
    ((flatMap_filter_perm_filter hids s.vLocData).filterMap s.nameOf).nodup_iff]
  exact hrecords.sublist (List.filter_sublist.filterMap _)

omit [DecidableEq Hash] in
/-- **What a report prints.** -/
theorem Finished.printed {s s' : St Name Hash} {buildTreeTemp : Bool} {iter : ℕ}
    (h : Finished env buildTreeTemp s iter s') (hs : Base env s) (hprint : Printing env s)
    {r : Report Name} (hr : r ∈ s'.reports) :
    r ∈ s.reports ∨ r.Printed env.dom (St.exprStrat env) := by
  obtain ⟨groups, hreports, hgroups⟩ := h.reports
  rw [hreports] at hr
  refine (List.mem_append.mp hr).imp_right fun hr => ?_
  rw [List.mem_singleton] at hr
  subst hr
  refine ⟨fun g hg => ?_, fun g hg => ?_, nodup_names hs hgroups⟩
  · obtain ⟨j, hj, hof⟩ := forall₂_exists_left hgroups hg
    exact hof.printedFrom hs hprint hj
  · obtain ⟨j, hj, hof⟩ := forall₂_exists_left hgroups hg
    exact hof.names_ne_nil hs hj

/-- **The reports stay as they were printed**: one step. -/
theorem Stepped.reportsPrinted {x y : Label × St Name Hash} (h : Stepped env x y)
    (hx : Base env x.2) (hprint : Printing env x.2)
    (hreports : ∀ r ∈ x.2.reports, r.Printed env.dom (St.exprStrat env)) :
    ∀ r ∈ y.2.reports, r.Printed env.dom (St.exprStrat env) := by
  cases h with
  | start _ | stop | endTurns _ | pick _ | «return» _ | endConfig _ | terminate | enqueueAll | goOn
  | giveUp | brk _ | quiet _ | noSave | done => exact hreports
  | turn _ hrun =>
      obtain ⟨d, d', -, hturned⟩ := hx.turned hrun
      rw [hturned.reports]
      exact hreports
  | recheck _ _ hre =>
      rw [hre.reports]
      exact hreports
  | @usr _ s s' _ hfin =>
      have hread : Printing env (s.readSignal env) := hprint.of_eq rfl
      intro r hr
      exact (hfin.printed (hx.of_eq rfl rfl) hread hr).elim (hreports r) id
  | save hfin =>
      intro r hr
      exact (hfin.printed hx hprint hr).elim (hreports r) id
  | @finish _ s s₁ s' hprep hfin =>
      intro r hr
      refine (hfin.printed (hx.preparedFinal hprep) (hprint.preparedFinal hx hprep) hr).elim ?_ id
      intro hr
      rw [hprep.reports] at hr
      exact hreports r hr

/-- **Trees are printable** throughout a run. -/
theorem RunsTo.printing {guard : Label × St Name Hash → Prop} {l : Label} {s : St Name Hash}
    (h : RunsTo env guard l s) : Printing env s := by
  refine h.invariant (fun x => Printing env x.2) (fun x y hx hprint _ hstep =>
    hstep.printing hx.base hprint) fun s₀ hinit j d hd => ?_
  obtain ⟨-, hnil, -⟩ := env.init_meets.of_eq_ok hinit
  rw [hnil] at hd
  cases hd

/-- **Every report of every run** has been printed from printable trees. -/
theorem RunsTo.reports_printed {guard : Label × St Name Hash → Prop} {l : Label}
    {s : St Name Hash} (h : RunsTo env guard l s) :
    ∀ r ∈ s.reports, r.Printed env.dom (St.exprStrat env) := by
  refine h.invariant (fun x => ∀ r ∈ x.2.reports, r.Printed env.dom (St.exprStrat env))
    (fun x y hx hreports _ hstep => hstep.reportsPrinted hx.base hx.printing hreports)
    fun s₀ hinit r hr => ?_
  obtain ⟨-, -, -, -, -, -, -, hnone⟩ := env.init_meets.of_eq_ok hinit
  rw [hnone] at hr
  cases hr

end Runs

end GenTree

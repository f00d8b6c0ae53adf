import GenTree.RunConfigs

/-!
# What happens to a record

Records change in three places: when it is their turn in the first loop of
`run_iter`, when the re-check passes them, and when `prepare_vec_loc_data` links
and unlinks them.  This module says once what each of them can do, guards
included, so that the invariants of a run are derived from these statements and
not from the code.

The tree of a record is followed by a predicate `Good` that new trees have and
that `test_add_config` keeps.  A record is `Sound` when its tree is good unless it
is due to be rebuilt.  With `Good` always true this says that the tree is not
null; with `Good` "right about the first `n` configurations" it is the invariant
of the re-check.

No assumption is made about the hash of a location.
-/

namespace GenTree

open Outcome

/-- The `CHECK`s of the scheduling: those of `run_iter`, `run_one_loc`,
`enqueue_next` and `build_tree`. -/
def Fault.Scheduling : Fault → Prop
  | .iterDup | .iterLinked | .oneLocLinked | .oneLocNullTree | .recheckNullTree
  | .enqueueIgnored | .buildNotNeeded => True
  | .lower _ | .confRanTwice | .confHashSizes | .finishIgnored | .finishNullTree => False

/-- The faults that come from below, or that a hash of a configuration causes. -/
def Fault.Plain : Fault → Prop
  | .lower _ | .confRanTwice | .confHashSizes => True
  | .iterDup | .iterLinked | .oneLocLinked | .oneLocNullTree | .recheckNullTree
  | .enqueueIgnored | .buildNotNeeded | .finishIgnored | .finishNullTree => False

namespace LocData

/-- The fields that say where a record stands in the schedule. -/
structure SameRole (d d' : LocData) : Prop where
  loc : d'.loc = d.loc
  parent : d'.parent = d.parent
  queuedNext : d'.queuedNext = d.queuedNext
  ignored : d'.ignored = d.ignored

theorem SameRole.trans {d d' d'' : LocData} (h : d.SameRole d') (h' : d'.SameRole d'') :
    d.SameRole d'' :=
  ⟨h'.loc.trans h.loc, h'.parent.trans h.parent, h'.queuedNext.trans h.queuedNext,
    h'.ignored.trans h.ignored⟩

/-- A record is **sound** when its tree is good or due to be rebuilt. -/
def Sound (Good : CTree → Prop) (d : LocData) : Prop :=
  d.needRebuild = false → ∃ t, d.tree = some t ∧ Good t

theorem sound_of_needRebuild {Good : CTree → Prop} {d : LocData} (h : d.needRebuild = true) :
    d.Sound Good := fun hfalse => by simp [h] at hfalse

end LocData

section Records

variable {Name Hash : Type} [DecidableEq Name] [DecidableEq Hash] {env : Env Name Hash}

/-- The store is valid and every configuration in it has a value for each
option. -/
structure Stocked (env : Env Name Hash) (cov : CoverageStore Name) : Prop where
  valid : ∃ hist, cov.Valid hist
  sized : ∀ c ∈ cov.configs, c.values.length = env.dom.nVars

/-- New trees for the location `loc` are good, from the store `cov` on, and testing
configurations keeps a tree good. -/
structure KeepsGood (env : Env Name Hash) (cov : CoverageStore Name) (loc : ℕ)
    (Good : CTree → Prop) : Prop where
  new : ∀ (s : St Name Hash) (t : CTree), cov.Grows s.cov → Stocked env s.cov →
    s.newTree env loc = .ok t → Good t
  test : ∀ (cov : CoverageStore Name) (t t' : CTree) (ids : List ℕ) (ok : Bool),
    St.testCex cov loc t ids = .ok (t', ok) → Good t → Good t'

omit [DecidableEq Hash] in
theorem keepsGood_true (cov : CoverageStore Name) (loc : ℕ) :
    KeepsGood env cov loc fun _ => True :=
  ⟨fun _ _ _ _ _ => trivial, fun _ _ _ _ _ _ _ => trivial⟩

/-- The same for a predicate that looks at the store the tree is used with: new trees
have it, and it outlives a run of configurations that the tree has been right about. -/
structure TreeRule (env : Env Name Hash) (cov : CoverageStore Name) (loc : ℕ)
    (Good : CoverageStore Name → CTree → Prop) : Prop where
  new : ∀ (s : St Name Hash) (t : CTree), cov.Grows s.cov → Stocked env s.cov →
    s.newTree env loc = .ok t → Good s.cov t
  test : ∀ (s s' : St Name Hash) (cs : List Config) (ids : List ℕ) (t t' : CTree),
    cov.Grows s.cov → Stocked env s.cov → AllFresh env.dom cs →
      s.runConfigs env cs = .ok (s', ids) → St.testCex s'.cov loc t ids = .ok (t', true) →
        Good s.cov t → Good s'.cov t'

theorem TreeRule.mono {cov cov' : CoverageStore Name} {loc : ℕ}
    {Good : CoverageStore Name → CTree → Prop} (h : TreeRule env cov loc Good)
    (hgrows : cov.Grows cov') : TreeRule env cov' loc Good :=
  ⟨fun s t hs => h.new s t (hgrows.trans hs),
    fun s s' cs ids t t' hs => h.test s s' cs ids t t' (hgrows.trans hs)⟩

theorem KeepsGood.rule {cov : CoverageStore Name} {loc : ℕ} {Good : CTree → Prop}
    (h : KeepsGood env cov loc Good) : TreeRule env cov loc fun _ => Good :=
  ⟨h.new, fun _ _ _ ids t t' _ _ _ _ htest hgood => h.test _ t t' ids true htest hgood⟩

/-! ## Making counterexamples -/

/-- Making configurations changes the hashes that are known, and uses draws and
solver calls. -/
def Drew (s s' : St Name Hash) : Prop :=
  s' = { s with setConfHash := s'.setConfHash, rng := s'.rng, solverCalls := s'.solverCalls }

omit [DecidableEq Name] [DecidableEq Hash] in
theorem Drew.trans {s s' s'' : St Name Hash} (h : Drew s s') (h' : Drew s' s'') : Drew s s'' := by
  rw [Drew] at h h' ⊢
  rw [h', h]

/-- The result of a function that makes configurations. -/
def Made (env : Env Name Hash) (s : St Name Hash) (r : St Name Hash × List Config) : Prop :=
  Drew s r.1 ∧ AllFresh env.dom r.2

/-- The faults of the code below. -/
def Fault.IsLower (f : Fault) : Prop := ∃ a, f = .lower a

theorem Fault.isLower (a : Abort) : (Fault.lower a).IsLower := ⟨a, rfl⟩

/-- The configuration `c` has been made for a leaf of some tree. -/
def Config.ForLeaf (env : Env Name Hash) (c : Config) : Prop :=
  ∃ (tree : CTree) (node : NodeRef) (lim : ℤ) (rng solverCalls : ℕ) (r : List Config × ℕ × ℕ),
    tree.genOneConveringConfigs env.dom env.draws env.solver env.confHash node lim rng
      solverCalls = .ok r ∧ c ∈ r.1

/-- `P` is kept by whatever makes configurations: it does not look at the draws and
the solver calls used, and offering a configuration keeps it. -/
structure CexRule (env : Env Name Hash) (P : St Name Hash × List Config → Prop) : Prop where
  draws : ∀ (s : St Name Hash) (cex : List Config) (rng solverCalls : ℕ),
    P (s, cex) → P ({ s with rng, solverCalls }, cex)
  add : ∀ (p : St Name Hash × List Config) (c : Config), c.ForLeaf env → P p →
    P (St.addCex env p c)

namespace CexRule

variable {P : St Name Hash × List Config → Prop} {p : St Name Hash × List Config}

omit [DecidableEq Name]

theorem genFor (h : CexRule env P) (tree : CTree) (node : NodeRef) (hp : P p) :
    Meets (St.genFor env tree p node) P Fault.IsLower := by
  obtain ⟨s, cex⟩ := p
  rw [St.genFor]
  refine meets_lift_bind Fault.isLower fun r hr => ?_
  refine List.foldlRecOn r.1 (St.addCex env) (motive := P) (h.draws s cex _ _ hp) ?_
  exact fun p hp c hc => h.add p c ⟨_, _, _, _, _, r, hr, hc⟩ hp

theorem genOver (h : CexRule env P) (tree : CTree) (n : ℤ) (nodes : List NodeRef) (hp : P p) :
    Meets (St.genOver env tree n nodes p) P Fault.IsLower := by
  induction nodes generalizing p with
  | nil => exact hp
  | cons node nodes ih =>
      rw [St.genOver]
      split
      · exact hp
      · exact meets_bind (h.genFor tree node hp) fun p' hp' => ih hp'

theorem genRand (h : CexRule env P) (tree : CTree) (n : ℤ) (leaves : List NodeRef) (k : ℕ)
    (hp : P p) : Meets (St.genRand env tree n leaves k p) P Fault.IsLower := by
  induction k generalizing p with
  | zero => exact hp
  | succ k ih =>
      obtain ⟨s, cex⟩ := p
      rw [St.genRand]
      split
      · exact hp
      · refine meets_lift_bind Fault.isLower fun r _ => ?_
        refine meets_lift_bind Fault.isLower fun node _ => ?_
        exact meets_bind (h.genFor tree node (h.draws s cex r.2 s.solverCalls hp))
          fun p' hp' => ih hp'

theorem genCex (h : CexRule env P) {s : St Name Hash} (tree : CTree) (leaves : List NodeRef)
    (nGen : ℤ × ℤ × ℤ) (hp : P (s, [])) :
    Meets (s.genCex env tree leaves nGen) P Fault.IsLower := by
  rw [St.genCex]
  refine meets_bind (h.genOver tree _ leaves hp) fun p hp => ?_
  refine meets_bind (h.genRand tree _ leaves 10 hp) fun p hp => ?_
  exact h.genOver tree _ leaves.reverse hp

/-- The counterexamples of `run_one_loc`. -/
theorem makeCex (h : CexRule env P) {s : St Name Hash} (tree : CTree) (heavy : Bool)
    (hp : P (s, [])) : Meets (s.makeCex env tree heavy) P Fault.IsLower := by
  rw [St.makeCex]
  split
  · exact meets_lift_bind Fault.isLower fun leaves _ => h.genCex tree _ _ hp
  · refine meets_lift_bind Fault.isLower fun n _ => ?_
    refine meets_lift_bind Fault.isLower fun leaves _ => ?_
    refine meets_bind (h.genCex tree _ _ hp) fun p hp => ?_
    obtain ⟨s₁, cex⟩ := p
    dsimp only
    split
    · exact hp
    · next hnil =>
        rw [not_not] at hnil
        subst hnil
        exact meets_lift_bind Fault.isLower fun leaves' _ => h.genCex tree _ _ hp

end CexRule

omit [DecidableEq Name] in
theorem made_cexRule (s : St Name Hash) : CexRule env (Made env s) where
  draws s' cex rng solverCalls h := ⟨h.1.trans (show Drew s' _ from rfl), h.2⟩
  add p c hc hp := by
    obtain ⟨tree, node, lim, rng, solverCalls, r, hr, hmem⟩ := hc
    have hfresh := (tree.genOneConveringConfigs_fresh node lim rng solverCalls).of_eq_ok hr c hmem
    rw [St.addCex]
    dsimp only
    split
    · exact hp
    · exact ⟨hp.1.trans (show Drew p.1 _ from rfl), hp.2.concat hfresh.touchHash⟩

omit [DecidableEq Name] in
theorem St.makeCex_meets (s : St Name Hash) (tree : CTree) (heavy : Bool) :
    Meets (s.makeCex env tree heavy) (Made env s) Fault.IsLower :=
  (made_cexRule s).makeCex tree heavy ⟨rfl, by simp [AllFresh]⟩

/-! ## A turn -/

omit [DecidableEq Hash] in
/-- Running configurations keeps the store in order. -/
theorem Stocked.ran {s s' : St Name Hash} {cs : List Config} (hs : Stocked env s.cov)
    (h : Ran env s cs s') (hcs : AllFresh env.dom cs) : Stocked env s'.cov := by
  refine ⟨hs.valid.imp' _ fun hist hh => h.valid hist hh, fun c hc => ?_⟩
  have hmem := List.mem_map_of_mem (f := Config.values) hc
  rw [h.values, List.mem_append, List.mem_map, List.mem_map] at hmem
  obtain ⟨c', hc', heq⟩ | ⟨c', hc', heq⟩ := hmem
  · rw [← heq, hs.sized c' hc']
  · rw [← heq, (hcs c' hc').length]

/-- What is left of the state when the record `j` has been worked on: the store
has grown, and no other record, no list and no counter of the schedule has
changed. -/
structure Worked (env : Env Name Hash) (j : ℕ) (d' : LocData) (s s' : St Name Hash) : Prop where
  vLocData : s'.vLocData = s.vLocData.set j d'
  grows : s.cov.Grows s'.cov
  stocked : Stocked env s'.cov
  terminateCounter : s'.terminateCounter = s.terminateCounter
  vThisIter : s'.vThisIter = s.vThisIter
  vNextIter : s'.vNextIter = s.vNextIter
  vUniq : s'.vUniq = s.vUniq
  prevNConf : s'.prevNConf = s.prevNConf
  reports : s'.reports = s.reports
  signal : (∀ k, env.arrives k = none) → s'.signal = s.signal

namespace Worked

variable {j : ℕ} {d d' d'' : LocData} {s s' s'' : St Name Hash}

omit [DecidableEq Hash]

theorem refl (hs : Stocked env s.cov) (hd : s.vLocData[j]? = some d) : Worked env j d s s :=
  ⟨(List.set_of_getElem? hd).symm, .refl _, hs, rfl, rfl, rfl, rfl, rfl, rfl, fun _ => rfl⟩

theorem trans (h : Worked env j d' s s') (h' : Worked env j d'' s' s'') :
    Worked env j d'' s s'' where
  vLocData := by rw [h'.vLocData, h.vLocData, List.set_set]
  grows := h.grows.trans h'.grows
  stocked := h'.stocked
  terminateCounter := h'.terminateCounter.trans h.terminateCounter
  vThisIter := h'.vThisIter.trans h.vThisIter
  vNextIter := h'.vNextIter.trans h.vNextIter
  vUniq := h'.vUniq.trans h.vUniq
  prevNConf := h'.prevNConf.trans h.prevNConf
  reports := h'.reports.trans h.reports
  signal hsig := (h'.signal hsig).trans (h.signal hsig)

theorem getElem? (h : Worked env j d' s s') (hd : s.vLocData[j]? = some d) :
    s'.vLocData[j]? = some d' := by
  rw [h.vLocData, List.getElem?_set_self (List.getElem?_eq_some_iff.mp hd).1]

theorem setDat (h : Worked env j d' s s') (d'' : LocData) :
    Worked env j d'' s (s'.setDat j d'') :=
  ⟨by rw [St.setDat, h.vLocData, List.set_set], h.grows, h.stocked, h.terminateCounter,
    h.vThisIter, h.vNextIter, h.vUniq, h.prevNConf, h.reports, h.signal⟩

/-- Reading the signal status touches no record. -/
theorem of_readSignal (hs : Stocked env s.cov) (hd : s.vLocData[j]? = some d) :
    Worked env j d s (s.readSignal env) :=
  ⟨(List.set_of_getElem? hd).symm, .refl _, hs, rfl, rfl, rfl, rfl, rfl, rfl,
    fun hsig => by rw [St.readSignal, hsig, Option.none_or]⟩

/-- Making configurations touches no record. -/
theorem of_drew (h : Drew s s') (hs : Stocked env s.cov) (hd : s.vLocData[j]? = some d) :
    Worked env j d s s' := by
  rw [Drew] at h
  rw [h]
  exact ⟨(List.set_of_getElem? hd).symm, .refl _, hs, rfl, rfl, rfl, rfl, rfl, rfl, fun _ => rfl⟩

/-- Running configurations touches no record. -/
theorem of_ran {cs : List Config} (h : Ran env s cs s') (hcs : AllFresh env.dom cs)
    (hs : Stocked env s.cov) (hd : s.vLocData[j]? = some d) : Worked env j d s s' := by
  have hstocked := hs.ran h hcs
  have hgrows := h.grows hs.valid
  have hstate := h.state
  exact ⟨by rw [hstate, List.set_of_getElem? hd], hgrows, hstocked, by rw [hstate], by rw [hstate],
    by rw [hstate], by rw [hstate], by rw [hstate], by rw [hstate], fun _ => by rw [hstate]⟩

end Worked

omit [DecidableEq Name] [DecidableEq Hash] in
theorem St.dat_eq {s : St Name Hash} {j : ℕ} {d : LocData} (hd : s.vLocData[j]? = some d) :
    s.dat j = .ok d := vecAt_of_getElem? hd

omit [DecidableEq Name] [DecidableEq Hash] in
/-- `build_tree` stops at its own `CHECK` only when the record is not to be
rebuilt. -/
theorem St.buildTree_meets {s : St Name Hash} {j iter : ℕ} {d : LocData}
    (hd : s.vLocData[j]? = some d) :
    Meets (s.buildTree env j iter)
      (fun s' => ∃ t, s.newTree env d.loc = .ok t ∧ s' = s.setDat j { d with
        tree := some t, needRebuild := false, lastBuildIter := iter
        lastBuildNConfigs := s.cov.nConfigs })
      (fun f => (∃ a, f = .lower a ∧ s.newTree env d.loc = .error a) ∨
        f = .buildNotNeeded ∧ d.needRebuild = false) := by
  rw [buildTree, dat_eq hd, lift_ok, ok_bind]
  refine meets_check_bind (fun _ => ?_) fun hne => .inr ⟨rfl, by simpa using hne⟩
  exact meets_lift_bind_of_eq (fun a ha => .inl ⟨a, rfl, ha⟩) fun t ht => ⟨t, ht, rfl⟩

/-- **`run_one_loc`**, called as `run_iter` calls it, leaves a record with a tree, which
is good when it has been right. -/
theorem St.runOneLoc_meets {s : St Name Hash} (hs : Stocked env s.cov) {iter j : ℕ} {d : LocData}
    (hd : s.vLocData[j]? = some d) {Good : CoverageStore Name → CTree → Prop}
    (hgood : TreeRule env s.cov d.loc Good) (hsound : d.Sound (Good s.cov)) :
    Meets (s.runOneLoc env iter j d.needRebuild (!d.needRebuild))
      (fun r => ∃ d' t, Worked env j d' s r.1 ∧ d.SameRole d' ∧ d'.tree = some t ∧
        (r.2 = true → Good r.1.cov t))
      (fun f => f.Plain ∨ f = .oneLocLinked ∧ d.linked = true) := by
  rw [runOneLoc, dat_eq hd, lift_ok, ok_bind]
  refine meets_check_bind (fun hlinked => ?_) fun hne => .inr ⟨rfl, by simpa using hne⟩
  -- the record with its old or its new tree
  have hbuild : Meets (if d.needRebuild then s.buildTree env j iter else .ok s)
      (fun s' => s'.cov = s.cov ∧ ∃ d' t, Worked env j d' s s' ∧ d.SameRole d' ∧
        d'.tree = some t ∧ Good s'.cov t) (fun f => f.Plain ∨ f = .oneLocLinked ∧ d.linked = true) := by
    cases hneed : d.needRebuild with
    | true =>
        refine (buildTree_meets hd).mono ?_ ?_
        rotate_left
        · rintro f (⟨a, rfl, -⟩ | ⟨rfl, hfalse⟩)
          · exact .inl trivial
          · simp [hneed] at hfalse
        rintro s' ⟨t, ht, rfl⟩
        exact ⟨rfl, _, t, (Worked.refl hs hd).setDat _, ⟨rfl, rfl, rfl, rfl⟩, rfl,
          hgood.new s t (.refl _) hs ht⟩
    | false =>
        obtain ⟨t, ht, hg⟩ := hsound hneed
        exact ⟨rfl, d, t, .refl hs hd, ⟨rfl, rfl, rfl, rfl⟩, ht, hg⟩
  refine meets_bind hbuild ?_
  rintro s₁ ⟨hcov, d₁, t, hwork, hrole, htree, hg⟩
  rw [dat_eq (hwork.getElem? hd), lift_ok, ok_bind]
  simp only [htree]
  refine meets_bind ((makeCex_meets s₁ t _).mono (fun _ h => h) ?_) ?_
  · rintro f ⟨a, rfl⟩
    exact .inl trivial
  rintro ⟨s₂, cex⟩ ⟨hdrew, hfresh⟩
  have hwork₂ := hwork.trans (.of_drew hdrew hwork.stocked (hwork.getElem? hd))
  dsimp only at hdrew hwork₂ hfresh ⊢
  have hg₂ : Good s₂.cov t := by rw [hdrew]; exact hg
  split
  · exact ⟨d₁, t, hwork₂, hrole, htree, fun _ => hg₂⟩
  · have hruns := runConfigs_meets hwork₂.stocked.valid hfresh
    refine meets_bind_of_eq (fun f hf => ?_) fun r hrun => ?_
    · obtain ⟨rfl, -⟩ := hruns.of_eq_error hf
      exact .inl trivial
    obtain ⟨s₃, ids⟩ := r
    have hran := hruns.of_eq_ok hrun
    refine meets_lift_bind (fun _ => .inl trivial) fun r hr => ?_
    have hwork₃ := hwork₂.trans (.of_ran hran hfresh hwork₂.stocked (hwork₂.getElem? hd))
    refine ⟨{ d₁ with tree := some r.1 }, r.1, hwork₃.setDat _, ?_, rfl, fun hok => ?_⟩
    · exact hrole.trans ⟨rfl, rfl, rfl, rfl⟩
    · refine hgood.test s₂ s₃ cex ids t r.1 hwork₂.grows hwork₂.stocked hfresh hrun ?_ hg₂
      rw [← hrole.loc, ← hok]
      exact hr

/-- **The loop over `t`** leaves a sound record; it ends early only because of a
signal or because the record is finished. -/
theorem St.tries_meets {iter j : ℕ} {consecutiveSuccess : ℤ} (left : ℕ) (cSuccess : ℤ)
    {s : St Name Hash} (hs : Stocked env s.cov) {d : LocData} (hd : s.vLocData[j]? = some d)
    {Good : CoverageStore Name → CTree → Prop} (hgood : TreeRule env s.cov d.loc Good)
    (hsound : d.Sound (Good s.cov)) :
    Meets (St.tries env iter j consecutiveSuccess left cSuccess s)
      (fun r => ∃ d', Worked env j d' s r.1 ∧ d.SameRole d' ∧ d'.Sound (Good r.1.cov) ∧
        (r.2 = .interrupted → r.1.signal = some .brk) ∧
        (r.2 = .finished → d'.needRebuild = false))
      (fun f => f.Plain ∨ f = .oneLocLinked ∧ d.linked = true) := by
  induction left generalizing cSuccess s d with
  | zero => exact ⟨d, .refl hs hd, ⟨rfl, rfl, rfl, rfl⟩, hsound, by simp, by simp⟩
  | succ left ih =>
      rw [tries]
      have hread := Worked.of_readSignal hs hd
      dsimp only
      split
      · next hbrk => exact ⟨d, hread, ⟨rfl, rfl, rfl, rfl⟩, hsound, fun _ => hbrk, by simp⟩
      · have hd' := hread.getElem? hd
        rw [dat_eq hd', lift_ok, ok_bind]
        refine meets_bind
          (runOneLoc_meets hread.stocked hd' (hgood.mono hread.grows) hsound) ?_
        rintro ⟨s₁, ok⟩ ⟨d₁, t, hwork, hrole, htree, hg⟩
        have hwork₁ := hread.trans hwork
        rw [dat_eq (hwork₁.getElem? hd), lift_ok, ok_bind]
        -- the record with its new `need_rebuild`, on which the next pass works
        have hnext : ∀ (b : Bool) (c : ℤ), (b = false → Good s₁.cov t) →
            Meets (St.tries env iter j consecutiveSuccess left c
              (s₁.setDat j { d₁ with needRebuild := b }))
              (fun r => ∃ d', Worked env j d' s r.1 ∧ d.SameRole d' ∧ d'.Sound (Good r.1.cov) ∧
                (r.2 = .interrupted → r.1.signal = some .brk) ∧
                (r.2 = .finished → d'.needRebuild = false))
              (fun f => f.Plain ∨ f = .oneLocLinked ∧ d.linked = true) := by
          intro b c hb
          have hset := hwork₁.setDat { d₁ with needRebuild := b }
          have hrole' : d.SameRole { d₁ with needRebuild := b } :=
            hrole.trans ⟨rfl, rfl, rfl, rfl⟩
          refine (ih c hset.stocked (hset.getElem? hd) ?_ fun hneed =>
            ⟨t, htree, hb hneed⟩).mono ?_ ?_
          · rw [hrole'.loc]
            exact hgood.mono hset.grows
          · rintro r ⟨d₂, hwork₂, hrole₂, hrest⟩
            exact ⟨d₂, hset.trans hwork₂, hrole'.trans hrole₂, hrest⟩
          · intro f hf
            rwa [LocData.linked, hrole'.parent] at hf
        cases ok with
        | true =>
            simp only [if_true]
            split
            · exact ⟨_, hwork₁.setDat _, hrole.trans ⟨rfl, rfl, rfl, rfl⟩,
                fun _ => ⟨t, htree, hg rfl⟩, by simp, fun _ => rfl⟩
            · exact hnext false _ fun _ => hg rfl
        | false => exact hnext true 0 fun hfalse => nomatch hfalse

/-- What `enqueue_next` does to a record: it is ignored from now on, or it is put
into `v_next_iter`. -/
inductive Enqueued (j : ℕ) (d : LocData) (s s' : St Name Hash) : LocData → Prop
  | ignored {d' : LocData} (loc : d'.loc = d.loc) (parent : d'.parent = d.parent)
      (queuedNext : d'.queuedNext = d.queuedNext) (ignored : d'.ignored = true)
      (needRebuild : d'.needRebuild = true) (state : s' = s.setDat j d') : Enqueued j d s s' d'
  | queued {d' : LocData} (loc : d'.loc = d.loc) (parent : d'.parent = d.parent)
      (queuedNext : d'.queuedNext = true) (ignored : d'.ignored = false)
      (needRebuild : d'.needRebuild = d.needRebuild) (tree : d'.tree = d.tree)
      (state : s' = { s.setDat j d' with vNextIter := s.vNextIter ++ [j] }) :
      Enqueued j d s s' d'

omit [DecidableEq Name] [DecidableEq Hash] in
theorem Enqueued.cov {j : ℕ} {d d' : LocData} {s s' : St Name Hash}
    (h : Enqueued j d s s' d') : s'.cov = s.cov := by
  cases h with
  | ignored _ _ _ _ _ hstate => rw [hstate]; rfl
  | queued _ _ _ _ _ _ hstate => rw [hstate]; rfl

omit [DecidableEq Name] [DecidableEq Hash] in
theorem St.enqueueNext_meets {s : St Name Hash} {j : ℕ} {d : LocData}
    (hd : s.vLocData[j]? = some d) :
    Meets (s.enqueueNext env j) (fun s' => d.ignored = false ∧ ∃ d', Enqueued j d s s' d')
      (fun f => f = .enqueueIgnored ∧ d.ignored = true) := by
  rw [enqueueNext, dat_eq hd, lift_ok, ok_bind]
  refine meets_check_bind (fun hign => ?_) fun hne => ⟨rfl, by simpa using hne⟩
  obtain ⟨messedUp, nStuck, hcount⟩ : ∃ m n,
      (s.countFailure env d).1 = { d with messedUp := m, nStuck := n } := ⟨_, _, rfl⟩
  rcases hres : s.countFailure env d with ⟨d₁, ig⟩
  rw [hres] at hcount
  obtain rfl : d₁ = { d with messedUp, nStuck } := hcount
  cases ig with
  | true =>
      exact ⟨hign, { d with messedUp, nStuck, ignored := true, needRebuild := true },
        .ignored rfl rfl rfl rfl rfl rfl⟩
  | false =>
      exact ⟨hign, { d with messedUp, nStuck, queuedNext := true },
        .queued rfl rfl rfl hign rfl rfl rfl⟩

/-- How a turn of the record `j` ends for the queue, `d` before and `d'` after it. -/
inductive Queueing (j : ℕ) (d d' : LocData) (s s' : St Name Hash) : Bool → Prop
  | interrupted (signal : s'.signal = some .brk) (vNextIter : s'.vNextIter = s.vNextIter)
      (ignored : d'.ignored = d.ignored) (queuedNext : d'.queuedNext = d.queuedNext) :
      Queueing j d d' s s' true
  | finished (vNextIter : s'.vNextIter = s.vNextIter) (ignored : d'.ignored = d.ignored)
      (queuedNext : d'.queuedNext = d.queuedNext) (needRebuild : d'.needRebuild = false) :
      Queueing j d d' s s' false
  | ignored (vNextIter : s'.vNextIter = s.vNextIter) (ignored : d'.ignored = true)
      (queuedNext : d'.queuedNext = d.queuedNext) (needRebuild : d'.needRebuild = true) :
      Queueing j d d' s s' false
  | queued (vNextIter : s'.vNextIter = s.vNextIter ++ [j]) (ignored : d'.ignored = false)
      (queuedNext : d'.queuedNext = true) : Queueing j d d' s s' false

/-- **What a turn does** to the record `j`, `d` before and `d'` after it. -/
structure Turned (env : Env Name Hash) (Good : CTree → Prop) (j : ℕ) (d : LocData)
    (s s' : St Name Hash) (interrupted : Bool) (d' : LocData) : Prop where
  vLocData : s'.vLocData = s.vLocData.set j d'
  linked : d.linked = false
  loc : d'.loc = d.loc
  parent : d'.parent = d.parent
  sound : d'.Sound Good
  grows : s.cov.Grows s'.cov
  stocked : Stocked env s'.cov
  terminateCounter : s'.terminateCounter = s.terminateCounter
  vThisIter : s'.vThisIter = s.vThisIter
  vUniq : s'.vUniq = s.vUniq
  prevNConf : s'.prevNConf = s.prevNConf
  reports : s'.reports = s.reports
  signal : (∀ k, env.arrives k = none) → s'.signal = s.signal
  ignored : d.ignored = true → d'.ignored = true
  queueing : Queueing j d d' s s' interrupted

omit [DecidableEq Hash] in
/-- A turn that ends without `enqueue_next`. -/
theorem Worked.turned {Good : CTree → Prop} {j : ℕ} {d d' : LocData} {s s' : St Name Hash}
    {interrupted : Bool} (h : Worked env j d' s s') (hlinked : d.linked = false)
    (hrole : d.SameRole d') (hsound : d'.Sound Good)
    (hqueue : Queueing j d d' s s' interrupted) : Turned env Good j d s s' interrupted d' :=
  ⟨h.vLocData, hlinked, hrole.loc, hrole.parent, hsound, h.grows, h.stocked, h.terminateCounter,
    h.vThisIter, h.vUniq, h.prevNConf, h.reports, h.signal,
    fun hign => by rw [hrole.ignored, hign], hqueue⟩

omit [DecidableEq Hash] in
/-- A turn that ends with `enqueue_next`. -/
theorem Worked.turned_enqueued {Good : CTree → Prop} {j : ℕ} {d d₁ d' : LocData}
    {s s₁ s' : St Name Hash} (h : Worked env j d₁ s s₁) (hlinked : d.linked = false)
    (hrole : d.SameRole d₁) (hsound : d₁.Sound Good) (hign₁ : d₁.ignored = false)
    (henq : Enqueued j d₁ s₁ s' d') : Turned env Good j d s s' false d' := by
  cases henq with
  | ignored hloc hparent hqueued hign hneed hstate =>
      have hset := h.setDat d'
      rw [← hstate] at hset
      exact ⟨hset.vLocData, hlinked, hloc.trans hrole.loc, hparent.trans hrole.parent,
        LocData.sound_of_needRebuild hneed, hset.grows, hset.stocked, hset.terminateCounter,
        hset.vThisIter, hset.vUniq, hset.prevNConf, hset.reports, hset.signal, fun _ => hign,
        .ignored hset.vNextIter hign (hqueued.trans hrole.queuedNext) hneed⟩
  | queued hloc hparent hqueued hign hneed htree hstate =>
      have hset := h.setDat d'
      subst hstate
      exact ⟨hset.vLocData, hlinked, hloc.trans hrole.loc, hparent.trans hrole.parent,
        fun hfalse => by rw [htree]; exact hsound (hneed ▸ hfalse), hset.grows, hset.stocked,
        hset.terminateCounter, hset.vThisIter, hset.vUniq, hset.prevNConf, hset.reports,
        hset.signal,
        fun htrue => by simp [← hrole.ignored, hign₁] at htrue,
        .queued (by rw [h.vNextIter]) hign hqueued⟩

/-- **A turn.**  The scheduling `CHECK`s on its way fire only when the record is
linked or ignored. -/
theorem St.turn_meets {s : St Name Hash} (hs : Stocked env s.cov) {iter j : ℕ} {d : LocData}
    (hd : s.vLocData[j]? = some d) {Good : CoverageStore Name → CTree → Prop}
    (hgood : TreeRule env s.cov d.loc Good) (hsound : d.Sound (Good s.cov)) :
    Meets (s.turn env iter j) (fun r => ∃ d', Turned env (Good r.1.cov) j d s r.1 r.2 d')
      (fun f => f.Plain ∨ f.Scheduling ∧ (d.linked = true ∨ d.ignored = true)) := by
  rw [turn, dat_eq hd, lift_ok, ok_bind]
  refine meets_check_bind (fun hunlinked => ?_) fun hne =>
    .inr ⟨trivial, .inl (by simpa using hne)⟩
  refine meets_bind ((tries_meets _ 0 hs hd hgood hsound).mono (fun _ h => h) ?_) ?_
  · rintro f (hplain | ⟨rfl, hlinked⟩)
    · exact .inl hplain
    · exact .inr ⟨trivial, .inl hlinked⟩
  rintro ⟨s₁, ended⟩ ⟨d₁, hwork, hrole, hsound₁, hsignal, hfinished⟩
  have hd₁ := hwork.getElem? hd
  cases ended with
  | interrupted =>
      exact ⟨d₁, hwork.turned hunlinked hrole hsound₁ (.interrupted (hsignal rfl) hwork.vNextIter
        hrole.ignored hrole.queuedNext)⟩
  | finished =>
      simp only [dat_eq hd₁, lift_ok, ok_bind]
      exact ⟨_, (hwork.setDat { d₁ with nStuck := 0 }).turned hunlinked
        (hrole.trans ⟨rfl, rfl, rfl, rfl⟩) hsound₁ (.finished hwork.vNextIter hrole.ignored
          hrole.queuedNext (hfinished rfl))⟩
  | exhausted =>
      refine meets_bind ((enqueueNext_meets hd₁).mono (fun _ h => h) ?_) ?_
      · rintro f ⟨rfl, hign⟩
        exact .inr ⟨trivial, .inr (by rw [← hrole.ignored]; exact hign)⟩
      · rintro s₂ ⟨hign₁, d₂, henq⟩
        have hcov : s₂.cov = s₁.cov := henq.cov
        refine ⟨d₂, hwork.turned_enqueued hunlinked hrole ?_ hign₁ henq⟩
        dsimp only
        rw [hcov]
        exact hsound₁

end Records

end GenTree

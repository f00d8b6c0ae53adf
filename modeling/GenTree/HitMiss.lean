import GenTree.Counted
import GenTree.FinalReport

/-!
# The hit and miss counts

`finish_alg` prints, behind `# M/H:`, how many configurations the tree of a group has been
told about that do not cover its first location, and how many that do.  These numbers are
meant to be those of the store.  They are not when a configuration is counted twice or not
at all:

* the re-check counts the counterexamples of a record that has been finished again, and
  also the configurations that a tree was grown from in the middle of the iteration;
* it passes over the queued records, which have not seen the configurations of others;
* an iteration that is interrupted has no re-check.

`CountsOnce` says that none of this happens, and it is all that is missing
(`RunsTo.reports_counted`, `reports_counted_twice`).
-/

namespace GenTree

open Outcome Leaders

section HitMiss

variable {Name Hash : Type} [DecidableEq Name] [DecidableEq Hash] {env : Env Name Hash}

/-! ## What a report says -/

/-- The counts of the group are those of its first location among the first `n`
configurations of the store. -/
def Group.CountsRight (cov : CoverageStore Name) (n : ℕ) (g : Group Name) : Prop :=
  ∃ (j : ℕ) (loc : Location Name), cov.locs[j]? = some loc ∧ g.names.head? = some loc.name ∧
    g.nMiss = ((cov.configs.take n).filter fun c => j ∉ c.covLocs).length ∧
    g.nHit = ((cov.configs.take n).filter fun c => j ∈ c.covLocs).length

/-- The re-check adds a configuration to an up-to-date tree exactly when the tree does not
know it, and an iteration is given up only when all up-to-date trees know all of its
configurations. -/
def CountsOnce : Label × St Name Hash → Prop
  | (.recheckAt _ i k _, s) => ∀ d ∈ s.vLocData[k]?, d.linked = false → d.ignored = false →
      d.needRebuild = false → ∀ t ∈ d.tree, (t.Knows i ↔ d.queuedNext = true)
  | (.interrupted _, s) => ∀ d ∈ s.vLocData, d.linked = false → d.ignored = false →
      d.needRebuild = false → ∀ t ∈ d.tree, ∀ i < s.cov.nConfigs, s.prevNConf ≤ i → t.Knows i
  | _ => True

instance : DecidablePred (@CountsOnce Name Hash)
  | (.recheckAt _ i k _, s) => inferInstanceAs
      (Decidable (∀ d ∈ s.vLocData[k]?, d.linked = false → d.ignored = false →
        d.needRebuild = false → ∀ t ∈ d.tree, (t.Knows i ↔ d.queuedNext = true)))
  | (.interrupted _, s) => inferInstanceAs
      (Decidable (∀ d ∈ s.vLocData, d.linked = false → d.ignored = false →
        d.needRebuild = false → ∀ t ∈ d.tree, ∀ i < s.cov.nConfigs, s.prevNConf ≤ i → t.Knows i))
  | (.head _, _) | (.turns .., _) | (.recheck .., _) | (.returned .., _)
  | (.signals _, _) | (.save _, _) | (.final _, _) | (.done, _) =>
      inferInstanceAs (Decidable True)

namespace Group.CountsRight

variable {cov cov' : CoverageStore Name} {n : ℕ} {g : Group Name}

omit [DecidableEq Name] in
/-- The store may grow. -/
theorem grows (h : g.CountsRight cov n) (hgrows : cov.Grows cov') (hn : n ≤ cov.nConfigs) :
    g.CountsRight cov' n := by
  obtain ⟨j, loc, hloc, hhead, hmiss, hhit⟩ := h
  obtain ⟨loc', _, hloc', hname, -⟩ := hgrows.locs j loc hloc
  have htake : cov'.configs.take n = cov.configs.take n := by
    refine List.ext_getElem? fun i => ?_
    rw [List.getElem?_take, List.getElem?_take]
    split
    · next hi =>
        have hget := List.getElem?_eq_getElem (show i < cov.configs.length from hi.trans_le hn)
        rw [hgrows.configs i _ hget, hget]
    · rfl
  refine ⟨j, loc', hloc', ?_, ?_, ?_⟩
  · rw [hname, hhead]
  · rw [htake, hmiss]
  · rw [htake, hhit]

omit [DecidableEq Name] in
/-- **Together the counts are the number of configurations.** -/
theorem sum_eq (h : g.CountsRight cov n) (hn : n ≤ cov.nConfigs) : g.nMiss + g.nHit = n := by
  obtain ⟨j, loc, -, -, hmiss, hhit⟩ := h
  have hlen : (cov.configs.take n).length = n := by
    rw [List.length_take]
    exact Nat.min_eq_left hn
  rw [hmiss, hhit]
  conv_rhs => rw [← hlen, List.length_eq_length_filter_add fun c => decide (j ∈ c.covLocs)]
  rw [Nat.add_comm]
  simp only [decide_not]

end Group.CountsRight

/-! ## The first name of a group -/

/-- Records are linked to earlier records. -/
def LinksBack (s : St Name Hash) : Prop :=
  ∀ (j : ℕ) (d : LocData) (p : ℕ), s.vLocData[j]? = some d → d.parent = some p → p < j

namespace LinksBack

variable {s s' : St Name Hash}

omit [DecidableEq Name] [DecidableEq Hash] in
theorem of_links (h : LinksBack s) (hlinks : SameLinks s s') : LinksBack s' := by
  intro j d' p hd' hp
  obtain ⟨d, hd, hparent⟩ := hlinks.back j d' hd'
  exact h j d p hd (by rw [hparent, hp])

omit [DecidableEq Name] in
theorem of_preparedAs {keys : List Hash} {old : List LocData}
    (h : ∀ (j : ℕ) (d : LocData), s.vLocData[j]? = some d →
      ∃ d₀, PreparedAs keys old j d₀ ∧ d.parent = d₀.parent) : LinksBack s := by
  intro j d p hd hp
  obtain ⟨d₀, hd₀, hparent⟩ := h j d hd
  rw [hparent] at hp
  cases hd₀ with
  | linked hlt hparent' _ _ _ =>
      rw [hparent', Option.some.injEq] at hp
      rwa [← hp]
  | kept _ _ hunlinked => simp [LocData.linked, hp] at hunlinked
  | new _ _ hnone _ _ _ =>
      rw [hnone] at hp
      cases hp

omit [DecidableEq Name] in
theorem started (s : St Name Hash) : LinksBack (s.started env) := by
  apply of_preparedAs
  intro j d hd
  obtain ⟨-, d₀, hd₀, rfl⟩ := St.started_dat hd
  exact ⟨d₀, hd₀, rfl⟩

theorem preparedFinal (h : LinksBack s) (hs : Base env s) (hprep : PreparedFinal env s s') :
    LinksBack s' := by
  cases hprep with
  | same _ hstate => rwa [hstate]
  | fresh _ hrun href =>
      obtain ⟨-, -, hdat⟩ := hs.prepareVecLocData hrun
      apply of_preparedAs
      intro j d' hd'
      have hlt := (List.getElem?_eq_some_iff.mp hd').1
      rw [href.length] at hlt
      have hd := List.getElem?_eq_getElem hlt
      obtain ⟨d₂, hd₂, hrefresh⟩ := href.dat_all j _ hd
      rw [hd', Option.some.injEq] at hd₂
      subst hd₂
      exact ⟨_, hdat j _ hd, hrefresh.sameRole.parent⟩

omit [DecidableEq Hash] in
/-- The record of a group is the first one that is printed with it. -/
theorem head_names (h : LinksBack s) (hs : Base env s) {j : ℕ} {d : LocData}
    (hd : s.vLocData[j]? = some d) (hlinked : d.linked = false) {names : List Name}
    (hnames : s.groupNames j = .ok names) :
    ∃ loc, s.cov.locs[j]? = some loc ∧ names.head? = some loc.name := by
  obtain ⟨hlt, hget⟩ := List.getElem?_eq_some_iff.mp hd
  obtain ⟨loc, hloc⟩ : ∃ loc, s.cov.locs[j]? = some loc :=
    ⟨_, List.getElem?_eq_getElem (Nat.lt_of_lt_of_le hlt hs.length_le)⟩
  refine ⟨loc, hloc, ?_⟩
  rw [St.groupNames_eq hs] at hnames
  cases hnames
  have hnil : (s.vLocData.take j).filter (fun d => d.root = j) = [] := by
    rw [List.filter_eq_nil_iff]
    intro e he
    obtain ⟨i, hi⟩ := List.mem_iff_getElem?.mp he
    rw [List.getElem?_take] at hi
    split at hi
    · next hij =>
        rw [decide_eq_true_eq, LocData.root]
        cases hp : e.parent with
        | none =>
            rw [Option.getD_none, hs.loc_eq i e hi]
            exact Nat.ne_of_lt hij
        | some p =>
            have := h i e p hi hp
            rw [Option.getD_some]
            omega
    · cases hi
  have hnone : d.parent = none := by simpa [LocData.linked] using hlinked
  have hroot : d.root = j := by rw [LocData.root, hnone, Option.getD_none, hs.loc_eq j d hd]
  have hname : s.nameOf d = some loc.name := by
    rw [St.nameOf, hs.loc_eq j d hd, hloc, Option.map_some]
  have hsplit : s.vLocData = s.vLocData.take j ++ d :: s.vLocData.drop (j + 1) := by
    rw [← hget, ← List.drop_eq_getElem_cons hlt, List.take_append_drop]
  rw [hsplit, List.filter_append, hnil, List.nil_append, List.filter_cons_of_pos (by simp [hroot]),
    List.filterMap_cons_some hname, List.head?_cons]

end LinksBack

/-- **Records are linked to earlier records**: one step. -/
theorem Stepped.linksBack {x y : Label × St Name Hash} (h : Stepped env x y) (hx : Base env x.2)
    (hlinks : LinksBack x.2) : LinksBack y.2 := by
  cases h with
  | start _ => exact .started _
  | stop | endTurns _ | pick _ | «return» _ | endConfig _ | terminate | enqueueAll | goOn
  | giveUp | brk _ | quiet _ | noSave | done => exact hlinks.of_links (.of_eq rfl)
  | turn _ hrun =>
      obtain ⟨d, d', hd, hturned⟩ := hx.turned hrun
      exact hlinks.of_links (.of_moved (hturned.moved hd))
  | recheck _ _ hre =>
      obtain rfl | ⟨d, d', hmoved, -⟩ := hre.moved
      · exact hlinks
      · exact hlinks.of_links (.of_moved hmoved)
  | @usr _ s s' _ hfin =>
      have hread : LinksBack (s.readSignal env) := hlinks.of_links (.of_eq rfl)
      exact (hread.of_links (.of_finished hfin)).of_links (.of_eq rfl)
  | save hfin => exact hlinks.of_links (.of_finished hfin)
  | finish hprep hfin => exact (hlinks.preparedFinal hx hprep).of_links (.of_finished hfin)

/-! ## The counts in a run -/

/-- The trees that are not due to be rebuilt have counted the first `n` configurations, and
the first `k` of them the next one as well. -/
def CountedTo (s : St Name Hash) (n k : ℕ) : Prop :=
  SoundTo (fun cov n j t => t.Counted cov n j) s n k

/-- What the trees have counted, at each label. -/
def CountsAt : Label × St Name Hash → Prop
  | (.turns _ _, s) | (.interrupted _, s) =>
      s.prevNConf ≤ s.cov.nConfigs ∧ CountedTo s s.prevNConf 0
  | (.recheck _ i, s) => i ≤ s.cov.nConfigs ∧ CountedTo s i 0
  | (.recheckAt _ i k it, s) => i < s.cov.nConfigs ∧ CountedTo s i k ∧ Scanned s i k it
  | (.head _, s) | (.returned _ _, s) | (.signals _, s) | (.save _, s) | (.final _, s) =>
      CountedTo s s.cov.nConfigs 0
  | (.done, _) => True

namespace CountedTo

variable {s s' : St Name Hash} {n : ℕ}

omit [DecidableEq Name] [DecidableEq Hash] in
/-- An iteration that is given up, when the trees know its configurations. -/
theorem all_of_knows (h : CountedTo s n 0) (hn : n ≤ s.cov.nConfigs)
    (hknows : ∀ d ∈ s.vLocData, d.linked = false → d.ignored = false →
      d.needRebuild = false → ∀ t ∈ d.tree, ∀ i < s.cov.nConfigs, n ≤ i → t.Knows i) :
    CountedTo s s.cov.nConfigs 0 := by
  apply SoundTo.of_sound
  intro j d hd hlinked hign hneed
  obtain ⟨t, ht, hcounted⟩ := SoundTo.sound h hd hlinked hign hneed
  refine ⟨t, ht, ?_⟩
  have hall := hknows d (List.mem_of_getElem? hd) hlinked hign hneed t (by rw [ht]; rfl)
  -- the threshold moves up over configurations that the tree knows
  obtain ⟨m, hm⟩ := Nat.exists_eq_add_of_le hn
  have hup : ∀ k ≤ m, t.Counted s.cov (n + k) j := by
    intro k hk
    induction k with
    | zero => exact hcounted
    | succ k ih => exact (ih (by omega)).skip (hall (n + k) (by omega) (by omega))
  rw [hm]
  exact hup m (Nat.le_refl m)

omit [DecidableEq Hash] in
/-- **The re-check of one record** that counts once. -/
theorem rechecked {c : Config} {i k : ℕ} {it it' : List ℕ} (h : CountedTo s i k)
    (hre : Rechecked env c k it s s' it') (hs : Base env s) (hc : s.cov.configs[i]? = some c)
    (hok : ∀ d ∈ s.vLocData[k]?, d.linked = false → d.ignored = false →
      d.needRebuild = false → ∀ t ∈ d.tree, (t.Knows i ↔ d.queuedNext = true))
    (hscan : Scanned s i k it) : CountedTo s' i (k + 1) ∧ Scanned s' i (k + 1) it' := by
  refine hre.soundTo hs hc ?_ ?_ h hscan
  · intro d hd hlinked hign hqueued hsound hneed
    obtain ⟨t, ht, hcounted⟩ := hsound hneed
    exact ⟨t, ht, hcounted.skip ((hok d hd hlinked hign hneed t ht).mpr hqueued)⟩
  · intro d t t₁ t₂ hd hlinked hign hqueued hneed ht hbuild heval hcounted
    refine hcounted.interpretAdd hc (fun hknows => ?_) hbuild heval
    rw [(hok d hd hlinked hign hneed t ht).mp hknows] at hqueued
    cases hqueued

/-- A report builds new trees at most. -/
theorem finished (h : CountedTo s s.cov.nConfigs 0) (hs : Base env s) {buildTreeTemp : Bool}
    {iter : ℕ} (hfin : Finished env buildTreeTemp s iter s') :
    CountedTo s' s'.cov.nConfigs 0 := by
  have hcov : s'.cov = s.cov := by rw [hfin.state]
  rw [hcov]
  exact SoundTo.finished h tracked_counted hs (Nat.le_refl _) hfin

/-- The block behind the loop builds new trees. -/
theorem preparedFinal (h : CountedTo s s.cov.nConfigs 0) (hs : Base env s)
    (hprep : PreparedFinal env s s') : CountedTo s' s'.cov.nConfigs 0 := by
  rw [hprep.cov hs]
  cases hprep with
  | same _ hstate => rwa [hstate]
  | @fresh s₁ new hnil hrun href =>
      obtain ⟨hcov, hlen, hdat⟩ := hs.prepareVecLocData hrun
      have hbase : Base env s₁ :=
        ⟨by rw [hcov]; exact hs.stocked, fun j d' hd' => (hs.prepared_dat (hdat j d' hd')).1,
          by rw [hlen, hcov], fun j d' hd' => (hs.prepared_dat (hdat j d' hd')).2⟩
      apply SoundTo.of_sound
      rw [href.cov_eq]
      intro j d' hd' hlinked hign
      have hlt := (List.getElem?_eq_some_iff.mp hd').1
      rw [href.length] at hlt
      have hd := List.getElem?_eq_getElem hlt
      generalize s₁.vLocData[j] = d at hd
      obtain ⟨d₂, hd₂, hrefresh⟩ := href.dat_all j d hd
      rw [hd', Option.some.injEq] at hd₂
      subst hd₂
      have hprepared := hdat j d hd
      cases hrefresh with
      | kept hor =>
          -- there were no records, so this one is new and due to be rebuilt
          cases hprepared with
          | linked _ _ _ _ hneed => exact LocData.sound_of_needRebuild hneed
          | kept _ hold _ =>
              rw [hnil] at hold
              cases hold
          | new _ _ _ _ _ hneed => exact LocData.sound_of_needRebuild hneed
      | @rebuilt t _ _ _ _ _ htree =>
          rw [hbase.loc_eq j d hd] at htree
          exact fun _ => ⟨t, rfl, St.newTree_counted hbase.stocked htree _⟩

end CountedTo

omit [DecidableEq Hash] in
/-- **What a report prints** in a state whose trees have counted everything. -/
theorem GroupOf.countsRight {s : St Name Hash} {j : ℕ} {g : Group Name} (hg : GroupOf env s j g)
    (hs : Base env s) (hlinks : LinksBack s) (hcounted : CountedTo s s.cov.nConfigs 0)
    (hj : j ∈ s.unlinkedOf (List.range s.vLocData.length)) :
    g.CountsRight s.cov s.cov.nConfigs := by
  obtain ⟨d₀, hd₀, hlinked⟩ := St.mem_unlinkedOf.mp hj
  obtain ⟨d, d', t, hd, -, hdue, htree, hprint⟩ := hg.print
  rw [hd, Option.some.injEq] at hd₀
  subst hd₀
  obtain ⟨loc, hloc, hhead⟩ := hlinks.head_names hs hd hlinked hg.names
  have hcount : t.Counted s.cov s.cov.nConfigs j := by
    cases hneed : d.needRebuild with
    | true =>
        rw [if_pos hneed, hs.loc_eq j d hd] at htree
        exact St.newTree_counted hs.stocked htree _
    | false =>
        rw [if_neg (by simp [hneed])] at htree
        have hign : d.ignored = false := by
          by_contra htrue
          rw [hdue (by simpa using htrue)] at hneed
          cases hneed
        obtain ⟨t', ht', hcounted⟩ := SoundTo.sound hcounted hd hlinked hign hneed
        rw [htree, Option.some.injEq] at ht'
        rwa [ht']
  obtain ⟨expr, -, hprint⟩ := bind_eq_ok.mp hprint
  obtain ⟨names, -, hprint⟩ := bind_eq_ok.mp hprint
  obtain ⟨text, -, hprint⟩ := bind_eq_ok.mp hprint
  cases hprint
  have hside : ∀ b, t.count b = s.cov.configs.countP fun c => decide (j ∈ c.covLocs) == b := by
    intro b
    rw [hcount.count_of_le (Nat.le_refl _), CoverageStore.card_covers]
  refine ⟨j, loc, hloc, hhead, ?_, ?_⟩
  · rw [CoverageStore.nConfigs, List.take_length, ← List.countP_eq_length_filter]
    refine (hside false).trans (List.countP_congr fun c _ => ?_)
    simp
  · rw [CoverageStore.nConfigs, List.take_length, ← List.countP_eq_length_filter]
    refine (hside true).trans (List.countP_congr fun c _ => ?_)
    simp

/-- **The trees count once**: one step. -/
theorem Stepped.countsAt {x y : Label × St Name Hash} (h : Stepped env x y) (hx : Base env x.2)
    (hok : CountsOnce x) (hcounts : CountsAt x) : CountsAt y := by
  cases h with
  | start _ => exact ⟨Nat.le_refl _, SoundTo.started hcounts⟩
  | stop => exact hcounts
  | @turn iter k j s s' interrupted _ hrun =>
      obtain ⟨hle, hcounts⟩ := hcounts
      obtain ⟨d, d', -, hturned⟩ := hx.turned hrun
      have hafter : s'.prevNConf ≤ s'.cov.nConfigs ∧ CountedTo s' s'.prevNConf 0 := by
        rw [hturned.prevNConf]
        exact ⟨hle.trans hturned.grows.nConfigs_le,
          SoundTo.turn hcounts tracked_counted hx hle hrun⟩
      cases interrupted with
      | true => exact hafter
      | false => exact hafter
  | endTurns _ => exact hcounts
  | pick hc =>
      refine ⟨(List.getElem?_eq_some_iff.mp hc).1, hcounts.2, fun c' hc' _ => ?_⟩
      rw [hc, Option.some.injEq] at hc'
      simp [hc']
  | «return» hle =>
      have heq := Nat.le_antisymm hcounts.1 hle
      rw [CountsAt, ← heq]
      exact hcounts.2
  | @recheck iter i k it it' s s' c loc hc _ hre =>
      obtain ⟨hlt, hcounts, hscan⟩ := hcounts
      refine ⟨?_, CountedTo.rechecked hcounts hre hx hc hok hscan⟩
      obtain rfl | ⟨d, d', hmoved, -⟩ := hre.moved
      · exact hlt
      · exact hlt.trans_le hmoved.grows.nConfigs_le
  | endConfig hk =>
      have hlen := List.getElem?_eq_none_iff.mp hk
      exact ⟨hcounts.1, SoundTo.endConfig hcounts.2.1 (hx.length_le.trans hlen)⟩
  | terminate | enqueueAll | goOn | brk _ | quiet _ | noSave => exact SoundTo.of_eq hcounts rfl rfl
  | giveUp => exact SoundTo.of_eq (CountedTo.all_of_knows hcounts.2 hcounts.1 hok) rfl rfl
  | @usr _ s s' _ hfin =>
      have hread : CountedTo (s.readSignal env) (s.readSignal env).cov.nConfigs 0 :=
        SoundTo.of_eq hcounts rfl rfl
      have hbase : Base env (s.readSignal env) := hx.of_eq rfl rfl
      have hdone := CountedTo.finished hread hbase hfin
      exact SoundTo.of_eq hdone rfl rfl
  | save hfin => exact CountedTo.finished hcounts hx hfin
  | finish _ _ => trivial
  | done => trivial

/-! ## The reports of a run -/

/-- The reports so far are right. -/
def ReportsCounted (s : St Name Hash) : Prop :=
  ∀ r ∈ s.reports, r.nConfigs ≤ s.cov.nConfigs ∧ ∀ g ∈ r.groups, g.CountsRight s.cov r.nConfigs

namespace ReportsCounted

variable {s s' : St Name Hash}

omit [DecidableEq Hash] [DecidableEq Name] in
theorem grows (h : ReportsCounted s) (hreports : s'.reports = s.reports)
    (hgrows : s.cov.Grows s'.cov) : ReportsCounted s' := by
  intro r hr
  rw [hreports] at hr
  obtain ⟨hle, hgroups⟩ := h r hr
  exact ⟨hle.trans hgrows.nConfigs_le, fun g hg => (hgroups g hg).grows hgrows hle⟩

omit [DecidableEq Hash] in
/-- One more report. -/
theorem finished (h : ReportsCounted s) (hs : Base env s) (hlinks : LinksBack s)
    (hcounted : CountedTo s s.cov.nConfigs 0) {buildTreeTemp : Bool} {iter : ℕ}
    (hfin : Finished env buildTreeTemp s iter s') : ReportsCounted s' := by
  obtain ⟨groups, hreports, hgroups⟩ := hfin.reports
  have hcov : s'.cov = s.cov := by rw [hfin.state]
  intro r hr
  rw [hcov]
  rw [hreports] at hr
  rcases List.mem_append.mp hr with hr | hr
  · exact h r hr
  · rw [List.mem_singleton] at hr
    subst hr
    refine ⟨Nat.le_refl _, fun g hg => ?_⟩
    obtain ⟨j, hj, hof⟩ := forall₂_exists_left hgroups hg
    exact hof.countsRight hs hlinks hcounted hj

end ReportsCounted

omit [DecidableEq Name] [DecidableEq Hash] in
theorem Rechecked.reports {c : Config} {k : ℕ} {it it' : List ℕ} {s s' : St Name Hash}
    (h : Rechecked env c k it s s' it') : s'.reports = s.reports := by
  cases h with
  | absent _ | skipped _ _ | right _ _ _ _ _ _ _ => rfl
  | wrong _ _ _ _ henq =>
      cases henq with
      | ignored _ _ _ _ _ hstate => rw [hstate]; rfl
      | queued _ _ _ _ _ _ hstate => rw [hstate]; rfl

/-- **The reports stay right**: one step. -/
theorem Stepped.reportsCounted {x y : Label × St Name Hash} (h : Stepped env x y)
    (hx : Base env x.2) (hlinks : LinksBack x.2) (hcounts : CountsAt x)
    (hreports : ReportsCounted x.2) : ReportsCounted y.2 := by
  cases h with
  | start _ | stop | endTurns _ | pick _ | «return» _ | endConfig _ | terminate | enqueueAll | goOn
  | giveUp | brk _ | quiet _ | noSave | done => exact hreports.grows rfl (.refl _)
  | turn _ hrun =>
      obtain ⟨d, d', -, hturned⟩ := hx.turned hrun
      exact hreports.grows hturned.reports hturned.grows
  | recheck _ _ hre =>
      refine hreports.grows hre.reports ?_
      obtain rfl | ⟨d, d', hmoved, -⟩ := hre.moved
      · exact .refl _
      · exact hmoved.grows
  | @usr _ s s' _ hfin =>
      have hread : ReportsCounted (s.readSignal env) := hreports.grows rfl (.refl _)
      have hlinks' : LinksBack (s.readSignal env) := hlinks.of_links (.of_eq rfl)
      have hcounts' : CountedTo (s.readSignal env) (s.readSignal env).cov.nConfigs 0 :=
        SoundTo.of_eq hcounts rfl rfl
      exact (hread.finished (hx.of_eq rfl rfl) hlinks' hcounts' hfin).grows rfl (.refl _)
  | save hfin => exact hreports.finished hx hlinks hcounts hfin
  | @finish _ s s₁ s' hprep hfin =>
      have hcov := hprep.cov hx
      have hreports' : ReportsCounted s₁ :=
        hreports.grows hprep.reports (by rw [hcov]; exact .refl _)
      exact hreports'.finished (hx.preparedFinal hprep) (hlinks.preparedFinal hx hprep)
        (CountedTo.preparedFinal hcounts hx hprep) hfin

/-- **The counts in the reports.**  In every run in which the re-check counts once, the two
numbers of every group that is printed are those of the configurations in the store that do
not cover its first location and that do, and together they are all configurations. -/
theorem RunsTo.reports_counted {l : Label} {s : St Name Hash} (h : RunsTo env CountsOnce l s) :
    ∀ r ∈ s.reports, ∀ g ∈ r.groups,
      g.CountsRight s.cov r.nConfigs ∧ g.nMiss + g.nHit = r.nConfigs := by
  have hinv := h.invariant (fun x => CountsAt x ∧ LinksBack x.2 ∧ ReportsCounted x.2) ?_ ?_
  · intro r hr g hg
    obtain ⟨hle, hgroups⟩ := hinv.2.2 r hr
    exact ⟨hgroups g hg, (hgroups g hg).sum_eq hle⟩
  · rintro x y hx ⟨hcounts, hlinks, hreports⟩ hok hstep
    exact ⟨hstep.countsAt hx.base hok hcounts, hstep.linksBack hx.base hlinks,
      hstep.reportsCounted hx.base hlinks hcounts hreports⟩
  · intro s₀ hinit
    obtain ⟨-, hnil, -, -, -, -, -, hnone⟩ := env.init_meets.of_eq_ok hinit
    refine ⟨fun j d hd => ?_, fun j d p hd => ?_, fun r hr => ?_⟩
    · rw [hnil] at hd
      cases hd
    · rw [hnil] at hd
      cases hd
    · rw [hnone] at hr
      cases hr

end HitMiss

/-! ## Examples -/

/-- A program that covers its one location when the first switch is off.  A record has one
try and needs `n` successes. -/
def Env.firstOff (n : ℤ) : Env ℕ (List ℤ) :=
  let small := Env.small fun values => if values.head? = some 0 then [1] else []
  { small with draws := fun k => k / 2 % 2, params := { small.params with consecutiveSuccess := n } }

/-- When two successes are needed the record is queued with the counterexamples it knows,
and the re-check passes over it. -/
theorem RunsTo.reports_counted_queued :
    ∃ s r g, RunsTo (Env.firstOff 2) CountsOnce .done s ∧ s.reports = [r] ∧ r.groups = [g] ∧
      g.CountsRight s.cov 4 ∧ g.nMiss + g.nHit = 4 := by
  obtain ⟨l, s, hrun, rfl, hlen⟩ := exists_runsTo (Env.firstOff 2) CountsOnce 15
    (fun x => x.1 = .done ∧ x.2.reports.map (fun r => (r.nConfigs, r.groups.length)) = [(4, 1)])
    (by decide +kernel)
  obtain ⟨r, hr, hcounts⟩ := List.map_eq_singleton_iff.mp hlen
  obtain ⟨hconfigs, hgroups⟩ := Prod.ext_iff.mp hcounts
  dsimp only at hconfigs hgroups
  obtain ⟨g, hg⟩ := List.length_eq_one_iff.mp hgroups
  have hright := hrun.reports_counted r (by rw [hr]; exact List.mem_singleton_self r) g
    (by rw [hg]; exact List.mem_singleton_self g)
  rw [hconfigs] at hright
  exact ⟨s, r, g, hrun, hr, hg, hright⟩

/-- **Counterexamples are counted twice.**  When one success is enough, the re-check counts
the two counterexamples of the finished record again. -/
theorem reports_counted_twice :
    ¬ ∀ l s, RunsTo (Env.firstOff 1) (fun _ => True) l s →
      ∀ r ∈ s.reports, ∀ g ∈ r.groups, g.CountsRight s.cov r.nConfigs := by
  obtain ⟨l, s, hrun, hle, r, hr, g, hg, hsum⟩ := exists_runsTo (Env.firstOff 1) (fun _ => True) 15
    (fun x => (∀ r ∈ x.2.reports, r.nConfigs ≤ x.2.cov.nConfigs) ∧
      ∃ r ∈ x.2.reports, ∃ g ∈ r.groups, g.nMiss + g.nHit ≠ r.nConfigs) (by decide +kernel)
  intro hall
  exact hsum ((hall l s hrun r hr g hg).sum_eq (hle r hr))

end GenTree

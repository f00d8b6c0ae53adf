import Mathlib.Data.List.Chain
import GenTree.GroundTruth
import GenTree.PrintedTrees

/-!
# Random configurations, report after report

Under `--rand-each-iteration n₁,n₂,…` nothing is learnt between the reports:
`run_rand_each_iteration` draws random configurations until there are `n₁`, runs them
and writes a report with temporary trees, draws until there are `n₂`, and so on.

A report is about the configurations that have been run when it is written.  These are
the first ones of the store for ever, and what they cover does not change any more
(`Report.Describes.grow`), so at the end all reports can be compared with one store.

The set of hashes is shared by all calls of `gen_rand_configs`, and it is the set of the
hashes that have been run (`Sampling`): so no configuration comes up twice, although the
hash is not assumed to be injective.
-/

namespace GenTree

open Outcome

/-! ## What a report describes -/

section Describes

variable {Name : Type} [DecidableEq Name]

/-- The configuration `c` covers the location with this name. -/
def CoverageStore.Covers (cov : CoverageStore Name) (c : Config) (name : Name) : Prop :=
  ∃ j ∈ c.covLocs, ∃ l, cov.locs[j]? = some l ∧ l.name = name

/-- The report **describes** the first `r.nConfigs` configurations of the store: it prints
the locations they cover, each once; the formula that a location is printed with is
satisfied by those of them that cover it; and what they do not tell apart is printed
together. -/
structure Report.Describes (cov : CoverageStore Name) (r : Report Name) : Prop where
  nConfigs_le : r.nConfigs ≤ cov.nConfigs
  once : (r.groups.flatMap Group.names).Nodup
  printed : ∀ name, (∃ g ∈ r.groups, name ∈ g.names) ↔
    ∃ c ∈ cov.configs.take r.nConfigs, cov.Covers c name
  sat : ∀ g ∈ r.groups, ∀ name ∈ g.names, ∀ c ∈ cov.configs.take r.nConfigs,
    (g.expr.sat c.val = true ↔ cov.Covers c name)
  together : ∀ g ∈ r.groups, ∀ name ∈ g.names, ∀ g' ∈ r.groups, ∀ name' ∈ g'.names,
    (∀ c ∈ cov.configs.take r.nConfigs, cov.Covers c name ↔ cov.Covers c name') →
      ∃ g ∈ r.groups, name ∈ g.names ∧ name' ∈ g.names

variable {cov cov' : CoverageStore Name}

omit [DecidableEq Name] in
/-- The configurations that are there stay there. -/
theorem CoverageStore.Grows.take (h : cov.Grows cov') {n : ℕ} (hn : n ≤ cov.nConfigs) :
    cov'.configs.take n = cov.configs.take n := by
  refine List.ext_getElem? fun i => ?_
  rw [List.getElem?_take, List.getElem?_take]
  split
  · next hi =>
      have hget := List.getElem?_eq_getElem (show i < cov.configs.length from hi.trans_le hn)
      rw [hget, h.configs i _ hget]
  · rfl

/-- What a registered configuration covers does not change. -/
theorem CoverageStore.Grows.covers_iff (h : cov.Grows cov') {hist : List (List Name)}
    (hv : cov.Valid hist) {c : Config} (hc : c ∈ cov.configs) (name : Name) :
    cov'.Covers c name ↔ cov.Covers c name := by
  obtain ⟨i, hi⟩ := List.mem_iff_getElem?.mp hc
  refine exists_congr fun j => and_congr_right fun hj => ?_
  obtain ⟨l, hl, -⟩ := (hv.mem_covLocs i c hi j).mp hj
  obtain ⟨l', -, hl', hname, -⟩ := h.locs j l hl
  simp [hl, hl', hname]

/-- **A report goes on describing** what it has described when the store grows. -/
theorem Report.Describes.grow {r : Report Name} (h : r.Describes cov) (hgrows : cov.Grows cov')
    {hist : List (List Name)} (hv : cov.Valid hist) : r.Describes cov' := by
  have htake := hgrows.take h.nConfigs_le
  have hcovers : ∀ c ∈ cov.configs.take r.nConfigs, ∀ name,
      cov'.Covers c name ↔ cov.Covers c name :=
    fun c hc name => hgrows.covers_iff hv (List.mem_of_mem_take hc) name
  refine ⟨h.nConfigs_le.trans hgrows.nConfigs_le, h.once, fun name => ?_,
    fun g hg name hname c hc => ?_, fun g hg name hname g' hg' name' hname' hall => ?_⟩
  · rw [h.printed name, htake]
    exact exists_congr fun c => and_congr_right fun hc => (hcovers c hc name).symm
  · rw [htake] at hc
    rw [h.sat g hg name hname c hc, hcovers c hc name]
  · refine h.together g hg name hname g' hg' name' hname' fun c hc => ?_
    rw [← hcovers c hc name, ← hcovers c hc name']
    exact hall c (htake ▸ hc)

/-- Covering a location is being in its list. -/
theorem CoverageStore.Valid.covers_iff {hist : List (List Name)} (hv : cov.Valid hist) {i j : ℕ}
    {c : Config} {l : Location Name} (hc : cov.configs[i]? = some c)
    (hl : cov.locs[j]? = some l) : cov.Covers c l.name ↔ i ∈ l.covBy := by
  rw [← hv.mem_covLocs_iff hc hl]
  constructor
  · rintro ⟨k, hk, l', hl', hname⟩
    rwa [← hv.name_inj hl' hl hname]
  · exact fun hj => ⟨j, hj, l, hl, rfl⟩

end Describes

section RandEach

variable {Name Hash : Type} [DecidableEq Name] [DecidableEq Hash] {env : Env Name Hash}

/-! ## The program -/

/-- Where `run_rand_each_iteration` dies: like the code it calls, or at
`CHECK_GT(nrand, 0)`. -/
inductive RandFault
  | run (f : Fault)
  | nrand
  deriving DecidableEq, Repr

/-- The body of the loop behind `CHECK_GT(nrand, 0)`; `seen` is the set `s`. -/
def St.randRound (env : Env Name Hash) (s : St Name Hash) (seen : List Hash) (iter nrand : ℕ) :
    Except Fault (St Name Hash × List Hash) := do
  let (confs, rng) ←
    genRandConfigs env.dom env.draws env.confHash env.randFuel nrand seen [] s.rng
  let hashes := confs.map fun c => env.confHash c.hashKey
  let s := { s with rng, setConfHash := hashes.foldl (fun set h => set.insert h) s.setConfHash }
  let (s, _) ← s.runConfigs env (confs.map Config.touchHash)
  let (s, _) ← s.prepareVecLocData env
  let s ← s.finishAlg env iter true
  .ok (s, hashes.reverse ++ seen)

/-- One pass of the loop, for the number of configurations there are to be and the
iteration. -/
def St.randIter (env : Env Name Hash) (p : St Name Hash × List Hash) (q : ℤ × ℕ) :
    Except RandFault (St Name Hash × List Hash) := do
  let nrand := q.1 - p.1.cov.nConfigs
  check (0 < nrand) .nrand
  (p.1.randRound env p.2 q.2 nrand.toNat).mapError .run

/-- `run_rand_each_iteration`. -/
def Env.runRandEachIteration (env : Env Name Hash) (params : List ℤ) :
    Except RandFault (St Name Hash) := do
  let (s, _) ← (params.zipIdx 1).foldlM (St.randIter env) ({}, [])
  (s.finishAlg env params.length true).mapError .run

theorem meets_mapError {ε ε' α : Type} {x : Except ε α} {g : ε → ε'} {Q : α → Prop}
    {E : ε' → Prop} (h : Meets x Q fun e => E (g e)) : Meets (x.mapError g) Q E := by
  cases x with
  | error e => exact h
  | ok a => exact h

/-! ## One report -/

/-- The state between two passes: the set of hashes is that of the configurations that
have been run, which are complete; the records are grouped, and all their trees are due. -/
structure Sampling (env : Env Name Hash) (s : St Name Hash) (seen : List Hash) : Prop where
  base : Base env s
  seen_eq : seen = s.setRanConfHash
  ran : s.setRanConfHash = (s.cov.configs.map fun c => env.confHash c.values).reverse
  nodup : seen.Nodup
  complete : ∀ c ∈ s.cov.configs, c.Complete env.dom
  grouped : Grouped s
  full : s.vLocData.length = s.cov.nLocs
  due : ∀ d ∈ s.vLocData, d.needRebuild = true

namespace Sampling

variable {s s' : St Name Hash} {seen : List Hash}

omit [DecidableEq Hash] in
theorem distinct (h : Sampling env s seen) : s.cov.Distinct env.dom :=
  ⟨h.complete, nodup_values_of_ran (h.seen_eq.trans h.ran) h.nodup⟩

omit [DecidableEq Hash] in
/-- **The groups of a report** describe all that has been run. -/
theorem describes (h : Sampling env s seen) (htotal : env.select.Total)
    {groups : List (Group Name)}
    (hgroups : List.Forall₂ (GroupOf env s) (s.unlinkedOf (List.range s.vLocData.length)) groups)
    (iter nUniq : ℕ) :
    Report.Describes s.cov ⟨iter, s.cov.nConfigs, s.cov.nLocs, nUniq, groups⟩ := by
  obtain ⟨hist, hv⟩ := h.base.stocked.valid
  have hroot := h.grouped.rooted
  have hexact := (exact_iff_of_groups h.base hroot h.grouped.differ hgroups iter nUniq).mpr
    ⟨h.full, h.grouped.parent⟩
  have htake : s.cov.configs.take s.cov.nConfigs = s.cov.configs := List.take_length
  -- what is printed is a location
  have hloc : ∀ g ∈ groups, ∀ name ∈ g.names, ∃ l ∈ s.cov.locs, l.name = name := by
    intro g hg name hname
    exact List.mem_map.mp (hexact.once.mem_iff.mp (List.mem_flatMap.mpr ⟨g, hg, hname⟩))
  refine ⟨le_rfl, ?_, fun name => ?_, fun g hg name hname c hc => ?_,
    fun g hg name hname g' hg' name' hname' hall => ?_⟩
  · exact nodup_names h.base hgroups
  · dsimp only
    rw [htake]
    constructor
    · rintro ⟨g, hg, hname⟩
      obtain ⟨l, hl, rfl⟩ := hloc g hg name hname
      obtain ⟨j, hj⟩ := List.mem_iff_getElem?.mp hl
      obtain ⟨i, hi⟩ := List.exists_mem_of_ne_nil _ (hv.discovered l hl)
      have hget := List.getElem?_eq_getElem (show i < s.cov.configs.length from hv.covBy_lt l hl i hi)
      exact ⟨_, List.mem_of_getElem? hget, (hv.covers_iff hget hj).mpr hi⟩
    · rintro ⟨c, hc, j, hj, l, hl, rfl⟩
      have hmem : l.name ∈ groups.flatMap Group.names :=
        hexact.once.mem_iff.mpr (List.mem_map_of_mem (List.mem_of_getElem? hl))
      obtain ⟨g, hg, hname⟩ := List.mem_flatMap.mp hmem
      exact ⟨g, hg, hname⟩
  · dsimp only at hc hg
    rw [htake] at hc
    obtain ⟨l, hl, rfl⟩ := hloc g hg name hname
    obtain ⟨k, hk⟩ := List.mem_iff_getElem?.mp hl
    obtain ⟨u, hu, hgroupOf⟩ := forall₂_exists_left hgroups hg
    obtain ⟨d, hd, rfl⟩ := (GroupOf.mem_names_iff h.base hgroupOf hk).mp hname
    obtain ⟨e, t, he, hexpr, htree⟩ := hgroupOf.expr
    rw [if_pos (h.due e (List.mem_of_getElem? he)), h.base.loc_eq _ e he] at htree
    have hlt : d.root < s.cov.nLocs := by
      rw [← h.full]
      exact (List.getElem?_eq_some_iff.mp he).1
    obtain ⟨root, hfits⟩ :=
      (h.distinct.newTree_meets h.base.stocked htotal hlt).of_eq_ok htree
    -- the record it is printed with has the coverage of the location
    have hcov := covBy_root h.grouped.parent h.base hd
    rw [CoverageStore.covBy, CoverageStore.covBy, hk, Option.map_some] at hcov
    obtain ⟨l', hl', hcovBy⟩ := Option.map_eq_some_iff.mp hcov
    obtain ⟨i, hi⟩ := List.mem_iff_getElem?.mp hc
    rw [h.distinct.sat_iff hfits hexpr hc, hv.covers_iff hi hk, hv.mem_covLocs_iff hi hl', hcovBy]
  · dsimp only at hall hg hg'
    rw [htake] at hall
    obtain ⟨l, hl, rfl⟩ := hloc g hg name hname
    obtain ⟨l', hl', rfl⟩ := hloc g' hg' name' hname'
    refine (hexact.together l hl l' hl').mpr ?_
    obtain ⟨j, hj⟩ := List.mem_iff_getElem?.mp hl
    obtain ⟨k, hk⟩ := List.mem_iff_getElem?.mp hl'
    rw [hv.covBy l hl, hv.covBy l' hl']
    refine CoverageStore.covering_congr fun i => ?_
    rw [← hv.covBy l hl, ← hv.covBy l' hl']
    rcases Nat.lt_or_ge i s.cov.nConfigs with hi | hi
    · have hget := List.getElem?_eq_getElem (show i < s.cov.configs.length from hi)
      rw [← hv.covers_iff hget hj, ← hv.covers_iff hget hk]
      exact hall _ (List.mem_of_getElem? hget)
    · have hnot : ∀ m ∈ s.cov.locs, i ∉ m.covBy := fun m hm hmem =>
        absurd (hv.covBy_lt m hm i hmem) (Nat.not_lt.mpr hi)
      exact iff_of_false (hnot l hl) (hnot l' hl')

omit [DecidableEq Hash] in
/-- **`finish_alg` with temporary trees** succeeds, changes nothing but the reports, and
describes what has been run. -/
theorem finishAlg_meets (h : Sampling env s seen) (htotal : env.select.Total) (iter : ℕ) :
    Meets (s.finishAlg env iter true)
      (fun s' => ∃ r, s' = { s with reports := s.reports ++ [r] } ∧ r.iter = iter ∧
        r.nConfigs = s.cov.nConfigs ∧ r.Describes s.cov) fun _ => False := by
  have hdue : IgnoredDue s := fun d hd _ => h.due d hd
  have hprint : Printing env s := fun j d hd _ _ =>
    LocData.sound_of_needRebuild (h.due d (List.mem_of_getElem? hd))
  refine (h.base.finishAlg_total hdue hprint h.distinct htotal iter true).imp fun s' hfin => ?_
  obtain ⟨groups, hreports, hgroups⟩ := hfin.reports
  refine ⟨_, ?_, rfl, rfl, h.describes htotal hgroups iter s.vUniq.length⟩
  -- records are not touched
  have hdat : s'.vLocData = s.vLocData := by
    refine List.ext_getElem? fun j => ?_
    cases hd : s.vLocData[j]? with
    | none =>
        rw [List.getElem?_eq_none_iff] at hd ⊢
        rw [hfin.length]
        exact hd
    | some d =>
        obtain ⟨d', hd', hrefresh⟩ := hfin.dat j d hd
        cases hrefresh with
        | kept _ => exact hd'
        | rebuilt _ _ htemp _ _ _ => cases htemp
  rw [hfin.state, hreports, hdat]

omit [DecidableEq Hash] in
/-- Nothing but the store, the hashes and the records matters. -/
theorem of_reports (h : Sampling env s seen) (reports : List (Report Name)) :
    Sampling env { s with reports } seen :=
  ⟨h.base.of_eq rfl rfl, h.seen_eq, h.ran, h.nodup, h.complete, h.grouped, h.full, h.due⟩

/-- Configurations whose hashes are new are run, and the records are grouped again. -/
theorem runConfigs (h : Sampling env s seen) (hinj : Function.Injective env.locHash)
    {s₀ s₁ : St Name Hash} (hdrew : Drew s s₀) {cs : List Config} (hkeyed : AllKeyed cs)
    (hfresh : AllFresh env.dom cs) (hcomplete : ∀ c ∈ cs, c.Complete env.dom)
    (hnodup : ((cs.map fun c => env.confHash c.hashKey).reverse ++ seen).Nodup)
    (hran : Ran env s₀ cs s₁) :
    ∃ s₂ new, s₁.prepareVecLocData env = .ok (s₂, new) ∧
      Sampling env s₂ ((cs.map fun c => env.confHash c.hashKey).reverse ++ seen) ∧
      s.cov.Grows s₂.cov ∧ s₂.cov.nConfigs = s.cov.nConfigs + cs.length ∧
      s₂.reports = s.reports := by
  have hcov₀ : s₀.cov = s.cov := by rw [hdrew]
  have hdat₀ : s₀.vLocData = s.vLocData := by rw [hdrew]
  have hset₀ : s₀.setRanConfHash = s.setRanConfHash := by rw [hdrew]
  have hbase₀ : Base env s₀ := h.base.of_eq hcov₀ hdat₀
  have hstate := hran.state
  have hdat₁ : s₁.vLocData = s.vLocData := by rw [hstate, ← hdat₀]
  have hgrows := hran.grows hbase₀.stocked.valid
  rw [hcov₀] at hgrows
  have hbase₁ : Base env s₁ := by
    refine ⟨hbase₀.stocked.ran hran hfresh, ?_, ?_, ?_⟩
    · rw [hdat₁]
      exact h.base.loc_eq
    · rw [hdat₁]
      exact h.base.length_le.trans hgrows.nLocs_le
    · rw [hdat₁]
      exact h.base.sound
  obtain ⟨s₂, new, hprep⟩ : ∃ s₂ new, s₁.prepareVecLocData env = .ok (s₂, new) :=
    ⟨_, _, St.prepareVecLocData_eq hbase₁.stocked.valid hbase₁.length_le⟩
  obtain ⟨hcov₂, hlen₂, hdat₂⟩ := hbase₁.prepareVecLocData hprep
  obtain ⟨hset₂, hreports₂⟩ :
      s₂.setRanConfHash = s₁.setRanConfHash ∧ s₂.reports = s₁.reports := by
    obtain ⟨p, -, heq⟩ := bind_eq_ok.mp hprep
    cases heq
    exact ⟨rfl, rfl⟩
  have hbase₂ : Base env s₂ :=
    ⟨by rw [hcov₂]; exact hbase₁.stocked, fun j d hd => (hbase₁.prepared_dat (hdat₂ j d hd)).1,
      by rw [hlen₂, hcov₂], fun j d hd => (hbase₁.prepared_dat (hdat₂ j d hd)).2⟩
  refine ⟨s₂, new, hprep, ⟨hbase₂, ?_, ?_, hnodup, ?_,
    grouped_of_preparedAs hinj hcov₂ hlen₂ fun j d hd => ⟨d, hdat₂ j d hd, rfl⟩,
    by rw [hlen₂, hcov₂], ?_⟩, by rw [hcov₂]; exact hgrows, ?_, ?_⟩
  · rw [hset₂, hran.hashes, hset₀, h.seen_eq]
  · rw [hset₂, hcov₂]
    refine hran.hashes_values hkeyed ?_
    rw [hset₀, hcov₀]
    exact h.ran
  · rw [hcov₂]
    intro c hc
    have hmem := List.mem_map_of_mem (f := Config.values) hc
    rw [hran.values, hcov₀, ← List.map_append] at hmem
    obtain ⟨c', hc', heq⟩ := List.mem_map.mp hmem
    have hall : c'.Complete env.dom :=
      (List.mem_append.mp hc').elim (h.complete c') (hcomplete c')
    rwa [Config.Complete, heq] at hall
  · intro d hd
    obtain ⟨j, hj⟩ := List.mem_iff_getElem?.mp hd
    cases hdat₂ j d hj with
    | linked _ _ _ _ hneed => exact hneed
    | kept _ hold _ =>
        rw [hdat₁] at hold
        exact h.due d (List.mem_of_getElem? hold)
    | new _ _ _ _ _ hneed => exact hneed
  · rw [hcov₂, hran.nConfigs, hcov₀]
  · rw [hreports₂, hstate, hdrew]

/-- **One pass of the loop** reaches the number of configurations that it is to reach, and
writes one report, which describes them. -/
theorem randRound (h : Sampling env s seen) (htotal : env.select.Total)
    (hinj : Function.Injective env.locHash) (hrange : ∀ v ∈ env.dom.vars, v.nValues ≤ 32768)
    (iter nrand : ℕ) :
    Meets (s.randRound env seen iter nrand) (fun p => Sampling env p.1 p.2 ∧
      s.cov.Grows p.1.cov ∧ p.1.cov.nConfigs = s.cov.nConfigs + nrand ∧
      ∃ r, p.1.reports = s.reports ++ [r] ∧ r.iter = iter ∧ r.nConfigs = p.1.cov.nConfigs ∧
        r.Describes p.1.cov) (· = .lower .outOfFuel) := by
  have hgen := @genRandConfigs_more _ _ env.dom env.draws env.confHash hrange env.randFuel nrand
    seen h.nodup s.rng
  rw [St.randRound]
  refine meets_lift_bind_of_eq (fun a ha => by rw [hgen.of_eq_error ha]) ?_
  rintro ⟨confs, rng⟩ hconfs
  obtain ⟨hlen, hkeyed, hfresh, hcomplete, hnodup⟩ := hgen.of_eq_ok hconfs
  dsimp only at hlen hkeyed hfresh hcomplete hnodup
  -- the hashes are cached
  have hfresh' : AllFresh env.dom (confs.map Config.touchHash) :=
    List.forall_mem_map.mpr fun c hc => (hfresh c hc).touchHash
  have hkeyed' : AllKeyed (confs.map Config.touchHash) :=
    List.forall_mem_map.mpr fun c hc => (hkeyed c hc).touchHash
  have hcomplete' : ∀ c ∈ confs.map Config.touchHash, c.Complete env.dom :=
    List.forall_mem_map.mpr hcomplete
  have hhashes : (confs.map fun c => env.confHash c.hashKey) =
      confs.map fun c => env.confHash c.values :=
    List.map_congr_left fun c hc => congrArg env.confHash (hkeyed c hc)
  have htouch : ((confs.map Config.touchHash).map fun c => env.confHash c.hashKey) =
      confs.map fun c => env.confHash c.hashKey := List.map_map
  rw [← hhashes, ← htouch] at hnodup
  have hdrew : ∀ (rng : ℕ) (set : List Hash), Drew s { s with rng, setConfHash := set } :=
    fun _ _ => rfl
  have hstocked : ∀ s₀ : St Name Hash, Drew s s₀ → ∃ hist, s₀.cov.Valid hist := by
    rintro s₀ hs₀
    rw [hs₀]
    exact h.base.stocked.valid
  refine meets_bind ((St.runConfigs_meets (hstocked _ (hdrew _ _)) hfresh').mono (fun _ hr => hr) ?_) ?_
  · rintro f ⟨-, hdup⟩
    rw [h.seen_eq] at hnodup
    exact absurd hnodup hdup
  rintro ⟨s₁, ids⟩ hran
  dsimp only at hran ⊢
  obtain ⟨s₂, new, hprep, hsampling, hgrows, hcount, hreports⟩ :=
    h.runConfigs hinj (hdrew _ _) hkeyed' hfresh' hcomplete' hnodup hran
  rw [htouch] at hsampling
  rw [hprep, lift_ok, ok_bind]
  refine meets_bind ((hsampling.finishAlg_meets htotal iter).mono (fun _ hr => hr)
    fun _ hfalse => hfalse.elim) ?_
  rintro s₃ ⟨r, rfl, hiter, hnum, hdescribes⟩
  refine ⟨hsampling.of_reports _, hgrows, ?_, r, ?_, hiter, hnum, hdescribes⟩
  · show s₂.cov.nConfigs = _
    rw [hcount, List.length_map, hlen]
  · show s₂.reports ++ [r] = _
    rw [hreports]

omit [DecidableEq Hash] in
/-- The state before the first pass. -/
theorem empty : Sampling env ({} : St Name Hash) [] := by
  refine ⟨⟨⟨⟨[], CoverageStore.valid_empty⟩, by simp⟩, ?_, ?_, ?_⟩, rfl, rfl, List.nodup_nil, ?_, ?_,
    rfl, ?_⟩
  · intro j d hd
    cases hd
  · exact Nat.zero_le _
  · intro j d hd
    cases hd
  · simp
  · intro j d hd
    cases hd
  · simp

end Sampling

/-! ## All reports -/

/-- What a report says about its time: how many configurations there were, and in which
iteration it was written. -/
def Report.stamp (r : Report Name) : ℤ × ℕ := (r.nConfigs, r.iter)

/-- The passes for `done` have been made. -/
structure Reported (env : Env Name Hash) (done : List (ℤ × ℕ)) (p : St Name Hash × List Hash) :
    Prop where
  sampling : Sampling env p.1 p.2
  stamps : p.1.reports.map Report.stamp = done
  last : (0 :: done.map Prod.fst).getLast? = some (p.1.cov.nConfigs : ℤ)
  increasing : (0 :: done.map Prod.fst).IsChain (· < ·)
  describes : ∀ r ∈ p.1.reports, r.Describes p.1.cov

omit [DecidableEq Hash] in
/-- A report is added to those that are there. -/
theorem Report.Describes.append {s s' : St Name Hash} (hs : Base env s)
    (h : ∀ r ∈ s.reports, r.Describes s.cov) (hgrows : s.cov.Grows s'.cov) {r : Report Name}
    (hr : r.Describes s'.cov) (hreports : s'.reports = s.reports ++ [r]) :
    ∀ r ∈ s'.reports, r.Describes s'.cov := by
  obtain ⟨hist, hv⟩ := hs.stocked.valid
  intro r' hr'
  rw [hreports] at hr'
  rcases List.mem_append.mp hr' with hold | hnew
  · exact (h r' hold).grow hgrows hv
  · rwa [List.mem_singleton.mp hnew]

section Params

variable (htotal : env.select.Total) (hinj : Function.Injective env.locHash)
  (hrange : ∀ v ∈ env.dom.vars, v.nValues ≤ 32768)

include htotal hinj hrange

/-- One more pass. -/
theorem Reported.randIter {done : List (ℤ × ℕ)} {p : St Name Hash × List Hash}
    (h : Reported env done p) (q : ℤ × ℕ) :
    Meets (St.randIter env p q) (Reported env (done ++ [q]))
      (fun f => f = .run (.lower .outOfFuel) ∨
        f = .nrand ∧ ¬ (0 :: (done ++ [q]).map Prod.fst).IsChain (· < ·)) := by
  have hchain : (0 :: (done ++ [q]).map Prod.fst).IsChain (· < ·) ↔
      (p.1.cov.nConfigs : ℤ) < q.1 := by
    rw [List.map_append, List.map_singleton, ← List.cons_append, List.isChain_append, h.last]
    simp [h.increasing]
  rw [St.randIter]
  refine meets_check_bind (fun hpos => ?_) fun hneg => .inr ⟨rfl, ?_⟩
  · refine meets_mapError (Meets.mono (h.sampling.randRound htotal hinj hrange q.2 _) ?_ ?_)
    · rintro p' ⟨hsampling, hgrows, hcount, r, hreports, hiter, hnum, hdescribes⟩
      have hnConfigs : (p'.1.cov.nConfigs : ℤ) = q.1 := by
        rw [hcount]
        omega
      refine ⟨hsampling, ?_, ?_, hchain.mpr (by omega),
        Report.Describes.append h.sampling.base h.describes hgrows hdescribes hreports⟩
      · rw [hreports, List.map_append, h.stamps, List.map_singleton, Report.stamp, hiter, hnum,
          hnConfigs]
      · rw [List.map_append, List.map_singleton, ← List.cons_append, List.getLast?_append,
          List.getLast?_singleton, Option.some_or, hnConfigs]
    · rintro f rfl
      exact .inl rfl
  · rw [hchain]
    omega

/-- **All reports of a run** with `--rand-each-iteration` describe what has been run when
they are written: the first so many configurations of the store, which are complete and
differ from each other.  There is one for each number, and one at the end; the run dies
exactly when the numbers do not grow, or when no new configuration is found. -/
theorem Env.runRandEachIteration_meets (params : List ℤ) :
    Meets (env.runRandEachIteration params) (fun s =>
      (0 :: params).IsChain (· < ·) ∧ (0 :: params).getLast? = some (s.cov.nConfigs : ℤ) ∧
      (s.cov.configs.map Config.values).Nodup ∧ (∀ c ∈ s.cov.configs, c.Complete env.dom) ∧
      s.reports.map Report.stamp =
        params.zipIdx 1 ++ [((s.cov.nConfigs : ℤ), params.length)] ∧
      ∀ r ∈ s.reports, r.Describes s.cov)
      (fun f => f = .run (.lower .outOfFuel) ∨ f = .nrand ∧ ¬ (0 :: params).IsChain (· < ·)) := by
  have hzip : (params.zipIdx 1).map Prod.fst = params := List.zipIdx_map_fst ..
  rw [runRandEachIteration]
  refine meets_bind (meets_foldlM (Reported env) (params.zipIdx 1) ?_
    ⟨Sampling.empty, rfl, rfl, List.isChain_singleton 0, by simp⟩) ?_
  · intro done q rest p hsplit h
    refine (h.randIter htotal hinj hrange q).mono (fun _ hp => hp) ?_
    rintro f (rfl | ⟨rfl, hnot⟩)
    · exact .inl rfl
    · refine .inr ⟨rfl, fun hchain => hnot ?_⟩
      rw [← hzip, hsplit, List.append_cons, List.map_append, ← List.cons_append] at hchain
      exact (List.isChain_append.mp hchain).1
  · rintro ⟨s, seen⟩ h
    have hlast := h.last
    have hincreasing := h.increasing
    rw [hzip] at hlast hincreasing
    refine meets_mapError (Meets.mono (h.sampling.finishAlg_meets htotal params.length) ?_
      fun _ hfalse => hfalse.elim)
    rintro s' ⟨r, rfl, hiter, hnum, hdescribes⟩
    refine ⟨hincreasing, hlast, h.sampling.distinct.nodup, h.sampling.complete, ?_,
      Report.Describes.append h.sampling.base h.describes (.refl _) hdescribes rfl⟩
    show (s.reports ++ [r]).map Report.stamp = _
    rw [List.map_append, h.stamps, List.map_singleton, Report.stamp, hiter, hnum]

end Params

end RandEach

/-- An environment with other draws. -/
def Env.withDraws (env : Env ℕ (List ℤ)) (draws : ℕ → ℕ) : Env ℕ (List ℤ) :=
  { env with draws, randFuel := 1 }

/-- Three switches and the program of `Env.discovering`, with draws that count in binary. -/
def Env.counting : Env ℕ (List ℤ) :=
  Env.discovering.withDraws fun k => k / 3 / 2 ^ (k % 3)

/-- Two configurations, then four. -/
theorem Env.runRandEachIteration_meets_counting :
    ∃ s, Env.counting.runRandEachIteration [2, 4] = .ok s ∧
      s.reports.map Report.stamp = [(2, 1), (4, 2), (4, 2)] ∧
      ∀ r ∈ s.reports, r.Describes s.cov := by
  have hmeets := @Env.runRandEachIteration_meets _ _ _ _ Env.counting
    Selector.firstUntested_total (Env.small_locHash_injective fun _ => []) (by decide) [2, 4]
  have hrun : (Env.counting.runRandEachIteration [2, 4]).toOption.any
      (fun s => decide (s.cov.nConfigs ≠ 0)) = true := by decide +kernel
  cases hres : Env.counting.runRandEachIteration [2, 4] with
  | error f =>
      rw [hres] at hrun
      cases hrun
  | ok s =>
      obtain ⟨-, hlast, -, -, hstamps, hdescribes⟩ := hmeets.of_eq_ok hres
      refine ⟨s, rfl, ?_, hdescribes⟩
      rw [hstamps, ← Option.some.inj hlast]
      rfl

end GenTree

import GenTree.Scheduling

/-!
# The final report

The groups that are printed are those of the latest `prepare_vec_loc_data`.  Between
that call and the report configurations are run, which may cover new locations and
may cover a linked location without the one it is linked to; the report then misses a
location, or prints two locations together that do not belong together
(`finalReport_incomplete`).

`finalReport_exact_iff` says exactly when the report is right: there was no record
before, or every configuration that has been run since then treats the groups alike
(`St.Faithful`).  What the earlier configurations say is an invariant of the run
(`Lagging`).
-/

namespace GenTree

open Outcome Leaders

section FinalReport

variable {Name Hash : Type} [DecidableEq Name] [DecidableEq Hash] {env : Env Name Hash}

/-! ## Exact reports -/

/-- **Exact reports.**  Every location in the store is printed once, and two locations
are printed together exactly when the same configurations cover them. -/
structure Report.Exact (cov : CoverageStore Name) (r : Report Name) : Prop where
  once : (r.groups.flatMap Group.names).Perm (cov.locs.map Location.name)
  together : ∀ l ∈ cov.locs, ∀ l' ∈ cov.locs,
    (∃ g ∈ r.groups, l.name ∈ g.names ∧ l'.name ∈ g.names) ↔ l.covBy = l'.covBy

/-- The configuration `c` covers only locations that have a record, and a linked
location together with the one it is linked to.  Two locations have the same coverage when
all configurations cover them together, so this is what one configuration can say. -/
def St.Faithful (s : St Name Hash) (c : Config) : Prop :=
  (∀ id ∈ c.covLocs, id < s.vLocData.length) ∧
    ∀ (j : ℕ) (d : LocData) (p : ℕ), s.vLocData[j]? = some d → d.parent = some p →
      (j ∈ c.covLocs ↔ p ∈ c.covLocs)

/-- The record a record is printed with.  A link is followed once, which is enough where
records are `Rooted`. -/
def LocData.root (d : LocData) : ℕ := d.parent.getD d.loc

/-- Records are linked to unlinked records. -/
def Rooted (s : St Name Hash) : Prop :=
  ∀ (j : ℕ) (d : LocData) (p : ℕ), s.vLocData[j]? = some d → d.parent = some p →
    ∃ e, s.vLocData[p]? = some e ∧ e.linked = false

/-- The name a record is printed with. -/
def St.nameOf (s : St Name Hash) (d : LocData) : Option Name :=
  s.cov.locs[d.loc]?.map Location.name

omit [DecidableEq Hash] in
/-- The records in order have the names of the first locations. -/
theorem St.filterMap_nameOf {s : St Name Hash} (hs : Base env s) :
    s.vLocData.filterMap s.nameOf = (s.cov.locs.take s.vLocData.length).map Location.name := by
  have hmap : s.vLocData.map s.nameOf =
      ((s.cov.locs.take s.vLocData.length).map Location.name).map some := by
    refine List.ext_getElem? fun i => ?_
    rw [List.getElem?_map, List.getElem?_map, List.getElem?_map, List.getElem?_take]
    cases hd : s.vLocData[i]? with
    | none => rw [if_neg (by simpa using hd)]; rfl
    | some d =>
        have hlt := (List.getElem?_eq_some_iff.mp hd).1
        have hloc := Nat.lt_of_lt_of_le hlt hs.length_le
        rw [if_pos hlt, Option.map_some, nameOf, hs.loc_eq i d hd, List.getElem?_eq_getElem hloc]
        rfl
  have hid := congrArg (List.filterMap id) hmap
  rwa [List.filterMap_map, List.filterMap_map, Function.id_comp, Function.id_comp,
    List.filterMap_some] at hid

omit [DecidableEq Hash] in
theorem St.groupNames_eq {s : St Name Hash} (hs : Base env s) (j : ℕ) :
    s.groupNames j =
      .ok ((s.vLocData.filter fun d => d.root = j).filterMap s.nameOf) := by
  have hmapM : ∀ ds : List LocData, (∀ d ∈ ds, d ∈ s.vLocData) →
      (ds.mapM fun d => (do let loc ← vecAt s.cov.locs d.loc; .ok loc.name : Except Abort Name)) =
        .ok (ds.filterMap s.nameOf) := by
    intro ds hds
    induction ds with
    | nil => rfl
    | cons d ds ih =>
        obtain ⟨i, hi⟩ := List.mem_iff_getElem?.mp (hds d (List.mem_cons_self ..))
        have hlt : d.loc < s.cov.locs.length := by
          rw [hs.loc_eq i d hi]
          exact Nat.lt_of_lt_of_le (List.getElem?_eq_some_iff.mp hi).1 hs.length_le
        have hget := List.getElem?_eq_getElem hlt
        rw [List.mapM_cons, vecAt_of_getElem? hget, ok_bind, ok_bind,
          ih fun e he => hds e (List.mem_cons_of_mem _ he), ok_bind,
          List.filterMap_cons_some (by rw [nameOf, hget]; rfl)]
        rfl
  exact hmapM _ fun d hd => List.mem_of_mem_filter hd

theorem forall₂_exists_left {α β : Type} {R : α → β → Prop} {as : List α} {bs : List β}
    (h : List.Forall₂ R as bs) {b : β} (hb : b ∈ bs) : ∃ a ∈ as, R a b := by
  induction h with
  | nil => cases hb
  | cons hr _ ih =>
      rcases List.mem_cons.mp hb with rfl | hb
      · exact ⟨_, List.mem_cons_self .., hr⟩
      · obtain ⟨a, ha, har⟩ := ih hb
        exact ⟨a, List.mem_cons_of_mem _ ha, har⟩

theorem forall₂_exists_right {α β : Type} {R : α → β → Prop} {as : List α} {bs : List β}
    (h : List.Forall₂ R as bs) {a : α} (ha : a ∈ as) : ∃ b ∈ bs, R a b :=
  forall₂_exists_left h.flip ha

omit [DecidableEq Name] [DecidableEq Hash] in
theorem St.mem_unlinkedOf {s : St Name Hash} {j : ℕ} :
    j ∈ s.unlinkedOf (List.range s.vLocData.length) ↔
      ∃ d, s.vLocData[j]? = some d ∧ d.linked = false := by
  rw [unlinkedOf, List.mem_filter, List.mem_range]
  constructor
  · rintro ⟨hlt, hfilter⟩
    rw [List.getElem?_eq_getElem hlt] at hfilter
    exact ⟨_, List.getElem?_eq_getElem hlt, by simpa using hfilter⟩
  · rintro ⟨d, hd, hlinked⟩
    exact ⟨(List.getElem?_eq_some_iff.mp hd).1, by simp [hd, hlinked]⟩

omit [DecidableEq Hash] in
/-- The root of a record is unlinked. -/
theorem Rooted.root_mem {s : St Name Hash} (h : Rooted s) (hs : Base env s) {j : ℕ} {d : LocData}
    (hd : s.vLocData[j]? = some d) :
    d.root ∈ s.unlinkedOf (List.range s.vLocData.length) := by
  rw [St.mem_unlinkedOf, LocData.root]
  cases hp : d.parent with
  | some p => exact h j d p hd hp
  | none =>
      rw [Option.getD_none, hs.loc_eq j d hd]
      exact ⟨d, hd, by simp [LocData.linked, hp]⟩

section Groups

variable {s : St Name Hash} {groups : List (Group Name)}

omit [DecidableEq Hash]

/-- The names in the groups are those of the records, ordered by their roots. -/
theorem flatMap_names_eq (hs : Base env s) {ids : List ℕ}
    (hgroups : List.Forall₂ (GroupOf env s) ids groups) :
    groups.flatMap Group.names =
      (ids.flatMap fun j => s.vLocData.filter fun d => d.root = j).filterMap s.nameOf := by
  rw [List.filterMap_flatMap]
  induction hgroups with
  | nil => rfl
  | @cons j g ids groups hg _ ih =>
      have hj := hg.names
      rw [St.groupNames_eq hs, Except.ok.injEq] at hj
      rw [List.flatMap_cons, List.flatMap_cons, ih, hj]

/-- The names in the groups are the names of the records. -/
theorem flatMap_names_perm (hs : Base env s) (hroot : Rooted s)
    (hgroups : List.Forall₂ (GroupOf env s) (s.unlinkedOf (List.range s.vLocData.length)) groups) :
    (groups.flatMap Group.names).Perm ((s.cov.locs.take s.vLocData.length).map Location.name) := by
  rw [flatMap_names_eq hs hgroups, ← St.filterMap_nameOf hs]
  refine List.Perm.filterMap _ (flatMap_filter_perm ?_ fun d hd => ?_)
  · exact List.nodup_range.filter _
  · obtain ⟨j, hj⟩ := List.mem_iff_getElem?.mp hd
    exact hroot.root_mem hs hj

/-- The location of a record is printed with the root of the record. -/
theorem GroupOf.mem_names_iff (hs : Base env s) {j u : ℕ} {g : Group Name} (hg : GroupOf env s u g)
    {l : Location Name} (hl : s.cov.locs[j]? = some l) :
    l.name ∈ g.names ↔ ∃ d, s.vLocData[j]? = some d ∧ d.root = u := by
  obtain ⟨hist, hv⟩ := hs.stocked.valid
  have hnames := hg.names
  rw [St.groupNames_eq hs, Except.ok.injEq] at hnames
  rw [← hnames, List.mem_filterMap]
  constructor
  · rintro ⟨d, hmem, hname⟩
    obtain ⟨hmem, hroot⟩ := List.mem_filter.mp hmem
    obtain ⟨i, hi⟩ := List.mem_iff_getElem?.mp hmem
    obtain ⟨l', hl', hname⟩ := Option.map_eq_some_iff.mp hname
    rw [hs.loc_eq i d hi] at hl'
    obtain rfl := hv.name_inj hl' hl hname
    exact ⟨d, hi, by simpa using hroot⟩
  · rintro ⟨d, hd, hroot⟩
    refine ⟨d, List.mem_filter.mpr ⟨List.mem_of_getElem? hd, by simpa using hroot⟩, ?_⟩
    rw [St.nameOf, hs.loc_eq j d hd, hl, Option.map_some]

/-- Two locations are printed together when their records have the same root. -/
theorem together_iff (hs : Base env s) (hroot : Rooted s)
    (hgroups : List.Forall₂ (GroupOf env s) (s.unlinkedOf (List.range s.vLocData.length)) groups)
    {j k : ℕ} {l l' : Location Name} (hl : s.cov.locs[j]? = some l)
    (hl' : s.cov.locs[k]? = some l') :
    (∃ g ∈ groups, l.name ∈ g.names ∧ l'.name ∈ g.names) ↔
      ∃ d e, s.vLocData[j]? = some d ∧ s.vLocData[k]? = some e ∧ d.root = e.root := by
  constructor
  · rintro ⟨g, hmem, hname, hname'⟩
    obtain ⟨u, -, hg⟩ := forall₂_exists_left hgroups hmem
    obtain ⟨d, hd, hdroot⟩ := (GroupOf.mem_names_iff hs hg hl).mp hname
    obtain ⟨e, he, heroot⟩ := (GroupOf.mem_names_iff hs hg hl').mp hname'
    exact ⟨d, e, hd, he, hdroot.trans heroot.symm⟩
  · rintro ⟨d, e, hd, he, heq⟩
    obtain ⟨g, hmem, hg⟩ := forall₂_exists_right hgroups (hroot.root_mem hs hd)
    exact ⟨g, hmem, (GroupOf.mem_names_iff hs hg hl).mpr ⟨d, hd, rfl⟩,
      (GroupOf.mem_names_iff hs hg hl').mpr ⟨e, he, heq.symm⟩⟩

/-- The location of the root of a record. -/
theorem covBy_root (hparent : ∀ (j : ℕ) (d : LocData) (p : ℕ), s.vLocData[j]? = some d →
      d.parent = some p → s.cov.covBy p = s.cov.covBy j) (hs : Base env s) {j : ℕ} {d : LocData}
    (hd : s.vLocData[j]? = some d) : s.cov.covBy d.root = s.cov.covBy j := by
  rw [LocData.root]
  cases hp : d.parent with
  | some p => exact hparent j d p hd hp
  | none => rw [Option.getD_none, hs.loc_eq j d hd]

/-- **When a report is exact**: every location has a record, and linked locations have
the coverage of the one they are linked to. -/
theorem exact_iff_of_groups (hs : Base env s) (hroot : Rooted s)
    (hdiffer : ∀ (j : ℕ) (d : LocData), s.vLocData[j]? = some d → d.linked = false →
      ∀ i < j, s.cov.covBy i ≠ s.cov.covBy j)
    (hgroups : List.Forall₂ (GroupOf env s) (s.unlinkedOf (List.range s.vLocData.length)) groups)
    (iter nUniq : ℕ) :
    Report.Exact s.cov ⟨iter, s.cov.nConfigs, s.cov.nLocs, nUniq, groups⟩ ↔
      s.vLocData.length = s.cov.nLocs ∧
        ∀ (j : ℕ) (d : LocData) (p : ℕ), s.vLocData[j]? = some d → d.parent = some p →
          s.cov.covBy p = s.cov.covBy j := by
  have hperm := flatMap_names_perm hs hroot hgroups
  constructor
  · rintro ⟨honce, htogether⟩
    have hlen := (hperm.symm.trans honce).length_eq
    rw [List.length_map, List.length_map, List.length_take] at hlen
    have hfull : s.vLocData.length = s.cov.nLocs := by
      have := hs.length_le
      rw [CoverageStore.nLocs] at this ⊢
      omega
    refine ⟨hfull, fun j d p hd hp => ?_⟩
    obtain ⟨e, he, hlinked⟩ := hroot j d p hd hp
    have hlt : ∀ {i : ℕ} {f : LocData}, s.vLocData[i]? = some f → i < s.cov.locs.length := by
      intro i f hf
      rw [show s.cov.locs.length = s.vLocData.length from hfull.symm]
      exact (List.getElem?_eq_some_iff.mp hf).1
    have hl := List.getElem?_eq_getElem (hlt hd)
    have hl' := List.getElem?_eq_getElem (hlt he)
    have heroot : e.root = p := by
      have hnone : e.parent = none := by simpa [LocData.linked] using hlinked
      rw [LocData.root, hnone, Option.getD_none, hs.loc_eq p e he]
    have hmem := (together_iff hs hroot hgroups hl hl').mpr
      ⟨d, e, hd, he, by rw [heroot, LocData.root, hp, Option.getD_some]⟩
    have heq := (htogether _ (List.mem_of_getElem? hl) _ (List.mem_of_getElem? hl')).mp hmem
    rw [CoverageStore.covBy, CoverageStore.covBy, hl, hl', Option.map_some, Option.map_some, heq]
  · rintro ⟨hfull, hparent⟩
    refine ⟨?_, fun l hl l' hl' => ?_⟩
    · rwa [hfull, CoverageStore.nLocs, List.take_length] at hperm
    · obtain ⟨j, hj⟩ := List.mem_iff_getElem?.mp hl
      obtain ⟨k, hk⟩ := List.mem_iff_getElem?.mp hl'
      have hcov : l.covBy = l'.covBy ↔ s.cov.covBy j = s.cov.covBy k := by
        rw [CoverageStore.covBy, CoverageStore.covBy, hj, hk, Option.map_some, Option.map_some,
          Option.some.injEq]
      have hrec : ∀ {i : ℕ} {m : Location Name}, s.cov.locs[i]? = some m →
          ∃ d, s.vLocData[i]? = some d := by
        intro i m hm
        have hlt := (List.getElem?_eq_some_iff.mp hm).1
        exact ⟨_, List.getElem?_eq_getElem (show i < s.vLocData.length by rwa [hfull])⟩
      obtain ⟨d, hd⟩ := hrec hj
      obtain ⟨e, he⟩ := hrec hk
      rw [together_iff hs hroot hgroups hj hk, hcov, ← covBy_root hparent hs hd,
        ← covBy_root hparent hs he]
      constructor
      · rintro ⟨d', e', hd', he', heq⟩
        rw [hd, Option.some.injEq] at hd'
        rw [he, Option.some.injEq] at he'
        rw [hd', he', heq]
      · intro heq
        refine ⟨d, e, hd, he, ?_⟩
        -- two roots with the same coverage are the same
        obtain ⟨f, hf, hfl⟩ := St.mem_unlinkedOf.mp (hroot.root_mem hs hd)
        obtain ⟨f', hf', hfl'⟩ := St.mem_unlinkedOf.mp (hroot.root_mem hs he)
        rcases Nat.lt_trichotomy d.root e.root with hlt | hsame | hlt
        · exact absurd heq (hdiffer _ f' hf' hfl' _ hlt)
        · exact hsame
        · exact absurd heq.symm (hdiffer _ f hf hfl _ hlt)

end Groups

/-! ## What the configurations say -/

theorem CoverageStore.covering_congr {hist : List (List Name)} {name name' : Name}
    (h : ∀ i, i ∈ covering hist name ↔ i ∈ covering hist name') :
    covering hist name = covering hist name' := by
  refine List.filter_congr fun i hi => ?_
  have hiff := h i
  rw [covering, covering, List.mem_filter, List.mem_filter, and_iff_right hi,
    and_iff_right hi] at hiff
  exact Bool.eq_iff_iff.mpr hiff

/-- Membership in `cov_locs` is membership in `cov_by`. -/
theorem CoverageStore.Valid.mem_covLocs_iff {cov : CoverageStore Name} {hist : List (List Name)}
    (h : cov.Valid hist) {i j : ℕ} {c : Config} {l : Location Name}
    (hc : cov.configs[i]? = some c) (hl : cov.locs[j]? = some l) :
    j ∈ c.covLocs ↔ i ∈ l.covBy := by
  rw [h.mem_covLocs i c hc j, hl]
  simp

omit [DecidableEq Hash] in
/-- **All configurations treat the groups alike** exactly when every location has a
record and linked locations have the coverage of the one they are linked to. -/
theorem forall_faithful_iff {s : St Name Hash} (hs : Base env s) (hroot : Rooted s) :
    (∀ c ∈ s.cov.configs, s.Faithful c) ↔ s.vLocData.length = s.cov.nLocs ∧
      ∀ (j : ℕ) (d : LocData) (p : ℕ), s.vLocData[j]? = some d → d.parent = some p →
        s.cov.covBy p = s.cov.covBy j := by
  obtain ⟨hist, hv⟩ := hs.stocked.valid
  have hloc : ∀ {i : ℕ} {f : LocData}, s.vLocData[i]? = some f →
      ∃ l, s.cov.locs[i]? = some l := fun hf =>
    ⟨_, List.getElem?_eq_getElem
      (Nat.lt_of_lt_of_le (List.getElem?_eq_some_iff.mp hf).1 hs.length_le)⟩
  constructor
  · intro h
    refine ⟨Nat.le_antisymm hs.length_le (Nat.not_lt.mp fun hlt => ?_), fun j d p hd hp => ?_⟩
    · -- the first location without a record is covered by some configuration
      have hl := List.getElem?_eq_getElem (show s.vLocData.length < s.cov.locs.length from hlt)
      obtain ⟨i, hi⟩ := List.exists_mem_of_ne_nil _ (hv.discovered _ (List.mem_of_getElem? hl))
      have hc := List.getElem?_eq_getElem
        (show i < s.cov.configs.length from hv.covBy_lt _ (List.mem_of_getElem? hl) i hi)
      have hmem := (hv.mem_covLocs_iff hc hl).mpr hi
      exact Nat.lt_irrefl _ ((h _ (List.mem_of_getElem? hc)).1 _ hmem)
    · obtain ⟨e, he, -⟩ := hroot j d p hd hp
      obtain ⟨l, hl⟩ := hloc hd
      obtain ⟨l', hl'⟩ := hloc he
      have hcov := hv.covBy l (List.mem_of_getElem? hl)
      have hcov' := hv.covBy l' (List.mem_of_getElem? hl')
      rw [CoverageStore.covBy, CoverageStore.covBy, hl, hl', Option.map_some, Option.map_some,
        Option.some.injEq, hcov, hcov']
      refine CoverageStore.covering_congr fun i => ?_
      rw [← hcov, ← hcov']
      rcases Nat.lt_or_ge i s.cov.nConfigs with hi | hi
      · have hc := List.getElem?_eq_getElem (show i < s.cov.configs.length from hi)
        rw [← hv.mem_covLocs_iff hc hl, ← hv.mem_covLocs_iff hc hl']
        exact ((h _ (List.mem_of_getElem? hc)).2 j d p hd hp).symm
      · have hnot : ∀ m ∈ s.cov.locs, i ∉ m.covBy := fun m hm hmem =>
          absurd (hv.covBy_lt m hm i hmem) (Nat.not_lt.mpr hi)
        exact iff_of_false (hnot l' (List.mem_of_getElem? hl')) (hnot l (List.mem_of_getElem? hl))
  · rintro ⟨hfull, hparent⟩ c hmem
    obtain ⟨i, hc⟩ := List.mem_iff_getElem?.mp hmem
    refine ⟨fun id hid => ?_, fun j d p hd hp => ?_⟩
    · obtain ⟨l, hl, -⟩ := (hv.mem_covLocs i c hc id).mp hid
      rw [hfull]
      exact (List.getElem?_eq_some_iff.mp hl).1
    · obtain ⟨e, he, -⟩ := hroot j d p hd hp
      obtain ⟨l, hl⟩ := hloc hd
      obtain ⟨l', hl'⟩ := hloc he
      have heq := hparent j d p hd hp
      rw [CoverageStore.covBy, CoverageStore.covBy, hl, hl', Option.map_some, Option.map_some,
        Option.some.injEq] at heq
      rw [hv.mem_covLocs_iff hc hl, hv.mem_covLocs_iff hc hl', heq]

/-! ## Between two calls of `prepare_vec_loc_data` -/

/-- The configurations from before the iteration treat the groups alike.  The links were made
from the hashes of the coverage by then, and the later configurations are not in it. -/
structure Lagging (s : St Name Hash) : Prop where
  prev_le : s.prevNConf ≤ s.cov.nConfigs
  rooted : Rooted s
  faithful : ∀ i < s.prevNConf, ∀ c, s.cov.configs[i]? = some c → s.Faithful c

/-- The records of `s'` are linked as those of `s`. -/
structure SameLinks (s s' : St Name Hash) : Prop where
  length : s'.vLocData.length = s.vLocData.length
  back : ∀ (j : ℕ) (d' : LocData), s'.vLocData[j]? = some d' →
    ∃ d, s.vLocData[j]? = some d ∧ d.parent = d'.parent
  forth : ∀ (j : ℕ) (d : LocData), s.vLocData[j]? = some d →
    ∃ d', s'.vLocData[j]? = some d' ∧ d'.parent = d.parent

namespace SameLinks

variable {s s' : St Name Hash}

omit [DecidableEq Name] [DecidableEq Hash]

theorem of_eq (h : s'.vLocData = s.vLocData) : SameLinks s s' :=
  ⟨by rw [h], fun _ d' hd' => ⟨d', by rw [← h, hd'], rfl⟩, fun _ d hd => ⟨d, by rw [h, hd], rfl⟩⟩

theorem of_moved {j : ℕ} {d d' : LocData} (h : Moved j d d' s s') : SameLinks s s' where
  length := by rw [h.vLocData, List.length_set]
  back i e' he' := by
    obtain ⟨e, he, hparent, -⟩ := h.back i e' he'
    exact ⟨e, he, hparent⟩
  forth _ _ he := h.forth he

theorem of_finished {buildTreeTemp : Bool} {iter : ℕ} (h : Finished env buildTreeTemp s iter s') :
    SameLinks s s' where
  length := h.length
  back i e' he' := by
    obtain ⟨e, he, hparent, -⟩ := h.back i e' he'
    exact ⟨e, he, hparent⟩
  forth _ _ he := h.forth he

theorem rooted (h : SameLinks s s') (hroot : Rooted s) : Rooted s' := by
  intro j d' p hd' hp
  obtain ⟨d, hd, hparent⟩ := h.back j d' hd'
  obtain ⟨e, he, hlinked⟩ := hroot j d p hd (by rw [hparent, hp])
  obtain ⟨e', he', hparent'⟩ := h.forth p e he
  exact ⟨e', he', by rwa [LocData.linked, hparent']⟩

theorem faithful (h : SameLinks s s') {c : Config} (hc : s.Faithful c) : s'.Faithful c := by
  refine ⟨by rw [h.length]; exact hc.1, fun j d' p hd' hp => ?_⟩
  obtain ⟨d, hd, hparent⟩ := h.back j d' hd'
  exact hc.2 j d p hd (by rw [hparent, hp])

/-- The old configurations stay where they are. -/
theorem lagging (h : SameLinks s s') (hlag : Lagging s) (hgrows : s.cov.Grows s'.cov)
    (hprev : s'.prevNConf = s.prevNConf) : Lagging s' where
  prev_le := by
    rw [hprev]
    exact hlag.prev_le.trans hgrows.nConfigs_le
  rooted := h.rooted hlag.rooted
  faithful i hi c hc := by
    rw [hprev] at hi
    have hlt : i < s.cov.configs.length := Nat.lt_of_lt_of_le hi hlag.prev_le
    have hget := List.getElem?_eq_getElem hlt
    rw [hgrows.configs i _ hget, Option.some.injEq] at hc
    subst hc
    exact h.faithful (hlag.faithful i hi _ hget)

end SameLinks

omit [DecidableEq Name] [DecidableEq Hash] in
theorem Lagging.of_eq {s s' : St Name Hash} (h : Lagging s) (hcov : s'.cov = s.cov)
    (hdat : s'.vLocData = s.vLocData) (hprev : s'.prevNConf = s.prevNConf) : Lagging s' := by
  have hlinks : SameLinks s s' := .of_eq hdat
  exact hlinks.lagging h (by rw [hcov]; exact .refl _) hprev

omit [DecidableEq Name] [DecidableEq Hash] in
theorem Grouped.rooted {s : St Name Hash} (h : Grouped s) : Rooted s := by
  intro j d p hd hp
  obtain ⟨-, -, -, hroot⟩ := (h j d hd).2 p hp
  exact hroot

omit [DecidableEq Name] [DecidableEq Hash] in
/-- Grouped records have the coverage of the one they are linked to. -/
theorem Grouped.parent {s : St Name Hash} (h : Grouped s) (j : ℕ) (d : LocData) (p : ℕ)
    (hd : s.vLocData[j]? = some d) (hp : d.parent = some p) : s.cov.covBy p = s.cov.covBy j :=
  ((h j d hd).2 p hp).2.1

omit [DecidableEq Name] [DecidableEq Hash] in
theorem Grouped.differ {s : St Name Hash} (h : Grouped s) (j : ℕ) (d : LocData)
    (hd : s.vLocData[j]? = some d) (hlinked : d.linked = false) (i : ℕ) (hi : i < j) :
    s.cov.covBy i ≠ s.cov.covBy j := by
  intro heq
  rw [(h j d hd).1.mpr ⟨i, hi, heq⟩] at hlinked
  cases hlinked

/-- The block behind the loop groups the records that it makes. -/
theorem grouped_of_fresh (hinj : Function.Injective env.locHash) {s s₁ s' : St Name Hash}
    {new : List ℕ} (hs : Base env s) (hrun : s.prepareVecLocData env = .ok (s₁, new))
    (href : RefreshedTo env false s₁ (List.range s₁.vLocData.length) s') :
    Grouped s' ∧ s'.vLocData.length = s'.cov.nLocs := by
  obtain ⟨hcov, hlen, hdat⟩ := hs.prepareVecLocData hrun
  have hcov' : s'.cov = s.cov := href.cov_eq.trans hcov
  have hlen' : s'.vLocData.length = s.cov.nLocs := href.length.trans hlen
  refine ⟨grouped_of_preparedAs hinj hcov' hlen' fun j d' hd' => ?_, by rw [hlen', hcov']⟩
  have hlt := (List.getElem?_eq_some_iff.mp hd').1
  rw [href.length] at hlt
  have hd := List.getElem?_eq_getElem hlt
  obtain ⟨d₂, hd₂, hrefresh⟩ := href.dat_all j _ hd
  rw [hd', Option.some.injEq] at hd₂
  subst hd₂
  exact ⟨_, hdat j _ hd, hrefresh.sameRole.parent⟩

omit [DecidableEq Name] [DecidableEq Hash] in
theorem Lagging.finished {s s' : St Name Hash} {buildTreeTemp : Bool} {iter : ℕ}
    (h : Lagging s) (hfin : Finished env buildTreeTemp s iter s') : Lagging s' :=
  (SameLinks.of_finished hfin).lagging h (by rw [hfin.state]; exact .refl _) (by rw [hfin.state])

/-- **The old configurations treat the groups alike**: one step. -/
theorem Stepped.lagging {x y : Label × St Name Hash} (h : Stepped env x y)
    (hinj : Function.Injective env.locHash) (hx : Base env x.2) (hy : y.1 ≠ .done)
    (hlag : Lagging x.2) : Lagging y.2 := by
  cases h with
  | @start iter s _ =>
      have hgroup := grouped_started hinj s
      have hall := (forall_faithful_iff hx.started hgroup.rooted).mpr
        ⟨by simp [St.started], hgroup.parent⟩
      exact ⟨Nat.le_refl _, hgroup.rooted, fun i _ c hc => hall c (List.mem_of_getElem? hc)⟩
  | stop | endTurns _ | pick _ | «return» _ | endConfig _ | terminate | enqueueAll | goOn
  | giveUp | brk _ | quiet _ | noSave | done =>
      exact hlag.of_eq rfl rfl rfl
  | turn _ hrun =>
      obtain ⟨d, d', hd, hturned⟩ := hx.turned hrun
      exact (SameLinks.of_moved (hturned.moved hd)).lagging hlag hturned.grows hturned.prevNConf
  | recheck _ _ hre =>
      obtain rfl | ⟨d, d', hmoved, -⟩ := hre.moved
      · exact hlag
      · exact (SameLinks.of_moved hmoved).lagging hlag hmoved.grows hmoved.prevNConf
  | @usr iter s s' _ hfin =>
      have hread : Lagging (s.readSignal env) := hlag.of_eq rfl rfl rfl
      exact (hread.finished hfin).of_eq rfl rfl rfl
  | save hfin => exact hlag.finished hfin
  | finish _ _ => exact absurd rfl hy

section Run

variable {guard : Label × St Name Hash → Prop} {l : Label} {s : St Name Hash}

theorem RunsTo.lagging (hinj : Function.Injective env.locHash) (h : RunsTo env guard l s)
    (hl : l ≠ .done) : Lagging s := by
  refine h.invariant (fun x => x.1 ≠ .done → Lagging x.2) (fun x y hx hI _ hstep hy => ?_)
    (fun s₀ hinit _ => ?_) hl
  · refine hstep.lagging hinj hx.base hy (hI fun hdone => ?_)
    obtain ⟨l, s⟩ := x
    dsimp only at hdone
    subst hdone
    cases hstep
    exact hy rfl
  · obtain ⟨-, hnil, -, -, -, -, hprev, -⟩ := env.init_meets.of_eq_ok hinit
    refine ⟨by rw [hprev]; exact Nat.zero_le _, ?_, fun i hi => ?_⟩
    · intro j d p hd
      rw [hnil] at hd
      cases hd
    · rw [hprev] at hi
      omega

/-- What the last step prints, with the state it prints. -/
theorem RunsTo.final_step (h : RunsTo env guard (.final iter) s) {y : Label × St Name Hash}
    (hstep : step env (.final iter, s) = .ok y) :
    ∃ s₁ groups, PreparedFinal env s s₁ ∧ y.2.cov = s.cov ∧ s₁.cov = s.cov ∧
      y.2.reports = s.reports ++ [⟨iter, s₁.cov.nConfigs, s₁.cov.nLocs, s₁.vUniq.length, groups⟩] ∧
      List.Forall₂ (GroupOf env s₁) (s₁.unlinkedOf (List.range s₁.vLocData.length)) groups := by
  have hstepped := (step_meets (x := (.final iter, s)) h.base).of_eq_ok hstep
  cases hstepped with
  | @finish _ _ s₁ s' hprep hfin =>
      obtain ⟨groups, hreports, hgroups⟩ := hfin.reports
      have hcov := hprep.cov h.base
      refine ⟨s₁, groups, hprep, ?_, hcov, ?_, hgroups⟩
      · rw [hfin.state]
        exact hcov
      · rw [hreports, hprep.reports]

/-- **When the final report is exact.**  At the end of any run, the report that is
printed is exact if and only if there were no records before, or every configuration
that has been run since the latest `prepare_vec_loc_data` covers only locations with a
record, and linked locations together with the one they are linked to. -/
theorem finalReport_exact_iff (hinj : Function.Injective env.locHash) {iter : ℕ}
    (h : RunsTo env guard (.final iter) s) {y : Label × St Name Hash}
    (hstep : step env (.final iter, s) = .ok y) :
    ∃ r, y.2.reports = s.reports ++ [r] ∧ (r.Exact y.2.cov ↔
      s.vLocData = [] ∨ ∀ c ∈ s.cov.configs.drop s.prevNConf, s.Faithful c) := by
  obtain ⟨s₁, groups, hprep, hcov, hcov₁, hreports, hgroups⟩ := h.final_step hstep
  refine ⟨_, hreports, ?_⟩
  have hbase := h.base.preparedFinal hprep
  rw [hcov, ← hcov₁]
  cases hprep with
  | same hne hstate =>
      subst hstate
      have hlag := h.lagging hinj (by simp)
      rw [exact_iff_of_groups hbase hlag.rooted (h.keptApart hinj (by simp)).differ hgroups,
        ← forall_faithful_iff hbase hlag.rooted, or_iff_right hne]
      refine ⟨fun hall c hc => hall c (List.mem_of_mem_drop hc), fun hnew c hc => ?_⟩
      obtain ⟨i, hi⟩ := List.mem_iff_getElem?.mp hc
      rcases Nat.lt_or_ge i s₁.prevNConf with hlt | hge
      · exact hlag.faithful i hlt c hi
      · refine hnew c (List.mem_iff_getElem?.mpr ⟨i - s₁.prevNConf, ?_⟩)
        rw [List.getElem?_drop, Nat.add_sub_cancel' hge, hi]
  | fresh hnil hrun href =>
      obtain ⟨hgroup, hlen⟩ := grouped_of_fresh hinj h.base hrun href
      rw [exact_iff_of_groups hbase hgroup.rooted hgroup.differ hgroups]
      exact iff_of_true ⟨hlen, hgroup.parent⟩ (.inl hnil)

end Run

end FinalReport

/-! ## Examples -/

/-- The iteration runs a configuration that covers a new location. -/
def Env.discovering : Env ℕ (List ℤ) :=
  { Env.small fun v => if v = [1, 1, 1] then [1] else if v = [0, 1, 1] then [2] else [] with
    draws := fun k => if k < 3 then 0 else 1 }

/-- The same program, whose configurations are all run beforehand. -/
def Env.exhaustive : Env ℕ (List ℤ) :=
  { Env.discovering with options := { full := true, rounds := 1 } }

/-- The report of `--full` is exact. -/
theorem finalReport_exact_iff_exhaustive :
    ∃ s y r, RunsTo Env.exhaustive (fun _ => True) (.final 1) s ∧
      step Env.exhaustive (.final 1, s) = .ok y ∧ y.2.reports = s.reports ++ [r] ∧
      r.Exact y.2.cov := by
  have hinj : Function.Injective Env.exhaustive.locHash := Env.small_locHash_injective fun _ => []
  obtain ⟨l, s, hrun, rfl, hnil, hfault⟩ := exists_runsTo Env.exhaustive (fun _ => True) 1
    (fun x => x.1 = .final 1 ∧ x.2.vLocData.length = 0 ∧ Env.exhaustive.fault x = none)
    (by decide +kernel)
  obtain ⟨y, hy⟩ := Env.fault_eq_none.mp hfault
  obtain ⟨r, hr, hexact⟩ := finalReport_exact_iff hinj hrun hy
  exact ⟨s, y, r, hrun, hy, hr, hexact.mpr (.inl (List.length_eq_zero_iff.mp hnil))⟩

/-- **An incomplete report.**  The location that has been found last is not printed. -/
theorem finalReport_incomplete :
    ∃ s y r, RunsTo Env.discovering (fun _ => True) (.final 2) s ∧
      step Env.discovering (.final 2, s) = .ok y ∧ y.2.reports = s.reports ++ [r] ∧
      ¬ r.Exact y.2.cov := by
  obtain ⟨l, s, hrun, rfl, hnil, hstep⟩ := exists_runsTo Env.discovering (fun _ => True) 12
    (fun x => x.1 = .final 2 ∧ x.2.reports.length = 0 ∧
      (step Env.discovering x).toOption.any (fun y => decide (y.2.cov.locs.length = 2 ∧
        y.2.reports.map (fun r => (r.groups.flatMap Group.names).length) = [1])) = true)
    (by decide +kernel)
  cases hy : step Env.discovering (.final 2, s) with
  | error f =>
      rw [hy] at hstep
      cases hstep
  | ok y =>
      rw [hy] at hstep
      obtain ⟨hlocs, hreports⟩ := of_decide_eq_true hstep
      obtain ⟨r, hr, hlen⟩ := List.map_eq_singleton_iff.mp hreports
      refine ⟨s, y, r, hrun, hy, ?_, fun hexact => ?_⟩
      · rw [hr, List.length_eq_zero_iff.mp hnil, List.nil_append]
      · have hperm := hexact.once.length_eq
        rw [hlen, List.length_map, hlocs] at hperm
        cases hperm

end GenTree

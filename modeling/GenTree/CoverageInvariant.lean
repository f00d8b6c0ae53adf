import GenTree.CTree

/-!
# The coverage store over a run

A store is described by its **history**: the sets of names that were passed with
the configurations, in the order of registration.  `CoverageStore.Valid` says
what the store is then — ids are positions, every name passed has exactly one
location, `cov_by` of a location is `covering`, the positions in the history
whose set has its name, and `cov_loc_ids` of a configuration mirrors it.

`Valid.registerCov` is the step: registering one more fresh configuration extends
the history by its set of names, and no `CHECK` fires.  The proof follows the
three phases of `register_cov`: the configuration gets its id, the names are
looked up or registered (`Found`), and the sorted locations are linked one by
one (`Linked`).
-/

namespace GenTree

open Outcome

variable {Name : Type} [DecidableEq Name]

/-- The ids of the configurations that cover a name, by the history. -/
def covering (hist : List (List Name)) (name : Name) : List ℕ :=
  (List.range hist.length).filter fun i => decide (name ∈ hist.getD i [])

theorem mem_covering {hist : List (List Name)} {name : Name} {i : ℕ} :
    i ∈ covering hist name ↔ ∃ names, hist[i]? = some names ∧ name ∈ names := by
  simp only [covering, List.mem_filter, List.mem_range, decide_eq_true_eq,
    List.getD_eq_getElem?_getD]
  constructor
  · rintro ⟨hi, hmem⟩
    rw [List.getElem?_eq_getElem hi] at hmem
    exact ⟨_, List.getElem?_eq_getElem hi, hmem⟩
  · rintro ⟨names, hget, hmem⟩
    refine ⟨(List.getElem?_eq_some_iff.mp hget).1, ?_⟩
    rwa [hget]

theorem covering_sorted (hist : List (List Name)) (name : Name) :
    (covering hist name).Pairwise (· < ·) :=
  List.pairwise_lt_range.filter _

theorem covering_lt {hist : List (List Name)} {name : Name} {i : ℕ}
    (h : i ∈ covering hist name) : i < hist.length := by
  obtain ⟨names, hget, -⟩ := mem_covering.mp h
  exact (List.getElem?_eq_some_iff.mp hget).1

/-- One more configuration. -/
theorem covering_concat (hist : List (List Name)) (names : List Name) (name : Name) :
    covering (hist ++ [names]) name =
      covering hist name ++ if name ∈ names then [hist.length] else [] := by
  have hold : (List.range hist.length).filter
      (fun i => decide (name ∈ (hist ++ [names]).getD i [])) = covering hist name := by
    refine List.filter_congr fun i hi => ?_
    rw [List.mem_range] at hi
    rw [List.getD_eq_getElem?_getD, List.getD_eq_getElem?_getD, List.getElem?_append_left hi]
  have hnew : (hist ++ [names]).getD hist.length [] = names := by simp
  rw [covering, List.length_append, List.length_singleton, List.range_succ, List.filter_append,
    hold, List.filter_cons, List.filter_nil, hnew]
  simp

namespace CoverageStore

/-! ## The invariant -/

/-- Location ids are positions, and the name map finds exactly the registered
names. -/
structure Indexed (cov : CoverageStore Name) : Prop where
  locId : ∀ (j : ℕ) (l : Location Name), cov.locs[j]? = some l → l.id = some j
  lookup : ∀ (name : Name) (j : ℕ),
    cov.locMut name = some j ↔ ∃ l, cov.locs[j]? = some l ∧ l.name = name

/-- The store is **valid** for a history. -/
structure Valid (cov : CoverageStore Name) (hist : List (List Name)) : Prop extends
    Indexed cov where
  nConfigs : cov.configs.length = hist.length
  confId : ∀ (i : ℕ) (c : Config), cov.configs[i]? = some c → c.id = some i
  known : ∀ names ∈ hist, ∀ name ∈ names, ∃ l ∈ cov.locs, l.name = name
  discovered : ∀ l ∈ cov.locs, l.covBy ≠ []
  covBy : ∀ l ∈ cov.locs, l.covBy = covering hist l.name
  covLocs_sorted : ∀ c ∈ cov.configs, c.covLocs.Pairwise (· < ·)
  mem_covLocs : ∀ (i : ℕ) (c : Config), cov.configs[i]? = some c → ∀ j,
    j ∈ c.covLocs ↔ ∃ l, cov.locs[j]? = some l ∧ i ∈ l.covBy

theorem valid_empty : ({} : CoverageStore Name).Valid [] := by
  refine ⟨⟨?_, ?_⟩, rfl, ?_, ?_, ?_, ?_, ?_, ?_⟩ <;> simp [locMut]

/-- Two locations of one name are the same. -/
theorem Indexed.name_inj {cov : CoverageStore Name} (h : cov.Indexed) {i j : ℕ}
    {l l' : Location Name} (hi : cov.locs[i]? = some l) (hj : cov.locs[j]? = some l')
    (hname : l.name = l'.name) : i = j := by
  have hi' := (h.lookup l.name i).mpr ⟨l, hi, rfl⟩
  have hj' := (h.lookup l.name j).mpr ⟨l', hj, hname.symm⟩
  rw [hi', Option.some.injEq] at hj'
  exact hj'

/-! ## Finding and registering the locations -/

/-- The store with one more location. -/
def withLoc (cov : CoverageStore Name) (name : Name) : CoverageStore Name :=
  { cov with
    locs := cov.locs ++ [{ name, id := some cov.nLocs }]
    mapNameLoc := cov.mapNameLoc ++ [(name, cov.nLocs)] }

theorem registerLoc_eq {cov : CoverageStore Name} {name : Name} (h : cov.locMut name = none) :
    cov.registerLoc { name } = .ok (cov.withLoc name) := by
  have hid : ({ name } : Location Name).id = none := rfl
  rw [locMut] at h
  rw [registerLoc, Location.setId, check_pos hid, ok_bind, ok_bind, check_pos h, ok_bind, withLoc]

theorem locMut_withLoc (cov : CoverageStore Name) (name name' : Name) :
    (cov.withLoc name).locMut name' =
      (cov.locMut name').or (if name' = name then some cov.nLocs else none) := by
  rw [withLoc, locMut, List.lookup_append, locMut]
  by_cases hname : name' = name
  · subst hname
    simp
  · simp [List.lookup_cons, hname, beq_eq_false_iff_ne.mpr hname]

omit [DecidableEq Name] in
theorem locs_withLoc {cov : CoverageStore Name} {name : Name} {j : ℕ} {l : Location Name} :
    (cov.withLoc name).locs[j]? = some l ↔
      cov.locs[j]? = some l ∨ j = cov.nLocs ∧ l = { name, id := some cov.nLocs } := by
  rw [withLoc, nLocs]
  exact getElem?_concat_eq_some

/-- A new name is added to the map. -/
theorem Indexed.withLoc {cov : CoverageStore Name} (h : cov.Indexed) {name : Name}
    (hnone : cov.locMut name = none) : (cov.withLoc name).Indexed := by
  refine ⟨fun j l hl => ?_, fun name' j => ?_⟩
  · rcases locs_withLoc.mp hl with hold | ⟨rfl, rfl⟩
    · exact h.locId j l hold
    · rfl
  · rw [locMut_withLoc]
    by_cases hname : name' = name
    · subst hname
      rw [hnone, Option.none_or, if_pos rfl, Option.some.injEq]
      constructor
      · rintro rfl
        exact ⟨_, locs_withLoc.mpr (.inr ⟨rfl, rfl⟩), rfl⟩
      · rintro ⟨l, hl, hlname⟩
        rcases locs_withLoc.mp hl with hold | ⟨rfl, -⟩
        · have := (h.lookup name' j).mpr ⟨l, hold, hlname⟩
          rw [hnone] at this
          cases this
        · rfl
    · rw [if_neg hname, Option.or_none, h.lookup]
      constructor
      · rintro ⟨l, hl, hlname⟩
        exact ⟨l, locs_withLoc.mpr (.inl hl), hlname⟩
      · rintro ⟨l, hl, hlname⟩
        rcases locs_withLoc.mp hl with hold | ⟨-, rfl⟩
        · exact ⟨l, hold, hlname⟩
        · exact absurd hlname.symm hname

/-- The state of the loop over the names once `done` has been looked up. -/
structure Found (cov₀ : CoverageStore Name) (done : List Name)
    (st : CoverageStore Name × List ℕ × ℕ) : Prop where
  indexed : st.1.Indexed
  configs : st.1.configs = cov₀.configs
  locs : ∃ new, st.1.locs = cov₀.locs ++ new ∧
    ∀ l ∈ new, l.covBy = [] ∧ cov₀.locMut l.name = none ∧ l.name ∈ done
  kept : ∀ name j, cov₀.locMut name = some j → st.1.locMut name = some j
  ids : st.2.1.map some = done.map st.1.locMut

theorem Found.step {cov₀ : CoverageStore Name} {done : List Name}
    {st : CoverageStore Name × List ℕ × ℕ} (h : Found cov₀ done st) (name : Name) :
    Meets (findLoc st name) (Found cov₀ (done ++ [name])) (fun _ => False) := by
  obtain ⟨cov, plocs, nNew⟩ := st
  obtain ⟨hindexed, hconfigs, ⟨new, hlocs, hnew⟩, hkept, hids⟩ := h
  dsimp only at hindexed hconfigs hlocs hkept hids
  rw [findLoc]
  cases hfind : cov.locMut name with
  | some loc =>
      rw [meets_ok]
      refine ⟨hindexed, hconfigs, ⟨new, hlocs, fun l hl => ?_⟩, hkept, by simp [hids, hfind]⟩
      obtain ⟨hnil, hnone, hmem⟩ := hnew l hl
      exact ⟨hnil, hnone, List.mem_append_left _ hmem⟩
  | none =>
      simp only [registerLoc_eq hfind, ok_bind, meets_ok]
      refine ⟨hindexed.withLoc hfind, hconfigs, ⟨new ++ [{ name, id := some cov.nLocs }], ?_, ?_⟩,
        fun name' j hj => ?_, ?_⟩
      · simp [withLoc, hlocs]
      · intro l hl
        rcases List.mem_append.mp hl with hmem | hmem
        · obtain ⟨hnil, hnone, hdone⟩ := hnew l hmem
          exact ⟨hnil, hnone, List.mem_append_left _ hdone⟩
        · obtain rfl := List.mem_singleton.mp hmem
          refine ⟨rfl, ?_, by simp⟩
          cases hold : cov₀.locMut name with
          | none => rfl
          | some j =>
              rw [hkept name j hold] at hfind
              cases hfind
      · rw [locMut_withLoc, hkept name' j hj, Option.some_or]
      · have hdone : done.map (cov.withLoc name).locMut = done.map cov.locMut := by
          refine List.map_congr_left fun name' hmem => ?_
          -- a name that has been looked up is registered
          obtain ⟨j, -, hj⟩ : ∃ j ∈ plocs, some j = cov.locMut name' := by
            rw [← List.mem_map, hids]
            exact List.mem_map_of_mem hmem
          rw [locMut_withLoc, ← hj, Option.some_or]
        rw [List.map_append, List.map_append, hdone, ← hids, List.map_singleton,
          List.map_singleton, locMut_withLoc, hfind, if_pos rfl, Option.none_or]

/-! ## Linking -/

/-- The state of the linking loop once the locations `done` have been linked with
the configuration `c` at position `cid`. -/
structure Linked (cov₁ : CoverageStore Name) (cid : ℕ) (c : Config) (done : List ℕ)
    (cov : CoverageStore Name) : Prop where
  mapNameLoc : cov.mapNameLoc = cov₁.mapNameLoc
  configs : cov.configs = cov₁.configs.set cid { c with covLocs := done }
  locs : ∀ j : ℕ, cov.locs[j]? = (cov₁.locs[j]?).map fun l =>
    if j ∈ done then { l with covBy := l.covBy ++ [cid] } else l

omit [DecidableEq Name] in
theorem Linked.step {cov₁ cov : CoverageStore Name} {cid : ℕ} {c : Config} {done rest : List ℕ}
    {x : ℕ} (h : Linked cov₁ cid c done cov) (hcid : cid < cov₁.configs.length)
    (hc : c.id = some cid) (hid : ∀ (j : ℕ) (l : Location Name), cov₁.locs[j]? = some l →
      l.id = some j ∧ ∀ i ∈ l.covBy, i < cid)
    (hsorted : (done ++ x :: rest).Pairwise (· < ·)) (hx : x < cov₁.locs.length) :
    Meets (cov.link cid x) (Linked cov₁ cid c (done ++ [x])) (fun _ => False) := by
  have hlt : ∀ j ∈ done, j < x := fun j hj =>
    (List.pairwise_append.mp hsorted).2.2 j hj x (List.mem_cons_self ..)
  have hget₁ := List.getElem?_eq_getElem hx
  obtain ⟨hlid, hlcov⟩ := hid x _ hget₁
  have hnot : x ∉ done := fun hmem => absurd (hlt x hmem) (Nat.lt_irrefl _)
  have hconf : cov.configs[cid]? = some { c with covLocs := done } := by
    rw [h.configs, List.getElem?_set_self hcid]
  have hloc : cov.locs[x]? = some cov₁.locs[x] := by
    rw [h.locs, hget₁, Option.map_some, if_neg hnot]
  have hlen : x < cov.locs.length := (List.getElem?_eq_some_iff.mp hloc).1
  have hcheckC : ∀ j ∈ done.getLast?, j < x := fun j hj =>
    hlt j (List.mem_of_mem_getLast? hj)
  have hcheckL : ∀ i ∈ cov₁.locs[x].covBy.getLast?, i < cid := fun i hi =>
    hlcov i (List.mem_of_mem_getLast? hi)
  rw [link, vecAt_of_getElem? hconf, ok_bind, vecAt_of_getElem? hloc, ok_bind]
  simp only [hc, hlid]
  rw [Config.addCovLocId, check_pos hcheckC, ok_bind, ok_bind, Location.addCovByConfId,
    check_pos hcheckL, ok_bind, ok_bind, meets_ok]
  refine ⟨h.mapNameLoc, ?_, fun j => ?_⟩
  · simp only [h.configs, List.set_set, hc]
  · rw [List.getElem?_set]
    by_cases hj : x = j
    · subst hj
      rw [if_pos rfl, if_pos hlen, hget₁, Option.map_some, if_pos (by simp)]
    · have hj' : ¬ j = x := fun heq => hj heq.symm
      rw [if_neg hj, h.locs]
      simp [hj']

/-! ## `register_cov` -/

/-- Every location a name set leads to is the location of one of its names. -/
theorem Found.mem_ids {cov₀ cov : CoverageStore Name} {names : List Name} {plocs : List ℕ}
    {nNew : ℕ} (h : Found cov₀ names (cov, plocs, nNew)) {j : ℕ} :
    j ∈ plocs ↔ ∃ l, cov.locs[j]? = some l ∧ l.name ∈ names := by
  have hids := h.ids
  have hmem : j ∈ plocs ↔ some j ∈ plocs.map some := by simp
  rw [hmem, hids, List.mem_map]
  constructor
  · rintro ⟨name, hname, hj⟩
    obtain ⟨l, hl, rfl⟩ := (h.indexed.lookup name j).mp hj
    exact ⟨l, hl, hname⟩
  · rintro ⟨l, hl, hname⟩
    exact ⟨l.name, hname, (h.indexed.lookup _ _).mpr ⟨l, hl, rfl⟩⟩

/-- The sorted locations of a set of names are strictly increasing. -/
theorem Found.sorted {cov₀ cov : CoverageStore Name} {names : List Name} {plocs : List ℕ}
    {nNew : ℕ} (h : Found cov₀ names (cov, plocs, nNew)) (hnames : names.Nodup) :
    (plocs.insertionSort (· ≤ ·)).Pairwise (· < ·) := by
  have hnodup : (plocs.map some).Nodup := by
    rw [h.ids]
    refine List.Nodup.map_on (fun a ha b _ hab => ?_) hnames
    -- both names have been looked up
    obtain ⟨j, -, hj⟩ : ∃ j ∈ plocs, some j = cov.locMut a := by
      rw [← List.mem_map, h.ids]
      exact List.mem_map_of_mem ha
    obtain ⟨l, hl, rfl⟩ := (h.indexed.lookup a j).mp hj.symm
    obtain ⟨l', hl', rfl⟩ := (h.indexed.lookup b j).mp (hab.symm.trans hj.symm)
    rw [hl, Option.some.injEq] at hl'
    rw [hl']
  have hsort : (plocs.insertionSort (· ≤ ·)).Nodup :=
    (List.perm_insertionSort _ plocs).nodup_iff.mpr (List.Nodup.of_map _ hnodup)
  exact ((List.pairwise_insertionSort (· ≤ ·) plocs).and hsort).imp fun h =>
    Nat.lt_of_le_of_ne h.1 h.2

omit [DecidableEq Name] in
theorem ensureConfig_eq (cov : CoverageStore Name) {c : Config} (hid : c.id = none) :
    cov.ensureConfig c =
      .ok ({ cov with configs := cov.configs ++ [{ c with id := some cov.nConfigs }] },
        cov.nConfigs) := by
  rw [ensureConfig, hid]
  dsimp only
  rw [registerConfig, Config.setId, check_pos hid, ok_bind, ok_bind, ok_bind]

/-- What a registration does to a store: the configuration is appended with its
id, and every location that has one of the names, new or old, gets the id
appended to its list. -/
structure Registered (cov : CoverageStore Name) (c : Config) (names : List Name)
    (cov' : CoverageStore Name) : Prop where
  indexed : cov'.Indexed
  configs : ∃ covLocs : List ℕ, cov'.configs =
      cov.configs ++ [{ c with id := some cov.nConfigs, covLocs }] ∧ covLocs.Pairwise (· < ·) ∧
    ∀ j, j ∈ covLocs ↔ ∃ l, cov'.locs[j]? = some l ∧ l.name ∈ names
  locs : ∃ new : List (Location Name),
    (∀ l ∈ new, l.covBy = [] ∧ cov.locMut l.name = none ∧ l.name ∈ names) ∧
    ∀ j : ℕ, cov'.locs[j]? = ((cov.locs ++ new)[j]?).map fun l =>
      if l.name ∈ names then { l with covBy := l.covBy ++ [cov.nConfigs] } else l
  known : ∀ name ∈ names, ∃ l ∈ cov'.locs, l.name = name

/-- `register_cov` runs through when every list ends below the new id. -/
theorem registerCov_eq {cov : CoverageStore Name} (h : cov.Indexed)
    (hcovBy : ∀ l ∈ cov.locs, ∀ i ∈ l.covBy, i < cov.nConfigs) {c : Config} (hid : c.id = none)
    (hcov : c.covLocs = []) {names : List Name} (hnames : names.Nodup) :
    ∃ cov' n, cov.registerCov c names = .ok (cov', n) ∧ Registered cov c names cov' := by
  obtain ⟨⟨cov₂, plocs, nNew⟩, hfold, hfound⟩ := (meets_foldlM
    (Found { cov with configs := cov.configs ++ [{ c with id := some cov.nConfigs }] }) names
    (fun _ name _ _ _ hst => hst.step name)
    (s := ({ cov with configs := cov.configs ++ [{ c with id := some cov.nConfigs }] }, [], 0))
    ⟨⟨h.locId, h.lookup⟩, rfl, ⟨[], by simp, by simp⟩, fun _ _ hj => hj, rfl⟩).exists_ok
  obtain ⟨new, hlocs, hnew⟩ := hfound.locs
  have hconfigs := hfound.configs
  dsimp only at hlocs hconfigs
  have hsorted := hfound.sorted hnames
  have hmem : ∀ j, j ∈ plocs.insertionSort (· ≤ ·) ↔
      ∃ l, cov₂.locs[j]? = some l ∧ l.name ∈ names := fun j => by
    rw [List.mem_insertionSort, hfound.mem_ids]
  have hlids : ∀ (j : ℕ) (l : Location Name), cov₂.locs[j]? = some l →
      l.id = some j ∧ ∀ i ∈ l.covBy, i < cov.nConfigs := by
    refine fun j l hl => ⟨hfound.indexed.locId j l hl, fun i hi => ?_⟩
    have hl' := List.mem_of_getElem? hl
    rw [hlocs] at hl'
    rcases List.mem_append.mp hl' with hold | hnew'
    · exact hcovBy l hold i hi
    · rw [(hnew l hnew').1] at hi
      exact absurd hi List.not_mem_nil
  obtain ⟨cov₃, hlink, hlinked⟩ := (meets_foldlM
    (Linked cov₂ cov.nConfigs { c with id := some cov.nConfigs }) (plocs.insertionSort (· ≤ ·))
    (fun done x rest st hsplit hst => hst.step
      (by rw [hconfigs]; simp [nConfigs]) rfl hlids (hsplit ▸ hsorted)
      (by
        obtain ⟨l, hl, -⟩ := (hmem x).mp (by rw [hsplit]; simp)
        exact (List.getElem?_eq_some_iff.mp hl).1))
    (s := cov₂) ⟨rfl, by rw [hconfigs, ← hcov]; simp [nConfigs], fun j => by simp⟩).exists_ok
  have hlocs₃ : ∀ j : ℕ, cov₃.locs[j]? = (cov₂.locs[j]?).map fun l =>
      if l.name ∈ names then { l with covBy := l.covBy ++ [cov.nConfigs] } else l := by
    intro j
    rw [hlinked.locs]
    cases hl : cov₂.locs[j]? with
    | none => rfl
    | some l =>
        have hiff : j ∈ plocs.insertionSort (· ≤ ·) ↔ l.name ∈ names := by
          rw [hmem, hl]
          simp
        simp only [Option.map_some, hiff]
  have hname : ∀ (j : ℕ) (p : Name → Prop), (∃ l, cov₃.locs[j]? = some l ∧ p l.name) ↔
      ∃ l, cov₂.locs[j]? = some l ∧ p l.name := by
    intro j p
    rw [hlocs₃]
    cases cov₂.locs[j]? with
    | none => simp
    | some l => by_cases hl : l.name ∈ names <;> simp [hl]
  refine ⟨cov₃, nNew, ?_, ⟨fun j l hl => ?_, fun name j => ?_⟩, ⟨_, ?_, hsorted, fun j => ?_⟩,
    ⟨new, hnew, ?_⟩, fun name hmemName => ?_⟩
  · rw [registerCov, ensureConfig_eq cov hid, ok_bind]
    simp only [hfold, ok_bind, hlink]
  · rw [hlocs₃] at hl
    obtain ⟨l₂, hl₂, rfl⟩ := Option.map_eq_some_iff.mp hl
    have hid₂ := hfound.indexed.locId j l₂ hl₂
    split <;> exact hid₂
  · rw [locMut, hlinked.mapNameLoc, hname j (· = name)]
    exact hfound.indexed.lookup name j
  · rw [hlinked.configs, hconfigs]
    simp [nConfigs]
  · rw [hname j (· ∈ names), hmem]
  · rw [← hlocs]
    exact hlocs₃
  · obtain ⟨j, -, hj⟩ : ∃ j ∈ plocs, some j = cov₂.locMut name := by
      rw [← List.mem_map, hfound.ids]
      exact List.mem_map_of_mem hmemName
    obtain ⟨l, hl, hlname⟩ := (hname j (· = name)).mpr
      ((hfound.indexed.lookup name j).mp hj.symm)
    exact ⟨l, List.mem_of_getElem? hl, hlname⟩

/-- A location without a name in the store has not been covered. -/
theorem Valid.covering_eq_nil {cov : CoverageStore Name} {hist : List (List Name)}
    (h : cov.Valid hist) {name : Name} (hnone : cov.locMut name = none) :
    covering hist name = [] := by
  refine List.eq_nil_iff_forall_not_mem.mpr fun i hi => ?_
  obtain ⟨names, hget, hmem⟩ := mem_covering.mp hi
  obtain ⟨l, hl, rfl⟩ := h.known names (List.mem_of_getElem? hget) name hmem
  obtain ⟨j, hj⟩ := List.mem_iff_getElem?.mp hl
  rw [(h.lookup l.name j).mpr ⟨l, hj, rfl⟩] at hnone
  cases hnone

/-- The locations after a registration, with their lists. -/
theorem Registered.mem_locs {cov cov' : CoverageStore Name} {hist : List (List Name)} {c : Config}
    {names : List Name} (h : Registered cov c names cov') (hv : cov.Valid hist) {j : ℕ}
    {l : Location Name} (hl : cov'.locs[j]? = some l) :
    l.covBy = covering (hist ++ [names]) l.name ∧
      ((∃ l₀, cov.locs[j]? = some l₀ ∧ l₀.name = l.name) ∨
        cov.nLocs ≤ j ∧ cov.locMut l.name = none) := by
  obtain ⟨new, hnew, hlocs⟩ := h.locs
  rw [hlocs] at hl
  obtain ⟨l₀, hl₀, rfl⟩ := Option.map_eq_some_iff.mp hl
  have hn : cov.nConfigs = hist.length := hv.nConfigs
  -- the list of the location before the registration
  obtain ⟨hcov, hcase⟩ : l₀.covBy = covering hist l₀.name ∧
      (cov.locs[j]? = some l₀ ∨ cov.nLocs ≤ j ∧ cov.locMut l₀.name = none) := by
    rcases Nat.lt_or_ge j cov.locs.length with hj | hj
    · rw [List.getElem?_append_left hj] at hl₀
      exact ⟨hv.covBy l₀ (List.mem_of_getElem? hl₀), .inl hl₀⟩
    · rw [List.getElem?_append_right hj] at hl₀
      obtain ⟨hnil, hnone, -⟩ := hnew l₀ (List.mem_of_getElem? hl₀)
      exact ⟨by rw [hnil, hv.covering_eq_nil hnone], .inr ⟨hj, hnone⟩⟩
  rw [covering_concat]
  split
  · refine ⟨by simp only [hcov, hn], ?_⟩
    exact hcase.imp (fun hold => ⟨l₀, hold, rfl⟩) id
  · refine ⟨by rw [hcov, List.append_nil], ?_⟩
    exact hcase.imp (fun hold => ⟨l₀, hold, rfl⟩) id

/-- New locations are covered by the new configuration. -/
theorem Registered.discovered {cov cov' : CoverageStore Name} {hist : List (List Name)}
    {c : Config} {names : List Name} (h : Registered cov c names cov') (hv : cov.Valid hist)
    {l : Location Name} (hl : l ∈ cov'.locs) : l.covBy ≠ [] := by
  obtain ⟨new, hnew, hlocs⟩ := h.locs
  obtain ⟨j, hj⟩ := List.mem_iff_getElem?.mp hl
  rw [hlocs] at hj
  obtain ⟨l₀, hl₀, rfl⟩ := Option.map_eq_some_iff.mp hj
  split
  · simp
  · next hname =>
      rcases List.mem_append.mp (List.mem_of_getElem? hl₀) with hold | hmem
      · exact hv.discovered l₀ hold
      · exact absurd (hnew l₀ hmem).2.2 hname

/-- A location stays where it is, and is still covered by what has covered it. -/
theorem Registered.keeps_loc {cov cov' : CoverageStore Name} {c : Config} {names : List Name}
    (h : Registered cov c names cov') {j : ℕ} {l : Location Name} (hl : cov.locs[j]? = some l) :
    ∃ l', cov'.locs[j]? = some l' ∧ l'.name = l.name ∧ ∀ i ∈ l.covBy, i ∈ l'.covBy := by
  obtain ⟨new, -, hlocs⟩ := h.locs
  have hj := hlocs j
  rw [List.getElem?_append_left (List.getElem?_eq_some_iff.mp hl).1, hl, Option.map_some] at hj
  refine ⟨_, hj, ?_, fun i hi => ?_⟩
  · split <;> rfl
  · split
    · exact List.mem_append_left _ hi
    · exact hi

/-- The configurations after a registration. -/
theorem Registered.getElem?_configs {cov cov' : CoverageStore Name} {c : Config}
    {names : List Name} (h : Registered cov c names cov') {i : ℕ} {c' : Config}
    (hc' : cov'.configs[i]? = some c') : cov.configs[i]? = some c' ∨ i = cov.nConfigs ∧
      c'.id = some cov.nConfigs ∧ ∀ j, j ∈ c'.covLocs ↔
        ∃ l, cov'.locs[j]? = some l ∧ l.name ∈ names := by
  obtain ⟨covLocs, hconfigs, -, hmem⟩ := h.configs
  rw [hconfigs, getElem?_concat_eq_some] at hc'
  refine hc'.imp_right ?_
  rintro ⟨hi, rfl⟩
  exact ⟨hi, rfl, hmem⟩

/-- What an old configuration has covered does not change. -/
theorem Registered.covered_iff {cov cov' : CoverageStore Name} {hist : List (List Name)}
    {c : Config} {names : List Name} (h : Registered cov c names cov') (hv : cov.Valid hist)
    {i : ℕ} (hi : i < hist.length) (j : ℕ) :
    (∃ l, cov.locs[j]? = some l ∧ i ∈ l.covBy) ↔ ∃ l, cov'.locs[j]? = some l ∧ i ∈ l.covBy := by
  constructor
  · rintro ⟨l, hl, hil⟩
    obtain ⟨l', hl', -, hkeep⟩ := h.keeps_loc hl
    exact ⟨l', hl', hkeep i hil⟩
  · rintro ⟨l, hl, hil⟩
    obtain ⟨hcov, hcase⟩ := h.mem_locs hv hl
    have hil' : i ∈ covering hist l.name := by
      rw [hcov, mem_covering] at hil
      obtain ⟨ns, hns, hname⟩ := hil
      rw [List.getElem?_append_left hi] at hns
      exact mem_covering.mpr ⟨ns, hns, hname⟩
    rcases hcase with ⟨l₀, hl₀, hname⟩ | ⟨-, hnone⟩
    · refine ⟨l₀, hl₀, ?_⟩
      rwa [hv.covBy l₀ (List.mem_of_getElem? hl₀), hname]
    · rw [hv.covering_eq_nil hnone] at hil'
      exact absurd hil' List.not_mem_nil

/-- **A registration extends the history** by its set of names. -/
theorem Registered.valid {cov cov' : CoverageStore Name} {hist : List (List Name)} {c : Config}
    {names : List Name} (h : Registered cov c names cov') (hv : cov.Valid hist) :
    cov'.Valid (hist ++ [names]) := by
  obtain ⟨covLocs, hconfigs, hsorted, -⟩ := h.configs
  have hn : cov.nConfigs = hist.length := hv.nConfigs
  refine ⟨h.indexed, ?_, fun i c' hc' => ?_, fun ns hns name hname => ?_,
    fun l hl => h.discovered hv hl, fun l hl => ?_, fun c' hc' => ?_, fun i c' hc' j => ?_⟩
  · rw [hconfigs, List.length_append, List.length_append, List.length_singleton,
      List.length_singleton]
    exact congrArg (· + 1) hn
  · rcases h.getElem?_configs hc' with hold | ⟨rfl, hid, -⟩
    · exact hv.confId i c' hold
    · exact hid
  · rcases List.mem_append.mp hns with hold | hnew
    · obtain ⟨l, hl, rfl⟩ := hv.known ns hold name hname
      obtain ⟨j, hj⟩ := List.mem_iff_getElem?.mp hl
      obtain ⟨l', hl', hname', -⟩ := h.keeps_loc hj
      exact ⟨l', List.mem_of_getElem? hl', hname'⟩
    · obtain rfl := List.mem_singleton.mp hnew
      exact h.known name hname
  · obtain ⟨j, hj⟩ := List.mem_iff_getElem?.mp hl
    exact (h.mem_locs hv hj).1
  · rw [hconfigs] at hc'
    rcases List.mem_append.mp hc' with hold | hnew
    · exact hv.covLocs_sorted c' hold
    · obtain rfl := List.mem_singleton.mp hnew
      exact hsorted
  · rcases h.getElem?_configs hc' with hold | ⟨rfl, -, hmem⟩
    · have hi : i < hist.length := by
        rw [← hn]
        exact (List.getElem?_eq_some_iff.mp hold).1
      rw [hv.mem_covLocs i c' hold j]
      exact h.covered_iff hv hi j
    · rw [hmem]
      refine exists_congr fun l => and_congr_right fun hl => ?_
      rw [(h.mem_locs hv hl).1, mem_covering, hn]
      simp

/-- **One registration.**  A fresh configuration and a set of names extend the
history by one entry; no `CHECK` fires. -/
theorem Valid.registerCov {cov : CoverageStore Name} {hist : List (List Name)}
    (h : cov.Valid hist) {c : Config} (hid : c.id = none) (hcov : c.covLocs = [])
    {names : List Name} (hnames : names.Nodup) :
    ∃ cov' n, cov.registerCov c names = .ok (cov', n) ∧ Registered cov c names cov' ∧
      cov'.Valid (hist ++ [names]) := by
  obtain ⟨cov', n, hrun, hreg⟩ := registerCov_eq h.toIndexed (fun l hl i hi => by
    rw [h.covBy l hl] at hi
    exact Nat.lt_of_lt_of_eq (covering_lt hi) h.nConfigs.symm) hid hcov hnames
  exact ⟨cov', n, hrun, hreg, hreg.valid h⟩

/-! ## Runs -/

/-- A sequence of registrations. -/
def registerAll (cov : CoverageStore Name) (calls : List (Config × List Name)) :
    Except Abort (CoverageStore Name) :=
  calls.foldlM (fun cov p => do
    let (cov, _) ← cov.registerCov p.1 p.2
    .ok cov) cov

/-- A registration passes a fresh configuration and a set of names. -/
def FreshCall (p : Config × List Name) : Prop :=
  p.1.id = none ∧ p.1.covLocs = [] ∧ p.2.Nodup

/-- After any sequence of registrations the store is valid for the sets of names
that were passed, and the configurations are those that were passed. -/
theorem registerAll_spec {calls : List (Config × List Name)} (h : ∀ p ∈ calls, FreshCall p) :
    ∃ cov, registerAll {} calls = .ok cov ∧ cov.Valid (calls.map Prod.snd) ∧
      cov.configs.map Config.values = calls.map fun p => p.1.values := by
  have hmeets : Meets (registerAll {} calls)
      (fun cov => cov.Valid (calls.map Prod.snd) ∧
        cov.configs.map Config.values = calls.map fun p => p.1.values) (fun _ => False) := by
    refine meets_foldlM (fun done (cov : CoverageStore Name) => cov.Valid (done.map Prod.snd) ∧
      cov.configs.map Config.values = done.map fun p => p.1.values) calls ?_ ⟨valid_empty, rfl⟩
    rintro done ⟨c, names⟩ rest cov hsplit ⟨hv, hvalues⟩
    obtain ⟨hid, hcov, hnames⟩ := h (c, names) (by rw [hsplit]; simp)
    obtain ⟨cov', n, hrun, hreg, hv'⟩ := hv.registerCov hid hcov hnames
    obtain ⟨covLocs, hconfigs, -⟩ := hreg.configs
    simp only [hrun, ok_bind, meets_ok]
    refine ⟨by simpa using hv', ?_⟩
    rw [hconfigs, List.map_append, hvalues]
    simp
  exact hmeets.exists_ok

/-! ## `prepare_data` -/

/-- The forward scan against the sorted ids of the covering configurations. -/
theorem scanConfigs_eq {cs : List Config} {k : ℕ}
    (hid : ∀ (i : ℕ) (c : Config), cs[i]? = some c → c.id = some (k + i)) {its : List ℕ}
    (hsorted : its.Pairwise (· < ·)) (hge : ∀ i ∈ its, k ≤ i) (vecs : Vecs) :
    scanConfigs cs its vecs =
      ⟨vecs.miss ++ cs.filter (fun c => !its.any (c.id = some ·)),
        vecs.hit ++ cs.filter (fun c => its.any (c.id = some ·))⟩ := by
  induction cs generalizing k its vecs with
  | nil => simp [scanConfigs]
  | cons c cs ih =>
      have hc : c.id = some k := by simpa using hid 0 c rfl
      have hcs : ∀ (i : ℕ) (c' : Config), cs[i]? = some c' → c'.id = some (k + 1 + i) := by
        intro i c' hc'
        rw [hid (i + 1) c' (by simpa using hc')]
        exact congrArg some (by omega)
      cases its with
      | nil =>
          rw [scanConfigs, ih hcs List.Pairwise.nil (by simp)]
          simp
      | cons it its =>
          obtain ⟨hlt, hits⟩ := List.pairwise_cons.mp hsorted
          rw [scanConfigs]
          by_cases hit : c.id = some it
          · obtain rfl : k = it := by
              rw [hc, Option.some.injEq] at hit
              exact hit
            -- the ids behind `c` are not the one that has been matched
            have hne : ∀ c' ∈ cs, (decide (c'.id = some k)) = false := by
              intro c' hc'
              obtain ⟨i, hi⟩ := List.mem_iff_getElem?.mp hc'
              rw [hcs i c' hi]
              simp
              omega
            rw [if_pos hit, ih hcs hits fun i hi => hlt i hi]
            have hmiss : cs.filter (fun c' => !(k :: its).any (c'.id = some ·)) =
                cs.filter (fun c' => !its.any (c'.id = some ·)) :=
              List.filter_congr fun c' hc' => by simp [hne c' hc']
            have hhit : cs.filter (fun c' => (k :: its).any (c'.id = some ·)) =
                cs.filter (fun c' => its.any (c'.id = some ·)) :=
              List.filter_congr fun c' hc' => by simp [hne c' hc']
            rw [List.filter_cons, List.filter_cons, hmiss, hhit]
            simp [hit]
          · have hgt : ∀ i ∈ it :: its, k + 1 ≤ i := by
              intro i hi
              have hki := hge i hi
              rcases Nat.lt_or_ge k i with h | h
              · exact h
              · obtain rfl : i = k := by omega
                rcases List.mem_cons.mp hi with rfl | hmem
                · exact absurd hc hit
                · have := hlt _ hmem
                  have := hge it (List.mem_cons_self ..)
                  omega
            have hnot : (it :: its).any (c.id = some ·) = false := by
              rw [List.any_eq_false]
              intro i hi
              have := hgt i hi
              rw [hc]
              simp
              omega
            rw [if_neg hit, ih hcs hsorted hgt, List.filter_cons, List.filter_cons, hnot]
            simp

/-- The configurations of the store, split by whether they cover location `j`,
each side in id order. -/
def samples (cov : CoverageStore Name) (j : ℕ) : Vecs where
  miss := cov.configs.filter fun c => !decide (j ∈ c.covLocs)
  hit := cov.configs.filter fun c => decide (j ∈ c.covLocs)

/-- **`prepare_data`** on a valid store: the hits are the configurations that
cover the location and the misses are all others, each in id order. -/
theorem Valid.prepareData {cov : CoverageStore Name} {hist : List (List Name)}
    (h : cov.Valid hist) (dom : Domain) {j : ℕ} {loc : Location Name}
    (hloc : cov.locs[j]? = some loc) :
    CTree.prepareData dom cov {} loc = .ok { ({} : CTree) with
      configs := cov.samples j
      defaultHit := decide ((cov.samples j).miss.length < (cov.samples j).hit.length)
      params := splitParams dom cov.configs.length } := by
  have hid := h.locId j loc hloc
  have hcovBy := h.covBy loc (List.mem_of_getElem? hloc)
  have hiff : ∀ c ∈ cov.configs, loc.covBy.any (c.id = some ·) = decide (j ∈ c.covLocs) := by
    intro c hc
    obtain ⟨i, hi⟩ := List.mem_iff_getElem?.mp hc
    rw [Bool.eq_iff_iff, List.any_eq_true, decide_eq_true_eq, h.mem_covLocs i c hi, h.confId i c hi]
    simp [hloc]
  have hscan : scanConfigs cov.configs loc.covBy ⟨[], []⟩ = cov.samples j := by
    rw [scanConfigs_eq (k := 0) (by simpa using h.confId)
      (by rw [hcovBy]; exact covering_sorted hist loc.name) (by simp), samples,
      List.nil_append, List.nil_append, List.filter_congr fun c hc => hiff c hc,
      List.filter_congr fun c hc => congrArg not (hiff c hc)]
  have hcheck : loc.id ≠ none := by rw [hid]; simp
  have hroot : ({} : CTree).root.isNone = true := rfl
  rw [CTree.prepareData, check_pos hcheck, ok_bind, check_pos hroot, ok_bind]
  simp only [hscan]

/-- A store is **consistent** with the registrations it has seen. -/
structure Consistent (calls : List (Config × List Name)) (cov : CoverageStore Name) : Prop where
  /-- Every registration has added its configuration. -/
  values : cov.configs.map Config.values = calls.map fun p => p.1.values
  /-- Configuration ids are positions. -/
  confId : ∀ (i : ℕ) (c : Config), cov.configs[i]? = some c → c.id = some i
  /-- Location ids are positions. -/
  locId : ∀ (j : ℕ) (l : Location Name), cov.locs[j]? = some l → l.id = some j
  /-- A name is mapped to the one location that has it. -/
  lookup : ∀ (name : Name) (j : ℕ),
    cov.locMut name = some j ↔ ∃ l, cov.locs[j]? = some l ∧ l.name = name
  /-- Every name passed has a location. -/
  known : ∀ p ∈ calls, ∀ name ∈ p.2, ∃ j, cov.locMut name = some j
  covLocs_sorted : ∀ c ∈ cov.configs, c.covLocs.Pairwise (· < ·)
  covBy_sorted : ∀ l ∈ cov.locs, l.covBy.Pairwise (· < ·)
  /-- The two lists mirror each other and the names passed. -/
  mirror : ∀ (i : ℕ) (c : Config) (p : Config × List Name), cov.configs[i]? = some c →
    calls[i]? = some p → ∀ (j : ℕ) (l : Location Name), cov.locs[j]? = some l →
      (j ∈ c.covLocs ↔ l.name ∈ p.2) ∧ (i ∈ l.covBy ↔ l.name ∈ p.2)
  /-- `prepare_data` splits the configurations, each side in id order. -/
  prepared : ∀ (dom : Domain) (j : ℕ) (l : Location Name), cov.locs[j]? = some l →
    ∃ tree, CTree.prepareData dom cov {} l = .ok tree ∧
      tree.configs.hit = cov.configs.filter (fun c => decide (j ∈ c.covLocs)) ∧
      tree.configs.miss = cov.configs.filter (fun c => !decide (j ∈ c.covLocs))

/-- **The coverage store is consistent.**  After any sequence of registrations of
fresh configurations with sets of names no `CHECK` has fired, and the store is
consistent with them. -/
theorem registerAll_consistent {calls : List (Config × List Name)}
    (h : ∀ p ∈ calls, FreshCall p) :
    ∃ cov, registerAll {} calls = .ok cov ∧ cov.Consistent calls := by
  obtain ⟨cov, hrun, hv, hvalues⟩ := registerAll_spec h
  refine ⟨cov, hrun, hvalues, hv.confId, hv.locId, hv.lookup, fun p hp name hname => ?_,
    hv.covLocs_sorted, fun l hl => ?_, fun i c p hc hp j l hl => ?_,
    fun dom j l hl => ⟨_, hv.prepareData dom hl, rfl, rfl⟩⟩
  · obtain ⟨l, hl, hlname⟩ := hv.known p.2 (List.mem_map_of_mem hp) name hname
    obtain ⟨j, hj⟩ := List.mem_iff_getElem?.mp hl
    exact ⟨j, (hv.lookup name j).mpr ⟨l, hj, hlname⟩⟩
  · rw [hv.covBy l hl]
    exact covering_sorted _ _
  · have hcov : i ∈ l.covBy ↔ l.name ∈ p.2 := by
      rw [hv.covBy l (List.mem_of_getElem? hl), mem_covering]
      simp [hp]
    refine ⟨?_, hcov⟩
    rw [hv.mem_covLocs i c hc j, hl]
    simpa using hcov

/-- Two configurations; the second one covers an old and a new name. -/
theorem registerAll_consistent_two :
    let calls : List (Config × List String) :=
      [({ values := [0] }, ["a", "b"]), ({ values := [1] }, ["c", "a"])]
    ∃ cov, registerAll {} calls = .ok cov ∧ cov.Consistent calls :=
  registerAll_consistent (by simp [FreshCall])

end CoverageStore

end GenTree

import GenTree.InitialConfigs
import GenTree.Exhaustive

/-!
# Values stored as `short`

A value index is computed as `int` and checked as `int`, and narrowed to `short` in three
places: by the cast in `Config::set`, by the cast in the recursion of `gen_all_configs`,
and at the end of the counting iterator that fills a pool of `gen_one_convering_configs`.
`Domain::parse` puts no bound on the number of labels of an option.

`Domain.StoresValues` says of a domain that the narrowing is never seen: what is set is read
back, and both generators end with configurations that hold the value indices they have
chosen.  The first index that a `short` cannot hold is 32768, so `set` and the recursion are
right up to 32768 labels.  The end of a pool is one more than its last index, so the pools
are right up to 32767 labels only.
-/

namespace GenTree

open Outcome

theorem toShort_lt (x : ℤ) : toShort x < 32768 := by
  unfold toShort
  exact Int.bmod_lt (by decide)

/-- The template that leaves every option open. -/
def Config.openTempl (dom : Domain) : Config := { values := List.replicate dom.nVars (-1) }

namespace Domain

/-- `set` **stores** each value index of each option: the option reads it back, and the
other options read what they read before. -/
def SetStores (dom : Domain) : Prop :=
  ∀ (c : Config) (var value : ℕ), c.values.length = dom.nVars → value < dom.nValues var →
    ∃ c', c.set dom var value = .ok c' ∧ c'.get var = .ok (value : ℤ) ∧
      ∀ var' ≠ var, c'.get var' = c.get var'

/-- A run of `gen_all_configs` for a template **stores** what it chooses: it ends with
complete configurations that match the template, and each choice of value indices that
matches the template is read back from one of them. -/
def AllStored (dom : Domain) (templ : Config) (run : Except Abort (List Config)) : Prop :=
  ∃ cs, run = .ok cs ∧ (∀ c ∈ cs, c.Complete dom ∧ templ.Matches dom c) ∧
    ∀ c : Config, c.Complete dom → templ.Matches dom c →
      ∃ c' ∈ cs, ∀ var < dom.nVars, c'.get var = .ok (c.val var : ℤ)

/-- A run of `gen_one_convering_configs` for a template **stores** what it chooses: it ends
with complete configurations that match the template, and each value index in the pool of an
open option is read back from one of them, unless the limit stops the run before. -/
def CoveringStored (dom : Domain) (templ : Config) (lim : ℤ)
    (run : Except Abort (List Config × ℕ)) : Prop :=
  ∃ cs rng', run = .ok (cs, rng') ∧ (∀ c ∈ cs, c.Complete dom ∧ templ.Matches dom c) ∧
    ∀ var, templ.values[var]? = some (-1) → (dom.nValues var : ℤ) ≤ lim →
      ∀ v < dom.nValues var, ∃ c ∈ cs, c.get var = .ok (v : ℤ)

/-- The domain **stores its values**: in `set`, and in both generators with and without a
template, for all random numbers and limits. -/
structure StoresValues (dom : Domain) : Prop where
  set : dom.SetStores
  genAll : dom.AllStored (.openTempl dom) (genAllConfigs dom)
  genAllOf : ∀ templ : Config, templ.Template dom → dom.AllStored templ (genAllConfigsOf dom templ)
  genOneConvering : ∀ draws rng,
    dom.CoveringStored (.openTempl dom) intMax (genOneConveringConfigs dom draws rng)
  genOneConveringOf : ∀ (templ : Config) draws lim rng, templ.Template dom →
    dom.CoveringStored templ lim (genOneConveringConfigsOf dom draws templ lim rng)

end Domain

section Store

variable {dom : Domain}

/-! ## The open template -/

theorem getElem?_openTempl {var : ℕ} (hvar : var < dom.nVars) :
    (Config.openTempl dom).values[var]? = some (-1) := by
  rw [Config.openTempl, List.getElem?_replicate, if_pos hvar]

theorem template_openTempl : (Config.openTempl dom).Template dom := by
  refine ⟨List.length_replicate .., fun var t ht => .inl ?_⟩
  exact List.eq_of_mem_replicate (List.mem_of_getElem? ht)

theorem matches_openTempl (c : Config) : (Config.openTempl dom).Matches dom c :=
  fun _ hvar => .inl (getElem?_openTempl hvar)

theorem genAllConfigs_open : genAllConfigs dom = genAllConfigsOf dom (.openTempl dom) := by
  rw [genAllConfigs, fill_open, ok_bind]
  rfl

theorem genOneConveringConfigs_open (draws : ℕ → ℕ) (rng : ℕ) :
    genOneConveringConfigs dom draws rng =
      genOneConveringConfigsOf dom draws (.openTempl dom) intMax rng := by
  rw [genOneConveringConfigs, fill_open, ok_bind]
  rfl

/-! ## Up to the bound -/

/-- `set` up to 32768 labels. -/
theorem setStores_of_le (hrange : ∀ v ∈ dom.vars, v.nValues ≤ 32768) : dom.SetStores := by
  intro c var value hlen hvalue
  have hvar := dom.lt_nVars_of_nValues_pos (Nat.zero_lt_of_lt hvalue)
  have hlt : var < c.values.length := by rwa [hlen]
  have hle := hrange _ (List.getElem_mem hvar)
  rw [← Domain.nValues_of_getElem? (List.getElem?_eq_getElem hvar)] at hle
  refine ⟨_, Config.set_eq hlt hvalue (hvalue.trans_le hle), ?_, fun var' hne => ?_⟩
  · apply vecAt_of_getElem?
    rw [List.getElem?_set_self hlt]
  · show vecAt (c.values.set var value) var' = vecAt c.values var'
    unfold vecAt
    rw [List.getElem?_set_ne hne.symm]

/-- The recursion up to 32768 labels. -/
theorem allStored_of_le (hrange : ∀ v ∈ dom.vars, v.nValues ≤ 32768) {templ : Config}
    (htempl : templ.Template dom) : dom.AllStored templ (genAllConfigsOf dom templ) := by
  have hfits := fits_of_template htempl
  refine ⟨_, genAllConfigsOf_eq hrange hfits, fun c hc => ?_, fun c hc hmatches => ?_⟩
  · obtain ⟨values, hvalues, rfl⟩ := List.mem_map.mp hc
    obtain ⟨hhas, hagree⟩ := (mem_templValues hfits).mp hvalues
    have hcomplete : ({ values } : Config).Complete dom :=
      complete_iff_mem_allValues.mpr (mem_allValues.mpr hhas)
    exact ⟨hcomplete, (agrees_iff_matches htempl hcomplete.1).mp hagree⟩
  · refine ⟨{ values := c.values }, List.mem_map.mpr ⟨c.values, ?_, rfl⟩, fun var hvar => ?_⟩
    · apply (mem_templValues hfits).mpr
      exact ⟨mem_allValues.mp (complete_iff_mem_allValues.mp hc),
        (agrees_iff_matches htempl hc.1).mpr hmatches⟩
    · exact hc.get_eq_ok hvar

/-- A template without an open option: the loop has nothing to do. -/
theorem genOneConveringConfigsOf_fixed (hrange : ∀ v ∈ dom.vars, v.nValues ≤ 32767) {templ : Config}
    (htempl : templ.Template dom) (hfixed : ∀ var : ℕ, templ.values[var]? ≠ some (-1))
    (draws : ℕ → ℕ) (lim : ℤ) (rng : ℕ) :
    genOneConveringConfigsOf dom draws templ lim rng = .ok ([], rng) := by
  have hdone := (drawn_nil htempl).toPooled.finished_lt_iff htempl
  rw [genOneConveringConfigsOf, shortPools_eq hrange htempl, ok_bind]
  show coverLoop dom draws templ lim (lim.toNat + 1) _ _ rng [] = _
  rw [coverLoop, if_neg]
  rintro ⟨hlt, -⟩
  obtain ⟨var, hopen, -⟩ := hdone.mp hlt
  exact hfixed var hopen

/-- The largest of the open options. -/
theorem exists_isGreatest {templ : Config} (htempl : templ.Template dom) {var₀ : ℕ}
    (hopen : templ.values[var₀]? = some (-1)) :
    ∃ m, IsGreatest {n | ∃ var, templ.values[var]? = some (-1) ∧ n = dom.nValues var} m := by
  have hmem : ∀ var : ℕ, templ.values[var]? = some (-1) →
      var ∈ (Finset.range dom.nVars).filter fun var => templ.values[var]? = some (-1) := by
    intro var hvar
    apply Finset.mem_filter.mpr ⟨Finset.mem_range.mpr ?_, hvar⟩
    rw [← htempl.1]
    exact (List.getElem?_eq_some_iff.mp hvar).1
  obtain ⟨big, hbig, hmax⟩ := Finset.exists_max_image _ dom.nValues ⟨var₀, hmem var₀ hopen⟩
  refine ⟨dom.nValues big, ⟨big, (Finset.mem_filter.mp hbig).2, rfl⟩, ?_⟩
  rintro n ⟨var, hvar, rfl⟩
  exact hmax var (hmem var hvar)

/-- The loop over the pools up to 32767 labels. -/
theorem coveringStored_of_le (hrange : ∀ v ∈ dom.vars, v.nValues ≤ 32767) {templ : Config}
    (htempl : templ.Template dom) (draws : ℕ → ℕ) (lim : ℤ) (rng : ℕ) :
    dom.CoveringStored templ lim (genOneConveringConfigsOf dom draws templ lim rng) := by
  by_cases hfixed : ∀ var : ℕ, templ.values[var]? ≠ some (-1)
  · refine ⟨[], rng, genOneConveringConfigsOf_fixed hrange htempl hfixed draws lim rng, by simp, ?_⟩
    intro var hopen
    exact absurd hopen (hfixed var)
  · push Not at hfixed
    obtain ⟨var₀, hvar₀⟩ := hfixed
    obtain ⟨m, hm⟩ := exists_isGreatest htempl hvar₀
    rcases Int.lt_or_le lim 0 with hneg | hnonneg
    · -- no pass is made below a negative limit
      refine ⟨[], rng, ?_, by simp, fun var _ hle => by omega⟩
      rw [genOneConveringConfigsOf, shortPools_eq hrange htempl, ok_bind]
      show coverLoop dom draws templ lim (lim.toNat + 1) _ _ rng [] = _
      rw [coverLoop, if_neg]
      rintro ⟨-, hlt⟩
      rw [List.length_nil] at hlt
      omega
    · obtain ⟨k, rfl⟩ := Int.eq_ofNat_of_zero_le hnonneg
      obtain ⟨cs, rng', pools, nFinished, hrun, hlen, hdrawn⟩ :=
        genOneConveringConfigsOf_eq hrange htempl hm draws k rng
      refine ⟨cs, rng', hrun, hdrawn.complete, fun var hopen hle v hv => ?_⟩
      have hmax := hm.2 ⟨var, hopen, rfl⟩
      have henough : dom.nValues var ≤ cs.length := by
        rw [hlen]
        exact le_min (by exact_mod_cast hle) hmax
      obtain ⟨c, hc, rfl⟩ := hdrawn.exists_value htempl hopen henough hv
      have hvar := dom.lt_nVars_of_nValues_pos (Nat.zero_lt_of_lt hv)
      exact ⟨c, hc, (hdrawn.complete c hc).1.get_eq_ok hvar⟩

/-! ## Beyond the bound -/

/-- `set` leaves the option with a `short`. -/
theorem not_setStores {var : ℕ} (hwide : 32768 < dom.nValues var) : ¬ dom.SetStores := by
  intro h
  have hvar := dom.lt_nVars_of_nValues_pos (Nat.zero_lt_of_lt hwide)
  have hlen : (Config.new dom).values.length = dom.nVars := List.length_replicate
  obtain ⟨c', hset, hget, -⟩ := h (.new dom) var 32768 hlen hwide
  obtain ⟨-, hlt, rfl⟩ := Config.set_eq_ok.mp hset
  have hread := vecAt_of_getElem? (List.getElem?_set_self (a := toShort (32768 : ℕ)) hlt)
  have hstored := Except.ok.inj (hread.symm.trans hget)
  have := toShort_lt (32768 : ℕ)
  omega

/-- All values of a configuration are those of a `short`. -/
theorem setFrom_lt {c c' : Config} {var : ℕ} {values : List ℤ} (hc : ∀ x ∈ c.values, x < 32768)
    (h : Config.setFrom dom c var values = .ok c') : ∀ x ∈ c'.values, x < 32768 := by
  induction values generalizing c var with
  | nil =>
      obtain rfl := Except.ok.inj h
      exact hc
  | cons v vs ih =>
      obtain ⟨c₁, hset, hrest⟩ := bind_eq_ok.mp h
      obtain ⟨-, -, rfl⟩ := Config.set_eq_ok.mp hset
      refine ih (fun x hx => ?_) hrest
      rcases List.mem_or_eq_of_mem_set hx with hx | rfl
      · exact hc x hx
      · exact toShort_lt v

theorem ofValues_lt {c : Config} {values : List ℤ} (h : Config.ofValues dom values = .ok c) :
    ∀ x ∈ c.values, x < 32768 := by
  obtain ⟨-, -, h⟩ := bind_eq_ok.mp h
  refine setFrom_lt (fun x hx => ?_) h
  rw [List.eq_of_mem_replicate hx]
  decide

/-- The recursion of `gen_all_configs` collects such configurations. -/
theorem genAllFrom_lt {templ : Config} {vs : List VarDomain} {var : ℕ} {st : List ℤ × List Config}
    (hst : ∀ c ∈ st.2, ∀ x ∈ c.values, x < 32768) :
    Meets (genAllFrom dom templ vs var st) (fun st' => ∀ c ∈ st'.2, ∀ x ∈ c.values, x < 32768)
      fun _ => True := by
  induction vs generalizing var st with
  | nil =>
      rw [genAllFrom]
      refine meets_bind_of_eq (fun _ _ => trivial) fun c hc => ?_
      intro c' hc'
      rcases List.mem_append.mp hc' with hc' | hc'
      · exact hst c' hc'
      · rw [List.mem_singleton.mp hc']
        exact ofValues_lt hc
  | cons v vs ih =>
      rw [genAllFrom]
      refine meets_bind_of_eq (fun _ _ => trivial) fun t _ => ?_
      split
      · exact ih hst
      · apply meets_foldlM_const (fun st' : List ℤ × List Config =>
          ∀ c ∈ st'.2, ∀ x ∈ c.values, x < 32768)
        · intro i _ st' hst'
          exact ih hst'
        · exact hst

/-- The recursion misses the index 32768. -/
theorem not_allStored {var : ℕ} (hwide : 32768 < dom.nValues var) :
    ¬ dom.AllStored (.openTempl dom) (genAllConfigsOf dom (.openTempl dom)) := by
  rintro ⟨cs, hrun, -, hall⟩
  have hvar := dom.lt_nVars_of_nValues_pos (Nat.zero_lt_of_lt hwide)
  let c : Config := { values := (List.replicate dom.nVars 0).set var 32768 }
  have hlen : c.values.length = dom.nVars := by simp [c]
  have hself : c.values[var]? = some 32768 := by
    rw [List.getElem?_set_self (by simpa using hvar)]
  have hcomplete : c.Complete dom := by
    refine ⟨hlen, fun var' x hx => ?_⟩
    by_cases heq : var' = var
    · subst heq
      rw [hself, Option.some.injEq] at hx
      omega
    · rw [List.getElem?_set_ne (Ne.symm heq)] at hx
      rw [List.eq_of_mem_replicate (List.mem_of_getElem? hx)]
      have hlt : var' < dom.nVars := by simpa using (List.getElem?_eq_some_iff.mp hx).1
      exact ⟨le_refl 0, by exact_mod_cast dom.nValues_pos hlt⟩
  obtain ⟨c', hc', hread⟩ := hall c hcomplete (matches_openTempl c)
  have hval : c.val var = 32768 := by
    rw [Config.val, hself]
    rfl
  have hmem := List.mem_of_getElem? (vecAt_eq_ok.mp (hread var hvar))
  rw [hval] at hmem
  obtain ⟨st, hloop, hst⟩ := bind_eq_ok.mp hrun
  obtain rfl := Except.ok.inj hst
  have hshort := (genAllFrom_lt (by simp)).of_eq_ok hloop c' hc' _ hmem
  omega

/-- The pool of an option with 32768 labels, or up to 65535, has a negative length. -/
theorem not_coveringStored {var : ℕ} (hlo : 32767 < dom.nValues var) (hhi : dom.nValues var < 65536)
    {templ : Config} (hopen : ∀ var < dom.nVars, templ.values[var]? = some (-1)) (draws : ℕ → ℕ)
    (lim : ℤ) (rng : ℕ) :
    ¬ dom.CoveringStored templ lim (genOneConveringConfigsOf dom draws templ lim rng) := by
  rintro ⟨cs, rng', hrun, -, -⟩
  obtain ⟨p, hpools, -⟩ := bind_eq_ok.mp hrun
  have hvar := dom.lt_nVars_of_nValues_pos (Nat.zero_lt_of_lt hlo)
  have hshort := (shortPools_range hopen).of_eq_ok hpools var hvar
  exact absurd (toShort_neg hlo hhi) (Int.not_lt.mpr hshort)

/-! ## The bound -/

/-- A bound on the labels of all options, option by option. -/
theorem forall_nValues_le {n : ℕ} :
    (∀ v ∈ dom.vars, v.nValues ≤ n) ↔ ∀ var, dom.nValues var ≤ n := by
  constructor
  · intro h var
    rcases Nat.lt_or_ge var dom.vars.length with hlt | hge
    · rw [Domain.nValues_of_getElem? (List.getElem?_eq_getElem hlt)]
      exact h _ (List.getElem_mem hlt)
    · rw [Domain.nValues, List.getElem?_eq_none hge]
      exact Nat.zero_le n
  · intro h v hv
    obtain ⟨var, hvar⟩ := List.mem_iff_getElem?.mp hv
    rw [← Domain.nValues_of_getElem? hvar]
    exact h var

theorem setStores_iff : dom.SetStores ↔ ∀ v ∈ dom.vars, v.nValues ≤ 32768 := by
  refine ⟨fun h => forall_nValues_le.mpr fun var => ?_, setStores_of_le⟩
  by_contra hwide
  exact not_setStores (Nat.lt_of_not_le hwide) h

theorem allStored_iff :
    (∀ templ : Config, templ.Template dom → dom.AllStored templ (genAllConfigsOf dom templ)) ↔
      ∀ v ∈ dom.vars, v.nValues ≤ 32768 := by
  refine ⟨fun h => forall_nValues_le.mpr fun var => ?_, fun h templ => allStored_of_le h⟩
  by_contra hwide
  exact not_allStored (Nat.lt_of_not_le hwide) (h _ template_openTempl)

theorem storesValues_of_le (hrange : ∀ v ∈ dom.vars, v.nValues ≤ 32767) : dom.StoresValues := by
  have hrange' : ∀ v ∈ dom.vars, v.nValues ≤ 32768 := fun v hv => (hrange v hv).trans (by decide)
  refine ⟨setStores_of_le hrange', ?_, fun templ => allStored_of_le hrange', fun draws rng => ?_,
    fun templ draws lim rng htempl => coveringStored_of_le hrange htempl draws lim rng⟩
  · rw [genAllConfigs_open]
    exact allStored_of_le hrange' template_openTempl
  · rw [genOneConveringConfigs_open]
    exact coveringStored_of_le hrange template_openTempl draws intMax rng

theorem not_storesValues {var : ℕ} (hwide : 32767 < dom.nValues var) : ¬ dom.StoresValues := by
  intro h
  rcases Nat.lt_or_ge 32768 (dom.nValues var) with hlt | hge
  · exact not_setStores hlt h.set
  · have hrun := h.genOneConveringOf (.openTempl dom) id intMax 0 template_openTempl
    exact not_coveringStored hwide (by omega) (fun _ => getElem?_openTempl) _ _ _ hrun

/-- **Values stored as `short`.**  `set` and `gen_all_configs` are right for exactly the
domains whose options have at most 32768 labels; together with
`gen_one_convering_configs` the domain stores its values exactly when no option has more
than 32767. -/
theorem storesValues_iff :
    (dom.SetStores ↔ ∀ v ∈ dom.vars, v.nValues ≤ 32768) ∧
    ((∀ templ : Config, templ.Template dom → dom.AllStored templ (genAllConfigsOf dom templ)) ↔
      ∀ v ∈ dom.vars, v.nValues ≤ 32768) ∧
    (dom.StoresValues ↔ ∀ v ∈ dom.vars, v.nValues ≤ 32767) := by
  refine ⟨setStores_iff, allStored_iff, fun h => forall_nValues_le.mpr fun var => ?_,
    storesValues_of_le⟩
  by_contra hwide
  exact not_storesValues (Nat.lt_of_not_le hwide) h

end Store

/-! ### One option -/

section Single

variable {n : ℕ} {hn : 0 < n}

/-- One pass of the recursion over the values of the only option. -/
theorem genAllFrom_single (x : ℤ) (configs : List Config) (i : ℕ) :
    genAllFrom (.single n hn) (.openTempl (.single n hn)) [] 1 ([x].set 0 (toShort i), configs) =
      (check (-1 ≤ toShort i ∧ toShort i < n) .configValue >>= fun _ =>
        .ok ([toShort i], configs ++ [{ values := [toShort (toShort i)] }])) := by
  show (Config.ofValues (.single n hn) [toShort i] >>= fun c => _) = _
  rw [ofValues_single]
  by_cases h : -1 ≤ toShort i ∧ toShort i < n
  · rw [check_pos h]
    rfl
  · rw [check_neg h]
    rfl

/-- The recursion dies at the first index that a `short` does not hold. -/
theorem genAllConfigs_single {k : ℕ} (hk : k < n) (hbefore : ∀ i < k, toShort i = i)
    (hneg : toShort k < -1) : genAllConfigs (.single n hn) = .error .configValue := by
  have hloop : Meets ((List.range k).foldlM (fun (st : List ℤ × List Config) (i : ℕ) =>
      genAllFrom (.single n hn) (.openTempl (.single n hn)) [] 1 (st.1.set 0 (toShort i), st.2))
      ([0], [])) (fun st => ∃ x, st.1 = [x]) fun _ => False := by
    apply meets_foldlM_const (fun st : List ℤ × List Config => ∃ x, st.1 = [x])
    · rintro i hi ⟨values, configs⟩ ⟨x, rfl⟩
      have hlt := List.mem_range.mp hi
      have hshort := hbefore i hlt
      rw [genAllFrom_single, hshort, check_pos (by omega), ok_bind]
      exact ⟨i, rfl⟩
    · exact ⟨0, rfl⟩
  obtain ⟨⟨values, configs⟩, hrun, x, hvalues⟩ := hloop.exists_ok
  obtain rfl : values = [x] := hvalues
  obtain ⟨m, rfl⟩ := Nat.exists_eq_add_of_lt hk
  have hget : Config.get (.openTempl (.single (k + m + 1) hn)) 0 = .ok (-1) := rfl
  have hrange : List.range (k + m + 1) = List.range k ++ k :: (List.range m).map (k + 1 + ·) := by
    rw [Nat.add_assoc, List.range_add, List.range_succ_eq_map, List.map_cons, List.map_map]
    congr 2
    refine List.map_congr_left fun i _ => ?_
    show k + (i + 1) = k + 1 + i
    omega
  have hlen : VarDomain.nValues ⟨"0", (List.range (k + m + 1)).map toString⟩ = k + m + 1 := by
    simp [VarDomain.nValues]
  rw [genAllConfigs_open, genAllConfigsOf]
  show (genAllFrom (.single (k + m + 1) hn) _ [⟨"0", _⟩] 0 ([0], []) >>= fun st => _) = _
  rw [genAllFrom, hget, ok_bind, if_neg (not_not.mpr rfl), hlen, hrange, List.foldlM_append, hrun,
    ok_bind, List.foldlM_cons, genAllFrom_single, check_neg (by omega)]
  rfl

/-- An option whose number of labels is negative in a `short` has no pool. -/
theorem genOneConveringConfigs_pool (hneg : toShort n < 0) (draws : ℕ → ℕ) (rng : ℕ) :
    genOneConveringConfigs (.single n hn) draws rng = .error .poolLength := by
  have hget : Config.get (.openTempl (.single n hn)) 0 = .ok (-1) := rfl
  have hpool : shortPool ((Domain.single n hn).nValues 0) = .error .poolLength := by
    rw [Domain.nValues_single, shortPool, if_neg (Int.not_le.mpr hneg)]
  rw [genOneConveringConfigs_open, genOneConveringConfigsOf, shortPools]
  show ([0].foldlM _ ([], 0) >>= _) = _
  rw [List.foldlM_cons, hget, ok_bind, if_pos rfl, hpool]
  rfl

/-- An option with 32768 labels: `set` and `gen_all_configs` are right, and
`gen_one_convering_configs` cannot make the pool.  With one label more `set` leaves the
option with a negative value, and `gen_all_configs` dies as well. -/
theorem storesValues_wide :
    let dom := Domain.single 32768 (by decide)
    let dom' := Domain.single 32769 (by decide)
    (¬ dom.StoresValues ∧ genOneConveringConfigs dom id 0 = .error .poolLength) ∧
    (¬ dom'.StoresValues ∧ (Config.new dom').set dom' 0 32768 = .ok { values := [-32768] } ∧
      genAllConfigs dom' = .error .configValue) := by
  intro dom dom'
  have hwide : 32767 < dom.nValues 0 := by rw [Domain.nValues_single]; decide
  have hwide' : 32767 < dom'.nValues 0 := by rw [Domain.nValues_single]; decide
  refine ⟨⟨not_storesValues hwide, genOneConveringConfigs_pool (by decide) id 0⟩,
    not_storesValues hwide', set_single (by decide), ?_⟩
  refine genAllConfigs_single (k := 32768) (by decide) (fun i hi => ?_) (by decide)
  exact toShort_of_range (by omega) (by omega)

end Single

end GenTree

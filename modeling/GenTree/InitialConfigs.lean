import GenTree.AllConfigs
import GenTree.Covering
import Mathlib.Data.Finset.Max

/-!
# Which generators repeat themselves

A configuration is counted as run by its hash, and `hash()` returns what the cache
holds.  Every generator hands out a configuration whose cached hash, if there is
one, is that of its present values (`Config.Keyed`), although `set` does not renew
the cache.

Of the initial configurations, those of `gen_all_configs` and of `gen_rand_configs`
differ from each other whenever the generator comes to its end: the former dies at
the first value that does not fit a `short`, the latter looks every hash up.  Those
of `gen_one_convering_configs` differ from each other as long as no option has 65536
labels or more, and nobody compares the seeds with anything (`Env.SeedsApart`).
-/

namespace GenTree

open Outcome

/-! ## Cached hashes -/

/-- The hash of the configuration is that of its values. -/
def Config.Keyed (c : Config) : Prop := c.hashKey = c.values

/-- The hashes of all configurations of a list are those of their values. -/
def AllKeyed (cs : List Config) : Prop := ∀ c ∈ cs, c.Keyed

namespace Config.Keyed

variable {c : Config}

theorem of_hashed (h : c.hashed = none) : c.Keyed := by
  rw [Keyed, hashKey, h, Option.getD_none]

theorem rehash (c : Config) : c.rehash.Keyed := rfl

theorem touchHash (h : c.Keyed) : c.touchHash.Keyed := h

end Config.Keyed

theorem AllKeyed.concat {cs : List Config} {c : Config} (h : AllKeyed cs) (hc : c.Keyed) :
    AllKeyed (cs ++ [c]) := by
  intro x hx
  rcases List.mem_append.mp hx with hx | hx
  · exact h x hx
  · rwa [List.mem_singleton.mp hx]

section Generators

variable {dom : Domain} {draws : ℕ → ℕ}

/-- `set_all` renews nothing, and accepts no value below `-1`. -/
theorem Config.setFrom_meets (c : Config) (var : ℕ) (values : List ℤ) :
    Meets (Config.setFrom dom c var values)
      (fun c' => c'.hashed = c.hashed ∧ ∀ v ∈ values, -1 ≤ v) fun _ => True := by
  induction values generalizing c var with
  | nil => exact ⟨rfl, by simp⟩
  | cons v vs ih =>
      refine meets_bind_of_eq (fun _ _ => trivial) fun c' hc' => ?_
      obtain ⟨⟨hlo, -⟩, -, rfl⟩ := Config.set_eq_ok.mp hc'
      refine (ih _ (var + 1)).imp fun c'' hc'' => ?_
      exact ⟨hc''.1, List.forall_mem_cons.mpr ⟨hlo, hc''.2⟩⟩

theorem Config.ofValues_meets (dom : Domain) (values : List ℤ) :
    Meets (Config.ofValues dom values) (fun c => c.Keyed ∧ ∀ v ∈ values, -1 ≤ v)
      fun _ => True := by
  rw [Config.ofValues, Config.setAll]
  refine meets_check_bind (fun _ => ?_) fun _ => trivial
  refine ((Config.new dom).setFrom_meets 0 values).imp fun c hc => ⟨?_, hc.2⟩
  exact .of_hashed hc.1

theorem getSeedConfigs_keyed (seeds : List (List ℤ)) :
    Meets (getSeedConfigs dom seeds) AllKeyed fun _ => True := by
  rw [getSeedConfigs]
  induction seeds with
  | nil => simp [AllKeyed]
  | cons v vs ih =>
      rw [List.mapM_cons]
      refine meets_bind (Config.ofValues_meets dom v) fun c hc => meets_bind ih fun cs hcs => ?_
      exact List.forall_mem_cons.mpr ⟨hc.1, hcs⟩

theorem coverLoop_keyed (templ : Config) (lim : ℤ) (fuel : ℕ) (pools : List (List ℤ))
    (nFinished rng : ℕ) (ret : List Config) (h : AllKeyed ret) :
    Meets (coverLoop dom draws templ lim fuel pools nFinished rng ret)
      (fun r => AllKeyed r.1) fun _ => True := by
  induction fuel generalizing pools nFinished rng ret with
  | zero => trivial
  | succ fuel ih =>
      rw [coverLoop]
      split
      · refine meets_bind_of_eq (fun _ _ => trivial) fun row hrow => ih _ _ _ _ (h.concat ?_)
        have hpass := passed_of_fillRow hrow
        refine .of_hashed ?_
        rw [hpass.conf]
        rfl
      · exact h

theorem genOneConveringConfigs_keyed (rng : ℕ) :
    Meets (genOneConveringConfigs dom draws rng) (fun r => AllKeyed r.1) fun _ => True := by
  refine meets_bind_of_eq (fun _ _ => trivial) fun cfg _ => ?_
  rw [genOneConveringConfigsOf]
  refine meets_bind_of_eq (fun _ _ => trivial) fun p _ => ?_
  exact coverLoop_keyed cfg intMax _ _ _ _ _ (by simp [AllKeyed])

/-! ## The generator of a leaf -/

section Leaf

variable {Hash : Type} [DecidableEq Hash] {confHash : List ℤ → Hash} {solver : Solver}

theorem genPass_keyed (leaf : GenLeaf) (g : Gen Hash) (h : AllKeyed g.ret) :
    Meets (genPass dom draws solver confHash leaf g) (fun r => AllKeyed r.ret)
      fun _ => True := by
  rw [genPass]
  refine meets_bind_of_eq (fun _ _ => trivial) fun row hrow => ?_
  have hconf := (passed_of_fillRow hrow).conf
  dsimp only
  split
  · refine h.concat (Config.Keyed.touchHash (.of_hashed ?_))
    rw [hconf]
    rfl
  · split
    · refine meets_bind_of_eq (fun _ _ => trivial) fun c _ => ?_
      split
      · exact h
      · -- the cache is out of date here, and is renewed
        refine meets_bind_of_eq (fun _ _ => trivial) fun c' _ => ?_
        exact meets_check_bind (fun _ => h.concat (.rehash c')) fun _ => trivial
    · exact h

theorem genLoop_keyed (leaf : GenLeaf) (lim : ℤ) (fuel : ℕ) (g : Gen Hash)
    (h : AllKeyed g.ret) :
    Meets (genLoop dom draws solver confHash leaf lim fuel g) (fun r => AllKeyed r.ret)
      fun _ => True := by
  induction fuel generalizing g with
  | zero => trivial
  | succ fuel ih =>
      rw [genLoop]
      split
      · exact meets_bind (genPass_keyed leaf g h) fun g' hg' => ih g' hg'
      · exact h

/-- **The configurations made for a leaf carry their own hashes.** -/
theorem CTree.genOneConveringConfigs_keyed (tree : CTree) (node : NodeRef) (lim : ℤ)
    (rng solverCalls : ℕ) :
    Meets (tree.genOneConveringConfigs dom draws solver confHash node lim rng solverCalls)
      (fun r => AllKeyed r.1) fun _ => True := by
  rw [CTree.genOneConveringConfigs]
  refine meets_bind_of_eq (fun _ _ => trivial) fun templ _ => ?_
  refine meets_bind_of_eq (fun _ _ => trivial) fun t _ => ?_
  refine meets_check_bind (fun _ => ?_) fun _ => trivial
  refine meets_bind_of_eq (fun _ _ => trivial) fun p _ => ?_
  exact meets_bind (genLoop_keyed _ lim _ _ (by simp [AllKeyed])) fun g hg => hg

end Leaf

end Generators

/-! ## All configurations -/

section All

variable {dom : Domain}

/-- The recursion of `gen_all_configs` behind the options `done`: it never comes to
an end with an option of more than 32768 values, nor with a negative value in front
of it. -/
theorem genAllFrom_range {templ : Config}
    (hopen : ∀ var < dom.nVars, templ.values[var]? = some (-1)) {done vs : List VarDomain}
    (hvars : dom.vars = done ++ vs) (p : List ℤ × List Config) (hlen : p.1.length = dom.nVars) :
    Meets (genAllFrom dom templ vs done.length p)
      (fun st => st.1.length = dom.nVars ∧ (∀ j < done.length, st.1[j]? = p.1[j]?) ∧
        (∀ j < done.length, ∀ v, p.1[j]? = some v → -1 ≤ v) ∧ ∀ v ∈ vs, v.nValues ≤ 32768)
      fun _ => True := by
  induction vs generalizing done p with
  | nil =>
      rw [genAllFrom]
      refine meets_bind (Config.ofValues_meets dom p.1) fun c hc => ?_
      exact ⟨hlen, fun _ _ => rfl, fun j _ v hv => hc.2 v (List.mem_of_getElem? hv), by simp⟩
  | cons v vs ih =>
      have hvar : done.length < dom.nVars := by rw [Domain.nVars, hvars]; simp
      have hget : templ.get done.length = .ok (-1) := vecAt_of_getElem? (hopen _ hvar)
      rw [genAllFrom, hget, ok_bind, if_neg (by simp)]
      refine (meets_foldlM (fun (is : List ℕ) (st : List ℤ × List Config) =>
        st.1.length = dom.nVars ∧ (∀ j < done.length, st.1[j]? = p.1[j]?) ∧
          (∀ i ∈ is, -1 ≤ toShort i) ∧ (is ≠ [] →
            (∀ j < done.length, ∀ v, p.1[j]? = some v → -1 ≤ v) ∧ ∀ v ∈ vs, v.nValues ≤ 32768))
        (List.range v.nValues) ?_ ⟨hlen, fun _ _ => rfl, by simp, by simp⟩).imp fun st hst => ?_
      · rintro is i is' st - ⟨hlen', hsame, his, -⟩
        -- the place of the option is overwritten, and the ones before it are kept
        have hbefore : ∀ j < done.length, (st.1.set done.length (toShort i))[j]? = p.1[j]? := by
          intro j hj
          rw [List.getElem?_set_ne (by omega), hsame j hj]
        have hself : (st.1.set done.length (toShort i))[done.length]? = some (toShort i) :=
          List.getElem?_set_self (by omega)
        have hnext := @ih (done ++ [v]) (by rw [hvars]; simp)
          (st.1.set done.length (toShort i), st.2) (by rw [List.length_set, hlen'])
        rw [List.length_append, List.length_singleton] at hnext
        refine hnext.imp fun st' hst' => ?_
        obtain ⟨hlen'', hsame', hlow, hrange⟩ := hst'
        refine ⟨hlen'', fun j hj => (hsame' j (by omega)).trans (hbefore j hj), ?_, fun _ => ⟨?_, hrange⟩⟩
        · intro i' hi'
          rcases List.mem_append.mp hi' with hi' | hi'
          · exact his i' hi'
          · rw [List.mem_singleton.mp hi']
            exact hlow done.length (by omega) _ hself
        · intro j hj w hw
          exact hlow j (by omega) w ((hbefore j hj).trans hw)
      · obtain ⟨hlen', hsame, hshort, hrest⟩ := hst
        have hpos : 0 < v.nValues := dom.labels_pos v (by rw [hvars]; simp)
        obtain ⟨hlow, hrange⟩ := hrest (by rw [ne_eq, List.range_eq_nil]; omega)
        refine ⟨hlen', hsame, hlow, List.forall_mem_cons.mpr ⟨?_, hrange⟩⟩
        -- the index 32768 becomes negative
        by_contra hbig
        have := hshort 32768 (List.mem_range.mpr (by omega))
        exact absurd this (by decide)

/-- **The configurations of `gen_all_configs`** differ from each other. -/
theorem genAllConfigs_distinct : Meets (genAllConfigs dom)
    (fun cs => AllKeyed cs ∧ (cs.map Config.values).Nodup) fun _ => True := by
  have hrange : Meets (genAllConfigs dom) (fun _ => ∀ v ∈ dom.vars, v.nValues ≤ 32768)
      fun _ => True := by
    rw [genAllConfigs, fill_open, ok_bind, genAllConfigsOf]
    refine meets_bind (@genAllFrom_range dom { values := List.replicate dom.nVars (-1) }
      (fun var hvar => ?_) [] dom.vars rfl (List.replicate dom.nVars 0, []) ?_) fun st hst => ?_
    · rw [List.getElem?_replicate, if_pos hvar]
    · rw [List.length_replicate]
    · exact hst.2.2.2
  refine meets_iff_forall_ok.mpr fun cs hcs => ?_
  rw [genAllConfigs_eq (hrange.of_eq_ok hcs), Except.ok.injEq] at hcs
  subst hcs
  constructor
  · intro c hc
    obtain ⟨values, -, rfl⟩ := List.mem_map.mp hc
    rfl
  · simpa [Function.comp_def] using nodup_allValues dom.vars

end All

/-! ## Random configurations -/

section Rand

variable {dom : Domain} {draws : ℕ → ℕ} {Hash : Type} [DecidableEq Hash]
  {confHash : List ℤ → Hash}

/-- The `do` loop ends with a configuration whose hash is new. -/
theorem retryRand_meets (seen : List Hash) (fuel : ℕ) (c : Config) (rng : ℕ) :
    Meets (retryRand dom draws confHash seen fuel c rng)
      (fun r => r.1.Keyed ∧ confHash r.1.values ∉ seen) fun _ => True := by
  induction fuel generalizing c rng with
  | zero => trivial
  | succ fuel ih =>
      refine meets_bind_of_eq (fun _ _ => trivial) fun r _ => ?_
      dsimp only
      split
      · exact ih _ _
      · next hnew => exact ⟨.rehash r.1, hnew⟩

theorem genRandConfigs_meets (fuel num : ℕ) {seen : List Hash} {ret : List Config} (rng : ℕ)
    (hkeyed : AllKeyed ret) (hseen : seen.reverse = ret.map fun c => confHash c.values)
    (hnodup : seen.Nodup) :
    Meets (genRandConfigs dom draws confHash fuel num seen ret rng)
      (fun r => AllKeyed r.1 ∧ (r.1.map Config.values).Nodup) fun _ => True := by
  induction num generalizing seen ret rng with
  | zero =>
      refine ⟨hkeyed, .of_map confHash ?_⟩
      rw [List.map_map, ← List.nodup_reverse]
      have : (ret.map (confHash ∘ Config.values)).reverse = seen := by
        rw [← List.reverse_reverse seen, hseen]
        rfl
      rwa [this]
  | succ num ih =>
      refine meets_bind (retryRand_meets seen fuel _ rng) fun r hr => ?_
      obtain ⟨hc, hnew⟩ := hr
      have hhash : confHash r.1.hashKey = confHash r.1.values := congrArg confHash hc
      refine ih _ (hkeyed.concat hc) ?_ ?_
      · rw [List.reverse_cons, hseen, hhash, List.map_append, List.map_singleton]
      · rw [hhash]
        exact List.nodup_cons.mpr ⟨hnew, hnodup⟩

end Rand

/-! ## Covering configurations and seeds -/

section Pools

variable {dom : Domain} {templ : Config} {draws : ℕ → ℕ}

/-- A pool is only made for an option of which `short` counts the values. -/
theorem range_of_shortPool {n : ℕ} {pool : List ℤ} (h : shortPool n = .ok pool) :
    0 ≤ toShort n := by
  unfold shortPool at h
  generalize toShort n = x at h ⊢
  split at h
  · assumption
  · cases h

theorem shortPools_range (hopen : ∀ var < dom.nVars, templ.values[var]? = some (-1)) :
    Meets (shortPools dom templ) (fun _ => ∀ var < dom.nVars, 0 ≤ toShort (dom.nValues var))
      fun _ => True := by
  rw [shortPools]
  refine (meets_foldlM (fun (done : List ℕ) (_ : List (List ℤ) × ℕ) => ∀ var ∈ done,
    0 ≤ toShort (dom.nValues var)) (List.range dom.nVars) ?_ (by simp)).imp
    fun st hst var hvar => hst var (List.mem_range.mpr hvar)
  intro done var rest st hsplit hdone
  have hvar : var < dom.nVars := List.mem_range.mp (by rw [hsplit]; simp)
  have hget : templ.get var = .ok (-1) := vecAt_of_getElem? (hopen var hvar)
  rw [hget, ok_bind, if_pos rfl]
  cases hpool : shortPool (dom.nValues var) with
  | error e => exact trivial
  | ok pool =>
      rw [ok_bind, meets_ok]
      intro var' hvar'
      rcases List.mem_append.mp hvar' with hvar' | hvar'
      · exact hdone var' hvar'
      · rw [List.mem_singleton.mp hvar']
        exact range_of_shortPool hpool

theorem toShort_neg {n : ℕ} (hlo : 32767 < n) (hhi : n < 65536) : toShort n < 0 := by
  unfold toShort
  rw [Int.bmod_def]
  omega

/-- **The covering configurations** differ from each other when no option has 65536
labels or more. -/
theorem genOneConveringConfigs_distinct (hlabels : ∀ v ∈ dom.vars, v.nValues < 65536) (rng : ℕ) :
    Meets (genOneConveringConfigs dom draws rng) (fun r => (r.1.map Config.values).Nodup)
      fun _ => True := by
  rw [genOneConveringConfigs, fill_open, ok_bind]
  generalize htempl : ({ values := List.replicate dom.nVars (-1) } : Config) = templ
  have hopen : ∀ var < dom.nVars, templ.values[var]? = some (-1) := by
    intro var hvar
    rw [← htempl, List.getElem?_replicate, if_pos hvar]
  have htemplate : templ.Template dom := by
    rw [← htempl]
    refine ⟨List.length_replicate .., fun var t ht => .inl ?_⟩
    exact List.eq_of_mem_replicate (List.mem_of_getElem? ht)
  refine meets_iff_forall_ok.mpr fun r hr => ?_
  rcases Nat.eq_zero_or_pos dom.nVars with hzero | hpos
  · -- without options there is no pass
    rw [genOneConveringConfigsOf] at hr
    obtain ⟨⟨pools, nFinished⟩, -, hloop⟩ := bind_eq_ok.mp hr
    replace hloop : coverLoop dom draws templ intMax (intMax.toNat + 1) pools nFinished rng [] =
      .ok r := hloop
    rw [coverLoop, if_neg (by rw [hzero]; simp), Except.ok.injEq] at hloop
    rw [← hloop]
    exact List.nodup_nil
  have hrange : ∀ v ∈ dom.vars, v.nValues ≤ 32767 := by
    intro v hv
    have hlt := hlabels v hv
    obtain ⟨var, hvar⟩ := List.mem_iff_getElem?.mp hv
    have hr' := hr
    rw [genOneConveringConfigsOf] at hr'
    obtain ⟨p, hpools, -⟩ := bind_eq_ok.mp hr'
    have hshort := (shortPools_range hopen).of_eq_ok hpools var
      (List.getElem?_eq_some_iff.mp hvar).1
    rw [Domain.nValues_of_getElem? hvar] at hshort
    by_contra hbig
    exact absurd (toShort_neg (Nat.lt_of_not_le hbig) hlt) (Int.not_lt.mpr hshort)
  obtain ⟨big, hbig, hmax⟩ := Finset.exists_max_image (Finset.range dom.nVars) dom.nValues
    ⟨0, Finset.mem_range.mpr hpos⟩
  rw [Finset.mem_range] at hbig
  have hgreatest : IsGreatest {n | ∃ var, templ.values[var]? = some (-1) ∧ n = dom.nValues var}
      (dom.nValues big) := by
    refine ⟨⟨big, hopen big hbig, rfl⟩, ?_⟩
    rintro n ⟨var, hvar, rfl⟩
    refine hmax var (Finset.mem_range.mpr ?_)
    rw [← htemplate.1]
    exact (List.getElem?_eq_some_iff.mp hvar).1
  obtain ⟨cs, rng', pools, nFinished, hrun, hlen, hdrawn⟩ :=
    genOneConveringConfigsOf_eq hrange htemplate hgreatest draws 2147483647 rng
  obtain rfl : (cs, rng') = r := Except.ok.inj (hrun.symm.trans hr)
  exact hdrawn.nodup htemplate (hopen big hbig) (hlen ▸ Nat.min_le_right _ _)

end Pools

/-! ## The initial configurations -/

namespace Env

variable {Name Hash : Type} [DecidableEq Hash] {env : Env Name Hash}

/-- The seeds stand **apart**.  Without `--full` and `--rand`, no two seeds are the
same, no seed is one of the covering configurations, and no two of these are the
same, which only an option with 65536 labels can bring about. -/
def SeedsApart (env : Env Name Hash) : Prop :=
  env.options.full = false → env.options.rand = none → ∀ covering rng seeds,
    GenTree.genOneConveringConfigs env.dom env.draws 0 = .ok (covering, rng) →
      getSeedConfigs env.dom env.options.seedConfigs = .ok seeds →
        (covering.map Config.values).Nodup ∧ (seeds.map Config.values).Nodup ∧
          ∀ c ∈ seeds, c.values ∉ covering.map Config.values

omit [DecidableEq Hash] in
/-- With fewer labels only the seeds matter. -/
theorem seedsApart_of_labels (hlabels : ∀ v ∈ env.dom.vars, v.nValues < 65536)
    (h : ∀ covering rng seeds,
      GenTree.genOneConveringConfigs env.dom env.draws 0 = .ok (covering, rng) →
        getSeedConfigs env.dom env.options.seedConfigs = .ok seeds →
          (seeds.map Config.values).Nodup ∧ ∀ c ∈ seeds, c.values ∉ covering.map Config.values) :
    env.SeedsApart := by
  intro _ _ covering rng seeds hcovering hseeds
  exact ⟨(genOneConveringConfigs_distinct hlabels 0).of_eq_ok hcovering,
    h covering rng seeds hcovering hseeds⟩

/-- Without `--full` and `--rand` the seeds follow on the covering configurations. -/
theorem initConfigs_default (hfull : env.options.full = false) (hrand : env.options.rand = none)
    {covering seeds : List Config} {rng : ℕ}
    (hcovering : GenTree.genOneConveringConfigs env.dom env.draws 0 = .ok (covering, rng))
    (hseeds : getSeedConfigs env.dom env.options.seedConfigs = .ok seeds) :
    env.initConfigs = .ok (covering ++ seeds, rng) := by
  unfold initConfigs
  simp only [hfull, hrand, hcovering, hseeds, ok_bind]
  rfl

/-- **The initial configurations** carry their own hashes, and differ from each other
when the seeds stand apart. -/
theorem initConfigs_meets (env : Env Name Hash) : Meets env.initConfigs
    (fun r => AllKeyed r.1 ∧ (env.SeedsApart → (r.1.map Config.values).Nodup))
    fun _ => True := by
  rw [initConfigs]
  split
  · refine meets_bind genAllConfigs_distinct fun cs hcs => ?_
    exact ⟨hcs.1, fun _ => hcs.2⟩
  · next hfull =>
      split
      · next num hrand =>
          refine (genRandConfigs_meets env.randFuel num.toNat 0 (by simp [AllKeyed]) rfl
            List.nodup_nil).imp fun r hr => ?_
          exact ⟨hr.1, fun _ => hr.2⟩
      · next hrand =>
          refine meets_bind_of_eq (fun _ _ => trivial) fun r hr => ?_
          refine meets_bind_of_eq (fun _ _ => trivial) fun seeds hseeds => ?_
          constructor
          · intro c hc
            rcases List.mem_append.mp hc with hc | hc
            · exact (genOneConveringConfigs_keyed 0).of_eq_ok hr c hc
            · exact (getSeedConfigs_keyed _).of_eq_ok hseeds c hc
          · intro hapart
            obtain ⟨hcovering, hseed, hdisjoint⟩ :=
              hapart (by simpa using hfull) hrand r.1 r.2 seeds hr hseeds
            rw [List.map_append]
            refine List.Nodup.append hcovering hseed fun values hmem hmem' => ?_
            obtain ⟨c, hc, rfl⟩ := List.mem_map.mp hmem'
            exact hdisjoint c hc hmem

end Env

end GenTree

import GenTree.ConfigSpace

/-!
# What the generators make

A configuration that has just been generated is new: nobody has registered it, its cached
hash is that of its values, and it has a value for each option (`Config.Made`).  For the
generators of the domain and of the leaves this holds whatever is drawn and whatever the
solver answers, as long as its answers are models; for the seeds it is what the caller has
to give (`Env.Regular`).

The value indices have to fit into a `short`.  The covering generator narrows the number of
values as well, so it needs the bound 32767 where the others do with 32768.
-/

namespace GenTree

open Outcome

/-- A configuration as the generators make it. -/
structure Config.Made (dom : Domain) (c : Config) : Prop where
  fresh : c.Fresh dom
  keyed : c.Keyed
  complete : c.Complete dom

theorem Config.Made.touchHash {dom : Domain} {c : Config} (h : c.Made dom) :
    c.touchHash.Made dom :=
  ⟨h.fresh.touchHash, h.keyed.touchHash, h.complete⟩

/-- All configurations of a list are made. -/
def AllMade (dom : Domain) (cs : List Config) : Prop := ∀ c ∈ cs, c.Made dom

/-! ## The generators -/

section Generators

variable {dom : Domain} {draws : ℕ → ℕ}

theorem genAllConfigs_made (hrange : ∀ v ∈ dom.vars, v.nValues ≤ 32768) :
    Meets (genAllConfigs dom) (AllMade dom) fun _ => True := by
  rw [genAllConfigs_eq hrange]
  intro c hc
  obtain ⟨values, hvalues, rfl⟩ := List.mem_map.mp hc
  have hcomplete : Config.Complete dom { values } := complete_iff_mem_allValues.mpr hvalues
  exact ⟨⟨rfl, rfl, hcomplete.1⟩, .of_hashed rfl, hcomplete⟩

/-- The loop over the pools makes complete configurations. -/
theorem coverLoop_complete (hrange : ∀ v ∈ dom.vars, v.nValues ≤ 32768) {templ : Config}
    (htempl : templ.Template dom) (lim : ℤ) (fuel : ℕ) {pools : List (List ℤ)} {nFinished : ℕ}
    (rng : ℕ) {ret : List Config} (h : Drawn dom templ pools nFinished ret) :
    Meets (coverLoop dom draws templ lim fuel pools nFinished rng ret)
      (fun r => ∀ c ∈ r.1, c.Complete dom) fun _ => True := by
  induction fuel generalizing pools nFinished rng ret with
  | zero => trivial
  | succ fuel ih =>
      rw [coverLoop]
      split
      · refine meets_bind_of_eq (fun _ _ => trivial) fun row hrow => ?_
        exact ih row.rng (h.step hrange htempl (passed_of_fillRow hrow))
      · exact fun c hc => (h.complete c hc).1

theorem genOneConveringConfigs_made (hrange : ∀ v ∈ dom.vars, v.nValues ≤ 32767) (rng : ℕ) :
    Meets (genOneConveringConfigs dom draws rng) (fun r => AllMade dom r.1) fun _ => True := by
  have hcomplete : Meets (genOneConveringConfigs dom draws rng)
      (fun r => ∀ c ∈ r.1, c.Complete dom) fun _ => True := by
    rw [genOneConveringConfigs]
    refine meets_bind_of_eq (fun _ _ => trivial) fun cfg hcfg => ?_
    rw [fill_open, Except.ok.injEq] at hcfg
    subst hcfg
    have htempl : Config.Template dom { values := List.replicate dom.nVars (-1) } := by
      refine ⟨List.length_replicate, fun var t ht => .inl ?_⟩
      rw [List.getElem?_replicate] at ht
      split at ht
      · exact (Option.some.inj ht).symm
      · cases ht
    rw [genOneConveringConfigsOf, shortPools_eq hrange htempl, ok_bind]
    exact coverLoop_complete (fun v hv => (hrange v hv).trans (by decide)) htempl _ _ _
      (drawn_nil htempl)
  refine ((genOneConveringConfigs_fresh rng).and
    ((genOneConveringConfigs_keyed rng).and hcomplete)).imp ?_
  intro r hr c hc
  exact ⟨hr.1 c hc, hr.2.1 c hc, hr.2.2 c hc⟩

/-- The narrowed values of a small domain are its values. -/
theorem mem_allValues_of_spaceValues (hrange : ∀ v ∈ dom.vars, v.nValues ≤ 32768)
    {values : List ℤ} (h : values ∈ dom.spaceValues) : values ∈ allValues dom.vars := by
  obtain ⟨values, hvalues, rfl⟩ := List.mem_map.mp h
  have hcomplete : Config.Complete dom { values } := complete_iff_mem_allValues.mpr hvalues
  have hsame : values.map toShort = values := by
    have hid : values.map toShort = values.map id := by
      apply List.map_congr_left
      intro v hv
      obtain ⟨hlo, hhi⟩ := hcomplete.short hrange v hv
      exact toShort_of_range (by omega) hhi
    rw [hid, List.map_id]
  rwa [hsame]

/-- The configurations made for a leaf. -/
theorem CTree.genOneConveringConfigs_made {Hash : Type} [DecidableEq Hash] {solver : Solver}
    {confHash : List ℤ → Hash} (hrange : ∀ v ∈ dom.vars, v.nValues ≤ 32768)
    (hsound : solver.Sound dom) (tree : CTree) (node : NodeRef) (lim : ℤ)
    (rng solverCalls : ℕ) :
    Meets (tree.genOneConveringConfigs dom draws solver confHash node lim rng solverCalls)
      (fun r => AllMade dom r.1) fun _ => True := by
  refine ((tree.genOneConveringConfigs_fresh node lim rng solverCalls).and
    ((tree.genOneConveringConfigs_keyed node lim rng solverCalls).and
      (tree.genOneConveringConfigs_inSpace hsound node lim rng solverCalls))).imp ?_
  intro r hr c hc
  have hspace := mem_allValues_of_spaceValues hrange (hr.2.2 c hc)
  exact ⟨hr.1 c hc, hr.2.1 c hc, complete_iff_mem_allValues.mpr hspace⟩

theorem getSeedConfigs_made (hrange : ∀ v ∈ dom.vars, v.nValues ≤ 32768) {seeds : List (List ℤ)}
    (hseeds : ∀ values ∈ seeds, Config.Complete dom { values }) :
    Meets (getSeedConfigs dom seeds) (AllMade dom) fun _ => True := by
  have hmap : getSeedConfigs dom seeds = .ok (seeds.map fun values => { values }) := by
    rw [getSeedConfigs]
    apply mapM_ok
    intro values hvalues
    exact ofValues_eq hrange (mem_allValues.mp (complete_iff_mem_allValues.mp (hseeds values hvalues)))
  rw [hmap]
  intro c hc
  obtain ⟨values, hvalues, rfl⟩ := List.mem_map.mp hc
  exact ⟨⟨rfl, rfl, (hseeds values hvalues).1⟩, .of_hashed rfl, hseeds values hvalues⟩

end Generators

/-! ## Random configurations -/

section Random

variable {Hash : Type} [DecidableEq Hash]

/-- One more configuration: it is complete, and its hash is new. -/
theorem retryRand_complete {dom : Domain} {draws : ℕ → ℕ} {confHash : List ℤ → Hash}
    (hrange : ∀ v ∈ dom.vars, v.nValues ≤ 32768) (seen : List Hash) (fuel : ℕ) {c : Config}
    (hc : c.Fresh dom) (rng : ℕ) :
    Meets (retryRand dom draws confHash seen fuel c rng)
      (fun r => r.1.Keyed ∧ confHash r.1.values ∉ seen ∧ r.1.Fresh dom ∧ r.1.Complete dom)
      (· = .outOfFuel) := by
  induction fuel generalizing c rng with
  | zero => exact rfl
  | succ fuel ih =>
      obtain ⟨f, hf, hfill⟩ := fillRand_eq dom draws hc.length rng
      obtain ⟨hcomplete, -⟩ := complete_of_setEach hrange fun var hvar => (hf var hvar).1
      have hfresh : Config.Fresh dom { c with
          values := (List.range dom.nVars).map fun var => toShort (f var) } :=
        ⟨hc.id, hc.covLocs, by simp⟩
      rw [retryRand, hfill, ok_bind]
      dsimp only
      split
      · exact ih hfresh.rehash _
      · next hnew => exact ⟨.rehash _, hnew, hfresh.rehash, hcomplete⟩

/-- **`gen_rand_configs`** with a set that has elements already. -/
theorem genRandConfigs_more {dom : Domain} {draws : ℕ → ℕ} {confHash : List ℤ → Hash}
    (hrange : ∀ v ∈ dom.vars, v.nValues ≤ 32768) (fuel num : ℕ) {seen : List Hash}
    (hseen : seen.Nodup) (rng : ℕ) :
    Meets (genRandConfigs dom draws confHash fuel num seen [] rng)
      (fun r => r.1.length = num ∧ AllKeyed r.1 ∧ AllFresh dom r.1 ∧
        (∀ c ∈ r.1, c.Complete dom) ∧
        ((r.1.map fun c => confHash c.values).reverse ++ seen).Nodup) (· = .outOfFuel) := by
  suffices h : ∀ (num : ℕ) (ret : List Config) (seen' : List Hash) (rng : ℕ), AllKeyed ret →
      AllFresh dom ret → (∀ c ∈ ret, c.Complete dom) →
        seen' = (ret.map fun c => confHash c.values).reverse ++ seen → seen'.Nodup →
          Meets (genRandConfigs dom draws confHash fuel num seen' ret rng)
            (fun r => r.1.length = ret.length + num ∧ AllKeyed r.1 ∧ AllFresh dom r.1 ∧
              (∀ c ∈ r.1, c.Complete dom) ∧
              ((r.1.map fun c => confHash c.values).reverse ++ seen).Nodup) (· = .outOfFuel) by
    refine (h num [] seen rng (by simp [AllKeyed]) (by simp [AllFresh]) (by simp) rfl hseen).imp ?_
    rintro r ⟨hlen, hrest⟩
    exact ⟨by simpa using hlen, hrest⟩
  intro num
  induction num with
  | zero =>
      rintro ret _ rng hkeyed hfresh hcomplete rfl hnodup
      exact ⟨rfl, hkeyed, hfresh, hcomplete, hnodup⟩
  | succ num ih =>
      rintro ret _ rng hkeyed hfresh hcomplete rfl hnodup
      refine meets_bind (retryRand_complete hrange _ fuel (Config.Fresh.new dom) rng) ?_
      rintro ⟨c, rng'⟩ ⟨hc, hnew, hcfresh, hccomplete⟩
      dsimp only at hc hnew hcfresh hccomplete ⊢
      have hhash : confHash c.hashKey = confHash c.values := congrArg confHash hc
      rw [hhash]
      refine (ih (ret ++ [c]) _ rng' (hkeyed.concat hc) (hfresh.concat hcfresh) ?_ (by simp)
        (List.nodup_cons.mpr ⟨hnew, hnodup⟩)).imp ?_
      · intro x hx
        rcases List.mem_append.mp hx with hx | hx
        · exact hcomplete x hx
        · rwa [List.mem_singleton.mp hx]
      · rintro r ⟨hlen, hrest⟩
        refine ⟨?_, hrest⟩
        rw [hlen, List.length_append, List.length_singleton]
        omega

end Random

/-! ## The initial configurations -/

section Initial

variable {Name Hash : Type} {env : Env Name Hash}

/-- What the completeness of all configurations of a run rests on. -/
structure Env.Regular (env : Env Name Hash) : Prop where
  short : ∀ v ∈ env.dom.vars, v.nValues ≤ 32767
  seeds : ∀ values ∈ env.options.seedConfigs, Config.Complete env.dom { values }
  solver : env.solver.Sound env.dom

theorem Env.Regular.range (h : env.Regular) : ∀ v ∈ env.dom.vars, v.nValues ≤ 32768 :=
  fun v hv => (h.short v hv).trans (by decide)

/-- **`init_configs`**, whatever the options are. -/
theorem Env.initConfigs_made [DecidableEq Hash] (h : env.Regular) :
    Meets env.initConfigs (fun r => AllMade env.dom r.1) fun _ => True := by
  rw [initConfigs]
  split
  · exact meets_bind (genAllConfigs_made h.range) fun configs hconfigs => hconfigs
  · split
    · next num _ =>
        refine (genRandConfigs_more h.range env.randFuel num.toNat List.nodup_nil 0).mono
          (fun r hr => ?_) fun _ _ => trivial
        obtain ⟨-, hkeyed, hfresh, hcomplete, -⟩ := hr
        exact fun c hc => ⟨hfresh c hc, hkeyed c hc, hcomplete c hc⟩
    · refine meets_bind (genOneConveringConfigs_made h.short 0) fun r hcovering => ?_
      refine meets_bind (getSeedConfigs_made h.range h.seeds) fun seeds hseeds c hc => ?_
      exact (List.mem_append.mp hc).elim (hcovering c) (hseeds c)

end Initial

end GenTree

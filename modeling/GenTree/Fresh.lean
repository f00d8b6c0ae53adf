import GenTree.Iter2

/-!
# Generated configurations are fresh

A configuration that is run must not have been registered before: `register_cov`
would otherwise skip its registration.  Every configuration the program makes is
`Config.Fresh`: it has no id, covers nothing yet, and has one value for each
option.  `Config.set` keeps that, and all generators work by `Config.set` on a
new configuration.

Nothing is said about the values here: a seed may leave options open, and a value
above the range of `short` wraps.
-/

namespace GenTree

open Outcome

/-- A configuration nobody has registered yet. -/
structure Config.Fresh (dom : Domain) (c : Config) : Prop where
  id : c.id = none
  covLocs : c.covLocs = []
  length : c.values.length = dom.nVars

namespace Config.Fresh

variable {dom : Domain} {c : Config}

theorem new (dom : Domain) : (Config.new dom).Fresh dom := ⟨rfl, rfl, by simp [Config.new]⟩

theorem touchHash (h : c.Fresh dom) : c.touchHash.Fresh dom := ⟨h.id, h.covLocs, h.length⟩

theorem rehash (h : c.Fresh dom) : c.rehash.Fresh dom := ⟨h.id, h.covLocs, h.length⟩

theorem set (h : c.Fresh dom) (var : ℕ) (value : ℤ) :
    Meets (c.set dom var value) (Config.Fresh dom) fun _ => True := by
  rw [Config.set]
  refine meets_check_bind (fun _ => ?_) fun _ => trivial
  split
  · exact ⟨h.id, h.covLocs, by rw [List.length_set, h.length]⟩
  · trivial

theorem setFrom (h : c.Fresh dom) (var : ℕ) (values : List ℤ) :
    Meets (Config.setFrom dom c var values) (Config.Fresh dom) fun _ => True := by
  induction values generalizing c var with
  | nil => exact h
  | cons v vs ih => exact meets_bind (h.set var v) fun c' hc' => ih hc' (var + 1)

theorem fill (h : c.Fresh dom) (value : ℤ) :
    Meets (c.fill dom value) (Config.Fresh dom) fun _ => True := h.setFrom 0 _

theorem ofValues (dom : Domain) (values : List ℤ) :
    Meets (Config.ofValues dom values) (Config.Fresh dom) fun _ => True := by
  rw [Config.ofValues, Config.setAll]
  exact meets_check_bind (fun _ => (new dom).setFrom 0 values) fun _ => trivial

end Config.Fresh

/-- All configurations of a list are fresh. -/
def AllFresh (dom : Domain) (cs : List Config) : Prop := ∀ c ∈ cs, c.Fresh dom

section Generators

variable {dom : Domain} {draws : ℕ → ℕ}

theorem AllFresh.concat {cs : List Config} {c : Config} (h : AllFresh dom cs)
    (hc : c.Fresh dom) : AllFresh dom (cs ++ [c]) := by
  intro x hx
  rcases List.mem_append.mp hx with hx | hx
  · exact h x hx
  · rwa [List.mem_singleton.mp hx]

theorem AllFresh.append {cs cs' : List Config} (h : AllFresh dom cs) (h' : AllFresh dom cs') :
    AllFresh dom (cs ++ cs') := fun x hx => (List.mem_append.mp hx).elim (h x) (h' x)

/-! ## The generators of a domain -/

theorem genAllFrom_fresh (templ : Config) (vs : List VarDomain) (var : ℕ)
    (p : List ℤ × List Config) (h : AllFresh dom p.2) :
    Meets (genAllFrom dom templ vs var p) (fun r => AllFresh dom r.2) fun _ => True := by
  induction vs generalizing var p with
  | nil => exact meets_bind (Config.Fresh.ofValues dom p.1) fun c hc => h.concat hc
  | cons v vs ih =>
      rw [genAllFrom]
      refine meets_bind_of_eq (fun _ _ => trivial) fun t _ => ?_
      split
      · exact ih _ _ h
      · exact meets_foldlM_const (fun st : List ℤ × List Config => AllFresh dom st.2) _
          (fun (i : ℕ) _ st hst => ih (var + 1) (st.1.set var (toShort i), st.2) hst) h

theorem genAllConfigs_fresh : Meets (genAllConfigs dom) (AllFresh dom) fun _ => True := by
  refine meets_bind ((Config.Fresh.new dom).fill (-1)) fun cfg _ => ?_
  exact meets_bind (genAllFrom_fresh cfg dom.vars 0 _ (by simp [AllFresh])) fun st hst => hst

/-- One pass over the options keeps the configuration fresh. -/
theorem fillRow_fresh (var : ℕ) (ts : List ℤ) (row : Row) (h : row.conf.Fresh dom) :
    Meets (fillRow dom draws var ts row) (fun r => r.conf.Fresh dom) fun _ => True := by
  induction ts generalizing var row with
  | nil => exact h
  | cons t ts ih =>
      rw [fillRow]
      refine meets_bind_of_eq (fun _ _ => trivial) fun st _ => ?_
      split
      · exact meets_bind (h.set var t) fun conf hconf => ih _ _ hconf
      · split
        · refine meets_bind_of_eq (fun _ _ => trivial) fun r _ => ?_
          refine meets_bind_of_eq (fun _ _ => trivial) fun v _ => ?_
          exact meets_bind (h.set var v) fun conf hconf => ih _ _ hconf
        · refine meets_bind_of_eq (fun _ _ => trivial) fun r _ => ?_
          exact meets_bind (h.set var r.1) fun conf hconf => ih _ _ hconf

theorem coverLoop_fresh (templ : Config) (lim : ℤ) (fuel : ℕ) (pools : List (List ℤ))
    (nFinished rng : ℕ) (ret : List Config) (h : AllFresh dom ret) :
    Meets (coverLoop dom draws templ lim fuel pools nFinished rng ret)
      (fun r => AllFresh dom r.1) fun _ => True := by
  induction fuel generalizing pools nFinished rng ret with
  | zero => trivial
  | succ fuel ih =>
      rw [coverLoop]
      split
      · exact meets_bind (fillRow_fresh 0 _ _ (Config.Fresh.new dom))
          fun row hrow => ih _ _ _ _ (h.concat hrow)
      · exact h

theorem genOneConveringConfigs_fresh (rng : ℕ) :
    Meets (genOneConveringConfigs dom draws rng) (fun r => AllFresh dom r.1) fun _ => True := by
  refine meets_bind ((Config.Fresh.new dom).fill (-1)) fun cfg _ => ?_
  rw [genOneConveringConfigsOf]
  refine meets_bind_of_eq (fun _ _ => trivial) fun p _ => ?_
  exact coverLoop_fresh cfg intMax _ _ _ _ _ (by simp [AllFresh])

/-! ## Random and seed configurations -/

theorem fillRand_fresh {c : Config} (h : c.Fresh dom) (rng : ℕ) :
    Meets (fillRand dom draws c rng) (fun r => r.1.Fresh dom) fun _ => True := by
  refine meets_foldlM_const (fun p : Config × ℕ => p.1.Fresh dom) _ (fun var _ p hp => ?_) h
  refine meets_bind_of_eq (fun _ _ => trivial) fun r _ => ?_
  exact meets_bind (hp.set var r.1) fun c' hc' => hc'

section Hash

variable {Hash : Type} [DecidableEq Hash] {confHash : List ℤ → Hash}

theorem retryRand_fresh (seen : List Hash) (fuel : ℕ) (c : Config) (rng : ℕ)
    (h : c.Fresh dom) :
    Meets (retryRand dom draws confHash seen fuel c rng) (fun r => r.1.Fresh dom)
      fun _ => True := by
  induction fuel generalizing c rng with
  | zero => trivial
  | succ fuel ih =>
      refine meets_bind (fillRand_fresh h rng) fun r hr => ?_
      dsimp only
      split
      · exact ih _ _ hr.rehash
      · exact hr.rehash

theorem genRandConfigs_fresh (fuel num : ℕ) (seen : List Hash) (ret : List Config) (rng : ℕ)
    (h : AllFresh dom ret) :
    Meets (genRandConfigs dom draws confHash fuel num seen ret rng)
      (fun r => AllFresh dom r.1) fun _ => True := by
  induction num generalizing seen ret rng with
  | zero => exact h
  | succ num ih =>
      exact meets_bind (retryRand_fresh seen fuel _ rng (Config.Fresh.new dom))
        fun r hr => ih _ _ _ (h.concat hr)

theorem getSeedConfigs_fresh (seeds : List (List ℤ)) :
    Meets (getSeedConfigs dom seeds) (AllFresh dom) fun _ => True := by
  rw [getSeedConfigs]
  induction seeds with
  | nil => simp [AllFresh]
  | cons v vs ih =>
      rw [List.mapM_cons]
      refine meets_bind (Config.Fresh.ofValues dom v) fun c hc => meets_bind ih fun cs hcs => ?_
      exact List.forall_mem_cons.mpr ⟨hc, hcs⟩

/-- **The initial configurations are fresh.** -/
theorem Env.initConfigs_fresh {Name : Type} [DecidableEq Name] (env : Env Name Hash) :
    Meets env.initConfigs (fun r => AllFresh env.dom r.1) fun _ => True := by
  rw [initConfigs]
  split
  · exact meets_bind genAllConfigs_fresh fun cs hcs => hcs
  · split
    · exact genRandConfigs_fresh _ _ _ _ _ (by simp [AllFresh])
    · refine meets_bind (genOneConveringConfigs_fresh 0) fun r hr => ?_
      exact meets_bind (getSeedConfigs_fresh _) fun seeds hseeds => hr.append hseeds

/-! ## The generator of a leaf -/

variable {solver : Solver}

theorem applyModel_fresh {c : Config} (h : c.Fresh dom) (m : ZModel) (vrand : List ℕ) :
    Meets (applyModel dom m vrand c) (Config.Fresh dom) fun _ => True := by
  refine meets_foldlM_const (Config.Fresh dom) _ (fun id _ c hc => ?_) h
  split
  · trivial
  · exact hc.set id _

theorem genPass_fresh (leaf : GenLeaf) (g : Gen Hash) (h : AllFresh dom g.ret) :
    Meets (genPass dom draws solver confHash leaf g) (fun r => AllFresh dom r.ret)
      fun _ => True := by
  rw [genPass]
  refine meets_bind (fillRow_fresh 0 _ _ (Config.Fresh.new dom)) fun row hrow => ?_
  dsimp only
  split
  · exact h.concat hrow.touchHash
  · split
    · refine meets_bind (meets_foldlM_const (Config.Fresh dom) _
        (fun id _ c hc => hc.set id (-1)) hrow.touchHash) fun c hc => ?_
      split
      · exact h
      · refine meets_bind (applyModel_fresh hc _ _) fun c' hc' => ?_
        exact meets_check_bind (fun _ => h.concat hc'.rehash) fun _ => trivial
    · exact h

theorem genLoop_fresh (leaf : GenLeaf) (lim : ℤ) (fuel : ℕ) (g : Gen Hash)
    (h : AllFresh dom g.ret) :
    Meets (genLoop dom draws solver confHash leaf lim fuel g) (fun r => AllFresh dom r.ret)
      fun _ => True := by
  induction fuel generalizing g with
  | zero => trivial
  | succ fuel ih =>
      rw [genLoop]
      split
      · exact meets_bind (genPass_fresh leaf g h) fun g' hg' => ih g' hg'
      · exact h

/-- **The configurations made for a leaf are fresh.** -/
theorem CTree.genOneConveringConfigs_fresh (tree : CTree) (node : NodeRef) (lim : ℤ)
    (rng solverCalls : ℕ) :
    Meets (tree.genOneConveringConfigs dom draws solver confHash node lim rng solverCalls)
      (fun r => AllFresh dom r.1) fun _ => True := by
  rw [CTree.genOneConveringConfigs]
  refine meets_bind ((Config.Fresh.new dom).fill (-1)) fun templ _ => ?_
  refine meets_bind_of_eq (fun _ _ => trivial) fun t _ => ?_
  refine meets_check_bind (fun _ => ?_) fun _ => trivial
  refine meets_bind_of_eq (fun _ _ => trivial) fun p _ => ?_
  exact meets_bind (genLoop_fresh _ lim _ _ (by simp [AllFresh])) fun g hg => hg

end Hash

end Generators

end GenTree

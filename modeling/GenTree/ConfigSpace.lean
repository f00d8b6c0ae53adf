import GenTree.RunOnce
import GenTree.LeafConfigs

/-!
# The configuration space

What the generators store in a configuration are value indices of its options, narrowed
to `short`.  So there are no more configurations to be made than the space has elements,
`Domain::config_space`, even where the narrowing identifies some of them.

* `Narrowed` — every option of the configuration holds a narrowed value index, those in
  a set that is still open apart.
* `CTree.genOneConveringConfigs_inSpace` — the configurations made for a leaf have left
  no option open.
* `RunsTo.tally` — in a run no two registered configurations are equal, and those that
  came after the initial ones are of the space.

Hashes may collide, and seeds may be anything: neither is needed here.
-/

namespace GenTree

open Outcome

/-- The complete value vectors as a configuration stores them.  Where the narrowing identifies
some of them the list has repetitions; it is its length that bounds a run. -/
def Domain.spaceValues (dom : Domain) : List (List ℤ) := (allValues dom.vars).map (List.map toShort)

theorem length_allValues (vs : List VarDomain) :
    (allValues vs).length = (vs.map VarDomain.nValues).prod := by
  induction vs with
  | nil => rfl
  | cons v vs ih => simp [allValues, List.length_flatMap, ih]

theorem Domain.length_spaceValues (dom : Domain) : dom.spaceValues.length = dom.configSpace := by
  rw [spaceValues, List.length_map, length_allValues, configSpace]

/-! ## Narrowed values -/

/-- Every option holds a value index of its own, narrowed to `short`, unless it is one of
those that are still `opened`.  The set is an argument because the loops for a leaf close one
option after the other; with none open the values are of the space (`mem_spaceValues`). -/
def Config.Narrowed (dom : Domain) (opened : ℕ → Prop) (c : Config) : Prop :=
  ∀ var < dom.nVars, ¬ opened var →
    ∃ v : ℕ, v < dom.nValues var ∧ c.values[var]? = some (toShort v)

namespace Config.Narrowed

variable {dom : Domain} {opened opened' : ℕ → Prop} {c : Config}

theorem mono (h : c.Narrowed dom opened) (hle : ∀ var, opened var → opened' var) :
    c.Narrowed dom opened' :=
  fun var hvar hclosed => h var hvar fun ho => hclosed (hle var ho)

/-- Any value may be put into an option that is open. -/
theorem set_opened (h : c.Narrowed dom opened) {id : ℕ} (hid : opened id) (v : ℤ) :
    Meets (c.set dom id v) (Config.Narrowed dom opened) fun _ => True := by
  refine meets_iff_forall_ok.mpr fun c' hc' => ?_
  obtain ⟨-, -, rfl⟩ := Config.set_eq_ok.mp hc'
  intro var hvar hclosed
  have hne : id ≠ var := fun heq => hclosed (heq ▸ hid)
  rw [List.getElem?_set_ne hne]
  exact h var hvar hclosed

/-- A value index closes the option. -/
theorem set_closes (h : c.Narrowed dom opened) {id v : ℕ} (hv : v < dom.nValues id) :
    Meets (c.set dom id v) (Config.Narrowed dom fun var => opened var ∧ var ≠ id)
      fun _ => True := by
  refine meets_iff_forall_ok.mpr fun c' hc' => ?_
  obtain ⟨-, hlt, rfl⟩ := Config.set_eq_ok.mp hc'
  intro var hvar hclosed
  by_cases hid : id = var
  · subst hid
    exact ⟨v, hv, List.getElem?_set_self hlt⟩
  · rw [List.getElem?_set_ne hid]
    exact h var hvar fun ho => hclosed ⟨ho, Ne.symm hid⟩

/-- **Without an open option** the values are of the space. -/
theorem mem_spaceValues (h : c.Narrowed dom fun _ => False) (hlen : c.values.length = dom.nVars) :
    c.values ∈ dom.spaceValues := by
  have hall : ∀ var < dom.nVars, ∃ v : ℕ, v < dom.nValues var ∧ c.values[var]? = some (toShort v) :=
    fun var hvar => h var hvar not_false
  choose! f hlt hget using hall
  refine List.mem_map.mpr ⟨(List.range dom.nVars).map fun var => (f var : ℤ), ?_, ?_⟩
  · have hcomplete : Config.Complete dom { values := (List.range dom.nVars).map fun var => (f var : ℤ) } := by
      refine ⟨by simp, fun var v hv => ?_⟩
      have hvar : var < dom.nVars := by simpa using (List.getElem?_eq_some_iff.mp hv).1
      rw [List.getElem?_map, List.getElem?_range hvar, Option.map_some, Option.some.injEq] at hv
      have := hlt var hvar
      omega
    exact complete_iff_mem_allValues.mp hcomplete
  · refine List.ext_getElem? fun var => ?_
    by_cases hvar : var < dom.nVars
    · rw [hget var hvar, List.map_map, List.getElem?_map, List.getElem?_range hvar,
        Option.map_some, Function.comp_apply]
    · rw [List.getElem?_eq_none (by simpa using hvar), List.getElem?_eq_none (by omega)]

end Config.Narrowed

/-! ## Configurations made for a leaf -/

section Generate

variable {Hash : Type} [DecidableEq Hash] {dom : Domain} {draws : ℕ → ℕ} {solver : Solver}
  {confHash : List ℤ → Hash}

/-- The configurations of a list are of the space. -/
def AllInSpace (dom : Domain) (cs : List Config) : Prop := ∀ c ∈ cs, c.values ∈ dom.spaceValues

theorem AllInSpace.concat {cs : List Config} {c : Config} (h : AllInSpace dom cs)
    (hc : c.values ∈ dom.spaceValues) : AllInSpace dom (cs ++ [c]) := by
  intro x hx
  rcases List.mem_append.mp hx with hx | hx
  · exact h x hx
  · rwa [List.mem_singleton.mp hx]

/-- The invariant of the loop for a leaf: pools hold values of their options, there is one for
each option, and what has been made so far is of the space. -/
structure InSpace (dom : Domain) (g : Gen Hash) : Prop where
  pools : PoolsIn dom g.pools
  length : g.pools.length = dom.nVars
  ret : AllInSpace dom g.ret

theorem leafPools_meets (dom : Domain) (templ : Config) :
    Meets (leafPools dom templ) (fun r => PoolsIn dom r.1 ∧ r.1.length = dom.nVars)
      fun _ => True := by
  rw [leafPools]
  refine (meets_foldlM (fun done (st : List (List ℤ) × ℕ) =>
    PoolsIn dom st.1 ∧ st.1.length = done.length) _ ?_ ⟨?_, rfl⟩).imp ?_
  · rintro done var rest ⟨pools, n⟩ hsplit ⟨hin, hlen⟩
    dsimp only at hin hlen
    -- the loop has come to the option `var`
    have hvar : var = done.length := by
      have hget : (List.range dom.nVars)[done.length]? = some var := by
        rw [hsplit, List.getElem?_append_right (Nat.le_refl _), Nat.sub_self,
          List.getElem?_cons_zero]
      obtain ⟨hlt, heq⟩ := List.getElem?_eq_some_iff.mp hget
      rw [← heq, List.getElem_range]
    have hconcat : ∀ pool : List ℤ, (∀ v ∈ pool, 0 ≤ v ∧ v < dom.nValues var) →
        PoolsIn dom (pools ++ [pool]) ∧ (pools ++ [pool]).length = (done ++ [var]).length := by
      intro pool hpool
      refine ⟨fun j st hst => ?_, by simp [hlen]⟩
      rcases Nat.lt_or_ge j pools.length with hj | hj
      · rw [List.getElem?_append_left hj] at hst
        exact hin j st hst
      · rw [List.getElem?_append_right hj, List.getElem?_singleton] at hst
        split at hst
        · next hzero =>
            obtain rfl := Option.some.inj hst
            obtain rfl : j = var := by omega
            exact hpool
        · cases hst
    refine meets_bind_of_eq (fun _ _ => trivial) fun t _ => ?_
    split
    · exact hconcat _ fun v hv => mem_valuesOf.mp hv
    · exact hconcat [] (by simp)
  · intro j st hst
    simp at hst
  · rintro ⟨pools, n⟩ ⟨hin, hlen⟩
    exact ⟨hin, by simpa using hlen⟩

/-- A pass over the options leaves the pools in order and closes every option. -/
theorem Passed.narrowed {ts : List ℤ} {row row' : Row} (h : Passed dom 0 ts row row')
    (hts : ts.length = dom.nVars) (hpools : PoolsIn dom row.pools)
    (hlen : row.pools.length = dom.nVars) :
    PoolsIn dom row'.pools ∧ row'.conf.Narrowed dom fun _ => False := by
  have hcell : ∀ var < dom.nVars, ∃ t, ts[var]? = some t := fun var hvar =>
    ⟨_, List.getElem?_eq_getElem (hts ▸ hvar)⟩
  refine ⟨fun j st hst => ?_, fun var hvar _ => ?_⟩
  · have hj : j < dom.nVars := by
      rw [← hlen, ← h.pools_length]
      exact (List.getElem?_eq_some_iff.mp hst).1
    obtain ⟨t, ht⟩ := hcell j hj
    obtain ⟨st₀, st', v, hst₀, hdraw, -, hst', -⟩ := h.cell j t ht
    rw [Nat.zero_add] at hst₀ hdraw hst'
    rw [hst] at hst'
    obtain rfl := Option.some.inj hst'
    exact fun w hw => hpools j st₀ hst₀ w (hdraw.subset hw)
  · obtain ⟨t, ht⟩ := hcell var hvar
    obtain ⟨st₀, st', v, hst₀, hdraw, hrange, -, hget⟩ := h.cell var t ht
    rw [Nat.zero_add] at hst₀ hdraw hrange hget
    have hnonneg : 0 ≤ v := by
      cases hdraw with
      | fixed hne => omega
      | drawn _ hperm => exact (hpools var st₀ hst₀ v (hperm.subset (List.mem_cons_self ..))).1
      | any hnn => exact hnn
    exact ⟨v.toNat, by omega, by rw [hget, Int.toNat_of_nonneg hnonneg]⟩

/-- The model closes the options that were opened again. -/
theorem applyModel_narrowed {m : ZModel} {a : ℕ → ℕ} {vrand : List ℕ} {c : Config}
    (hm : ∀ id ∈ vrand, m id = some (a id) ∧ a id < dom.nValues id)
    (hc : c.Narrowed dom (· ∈ vrand)) :
    Meets (applyModel dom m vrand c) (Config.Narrowed dom fun _ => False) fun _ => True := by
  rw [applyModel]
  refine (meets_foldlM (fun done (c : Config) =>
    c.Narrowed dom fun var => var ∈ vrand ∧ var ∉ done) vrand ?_ ?_).imp ?_
  · intro done id rest c hsplit hc
    obtain ⟨hmodel, hlt⟩ := hm id (by rw [hsplit]; simp)
    rw [hmodel]
    refine (hc.set_closes hlt).imp fun c' hc' => hc'.mono ?_
    rintro var ⟨⟨hmem, hdone⟩, hne⟩
    exact ⟨hmem, by simp [hdone, hne]⟩
  · exact hc.mono fun var hvar => ⟨hvar, by simp⟩
  · exact fun c' hc' => hc'.mono fun var hvar => hvar.2 hvar.1

/-- **A pass** makes a configuration of the space, or none. -/
theorem InSpace.genPass (hsound : solver.Sound dom) {leaf : GenLeaf}
    (hleaf : leaf.templ.values.length = dom.nVars) {g : Gen Hash} (h : InSpace dom g) :
    Meets (genPass dom draws solver confHash leaf g) (InSpace dom) fun _ => True := by
  rw [GenTree.genPass]
  refine meets_bind_of_eq (fun _ _ => trivial) fun row hrow => ?_
  have hpass := passed_of_fillRow hrow
  obtain ⟨hpools, hclosed⟩ := hpass.narrowed hleaf h.pools h.length
  have hlen : row.pools.length = dom.nVars := hpass.pools_length.trans h.length
  have hsize : row.conf.values.length = dom.nVars := hpass.length.trans (Config.Fresh.new dom).length
  dsimp only
  split
  · exact ⟨hpools, hlen, h.ret.concat (hclosed.mem_spaceValues hsize)⟩
  · split
    · -- the options without a pool are opened and asked for again
      refine meets_bind (meets_foldlM_const
        (fun c : Config => c.Narrowed dom (· ∈ row.vrand) ∧ c.values.length = dom.nVars)
        row.vrand ?_ ⟨hclosed.mono fun _ hfalse => hfalse.elim, hsize⟩) ?_
      · rintro id hid c ⟨hc, hcsize⟩
        refine (hc.set_opened hid (-1)).and (meets_iff_forall_ok.mpr fun c' hc' => ?_)
        obtain ⟨-, -, rfl⟩ := Config.set_eq_ok.mp hc'
        rwa [List.length_set]
      · rintro c ⟨hc, hcsize⟩
        split
        · exact ⟨hpools, hlen, h.ret⟩
        · next m hm =>
            obtain ⟨a, ha, -⟩ := hsound _ _ _ m hm
            have hids : ∀ id ∈ row.vrand, m id = some (a id) ∧ a id < dom.nValues id := by
              intro id hid
              obtain hmem | ⟨j, rfl, hts, -⟩ := (hpass.vrand id).mp hid
              · cases hmem
              · refine ha _ ?_
                rw [Nat.zero_add, ← hleaf]
                exact (List.getElem?_eq_some_iff.mp hts).1
            have hmodel := (applyModel_narrowed hids hc).and
              (meets_foldlM_const (fun c : Config => c.values.length = dom.nVars) _
                (fun id _ c hc => by
                  split
                  · trivial
                  · refine meets_iff_forall_ok.mpr fun c' hc' => ?_
                    obtain ⟨-, -, rfl⟩ := Config.set_eq_ok.mp hc'
                    rwa [List.length_set]) hcsize)
            refine meets_bind hmodel fun c' hc' => ?_
            refine meets_check_bind (fun _ => ?_) fun _ => trivial
            exact ⟨hpools, hlen, h.ret.concat (hc'.1.mem_spaceValues hc'.2)⟩
    · exact ⟨hpools, hlen, h.ret⟩

theorem InSpace.genLoop (hsound : solver.Sound dom) {leaf : GenLeaf}
    (hleaf : leaf.templ.values.length = dom.nVars) (lim : ℤ) (fuel : ℕ) {g : Gen Hash}
    (h : InSpace dom g) : Meets (genLoop dom draws solver confHash leaf lim fuel g)
      (InSpace dom) fun _ => True := by
  induction fuel generalizing g with
  | zero => trivial
  | succ fuel ih =>
      rw [GenTree.genLoop]
      split
      · exact meets_bind (h.genPass hsound hleaf) fun g' hg' => ih hg'
      · exact h

/-- `gen_tpl` sets options of the template. -/
theorem genTpl_fresh {parents : List NodeData} {nd : NodeData} {templ : Config}
    (h : templ.Fresh dom) : Meets (genTpl dom nd parents templ) (Config.Fresh dom) fun _ => True := by
  induction parents generalizing nd templ with
  | nil => exact meets_check_bind (fun _ => h) fun _ => trivial
  | cons p ps ih =>
      rw [genTpl]
      refine meets_check_bind (fun _ => ?_) fun _ => trivial
      refine meets_check_bind (fun _ => ?_) fun _ => trivial
      refine meets_bind_of_eq (fun _ _ => trivial) fun var _ => ?_
      exact meets_bind (h.set var nd.id) fun c hc => ih hc

/-- **The configurations made for a leaf** are of the space. -/
theorem CTree.genOneConveringConfigs_inSpace (hsound : solver.Sound dom) (tree : CTree)
    (node : NodeRef) (lim : ℤ) (rng solverCalls : ℕ) :
    Meets (tree.genOneConveringConfigs dom draws solver confHash node lim rng solverCalls)
      (fun r => AllInSpace dom r.1) fun _ => True := by
  rw [CTree.genOneConveringConfigs]
  refine meets_bind ((Config.Fresh.new dom).fill (-1)) fun open_ hopen => ?_
  refine meets_bind (genTpl_fresh hopen) fun templ htempl => ?_
  refine meets_check_bind (fun _ => ?_) fun _ => trivial
  refine meets_bind (leafPools_meets dom templ) ?_
  rintro ⟨pools, nFinished⟩ ⟨hpools, hlen⟩
  have hstart : ∀ g : Gen Hash, g.pools = pools → g.ret = [] → InSpace dom g :=
    fun g hg hret => ⟨hg ▸ hpools, hg ▸ hlen, by simp [hret, AllInSpace]⟩
  exact meets_bind ((hstart _ rfl rfl).genLoop hsound htempl.length lim _) fun g hg => hg.ret

end Generate

/-! ## Runs -/

section Tally

variable {Name Hash : Type} [DecidableEq Name] [DecidableEq Hash] {env : Env Name Hash}

omit [DecidableEq Name] in
theorem St.makeCex_inSpace (hsound : env.solver.Sound env.dom) (s : St Name Hash) (tree : CTree)
    (heavy : Bool) : Meets (s.makeCex env tree heavy) (fun r => AllInSpace env.dom r.2)
      fun _ => True := by
  have hrule : CexRule env fun p : St Name Hash × List Config => AllInSpace env.dom p.2 := by
    refine ⟨fun _ _ _ _ h => h, fun p c hc hp => ?_⟩
    obtain ⟨t, node, lim, rng, solverCalls, r, hr, hmem⟩ := hc
    have hspace := (t.genOneConveringConfigs_inSpace hsound node lim rng solverCalls).of_eq_ok hr
    rw [St.addCex]
    dsimp only
    split
    · exact hp
    · exact hp.concat (hspace c hmem)
  exact (hrule.makeCex tree heavy (by simp [AllInSpace])).mono (fun _ h => h) fun _ _ => trivial

omit [DecidableEq Hash] in
/-- Keyed configurations are run under the hashes of their values. -/
theorem Ran.hashes_values {s s' : St Name Hash} {cs : List Config} (h : Ran env s cs s')
    (hkeyed : AllKeyed cs)
    (hran : s.setRanConfHash = (s.cov.configs.map fun c => env.confHash c.values).reverse) :
    s'.setRanConfHash = (s'.cov.configs.map fun c => env.confHash c.values).reverse := by
  have hhashes : (cs.map fun c => env.confHash c.hashKey) = cs.map fun c => env.confHash c.values :=
    List.map_congr_left fun c hc => congrArg env.confHash (hkeyed c hc)
  have hvalues := congrArg (List.map env.confHash) h.values
  rw [List.map_append, List.map_map, List.map_map, List.map_map] at hvalues
  rw [h.hashes, hhashes, hran, ← List.reverse_append]
  exact congrArg List.reverse hvalues.symm

/-- The **tally** of a run that began with `n₀` configurations: the hashes that have been
run are those of the registered configurations, without a repetition, and the later
configurations are of the space.  The initial ones are counted and not described, since seeds
are among them and may be anything. -/
structure Tally (env : Env Name Hash) (n₀ : ℕ) (s : St Name Hash) : Prop where
  ran : s.setRanConfHash = (s.cov.configs.map fun c => env.confHash c.values).reverse
  nodup : s.setRanConfHash.Nodup
  later : ∀ values ∈ (s.cov.configs.map Config.values).drop n₀, values ∈ env.dom.spaceValues

namespace Tally

variable {n₀ : ℕ} {s s' : St Name Hash}

omit [DecidableEq Name] [DecidableEq Hash] in
/-- Only the store and the set matter. -/
theorem of_eq (h : Tally env n₀ s) (hcov : s'.cov = s.cov)
    (hran : s'.setRanConfHash = s.setRanConfHash) : Tally env n₀ s' :=
  ⟨by rw [hran, hcov]; exact h.ran, by rw [hran]; exact h.nodup, by rw [hcov]; exact h.later⟩

omit [DecidableEq Name] [DecidableEq Hash] in
/-- **The space is not exceeded.** -/
theorem nConfigs_le (h : Tally env n₀ s) : s.cov.nConfigs ≤ n₀ + env.dom.configSpace := by
  have hdrop : ((s.cov.configs.map Config.values).drop n₀).Nodup :=
    (nodup_values_of_ran h.ran h.nodup).sublist (List.drop_sublist ..)
  have hle := (hdrop.subperm h.later).length_le
  rw [List.length_drop, List.length_map, env.dom.length_spaceValues] at hle
  show s.cov.configs.length ≤ _
  omega

/-- Keyed configurations of the space are run. -/
theorem runConfigs (h : Tally env n₀ s) (hs : Stocked env s.cov) {cs : List Config}
    (hfresh : AllFresh env.dom cs) (hkeyed : AllKeyed cs) (hspace : AllInSpace env.dom cs) :
    Meets (s.runConfigs env cs) (fun r => Tally env n₀ r.1) fun _ => True := by
  refine (((St.runConfigs_meets hs.valid hfresh).mono (fun _ hr => hr) fun _ _ => trivial).and
    (St.runConfigs_nodup h.nodup cs)).imp ?_
  rintro ⟨s₁, ids⟩ ⟨hran, hnodup⟩
  refine ⟨hran.hashes_values hkeyed h.ran, hnodup, fun values hv => ?_⟩
  · rw [hran.values, List.drop_append, List.mem_append] at hv
    rcases hv with hv | hv
    · exact h.later values hv
    · obtain ⟨c, hc, rfl⟩ := List.mem_map.mp (List.mem_of_mem_drop hv)
      exact hspace c hc

/-- `run_one_loc` keeps the tally. -/
theorem runOneLoc (hsound : env.solver.Sound env.dom) (h : Tally env n₀ s)
    (hs : Stocked env s.cov) (iter j : ℕ) (rebuild heavy : Bool) :
    Meets (s.runOneLoc env iter j rebuild heavy)
      (fun r => Tally env n₀ r.1 ∧ Stocked env r.1.cov) fun _ => True := by
  rw [St.runOneLoc]
  refine meets_bind_of_eq (fun _ _ => trivial) fun d _ => ?_
  refine meets_check_bind (fun _ => ?_) fun _ => trivial
  have hbuild : Meets (if rebuild then s.buildTree env j iter else .ok s)
      (fun s' => Tally env n₀ s' ∧ Stocked env s'.cov) fun _ => True := by
    split
    · refine (St.buildTree_setDat s j iter).mono ?_ fun _ _ => trivial
      rintro s' ⟨d', rfl⟩
      exact ⟨h.of_eq rfl rfl, hs⟩
    · exact ⟨h, hs⟩
  refine meets_bind hbuild fun s₁ hs₁ => ?_
  refine meets_bind_of_eq (fun _ _ => trivial) fun d₁ _ => ?_
  split
  · trivial
  · next tree _ =>
      refine meets_bind (((s₁.makeCex_booked tree heavy).mono (fun _ hr => hr)
        fun _ _ => trivial).and (s₁.makeCex_inSpace hsound tree heavy)) ?_
      rintro ⟨s₂, cex⟩ ⟨⟨⟨hdrew, hfresh⟩, hbooked⟩, hspace⟩
      dsimp only at hdrew hfresh hspace ⊢
      have hcov : s₂.cov = s₁.cov := by rw [hdrew]
      have htally : Tally env n₀ s₂ := hs₁.1.of_eq hcov (by rw [hdrew])
      have hstocked : Stocked env s₂.cov := by rw [hcov]; exact hs₁.2
      split
      · exact ⟨htally, hstocked⟩
      · have hruns := (St.runConfigs_meets hstocked.valid hfresh).mono
          (F := fun _ => True) (fun r hran => hstocked.ran hran hfresh) fun _ _ => trivial
        refine meets_bind ((htally.runConfigs hstocked hfresh hbooked.keyed hspace).and hruns) ?_
        rintro r ⟨htally', hstocked'⟩
        refine meets_bind_of_eq (fun _ _ => trivial) fun t _ => ?_
        exact ⟨htally'.of_eq rfl rfl, hstocked'⟩

/-- So does the loop over `t`. -/
theorem tries (hsound : env.solver.Sound env.dom) (iter j : ℕ) (consecutiveSuccess : ℤ)
    (left : ℕ) (cSuccess : ℤ) (h : Tally env n₀ s) (hs : Stocked env s.cov) :
    Meets (St.tries env iter j consecutiveSuccess left cSuccess s)
      (fun r => Tally env n₀ r.1) fun _ => True := by
  induction left generalizing cSuccess s with
  | zero => exact h
  | succ left ih =>
      rw [St.tries]
      have hread : Tally env n₀ (s.readSignal env) := h.of_eq rfl rfl
      dsimp only
      split
      · exact hread
      · refine meets_bind_of_eq (fun _ _ => trivial) fun d _ => ?_
        refine meets_bind (hread.runOneLoc hsound hs iter j _ _) ?_
        rintro ⟨s₁, ok⟩ ⟨hs₁, hstocked⟩
        refine meets_bind_of_eq (fun _ _ => trivial) fun d₁ _ => ?_
        split
        · split
          · exact hs₁.of_eq rfl rfl
          · exact ih _ (hs₁.of_eq rfl rfl) hstocked
        · exact ih 0 (hs₁.of_eq rfl rfl) hstocked

omit [DecidableEq Name] [DecidableEq Hash] in
theorem enqueueNext (h : Tally env n₀ s) (j : ℕ) :
    Meets (s.enqueueNext env j) (Tally env n₀) fun _ => True := by
  rw [St.enqueueNext]
  refine meets_bind_of_eq (fun _ _ => trivial) fun d _ => ?_
  refine meets_check_bind (fun _ => ?_) fun _ => trivial
  dsimp only
  split
  · exact h.of_eq rfl rfl
  · exact h.of_eq rfl rfl

/-- **A turn keeps the tally.** -/
theorem turn (hsound : env.solver.Sound env.dom) (h : Tally env n₀ s) (hs : Stocked env s.cov)
    (iter j : ℕ) : Meets (s.turn env iter j) (fun r => Tally env n₀ r.1) fun _ => True := by
  rw [St.turn]
  refine meets_bind_of_eq (fun _ _ => trivial) fun d _ => ?_
  refine meets_check_bind (fun _ => ?_) fun _ => trivial
  refine meets_bind (tries hsound iter j _ _ 0 h hs) ?_
  rintro ⟨s₁, ended⟩ hs₁
  cases ended with
  | interrupted => exact hs₁
  | finished => exact meets_bind_of_eq (fun _ _ => trivial) fun d₁ _ => hs₁.of_eq rfl rfl
  | exhausted =>
      refine meets_bind (hs₁.enqueueNext j) fun s₂ hs₂ => hs₂

end Tally

/-- Steps other than a turn run nothing. -/
theorem Stepped.tally (hsound : env.solver.Sound env.dom) {n₀ : ℕ} {x y : Label × St Name Hash}
    (h : Stepped env x y) (hx : Base env x.2) (htally : Tally env n₀ x.2) :
    Tally env n₀ y.2 := by
  have hfinished : ∀ {t : Bool} {iter : ℕ} {s s' : St Name Hash}, Finished env t s iter s' →
      Tally env n₀ s → Tally env n₀ s' := by
    intro t iter s s' hfin hs
    rw [hfin.state]
    exact hs.of_eq rfl rfl
  cases h with
  | start _ => exact htally.of_eq rfl rfl
  | stop | endTurns _ | pick _ | «return» _ | endConfig _ | terminate | enqueueAll | goOn
  | giveUp | brk _ | quiet _ | noSave | done => exact htally.of_eq rfl rfl
  | turn _ hrun => exact (htally.turn hsound hx.stocked _ _).of_eq_ok hrun
  | recheck _ _ hre =>
      cases hre with
      | absent _ => exact htally
      | skipped _ _ => exact htally
      | right _ _ _ _ _ _ _ => exact htally.of_eq rfl rfl
      | wrong _ _ _ _ henq =>
          cases henq with
          | ignored _ _ _ _ _ hstate =>
              subst hstate
              exact htally.of_eq rfl rfl
          | queued _ _ _ _ _ _ hstate =>
              subst hstate
              exact htally.of_eq rfl rfl
  | usr _ hfin => exact (hfinished hfin (htally.of_eq rfl rfl)).of_eq rfl rfl
  | save hfin => exact hfinished hfin htally
  | finish hprep hfin =>
      refine hfinished hfin ?_
      cases hprep with
      | same _ hstate => rwa [hstate]
      | fresh _ hprepare href =>
          obtain ⟨p, -, heq⟩ := bind_eq_ok.mp hprepare
          cases heq
          rw [href.state]
          exact htally.of_eq rfl rfl

/-- The tally when the initial configurations have been run. -/
theorem Env.init_tally (env : Env Name Hash) :
    Meets env.init (fun s₀ => Tally env s₀.cov.nConfigs s₀) fun _ => True := by
  rw [init]
  refine meets_lift_bind (fun _ => trivial) ?_
  rintro ⟨configs, rng⟩ hconfigs
  have hfresh := env.initConfigs_fresh.of_eq_ok hconfigs
  have hkeyed := (env.initConfigs_meets.of_eq_ok hconfigs).1
  dsimp only at hfresh hkeyed ⊢
  have hfresh' : AllFresh env.dom (configs.map Config.touchHash) :=
    List.forall_mem_map.mpr fun c hc => (hfresh c hc).touchHash
  have hkeyed' : AllKeyed (configs.map Config.touchHash) :=
    List.forall_mem_map.mpr fun c hc => (hkeyed c hc).touchHash
  refine meets_bind (((St.runConfigs_meets ⟨[], CoverageStore.valid_empty⟩ hfresh').mono
    (fun _ hran => hran) fun _ _ => trivial).and (St.runConfigs_nodup List.nodup_nil _)) ?_
  rintro ⟨s, ids⟩ ⟨hran, hnodup⟩
  refine ⟨hran.hashes_values hkeyed' rfl, hnodup, fun values hv => ?_⟩
  rw [List.drop_eq_nil_of_le (by simp [CoverageStore.nConfigs])] at hv
  cases hv

/-- **The tally of a run.** -/
theorem RunsTo.tally (hsound : env.solver.Sound env.dom) {s₀ : St Name Hash}
    (hinit : env.init = .ok s₀) {guard : Label × St Name Hash → Prop} {l : Label}
    {s : St Name Hash} (h : RunsTo env guard l s) : Tally env s₀.cov.nConfigs s := by
  refine h.invariant (fun x => Tally env s₀.cov.nConfigs x.2) (fun x y hx htally _ hstep =>
    hstep.tally hsound hx.base htally) fun s₁ hs₁ => ?_
  cases hinit.symm.trans hs₁
  exact env.init_tally.of_eq_ok hinit

end Tally

end GenTree

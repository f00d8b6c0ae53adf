import GenTree.Covering
import GenTree.Cex
import Mathlib.Data.List.Dedup

/-!
# Generated configurations of a leaf

`CNode::gen_one_convering_configs` draws from pools as the function of the domain
does, but a candidate may have been seen before.  Then the solver is asked for
another configuration that keeps what has been drawn and changes only the options
whose pools were empty already.

A candidate is dropped only when it has been seen, so that the configuration it
repeats has the values it has drawn; a repaired candidate keeps them.  So no value
that leaves a pool is lost.

* **What has been seen** is a set of hashes in the source.  The invariant says it in terms of
  values (`Generated.shash`), which takes an injective hash; and it says it of the formulas
  in the scope of the solver as well, since a repaired candidate is only as new as these
  make it (`Generated.scope`).
* **Large leaves.**  With more than a thousand configurations at the leaf the source neither
  puts these into the set nor opens a scope.  Then only repetitions among the generated
  configurations are dropped, and nothing is repaired.  `GenLeaf.useSolver` says which of
  the two it is, and everything about the known configurations is under it, but for the
  values: those count as covered either way.
* **One pass** has three endings, a lemma for each: the candidate is new (`Generated.push`),
  it has been seen and is dropped (`Generated.drop`), or it is repaired (`exists_repaired`)
  and then kept (`Generated.push` again, with fewer options to agree on).
* **From the leaf to the region.**  The generator knows a template only.  That what agrees
  with it is routed to the leaf is a fact about grown trees
  (`CNode.Grown.leafPos_of_matches`): no option is tested twice on a path.
-/

namespace GenTree

open Outcome

/-! ## Formulas of configurations -/

theorem Config.sat_toExpr {c : Config} {a : ℕ → ℕ} : c.toExpr.sat a = true ↔
    ∀ (i : ℕ) (v : ℤ), c.values[i]? = some v → v ≠ -1 → a i = v.toNat := by
  rw [Config.toExpr, ZExpr.sat_mkAnd, List.all_map, List.all_eq_true]
  constructor
  · intro h i v hv hne
    have hmem := h (v, i) (List.mem_zipIdx_iff_getElem?.mpr hv)
    simpa [hne] using hmem
  · rintro h ⟨v, i⟩ hmem
    have hv := List.mem_zipIdx_iff_getElem?.mp hmem
    by_cases hne : v = -1
    · simp [hne]
    · simpa [hne] using h i v hv hne

/-- An assignment that is not excluded differs from the configuration. -/
theorem Config.values_ne_of_excluded {dom : Domain} {c c' : Config} {a : ℕ → ℕ}
    (hc : c.Complete dom) (ha : ∀ i < dom.nVars, a i = c.val i)
    (h : c'.excluded.sat a = true) : c.values ≠ c'.values := by
  intro heq
  rw [Config.excluded, ZExpr.sat_not, Bool.not_eq_true', ← Bool.not_eq_true, Config.sat_toExpr] at h
  refine h fun i v hv _ => ?_
  rw [← heq] at hv
  have hi : i < dom.nVars := by
    rw [← hc.1]
    exact (List.getElem?_eq_some_iff.mp hv).1
  rw [hc.getElem? hi, Option.some.injEq] at hv
  rw [ha i hi, ← hv, Int.toNat_natCast]

section Set

variable {dom : Domain} {c : Config}

/-- Setting several options one after the other. -/
theorem foldlM_set {ids : List ℕ} {f : ℕ → ℤ} (h : ∀ id ∈ ids, id < c.values.length ∧
    (-1 ≤ f id ∧ f id < dom.nValues id) ∧ f id < 32768) :
    ∃ c', ids.foldlM (fun conf id => conf.set dom id (f id)) c = .ok c' ∧
      c' = { c with values := c'.values } ∧ c'.values.length = c.values.length ∧
      ∀ i, c'.values[i]? = if i ∈ ids then some (f i) else c.values[i]? := by
  induction ids generalizing c with
  | nil => exact ⟨c, rfl, rfl, rfl, fun i => by simp⟩
  | cons id ids ih =>
      obtain ⟨hlt, hrange, hshort⟩ := h id (List.mem_cons_self ..)
      have hset : c.set dom id (f id) = .ok { c with values := c.values.set id (f id) } := by
        rw [Config.set_eq_ok, toShort_of_range (by omega) hshort]
        exact ⟨hrange, hlt, rfl⟩
      obtain ⟨c', hrun, hconf, hlen, hget⟩ := @ih { c with values := c.values.set id (f id) }
        fun id' hid' => by
          rw [List.length_set]
          exact h id' (List.mem_cons_of_mem _ hid')
      refine ⟨c', by rw [List.foldlM_cons, hset, ok_bind, hrun], by rw [hconf], ?_, fun i => ?_⟩
      · rw [hlen, List.length_set]
      · rw [hget i]
        by_cases hin : i ∈ ids
        · rw [if_pos hin, if_pos (List.mem_cons_of_mem _ hin)]
        · rw [if_neg hin, List.getElem?_set]
          by_cases hid : id = i
          · subst hid
            rw [if_pos rfl, if_pos hlt, if_pos (List.mem_cons_self ..)]
          · rw [if_neg hid, if_neg]
            rw [List.mem_cons, not_or]
            exact ⟨Ne.symm hid, hin⟩

/-- The values of the model are set one after the other. -/
theorem applyModel_eq {m : ZModel} {a : ℕ → ℕ} {vrand : List ℕ}
    (hm : ∀ id ∈ vrand, m id = some (a id)) (c : Config) : applyModel dom m vrand c =
      vrand.foldlM (fun conf id => conf.set dom id (a id : ℤ)) c := by
  rw [applyModel]
  induction vrand generalizing c with
  | nil => rfl
  | cons id ids ih =>
      rw [List.foldlM_cons, List.foldlM_cons, hm id (List.mem_cons_self ..)]
      show c.set dom id (a id : ℤ) >>= _ = c.set dom id (a id : ℤ) >>= _
      exact bind_congr fun c' => ih (fun id' hid' => hm id' (List.mem_cons_of_mem _ hid')) c'

end Set

/-! ## The invariant of the loop -/

section Loop

variable {Hash : Type} {dom : Domain} {confHash : List ℤ → Hash} {leaf : GenLeaf}
  {k : ℕ} {g g' : Gen Hash}

/-- **The invariant** after `k` passes: what has been generated belongs to the leaf, is new,
and has the values that are neither in a pool nor known.

`covered` is the clause the result needs in the end, when the pools are empty; the others
are there so that a pass can keep it.  A pass need not add a configuration, so `ret_le`
is an inequality: the number of passes, not that of configurations, is what the pools
determine. -/
structure Generated (dom : Domain) (confHash : List ℤ → Hash) (leaf : GenLeaf) (k : ℕ)
    (g : Gen Hash) : Prop extends Pooled dom leaf.templ g.pools g.nFinished k where
  ret_le : g.ret.length ≤ k
  complete : ∀ c ∈ g.ret, c.Complete dom ∧ leaf.templ.Matches dom c
  nodup : (g.ret.map Config.values).Nodup
  fresh : leaf.useSolver = true → ∀ c ∈ g.ret, c.values ∉ leaf.known.map Config.values
  shash : ∀ values, confHash values ∈ g.shash ↔ values ∈ g.ret.map Config.values ∨
    leaf.useSolver = true ∧ values ∈ leaf.known.map Config.values
  scope : ∀ fs, g.z3 = some fs → ∀ f, f ∈ fs ↔ ∃ c ∈ leaf.known ++ g.ret, f = c.excluded
  covered : ∀ var, leaf.templ.values[var]? = some (-1) → ∀ v : ℤ, 0 ≤ v → v < dom.nValues var →
    (∃ st, g.pools[var]? = some st ∧ v ∈ st) ∨
      ∃ c ∈ leaf.known ++ g.ret, c.values[var]? = some v

namespace Generated

variable (hrange : ∀ v ∈ dom.vars, v.nValues ≤ 32768) (htempl : leaf.templ.Template dom) {rng : ℕ}
  {row : Row}
  (hpass : Passed dom 0 leaf.templ.values
    { conf := Config.new dom, pools := g.pools, nFinished := g.nFinished, vrand := [], rng } row)

include hrange htempl hpass

/-- A value that has just been drawn is in the candidate, at an option that had a
pool.

The third case is the one that the ending of the pass has to settle.  It says besides that
the option is not one of `vrand`, since a repair may change exactly the options of `vrand`. -/
theorem covered_row (h : Generated dom confHash leaf k g) {var : ℕ}
    (hopen : leaf.templ.values[var]? = some (-1)) {v : ℤ} (hv : 0 ≤ v) (hlt : v < dom.nValues var) :
    (∃ st, row.pools[var]? = some st ∧ v ∈ st) ∨
      (∃ c ∈ leaf.known ++ g.ret, c.values[var]? = some v) ∨
        var ∉ row.vrand ∧ row.conf.values[var]? = some v := by
  obtain ⟨st, st', w, hst, hcell, -, hst', hval⟩ := h.cell hrange htempl hpass var _ hopen
  rcases h.covered var hopen v hv hlt with ⟨st₀, hst₀, hmem⟩ | hcov
  · rw [hst, Option.some.injEq] at hst₀
    subst hst₀
    cases hcell with
    | fixed hne => exact absurd rfl hne
    | drawn hne hperm =>
        rcases List.mem_cons.mp (hperm.symm.subset hmem) with rfl | hrest
        · refine .inr (.inr ⟨fun hrand => ?_, hval⟩)
          rw [hpass.vrand] at hrand
          rcases hrand with hnil | ⟨j, hj, -, hempty⟩
          · cases hnil
          · exact hne (Option.some.inj (hst.symm.trans hempty))
        · exact .inl ⟨st', hst', hrest⟩
    | any _ => cases hmem
  · exact .inr (.inl hcov)

/-- A candidate is dropped that has been seen before.  Nothing is lost: what it repeats has
its values. -/
theorem drop (h : Generated dom confHash leaf k g)
    (hseen : ∃ c ∈ leaf.known ++ g.ret, c.values = row.conf.values) (hpools : g'.pools = row.pools)
    (hfinished : g'.nFinished = row.nFinished) (hshash : g'.shash = g.shash)
    (hret : g'.ret = g.ret)
    (hscope : ∀ fs, g'.z3 = some fs → ∀ f, f ∈ fs ↔ ∃ c ∈ leaf.known ++ g'.ret, f = c.excluded) :
    Generated dom confHash leaf (k + 1) g' := by
  have hstep := h.toPooled.step htempl hpass
  rw [← hpools, ← hfinished] at hstep
  refine ⟨hstep, ?_, ?_, ?_, ?_, ?_, hscope, fun var hopen v hv hlt => ?_⟩
  · rw [hret]
    exact Nat.le_succ_of_le h.ret_le
  · rw [hret]
    exact h.complete
  · rw [hret]
    exact h.nodup
  · rw [hret]
    exact h.fresh
  · rw [hret, hshash]
    exact h.shash
  · rw [hpools, hret]
    rcases h.covered_row hrange htempl hpass hopen hv hlt with hpool | hcov | ⟨-, hval⟩
    · exact .inl hpool
    · exact .inr hcov
    · obtain ⟨c, hc, heq⟩ := hseen
      exact .inr ⟨c, hc, by rw [heq, hval]⟩

/-- A new configuration is kept that agrees with the candidate wherever there was a
pool.  It is the candidate itself, or what a model has made of it. -/
theorem push (hinj : Function.Injective confHash) (h : Generated dom confHash leaf k g) {c : Config}
    (hc : c.Complete dom ∧ leaf.templ.Matches dom c)
    (hagree : ∀ var, var ∉ row.vrand → c.values[var]? = row.conf.values[var]?)
    (hnew : confHash c.values ∉ g.shash) (hpools : g'.pools = row.pools)
    (hfinished : g'.nFinished = row.nFinished) (hshash : g'.shash = confHash c.values :: g.shash)
    (hret : g'.ret = g.ret ++ [c])
    (hscope : ∀ fs, g'.z3 = some fs → ∀ f, f ∈ fs ↔ ∃ c ∈ leaf.known ++ g'.ret, f = c.excluded) :
    Generated dom confHash leaf (k + 1) g' := by
  have hstep := h.toPooled.step htempl hpass
  rw [← hpools, ← hfinished] at hstep
  rw [h.shash, not_or, not_and] at hnew
  refine ⟨hstep, ?_, fun c' hc' => ?_, ?_, fun hsolver c' hc' => ?_, fun values => ?_, hscope,
    fun var hopen v hv hlt => ?_⟩
  · rw [hret, List.length_append, List.length_singleton]
    exact Nat.succ_le_succ h.ret_le
  · rw [hret, List.mem_append, List.mem_singleton] at hc'
    rcases hc' with hold | rfl
    · exact h.complete c' hold
    · exact hc
  · rw [hret, List.map_append, List.map_singleton]
    exact List.nodup_append.mpr ⟨h.nodup, List.nodup_singleton _, fun a ha b hb => by
      rw [List.mem_singleton.mp hb]
      exact fun heq => hnew.1 (heq ▸ ha)⟩
  · rw [hret, List.mem_append, List.mem_singleton] at hc'
    rcases hc' with hold | rfl
    · exact h.fresh hsolver c' hold
    · exact hnew.2 hsolver
  · rw [hshash, List.mem_cons, hinj.eq_iff, h.shash, hret, List.map_append, List.map_singleton,
      List.mem_append, List.mem_singleton]
    tauto
  · rw [hpools, hret]
    rcases h.covered_row hrange htempl hpass hopen hv hlt with hpool | ⟨c', hc', hval⟩ | ⟨hrand, hval⟩
    · exact .inl hpool
    · exact .inr ⟨c', by rw [← List.append_assoc]; exact List.mem_append_left _ hc', hval⟩
    · exact .inr ⟨c, by simp, by rw [hagree var hrand, hval]⟩

end Generated

/-- The scope after another configuration has been excluded. -/
theorem scope_concat {known ret : List Config} {fs : List ZExpr}
    (h : ∀ f, f ∈ fs ↔ ∃ c ∈ known ++ ret, f = c.excluded) (c : Config) (f : ZExpr) :
    f ∈ fs ++ [c.excluded] ↔ ∃ c' ∈ known ++ (ret ++ [c]), f = c'.excluded := by
  rw [List.mem_append, List.mem_singleton, h, ← List.append_assoc]
  constructor
  · rintro (⟨c', hc', rfl⟩ | rfl)
    · exact ⟨c', List.mem_append_left _ hc', rfl⟩
    · exact ⟨c, by simp, rfl⟩
  · rintro ⟨c', hc', rfl⟩
    rcases List.mem_append.mp hc' with hold | hlast
    · exact .inl ⟨c', hold, rfl⟩
    · exact .inr (by rw [List.mem_singleton.mp hlast])

section Repair

variable {templ conf conf₁ : Config} {vrand : List ℕ}

/-- The options that were drawn from an empty pool are opened again. -/
theorem exists_opened (hconf : conf.Complete dom) (hvrand : ∀ id ∈ vrand, id < dom.nVars) :
    ∃ conf₁, vrand.foldlM (fun conf id => conf.set dom id (-1)) conf = .ok conf₁ ∧
      conf₁.values.length = dom.nVars ∧
      ∀ i, conf₁.values[i]? = if i ∈ vrand then some (-1) else conf.values[i]? := by
  obtain ⟨conf₁, hrun, -, hlen, hget⟩ := @foldlM_set dom conf vrand (fun _ => -1) fun id hid =>
    ⟨by rw [hconf.1]; exact hvrand id hid, by omega, by omega⟩
  exact ⟨conf₁, hrun, hlen.trans hconf.1, hget⟩

/-- **The repaired candidate** takes the values of a model at the options that have been
opened. -/
theorem exists_repaired (hrange : ∀ v ∈ dom.vars, v.nValues ≤ 32768)
    (hconf : conf.Complete dom ∧ templ.Matches dom conf)
    (hvrand : ∀ id ∈ vrand, id < dom.nVars ∧ templ.values[id]? = some (-1))
    (hlen : conf₁.values.length = dom.nVars)
    (hget : ∀ i, conf₁.values[i]? = if i ∈ vrand then some (-1) else conf.values[i]?)
    {m : ZModel} {a : ℕ → ℕ} (hm : ∀ var < dom.nVars, m var = some (a var) ∧ a var < dom.nValues var)
    (hsat : conf₁.toExpr.sat a = true) : ∃ conf₂, applyModel dom m vrand conf₁ = .ok conf₂ ∧
      (conf₂.Complete dom ∧ templ.Matches dom conf₂) ∧ (∀ i < dom.nVars, a i = conf₂.val i) ∧
      ∀ var, var ∉ vrand → conf₂.values[var]? = conf.values[var]? := by
  have hshort : ∀ i < dom.nVars, a i < 32768 := by
    intro i hi
    have hle := hrange _ (List.getElem_mem hi)
    rw [← Domain.nValues_of_getElem? (List.getElem?_eq_getElem hi)] at hle
    have := (hm i hi).2
    omega
  obtain ⟨conf₂, hrun, -, hlen₂, hget₂⟩ := @foldlM_set dom conf₁ vrand (fun i => (a i : ℤ))
    fun id hid => by
      have hlt := (hvrand id hid).1
      have hval := (hm id hlt).2
      have := hshort id hlt
      exact ⟨by rw [hlen]; exact hlt, by omega, by omega⟩
  have hkept : ∀ var, var ∉ vrand → conf₂.values[var]? = conf.values[var]? := fun var hvar => by
    rw [hget₂, if_neg hvar, hget, if_neg hvar]
  -- the assignment has the values of the candidate where it was not opened
  have hvalues : ∀ i < dom.nVars, conf₂.values[i]? = some (a i : ℤ) := by
    intro i hi
    by_cases hmem : i ∈ vrand
    · rw [hget₂, if_pos hmem]
    · have hold := hconf.1.getElem? hi
      have hval := Config.sat_toExpr.mp hsat i (conf.val i) (by rw [hget, if_neg hmem, hold])
        (by omega)
      rw [hkept i hmem, hold, hval, Int.toNat_natCast]
  have hcomplete : conf₂.Complete dom := by
    refine ⟨hlen₂.trans hlen, fun var v hv => ?_⟩
    have hvar := (List.getElem?_eq_some_iff.mp hv).1
    rw [hlen₂, hlen] at hvar
    rw [hvalues var hvar, Option.some.injEq] at hv
    have := (hm var hvar).2
    omega
  refine ⟨conf₂, ?_, ⟨hcomplete, fun var hvar => ?_⟩, fun i hi => ?_, hkept⟩
  · rw [applyModel_eq (fun id hid => (hm id (hvrand id hid).1).1), hrun]
  · by_cases hmem : var ∈ vrand
    · exact .inl (hvrand var hmem).2
    · rw [hkept var hmem]
      exact hconf.2 var hvar
  · have := hvalues i hi
    rw [hcomplete.getElem? hi, Option.some.injEq] at this
    omega

end Repair

/-- **One pass** of the loop ends and keeps the invariant; its check does not fire. -/
theorem Generated.genPass [DecidableEq Hash] {solver : Solver} (h : Generated dom confHash leaf k g)
    (hrange : ∀ v ∈ dom.vars, v.nValues ≤ 32768) (htempl : leaf.templ.Template dom)
    (hinj : Function.Injective confHash) (hsound : solver.Sound dom) (draws : ℕ → ℕ) :
    ∃ g', GenTree.genPass dom draws solver confHash leaf g = .ok g' ∧
      Generated dom confHash leaf (k + 1) g' := by
  obtain ⟨row, hrow⟩ := h.exists_row htempl draws g.rng
  have hpass := passed_of_fillRow hrow
  have hconf := h.complete_row hrange htempl hpass
  have hkey : row.conf.touchHash.hashKey = row.conf.values := by
    rw [hpass.conf]
    rfl
  rw [GenTree.genPass, hrow, ok_bind]
  simp only [hkey]
  by_cases hnew : confHash row.conf.values ∉ g.shash
  · rw [if_pos hnew]
    refine ⟨_, rfl, h.push hrange htempl hpass hinj hconf (c := row.conf.touchHash) (fun _ _ => rfl)
      hnew rfl rfl rfl rfl ?_⟩
    intro fs hfs
    obtain ⟨fs', hfs', rfl⟩ := Option.map_eq_some_iff.mp hfs
    exact scope_concat (h.scope fs' hfs') _
  rw [if_neg hnew]
  rw [not_not] at hnew
  have hseen : ∃ c ∈ leaf.known ++ g.ret, c.values = row.conf.values := by
    rw [h.shash] at hnew
    rcases hnew with hret | ⟨-, hknown⟩
    · obtain ⟨c, hc, heq⟩ := List.mem_map.mp hret
      exact ⟨c, List.mem_append_right _ hc, heq⟩
    · obtain ⟨c, hc, heq⟩ := List.mem_map.mp hknown
      exact ⟨c, List.mem_append_left _ hc, heq⟩
  by_cases hsolver : leaf.useSolver = true
  · rw [if_pos hsolver]
    have hvrand : ∀ id ∈ row.vrand, id < dom.nVars ∧ leaf.templ.values[id]? = some (-1) := by
      intro id hid
      rcases (hpass.vrand id).mp hid with hnil | ⟨j, rfl, hopen, -⟩
      · cases hnil
      · rw [Nat.zero_add]
        exact ⟨by rw [← htempl.1]; exact (List.getElem?_eq_some_iff.mp hopen).1, hopen⟩
    obtain ⟨conf₁, hopened, hlen₁, hget₁⟩ := @exists_opened dom row.conf.touchHash row.vrand
      hconf.1 fun id hid => (hvrand id hid).1
    rw [hopened, ok_bind]
    generalize hscope : g.z3.getD ((leaf.known ++ g.ret).map Config.excluded) = scope
    have hin : ∀ f, f ∈ scope ↔ ∃ c ∈ leaf.known ++ g.ret, f = c.excluded := by
      intro f
      rw [← hscope]
      cases hz3 : g.z3 with
      | none => simp only [Option.getD_none, List.mem_map, eq_comm]
      | some fs => exact h.scope fs hz3 f
    split
    · refine ⟨_, rfl, h.drop hrange htempl hpass hseen rfl rfl rfl rfl fun fs hfs => ?_⟩
      cases hfs
      exact hin
    · next m hm =>
        obtain ⟨a, hmodel, hsat, hall⟩ := hsound _ _ _ m hm
        obtain ⟨conf₂, hrun, hconf₂, hval, hkept⟩ := exists_repaired hrange hconf hvrand hlen₁ hget₁
          hmodel hsat
        have hne : ∀ c ∈ leaf.known ++ g.ret, conf₂.values ≠ c.values := fun c hc =>
          Config.values_ne_of_excluded hconf₂.1 hval (hall _ ((hin _).mpr ⟨c, hc, rfl⟩))
        have hfresh : confHash conf₂.values ∉ g.shash := by
          rw [h.shash]
          rintro (hret | ⟨-, hknown⟩)
          · obtain ⟨c, hc, heq⟩ := List.mem_map.mp hret
            exact hne c (List.mem_append_right _ hc) heq.symm
          · obtain ⟨c, hc, heq⟩ := List.mem_map.mp hknown
            exact hne c (List.mem_append_left _ hc) heq.symm
        rw [hrun, ok_bind]
        have hkey₂ : conf₂.rehash.hashKey = conf₂.values := rfl
        rw [hkey₂, check_pos hfresh, ok_bind]
        refine ⟨_, rfl, h.push hrange htempl hpass hinj (c := conf₂.rehash) hconf₂ hkept hfresh rfl rfl
          rfl rfl fun fs hfs => ?_⟩
        cases hfs
        exact scope_concat hin _
  · rw [if_neg hsolver]
    exact ⟨_, rfl, h.drop hrange htempl hpass hseen rfl rfl rfl rfl h.scope⟩

/-- **The loop ends** with all pools empty. -/
theorem Generated.genLoop [DecidableEq Hash] {solver : Solver} (h : Generated dom confHash leaf k g)
    (hrange : ∀ v ∈ dom.vars, v.nValues ≤ 32768) (htempl : leaf.templ.Template dom)
    (hinj : Function.Injective confHash) (hsound : solver.Sound dom) (draws : ℕ → ℕ) {fuel : ℕ}
    (hk : k ≤ dom.nAllValues) (hfuel : k + fuel = dom.nAllValues + 1) :
    ∃ g' k', GenTree.genLoop dom draws solver confHash leaf intMax fuel g = .ok g' ∧
      Generated dom confHash leaf k' g' ∧ ¬ g'.nFinished < dom.nVars := by
  induction fuel generalizing k g with
  | zero => omega
  | succ fuel ih =>
      rw [GenTree.genLoop]
      by_cases hgo : g.nFinished < dom.nVars
      · -- some option has values left, so the number of passes is small
        obtain ⟨var, hopen, hlt⟩ := (h.finished_lt_iff htempl).mp hgo
        have hvar := (List.getElem?_eq_some_iff.mp hopen).1
        rw [htempl.1] at hvar
        have hall := Domain.nValues_le_nAllValues hvar
        have hshort := hrange _ (List.getElem_mem hvar)
        rw [← Domain.nValues_of_getElem? (List.getElem?_eq_getElem hvar)] at hshort
        have hlim : (g.ret.length : ℤ) < intMax := by
          have := h.ret_le
          unfold intMax
          omega
        obtain ⟨g', hpass, hg'⟩ := h.genPass hrange htempl hinj hsound draws
        rw [if_pos ⟨hgo, hlim⟩, hpass, ok_bind]
        exact ih hg' (by omega) (by omega)
      · rw [if_neg fun hboth => hgo hboth.1]
        exact ⟨g, k, rfl, h, hgo⟩

/-- Before the first pass. -/
theorem generated_zero [DecidableEq Hash] (htempl : leaf.templ.Template dom)
    (hinj : Function.Injective confHash) (hkey : ∀ c ∈ leaf.known, c.hashKey = c.values)
    (rng solverCalls : ℕ) :
    Generated dom confHash leaf 0
      { pools := (List.range dom.nVars).map (poolOf dom leaf.templ)
        nFinished := (List.range dom.nVars).countP fun var => leaf.templ.values[var]? ≠ some (-1)
        shash := if leaf.useSolver then leafHashes confHash leaf.known else []
        rng, solverCalls } := by
  refine ⟨pooled_zero htempl, Nat.le_refl _, by simp, by simp, by simp, fun values => ?_, ?_, ?_⟩
  · have hmem : confHash values ∈ leafHashes confHash leaf.known ↔
        values ∈ leaf.known.map Config.values := by
      simp only [leafHashes, List.mem_dedup, List.mem_map]
      refine exists_congr fun c => and_congr_right fun hc => ?_
      rw [hinj.eq_iff, hkey c hc]
    cases leaf.useSolver with
    | false => simp
    | true => simpa using hmem
  · intro fs hfs
    cases hfs
  · intro var hopen v hv hlt
    have hvar := (List.getElem?_eq_some_iff.mp hopen).1
    rw [htempl.1] at hvar
    refine .inl ⟨poolOf dom leaf.templ var, ?_, ?_⟩
    · rw [List.getElem?_map, List.getElem?_range hvar, Option.map_some]
    · rw [poolOf, if_pos hopen]
      exact mem_valuesOf.mpr ⟨hv, hlt⟩

/-- When all pools are empty, every value is known or generated. -/
theorem Generated.exists_value (h : Generated dom confHash leaf k g)
    (htempl : leaf.templ.Template dom) (hdone : ¬ g.nFinished < dom.nVars) {var v : ℕ}
    (hopen : leaf.templ.values[var]? = some (-1)) (hv : v < dom.nValues var) :
    ∃ c ∈ leaf.known ++ g.ret, c.values[var]? = some (v : ℤ) := by
  rcases h.covered var hopen v (by omega) (by omega) with ⟨st, hst, hmem⟩ | hcov
  · have hne := (h.ne_nil_iff hopen hst).mp (List.ne_nil_of_mem hmem)
    exact absurd ((h.finished_lt_iff htempl).mpr ⟨var, hopen, hne⟩) hdone
  · exact hcov

end Loop

/-! ## The configurations of a leaf -/

namespace Below

variable {dom : Domain} {seen : Set ℕ} {nd : NodeData} {parents : List NodeData}

/-- The options that are tested on the path. -/
theorem mem_iff (h : Below dom seen nd parents) {var : ℕ} :
    var ∈ seen ↔ ∃ p ∈ parents, p.splitvar = var := by
  induction h with
  | root nd => simp
  | @kid seen nd p ps var' above _ hsplit _ _ _ ih =>
      rw [Set.mem_insert_iff, ih, List.exists_mem_cons_iff, hsplit]
      exact or_congr_left (by omega)

/-- The template of a node is a template. -/
theorem template (h : Below dom seen nd parents) :
    Config.Template dom { values := pathTpl dom nd parents } := by
  refine ⟨h.length_pathTpl, fun var t ht => ?_⟩
  rcases h.bounds ht with hopen | ⟨-, hrange⟩
  · exact .inl hopen
  · exact .inr hrange

end Below

namespace CNode

variable {dom : Domain} {n : ℕ} {seen : Set ℕ} {t : CNode}

theorem mem_leafRefs_of_refAt {parents : List NodeData} {pos : List ℕ} {r : NodeRef}
    (h : refAt parents t pos = some r) : r ∈ t.leafRefs parents ∧ r.node.data.isLeaf = true := by
  induction pos generalizing t parents with
  | nil =>
      rw [refAt] at h
      split at h
      · next hleaf =>
          cases h
          obtain ⟨nd, kids⟩ := t
          rw [data_mk] at hleaf
          rw [leafRefs_leaf hleaf]
          exact ⟨List.mem_singleton_self _, hleaf⟩
      · cases h
  | cons i pos ih =>
      rw [refAt] at h
      split at h
      · cases h
      · next hleaf =>
          obtain ⟨k, hk, hr⟩ := Option.bind_eq_some_iff.mp h
          obtain ⟨nd, kids⟩ := t
          rw [data_mk, Bool.not_eq_true] at hleaf
          obtain ⟨hmem, hrleaf⟩ := ih hr
          rw [leafRefs_node hleaf]
          exact ⟨List.mem_flatMap.mpr ⟨k, List.mem_of_getElem? hk, hmem⟩, hrleaf⟩

/-- A configuration in the region of a leaf walks to it. -/
theorem Grown.leafPos_of_matches (h : t.Grown dom n seen) {parents : List NodeData}
    (hbelow : Below dom seen t.data parents) {c : Config} (hc : c.Complete dom) {pos : List ℕ}
    {r : NodeRef} (hat : refAt parents t pos = some r) (hmatch : (r.tpl dom).Matches dom c) :
    t.leafPos c = .ok pos ∧ Config.Matches dom { values := pathTpl dom t.data parents } c := by
  induction h generalizing parents pos with
  | @leaf seen nd hleaf _ _ _ =>
      cases pos with
      | nil =>
          rw [refAt, data_mk, if_pos hleaf] at hat
          cases hat
          exact ⟨leafPos_leaf hleaf, hmatch⟩
      | cons i pos =>
          rw [refAt, data_mk, if_pos hleaf] at hat
          cases hat
  | @node seen nd kids var hleaf hvar hlt hfresh hlen hid _ hgrown ih =>
      rw [data_mk] at hbelow
      cases pos with
      | nil =>
          rw [refAt, data_mk, if_neg (by simp [hleaf])] at hat
          cases hat
      | cons i pos =>
          rw [refAt, data_mk, if_neg (by simp [hleaf]), childs_mk] at hat
          obtain ⟨k, hk, hr⟩ := Option.bind_eq_some_iff.mp hat
          have hmem := List.mem_of_getElem? hk
          obtain ⟨hpos, hkid⟩ := ih k hmem
            (below_kid hbelow hleaf hvar hlt hfresh hlen hid hmem) hr
          obtain ⟨hmatch', hval⟩ := (hbelow.matches_kid hvar hlt hfresh hc).mp hkid
          rw [hid i k hk] at hval
          refine ⟨?_, hmatch'⟩
          rw [leafPos_node hleaf, branch_eq hc hvar hlt, hval, ok_bind, vecAt_of_getElem? hk, ok_bind,
            hpos, ok_bind]

theorem leaves_toTree {β : Type*} (label : NodeData → β) (t : CNode) :
    (t.toTree label).leaves = t.leafData.map label := by
  induction t with
  | mk nd kids ih =>
      cases hleaf : nd.isLeaf with
      | true =>
          rw [toTree_leaf _ hleaf, leafData_leaf hleaf]
          rfl
      | false =>
          rw [toTree_node _ hleaf, leafData_node hleaf, DTree.leaves_node, List.flatMap_map,
            List.map_flatMap]
          exact List.flatMap_congr fun k hk => ih k hk

end CNode

namespace CTree

/-- All configurations of a leaf: hits, misses, and those added since. -/
def leafConfigs (tree : CTree) (nd : NodeData) : List Config :=
  nd.configs.hit.of tree.configs.hit ++ nd.configs.miss.of tree.configs.miss ++ nd.newConfigs

section Known

variable {dom : Domain} {select : Selector} {tree t t' : CTree} {calls : List (Config × Bool)}

theorem testAddAll_configs (h : t.testAddAll calls = .ok t') : t'.configs = t.configs := by
  have hkeep : Meets (t.testAddAll calls) (fun t' => t'.configs = t.configs) fun _ => True := by
    refine meets_foldlM_const (fun s : CTree => s.configs = t.configs) _ (fun p _ s hs => ?_) rfl
    refine meets_bind_of_eq (fun _ _ => trivial) fun r hr => ?_
    obtain ⟨root, -, hr⟩ := bind_eq_ok.mp hr
    obtain ⟨res, -, heq⟩ := bind_eq_ok.mp hr
    cases heq
    exact hs
  exact hkeep.of_eq_ok h

/-- What a leaf knows are training configurations and configurations that have been
added. -/
theorem mem_leafConfigs (hc : ∀ s, ∀ c ∈ tree.configs.get s, c.Complete dom)
    (hbuild : tree.buildTree dom select = .ok t) (hadd : t.testAddAll calls = .ok t')
    {root : CNode} (hroot : t'.root = some root) {nd : NodeData} (hnd : nd ∈ root.leafData)
    {c : Config} (hmem : c ∈ t'.leafConfigs nd) :
    (∃ s, c ∈ tree.configs.get s) ∨ ∃ p ∈ calls, p.1 = c := by
  obtain ⟨root₀, hroot₀, hgrown, hempty⟩ := buildTree_grown hc hbuild
  obtain ⟨⟨root', hroot', -, -, -, hat⟩, -⟩ := (testAddAll_meets hroot₀ hgrown calls).of_eq_ok hadd
  obtain rfl : root' = root := Option.some.inj (hroot'.symm.trans hroot)
  obtain ⟨pos, hpos⟩ := CNode.exists_leafAt_of_mem hnd
  rw [hat, Option.map_eq_some_iff] at hpos
  obtain ⟨nd₀, hnd₀, rfl⟩ := hpos
  have hmem₀ := CNode.mem_leafData_of_leafAt hnd₀
  -- the ranges of the leaf hold the samples it was grown from
  obtain ⟨⟨root₁, hfits⟩, -, -⟩ := (buildTree_meets select hc).of_eq_ok hbuild
  obtain rfl : root₁ = root₀ := Option.some.inj (hfits.root_eq.symm.trans hroot₀)
  have hleaves := hfits.grown.leaves_subset
  rw [CNode.view, CNode.leaves_toTree] at hleaves
  obtain ⟨hmiss, hhit⟩ := hleaves _ (List.mem_map_of_mem hmem₀)
  rw [leafConfigs, testAddAll_configs hadd] at hmem
  simp only [NodeData.addAll, hempty nd₀ hmem₀, List.nil_append, List.mem_append] at hmem
  rcases hmem with (hc' | hc') | hc'
  · exact .inl ⟨true, hhit hc'⟩
  · exact .inl ⟨false, hmiss hc'⟩
  · obtain ⟨p, hp, rfl⟩ := List.mem_map.mp hc'
    exact .inr ⟨p, (List.mem_filter.mp hp).1, rfl⟩

end Known

/-- The configurations `cs` that are generated for the leaf `r` at the position
`pos`.

They are new at leaves of at most a thousand configurations only, which is the bound from
which the source no longer looks at what the leaf holds.  The values are covered by the leaf
and `cs` together: a value that some known configuration has need not come up again. -/
structure CexOf (dom : Domain) (tree : CTree) (root : CNode) (pos : List ℕ) (r : NodeRef)
    (cs : List Config) : Prop where
  complete : ∀ c ∈ cs, c.Complete dom ∧ root.leafPos c = .ok pos ∧
    tree.testConfig c = .ok (r.node.data.leafValue tree.defaultHit, r.node.data.nTotal)
  nodup : (cs.map Config.values).Nodup
  fresh : r.node.data.cases ≤ 1000 →
    ∀ c ∈ cs, c.values ∉ (tree.leafConfigs r.node.data).map Config.values
  covered : ∀ var < dom.nVars, (∀ p ∈ r.parents, p.splitvar ≠ var) → ∀ v < dom.nValues var,
    ∃ c ∈ tree.leafConfigs r.node.data ++ cs, c.values[var]? = some (v : ℤ)

section Generate

variable {Hash : Type} [DecidableEq Hash] {dom : Domain} {select : Selector} {tree t t' : CTree}
  {calls : List (Config × Bool)} {solver : Solver} {confHash : List ℤ → Hash}

/-- The template of a leaf and its pools. -/
theorem leafPools_eq {templ : Config} (htempl : templ.Template dom) :
    leafPools dom templ = .ok ((List.range dom.nVars).map (poolOf dom templ),
      (List.range dom.nVars).countP fun var => templ.values[var]? ≠ some (-1)) :=
  foldlM_pools htempl (fun _ _ => rfl : ∀ var < dom.nVars, Except.ok (valuesOf dom var) = _)

/-- **Counterexamples at a leaf.**  For a leaf of a tree from `build_tree`, after any
calls of `test_add_config`, the generator returns without stopping at a check.  Its
configurations are complete, lead to the leaf, differ from each other and, up to a
thousand configurations at the leaf, from those; and every value of every option that
is not tested on the path is at the leaf or generated. -/
theorem genOneConveringConfigs_covers (hrange : ∀ v ∈ dom.vars, v.nValues ≤ 32768)
    (hc : ∀ s, ∀ c ∈ tree.configs.get s, c.Complete dom ∧ c.hashKey = c.values)
    (hbuild : tree.buildTree dom select = .ok t) (hcalls : ∀ p ∈ calls, p.1.hashKey = p.1.values)
    (hadd : t.testAddAll calls = .ok t') (hinj : Function.Injective confHash)
    (hsound : solver.Sound dom) {root : CNode} (hroot : t'.root = some root) {pos : List ℕ}
    {r : NodeRef} (hat : root.refAt [] pos = some r) (draws : ℕ → ℕ) (rng solverCalls : ℕ) :
    ∃ cs rng' solverCalls', t'.genOneConveringConfigs dom draws solver confHash r intMax rng
        solverCalls = .ok (cs, rng', solverCalls') ∧ t'.CexOf dom root pos r cs := by
  have hcomplete : ∀ s, ∀ c ∈ tree.configs.get s, c.Complete dom := fun s c hmem => (hc s c hmem).1
  obtain ⟨root₀, hroot₀, hgrown₀, -⟩ := buildTree_grown hcomplete hbuild
  obtain ⟨⟨root', hroot', hgrown, -, -, -⟩, -⟩ :=
    (testAddAll_meets hroot₀ hgrown₀ calls).of_eq_ok hadd
  obtain rfl : root' = root := Option.some.inj (hroot'.symm.trans hroot)
  have hvalues : ∀ var, dom.nValues var ≤ 32768 := by
    intro var
    by_cases hvar : var < dom.nVars
    · rw [Domain.nValues_of_getElem? (List.getElem?_eq_getElem hvar)]
      exact hrange _ (List.getElem_mem hvar)
    · rw [Domain.nValues, List.getElem?_eq_none (by unfold Domain.nVars at hvar; omega)]
      exact Nat.zero_le _
  obtain ⟨hmem, hleaf⟩ := CNode.mem_leafRefs_of_refAt hat
  obtain ⟨hdata, hsplit, seen, hbelow, -⟩ := hgrown.below_leafRef (.root _)
    (fun var _ => hvalues var) (fun var _ => hvalues var) hmem
  have htempl := hbelow.template
  have htpl : genTpl dom r.node.data r.parents { values := List.replicate dom.nVars (-1) } =
      .ok { values := pathTpl dom r.node.data r.parents } := by
    rw [hbelow.genTpl_eq (fun var _ => hvalues var) (fun _ => hsplit) (List.length_replicate ..),
      overlay_replicate hbelow.length_pathTpl]
  have hpure : r.node.data.configs.hit.empty = true ∨ r.node.data.configs.miss.empty = true := by
    simpa [NodeData.isLeaf] using hleaf
  have hkey : ∀ c ∈ t'.leafConfigs r.node.data, c.hashKey = c.values := by
    intro c hmemc
    rcases mem_leafConfigs hcomplete hbuild hadd hroot hdata hmemc with ⟨s, hs⟩ | ⟨p, hp, rfl⟩
    · exact (hc s c hs).2
    · exact hcalls p hp
  generalize hsolver : decide (r.node.data.nTotal + r.node.data.newConfigs.length ≤ 1000) =
    useSolver
  have hzero := @generated_zero Hash dom confHash
    ⟨{ values := pathTpl dom r.node.data r.parents }, t'.leafConfigs r.node.data, useSolver⟩ _ htempl
    hinj hkey rng solverCalls
  obtain ⟨g, k, hrun, hg, hdone⟩ := hzero.genLoop hrange htempl hinj hsound draws (Nat.zero_le _)
    (Nat.zero_add _)
  refine ⟨g.ret, g.rng, g.solverCalls, ?_, fun c hmemc => ?_, hg.nodup, fun hcases => ?_, ?_⟩
  · rw [CTree.genOneConveringConfigs, fill_open, ok_bind, htpl, ok_bind, check_pos hpure, ok_bind,
      leafPools_eq htempl, ok_bind]
    simp only [hsolver]
    exact congrArg (· >>= fun g : Gen Hash => .ok (g.ret, g.rng, g.solverCalls)) hrun
  · obtain ⟨hcc, hmatch⟩ := hg.complete c hmemc
    obtain ⟨hpos, -⟩ := hgrown.leafPos_of_matches (.root _) hcc hat hmatch
    obtain ⟨nd, hnd, htest⟩ := CNode.testConfig_of_leafPos (d := t'.defaultHit) hpos
    rw [CNode.leafAt_of_refAt hat, Option.some.injEq] at hnd
    refine ⟨hcc, hpos, ?_⟩
    rw [CTree.testConfig, rootNode, hroot, ok_bind, htest, hnd]
  · exact hg.fresh (by rw [← hsolver]; exact decide_eq_true hcases)
  · intro var hvar huntested v hv
    refine hg.exists_value htempl hdone ?_ hv
    refine hbelow.getElem?_open hvar fun hseen => ?_
    obtain ⟨p, hp, heq⟩ := hbelow.mem_iff.mp hseen
    exact huntested p hp heq

end Generate

/-- A leaf with one training configuration and one that has been added. -/
theorem genOneConveringConfigs_covers_leaf :
    let dom := Domain.switches 2 (by decide)
    let tree : CTree := { configs := ⟨[], [{ values := [0, 0] }]⟩, defaultHit := true }
    let calls : List (Config × Bool) := [({ values := [0, 1] }, true)]
    ∃ t t' root r cs rng' solverCalls', tree.buildTree dom .firstUntested = .ok t ∧
      t.testAddAll calls = .ok t' ∧ root.refAt [] [] = some r ∧
      t'.genOneConveringConfigs dom id (Solver.search dom) id r intMax 0 0 =
        .ok (cs, rng', solverCalls') ∧
      t'.CexOf dom root [] r cs := by
  intro dom tree calls
  have hc : ∀ s, ∀ c ∈ tree.configs.get s, c.Complete dom ∧ c.hashKey = c.values := by decide
  obtain ⟨cs, rng', solverCalls', hrun, hcex⟩ := @genOneConveringConfigs_covers _ _ dom
    .firstUntested tree _ _ calls (Solver.search dom) id (by decide) hc rfl (by decide) rfl
    Function.injective_id (Solver.search_sound dom) _ rfl [] _ rfl id 0 0
  exact ⟨_, _, _, _, cs, rng', solverCalls', rfl, rfl, rfl, hrun, hcex⟩

end CTree

/-! ### An option with too many values -/

section Wide

variable {Hash : Type} [DecidableEq Hash] {dom : Domain} {draws : ℕ → ℕ} {solver : Solver}
  {confHash : List ℤ → Hash} {leaf : GenLeaf}

/-- A pass keeps what has been generated. -/
theorem genPass_keeps_ret (g : Gen Hash) : Meets (genPass dom draws solver confHash leaf g)
    (fun g' => g.ret <+: g'.ret) fun _ => True := by
  rw [genPass]
  refine meets_bind_of_eq (fun _ _ => trivial) fun row _ => ?_
  dsimp only
  split
  · exact List.prefix_append ..
  · split
    · refine meets_bind_of_eq (fun _ _ => trivial) fun conf _ => ?_
      split
      · exact List.prefix_refl _
      · refine meets_bind_of_eq (fun _ _ => trivial) fun conf' _ => ?_
        exact meets_check_bind (fun _ => List.prefix_append ..) fun _ => trivial
    · exact List.prefix_refl _

theorem genLoop_keeps_ret (lim : ℤ) (fuel : ℕ) (g : Gen Hash) :
    Meets (genLoop dom draws solver confHash leaf lim fuel g) (fun g' => g.ret <+: g'.ret)
      fun _ => True := by
  induction fuel generalizing g with
  | zero => trivial
  | succ fuel ih =>
      rw [genLoop]
      split
      · refine meets_bind (genPass_keeps_ret g) fun g' hg' => ?_
        exact (ih g').imp fun g'' hg'' => hg'.trans hg''
      · exact List.prefix_refl _

/-- The first pass draws the last value of the option and stores it in a `short`. -/
theorem fillRow_single {n : ℕ} (hn : 0 < n) (nFinished rng : ℕ) :
    ∃ row, fillRow (.single n hn) (fun _ => n - 1) 0 [-1]
        { conf := Config.new (.single n hn), pools := [valuesOf (.single n hn) 0], nFinished,
          vrand := [], rng } = .ok row ∧
      row.conf = { values := [toShort (n - 1 : ℕ)] } := by
  have hlen : (valuesOf (.single n hn) 0).length = n := by
    rw [valuesOf, List.length_map, List.length_range, Domain.nValues_single]
  have hne : valuesOf (.single n hn) 0 ≠ [] := fun hnil => by
    rw [hnil, List.length_nil] at hlen
    omega
  have hlast : (valuesOf (.single n hn) 0)[n - 1]? = some ((n - 1 : ℕ) : ℤ) := by
    rw [valuesOf, Domain.nValues_single, List.getElem?_map, List.getElem?_range (by omega)]
    rfl
  have hdraw : randBelow (fun _ => n - 1) rng n = .ok (n - 1, rng + 1) := by
    rw [randBelow, if_neg (by omega), Nat.mod_eq_of_lt (by omega)]
  have hset : Config.set (.single n hn) (Config.new (.single n hn)) 0 ((n - 1 : ℕ) : ℤ) =
      .ok { values := [toShort (n - 1 : ℕ)] } := set_single (by omega)
  rw [fillRow, vecAt_of_getElem? (show [valuesOf (.single n hn) 0][0]? = some _ from rfl), ok_bind,
    if_neg (not_not.mpr rfl), if_pos hne, hlen, hdraw, ok_bind]
  simp only [vecAt_of_getElem? hlast, hset, ok_bind]
  exact ⟨_, rfl, rfl⟩

/-- A leaf that leaves an option with too many values open: the first configuration
has a negative value. -/
theorem genOneConveringConfigs_single {n : ℕ} (hn : 0 < n) (hneg : toShort (n - 1 : ℕ) < 0) :
    let dom := Domain.single n hn
    let tree : CTree := { configs := ⟨[], [{ values := [0] }]⟩ }
    ∃ t root r, tree.buildTree dom .firstUntested = .ok t ∧ t.root = some root ∧
      root.refAt [] [] = some r ∧
      ¬ ∃ cs rng' solverCalls', t.genOneConveringConfigs dom (fun _ => n - 1) (Solver.search dom) id r
          intMax 0 0 = .ok (cs, rng', solverCalls') ∧ t.CexOf dom root [] r cs := by
  intro dom tree
  refine ⟨_, _, _, rfl, rfl, rfl, ?_⟩
  rintro ⟨cs, rng', solverCalls', hrun, hcex⟩
  rw [CTree.genOneConveringConfigs, fill_open, ok_bind] at hrun
  obtain ⟨templ, htempl, hrun⟩ := bind_eq_ok.mp hrun
  obtain rfl : templ = { values := [-1] } := (Except.ok.inj htempl).symm
  obtain ⟨-, -, hrun⟩ := bind_eq_ok.mp hrun
  obtain ⟨⟨pools, nFinished⟩, hpools, hrun⟩ := bind_eq_ok.mp hrun
  obtain ⟨rfl, rfl⟩ : pools = [valuesOf dom 0] ∧ nFinished = 0 := by
    have heq := Except.ok.inj hpools
    exact ⟨(congrArg Prod.fst heq).symm, (congrArg Prod.snd heq).symm⟩
  obtain ⟨g, hloop, heq⟩ := bind_eq_ok.mp hrun
  have hgo : (0 : ℤ) < 2147483647 := by decide
  rw [genLoop, if_pos ⟨Nat.zero_lt_one, hgo⟩] at hloop
  obtain ⟨g₁, hpass, hrest⟩ := bind_eq_ok.mp hloop
  obtain ⟨row, hrow, hconf⟩ := fillRow_single hn 0 0
  rw [genPass, hrow, ok_bind] at hpass
  have hkey : row.conf.touchHash.hashKey = [toShort (n - 1 : ℕ)] := by
    rw [hconf]
    rfl
  -- the value of the training configuration is another one
  have hnew : [toShort (n - 1 : ℕ)] ∉ [[(0 : ℤ)]] := by
    rw [List.mem_singleton]
    intro heq
    have := (List.cons.inj heq).1
    omega
  simp only [hkey] at hpass
  rw [if_pos] at hpass
  swap
  · exact hnew
  cases hpass
  have hprefix : [row.conf.touchHash] <+: g.ret := (genLoop_keeps_ret _ _ _).of_eq_ok hrest
  cases heq
  have hmem : row.conf.touchHash ∈ g.ret := hprefix.subset (List.mem_singleton_self _)
  have hrange := (hcex.complete _ hmem).1.2 0 (toShort (n - 1 : ℕ)) (by rw [hconf]; rfl)
  omega

end Wide

/-- The smallest option that has too many values. -/
theorem genOneConveringConfigs_wide :
    let dom := Domain.single 32769 (by decide)
    let tree : CTree := { configs := ⟨[], [{ values := [0] }]⟩ }
    ∃ t root r, tree.buildTree dom .firstUntested = .ok t ∧ t.root = some root ∧
      root.refAt [] [] = some r ∧
      ¬ ∃ cs rng' solverCalls', t.genOneConveringConfigs dom (fun _ => 32768) (Solver.search dom) id r
          intMax 0 0 = .ok (cs, rng', solverCalls') ∧ t.CexOf dom root [] r cs :=
  genOneConveringConfigs_single (by decide) (by decide)

end GenTree

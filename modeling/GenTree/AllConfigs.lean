import GenTree.Fresh

/-!
# All configurations

`gen_all_configs` walks over the options recursively and overwrites one value vector in
place.  What it returns is the list of all complete value vectors (`allValues`), each
once, in the order of a counter with the last option running fastest
(`genAllConfigs_eq`).  The value indices pass through `short`, which changes none of them
as long as no option has more than 32768 values.
-/

namespace GenTree

open Outcome

/-- The complete value vectors of a list of options. -/
def allValues : List VarDomain → List (List ℤ)
  | [] => [[]]
  | v :: vs => (List.range v.nValues).flatMap fun (i : ℕ) =>
      (allValues vs).map fun rest => (i : ℤ) :: rest

/-- `x` is a value index of the option `v`. -/
def VarDomain.Has (v : VarDomain) (x : ℤ) : Prop := 0 ≤ x ∧ x < v.nValues

theorem mem_allValues {vs : List VarDomain} {values : List ℤ} :
    values ∈ allValues vs ↔ List.Forall₂ VarDomain.Has vs values := by
  induction vs generalizing values with
  | nil => simp [allValues]
  | cons v vs ih =>
      simp only [allValues, List.mem_flatMap, List.mem_range, List.mem_map, ih]
      constructor
      · rintro ⟨i, hi, rest, hrest, rfl⟩
        exact .cons ⟨Int.natCast_nonneg i, by exact_mod_cast hi⟩ hrest
      · rintro (_ | @⟨_, x, _, rest, ⟨hnonneg, hlt⟩, hrest⟩)
        refine ⟨x.toNat, by omega, rest, hrest, ?_⟩
        rw [Int.toNat_of_nonneg hnonneg]

theorem nodup_allValues (vs : List VarDomain) : (allValues vs).Nodup := by
  induction vs with
  | nil => simp [allValues]
  | cons v vs ih =>
      rw [allValues, List.nodup_flatMap]
      refine ⟨fun i _ => ih.map fun rest rest' h => (List.cons.inj h).2, ?_⟩
      refine List.nodup_range.imp ?_
      intro i j hne values hi hj
      obtain ⟨rest, -, rfl⟩ := List.mem_map.mp hi
      obtain ⟨rest', -, heq⟩ := List.mem_map.mp hj
      exact hne (by exact_mod_cast (List.cons.inj heq).1.symm)

section Generate

variable {dom : Domain}

/-- The values of a complete configuration. -/
theorem complete_iff_mem_allValues {c : Config} :
    c.Complete dom ↔ c.values ∈ allValues dom.vars := by
  rw [mem_allValues, List.forall₂_iff_get, Config.Complete]
  constructor
  · rintro ⟨hlen, hvalues⟩
    refine ⟨hlen.symm, fun i hi hi' => ?_⟩
    have hin := hvalues i _ (List.getElem?_eq_getElem hi')
    rwa [Domain.nValues_of_getElem? (List.getElem?_eq_getElem hi)] at hin
  · rintro ⟨hlen, hvalues⟩
    refine ⟨hlen.symm, fun i x hx => ?_⟩
    obtain ⟨hi, rfl⟩ := List.getElem?_eq_some_iff.mp hx
    have hi' : i < dom.vars.length := by rwa [hlen]
    rw [Domain.nValues_of_getElem? (List.getElem?_eq_getElem hi')]
    exact hvalues i hi' hi

/-! ## Setting all values -/

/-- The loop of `set_all` behind the values `pre`. -/
theorem setFrom_eq {c : Config} {pre rest values : List ℤ} (hc : c.values = pre ++ rest)
    (hlen : rest.length = values.length)
    (hvalues : ∀ (i : ℕ) (v : ℤ), values[i]? = some v →
      -1 ≤ v ∧ v < dom.nValues (pre.length + i) ∧ v < 32768) :
    Config.setFrom dom c pre.length values = .ok { c with values := pre ++ values } := by
  induction values generalizing c pre rest with
  | nil =>
      rw [List.length_eq_zero_iff.mp hlen] at hc
      rw [Config.setFrom, ← hc]
  | cons v vs ih =>
      cases rest with
      | nil => simp at hlen
      | cons r rs =>
          obtain ⟨hlo, hhi, hshort⟩ := hvalues 0 v rfl
          have hlt : pre.length < c.values.length := by simp [hc]
          have hset : c.set dom pre.length v = .ok { c with values := (pre ++ [v]) ++ rs } := by
            rw [Config.set, check_pos ⟨hlo, hhi⟩, ok_bind, if_pos hlt, toShort_of_range hlo hshort,
              hc, List.set_append_right _ _ (Nat.le_refl _)]
            simp
          have hrest := @ih { c with values := (pre ++ [v]) ++ rs } (pre ++ [v]) rs rfl
            (by simpa using hlen) fun i w hw => by
              have := hvalues (i + 1) w (by simpa using hw)
              rwa [List.length_append, List.length_singleton, Nat.add_assoc, Nat.add_comm 1]
          rw [List.length_append, List.length_singleton] at hrest
          rw [Config.setFrom, hset, ok_bind, hrest]
          simp

/-- The values of a complete configuration are not changed by the conversion to `short`. -/
theorem Config.Complete.short (hrange : ∀ v ∈ dom.vars, v.nValues ≤ 32768)
    {c : Config} (hc : c.Complete dom) : ∀ v ∈ c.values, 0 ≤ v ∧ v < 32768 := by
  intro v hv
  obtain ⟨i, hi⟩ := List.mem_iff_getElem?.mp hv
  obtain ⟨hlo, hhi⟩ := hc.2 i v hi
  have hlt : i < dom.vars.length := by
    rw [← Domain.nVars, ← hc.1]
    exact (List.getElem?_eq_some_iff.mp hi).1
  have hle := hrange _ (List.getElem_mem hlt)
  rw [Domain.nValues, List.getElem?_eq_getElem hlt, Option.map_some, Option.getD_some] at hhi
  omega

/-- A configuration with given values. -/
theorem ofValues_eq (hrange : ∀ v ∈ dom.vars, v.nValues ≤ 32768) {values : List ℤ}
    (h : List.Forall₂ VarDomain.Has dom.vars values) :
    Config.ofValues dom values = .ok { values } := by
  obtain ⟨hlen, hvalues⟩ := complete_iff_mem_allValues.mpr
    (show ({ values } : Config).values ∈ allValues dom.vars from mem_allValues.mpr h)
  have hrun := @setFrom_eq dom (Config.new dom) [] (List.replicate dom.nVars 0) values rfl
    (by rw [List.length_replicate, ← hlen]) fun i v hv => by
      obtain ⟨hnonneg, hlt⟩ := hvalues i v hv
      rw [List.length_nil, Nat.zero_add]
      refine ⟨by omega, hlt, ?_⟩
      have hi : i < dom.vars.length := by
        rw [h.length_eq]
        exact (List.getElem?_eq_some_iff.mp hv).1
      have hle := hrange _ (List.getElem_mem hi)
      rw [Domain.nValues_of_getElem? (List.getElem?_eq_getElem hi)] at hlt
      omega
  rw [Config.ofValues, Config.setAll, check_pos hlen, ok_bind]
  exact hrun

/-- A loop that sets one option after the other to a value that `pick` finds for it. -/
def setEach (dom : Domain) (pick : ℕ → ℕ → Except Abort (ℕ × ℕ)) (c : Config) (rng : ℕ) :
    Except Abort (Config × ℕ) :=
  (List.range dom.nVars).foldlM (fun p var => do
    let (v, rng) ← pick var p.2
    let c ← p.1.set dom var v
    .ok (c, rng)) (c, rng)

/-- **Setting every option**: each gets the value that was found for it, as a `short`.  `J`
is what is known about the random numbers in front of an option. -/
theorem setEach_meets {pick : ℕ → ℕ → Except Abort (ℕ × ℕ)} {P J : ℕ → ℕ → Prop}
    {E : Abort → Prop}
    (hpick : ∀ var < dom.nVars, ∀ rng, J var rng →
      Meets (pick var rng) (fun r => (r.1 < dom.nValues var ∧ P var r.1) ∧ J (var + 1) r.2) E)
    {c : Config} (hlen : c.values.length = dom.nVars) (rng : ℕ) (hrng : J 0 rng) :
    Meets (setEach dom pick c rng)
      (fun r => (∃ f : ℕ → ℕ, (∀ var < dom.nVars, f var < dom.nValues var ∧ P var (f var)) ∧
        r.1 = { c with values := (List.range dom.nVars).map fun var => toShort (f var) }) ∧
        J dom.nVars r.2) E := by
  let I : List ℕ → Config × ℕ → Prop := fun done r =>
    (∃ f : ℕ → ℕ, (∀ var ∈ done, f var < dom.nValues var ∧ P var (f var)) ∧
      r.1 = { c with values := done.map (fun var => toShort (f var)) ++ c.values.drop done.length }) ∧
    J done.length r.2
  have hloop : Meets (setEach dom pick c rng) (I (List.range dom.nVars)) E := by
    refine meets_foldlM I _ ?_ ⟨⟨fun _ => 0, by simp, by simp⟩, hrng⟩
    rintro done var rest ⟨c', rng'⟩ hxs ⟨⟨f, hf, rfl⟩, hJ⟩
    -- the options that have been set are those in front of `var`
    obtain ⟨rfl, hvar⟩ : done.length = var ∧ var < dom.nVars := by
      have hget : (List.range dom.nVars)[done.length]? = some var := by rw [hxs]; simp
      obtain ⟨hlt, heq⟩ := List.getElem?_eq_some_iff.mp hget
      rw [List.getElem_range] at heq
      rw [List.length_range] at hlt
      exact ⟨heq, heq ▸ hlt⟩
    have hnew : done.length ∉ done := by
      have hnodup : (done ++ done.length :: rest).Nodup := hxs ▸ List.nodup_range
      exact fun hmem => (List.nodup_append.mp hnodup).2.2 _ hmem _ (List.mem_cons_self ..) rfl
    refine meets_bind (hpick _ hvar rng' hJ) ?_
    rintro ⟨v, rng''⟩ ⟨⟨hv, hP⟩, hJ'⟩
    have hrange : -1 ≤ (v : ℤ) ∧ (v : ℤ) < dom.nValues done.length := ⟨by omega, by exact_mod_cast hv⟩
    have hset : ∀ pre : List ℤ, pre.length = done.length →
        Config.set dom { c with values := pre ++ c.values.drop done.length } done.length v =
          .ok { c with values := pre ++ toShort v :: c.values.drop (done.length + 1) } := by
      intro pre hpre
      have hdrop : c.values.drop done.length =
          c.values.get ⟨done.length, by omega⟩ :: c.values.drop (done.length + 1) :=
        List.drop_eq_getElem_cons (by omega)
      rw [Config.set, check_pos hrange, ok_bind, if_pos (by simp; omega), hdrop,
        List.set_append_right _ _ (Nat.le_of_eq hpre), hpre, Nat.sub_self, List.set_cons_zero]
    dsimp only
    rw [hset _ (List.length_map _), ok_bind]
    refine ⟨⟨Function.update f done.length v, ?_, ?_⟩, by simpa using hJ'⟩
    · intro i hi
      rcases List.mem_append.mp hi with hi | hi
      · rw [Function.update_of_ne (ne_of_mem_of_not_mem hi hnew)]
        exact hf i hi
      · rw [List.mem_singleton.mp hi, Function.update_self]
        exact ⟨hv, hP⟩
    · have hmap : done.map (fun i => toShort (Function.update f done.length v i : ℕ)) =
          done.map fun i => toShort (f i) := by
        refine List.map_congr_left fun i hi => ?_
        rw [Function.update_of_ne (ne_of_mem_of_not_mem hi hnew)]
      simp only [List.map_append, hmap, List.map_singleton, Function.update_self,
        List.length_append, List.length_singleton, List.append_assoc, List.singleton_append]
  refine hloop.imp ?_
  rintro ⟨c', rng'⟩ ⟨⟨f, hf, rfl⟩, hJ⟩
  refine ⟨⟨f, fun var hvar => hf var (List.mem_range.mpr hvar), ?_⟩, by simpa using hJ⟩
  simp [hlen]

/-- A configuration set to values of the options is complete, if they fit a `short`. -/
theorem complete_of_setEach (hrange : ∀ v ∈ dom.vars, v.nValues ≤ 32768) {f : ℕ → ℕ}
    (hf : ∀ var < dom.nVars, f var < dom.nValues var) :
    let c : Config := { values := (List.range dom.nVars).map fun var => toShort (f var) }
    c.Complete dom ∧ ∀ var < dom.nVars, c.val var = f var := by
  have hshort : ∀ var < dom.nVars, toShort (f var) = f var := by
    intro var hvar
    have hle := hrange _ (List.getElem_mem hvar)
    rw [← Domain.nValues_of_getElem? (List.getElem?_eq_getElem hvar)] at hle
    have hlt := hf var hvar
    exact toShort_of_range (by omega) (by omega)
  have hget : ∀ var < dom.nVars,
      ((List.range dom.nVars).map fun var => toShort (f var))[var]? = some (f var : ℤ) := by
    intro var hvar
    rw [List.getElem?_map, List.getElem?_range hvar, Option.map_some, hshort var hvar]
  refine ⟨⟨by simp, fun var v hv => ?_⟩, fun var hvar => ?_⟩
  · have hvar : var < dom.nVars := by
      simpa using (List.getElem?_eq_some_iff.mp hv).1
    rw [hget var hvar, Option.some.injEq] at hv
    have hlt := hf var hvar
    omega
  · rw [Config.val, hget var hvar, Option.getD_some, Int.toNat_natCast]

/-- `fillRand` sets all options, and takes one random number for each. -/
theorem fillRand_eq (dom : Domain) (draws : ℕ → ℕ) {c : Config}
    (hlen : c.values.length = dom.nVars) (rng : ℕ) :
    ∃ f : ℕ → ℕ, (∀ var < dom.nVars, f var < dom.nValues var ∧
        f var = draws (rng + var) % dom.nValues var) ∧
      fillRand dom draws c rng =
        .ok ({ c with values := (List.range dom.nVars).map fun var => toShort (f var) },
          rng + dom.nVars) := by
  have hpick : ∀ var < dom.nVars, ∀ rng', rng' = rng + var →
      Meets (randBelow draws rng' (dom.nValues var))
        (fun r => (r.1 < dom.nValues var ∧ r.1 = draws (rng + var) % dom.nValues var) ∧
          r.2 = rng + (var + 1)) fun _ => False := by
    rintro var hvar rng' rfl
    have hpos := dom.nValues_pos hvar
    rw [randBelow, if_neg (by omega)]
    exact ⟨⟨Nat.mod_lt _ hpos, rfl⟩, rfl⟩
  obtain ⟨⟨c', rng'⟩, hrun, ⟨f, hf, rfl⟩, rfl⟩ :=
    (setEach_meets (P := fun var x => x = draws (rng + var) % dom.nValues var)
      (J := fun var rng' => rng' = rng + var) hpick hlen rng rfl).exists_ok
  exact ⟨f, hf, hrun⟩

/-- The template of `gen_all_configs()` leaves every option open. -/
theorem fill_open :
    (Config.new dom).fill dom (-1) = .ok { values := List.replicate dom.nVars (-1) } := by
  have hrun := @setFrom_eq dom (Config.new dom) [] (List.replicate dom.nVars 0)
    (List.replicate dom.nVars (-1)) rfl (by simp) fun i v hv => by
      rw [List.getElem?_replicate] at hv
      split at hv
      · cases hv
        omega
      · cases hv
  exact hrun

/-! ## The recursion -/

/-- The options of a template: each is left open or has one of its values. -/
def VarDomain.Fits (v : VarDomain) (t : ℤ) : Prop := t = -1 ∨ v.Has t

/-- The values that a template leaves to an option. -/
def VarDomain.choices (v : VarDomain) (t : ℤ) : List ℤ :=
  if t = -1 then (List.range v.nValues).map fun i : ℕ => (i : ℤ) else [t]

/-- The complete value vectors of a list of options that agree with a template. -/
def templValues : List VarDomain → List ℤ → List (List ℤ)
  | v :: vs, t :: ts => (v.choices t).flatMap fun x => (templValues vs ts).map (x :: ·)
  | _, _ => [[]]

theorem templValues_open (vs : List VarDomain) :
    templValues vs (List.replicate vs.length (-1)) = allValues vs := by
  induction vs with
  | nil => rfl
  | cons v vs ih =>
      rw [List.length_cons, List.replicate_succ, templValues, ih, allValues, VarDomain.choices,
        if_pos rfl, List.flatMap_map]

/-- One value more is put behind the values `pre`. -/
theorem set_behind {pre : List ℤ} {r x : ℤ} {rs : List ℤ} :
    (pre ++ r :: rs).set pre.length x = (pre ++ [x]) ++ rs := by
  rw [List.set_append_right _ _ (Nat.le_refl _)]
  simp

/-- **The recursion of `gen_all_configs`** behind the options `done`, whose values are
`pre`: one configuration for each way to go on, and the vector still begins with
`pre`. -/
theorem genAllFrom_meets (hrange : ∀ v ∈ dom.vars, v.nValues ≤ 32768) {templ : Config}
    {done vs : List VarDomain} {past ts : List ℤ} (htempl : templ.values = past ++ ts)
    (hfits : List.Forall₂ VarDomain.Fits vs ts) (hvars : dom.vars = done ++ vs) {pre rest : List ℤ}
    (hpast : past.length = pre.length) (hpre : List.Forall₂ VarDomain.Has done pre)
    (hrest : rest.length = vs.length) (configs : List Config) :
    Meets (genAllFrom dom templ vs pre.length (pre ++ rest, configs))
      (fun st => (∃ rest', rest'.length = vs.length ∧ st.1 = pre ++ rest') ∧
        st.2 = configs ++ (templValues vs ts).map fun values => { values := pre ++ values })
      fun _ => False := by
  induction hfits generalizing done past pre rest configs with
  | nil =>
      obtain rfl := List.length_eq_zero_iff.mp hrest
      rw [List.append_nil] at hvars
      rw [← hvars] at hpre
      rw [genAllFrom, List.append_nil, ofValues_eq hrange hpre]
      exact ⟨⟨[], rfl, by simp⟩, by simp [templValues]⟩
  | @cons v t vs ts hfit _ ih =>
      have hget : templ.get pre.length = .ok t := by
        apply vecAt_of_getElem?
        rw [htempl, ← hpast]
        simp
      -- one value of the option, and then the rest of the options
      have hstep : ∀ (x : ℤ) (r : List ℤ) (cs : List Config), v.Has x →
          r.length = (v :: vs).length →
          Meets (genAllFrom dom templ vs (pre.length + 1) ((pre ++ r).set pre.length x, cs))
            (fun st => (∃ rest', rest'.length = (v :: vs).length ∧ st.1 = pre ++ rest') ∧
              st.2 = cs ++ ((templValues vs ts).map (x :: ·)).map fun values =>
                { values := pre ++ values })
            fun _ => False := by
        intro x r cs hx hr
        obtain ⟨r₀, rs, rfl⟩ := List.exists_cons_of_length_eq_add_one hr
        have hnext := @ih (done ++ [v]) (past ++ [t]) (by rw [htempl]; simp)
          (by rw [hvars]; simp) (pre ++ [x]) rs (by simp [hpast])
          (List.rel_append hpre (.cons hx .nil)) (by simpa using hr) cs
        rw [List.length_append, List.length_singleton] at hnext
        rw [set_behind]
        refine hnext.imp fun st hst => ?_
        obtain ⟨⟨rs', hrs', hst₁⟩, hst₂⟩ := hst
        exact ⟨⟨x :: rs', by simp [hrs'], by simp [hst₁]⟩, by rw [hst₂]; simp⟩
      rw [genAllFrom, hget, ok_bind]
      by_cases ht : t = -1
      · subst ht
        rw [if_neg (by simp), templValues, VarDomain.choices, if_pos rfl]
        refine (meets_foldlM (fun (is : List ℕ) (st : List ℤ × List Config) =>
          (∃ r, r.length = (v :: vs).length ∧ st.1 = pre ++ r) ∧
            st.2 = configs ++ (is.flatMap fun (i : ℕ) => (templValues vs ts).map
              ((i : ℤ) :: ·)).map fun values => { values := pre ++ values })
          (List.range v.nValues) ?_ ⟨⟨rest, hrest, rfl⟩, by simp⟩).imp fun st hst => ?_
        · rintro is i is' ⟨values, cs⟩ hsplit ⟨⟨r, hr, hvalues⟩, hcs⟩
          have hi : i < v.nValues := List.mem_range.mp (by rw [hsplit]; simp)
          have hle := hrange v (by rw [hvars]; simp)
          dsimp only at hvalues hcs ⊢
          rw [hvalues, toShort_of_range (by omega) (by omega)]
          refine (hstep i r cs ⟨by omega, by omega⟩ hr).imp fun st hst => ⟨hst.1, ?_⟩
          rw [hst.2, hcs, List.flatMap_append, List.map_append, List.append_assoc]
          simp
        · refine ⟨hst.1, ?_⟩
          rw [hst.2, List.flatMap_map]
      · have hx : v.Has t := hfit.resolve_left ht
        rw [if_pos ht, templValues, VarDomain.choices, if_neg ht]
        refine (hstep t rest configs hx hrest).imp fun st hst => ⟨hst.1, ?_⟩
        rw [hst.2, List.flatMap_cons, List.flatMap_nil, List.append_nil]

/-- **`gen_all_configs(templ)`** returns the complete configurations that agree with the
template, each once. -/
theorem genAllConfigsOf_eq (hrange : ∀ v ∈ dom.vars, v.nValues ≤ 32768) {templ : Config}
    (hfits : List.Forall₂ VarDomain.Fits dom.vars templ.values) :
    genAllConfigsOf dom templ =
      .ok ((templValues dom.vars templ.values).map fun values => { values }) := by
  have hmeets := @genAllFrom_meets _ hrange templ [] dom.vars [] templ.values rfl hfits rfl []
    (List.replicate dom.nVars 0) rfl .nil (by simp [Domain.nVars]) []
  obtain ⟨st, hrun, -, hconfigs⟩ := hmeets.exists_ok
  rw [List.length_nil, List.nil_append] at hrun
  rw [genAllConfigsOf, hrun, ok_bind, hconfigs]
  simp

/-- **`gen_all_configs`** returns every complete configuration once. -/
theorem genAllConfigs_eq (hrange : ∀ v ∈ dom.vars, v.nValues ≤ 32768) :
    genAllConfigs dom = .ok ((allValues dom.vars).map fun values => { values }) := by
  have hfits : List.Forall₂ VarDomain.Fits dom.vars (List.replicate dom.nVars (-1)) := by
    rw [List.forall₂_iff_get]
    refine ⟨by simp [Domain.nVars], fun i _ _ => .inl ?_⟩
    simp
  have hopen : (Config.new dom).fill dom (-1) = _ := fill_open
  rw [genAllConfigs, hopen, ok_bind, genAllConfigsOf_eq hrange hfits]
  dsimp only
  rw [Domain.nVars, templValues_open]

end Generate

/-! ## A solver -/

/-- The solver is **sound**: a model gives each variable a value of its option and
satisfies the assumption and what has been asserted. -/
def Solver.Sound (dom : Domain) (solver : Solver) : Prop :=
  ∀ k asserted e m, solver k asserted e = some m → ∃ a : ℕ → ℕ,
    (∀ var < dom.nVars, m var = some (a var) ∧ a var < dom.nValues var) ∧
      e.sat a = true ∧ ∀ f ∈ asserted, f.sat a = true

/-- The solver that tries all assignments. -/
def Solver.search (dom : Domain) : Solver := fun _ asserted e =>
  ((allValues dom.vars).find? fun values =>
    (e :: asserted).all (ZExpr.sat (Config.val { values }))).map fun values i =>
      some (Config.val { values } i)

theorem Solver.search_sound (dom : Domain) : (Solver.search dom).Sound dom := by
  intro k asserted e m h
  obtain ⟨values, hfind, rfl⟩ := Option.map_eq_some_iff.mp h
  have hcomplete : Config.Complete dom { values } :=
    complete_iff_mem_allValues.mpr (List.mem_of_find?_eq_some hfind)
  have hfound := List.find?_some hfind
  have hall := List.all_eq_true.mp hfound
  exact ⟨Config.val { values }, fun var hvar => ⟨rfl, hcomplete.val_lt hvar⟩,
    hall e (List.mem_cons_self ..), fun f hf => hall f (List.mem_cons_of_mem _ hf)⟩

end GenTree

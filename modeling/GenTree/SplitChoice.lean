import GenTree.CTree
import GenTree.Library.BestScan
import Mathlib.Algebra.Order.Field.Basic
import Mathlib.Data.List.OfFn
import Mathlib.Logic.Equiv.Basic
import Mathlib.Tactic.Linarith

/-!
# The choice of a split variable

`calc_inf_gain` fills two tables with a number for each option, the information `info`
and the gain of a split, and sets a threshold for the gain from the options that are
*possible*.  `select_best_var` then scans the options for the best gain ratio.  The
tables are arguments here, with numbers from any ordered field; what the code writes as
`NaN` is `none`.

The number of values of an option enters twice.  An option with at least
`0.3 * (n + 1)` values is *many-valued*, and the flag `multi_val_` says whether such
options are possible; it is the result of a loop that keeps only the test of the last
option (`multiVal_exact_iff`).  And among near-tied ratios fewer values win.  A third
criterion was meant to decide between equal numbers of values, but compares the gain of
an option with itself (`selectBestVar_eq_iff`).
-/

namespace GenTree

open BestScan

variable {K : Type*} [Field K] [LinearOrder K]

/-- `t_info` and `t_gain`: a number for each option. -/
structure InfGain (K : Type*) where
  info : ℕ → K
  gain : ℕ → K

/-- `Epsilon`. -/
def epsilon : K := 1 / 10000

/-- `igen::log2`, from `std::log2`. -/
def igenLog2 (stdLog2 : K → K) (v : K) : K := if v ≤ 0 then 0 else stdLog2 v

/-- The test of `calc_inf_gain` for an option to be possible. -/
def IsPossible (dom : Domain) (params : SplitParams) (t : InfGain K) (var : ℕ) : Prop :=
  epsilon ≤ t.gain var ∧ (params.multiVal = true ∨
    (dom.nValues var : K) < 3 / 10 * ((params.nCases : K) + 1))

instance (dom : Domain) (params : SplitParams) (t : InfGain K) (var : ℕ) :
    Decidable (IsPossible dom params t var) :=
  inferInstanceAs (Decidable (_ ∧ _))

/-- The last loop of `calc_inf_gain`: `avgain`, still a sum, and `possible`. -/
def possibleScan (dom : Domain) (params : SplitParams) (tested : List Bool)
    (t : InfGain K) : K × ℕ :=
  (List.range dom.nVars).foldl
    (fun st var =>
      if tested[var]? ≠ some false then st
      else if IsPossible dom params t var then (st.1 + t.gain var, st.2 + 1)
      else st)
    (0, 0)

/-- `mingain`.  Without a possible option the mean is `0 / 0`, and so the threshold is
`NaN`. -/
def mingain (dom : Domain) (stdLog2 : K → K) (params : SplitParams) (tested : List Bool)
    (t : InfGain K) (nTotal : ℕ) : Option K :=
  let (avgain, possible) := possibleScan dom params tested t
  let mdl := igenLog2 stdLog2 (possible : K) / (nTotal : K)
  if possible = 0 then none
  else some (avgain / possible * (params.avgainWt : K) + mdl * (params.mdlWt : K))

/-- `x < y` for a `y` that may be `NaN`. -/
def ltNaN (x : K) (y : Option K) : Bool := y.any fun y => decide (x < y)

/-- The gain ratio of an option that the pass of `select_best_var` does not skip. -/
def ratio (t : InfGain K) (mingain : Option K) (firstPass : Bool) (var : ℕ) : Option K :=
  let inf := t.info var
  if firstPass then
    if ltNaN (t.gain var) (mingain.map fun m => 999 / 1000 * m) || decide (inf ≤ 0) then none
    else some (t.gain var / inf)
  else
    some (t.gain var / if inf ≤ 0 then epsilon else inf)

/-- `splitvar`, `bestratio` and `bestnbr`. -/
structure Best (K : Type*) where
  splitvar : ℤ
  bestratio : K
  bestnbr : ℕ

/-- Before the loop of `select_best_var`. -/
def Best.start (dom : Domain) : Best K := ⟨-1, -1000, dom.nAllValues⟩

/-- One pass of the loop of `select_best_var` around its third criterion: `larger best
var` decides between near-tied options with the same number of values. -/
def bestStep (larger : Best K → ℕ → Prop) [∀ b v, Decidable (larger b v)] (dom : Domain)
    (tested : List Bool) (t : InfGain K) (mingain : Option K) (firstPass : Bool)
    (best : Best K) (var : ℕ) : Best K :=
  if tested[var]? ≠ some false then best
  else
    match ratio t mingain firstPass var with
    | none => best
    | some val =>
        let nbr := dom.nValues var
        if best.bestratio < val ∨ (999 / 1000 * best.bestratio < val ∧
            (nbr < best.bestnbr ∨ (nbr = best.bestnbr ∧ larger best var))) then
          ⟨var, val, nbr⟩
        else best

/-- The loop of `select_best_var`. -/
def bestLoop (larger : Best K → ℕ → Prop) [∀ b v, Decidable (larger b v)] (dom : Domain)
    (tested : List Bool) (t : InfGain K) (mingain : Option K) (firstPass : Bool) : Best K :=
  (List.range dom.nVars).foldl (bestStep larger dom tested t mingain firstPass) (.start dom)

/-- `select_best_var`: the third criterion is `gain[var] > gain[var]`. -/
def selectBestVar (dom : Domain) (tested : List Bool) (t : InfGain K) (mingain : Option K)
    (firstPass : Bool) : ℤ :=
  (bestLoop (fun _ var => t.gain var < t.gain var) dom tested t mingain firstPass).splitvar

/-- The scan of C5.0: the third criterion compares the gain with that of the current
best. -/
def c50BestVar (dom : Domain) (tested : List Bool) (t : InfGain K) (mingain : Option K)
    (firstPass : Bool) : ℤ :=
  (bestLoop (fun best var => t.gain best.splitvar.toNat < t.gain var) dom tested t mingain
    firstPass).splitvar

/-! ## The loop as a scan -/

/-- The ratio an option is compared with. -/
def ratioOf (t : InfGain K) (mingain : Option K) (firstPass : Bool) (var : ℕ) : K :=
  (ratio t mingain firstPass var).getD 0

/-- An option takes part in the scan: it is untested, the pass does not skip it, and its
ratio is above the start value `-1000`. -/
def Eligible (tested : List Bool) (t : InfGain K) (mingain : Option K) (firstPass : Bool)
    (var : ℕ) : Prop :=
  tested[var]? = some false ∧ (ratio t mingain firstPass var).isSome ∧
    -1000 < ratioOf t mingain firstPass var

instance (tested : List Bool) (t : InfGain K) (mingain : Option K) (firstPass : Bool) :
    DecidablePred (Eligible tested t mingain firstPass) :=
  fun _ => inferInstanceAs (Decidable (_ ∧ _ ∧ _))

/-- The options that take part, in file order. -/
def eligibles (dom : Domain) (tested : List Bool) (t : InfGain K) (mingain : Option K)
    (firstPass : Bool) : List ℕ :=
  (List.range dom.nVars).filter (Eligible tested t mingain firstPass)

theorem pairwise_eligibles (dom : Domain) (tested : List Bool) (t : InfGain K)
    (mingain : Option K) (firstPass : Bool) :
    (eligibles dom tested t mingain firstPass).Pairwise (· < ·) :=
  List.pairwise_lt_range.filter _

theorem mem_eligibles {dom : Domain} {tested : List Bool} {t : InfGain K}
    {mingain : Option K} {firstPass : Bool} {var : ℕ} :
    var ∈ eligibles dom tested t mingain firstPass ↔
      var < dom.nVars ∧ Eligible tested t mingain firstPass var := by
  simp [eligibles]

/-- `u` is near-tied with `s` or ahead of it. -/
def NearTied (t : InfGain K) (mingain : Option K) (firstPass : Bool) (u s : ℕ) : Prop :=
  999 / 1000 * ratioOf t mingain firstPass s < ratioOf t mingain firstPass u

/-- The first two criteria: `u` has the larger ratio, or near-tied with fewer values. -/
def Outranks (dom : Domain) (t : InfGain K) (mingain : Option K) (firstPass : Bool)
    (u s : ℕ) : Prop :=
  ratioOf t mingain firstPass s < ratioOf t mingain firstPass u ∨
    NearTied t mingain firstPass u s ∧ dom.nValues u < dom.nValues s

/-- The third criterion: near-tied, as many values, and the larger gain. -/
def TieBroken (dom : Domain) (t : InfGain K) (mingain : Option K) (firstPass : Bool)
    (u s : ℕ) : Prop :=
  NearTied t mingain firstPass u s ∧ dom.nValues u = dom.nValues s ∧ t.gain s < t.gain u

instance (dom : Domain) (t : InfGain K) (mingain : Option K) (firstPass : Bool) :
    DecidableRel (Outranks dom t mingain firstPass) :=
  fun _ _ => inferInstanceAs (Decidable (_ < _ ∨ _ < _ ∧ _ < _))

instance (dom : Domain) (t : InfGain K) (mingain : Option K) (firstPass : Bool) :
    DecidableRel (TieBroken dom t mingain firstPass) :=
  fun _ _ => inferInstanceAs (Decidable (_ < _ ∧ _ = _ ∧ _ < _))

/-- The state of the loop that holds an option. -/
def Best.of (dom : Domain) (t : InfGain K) (mingain : Option K) (firstPass : Bool) :
    Option ℕ → Best K
  | none => .start dom
  | some s => ⟨s, ratioOf t mingain firstPass s, dom.nValues s⟩

section Loop

variable {dom : Domain} {tested : List Bool} {t : InfGain K}
  {mingain : Option K} {firstPass : Bool}

/-- The first two criteria are cotransitive: an option that does not replace `s` is
itself replaced by what replaces `s`. -/
theorem outranks_cotransitive [IsStrictOrderedRing K] :
    Cotransitive (Outranks dom t mingain firstPass) := by
  intro u s hus a has
  unfold Outranks NearTied at *
  push Not at has
  obtain ⟨hle, hnear⟩ := has
  rcases hus with hlt | ⟨hlt, hfewer⟩
  · exact .inl (hle.trans_lt hlt)
  · by_cases htied : 999 / 1000 * ratioOf t mingain firstPass s < ratioOf t mingain firstPass a
    · have := hnear htied
      exact .inr ⟨by linarith, by omega⟩
    · exact .inl ((not_lt.mp htied).trans_lt hlt)

/-- The third criterion of a loop, as a relation between options. -/
def Breaks (larger : Best K → ℕ → Prop) (dom : Domain) (t : InfGain K) (mingain : Option K)
    (firstPass : Bool) (u s : ℕ) : Prop :=
  Outranks dom t mingain firstPass u s ∨ (NearTied t mingain firstPass u s ∧
    dom.nValues u = dom.nValues s ∧ larger (.of dom t mingain firstPass (some s)) u)

instance (larger : Best K → ℕ → Prop) [∀ b v, Decidable (larger b v)] (dom : Domain)
    (t : InfGain K) (mingain : Option K) (firstPass : Bool) :
    DecidableRel (Breaks larger dom t mingain firstPass) :=
  fun _ _ => inferInstanceAs (Decidable (_ ∨ (_ < _ ∧ _ = _ ∧ _)))

section Step

variable {larger : Best K → ℕ → Prop} [∀ b v, Decidable (larger b v)]

/-- An option that does not take part changes nothing. -/
theorem bestStep_of_not_eligible [IsStrictOrderedRing K] {var : ℕ} {held : Option ℕ}
    (hheld : ∀ s, held = some s → -1000 < ratioOf t mingain firstPass s)
    (hvar : ¬Eligible tested t mingain firstPass var) :
    bestStep larger dom tested t mingain firstPass (.of dom t mingain firstPass held) var =
      .of dom t mingain firstPass held := by
  unfold bestStep
  split
  · rfl
  · next htested =>
      split
      · rfl
      · next val hval =>
          have hof : ratioOf t mingain firstPass var = val := by simp [ratioOf, hval]
          have hle : val ≤ -1000 := by
            by_contra hgt
            exact hvar ⟨not_not.mp htested, by simp [hval], by rw [hof]; exact not_le.mp hgt⟩
          apply if_neg
          cases held with
          | none =>
              show ¬((-1000 : K) < val ∨ (999 / 1000 * (-1000 : K) < val ∧ _))
              rintro (h | ⟨h, -⟩) <;> linarith
          | some s =>
              have hs := hheld s rfl
              show ¬(ratioOf t mingain firstPass s < val ∨
                (999 / 1000 * ratioOf t mingain firstPass s < val ∧ _))
              rintro (h | ⟨h, -⟩) <;> linarith

/-- An option that takes part is a step of the scan. -/
theorem bestStep_of_eligible {var : ℕ} {held : Option ℕ}
    (hvar : Eligible tested t mingain firstPass var) :
    bestStep larger dom tested t mingain firstPass (.of dom t mingain firstPass held) var =
      .of dom t mingain firstPass
        (step (Breaks larger dom t mingain firstPass) held var) := by
  obtain ⟨htested, hsome, hlt⟩ := hvar
  obtain ⟨val, hval⟩ := Option.isSome_iff_exists.mp hsome
  have hof : ratioOf t mingain firstPass var = val := by simp [ratioOf, hval]
  unfold bestStep
  rw [if_neg (not_not.mpr htested), hval]
  dsimp only
  cases held with
  | none =>
      rw [if_pos (.inl (by rw [← hof]; exact hlt)), ← hof]
      rfl
  | some s =>
      have hiff : ratioOf t mingain firstPass s < val ∨
          (999 / 1000 * ratioOf t mingain firstPass s < val ∧
            (dom.nValues var < dom.nValues s ∨ (dom.nValues var = dom.nValues s ∧
              larger (.of dom t mingain firstPass (some s)) var))) ↔
          Breaks larger dom t mingain firstPass var s := by
        unfold Breaks Outranks NearTied
        rw [hof]
        tauto
      rw [step]
      by_cases h : Breaks larger dom t mingain firstPass var s
      · rw [if_pos h]
        refine (if_pos (hiff.mpr h)).trans ?_
        rw [← hof]
        rfl
      · rw [if_neg h]
        exact if_neg (mt hiff.mp h)

/-- **The loop of `select_best_var` is a scan** over the options that take part. -/
theorem bestLoop_eq [IsStrictOrderedRing K] :
    bestLoop larger dom tested t mingain firstPass =
      .of dom t mingain firstPass
        (scan (Breaks larger dom t mingain firstPass) none
          (eligibles dom tested t mingain firstPass)) := by
  unfold bestLoop eligibles
  suffices h : ∀ (l : List ℕ) (held : Option ℕ),
      (∀ s, held = some s → -1000 < ratioOf t mingain firstPass s) →
      l.foldl (bestStep larger dom tested t mingain firstPass)
          (.of dom t mingain firstPass held) =
        .of dom t mingain firstPass (scan (Breaks larger dom t mingain firstPass) held
          (l.filter (Eligible tested t mingain firstPass))) from
    h _ none (by simp)
  intro l
  induction l with
  | nil => intro held _; rfl
  | cons var l ih =>
      intro held hheld
      rw [List.foldl_cons]
      by_cases hvar : Eligible tested t mingain firstPass var
      · rw [bestStep_of_eligible hvar, List.filter_cons_of_pos (by simpa using hvar)]
        refine ih _ fun s hs => ?_
        cases held with
        | none =>
            obtain rfl := Option.some.inj hs
            exact hvar.2.2
        | some s' =>
            rw [step] at hs
            split at hs
            · obtain rfl := Option.some.inj hs
              exact hvar.2.2
            · exact hheld s hs
      · rw [bestStep_of_not_eligible hheld hvar, List.filter_cons_of_neg (by simpa using hvar)]
        exact ih held hheld

end Step

end Loop

/-! ## The third criterion -/

section Tie

variable {dom : Domain} {tested : List Bool} {t : InfGain K}
  {mingain : Option K} {firstPass : Bool}

/-- The code's third criterion never decides. -/
theorem breaks_code_iff {u s : ℕ} :
    Breaks (fun _ var => t.gain var < t.gain var) dom t mingain firstPass u s ↔
      Outranks dom t mingain firstPass u s := by
  simp [Breaks]

theorem breaks_c50_iff {u s : ℕ} :
    Breaks (fun best var => t.gain best.splitvar.toNat < t.gain var) dom t mingain firstPass
        u s ↔
      Outranks dom t mingain firstPass u s ∨ TieBroken dom t mingain firstPass u s := by
  simp [Breaks, TieBroken, Best.of]

theorem Best.splitvar_of_inj {x y : Option ℕ} :
    (Best.of dom t mingain firstPass x).splitvar = (Best.of dom t mingain firstPass y).splitvar ↔
      x = y := by
  cases x with
  | none =>
      cases y with
      | none => simp
      | some s =>
          refine iff_of_false ?_ (by simp)
          show (-1 : ℤ) ≠ s
          omega
  | some s =>
      cases y with
      | none =>
          refine iff_of_false ?_ (by simp)
          show (s : ℤ) ≠ -1
          omega
      | some s' => simp [Best.of]

/-- **`select_best_var` is the scan of C5.0** exactly when the third criterion has nothing
to say behind the option that stands on the first two: no later option is near-tied with
it, has as many values and a larger gain. -/
theorem selectBestVar_eq_iff [IsStrictOrderedRing K] (dom : Domain) (tested : List Bool) (t : InfGain K)
    (mingain : Option K) (firstPass : Bool) :
    selectBestVar dom tested t mingain firstPass = c50BestVar dom tested t mingain firstPass ↔
      ∀ b ∈ eligibles dom tested t mingain firstPass,
        (∀ u ∈ eligibles dom tested t mingain firstPass, b < u →
          ¬Outranks dom t mingain firstPass u b) →
        (∀ a ∈ eligibles dom tested t mingain firstPass, a < b →
          ∃ u ∈ eligibles dom tested t mingain firstPass, a < u ∧
            Outranks dom t mingain firstPass u a) →
        ∀ v ∈ eligibles dom tested t mingain firstPass, b < v →
          ¬TieBroken dom t mingain firstPass v b := by
  have hpair := pairwise_eligibles dom tested t mingain firstPass
  have hco : Cotransitive
      (Breaks (fun _ var => t.gain var < t.gain var) dom t mingain firstPass) := by
    intro u s hus a has
    rw [breaks_code_iff] at *
    exact outranks_cotransitive hus a has
  rw [selectBestVar, c50BestVar, bestLoop_eq, bestLoop_eq, Best.splitvar_of_inj, eq_comm,
    scan_eq_scan_iff hco (fun u s h => breaks_c50_iff.mpr (.inl (breaks_code_iff.mp h)))
      (hpair.imp ne_of_lt)]
  simp only [standing_eq_some_iff hpair, breaks_code_iff, breaks_c50_iff]
  constructor
  · intro h b hb hlast hfirst v hv hbv htie
    exact h b _ ⟨hb, rfl, hlast, hfirst⟩ v (List.mem_filter.mpr ⟨hv, by simpa using hbv⟩)
      (.inr htie)
  · rintro h b post ⟨hb, rfl, hlast, hfirst⟩ u hu
    obtain ⟨hu, hbu⟩ := List.mem_filter.mp hu
    have hbu : b < u := by simpa using hbu
    rintro (hrank | htie)
    · exact hlast u hu hbu hrank
    · exact h b hb hlast hfirst u hu hbu htie

end Tie

/-- Two switches with the same gain ratio, the second with the larger gain. -/
def tiedTables : InfGain ℚ where
  info var := if var = 0 then 1 / 2 else 1
  gain var := if var = 0 then 1 / 4 else 1 / 2

/-- `select_best_var` stays with the first of two tied switches where C5.0 takes the one
with the larger gain. -/
theorem selectBestVar_tied :
    selectBestVar (.switches 2 (by decide)) [false, false] tiedTables (some (1 / 4)) true = 0 ∧
      c50BestVar (.switches 2 (by decide)) [false, false] tiedTables (some (1 / 4)) true = 1 := by
  decide +kernel

/-- With the gains the other way round, both take the first. -/
theorem selectBestVar_eq_swapped :
    selectBestVar (.switches 2 (by decide)) [false, false]
        { info := fun var => tiedTables.info (1 - var)
          gain := fun var => tiedTables.gain (1 - var) } (some (1 / 4)) true =
      c50BestVar (.switches 2 (by decide)) [false, false]
        { info := fun var => tiedTables.info (1 - var)
          gain := fun var => tiedTables.gain (1 - var) } (some (1 / 4)) true :=
  (selectBestVar_eq_iff _ _ _ _ _).mpr (by decide +kernel)

/-! ## Possible options -/

section Possible

variable {dom : Domain} {params : SplitParams} {tested : List Bool} {t : InfGain K}

/-- The untested options that are possible, in file order. -/
def possibleVars (dom : Domain) (params : SplitParams) (tested : List Bool) (t : InfGain K) :
    List ℕ :=
  (List.range dom.nVars).filter fun var => tested[var]? = some false ∧ IsPossible dom params t var

theorem mem_possibleVars {var : ℕ} :
    var ∈ possibleVars dom params tested t ↔
      var < dom.nVars ∧ tested[var]? = some false ∧ IsPossible dom params t var := by
  simp [possibleVars]

/-- The loop of `calc_inf_gain` adds up and counts the possible options. -/
theorem possibleScan_eq :
    possibleScan dom params tested t =
      (((possibleVars dom params tested t).map t.gain).sum,
        (possibleVars dom params tested t).length) := by
  unfold possibleScan possibleVars
  suffices h : ∀ (l : List ℕ) (a : K) (n : ℕ), l.foldl _ (a, n) =
      (a + ((l.filter fun var => tested[var]? = some false ∧
          IsPossible dom params t var).map t.gain).sum,
        n + (l.filter fun var => tested[var]? = some false ∧
          IsPossible dom params t var).length) by
    rw [h, zero_add, Nat.zero_add]
  intro l
  induction l with
  | nil => intro a n; simp
  | cons var l ih =>
      intro a n
      rw [List.foldl_cons]
      by_cases htested : tested[var]? = some false
      · by_cases hpossible : IsPossible dom params t var
        · rw [if_neg (not_not.mpr htested), if_pos hpossible, ih,
            List.filter_cons_of_pos (by simp [htested, hpossible])]
          simp [add_assoc, Nat.add_comm]
        · rw [if_neg (not_not.mpr htested), if_neg hpossible, ih,
            List.filter_cons_of_neg (by simp [hpossible])]
      · rw [if_pos htested, ih, List.filter_cons_of_neg (by simp [htested])]

end Possible

/-! ## The flag for many-valued options -/

/-- `c->n_values() >= 0.3 * (n_cases_ + 1)`. -/
def VarDomain.ManyValued (n : ℕ) (v : VarDomain) : Prop :=
  (3 / 10 : ℚ) * ((n : ℚ) + 1) ≤ (v.nValues : ℚ)

instance (n : ℕ) : DecidablePred (VarDomain.ManyValued n) :=
  fun _ => inferInstanceAs (Decidable (_ ≤ _))

/-- The same options in another order. -/
def Domain.reorder (dom : Domain) (σ : Equiv.Perm (Fin dom.nVars)) : Domain where
  vars := List.ofFn fun i => dom.vars.get (σ i)
  labels_pos v hv := by
    obtain ⟨i, rfl⟩ := (List.mem_ofFn' _ _).mp hv
    exact dom.labels_pos _ (List.get_mem _ _)
  vars_le := by
    rw [List.length_ofFn]
    exact dom.vars_le

section Reorder

variable {dom : Domain} (σ : Equiv.Perm (Fin dom.nVars))

theorem Domain.nVars_reorder : (dom.reorder σ).nVars = dom.nVars := List.length_ofFn

theorem Domain.getElem?_reorder (i : Fin dom.nVars) :
    (dom.reorder σ).vars[(i : ℕ)]? = dom.vars[(σ i : ℕ)]? := by
  rw [reorder, List.getElem?_ofFn, dif_pos i.2, List.getElem?_eq_getElem (σ i).2]
  rfl

theorem Domain.nValues_reorder (i : Fin dom.nVars) :
    (dom.reorder σ).nValues i = dom.nValues (σ i) := by
  rw [nValues, nValues, getElem?_reorder]

theorem Domain.mem_reorder {v : VarDomain} (hv : v ∈ (dom.reorder σ).vars) : v ∈ dom.vars := by
  obtain ⟨i, rfl⟩ := (List.mem_ofFn' _ _).mp hv
  exact List.get_mem _ _

end Reorder

/-- **The flag is right**: it says that every option is many-valued, and so the possible
options are few-valued ones unless all options are many-valued. -/
def FlagExact (dom : Domain) (n : ℕ) : Prop :=
  ((splitParams dom n).multiVal = true ↔ ∀ v ∈ dom.vars, v.ManyValued n) ∧
    ∀ (tested : List Bool) (t : InfGain ℚ),
      ∀ var ∈ possibleVars dom (splitParams dom n) tested t,
        (∀ v, dom.vars[var]? = some v → ¬v.ManyValued n) ∨ ∀ v ∈ dom.vars, v.ManyValued n

/-- **The order of the options does not matter**, neither for the flag nor for which
options are possible. -/
def FlagOrderFree (dom : Domain) (n : ℕ) : Prop :=
  ∀ σ : Equiv.Perm (Fin dom.nVars),
    (splitParams (dom.reorder σ) n).multiVal = (splitParams dom n).multiVal ∧
      ∀ (tested tested' : List Bool) (t t' : InfGain ℚ),
        (∀ i : Fin dom.nVars,
            tested'[(i : ℕ)]? = tested[(σ i : ℕ)]? ∧ t'.gain i = t.gain (σ i)) →
          ∀ i : Fin dom.nVars,
            (i : ℕ) ∈ possibleVars (dom.reorder σ) (splitParams (dom.reorder σ) n) tested' t' ↔
              (σ i : ℕ) ∈ possibleVars dom (splitParams dom n) tested t

section Flag

variable {dom : Domain} {n : ℕ}

theorem foldl_last {α β : Type*} (f : α → β) (l : List α) (b : β) :
    l.foldl (fun _ a => f a) b = (l.getLast?.map f).getD b := by
  rcases List.eq_nil_or_concat l with rfl | ⟨l, a, rfl⟩ <;> simp

/-- The loop of `prepare_data` keeps the test of the last option. -/
theorem multiVal_eq_true_iff :
    (splitParams dom n).multiVal = true ↔ ∀ v ∈ dom.vars.getLast?, v.ManyValued n := by
  have hfold := foldl_last (fun v : VarDomain => decide (v.ManyValued n)) dom.vars true
  show dom.vars.foldl (fun _ v => decide (v.ManyValued n)) true = true ↔ _
  rw [hfold]
  cases dom.vars.getLast? with
  | none => simp
  | some v => simp

theorem isPossible_iff {t : InfGain ℚ} {var : ℕ} {v : VarDomain} (hv : dom.vars[var]? = some v) :
    IsPossible dom (splitParams dom n) t var ↔
      epsilon ≤ t.gain var ∧ ((splitParams dom n).multiVal = true ∨ ¬v.ManyValued n) := by
  unfold IsPossible VarDomain.ManyValued
  rw [Domain.nValues_of_getElem? hv, not_le]
  rfl

/-- The flag is right exactly when the last option does not mislead it. -/
theorem flagExact_iff :
    FlagExact dom n ↔
      (∀ v ∈ dom.vars.getLast?, ¬v.ManyValued n) ∨ ∀ v ∈ dom.vars, v.ManyValued n := by
  unfold FlagExact
  rw [multiVal_eq_true_iff]
  constructor
  · rintro ⟨hflag, -⟩
    cases hlast : dom.vars.getLast? with
    | none => exact .inl (by simp)
    | some v =>
        rw [hlast] at hflag
        by_cases hv : v.ManyValued n
        · exact .inr (hflag.mp (by simpa using hv))
        · exact .inl (by simpa using hv)
  · intro hside
    have hflag : (∀ v ∈ dom.vars.getLast?, v.ManyValued n) ↔ ∀ v ∈ dom.vars, v.ManyValued n := by
      constructor
      · intro hmany
        rcases hside with hfew | hall
        · have hnil : dom.vars.getLast? = none := by
            rw [Option.eq_none_iff_forall_not_mem]
            intro v hv
            exact hfew v hv (hmany v hv)
          simp [List.getLast?_eq_none_iff.mp hnil]
        · exact hall
      · intro hall v hv
        exact hall v (List.mem_of_getLast? hv)
    refine ⟨hflag, fun tested t var hvar => ?_⟩
    obtain ⟨-, -, hpossible⟩ := mem_possibleVars.mp hvar
    by_cases hall : ∀ v ∈ dom.vars, v.ManyValued n
    · exact .inr hall
    · refine .inl fun v hv => ?_
      obtain ⟨-, hflag' | hfew⟩ := (isPossible_iff hv).mp hpossible
      · exact absurd (hflag.mp (multiVal_eq_true_iff.mp hflag')) hall
      · exact hfew

/-- The flag of a reordered domain is the test of the option that has come last. -/
theorem multiVal_reorder_iff (σ : Equiv.Perm (Fin dom.nVars)) {last : Fin dom.nVars}
    (hlast : (last : ℕ) = dom.nVars - 1) :
    (splitParams (dom.reorder σ) n).multiVal = true ↔
      (dom.vars.get (σ last)).ManyValued n := by
  have hget : (dom.reorder σ).vars.getLast? = some (dom.vars.get (σ last)) := by
    rw [List.getLast?_eq_getElem?]
    show (dom.reorder σ).vars[(dom.reorder σ).nVars - 1]? = _
    rw [Domain.nVars_reorder, ← hlast, Domain.getElem?_reorder]
    exact List.getElem?_eq_getElem (σ last).2
  rw [multiVal_eq_true_iff, hget]
  simp

/-- With few-valued options only, the flag is set for the empty domain alone. -/
theorem multiVal_iff_of_few (hfew : ∀ v ∈ dom.vars, ¬v.ManyValued n) :
    (splitParams dom n).multiVal = true ↔ dom.nVars = 0 := by
  rw [multiVal_eq_true_iff, Domain.nVars, List.length_eq_zero_iff, ← List.getLast?_eq_none_iff,
    Option.eq_none_iff_forall_not_mem]
  constructor
  · intro hmany v hv
    exact hfew v (List.mem_of_getLast? hv) (hmany v hv)
  · intro hnone v hv
    exact absurd hv (hnone v)

/-- The order does not matter exactly when all options are on the same side. -/
theorem flagOrderFree_iff :
    FlagOrderFree dom n ↔
      (∀ v ∈ dom.vars, v.ManyValued n) ∨ ∀ v ∈ dom.vars, ¬v.ManyValued n := by
  constructor
  · intro hfree
    by_contra hmixed
    push Not at hmixed
    obtain ⟨⟨w, hw, hfew⟩, v, hv, hmany⟩ := hmixed
    obtain ⟨j, rfl⟩ := List.get_of_mem hw
    obtain ⟨i, rfl⟩ := List.get_of_mem hv
    have hpos : 0 < dom.nVars := i.pos
    let last : Fin dom.nVars := ⟨dom.nVars - 1, by omega⟩
    -- the option that comes last can be either of the two
    have hswap : ∀ k : Fin dom.nVars, (splitParams dom n).multiVal = true ↔
        (dom.vars.get k).ManyValued n := by
      intro k
      have hlast : (last : ℕ) = dom.nVars - 1 := rfl
      rw [← (hfree (Equiv.swap last k)).1, multiVal_reorder_iff (Equiv.swap last k) hlast,
        Equiv.swap_apply_left]
    exact hfew ((hswap j).mp ((hswap i).mpr hmany))
  · intro hside σ
    have hflag : (splitParams (dom.reorder σ) n).multiVal = (splitParams dom n).multiVal := by
      rw [Bool.eq_iff_iff]
      rcases hside with hmany | hfew
      · rw [multiVal_eq_true_iff, multiVal_eq_true_iff]
        constructor <;> intro _ v hv
        · exact hmany v (List.mem_of_getLast? hv)
        · exact hmany v (Domain.mem_reorder σ (List.mem_of_getLast? hv))
      · rw [multiVal_iff_of_few hfew, multiVal_iff_of_few fun v hv =>
          hfew v (Domain.mem_reorder σ hv), Domain.nVars_reorder]
    refine ⟨hflag, fun tested tested' t t' htables i => ?_⟩
    obtain ⟨htested, hgain⟩ := htables i
    rw [mem_possibleVars, mem_possibleVars, htested, IsPossible, IsPossible, hgain, hflag,
      Domain.nValues_reorder, Domain.nVars_reorder]
    simp only [i.2, (σ i).2, true_and]
    rfl

/-- **The flag for many-valued options.**  It is right exactly when the last option of the
file is few-valued or all options are many-valued; it does not depend on the order of the
options exactly when all of them are on the same side. -/
theorem multiVal_exact_iff (dom : Domain) (n : ℕ) :
    (FlagExact dom n ↔
      (∀ v ∈ dom.vars.getLast?, ¬v.ManyValued n) ∨ ∀ v ∈ dom.vars, v.ManyValued n) ∧
    (FlagOrderFree dom n ↔
      (∀ v ∈ dom.vars, v.ManyValued n) ∨ ∀ v ∈ dom.vars, ¬v.ManyValued n) :=
  ⟨flagExact_iff, flagOrderFree_iff⟩

end Flag

/-- A switch and behind it an option with four values. -/
def switchThenFour : Domain where
  vars := [⟨"a", ["0", "1"]⟩, ⟨"b", ["0", "1", "2", "3"]⟩]
  labels_pos := by decide
  vars_le := by decide

/-- With nine configurations four values are many and two are few.  The flag is set when
the option with four values comes last, and not set when it comes first. -/
theorem multiVal_last_wins :
    (splitParams switchThenFour 9).multiVal = true ∧
      (¬∀ v ∈ switchThenFour.vars, v.ManyValued 9) ∧
      (splitParams (switchThenFour.reorder (Equiv.swap ⟨0, by decide⟩ ⟨1, by decide⟩)) 9).multiVal =
        false := by
  decide +kernel

end GenTree

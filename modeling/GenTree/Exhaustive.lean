import GenTree.Covering
import GenTree.Templates
import Mathlib.Data.List.Lex

/-!
# Exhaustive generation from a template

What `gen_all_configs(templ)` returns is the list `templValues` of value vectors: they
are the complete ones that agree with the template, they stand in strictly increasing
lexicographic order, so that none occurs twice, and their number is the product of the
value counts of the options that the template leaves open.
-/

namespace GenTree

open Outcome

section Values

variable {vs : List VarDomain} {ts : List ℤ}

theorem mem_choices {v : VarDomain} {t x : ℤ} (hfit : v.Fits t) :
    x ∈ v.choices t ↔ v.Has x ∧ (t = -1 ∨ t = x) := by
  unfold VarDomain.choices
  split
  · next ht =>
      simp only [List.mem_map, List.mem_range, ht, true_or, and_true]
      constructor
      · rintro ⟨i, hi, rfl⟩
        exact ⟨Int.natCast_nonneg i, by exact_mod_cast hi⟩
      · rintro ⟨hnonneg, hlt⟩
        exact ⟨x.toNat, by omega, by omega⟩
  · next ht =>
      have hhas : v.Has t := hfit.resolve_left ht
      rw [List.mem_singleton]
      constructor
      · rintro rfl
        exact ⟨hhas, .inr rfl⟩
      · rintro ⟨-, h | h⟩
        · exact absurd h ht
        · exact h.symm

theorem mem_templValues (hfits : List.Forall₂ VarDomain.Fits vs ts) {values : List ℤ} :
    values ∈ templValues vs ts ↔
      List.Forall₂ VarDomain.Has vs values ∧
        List.Forall₂ (fun t x => t = -1 ∨ t = x) ts values := by
  induction hfits generalizing values with
  | nil => simp [templValues]
  | @cons v t vs ts hfit _ ih =>
      simp only [templValues, List.mem_flatMap, List.mem_map, mem_choices hfit, ih]
      constructor
      · rintro ⟨x, ⟨hx, htx⟩, rest, ⟨hrest, htrest⟩, rfl⟩
        exact ⟨.cons hx hrest, .cons htx htrest⟩
      · rintro ⟨_ | ⟨hx, hrest⟩, htempl⟩
        cases htempl with
        | cons htx htrest => exact ⟨_, ⟨hx, htx⟩, _, ⟨hrest, htrest⟩, rfl⟩

theorem pairwise_choices (v : VarDomain) (t : ℤ) : (v.choices t).Pairwise (· < ·) := by
  unfold VarDomain.choices
  split
  · rw [List.pairwise_map]
    exact List.pairwise_lt_range.imp fun h => by exact_mod_cast h
  · exact List.pairwise_singleton _ _

/-- The vectors come in lexicographic order. -/
theorem pairwise_templValues (vs : List VarDomain) (ts : List ℤ) :
    (templValues vs ts).Pairwise (· < ·) := by
  induction vs generalizing ts with
  | nil => simp [templValues]
  | cons v vs ih =>
      cases ts with
      | nil => simp [templValues]
      | cons t ts =>
          rw [templValues, List.pairwise_flatMap]
          constructor
          · intro x _
            rw [List.pairwise_map]
            exact (ih ts).imp fun h => List.cons_lt_cons_iff.mpr (.inr ⟨rfl, h⟩)
          · refine (pairwise_choices v t).imp fun {x y} hxy values hx values' hy => ?_
            obtain ⟨rest, -, rfl⟩ := List.mem_map.mp hx
            obtain ⟨rest', -, rfl⟩ := List.mem_map.mp hy
            exact List.cons_lt_cons_iff.mpr (.inl hxy)

/-- The options that a template leaves open. -/
def openOptions (vs : List VarDomain) (ts : List ℤ) : List VarDomain :=
  ((vs.zip ts).filter fun p => p.2 = -1).map Prod.fst

theorem length_templValues (vs : List VarDomain) (ts : List ℤ) :
    (templValues vs ts).length = ((openOptions vs ts).map VarDomain.nValues).prod := by
  induction vs generalizing ts with
  | nil => simp [templValues, openOptions]
  | cons v vs ih =>
      cases ts with
      | nil => simp [templValues, openOptions]
      | cons t ts =>
          have hlen : (templValues (v :: vs) (t :: ts)).length =
              (v.choices t).length * (templValues vs ts).length := by
            simp [templValues, List.length_flatMap]
          rw [hlen, ih, VarDomain.choices]
          by_cases ht : t = -1 <;> simp [openOptions, ht]

end Values

section Generate

variable {dom : Domain} {templ : Config}

theorem fits_of_template (h : templ.Template dom) :
    List.Forall₂ VarDomain.Fits dom.vars templ.values := by
  rw [List.forall₂_iff_get]
  refine ⟨h.1.symm, fun i hi hi' => ?_⟩
  have hfit := h.2 i _ (List.getElem?_eq_getElem hi')
  rwa [Domain.nValues_of_getElem? (List.getElem?_eq_getElem hi)] at hfit

/-- To agree with a template is to match it. -/
theorem agrees_iff_matches (h : templ.Template dom) {c : Config} (hc : c.values.length = dom.nVars) :
    List.Forall₂ (fun t x => t = -1 ∨ t = x) templ.values c.values ↔ templ.Matches dom c := by
  rw [List.forall₂_iff_get, Config.Matches]
  constructor
  · rintro ⟨-, hagree⟩ var hvar
    have ht : var < templ.values.length := by rwa [h.1]
    have hv : var < c.values.length := by rwa [hc]
    rw [List.getElem?_eq_getElem ht, List.getElem?_eq_getElem hv, Option.some.injEq,
      Option.some.injEq]
    exact hagree var ht hv
  · intro hmatches
    refine ⟨by rw [h.1, hc], fun i hi hi' => ?_⟩
    have hagree := hmatches i (by rwa [← hc])
    rwa [List.getElem?_eq_getElem hi, List.getElem?_eq_getElem hi', Option.some.injEq,
      Option.some.injEq] at hagree

/-- **Exhaustive generation.**  `gen_all_configs(templ)` returns a new configuration for
each complete one that matches the template and no others, in strictly increasing
lexicographic order of their values; their number is the product of the value counts of
the open options. -/
theorem genAllConfigsOf_exhaustive (hrange : ∀ v ∈ dom.vars, v.nValues ≤ 32767)
    (htempl : templ.Template dom) :
    ∃ configs, genAllConfigsOf dom templ = .ok configs ∧
      (∀ c, c ∈ configs ↔
        c = { values := c.values } ∧ c.Complete dom ∧ templ.Matches dom c) ∧
      (configs.map Config.values).Pairwise (· < ·) ∧
      configs.length = ((openOptions dom.vars templ.values).map VarDomain.nValues).prod := by
  have hfits := fits_of_template htempl
  have hrun := genAllConfigsOf_eq (fun v hv => (hrange v hv).trans (by omega)) hfits
  refine ⟨_, hrun, fun c => ?_, ?_, ?_⟩
  · rw [List.mem_map]
    constructor
    · rintro ⟨values, hvalues, rfl⟩
      obtain ⟨hhas, hagree⟩ := (mem_templValues hfits).mp hvalues
      have hcomplete : ({ values } : Config).Complete dom :=
        complete_iff_mem_allValues.mpr (mem_allValues.mpr hhas)
      exact ⟨rfl, hcomplete, (agrees_iff_matches htempl hcomplete.1).mp hagree⟩
    · rintro ⟨hnew, hcomplete, hmatches⟩
      refine ⟨c.values, (mem_templValues hfits).mpr ⟨?_, ?_⟩, hnew.symm⟩
      · exact mem_allValues.mp (complete_iff_mem_allValues.mp hcomplete)
      · exact (agrees_iff_matches htempl hcomplete.1).mpr hmatches
  · rw [List.map_map]
    simpa [Function.comp_def] using pairwise_templValues dom.vars templ.values
  · rw [List.length_map, length_templValues]

/-- Three switches with the middle one fixed: four configurations. -/
theorem genAllConfigsOf_exhaustive_switches :
    ∃ configs, genAllConfigsOf (.switches 3 (by decide)) { values := [-1, 1, -1] } = .ok configs ∧
      (∀ c, c ∈ configs ↔ c = { values := c.values } ∧ c.Complete (.switches 3 (by decide)) ∧
        Config.Matches (.switches 3 (by decide)) { values := [-1, 1, -1] } c) ∧
      (configs.map Config.values).Pairwise (· < ·) ∧ configs.length = 4 :=
  genAllConfigsOf_exhaustive (by decide) ⟨rfl, fun var t h => by
    rcases var with _ | _ | _ | var
    · exact .inl (by simpa using h.symm)
    · exact .inr (by simp at h; subst h; decide)
    · exact .inl (by simpa using h.symm)
    · simp at h⟩

end Generate

end GenTree

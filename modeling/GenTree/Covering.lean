import GenTree.Templates
import Mathlib.Algebra.Order.BigOperators.Group.List
import Mathlib.Algebra.Order.Group.Nat

/-!
# Covering configurations

Both functions `gen_one_convering_configs` draw configurations from pools: every
open option has a pool of values, a pass takes one value out of each pool that is
not empty, and an option whose pool is empty takes any value.

A pass is described option by option, by what it does to the cell of an option: it
copies the template, draws from the pool, or takes any value.  For the loop of the
domain, what has been drawn and what is left of a pool is always a permutation of
the values of its option.  The largest pool decides how many passes there are and
that no two of them give the same configuration.

* **`Passed`** is the inversion of `fillRow`: what a pass that has gone through has done.
  It assumes nothing about the pools, and so it says of a value only what the check of
  `Config::set` guarantees, and that the configuration holds it narrowed to `short`.
* **`Pooled`** is about the sizes of the pools after `k` passes.  Both functions share it,
  since both take a value out of every pool in every pass, whatever becomes of the
  candidate; so the number of passes is known in advance.
* **`Drawn`** adds what only the loop of the domain has: every pass adds its configuration.
  The function of a leaf drops candidates and has an invariant of its own
  (`Generated`).
* **Narrowing.**  A value that fits a `short` is read back as it was set
  (`Pooled.cell`), which is why everything from there on is for at most 32768 values.  The
  pools of the domain are made with a narrowed end and need one value less
  (`shortPools_eq`).
-/

namespace GenTree

open Outcome

/-! ## Drawing without replacement -/

/-- Erasing by moving the last element only loses the erased one. -/
theorem unorderedErase_perm {l : List ℤ} {i : ℕ} {v : ℤ} (h : l[i]? = some v) :
    (v :: unorderedErase l i).Perm l := by
  obtain ⟨hlt, rfl⟩ := List.getElem?_eq_some_iff.mp h
  obtain ⟨a, b, hl, ha⟩ : ∃ a b, l = a ++ l[i] :: b ∧ a.length = i := by
    refine ⟨l.take i, l.drop (i + 1), ?_, by rw [List.length_take, Nat.min_eq_left hlt.le]⟩
    rw [← List.drop_eq_getElem_cons hlt, List.take_append_drop]
  generalize l[i] = v at hl
  subst ha hl
  rcases List.eq_nil_or_concat b with rfl | ⟨b, last, rfl⟩
  · -- the erased element is the last one
    rw [unorderedErase, List.getLast?_concat]
    simp only [List.set_append_right _ _ (Nat.le_refl _), Nat.sub_self, List.set_cons_zero,
      List.dropLast_concat]
    exact (List.perm_append_singleton _ _).symm
  · rw [unorderedErase, List.concat_eq_append, ← List.cons_append, ← List.append_assoc,
      List.getLast?_concat]
    simp only [List.append_assoc, List.cons_append, List.set_append_right _ _ (Nat.le_refl _),
      Nat.sub_self, List.set_cons_zero]
    rw [← List.cons_append, ← List.append_assoc, List.dropLast_concat]
    refine List.perm_middle.symm.trans (.append_left a ?_)
    exact ((List.perm_append_singleton last b).symm.cons v)

/-- What a pass does to the cell of the option `var`, whose template value is `t`:
its pool `st` becomes `st'`, and the value is `v`. -/
inductive Cell (dom : Domain) (var : ℕ) : ℤ → List ℤ → List ℤ → ℤ → Prop
  | fixed {t : ℤ} {st : List ℤ} (ne : t ≠ -1) : Cell dom var t st st t
  | drawn {st st' : List ℤ} {v : ℤ} (ne : st ≠ []) (perm : (v :: st').Perm st) :
      Cell dom var (-1) st st' v
  | any {v : ℤ} (nonneg : 0 ≤ v) : Cell dom var (-1) [] [] v

/-- The number of pools that are not exhausted. -/
def live (pools : List (List ℤ)) : ℕ := pools.countP (· ≠ [])

section Pass

variable {dom : Domain} {draws : ℕ → ℕ} {var : ℕ} {t : ℤ} {ts : List ℤ} {row row' : Row}

/-- One option of a pass. -/
def fillCell (dom : Domain) (draws : ℕ → ℕ) (var : ℕ) (t : ℤ) (row : Row) : Except Abort Row := do
  let st ← vecAt row.pools var
  if t ≠ -1 then
    let conf ← row.conf.set dom var t
    .ok { row with conf }
  else if st ≠ [] then
    let (it, rng) ← randBelow draws row.rng st.length
    let v ← vecAt st it
    let conf ← row.conf.set dom var v
    let st := unorderedErase st it
    .ok { row with
      conf, rng
      pools := row.pools.set var st
      nFinished := if st = [] then row.nFinished + 1 else row.nFinished }
  else
    let (v, rng) ← randBelow draws row.rng (dom.nValues var)
    let conf ← row.conf.set dom var v
    .ok { row with conf, rng, vrand := row.vrand ++ [var] }

theorem fillRow_cons : fillRow dom draws var (t :: ts) row =
    fillCell dom draws var t row >>= fillRow dom draws (var + 1) ts := by
  rw [fillRow, fillCell]
  cases vecAt row.pools var with
  | error e => rfl
  | ok st =>
      simp only [ok_bind]
      split
      · cases row.conf.set dom var t <;> rfl
      · split
        · cases randBelow draws row.rng st.length with
          | error e => rfl
          | ok p =>
              simp only [ok_bind, bind_assoc]
        · simp only [bind_assoc, ok_bind]

/-- What one option of a pass does. -/
structure Filled (dom : Domain) (var : ℕ) (t : ℤ) (st st' : List ℤ) (v : ℤ) (row row' : Row) :
    Prop where
  cell : Cell dom var t st st' v
  range : -1 ≤ v ∧ v < dom.nValues var
  pool : row.pools[var]? = some st
  lt : var < row.conf.values.length
  conf : row'.conf = { row.conf with values := row.conf.values.set var (toShort v) }
  pools : row'.pools = row.pools.set var st'
  nFinished : row'.nFinished + live row'.pools = row.nFinished + live row.pools
  vrand : row'.vrand = row.vrand ++ if t = -1 ∧ st = [] then [var] else []

theorem Config.set_eq_ok {c c' : Config} {v : ℤ} : c.set dom var v = .ok c' ↔
    (-1 ≤ v ∧ v < dom.nValues var) ∧ var < c.values.length ∧
      c' = { c with values := c.values.set var (toShort v) } := by
  rw [Config.set]
  by_cases h : -1 ≤ v ∧ v < dom.nValues var
  · rw [check_pos h, ok_bind]
    split
    · next hlt => simp [h, hlt, eq_comm]
    · next hlt => simp [hlt]
  · rw [check_neg h]
    simp [h]

theorem live_set {pools : List (List ℤ)} {st st' : List ℤ} (h : pools[var]? = some st) :
    live (pools.set var st') + (if st = [] then 0 else 1) =
      live pools + if st' = [] then 0 else 1 := by
  obtain ⟨hlt, rfl⟩ := List.getElem?_eq_some_iff.mp h
  have hpos : (if pools[var] = [] then 0 else 1) ≤ live pools := by
    split
    · exact Nat.zero_le _
    · next hne => exact List.countP_pos_iff.mpr ⟨_, List.getElem_mem hlt, by simpa using hne⟩
  rw [live, List.countP_set hlt]
  simp only [ne_eq, decide_not, Bool.not_eq_true', decide_eq_false_iff_not]
  unfold live at hpos ⊢
  split <;> split <;> simp_all

/-- One option of a pass: inversion. -/
theorem filled_of_fillCell (h : fillCell dom draws var t row = .ok row') :
    ∃ st st' v, Filled dom var t st st' v row row' := by
  rw [fillCell] at h
  obtain ⟨st, hst, hrun⟩ := bind_eq_ok.mp h
  rw [vecAt_eq_ok] at hst
  by_cases hfixed : t ≠ -1
  · rw [if_pos hfixed] at hrun
    obtain ⟨conf, hconf, heq⟩ := bind_eq_ok.mp hrun
    obtain ⟨hrange, hlt, rfl⟩ := Config.set_eq_ok.mp hconf
    cases heq
    refine ⟨st, st, t, .fixed hfixed, hrange, hst, hlt, rfl, ?_, rfl, ?_⟩
    · exact (List.set_of_getElem? hst).symm
    · rw [if_neg fun hopen : t = -1 ∧ _ => hfixed hopen.1, List.append_nil]
  rw [if_neg hfixed] at hrun
  obtain rfl : t = -1 := not_not.mp hfixed
  by_cases hne : st ≠ []
  · rw [if_pos hne] at hrun
    obtain ⟨⟨it, rng⟩, hdraw, hrun⟩ := bind_eq_ok.mp hrun
    obtain ⟨v, hv, hrun⟩ := bind_eq_ok.mp hrun
    obtain ⟨conf, hconf, heq⟩ := bind_eq_ok.mp hrun
    obtain ⟨hrange, hlt, rfl⟩ := Config.set_eq_ok.mp hconf
    cases heq
    refine ⟨st, unorderedErase st it, v, .drawn hne (unorderedErase_perm (vecAt_eq_ok.mp hv)),
      hrange, hst, hlt, rfl, rfl, ?_, ?_⟩
    · have hlive : live (row.pools.set var (unorderedErase st it)) + _ = _ := live_set hst
      rw [if_neg hne] at hlive
      show (if unorderedErase st it = [] then row.nFinished + 1 else row.nFinished) +
        live (row.pools.set var (unorderedErase st it)) = row.nFinished + live row.pools
      by_cases herase : unorderedErase st it = []
      · rw [if_pos herase] at hlive ⊢
        omega
      · rw [if_neg herase] at hlive ⊢
        omega
    · rw [if_neg fun hempty : _ ∧ st = [] => hne hempty.2, List.append_nil]
  · rw [if_neg hne] at hrun
    obtain rfl : st = [] := not_not.mp hne
    obtain ⟨⟨v, rng⟩, hdraw, hrun⟩ := bind_eq_ok.mp hrun
    obtain ⟨conf, hconf, heq⟩ := bind_eq_ok.mp hrun
    obtain ⟨hrange, hlt, rfl⟩ := Config.set_eq_ok.mp hconf
    cases heq
    refine ⟨[], [], v, .any (Int.natCast_nonneg v), hrange, hst, hlt, rfl, ?_, rfl, ?_⟩
    · exact (List.set_of_getElem? hst).symm
    · rw [if_pos ⟨rfl, rfl⟩]

/-- One option of a pass goes through when the pool holds values of the option. -/
theorem exists_fillCell {st : List ℤ} (hlen : row.conf.values.length = dom.nVars)
    (hvar : var < dom.nVars) (hpool : row.pools[var]? = some st)
    (ht : t = -1 ∨ 0 ≤ t ∧ t < dom.nValues var)
    (hst : ∀ v ∈ st, 0 ≤ v ∧ v < dom.nValues var) :
    ∃ row', fillCell dom draws var t row = .ok row' := by
  have hset : ∀ v : ℤ, 0 ≤ v ∧ v < dom.nValues var → ∃ c, row.conf.set dom var v = .ok c :=
    fun v hv => ⟨_, Config.set_eq_ok.mpr ⟨by omega, by omega, rfl⟩⟩
  rw [fillCell, vecAt_of_getElem? hpool, ok_bind]
  rcases ht with rfl | ht
  · rw [if_neg (not_not.mpr rfl)]
    by_cases hne : st ≠ []
    · have hpos : 0 < st.length := List.length_pos_iff.mpr hne
      have hlt : draws row.rng % st.length < st.length := Nat.mod_lt _ hpos
      obtain ⟨c, hc⟩ := hset _ (hst _ (List.getElem_mem hlt))
      rw [if_pos hne, randBelow, if_neg (Nat.ne_of_gt hpos), ok_bind]
      simp only [vecAt_of_getElem? (List.getElem?_eq_getElem hlt), hc, ok_bind]
      exact ⟨_, rfl⟩
    · have hpos := dom.nValues_pos hvar
      have hlt := Nat.mod_lt (draws row.rng) hpos
      obtain ⟨c, hc⟩ := hset ((draws row.rng % dom.nValues var : ℕ) : ℤ) (by omega)
      rw [if_neg hne, randBelow, if_neg (Nat.ne_of_gt hpos), ok_bind]
      simp only [hc, ok_bind]
      exact ⟨_, rfl⟩
  · obtain ⟨c, hc⟩ := hset t ht
    have hne : t ≠ -1 := by omega
    rw [if_pos hne, hc, ok_bind]
    exact ⟨_, rfl⟩

/-- What a pass does from the option `var` on.

The options before `var` are said to be untouched, and those from `var` on are indexed by
their distance to it: in this form the induction over the options goes through, and a
whole pass is the case `var = 0`.  `nFinished` is not counted here but balanced against the
pools that are not empty, as the source adds to it in the pass that empties a pool. -/
structure Passed (dom : Domain) (var : ℕ) (ts : List ℤ) (row row' : Row) : Prop where
  conf : row'.conf = { row.conf with values := row'.conf.values }
  length : row'.conf.values.length = row.conf.values.length
  pools_length : row'.pools.length = row.pools.length
  before : ∀ j < var, row'.conf.values[j]? = row.conf.values[j]? ∧ row'.pools[j]? = row.pools[j]?
  cell : ∀ (i : ℕ) (t : ℤ), ts[i]? = some t → ∃ st st' v, row.pools[var + i]? = some st ∧
    Cell dom (var + i) t st st' v ∧ (-1 ≤ v ∧ v < dom.nValues (var + i)) ∧
    row'.pools[var + i]? = some st' ∧ row'.conf.values[var + i]? = some (toShort v)
  nFinished : row'.nFinished + live row'.pools = row.nFinished + live row.pools
  vrand : ∀ i, i ∈ row'.vrand ↔ i ∈ row.vrand ∨
    ∃ j, i = var + j ∧ ts[j]? = some (-1) ∧ row.pools[i]? = some []

/-- **A pass**, option by option. -/
theorem passed_of_fillRow (h : fillRow dom draws var ts row = .ok row') :
    Passed dom var ts row row' := by
  induction ts generalizing var row with
  | nil =>
      cases h
      exact ⟨rfl, rfl, rfl, fun _ _ => ⟨rfl, rfl⟩, fun i t ht => by simp at ht, rfl, by simp⟩
  | cons t ts ih =>
      rw [fillRow_cons] at h
      obtain ⟨row₁, hcell, hrest⟩ := bind_eq_ok.mp h
      obtain ⟨st, st', v, hfill⟩ := filled_of_fillCell hcell
      have hpass := ih hrest
      have hltp : var < row.pools.length := (List.getElem?_eq_some_iff.mp hfill.pool).1
      -- the rest of the pass leaves the option alone, and the option the rest
      have hself := hpass.before var (Nat.lt_succ_self var)
      have hpools : ∀ j, j ≠ var → row₁.pools[j]? = row.pools[j]? := fun j hj => by
        rw [hfill.pools, List.getElem?_set_ne (Ne.symm hj)]
      have hvalues : ∀ j, j ≠ var → row₁.conf.values[j]? = row.conf.values[j]? := fun j hj => by
        rw [hfill.conf, List.getElem?_set_ne (Ne.symm hj)]
      refine ⟨?_, ?_, ?_, fun j hj => ?_, fun i t' ht => ?_, hpass.nFinished.trans hfill.nFinished,
        fun i => ?_⟩
      · rw [hpass.conf, hfill.conf]
      · rw [hpass.length, hfill.conf, List.length_set]
      · rw [hpass.pools_length, hfill.pools, List.length_set]
      · obtain ⟨hv, hp⟩ := hpass.before j (by omega)
        exact ⟨hv.trans (hvalues j (by omega)), hp.trans (hpools j (by omega))⟩
      · cases i with
        | zero =>
            cases ht
            refine ⟨st, st', v, hfill.pool, hfill.cell, hfill.range, ?_, ?_⟩
            · rw [Nat.add_zero, hself.2, hfill.pools, List.getElem?_set_self hltp]
            · rw [Nat.add_zero, hself.1, hfill.conf, List.getElem?_set_self hfill.lt]
        | succ i =>
            obtain ⟨s, s', w, hs, hcell', hrange, hs', hw⟩ := hpass.cell i t' ht
            rw [Nat.add_right_comm] at hs hcell' hrange hs' hw
            rw [hpools _ (by omega)] at hs
            exact ⟨s, s', w, hs, hcell', hrange, hs', hw⟩
      · rw [hpass.vrand, hfill.vrand, List.mem_append, or_assoc]
        refine or_congr_right ⟨?_, ?_⟩
        · rintro (hmem | ⟨j, rfl, htj, hpj⟩)
          · split at hmem
            · next hopen =>
                obtain rfl := List.mem_singleton.mp hmem
                exact ⟨0, rfl, by rw [hopen.1]; rfl, by rw [hfill.pool, hopen.2]⟩
            · cases hmem
          · refine ⟨j + 1, by omega, htj, ?_⟩
            rwa [hpools _ (by omega)] at hpj
        · rintro ⟨j, rfl, htj, hpj⟩
          cases j with
          | zero =>
              cases htj
              rw [Nat.add_zero, hfill.pool, Option.some.injEq] at hpj
              exact .inl (by rw [if_pos ⟨rfl, hpj⟩]; exact List.mem_singleton_self _)
          | succ j =>
              refine .inr ⟨j, by omega, htj, ?_⟩
              rwa [hpools _ (by omega)]

/-- Every pool holds values of its option. -/
def PoolsIn (dom : Domain) (pools : List (List ℤ)) : Prop :=
  ∀ (j : ℕ) (st : List ℤ), pools[j]? = some st → ∀ v ∈ st, 0 ≤ v ∧ v < dom.nValues j

/-- Drawing leaves a part of the pool. -/
theorem Cell.subset {st st' : List ℤ} {v : ℤ} (h : Cell dom var t st st' v) : st' ⊆ st := by
  cases h with
  | fixed _ => exact List.Subset.refl _
  | drawn _ hperm => exact fun w hw => hperm.subset (List.mem_cons_of_mem _ hw)
  | any _ => exact List.Subset.refl _

/-- A pass goes through when the pools hold values of their options. -/
theorem exists_fillRow (hlen : row.conf.values.length = dom.nVars)
    (hpools : row.pools.length = dom.nVars) (hvar : var + ts.length ≤ dom.nVars)
    (hts : ∀ (i : ℕ) (t : ℤ), ts[i]? = some t → t = -1 ∨ 0 ≤ t ∧ t < dom.nValues (var + i))
    (hin : PoolsIn dom row.pools) : ∃ row', fillRow dom draws var ts row = .ok row' := by
  induction ts generalizing var row with
  | nil => exact ⟨row, rfl⟩
  | cons t ts ih =>
      rw [List.length_cons] at hvar
      have hlt : var < row.pools.length := by omega
      obtain ⟨row₁, hcell⟩ := exists_fillCell hlen (by omega) (List.getElem?_eq_getElem hlt)
        (hts 0 t rfl) (hin var _ (List.getElem?_eq_getElem hlt))
      obtain ⟨st, st', v, hfill⟩ := filled_of_fillCell hcell
      obtain ⟨row', hrest⟩ := @ih (var + 1) row₁ (by rw [hfill.conf, List.length_set, hlen])
        (by rw [hfill.pools, List.length_set, hpools]) (by omega)
        (fun i t' ht => by
          have := hts (i + 1) t' ht
          rwa [← Nat.add_assoc, Nat.add_right_comm] at this)
        (fun j s hs w hw => by
          rw [hfill.pools, List.getElem?_set] at hs
          split at hs
          · next heq =>
              subst heq
              cases hs
              exact hin var st hfill.pool w (hfill.cell.subset hw)
          · exact hin j s hs w hw)
      exact ⟨row', by rw [fillRow_cons, hcell, ok_bind, hrest]⟩

end Pass

/-! ## The loop of the domain -/

/-- A **template** leaves an option open or gives it one of its values. -/
def Config.Template (dom : Domain) (templ : Config) : Prop :=
  templ.values.length = dom.nVars ∧
    ∀ (var : ℕ) (t : ℤ), templ.values[var]? = some t → t = -1 ∨ 0 ≤ t ∧ t < dom.nValues var

/-- The values of an option. -/
def valuesOf (dom : Domain) (var : ℕ) : List ℤ := (List.range (dom.nValues var)).map fun i : ℕ => (i : ℤ)

theorem mem_valuesOf {dom : Domain} {var : ℕ} {v : ℤ} :
    v ∈ valuesOf dom var ↔ 0 ≤ v ∧ v < dom.nValues var := by
  simp only [valuesOf, List.mem_map, List.mem_range]
  constructor
  · rintro ⟨i, hi, rfl⟩
    omega
  · intro hv
    exact ⟨v.toNat, by omega, by omega⟩

theorem nodup_valuesOf {dom : Domain} {var : ℕ} : (valuesOf dom var).Nodup :=
  List.nodup_range.map fun i j h => by exact_mod_cast h

/-- After `k` passes every open option has `k` values less in its pool, and
`nFinished` counts the empty pools.

The subtraction is the one of natural numbers: a pool that has become empty stays so, and
the option takes any value from then on. -/
structure Pooled (dom : Domain) (templ : Config) (pools : List (List ℤ)) (nFinished k : ℕ) : Prop where
  length : pools.length = dom.nVars
  finished : nFinished + live pools = dom.nVars
  inside : PoolsIn dom pools
  fixed : ∀ (var : ℕ) (t : ℤ), templ.values[var]? = some t → t ≠ -1 → pools[var]? = some []
  count : ∀ var st, templ.values[var]? = some (-1) → pools[var]? = some st →
    st.length = dom.nValues var - k

namespace Pooled

variable {dom : Domain} {templ : Config} {pools : List (List ℤ)} {nFinished k : ℕ}

theorem exists_pool (h : Pooled dom templ pools nFinished k) {var : ℕ} (hvar : var < dom.nVars) :
    ∃ st, pools[var]? = some st :=
  ⟨_, List.getElem?_eq_getElem (by rw [h.length]; exact hvar)⟩

/-- The option still has values to draw. -/
theorem ne_nil_iff (h : Pooled dom templ pools nFinished k) {var : ℕ}
    (hopen : templ.values[var]? = some (-1)) {st : List ℤ} (hst : pools[var]? = some st) :
    st ≠ [] ↔ k < dom.nValues var := by
  rw [← List.length_pos_iff, h.count var st hopen hst]
  omega

/-- The loop goes on as long as some open option has values to draw. -/
theorem finished_lt_iff (h : Pooled dom templ pools nFinished k) (htempl : templ.Template dom) :
    nFinished < dom.nVars ↔ ∃ var, templ.values[var]? = some (-1) ∧ k < dom.nValues var := by
  have hlive : nFinished < dom.nVars ↔ 0 < live pools := by
    have := h.finished
    omega
  rw [hlive, live, List.countP_pos_iff]
  constructor
  · rintro ⟨st, hmem, hne⟩
    obtain ⟨var, hst⟩ := List.mem_iff_getElem?.mp hmem
    have hlt : var < templ.values.length := by
      rw [htempl.1, ← h.length]
      exact (List.getElem?_eq_some_iff.mp hst).1
    have hget := List.getElem?_eq_getElem hlt
    by_cases hopen : templ.values[var] = -1
    · rw [hopen] at hget
      exact ⟨var, hget, (h.ne_nil_iff hget hst).mp (by simpa using hne)⟩
    · rw [h.fixed var _ hget hopen, Option.some.injEq] at hst
      exact absurd hst.symm (by simpa using hne)
  · rintro ⟨var, hopen, hlt⟩
    have hvar := (List.getElem?_eq_some_iff.mp hopen).1
    rw [htempl.1] at hvar
    obtain ⟨st, hst⟩ := h.exists_pool hvar
    exact ⟨st, List.mem_of_getElem? hst, by simpa using (h.ne_nil_iff hopen hst).mpr hlt⟩

/-- A pass goes through. -/
theorem exists_row (h : Pooled dom templ pools nFinished k) (htempl : templ.Template dom)
    (draws : ℕ → ℕ) (rng : ℕ) : ∃ row, fillRow dom draws 0 templ.values
      { conf := Config.new dom, pools, nFinished, vrand := [], rng } = .ok row := by
  refine exists_fillRow (List.length_replicate ..) h.length ?_ (fun i t ht => ?_) h.inside
  · rw [Nat.zero_add, htempl.1]
  · rw [Nat.zero_add]
    exact htempl.2 i t ht

section Step

variable (hrange : ∀ v ∈ dom.vars, v.nValues ≤ 32768) (htempl : templ.Template dom) {rng : ℕ}
  {row : Row}
  (hpass : Passed dom 0 templ.values { conf := Config.new dom, pools, nFinished, vrand := [], rng }
    row)

include htempl hpass

/-- The cells of a pass that makes a configuration. -/
theorem cell_nonneg (h : Pooled dom templ pools nFinished k) (var : ℕ) (t : ℤ)
    (ht : templ.values[var]? = some t) : ∃ st st' v, pools[var]? = some st ∧
      Cell dom var t st st' v ∧ (0 ≤ v ∧ v < dom.nValues var) ∧ row.pools[var]? = some st' ∧
      row.conf.values[var]? = some (toShort v) := by
  obtain ⟨st, st', v, hst, hcell, hv, hst', hval⟩ := hpass.cell var t ht
  rw [Nat.zero_add] at hst hcell hv hst' hval
  have hnonneg : 0 ≤ v := by
    cases hcell with
    | fixed hne => exact ((htempl.2 var _ ht).resolve_left hne).1
    | drawn _ hperm => exact (h.inside var st hst v (hperm.subset (List.mem_cons_self ..))).1
    | any hnonneg => exact hnonneg
  exact ⟨st, st', v, hst, hcell, ⟨hnonneg, hv.2⟩, hst', hval⟩

/-- **A pass takes a value out of every pool** that is not empty. -/
theorem step (h : Pooled dom templ pools nFinished k) :
    Pooled dom templ row.pools row.nFinished (k + 1) := by
  have hcell := h.cell_nonneg htempl hpass
  have hget : ∀ (var : ℕ) (st : List ℤ), row.pools[var]? = some st →
      ∃ t, templ.values[var]? = some t := fun var st hst => by
    have hvar := (List.getElem?_eq_some_iff.mp hst).1
    rw [hpass.pools_length] at hvar
    exact ⟨_, List.getElem?_eq_getElem (by rwa [htempl.1, ← h.length])⟩
  refine ⟨hpass.pools_length.trans h.length, hpass.nFinished.trans h.finished, ?_, ?_, ?_⟩
  · intro var st hst v hv
    obtain ⟨t, ht⟩ := hget var st hst
    obtain ⟨st₀, st', w, hst₀, hdraw, -, hst', -⟩ := hcell var t ht
    rw [hst, Option.some.injEq] at hst'
    subst hst'
    exact h.inside var st₀ hst₀ v (hdraw.subset hv)
  · intro var t ht hne
    obtain ⟨st, st', v, hst, hdraw, -, hst', -⟩ := hcell var t ht
    rw [h.fixed var t ht hne, Option.some.injEq] at hst
    subst hst
    cases hdraw with
    | fixed _ => exact hst'
    | drawn _ _ => exact absurd rfl hne
    | any _ => exact absurd rfl hne
  · intro var st' hopen hst'
    obtain ⟨st, st'', v, hst, hdraw, -, hst'', -⟩ := hcell var _ hopen
    rw [hst', Option.some.injEq] at hst''
    subst hst''
    have hcount := h.count var st hopen hst
    cases hdraw with
    | fixed hne => exact absurd rfl hne
    | drawn _ hperm =>
        have := hperm.length_eq
        rw [List.length_cons] at this
        omega
    | any _ =>
        rw [List.length_nil] at hcount ⊢
        omega

include hrange

/-- The value of every option is one of its own, and fits a `short`. -/
theorem cell (h : Pooled dom templ pools nFinished k) (var : ℕ) (t : ℤ)
    (ht : templ.values[var]? = some t) : ∃ st st' v, pools[var]? = some st ∧
      Cell dom var t st st' v ∧ (0 ≤ v ∧ v < dom.nValues var) ∧ row.pools[var]? = some st' ∧
      row.conf.values[var]? = some v := by
  obtain ⟨st, st', v, hst, hcell, hv, hst', hval⟩ := h.cell_nonneg htempl hpass var t ht
  have hlt : var < dom.vars.length := by
    have hvar := (List.getElem?_eq_some_iff.mp ht).1
    rwa [htempl.1] at hvar
  have hshort : v < 32768 := by
    have hle := hrange _ (List.getElem_mem hlt)
    have hn := Domain.nValues_of_getElem? (List.getElem?_eq_getElem hlt)
    omega
  rw [toShort_of_range (by omega) hshort] at hval
  exact ⟨st, st', v, hst, hcell, hv, hst', hval⟩

/-- **A pass makes a complete configuration** that agrees with the template. -/
theorem complete_row (h : Pooled dom templ pools nFinished k) :
    row.conf.Complete dom ∧ templ.Matches dom row.conf := by
  have hlen : row.conf.values.length = dom.nVars := by
    rw [hpass.length, Config.new, List.length_replicate]
  have hget : ∀ var < dom.nVars, ∃ t, templ.values[var]? = some t := fun var hvar =>
    ⟨_, List.getElem?_eq_getElem (by rw [htempl.1]; exact hvar)⟩
  refine ⟨⟨hlen, fun var w hw => ?_⟩, fun var hvar => ?_⟩
  · have hvar := (List.getElem?_eq_some_iff.mp hw).1
    rw [hlen] at hvar
    obtain ⟨t, ht⟩ := hget var hvar
    obtain ⟨_, _, v, _, _, hv, _, hval⟩ := h.cell hrange htempl hpass var t ht
    rw [hw, Option.some.injEq] at hval
    rwa [hval]
  · obtain ⟨t, ht⟩ := hget var hvar
    by_cases hopen : t = -1
    · exact .inl (hopen ▸ ht)
    · obtain ⟨_, _, v, _, hcell, _, _, hval⟩ := h.cell hrange htempl hpass var t ht
      cases hcell with
      | fixed _ => exact .inr (ht.trans hval.symm)
      | drawn _ _ => exact absurd rfl hopen
      | any _ => exact absurd rfl hopen

end Step

end Pooled

/-- The configurations `cs` have been **drawn**: they are complete and agree with the
template, and for an open option the values of the first configurations, as many as
the option has values, make up what is missing from its pool.

That it is a permutation gives both halves of the result.  No value of a largest option
comes up twice while its pool lasts, so no two configurations are the same (`Drawn.nodup`);
and every value has come up when a pool is empty (`Drawn.exists_value`). -/
structure Drawn (dom : Domain) (templ : Config) (pools : List (List ℤ)) (nFinished : ℕ)
    (cs : List Config) : Prop extends Pooled dom templ pools nFinished cs.length where
  perm : ∀ var st, templ.values[var]? = some (-1) → pools[var]? = some st →
    (((cs.take (dom.nValues var)).map fun c => (c.val var : ℤ)) ++ st).Perm (valuesOf dom var)
  complete : ∀ c ∈ cs, c.Complete dom ∧ templ.Matches dom c

/-- **One pass of the loop of the domain.** -/
theorem Drawn.step {dom : Domain} {templ : Config} {pools : List (List ℤ)} {nFinished rng : ℕ}
    {cs : List Config} {row : Row} (h : Drawn dom templ pools nFinished cs)
    (hrange : ∀ v ∈ dom.vars, v.nValues ≤ 32768) (htempl : templ.Template dom)
    (hpass : Passed dom 0 templ.values { conf := Config.new dom, pools, nFinished, vrand := [], rng }
      row) : Drawn dom templ row.pools row.nFinished (cs ++ [row.conf]) := by
  obtain ⟨hcomplete, hmatches⟩ := h.complete_row hrange htempl hpass
  have hlen : (cs ++ [row.conf]).length = cs.length + 1 := by simp
  refine ⟨hlen ▸ h.toPooled.step htempl hpass, fun var st' hopen hst' => ?_, fun c hc => ?_⟩
  · obtain ⟨st, st₁, v, hst, hdraw, hv, hst₁, hval⟩ := h.cell hrange htempl hpass var _ hopen
    rw [hst', Option.some.injEq] at hst₁
    subst hst₁
    have hperm := h.perm var st hopen hst
    cases hdraw with
    | fixed hne => exact absurd rfl hne
    | drawn hne hdrawn =>
        have hlt := (h.ne_nil_iff hopen hst).mp hne
        have hvalue : (row.conf.val var : ℤ) = v := by
          have hvar := (List.getElem?_eq_some_iff.mp hval).1
          rw [hcomplete.getElem? (by rwa [hcomplete.1] at hvar), Option.some.injEq] at hval
          exact hval
        rw [List.take_of_length_le hlt.le] at hperm
        rw [List.take_of_length_le (by omega), List.map_append, List.map_singleton, hvalue,
          List.append_assoc, List.singleton_append]
        exact (hdrawn.append_left _).trans hperm
    | any _ =>
        have hle : dom.nValues var ≤ cs.length := by
          have := h.count var [] hopen hst
          rw [List.length_nil] at this
          omega
        rwa [List.take_append_of_le_length hle]
  · rcases List.mem_append.mp hc with hc | hc
    · exact h.complete c hc
    · rw [List.mem_singleton.mp hc]
      exact ⟨hcomplete, hmatches⟩

/-! ### The pools at the beginning -/

section Pools

variable {dom : Domain} {templ : Config}

/-- The pool an option begins with. -/
def poolOf (dom : Domain) (templ : Config) (var : ℕ) : List ℤ :=
  if templ.values[var]? = some (-1) then valuesOf dom var else []

theorem poolOf_ne_nil_iff {var : ℕ} (hvar : var < dom.nVars) :
    poolOf dom templ var ≠ [] ↔ templ.values[var]? = some (-1) := by
  have hpos := dom.nValues_pos hvar
  rw [poolOf]
  split
  · next hopen =>
      refine iff_of_true (fun hnil => ?_) hopen
      have hlen := congrArg List.length hnil
      rw [valuesOf, List.length_map, List.length_range, List.length_nil] at hlen
      omega
  · next hfixed => exact iff_of_false (not_not.mpr rfl) hfixed

/-- The loop that makes the pools, with the number of options that have none.  The two
functions differ in how they make one pool. -/
theorem foldlM_pools (htempl : templ.Template dom) {pool : ℕ → Except Abort (List ℤ)}
    (hpool : ∀ var < dom.nVars, pool var = .ok (valuesOf dom var)) :
    (List.range dom.nVars).foldlM
        (fun (st : List (List ℤ) × ℕ) var => do
          let t ← templ.get var
          if t = -1 then
            let pool ← pool var
            .ok (st.1 ++ [pool], st.2)
          else .ok (st.1 ++ [[]], st.2 + 1)) ([], 0) =
      .ok ((List.range dom.nVars).map (poolOf dom templ),
        (List.range dom.nVars).countP fun var => templ.values[var]? ≠ some (-1)) := by
  generalize hbody : (fun (st : List (List ℤ) × ℕ) var => (do
    let t ← templ.get var
    if t = -1 then
      let pool ← pool var
      .ok (st.1 ++ [pool], st.2)
    else .ok (st.1 ++ [[]], st.2 + 1) : Except Abort (List (List ℤ) × ℕ))) = body
  have hrun : Meets ((List.range dom.nVars).foldlM body ([], 0)) (fun st => st =
      ((List.range dom.nVars).map (poolOf dom templ),
        (List.range dom.nVars).countP fun var => templ.values[var]? ≠ some (-1)))
      fun _ => False := by
    refine meets_foldlM (fun (done : List ℕ) st => st = (done.map (poolOf dom templ),
      done.countP fun var => templ.values[var]? ≠ some (-1))) _ (fun done var rest st hsplit hst => ?_)
      rfl
    have hvar : var < dom.nVars := List.mem_range.mp (by rw [hsplit]; simp)
    have hlt : var < templ.values.length := by rwa [htempl.1]
    have hget := List.getElem?_eq_getElem hlt
    subst hst hbody
    simp only [Config.get, vecAt_of_getElem? hget, ok_bind]
    by_cases hopen : templ.values[var] = -1
    · rw [if_pos hopen, hpool var hvar, ok_bind]
      rw [hopen] at hget
      simp [poolOf, hget]
    · rw [if_neg hopen]
      simp [poolOf, hget, hopen]
  obtain ⟨st, hst, rfl⟩ := hrun.exists_ok
  exact hst

/-- A pool of at most `32767` values is complete. -/
theorem shortPools_eq (hrange : ∀ v ∈ dom.vars, v.nValues ≤ 32767) (htempl : templ.Template dom) :
    shortPools dom templ = .ok ((List.range dom.nVars).map (poolOf dom templ),
      (List.range dom.nVars).countP fun var => templ.values[var]? ≠ some (-1)) := by
  refine foldlM_pools htempl fun var hvar => ?_
  have hle := hrange _ (List.getElem_mem hvar)
  rw [← Domain.nValues_of_getElem? (List.getElem?_eq_getElem hvar)] at hle
  have hshort : toShort (dom.nValues var) = dom.nValues var := toShort_of_range (by omega) (by omega)
  rw [shortPool, hshort, if_pos (Int.natCast_nonneg _), Int.toNat_natCast]
  rfl

/-- The pools before the first pass. -/
theorem pooled_zero (htempl : templ.Template dom) :
    Pooled dom templ ((List.range dom.nVars).map (poolOf dom templ))
      ((List.range dom.nVars).countP fun var => templ.values[var]? ≠ some (-1)) 0 := by
  have hget : ∀ (var : ℕ) (st : List ℤ),
      ((List.range dom.nVars).map (poolOf dom templ))[var]? = some st → st = poolOf dom templ var := by
    intro var st hst
    rw [List.getElem?_map, Option.map_eq_some_iff] at hst
    obtain ⟨w, hw, rfl⟩ := hst
    obtain ⟨-, rfl⟩ := List.getElem?_eq_some_iff.mp hw
    rw [List.getElem_range]
  refine ⟨by simp, ?_, ?_, fun var t ht hne => ?_, fun var st hopen hst => ?_⟩
  · have hlive : live ((List.range dom.nVars).map (poolOf dom templ)) =
        (List.range dom.nVars).countP fun var => templ.values[var]? = some (-1) := by
      rw [live, List.countP_map]
      refine List.countP_congr fun var hvar => ?_
      simpa using poolOf_ne_nil_iff (List.mem_range.mp hvar)
    have hall := List.length_eq_countP_add_countP
      (p := fun var => decide (templ.values[var]? = some (-1))) (l := List.range dom.nVars)
    rw [List.length_range] at hall
    rw [hlive]
    simp only [decide_eq_true_eq, ne_eq, decide_not] at hall ⊢
    omega
  · intro var st hst v hv
    rw [hget var st hst, poolOf] at hv
    split at hv
    · exact mem_valuesOf.mp hv
    · cases hv
  · have hvar := (List.getElem?_eq_some_iff.mp ht).1
    rw [htempl.1] at hvar
    rw [List.getElem?_map, List.getElem?_range hvar, Option.map_some, poolOf, if_neg]
    rw [ht, Option.some.injEq]
    exact hne
  · rw [hget var st hst, poolOf, if_pos hopen, valuesOf, List.length_map, List.length_range]
    rfl

theorem drawn_nil (htempl : templ.Template dom) :
    Drawn dom templ ((List.range dom.nVars).map (poolOf dom templ))
      ((List.range dom.nVars).countP fun var => templ.values[var]? ≠ some (-1)) [] := by
  refine ⟨pooled_zero htempl, fun var st hopen hst => ?_, by simp⟩
  have hvar := (List.getElem?_eq_some_iff.mp hopen).1
  rw [htempl.1] at hvar
  rw [List.getElem?_map, List.getElem?_range hvar, Option.map_some, Option.some.injEq] at hst
  rw [← hst, poolOf, if_pos hopen]
  simp

end Pools

/-! ### The loop -/

namespace Drawn

variable {dom : Domain} {templ : Config} {pools : List (List ℤ)} {nFinished : ℕ} {cs : List Config}

/-- The largest pool decides whether the loop goes on. -/
theorem finished_lt_iff_of_isGreatest (h : Drawn dom templ pools nFinished cs)
    (htempl : templ.Template dom) {m : ℕ}
    (hm : IsGreatest {n | ∃ var, templ.values[var]? = some (-1) ∧ n = dom.nValues var} m) :
    nFinished < dom.nVars ↔ cs.length < m := by
  rw [h.finished_lt_iff htempl]
  constructor
  · rintro ⟨var, hopen, hlt⟩
    exact hlt.trans_le (hm.2 ⟨var, hopen, rfl⟩)
  · intro hlt
    obtain ⟨var, hopen, rfl⟩ := hm.1
    exact ⟨var, hopen, hlt⟩

/-- **The loop ends** after as many passes as the largest pool has values, or at the
limit. -/
theorem coverLoop (h : Drawn dom templ pools nFinished cs)
    (hrange : ∀ v ∈ dom.vars, v.nValues ≤ 32768) (htempl : templ.Template dom) {m : ℕ}
    (hm : IsGreatest {n | ∃ var, templ.values[var]? = some (-1) ∧ n = dom.nValues var} m)
    (draws : ℕ → ℕ) {lim : ℕ} (hlen : cs.length ≤ min lim m) {fuel : ℕ} (hfuel : lim < cs.length + fuel)
    (rng : ℕ) : ∃ cs' rng' pools' nFinished',
      GenTree.coverLoop dom draws templ lim fuel pools nFinished rng cs = .ok (cs', rng') ∧
        cs'.length = min lim m ∧ Drawn dom templ pools' nFinished' cs' := by
  induction fuel generalizing pools nFinished cs rng with
  | zero => omega
  | succ fuel ih =>
      have hmore := h.finished_lt_iff_of_isGreatest htempl hm
      rw [GenTree.coverLoop]
      by_cases hgo : nFinished < dom.nVars ∧ (cs.length : ℤ) < lim
      · rw [if_pos hgo]
        obtain ⟨row, hrow⟩ := h.exists_row htempl draws rng
        rw [hrow, ok_bind]
        have hstep := h.step hrange htempl (passed_of_fillRow hrow)
        have hlen' : (cs ++ [row.conf]).length = cs.length + 1 := by simp
        have hlt := hmore.mp hgo.1
        exact ih hstep (by omega) (by omega) row.rng
      · rw [if_neg hgo]
        refine ⟨cs, rng, pools, nFinished, rfl, ?_, h⟩
        omega

end Drawn

namespace Drawn

variable {dom : Domain} {templ : Config} {pools : List (List ℤ)} {nFinished : ℕ} {cs : List Config}

/-- As long as some open option has drawn all its values, no two configurations are
the same. -/
theorem nodup (h : Drawn dom templ pools nFinished cs) (htempl : templ.Template dom) {var : ℕ}
    (hopen : templ.values[var]? = some (-1)) (hlen : cs.length ≤ dom.nValues var) :
    (cs.map Config.values).Nodup := by
  have hvar := (List.getElem?_eq_some_iff.mp hopen).1
  rw [htempl.1] at hvar
  obtain ⟨st, hst⟩ := h.exists_pool hvar
  have hperm := h.perm var st hopen hst
  have hvals : (cs.map fun c => (c.val var : ℤ)).Nodup := by
    have hall := (hperm.nodup_iff.mpr nodup_valuesOf).of_append_left
    rwa [List.take_of_length_le hlen] at hall
  refine List.Nodup.of_map (fun values : List ℤ => ((values[var]?.getD 0).toNat : ℤ)) ?_
  rw [List.map_map]
  exact hvals

/-- When all pools are exhausted, every value has been drawn. -/
theorem exists_value (h : Drawn dom templ pools nFinished cs) (htempl : templ.Template dom) {var : ℕ}
    (hopen : templ.values[var]? = some (-1)) (hlen : dom.nValues var ≤ cs.length) {v : ℕ}
    (hv : v < dom.nValues var) : ∃ c ∈ cs, c.val var = v := by
  have hvar := (List.getElem?_eq_some_iff.mp hopen).1
  rw [htempl.1] at hvar
  obtain ⟨st, hst⟩ := h.exists_pool hvar
  have hcount := h.count var st hopen hst
  have hperm := h.perm var st hopen hst
  obtain rfl : st = [] := List.length_eq_zero_iff.mp (by omega)
  have hmem : (v : ℤ) ∈ valuesOf dom var := mem_valuesOf.mpr (by omega)
  have hdrawn := hperm.symm.subset hmem
  rw [List.append_nil, List.mem_map] at hdrawn
  obtain ⟨c, hc, heq⟩ := hdrawn
  exact ⟨c, List.mem_of_mem_take hc, by omega⟩

end Drawn

theorem Domain.nValues_le_nAllValues {dom : Domain} {var : ℕ} (hvar : var < dom.nVars) :
    dom.nValues var ≤ dom.nAllValues := by
  rw [Domain.nValues_of_getElem? (List.getElem?_eq_getElem hvar)]
  exact List.le_sum_of_mem (List.mem_map_of_mem (List.getElem_mem hvar))

section Generate

variable {dom : Domain} {templ : Config} {m : ℕ}

/-- **The function returns** what has been drawn, whatever its limit.  Without one, `m`
passes exhaust all pools; with one, the loop stops earlier, with the same invariant. -/
theorem genOneConveringConfigsOf_eq (hrange : ∀ v ∈ dom.vars, v.nValues ≤ 32767)
    (htempl : templ.Template dom)
    (hm : IsGreatest {n | ∃ var, templ.values[var]? = some (-1) ∧ n = dom.nValues var} m)
    (draws : ℕ → ℕ) (lim rng : ℕ) : ∃ cs rng' pools nFinished,
      genOneConveringConfigsOf dom draws templ lim rng = .ok (cs, rng') ∧
        cs.length = min lim m ∧ Drawn dom templ pools nFinished cs := by
  obtain ⟨cs, rng', pools, nFinished, hrun, hlen, hdrawn⟩ := (drawn_nil htempl).coverLoop
    (fun v hv => (hrange v hv).trans (by decide)) htempl hm draws (Nat.zero_le (min lim m))
    (show lim < [].length + ((lim : ℤ).toNat + 1) by simp) rng
  refine ⟨cs, rng', pools, nFinished, ?_, hlen, hdrawn⟩
  rw [genOneConveringConfigsOf, shortPools_eq hrange htempl, ok_bind]
  exact hrun

/-- **Covering configurations.**  With no more values than a `short` has, the
configurations drawn for a template with an open option are complete, agree with the
template, differ from each other, are as many as the largest open option has values,
and contain every value of every open option.  A limit only cuts their number: what is
then missing is that every value comes up.

The number `m` is an assumption about the template, that some option is open; a template
without one gives no configuration at all. -/
theorem genOneConveringConfigsOf_covers (hrange : ∀ v ∈ dom.vars, v.nValues ≤ 32767)
    (htempl : templ.Template dom)
    (hm : IsGreatest {n | ∃ var, templ.values[var]? = some (-1) ∧ n = dom.nValues var} m)
    (draws : ℕ → ℕ) (rng : ℕ) :
    (∃ cs rng', genOneConveringConfigsOf dom draws templ intMax rng = .ok (cs, rng') ∧
      cs.length = m ∧ (∀ c ∈ cs, c.Complete dom ∧ templ.Matches dom c) ∧
      (cs.map Config.values).Nodup ∧
      ∀ var, templ.values[var]? = some (-1) → ∀ v < dom.nValues var, ∃ c ∈ cs, c.val var = v) ∧
    ∀ k : ℕ, ∃ cs rng', genOneConveringConfigsOf dom draws templ k rng = .ok (cs, rng') ∧
      cs.length = min k m ∧ (∀ c ∈ cs, c.Complete dom ∧ templ.Matches dom c) ∧
      (cs.map Config.values).Nodup := by
  obtain ⟨big, hbig, heq⟩ := hm.1
  have hsmall : m ≤ 32767 := by
    have hvar := (List.getElem?_eq_some_iff.mp hbig).1
    rw [htempl.1] at hvar
    rw [heq, Domain.nValues_of_getElem? (List.getElem?_eq_getElem hvar)]
    exact hrange _ (List.getElem_mem hvar)
  constructor
  · obtain ⟨cs, rng', pools, nFinished, hrun, hlen, hdrawn⟩ :=
      genOneConveringConfigsOf_eq hrange htempl hm draws 2147483647 rng
    have hlen' : cs.length = m := by omega
    refine ⟨cs, rng', hrun, hlen', hdrawn.complete, hdrawn.nodup htempl hbig (by omega), ?_⟩
    intro var hopen v hv
    have hle := hm.2 ⟨var, hopen, rfl⟩
    exact hdrawn.exists_value htempl hopen (by omega) hv
  · intro k
    obtain ⟨cs, rng', pools, nFinished, hrun, hlen, hdrawn⟩ :=
      genOneConveringConfigsOf_eq hrange htempl hm draws k rng
    exact ⟨cs, rng', hrun, hlen, hdrawn.complete, hdrawn.nodup htempl hbig (by omega)⟩

/-- A fixed switch, an open one, and an open option with three values: three
configurations, and two under a limit. -/
theorem genOneConveringConfigsOf_covers_three :
    let dom : Domain :=
      { vars := [⟨"a", ["0", "1"]⟩, ⟨"b", ["0", "1"]⟩, ⟨"c", ["0", "1", "2"]⟩]
        labels_pos := by decide
        vars_le := by decide }
    let templ : Config := { values := [1, -1, -1] }
    (∃ cs rng', genOneConveringConfigsOf dom id templ intMax 0 = .ok (cs, rng') ∧ cs.length = 3 ∧
      (∀ c ∈ cs, c.Complete dom ∧ templ.Matches dom c) ∧ (cs.map Config.values).Nodup ∧
      ∀ var, templ.values[var]? = some (-1) → ∀ v < dom.nValues var, ∃ c ∈ cs, c.val var = v) ∧
    ∀ k : ℕ, ∃ cs rng', genOneConveringConfigsOf dom id templ k 0 = .ok (cs, rng') ∧
      cs.length = min k 3 ∧ (∀ c ∈ cs, c.Complete dom ∧ templ.Matches dom c) ∧
      (cs.map Config.values).Nodup := by
  intro dom templ
  refine genOneConveringConfigsOf_covers (by decide) ⟨rfl, ?_⟩ ⟨⟨2, rfl, rfl⟩, ?_⟩ id 0
  · intro var t ht
    match var with
    | 0 => cases ht; exact .inr (by decide)
    | 1 => cases ht; exact .inl rfl
    | 2 => cases ht; exact .inl rfl
    | var + 3 => cases ht
  · rintro n ⟨var, hopen, rfl⟩
    match var with
    | 0 => cases hopen
    | 1 => decide
    | 2 => decide
    | var + 3 => cases hopen

end Generate

end GenTree

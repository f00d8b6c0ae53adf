import GenTree.Basic
import Mathlib.Algebra.BigOperators.Group.List.Defs
import Mathlib.Algebra.GroupWithZero.Nat
import Mathlib.Tactic.Common

/-!
# Options, configurations and their generators

A domain is a list of options, each with its value labels.  A configuration is a
vector of value indices, one for each option, where `-1` stands for "not fixed".
The value indices are stored as `short`.

The generators of a domain are translated with their loops: `genAllConfigs` is
the recursion over one shared value vector, and `genOneConveringConfigs` draws
every option's values without replacement from a pool until all pools are empty.
Random draws come from a stream `draws`, of which the argument `rng` counts how
many have been used.
-/

namespace GenTree

open Outcome

/-! ## Domains -/

/-- `VarDomain`: one option with its value labels. -/
structure VarDomain where
  name : String
  labels : List String

/-- `VarDomain::n_values`. -/
def VarDomain.nValues (v : VarDomain) : ℕ := v.labels.length

/-- `Domain`: the options in file order.  `parse` rejects an option without
labels, and `n_vars()` narrows the number of options to `int`. -/
structure Domain where
  vars : List VarDomain
  labels_pos : ∀ v ∈ vars, 0 < v.nValues
  vars_le : (vars.length : ℤ) ≤ intMax

namespace Domain

/-- `Domain::n_vars`. -/
def nVars (dom : Domain) : ℕ := dom.vars.length

/-- `Domain::n_values`; `0` for an option that does not exist, where the code
throws. -/
def nValues (dom : Domain) (var : ℕ) : ℕ := (dom.vars[var]?.map VarDomain.nValues).getD 0

/-- `n_all_values_`, the number of labels `parse` has read. -/
def nAllValues (dom : Domain) : ℕ := (dom.vars.map VarDomain.nValues).sum

/-- `config_space`, a `double`, which holds every whole number up to 2^53. -/
def configSpace (dom : Domain) : ℕ := (dom.vars.map VarDomain.nValues).prod

theorem nValues_of_getElem? {dom : Domain} {var : ℕ} {v : VarDomain}
    (h : dom.vars[var]? = some v) : dom.nValues var = v.nValues := by
  simp [nValues, h]

theorem nValues_pos {dom : Domain} {var : ℕ} (h : var < dom.nVars) : 0 < dom.nValues var := by
  have hget : dom.vars[var]? = some (dom.vars.get ⟨var, h⟩) := List.getElem?_eq_getElem h
  rw [nValues_of_getElem? hget]
  exact dom.labels_pos _ (List.get_mem _ _)

theorem lt_nVars_of_nValues_pos {dom : Domain} {var : ℕ} (h : 0 < dom.nValues var) :
    var < dom.nVars := by
  by_contra hle
  have hnone : dom.vars[var]? = none := List.getElem?_eq_none (by unfold nVars at hle; omega)
  simp [nValues, hnone] at h

/-- The domain of `n` switches, options with the labels `0` and `1`. -/
def switches (n : ℕ) (h : (n : ℤ) ≤ intMax) : Domain where
  vars := (List.range n).map fun i => { name := toString i, labels := ["0", "1"] }
  labels_pos := by
    simp only [List.mem_map, forall_exists_index, and_imp, forall_apply_eq_imp_iff₂]
    intro i _
    exact Nat.succ_pos 1
  vars_le := by simpa using h

/-- The domain of one option with `n` values. -/
def single (n : ℕ) (h : 0 < n) : Domain where
  vars := [{ name := "0", labels := (List.range n).map toString }]
  labels_pos := by simpa [VarDomain.nValues] using h
  vars_le := by simp [intMax]

theorem nValues_single {n : ℕ} (h : 0 < n) : (single n h).nValues 0 = n := by
  simp [nValues, single, VarDomain.nValues]

end Domain

/-! ## Configurations -/

/-- The conversion `(short) x`. -/
def toShort (x : ℤ) : ℤ := Int.bmod x 65536

theorem toShort_of_range {x : ℤ} (hlo : -1 ≤ x) (hhi : x < 32768) : toShort x = x := by
  unfold toShort
  rw [Int.bmod_eq_of_le] <;> omega

/-- `Config`: an object with an id (`none` is `-1`, not registered yet), the
value vector, and the ids of the locations it covers.  `hashed` is
`cached_hash_`: the value vector the cached hash was computed from. -/
structure Config where
  id : Option ℕ := none
  values : List ℤ
  covLocs : List ℕ := []
  hashed : Option (List ℤ) := none
  deriving DecidableEq

namespace Config

/-- `Config::Config(ctx)`: all values are zero. -/
def new (dom : Domain) : Config := { values := List.replicate dom.nVars 0 }

/-- `Config::get`. -/
def get (c : Config) (var : ℕ) : Except Abort ℤ := vecAt c.values var

/-- `Config::set`. -/
def set (dom : Domain) (c : Config) (var : ℕ) (value : ℤ) : Except Abort Config := do
  check (-1 ≤ value ∧ value < dom.nValues var) .configValue
  if var < c.values.length then
    .ok { c with values := c.values.set var (toShort value) }
  else .error .outOfRange

/-- The loop of `Config::set_all` from option `var` on. -/
def setFrom (dom : Domain) (c : Config) : ℕ → List ℤ → Except Abort Config
  | _, [] => .ok c
  | var, v :: vs => do
      let c ← c.set dom var v
      setFrom dom c (var + 1) vs

/-- `Config::set_all(vector)`. -/
def setAll (dom : Domain) (c : Config) (values : List ℤ) : Except Abort Config := do
  check (values.length = dom.nVars) .configSize
  setFrom dom c 0 values

/-- `Config::set_all(int)`. -/
def fill (dom : Domain) (c : Config) (value : ℤ) : Except Abort Config :=
  setFrom dom c 0 (List.replicate dom.nVars value)

/-- `Config::Config(ctx, values)`; also the tail of the constructor that reads
the values from a comma separated string. -/
def ofValues (dom : Domain) (values : List ℤ) : Except Abort Config :=
  (Config.new dom).setAll dom values

/-- The value vector that `Config::hash()` hashes: that of the cached hash when
there is one. -/
def hashKey (c : Config) : List ℤ := c.hashed.getD c.values

/-- `Config::hash()` as an effect on the object: the hash is cached. -/
def touchHash (c : Config) : Config := { c with hashed := some c.hashKey }

/-- `Config::hash(true)` as an effect on the object: the cache is renewed. -/
def rehash (c : Config) : Config := { c with hashed := some c.values }

/-- `Config::set_id`. -/
def setId (c : Config) (id : ℕ) : Except Abort Config := do
  check (c.id = none) .configIdSet
  .ok { c with id := some id }

/-- `Config::add_cov_loc_id`. -/
def addCovLocId (c : Config) (locId : ℕ) : Except Abort Config := do
  check (∀ l ∈ c.covLocs.getLast?, l < locId) .configCovOrder
  .ok { c with covLocs := c.covLocs ++ [locId] }

/-- The assignment a configuration stands for. -/
def val (c : Config) (var : ℕ) : ℕ := (c.values[var]?.getD 0).toNat

/-- A **complete** configuration: one value of its own option at each position. -/
def Complete (dom : Domain) (c : Config) : Prop :=
  c.values.length = dom.nVars ∧
    ∀ (var : ℕ) (v : ℤ), c.values[var]? = some v → 0 ≤ v ∧ v < dom.nValues var

instance (dom : Domain) (c : Config) : Decidable (c.Complete dom) :=
  decidable_of_iff (c.values.length = dom.nVars ∧
    ∀ p ∈ c.values.zipIdx, 0 ≤ p.1 ∧ p.1 < dom.nValues p.2) <| by
      refine and_congr_right fun _ => ⟨fun h var v hv => ?_, fun h p hp => ?_⟩
      · exact h (v, var) (List.mem_zipIdx_iff_getElem?.mpr hv)
      · exact h p.2 p.1 (List.mem_zipIdx_iff_getElem?.mp hp)

namespace Complete

variable {dom : Domain} {c : Config}

theorem getElem? (h : c.Complete dom) {var : ℕ} (hvar : var < dom.nVars) :
    c.values[var]? = some (c.val var : ℤ) := by
  have hlt : var < c.values.length := by rw [h.1]; exact hvar
  have hget := List.getElem?_eq_getElem hlt
  have hnn := (h.2 var _ hget).1
  rw [val, hget, Option.getD_some, Int.toNat_of_nonneg hnn]

theorem get_eq_ok (h : c.Complete dom) {var : ℕ} (hvar : var < dom.nVars) :
    c.get var = .ok (c.val var : ℤ) := vecAt_of_getElem? (h.getElem? hvar)

theorem val_lt (h : c.Complete dom) {var : ℕ} (hvar : var < dom.nVars) :
    c.val var < dom.nValues var := by
  have := (h.2 var _ (h.getElem? hvar)).2
  omega

/-- Complete configurations with the same assignment have the same values. -/
theorem values_ext {c' : Config} (h : c.Complete dom) (h' : c'.Complete dom)
    (hval : ∀ var < dom.nVars, c.val var = c'.val var) : c.values = c'.values := by
  refine List.ext_getElem? fun i => ?_
  by_cases hi : i < dom.nVars
  · rw [h.getElem? hi, h'.getElem? hi, hval i hi]
  · rw [List.getElem?_eq_none (by rw [h.1]; omega),
      List.getElem?_eq_none (by rw [h'.1]; omega)]

/-- Complete configurations with different values differ at some option. -/
theorem exists_val_ne {c' : Config} (h : c.Complete dom) (h' : c'.Complete dom)
    (hne : c.values ≠ c'.values) : ∃ var < dom.nVars, c.val var ≠ c'.val var := by
  by_contra hall
  push Not at hall
  exact hne (h.values_ext h' hall)

end Complete

end Config

/-! ## `gen_all_configs` -/

/-- The recursion of `Domain::gen_all_configs` from option `var` on.  The value
vector is shared by all calls and overwritten in place. -/
def genAllFrom (dom : Domain) (templ : Config) :
    List VarDomain → ℕ → List ℤ × List Config → Except Abort (List ℤ × List Config)
  | [], _, (values, configs) => do
      let c ← Config.ofValues dom values
      .ok (values, configs ++ [c])
  | v :: vs, var, (values, configs) => do
      let t ← templ.get var
      if t ≠ -1 then genAllFrom dom templ vs (var + 1) (values.set var t, configs)
      else
        (List.range v.nValues).foldlM
          (fun st (i : ℕ) =>
            genAllFrom dom templ vs (var + 1) (st.1.set var (toShort i), st.2))
          (values, configs)

/-- `Domain::gen_all_configs(templ)`. -/
def genAllConfigsOf (dom : Domain) (templ : Config) : Except Abort (List Config) := do
  let st ← genAllFrom dom templ dom.vars 0 (List.replicate dom.nVars 0, [])
  .ok st.2

/-- `Domain::gen_all_configs()`. -/
def genAllConfigs (dom : Domain) : Except Abort (List Config) := do
  let cfg ← (Config.new dom).fill dom (-1)
  genAllConfigsOf dom cfg

/-! ## Drawing without replacement -/

/-- `Rand.get(n)` and `Rand.get(container)`: an index below `n`, and the number
of draws used so far. -/
def randBelow (draws : ℕ → ℕ) (rng n : ℕ) : Except Abort (ℕ × ℕ) :=
  if n = 0 then .error .randEmpty else .ok (draws rng % n, rng + 1)

/-- `unordered_erase`: the last element takes the place of the erased one. -/
def unorderedErase (l : List ℤ) (i : ℕ) : List ℤ :=
  match l.getLast? with
  | some last => (l.set i last).dropLast
  | none => l

/-- What one pass over the options has produced: the configuration, the pools
that are left, the number of exhausted pools, the options whose pool was empty
already, and the number of draws used. -/
structure Row where
  conf : Config
  pools : List (List ℤ)
  nFinished : ℕ
  vrand : List ℕ
  rng : ℕ

/-- The pass over the options, from option `var` on, of the two functions
`gen_one_convering_configs`.  A fixed option takes the template's value, an open
one draws from its pool, and one with an empty pool takes any value. -/
def fillRow (dom : Domain) (draws : ℕ → ℕ) : ℕ → List ℤ → Row → Except Abort Row
  | _, [], row => .ok row
  | var, t :: ts, row => do
      let st ← vecAt row.pools var
      if t ≠ -1 then
        let conf ← row.conf.set dom var t
        fillRow dom draws (var + 1) ts { row with conf }
      else if st ≠ [] then
        let (it, rng) ← randBelow draws row.rng st.length
        let v ← vecAt st it
        let conf ← row.conf.set dom var v
        let st := unorderedErase st it
        fillRow dom draws (var + 1) ts
          { row with
            conf, rng
            pools := row.pools.set var st
            nFinished := if st = [] then row.nFinished + 1 else row.nFinished }
      else
        let (v, rng) ← randBelow draws row.rng (dom.nValues var)
        let conf ← row.conf.set dom var v
        fillRow dom draws (var + 1) ts { row with conf, rng, vrand := row.vrand ++ [var] }

/-- The pool of an option in `Domain::gen_one_convering_configs`: the end of the
counting iterator is narrowed to `short`. -/
def shortPool (n : ℕ) : Except Abort (List ℤ) :=
  if 0 ≤ toShort n then .ok ((List.range (toShort n).toNat).map fun i : ℕ => (i : ℤ))
  else .error .poolLength

/-- The pools of `Domain::gen_one_convering_configs`, with the number of options
that start without one. -/
def shortPools (dom : Domain) (templ : Config) : Except Abort (List (List ℤ) × ℕ) :=
  (List.range dom.nVars).foldlM
    (fun st var => do
      let t ← templ.get var
      if t = -1 then
        let pool ← shortPool (dom.nValues var)
        .ok (st.1 ++ [pool], st.2)
      else .ok (st.1 ++ [[]], st.2 + 1))
    ([], 0)

/-- The `while` loop of `Domain::gen_one_convering_configs`. -/
def coverLoop (dom : Domain) (draws : ℕ → ℕ) (templ : Config) (lim : ℤ) :
    ℕ → List (List ℤ) → ℕ → ℕ → List Config → Except Abort (List Config × ℕ)
  | 0, _, _, _, _ => .error .outOfFuel
  | fuel + 1, pools, nFinished, rng, ret =>
      if nFinished < dom.nVars ∧ (ret.length : ℤ) < lim then do
        let row ← fillRow dom draws 0 templ.values
          { conf := Config.new dom, pools, nFinished, vrand := [], rng }
        coverLoop dom draws templ lim fuel row.pools row.nFinished row.rng
          (ret ++ [row.conf])
      else .ok (ret, rng)

/-- `Domain::gen_one_convering_configs(templ, lim)`.  Every pass adds a
configuration, so the limit bounds the passes. -/
def genOneConveringConfigsOf (dom : Domain) (draws : ℕ → ℕ) (templ : Config) (lim : ℤ)
    (rng : ℕ) : Except Abort (List Config × ℕ) := do
  let (pools, nFinished) ← shortPools dom templ
  coverLoop dom draws templ lim (lim.toNat + 1) pools nFinished rng []

/-- `Domain::gen_one_convering_configs()`. -/
def genOneConveringConfigs (dom : Domain) (draws : ℕ → ℕ) (rng : ℕ) :
    Except Abort (List Config × ℕ) := do
  let cfg ← (Config.new dom).fill dom (-1)
  genOneConveringConfigsOf dom draws cfg intMax rng

end GenTree

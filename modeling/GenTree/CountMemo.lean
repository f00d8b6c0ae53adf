import GenTree.CountModels

/-!
# The cache of the model counts

One `Analyzer` counts the models of many formulas, and `cache_count_models` outlives all of
them.  Its key is the hash of the formula with the limit, and a call without `v_models`
takes what is stored under its key without a look at the formula.  So it can return the
count of another formula with the same hash.

`Memoised` says that every call of a sequence returns what it would return on a new
analyzer.  Whatever the solver answers, it holds exactly when every call that looks into the
cache comes behind one for the same formula, if it comes behind one with the same key at all
(`memoised_iff`).
-/

namespace GenTree

open Outcome

variable {Expr : Type}

/-- The arguments of a call of `count_models`. -/
structure CountCall (Expr : Type) where
  ex : Expr
  limNRuns : ℤ
  vModels : Option (List Expr)

/-- `cache_key`. -/
def CountCall.cacheKey (z : Z3 Expr) (c : CountCall Expr) : UInt32 × ℤ := (z.hash c.ex, c.limNRuns)

/-- One call on an analyzer. -/
def CountCall.run (dom : Domain) (z : Z3 Expr) (c : CountCall Expr) (st : Analyzer) :
    Except Abort (ℕ × Option (List Expr) × Analyzer) :=
  countModels dom z c.ex c.limNRuns c.vModels st

/-- The value a call returns. -/
def CountCall.value (dom : Domain) (z : Z3 Expr) (c : CountCall Expr) (st : Analyzer) :
    Except Abort ℕ :=
  (c.run dom z st).map Prod.fst

/-- One call after the other on the same analyzer. -/
def runCalls (dom : Domain) (z : Z3 Expr) (calls : List (CountCall Expr)) (st : Analyzer) :
    Except Abort Analyzer :=
  calls.foldlM (fun st c => do
    let r ← c.run dom z st
    .ok r.2.2) st

/-- Every call returns the value that it would return on a new analyzer. -/
def Memoised (dom : Domain) (z : Z3 Expr) (calls : List (CountCall Expr)) : Prop :=
  ∀ past c rest st, calls = past ++ c :: rest → runCalls dom z past {} = .ok st →
    c.value dom z st = c.value dom z {}

/-- The solver's answers depend on what is asserted only. -/
def Z3.Deterministic (z : Z3 Expr) : Prop :=
  ∀ n n' solver, z.check n solver = z.check n' solver

/-! ## Plain counting -/

section Values

variable {dom : Domain} {z : Z3 Expr}

/-- What a call returns if it counts. -/
def CountCall.counted (dom : Domain) (z : Z3 Expr) (c : CountCall Expr) : Except Abort ℕ :=
  (countLoop dom z c.limNRuns.toNat [c.ex] 0 none 0).map Prod.fst

/-- The count depends neither on the calls before nor on `v_models`. -/
theorem countLoop_value (hz : z.Deterministic) (left : ℕ) (solver : List Expr) (ncex : ℕ)
    (vModels vModels' : Option (List Expr)) (nCheck nCheck' : ℕ) :
    (countLoop dom z left solver ncex vModels nCheck).map Prod.fst =
      (countLoop dom z left solver ncex vModels' nCheck').map Prod.fst := by
  induction left generalizing solver ncex vModels vModels' nCheck nCheck' with
  | zero => rfl
  | succ left ih =>
      unfold countLoop
      rw [hz nCheck nCheck' solver]
      cases z.check nCheck' solver with
      | unsat => rfl
      | unknown => rfl
      | sat m =>
          dsimp only
          cases toExpr dom m 1 with
          | error e => rfl
          | ok r => exact ih ..

/-- A call that is not answered from the cache counts. -/
theorem CountCall.value_miss (hz : z.Deterministic) {c : CountCall Expr} {st : Analyzer}
    (hmiss : c.vModels = none → st.cacheCountModels (c.cacheKey z) = none) :
    c.value dom z st = c.counted dom z := by
  unfold value run counted
  rw [countModels_run hmiss,
    countLoop_value hz c.limNRuns.toNat [c.ex] 0 none c.vModels 0 st.nCheck]
  cases countLoop dom z c.limNRuns.toNat [c.ex] 0 c.vModels st.nCheck <;> rfl

/-- A call that is answered from the cache returns what it finds. -/
theorem CountCall.run_hit {c : CountCall Expr} {st : Analyzer} {n : ℕ} (hnone : c.vModels = none)
    (hhit : st.cacheCountModels (c.cacheKey z) = some n) :
    c.run dom z st = .ok (n, none, st) := by
  unfold run countModels
  rw [hnone]
  unfold cacheKey at hhit
  simp only [hhit]

/-- On a new analyzer every call counts. -/
theorem CountCall.value_new (hz : z.Deterministic) (c : CountCall Expr) :
    c.value dom z {} = c.counted dom z :=
  value_miss hz fun _ => rfl

/-- Without a run nothing is counted. -/
theorem CountCall.counted_zero {c : CountCall Expr} (h : c.limNRuns ≤ 0) :
    c.counted dom z = .ok 0 := by
  unfold counted
  rw [Int.toNat_of_nonpos h]
  rfl

/-- **What a call leaves in the cache** is its own value, and nothing else changes. -/
theorem CountCall.run_cache {c : CountCall Expr} {st : Analyzer}
    {r : ℕ × Option (List Expr) × Analyzer} (hrun : c.run dom z st = .ok r) :
    r.2.2.cacheCountModels =
      Function.update st.cacheCountModels (c.cacheKey z) (some r.1) := by
  by_cases hhit : c.vModels = none ∧ ∃ n, st.cacheCountModels (c.cacheKey z) = some n
  · obtain ⟨hnone, n, hn⟩ := hhit
    rw [run_hit hnone hn] at hrun
    cases hrun
    exact (Function.update_eq_self_iff.mpr hn.symm).symm
  · have hmiss : c.vModels = none → st.cacheCountModels (c.cacheKey z) = none := by
      intro hnone
      exact Option.eq_none_iff_forall_ne_some.mpr fun n hn => hhit ⟨hnone, n, hn⟩
    unfold run at hrun
    rw [countModels_run hmiss] at hrun
    obtain ⟨a, -, ha⟩ := bind_eq_ok.mp hrun
    cases ha
    rfl

end Values

/-! ## Sequences of calls -/

section Calls

variable {dom : Domain} {z : Z3 Expr}

/-- The latest call with this key. -/
def latest (z : Z3 Expr) (key : UInt32 × ℤ) (calls : List (CountCall Expr)) :
    Option (CountCall Expr) :=
  (calls.filter fun c => c.cacheKey z = key).getLast?

theorem latest_concat (key : UInt32 × ℤ) (calls : List (CountCall Expr)) (c : CountCall Expr) :
    latest z key (calls ++ [c]) = if c.cacheKey z = key then some c else latest z key calls := by
  unfold latest
  rw [List.filter_append]
  split
  · next h => simp [h]
  · next h => simp [h]

theorem cacheKey_of_latest {key : UInt32 × ℤ} {calls : List (CountCall Expr)}
    {c : CountCall Expr} (h : latest z key calls = some c) : c.cacheKey z = key := by
  have hmem := List.mem_of_getLast? h
  exact of_decide_eq_true (List.mem_filter.mp hmem).2

theorem runCalls_concat (calls : List (CountCall Expr)) (c : CountCall Expr) (st : Analyzer) :
    runCalls dom z (calls ++ [c]) st =
      runCalls dom z calls st >>= fun st => c.run dom z st >>= fun r => .ok r.2.2 := by
  unfold runCalls
  rw [List.foldlM_append]
  simp

/-- The calls before the last, and the last. -/
theorem memoised_concat (calls : List (CountCall Expr)) (c : CountCall Expr) :
    Memoised dom z (calls ++ [c]) ↔ Memoised dom z calls ∧
      ∀ st, runCalls dom z calls {} = .ok st → c.value dom z st = c.value dom z {} := by
  constructor
  · intro h
    constructor
    · intro past d rest st hcalls hrun
      exact h past d (rest ++ [c]) st (by rw [hcalls]; simp) hrun
    · intro st hrun
      exact h calls c [] st rfl hrun
  · rintro ⟨hcalls, hlast⟩ past d rest st heq hrun
    rcases List.eq_nil_or_concat' rest with rfl | ⟨rest, d', rfl⟩
    · obtain ⟨rfl, hd⟩ := List.append_inj' heq rfl
      cases hd
      exact hlast st hrun
    · have heq' : calls ++ [c] = (past ++ d :: rest) ++ [d'] := by simpa using heq
      obtain ⟨rfl, -⟩ := List.append_inj' heq' rfl
      exact hcalls past d rest st rfl hrun

/-- **The cache after memoised calls.**  Under each key it has the count of the latest call
with that key. -/
theorem cache_latest (hz : z.Deterministic) {calls : List (CountCall Expr)} {st : Analyzer}
    (hmemo : Memoised dom z calls) (hrun : runCalls dom z calls {} = .ok st)
    (key : UInt32 × ℤ) :
    st.cacheCountModels key =
      (latest z key calls).bind fun c => (c.counted dom z).toOption := by
  induction calls using List.reverseRecOn generalizing st with
  | nil =>
      cases hrun
      rfl
  | append_singleton calls c ih =>
      obtain ⟨hmemo, hlast⟩ := (memoised_concat calls c).mp hmemo
      rw [runCalls_concat] at hrun
      obtain ⟨st₁, hrun₁, hrun⟩ := bind_eq_ok.mp hrun
      obtain ⟨r, hr, hst⟩ := bind_eq_ok.mp hrun
      cases hst
      -- what the call returned is its count
      have hcounted : c.counted dom z = .ok r.1 := by
        rw [← c.value_new hz, ← hlast st₁ hrun₁, CountCall.value, hr]
        rfl
      rw [CountCall.run_cache hr, latest_concat]
      by_cases hkey : c.cacheKey z = key
      · subst hkey
        rw [Function.update_self, if_pos rfl, Option.bind_some, hcounted]
        rfl
      · rw [Function.update_of_ne (Ne.symm hkey), if_neg hkey]
        exact ih hmemo hrun₁

end Calls

/-! ## When the cache is right -/

/-- A call that looks into the cache comes behind a call for the same formula, if it comes
behind one with the same key at all. -/
def Z3.Unmixed (z : Z3 Expr) (calls : List (CountCall Expr)) : Prop :=
  ∀ past c rest, calls = past ++ c :: rest → c.vModels = none → 0 < c.limNRuns →
    ∀ c', latest z (c.cacheKey z) past = some c' → c'.ex = c.ex

section Memoised

variable {dom : Domain} {z : Z3 Expr}

theorem CountCall.counted_congr {c c' : CountCall Expr} (hex : c'.ex = c.ex)
    (hlim : c'.limNRuns = c.limNRuns) : c'.counted dom z = c.counted dom z := by
  unfold counted
  rw [hex, hlim]

/-- A call behind memoised calls returns its count if the latest call with its key was for
its formula. -/
theorem CountCall.value_of_latest (hz : z.Deterministic) {calls : List (CountCall Expr)}
    {c : CountCall Expr} {st : Analyzer} (hmemo : Memoised dom z calls)
    (hrun : runCalls dom z calls {} = .ok st)
    (hsame : c.vModels = none → 0 < c.limNRuns →
      ∀ c', latest z (c.cacheKey z) calls = some c' → c'.ex = c.ex) :
    c.value dom z st = c.counted dom z := by
  by_cases hhit : c.vModels = none ∧ ∃ n, st.cacheCountModels (c.cacheKey z) = some n
  · obtain ⟨hnone, n, hn⟩ := hhit
    have hcache := cache_latest hz hmemo hrun (c.cacheKey z)
    rw [hn] at hcache
    obtain ⟨c', hlatest, hc'⟩ := Option.bind_eq_some_iff.mp hcache.symm
    have hlim : c'.limNRuns = c.limNRuns := congrArg Prod.snd (cacheKey_of_latest hlatest)
    have hcounted : c'.counted dom z = c.counted dom z := by
      by_cases hpos : 0 < c.limNRuns
      · exact counted_congr (hsame hnone hpos c' hlatest) hlim
      · rw [counted_zero (by omega : c'.limNRuns ≤ 0), counted_zero (by omega)]
    rw [hcounted] at hc'
    rw [value, run_hit hnone hn]
    cases hvalue : c.counted dom z with
    | error e => simp [hvalue, Except.toOption] at hc'
    | ok m =>
        rw [hvalue] at hc'
        cases hc'
        rfl
  · refine value_miss hz fun hnone => ?_
    exact Option.eq_none_iff_forall_ne_some.mpr fun n hn => hhit ⟨hnone, n, hn⟩

/-- Without a mix-up every call returns its count. -/
theorem memoised_of_unmixed (hz : z.Deterministic) {calls : List (CountCall Expr)}
    (h : z.Unmixed calls) : Memoised dom z calls := by
  induction calls using List.reverseRecOn with
  | nil =>
      intro past c rest st hcalls
      simp at hcalls
  | append_singleton calls c ih =>
      have hmemo : Memoised dom z calls := by
        apply ih
        intro past d rest hcalls
        exact h past d (rest ++ [c]) (by rw [hcalls]; simp)
      refine (memoised_concat calls c).mpr ⟨hmemo, fun st hrun => ?_⟩
      rw [c.value_new hz]
      exact CountCall.value_of_latest hz hmemo hrun (h calls c [] rfl)

open Classical in
/-- A solver that refutes one formula and gives up on every other. -/
noncomputable def Z3.refuting (z : Z3 Expr) (ex : Expr) : Z3 Expr :=
  { z with check := fun _ solver => if solver.head? = some ex then .unsat else .unknown }

theorem Z3.refuting_deterministic (z : Z3 Expr) (ex : Expr) : (z.refuting ex).Deterministic :=
  fun _ _ _ => rfl

theorem CountCall.counted_refuting_self (c : CountCall Expr) :
    c.counted dom (z.refuting c.ex) = .ok 0 := by
  unfold counted
  cases c.limNRuns.toNat with
  | zero => rfl
  | succ n =>
      unfold countLoop Z3.refuting
      simp [Except.map]

theorem CountCall.counted_refuting {c : CountCall Expr} {ex : Expr} (hne : c.ex ≠ ex)
    (hpos : 0 < c.limNRuns) : c.counted dom (z.refuting ex) = .ok 1 := by
  unfold counted
  obtain ⟨n, hn⟩ : ∃ n, c.limNRuns.toNat = n + 1 := ⟨c.limNRuns.toNat - 1, by omega⟩
  rw [hn]
  unfold countLoop Z3.refuting
  simp [hne, Except.map]

theorem CountCall.counted_refuting_ok (c : CountCall Expr) (ex : Expr) :
    ∃ n, c.counted dom (z.refuting ex) = .ok n := by
  by_cases hex : c.ex = ex
  · subst hex
    exact ⟨0, counted_refuting_self c⟩
  · by_cases hpos : 0 < c.limNRuns
    · exact ⟨1, counted_refuting hex hpos⟩
    · exact ⟨0, counted_zero (by omega)⟩

/-- Memoised calls to the refuting solver do not fail. -/
theorem runCalls_refuting (ex : Expr) {calls : List (CountCall Expr)}
    (hmemo : Memoised dom (z.refuting ex) calls) :
    ∃ st, runCalls dom (z.refuting ex) calls {} = .ok st := by
  induction calls using List.reverseRecOn with
  | nil => exact ⟨_, rfl⟩
  | append_singleton calls c ih =>
      obtain ⟨hmemo, hlast⟩ := (memoised_concat calls c).mp hmemo
      obtain ⟨st, hrun⟩ := ih hmemo
      have hvalue := hlast st hrun
      obtain ⟨n, hn⟩ : ∃ n, c.counted dom (z.refuting ex) = .ok n := c.counted_refuting_ok ex
      rw [c.value_new (z.refuting_deterministic ex), hn, CountCall.value] at hvalue
      cases hr : c.run dom (z.refuting ex) st with
      | error e =>
          rw [hr] at hvalue
          cases hvalue
      | ok r => exact ⟨r.2.2, by rw [runCalls_concat, hrun, ok_bind, hr, ok_bind]⟩

/-- **The cache is right without mix-ups only.**  Whatever a deterministic solver answers,
every call returns what it would return on a new analyzer: exactly if each call that looks
into the cache for at least one run finds there the count of its own formula, that is if the
latest call with the same hash and limit was for the same formula, or there was none. -/
theorem memoised_iff (dom : Domain) (z : Z3 Expr) (calls : List (CountCall Expr)) :
    (∀ check, ({ z with check } : Z3 Expr).Deterministic →
      Memoised dom { z with check } calls) ↔ z.Unmixed calls := by
  constructor
  · intro h past c rest hcalls hnone hpos c' hlatest
    by_contra hne
    have hz := z.refuting_deterministic c.ex
    have hall : Memoised dom (z.refuting c.ex) calls := h _ hz
    have hpast : Memoised dom (z.refuting c.ex) past := by
      intro past' d rest' st hpast' hrun
      exact hall past' d (rest' ++ c :: rest) st (by rw [hcalls, hpast']; simp) hrun
    obtain ⟨st, hrun⟩ := runCalls_refuting c.ex hpast
    -- the call finds the count of the other formula
    have hhit : st.cacheCountModels (c.cacheKey (z.refuting c.ex)) = some 1 := by
      have hlim : c'.limNRuns = c.limNRuns := congrArg Prod.snd (cacheKey_of_latest hlatest)
      have hlatest' : latest (z.refuting c.ex) (c.cacheKey (z.refuting c.ex)) past = some c' :=
        hlatest
      rw [cache_latest hz hpast hrun, hlatest', Option.bind_some,
        CountCall.counted_refuting hne (hlim ▸ hpos)]
      rfl
    have hvalue := hall past c rest st hcalls hrun
    rw [c.value_new hz, CountCall.counted_refuting_self, CountCall.value,
      CountCall.run_hit hnone hhit] at hvalue
    cases hvalue
  · intro h check hz
    exact memoised_of_unmixed hz h

/-- Two formulas with the same hash: the unsatisfiable one is answered with the count of the
other. -/
theorem memoised_mixed :
    (Z3.searching (.switches 1 (by decide))).Correct (.switches 1 (by decide)) ZExpr.Holds ∧
      (Z3.searching (.switches 1 (by decide))).Deterministic ∧
      ¬Memoised (.switches 1 (by decide)) (.searching (.switches 1 (by decide)))
        [⟨.ztrue, 1, none⟩, ⟨.zfalse, 1, none⟩] := by
  refine ⟨Z3.searching_correct _, fun _ _ _ => rfl, fun h => ?_⟩
  have hvalue := h [⟨.ztrue, 1, none⟩] ⟨.zfalse, 1, none⟩ [] _ rfl rfl
  revert hvalue
  decide

end Memoised

end GenTree

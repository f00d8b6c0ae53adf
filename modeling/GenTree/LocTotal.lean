import GenTree.ProgramRunnerMt
import Mathlib.Data.List.Range

/-!
# The total number of locations

Every execution reports how many locations the program has.  A coverage runner
keeps one number of all it has executed, `-1` before the first: for two languages
the totals must be the same, for the other two it keeps the largest.
`ProgramRunnerMt::n_locs` then walks over the runners of the threads.  It compares
each runner with the one before it, and returns what the last one has.

So the answer depends on how the executions were spread over the threads
(`ProgramRunnerMt.totalAfter_eq_iff`): a last runner that has executed nothing answers `-1`, and two
neighbours whose programs have reported different totals stop the run.
-/

namespace GenTree

open Outcome
open WorkQueue (Schedule)

/-! ## The runners -/

/-- `GCovRunner::Language`. -/
inductive Language
  | cpp
  | python
  | ocaml
  | perl
  deriving DecidableEq

/-- `GCovRunner`, as far as the totals go. -/
structure GCovRunner where
  lang : Language
  nLocs : ℤ := -1
  deriving DecidableEq

/-- `_collect_cov_cpp`, `_py`, `_ocaml` and `_perl`: what becomes of `n_locs_`
when an execution has reported `curNLocs` locations. -/
def GCovRunner.collectCov (g : GCovRunner) (curNLocs : ℤ) : Except Abort GCovRunner :=
  match g.lang with
  | .cpp | .python =>
      if g.nLocs = -1 then .ok { g with nLocs := curNLocs }
      else do
        check (g.nLocs = curNLocs) .curNLocs
        .ok g
  | .ocaml | .perl => .ok { g with nLocs := max g.nLocs curNLocs }

/-- `ProgramRunner`: its coverage runner, and what `n_locs` of its Otter runner
says. -/
structure ProgramRunner where
  gcovRunner : Option GCovRunner := none
  otterNLocs : Option ℤ := none
  deriving DecidableEq

namespace ProgramRunner

/-- `ProgramRunner::n_locs`. -/
def nLocs (r : ProgramRunner) : ℤ :=
  match r.gcovRunner with
  | some g => g.nLocs
  | none => r.otterNLocs.getD (-1)

/-- `ProgramRunner::run` of a configuration whose execution reports `curNLocs`
locations. -/
def executed (r : ProgramRunner) (curNLocs : ℤ) : Except Abort ProgramRunner :=
  match r.gcovRunner with
  | some g => do
      let g ← g.collectCov curNLocs
      .ok { r with gcovRunner := some g }
  | none => .ok r

end ProgramRunner

namespace ProgramRunnerMt

/-- `runners_`, as the constructor leaves them. -/
def newRunners (r : ProgramRunnerMt) (lang : Language) : List ProgramRunner :=
  if r.allowExecute then List.replicate r.nThreads { gcovRunner := some { lang } } else []

/-- `runner->run(config)` on the runner of a thread. -/
def executeOn (runners : List ProgramRunner) (event : ℕ × ℤ) : Except Abort (List ProgramRunner) := do
  let r ← vecAt runners event.1
  let r ← r.executed event.2
  .ok (runners.set event.1 r)

/-- The executions of a run, one after the other: the thread and the total that
is reported. -/
def executeAll (runners : List ProgramRunner) (events : List (ℕ × ℤ)) :
    Except Abort (List ProgramRunner) :=
  events.foldlM executeOn runners

/-- `ProgramRunnerMt::n_locs`. -/
def nLocs (runners : List ProgramRunner) : Except Abort ℤ :=
  runners.foldlM
    (fun ret r => do
      let n := r.nLocs
      check (n = -1 ∨ ret = -1 ∨ ret = n) .nLocs
      .ok n) (-1)

end ProgramRunnerMt

/-! ## What has been executed -/

/-- The totals the collectors allow for a language: numbers of locations, and for
two languages all the same. -/
structure Totals (lang : Language) (totals : List ℤ) : Prop where
  nonneg : ∀ t ∈ totals, 0 ≤ t
  const : lang = .cpp ∨ lang = .python → ∀ t ∈ totals, ∀ u ∈ totals, t = u

theorem Totals.mono {lang : Language} {totals totals' : List ℤ} (h : Totals lang totals)
    (hsub : ∀ t ∈ totals', t ∈ totals) : Totals lang totals' :=
  ⟨fun t ht => h.nonneg t (hsub t ht),
    fun hlang t ht u hu => h.const hlang t (hsub t ht) u (hsub u hu)⟩

/-- The executions when the work is spread by a schedule. -/
def spread {nThreads : ℕ} (totals : List ℤ) (sched : Schedule nThreads totals.length) :
    List (ℕ × ℤ) :=
  sched.calls.map fun call => (call.1, totals.getD call.2 0)

/-- The totals a thread has seen. -/
def mine (events : List (ℕ × ℤ)) (thread : ℕ) : List ℤ :=
  (events.filter fun e => e.1 = thread).map Prod.snd

/-- The largest total, `-1` when there is none. -/
def largest (totals : List ℤ) : ℤ := totals.foldl max (-1)

@[simp] theorem largest_nil : largest [] = -1 := rfl

@[simp] theorem largest_concat (l : List ℤ) (t : ℤ) : largest (l ++ [t]) = max (largest l) t := by
  simp [largest]

theorem largest_le_iff {l : List ℤ} {b : ℤ} : largest l ≤ b ↔ -1 ≤ b ∧ ∀ t ∈ l, t ≤ b := by
  induction l using List.reverseRecOn with
  | nil => simp
  | append_singleton l t ih =>
    rw [largest_concat, max_le_iff, ih, List.forall_mem_append, List.forall_mem_singleton, and_assoc]

theorem le_largest {l : List ℤ} {t : ℤ} (h : t ∈ l) : t ≤ largest l :=
  (largest_le_iff.mp le_rfl).2 t h

theorem largest_mem {l : List ℤ} (hne : l ≠ []) (hpos : ∀ t ∈ l, 0 ≤ t) : largest l ∈ l := by
  induction l using List.reverseRecOn with
  | nil => exact absurd rfl hne
  | append_singleton l t ih =>
    rw [List.forall_mem_append, List.forall_mem_singleton] at hpos
    rw [largest_concat, List.mem_append, List.mem_singleton]
    rcases max_choice (largest l) t with hmax | hmax
    · rw [hmax]
      by_cases hl : l = []
      · subst hl
        have hle : t ≤ largest [] := by rw [← hmax]; exact le_max_right _ _
        rw [largest_nil] at hle
        omega
      · exact .inl (ih hl hpos.1)
    · exact .inr hmax

theorem largest_eq_neg_one_iff {l : List ℤ} (hpos : ∀ t ∈ l, 0 ≤ t) : largest l = -1 ↔ l = [] := by
  refine ⟨fun h => ?_, fun h => by rw [h, largest_nil]⟩
  by_contra hne
  have hnonneg := hpos _ (largest_mem hne hpos)
  omega

theorem largest_eq_of_perm {l l' : List ℤ} (h : l.Perm l') : largest l = largest l' := by
  apply le_antisymm
  · exact largest_le_iff.mpr ⟨(largest_le_iff.mp le_rfl).1, fun t ht => le_largest (h.mem_iff.mp ht)⟩
  · exact largest_le_iff.mpr ⟨(largest_le_iff.mp le_rfl).1, fun t ht => le_largest (h.mem_iff.mpr ht)⟩

/-- The executions report the totals of the configurations. -/
theorem spread_perm {nThreads : ℕ} (totals : List ℤ) (sched : Schedule nThreads totals.length) :
    ((spread totals sched).map Prod.snd).Perm totals := by
  have hmap : (spread totals sched).map Prod.snd =
      (sched.calls.map Prod.snd).map fun i => totals.getD i 0 := by
    simp [spread, Function.comp_def]
  have hrange : (List.range totals.length).map (fun i => totals.getD i 0) = totals := by
    apply List.ext_getElem
    · simp
    · intro i h1 h2
      have hget : totals[i]? = some totals[i] := List.getElem?_eq_getElem (by simpa using h1)
      simp [hget]
  have hperm := sched.items.map fun i => totals.getD i 0
  rwa [hrange, ← hmap] at hperm

theorem mem_mine {events : List (ℕ × ℤ)} {thread : ℕ} {t : ℤ} :
    t ∈ mine events thread ↔ (thread, t) ∈ events := by
  simp [mine]

theorem mine_concat (events : List (ℕ × ℤ)) (e : ℕ × ℤ) (thread : ℕ) :
    mine (events ++ [e]) thread =
      if e.1 = thread then mine events thread ++ [e.2] else mine events thread := by
  unfold mine
  split <;> simp_all

/-! ## What the runners know -/

/-- The runners when each knows the largest total it has seen. -/
def knowing (nThreads : ℕ) (lang : Language) (events : List (ℕ × ℤ)) : List ProgramRunner :=
  (List.range nThreads).map fun thread =>
    { gcovRunner := some { lang, nLocs := largest (mine events thread) } }

/-- **One report.**  A coverage runner that knows the largest total of its
executions knows the largest one after the next. -/
theorem collectCov_largest {lang : Language} {seen : List ℤ} {t : ℤ}
    (h : Totals lang (seen ++ [t])) :
    GCovRunner.collectCov { lang, nLocs := largest seen } t =
      .ok { lang, nLocs := largest (seen ++ [t]) } := by
  have hpos : ∀ u ∈ seen, 0 ≤ u := fun u hu => h.nonneg u (List.mem_append_left _ hu)
  have ht : 0 ≤ t := h.nonneg t (by simp)
  rw [largest_concat]
  -- the two languages whose totals must agree
  have hconst : lang = .cpp ∨ lang = .python →
      (if largest seen = -1 then .ok { lang, nLocs := t }
        else do
          check (largest seen = t) .curNLocs
          .ok { lang, nLocs := largest seen } : Except Abort GCovRunner) =
        .ok { lang, nLocs := max (largest seen) t } := by
    intro hlang
    split
    · next hnone => rw [hnone, max_eq_right (by omega)]
    · next hsome =>
        have hne : seen ≠ [] := fun hnil => hsome (by rw [hnil, largest_nil])
        have heq : largest seen = t :=
          h.const hlang _ (List.mem_append_left _ (largest_mem hne hpos)) t (by simp)
        rw [check_pos heq, ok_bind, heq, max_self]
  unfold GCovRunner.collectCov
  cases lang with
  | cpp => exact hconst (.inl rfl)
  | python => exact hconst (.inr rfl)
  | ocaml => rfl
  | perl => rfl

theorem getElem?_knowing {nThreads : ℕ} {lang : Language} {events : List (ℕ × ℤ)} {thread : ℕ}
    (h : thread < nThreads) :
    (knowing nThreads lang events)[thread]? =
      some { gcovRunner := some { lang, nLocs := largest (mine events thread) } } := by
  simp [knowing, h]

/-- One execution. -/
theorem executeOn_knowing {nThreads : ℕ} {lang : Language} {events : List (ℕ × ℤ)} {e : ℕ × ℤ}
    (hthread : e.1 < nThreads) (htotals : Totals lang ((events ++ [e]).map Prod.snd)) :
    ProgramRunnerMt.executeOn (knowing nThreads lang events) e =
      .ok (knowing nThreads lang (events ++ [e])) := by
  have hmine : Totals lang (mine events e.1 ++ [e.2]) := by
    apply htotals.mono
    intro t ht
    rw [List.mem_append, List.mem_singleton, mem_mine] at ht
    rcases ht with ht | rfl
    · exact List.mem_map_of_mem (List.mem_append_left _ ht)
    · exact List.mem_map_of_mem (List.mem_append_right _ (List.mem_singleton_self e))
  have hcollect := collectCov_largest hmine
  unfold ProgramRunnerMt.executeOn ProgramRunner.executed
  rw [vecAt_of_getElem? (getElem?_knowing hthread), ok_bind]
  dsimp only
  rw [hcollect, ok_bind, ok_bind]
  congr 1
  apply List.ext_getElem?
  intro i
  rw [List.getElem?_set]
  by_cases hi : e.1 = i
  · subst hi
    have hlen : e.1 < (knowing nThreads lang events).length := by simpa [knowing] using hthread
    rw [if_pos rfl, if_pos hlen, getElem?_knowing hthread, mine_concat, if_pos rfl]
  · rw [if_neg hi]
    rcases Nat.lt_or_ge i nThreads with hlt | hge
    · rw [getElem?_knowing hlt, getElem?_knowing hlt, mine_concat, if_neg hi]
    · rw [List.getElem?_eq_none (by simpa [knowing] using hge),
        List.getElem?_eq_none (by simpa [knowing] using hge)]

/-- **A run of the executions.** -/
theorem executeAll_knowing {nThreads : ℕ} {lang : Language} {events : List (ℕ × ℤ)}
    (hthreads : ∀ e ∈ events, e.1 < nThreads) (htotals : Totals lang (events.map Prod.snd)) :
    ProgramRunnerMt.executeAll (knowing nThreads lang []) events =
      .ok (knowing nThreads lang events) := by
  induction events using List.reverseRecOn with
  | nil => rfl
  | append_singleton events e ih =>
    rw [List.forall_mem_append, List.forall_mem_singleton] at hthreads
    have hbefore := ih hthreads.1 (htotals.mono fun t ht => by
      rw [List.map_append]
      exact List.mem_append_left _ ht)
    unfold ProgramRunnerMt.executeAll at hbefore ⊢
    rw [List.foldlM_append, hbefore, ok_bind, List.foldlM_cons, executeOn_knowing hthreads.2 htotals]
    rfl

/-! ## What the walk over the runners finds -/

/-- What the `CHECK` asks of two neighbours. -/
def Agree (a b : ℤ) : Prop := b = -1 ∨ a = -1 ∨ a = b

/-- **The walk** returns what the last runner has, when all neighbours agree. -/
theorem foldlM_nLocs_eq_ok {runners : List ProgramRunner} {ret v : ℤ} :
    runners.foldlM
        (fun ret r => do
          let n := r.nLocs
          check (n = -1 ∨ ret = -1 ∨ ret = n) .nLocs
          .ok n) ret = (.ok v : Except Abort ℤ) ↔
      (ret :: runners.map ProgramRunner.nLocs).IsChain Agree ∧
        (ret :: runners.map ProgramRunner.nLocs).getLast (List.cons_ne_nil _ _) = v := by
  induction runners generalizing ret with
  | nil => simp [List.foldlM_nil, pure, Except.pure]
  | cons r runners ih =>
    rw [List.foldlM_cons, List.map_cons, List.isChain_cons_cons, List.getLast_cons_cons]
    dsimp only
    by_cases hagree : r.nLocs = -1 ∨ ret = -1 ∨ ret = r.nLocs
    · rw [check_pos hagree, ok_bind, ok_bind, ih]
      exact ⟨fun h => ⟨⟨hagree, h.1⟩, h.2⟩, fun h => ⟨h.1.2, h.2⟩⟩
    · rw [check_neg hagree]
      exact ⟨fun h => (by cases h), fun h => absurd h.1.1 hagree⟩

/-- The walk over runners of which each knows the largest total it has seen. -/
theorem nLocs_knowing {n : ℕ} {lang : Language} {events : List (ℕ × ℤ)} {v : ℤ} :
    ProgramRunnerMt.nLocs (knowing (n + 1) lang events) = .ok v ↔
      (∀ thread < n, Agree (largest (mine events thread)) (largest (mine events (thread + 1)))) ∧
        largest (mine events n) = v := by
  have hmap : (knowing (n + 1) lang events).map ProgramRunner.nLocs =
      (List.range (n + 1)).map fun thread => largest (mine events thread) := by
    simp [knowing, ProgramRunner.nLocs, Function.comp_def]
  have hlast : (-1 :: (List.range (n + 1)).map fun thread => largest (mine events thread)).getLast
      (List.cons_ne_nil _ _) = largest (mine events n) := by
    simp [List.range_succ]
  unfold ProgramRunnerMt.nLocs
  rw [foldlM_nLocs_eq_ok]
  simp only [hmap, hlast]
  refine and_congr_left' ?_
  rw [List.isChain_cons, List.isChain_map, List.isChain_range_succ]
  exact ⟨fun h => h.2, fun h => ⟨fun _ _ => .inr (.inl rfl), h⟩⟩

/-- Nothing has been executed. -/
theorem nLocs_knowing_nil (n : ℕ) (lang : Language) :
    ProgramRunnerMt.nLocs (knowing n lang []) = .ok (-1) := by
  cases n with
  | zero => rfl
  | succ n => exact nLocs_knowing.mpr ⟨fun _ _ => .inl rfl, rfl⟩

/-! ## When the total is exact -/

/-- The executions are **balanced** on the threads: the last thread has seen a
largest total, and two neighbours that have both executed something have seen the
same largest one. -/
structure Balanced (nThreads : ℕ) (events : List (ℕ × ℤ)) : Prop where
  last : ∃ e ∈ events, e.1 + 1 = nThreads ∧ ∀ e' ∈ events, e'.2 ≤ e.2
  neighbours : ∀ thread, thread + 1 < nThreads → mine events thread ≠ [] →
    mine events (thread + 1) ≠ [] → largest (mine events thread) = largest (mine events (thread + 1))

section Exact

variable {n : ℕ} {lang : Language} {events : List (ℕ × ℤ)}

theorem mine_nonneg (h : Totals lang (events.map Prod.snd)) (thread : ℕ) :
    ∀ t ∈ mine events thread, 0 ≤ t := fun _ ht =>
  h.nonneg _ (List.mem_map_of_mem (mem_mine.mp ht))

theorem largest_mine_le (thread : ℕ) : largest (mine events thread) ≤ largest (events.map Prod.snd) :=
  largest_le_iff.mpr ⟨(largest_le_iff.mp le_rfl).1, fun _ ht =>
    le_largest (List.mem_map_of_mem (mem_mine.mp ht))⟩

/-- The last thread knows the largest total of all exactly when it has seen it. -/
theorem largest_mine_eq_iff (h : Totals lang (events.map Prod.snd)) (hne : events ≠ []) :
    largest (mine events n) = largest (events.map Prod.snd) ↔
      ∃ e ∈ events, e.1 + 1 = n + 1 ∧ ∀ e' ∈ events, e'.2 ≤ e.2 := by
  have hne' : events.map Prod.snd ≠ [] := by simpa using hne
  constructor
  · intro heq
    have hnonneg := h.nonneg _ (largest_mem hne' h.nonneg)
    have hmine : mine events n ≠ [] := fun hnil => by
      rw [hnil, largest_nil] at heq
      omega
    refine ⟨(n, largest (mine events n)), mem_mine.mp (largest_mem hmine (mine_nonneg h n)), rfl, ?_⟩
    intro e' he'
    rw [heq]
    exact le_largest (List.mem_map_of_mem he')
  · rintro ⟨e, he, hlast, hmax⟩
    apply le_antisymm (largest_mine_le n)
    obtain rfl : e.1 = n := Nat.succ_inj.mp hlast
    have hle : e.2 ≤ largest (mine events e.1) := le_largest (mem_mine.mpr he)
    have hpos : 0 ≤ e.2 := h.nonneg _ (List.mem_map_of_mem he)
    refine largest_le_iff.mpr ⟨by omega, fun t ht => ?_⟩
    obtain ⟨e', he', rfl⟩ := List.mem_map.mp ht
    exact (hmax e' he').trans hle

theorem agree_mine_iff (h : Totals lang (events.map Prod.snd)) (thread : ℕ) :
    Agree (largest (mine events thread)) (largest (mine events (thread + 1))) ↔
      (mine events thread ≠ [] → mine events (thread + 1) ≠ [] →
        largest (mine events thread) = largest (mine events (thread + 1))) := by
  unfold Agree
  rw [largest_eq_neg_one_iff (mine_nonneg h _), largest_eq_neg_one_iff (mine_nonneg h _)]
  tauto

/-- What the walk finds after some executions. -/
theorem nLocs_knowing_iff (hthreads : ∀ e ∈ events, e.1 < n)
    (h : Totals lang (events.map Prod.snd)) (hne : events ≠ []) :
    ProgramRunnerMt.nLocs (knowing n lang events) = .ok (largest (events.map Prod.snd)) ↔
      Balanced n events := by
  obtain ⟨e, he⟩ := List.exists_mem_of_ne_nil events hne
  obtain ⟨m, rfl⟩ := Nat.exists_eq_succ_of_ne_zero (Nat.ne_zero_of_lt (hthreads e he))
  rw [nLocs_knowing, largest_mine_eq_iff h hne]
  simp only [agree_mine_iff h]
  exact ⟨fun ⟨hn, hl⟩ => ⟨hl, fun t ht => hn t (Nat.lt_of_succ_lt_succ ht)⟩,
    fun hs => ⟨fun t ht => hs.neighbours t (Nat.succ_lt_succ ht), hs.last⟩⟩

end Exact

namespace ProgramRunnerMt

variable {r : ProgramRunnerMt} {lang : Language} {totals : List ℤ}

theorem newRunners_eq (hexec : r.allowExecute = true) :
    r.newRunners lang = knowing r.nThreads lang [] := by
  unfold newRunners knowing
  rw [if_pos hexec]
  simp [mine, List.map_const']

theorem spread_eq_nil_iff {nThreads : ℕ} {sched : Schedule nThreads totals.length} :
    spread totals sched = [] ↔ totals = [] := by
  have hlen := (spread_perm totals sched).length_eq
  rw [List.length_map] at hlen
  rw [← List.length_eq_zero_iff, hlen, List.length_eq_zero_iff]

theorem thread_lt_of_mem_spread {nThreads : ℕ} {sched : Schedule nThreads totals.length} :
    ∀ e ∈ spread totals sched, e.1 < nThreads := by
  intro e he
  obtain ⟨call, -, rfl⟩ := List.mem_map.mp he
  exact call.1.isLt

/-- The total that is asked for when all configurations have been executed by a schedule. -/
def totalAfter (r : ProgramRunnerMt) (lang : Language) (totals : List ℤ)
    (sched : Schedule r.nThreads totals.length) : Except Abort ℤ := do
  let runners ← executeAll (r.newRunners lang) (spread totals sched)
  nLocs runners

/-- **One schedule.**  The total is exact when nothing was executed or the
executions are balanced over the threads. -/
theorem totalAfter_eq_iff (htotals : Totals lang totals)
    (hexec : totals ≠ [] → r.allowExecute = true) (sched : Schedule r.nThreads totals.length) :
    r.totalAfter lang totals sched = .ok (largest totals) ↔
      totals = [] ∨ Balanced r.nThreads (spread totals sched) := by
  have hperm := spread_perm totals sched
  have hspread : Totals lang ((spread totals sched).map Prod.snd) :=
    htotals.mono fun t ht => hperm.mem_iff.mp ht
  unfold totalAfter
  by_cases hnil : totals = []
  · rw [spread_eq_nil_iff.mpr hnil]
    refine ⟨fun _ => .inl hnil, fun _ => ?_⟩
    rw [hnil]
    by_cases hallow : r.allowExecute = true
    · rw [newRunners_eq hallow]
      exact nLocs_knowing_nil r.nThreads lang
    · unfold newRunners
      rw [if_neg hallow]
      rfl
  · have hne : spread totals sched ≠ [] := fun h => hnil (spread_eq_nil_iff.mp h)
    rw [newRunners_eq (hexec hnil), executeAll_knowing thread_lt_of_mem_spread hspread, ok_bind,
      ← largest_eq_of_perm hperm, nLocs_knowing_iff thread_lt_of_mem_spread hspread hne,
      or_iff_right hnil]

theorem firstThread_items {nThreads : ℕ} (h : 0 < nThreads) (num : ℕ) :
    (((List.range num).map fun i => ((⟨0, h⟩ : Fin nThreads), i)).map Prod.snd).Perm
      (List.range num) := by
  simp [Function.comp_def]

/-- Everything on the first thread. -/
def firstThread {nThreads : ℕ} (h : 0 < nThreads) (num : ℕ) : Schedule nThreads num where
  calls := (List.range num).map fun i => (⟨0, h⟩, i)
  items := firstThread_items h num

/-- Where there is a second thread, the last one may have nothing to do. -/
theorem not_balanced_firstThread {nThreads : ℕ} (h : 1 < nThreads) :
    ¬ Balanced nThreads (spread totals (firstThread (Nat.zero_lt_of_lt h) totals.length)) := by
  intro hs
  obtain ⟨e, he, hlast, -⟩ := hs.last
  obtain ⟨call, hcall, rfl⟩ := List.mem_map.mp he
  obtain ⟨i, -, rfl⟩ := List.mem_map.mp hcall
  dsimp only at hlast
  omega

/-- Executions on one thread are balanced. -/
theorem balanced_one {nThreads : ℕ} (hone : nThreads = 1) {events : List (ℕ × ℤ)}
    (hthreads : ∀ e ∈ events, e.1 < nThreads) (hne : events ≠ [])
    (hpos : ∀ t ∈ events.map Prod.snd, 0 ≤ t) : Balanced nThreads events := by
  subst hone
  constructor
  · obtain ⟨e, he, hmax⟩ := List.mem_map.mp (largest_mem (by simpa using hne) hpos)
    refine ⟨e, he, by rw [Nat.lt_one_iff.mp (hthreads e he)], fun e' he' => ?_⟩
    rw [hmax]
    exact le_largest (List.mem_map_of_mem he')
  · intro thread hlt
    omega

/-- **When the total is independent of the threads.**  A schedule gives the
largest total exactly when nothing was executed or the executions are balanced over
the threads.  So all schedules give it exactly when nothing was executed or there
is a single thread. -/
theorem nLocs_exact_iff (htotals : Totals lang totals)
    (hexec : totals ≠ [] → r.allowExecute = true) :
    (∀ sched, r.totalAfter lang totals sched = .ok (largest totals) ↔
      totals = [] ∨ Balanced r.nThreads (spread totals sched)) ∧
    ((∀ sched, r.totalAfter lang totals sched = .ok (largest totals)) ↔
      totals = [] ∨ r.nThreads ≤ 1) := by
  refine ⟨totalAfter_eq_iff htotals hexec, fun hall => ?_, fun hcase sched => ?_⟩
  · by_contra hnot
    rw [not_or, not_le] at hnot
    have hs := (totalAfter_eq_iff htotals hexec _).mp
      (hall (firstThread (Nat.zero_lt_of_lt hnot.2) totals.length))
    exact not_balanced_firstThread hnot.2 (hs.resolve_left hnot.1)
  · rw [totalAfter_eq_iff htotals hexec]
    by_cases hnil : totals = []
    · exact .inl hnil
    · have hne : spread totals sched ≠ [] := fun h => hnil (spread_eq_nil_iff.mp h)
      obtain ⟨e, he⟩ := List.exists_mem_of_ne_nil _ hne
      have hpos : 0 < r.nThreads := Nat.zero_lt_of_lt (thread_lt_of_mem_spread e he)
      have hone : r.nThreads = 1 := Nat.le_antisymm (hcase.resolve_left hnil) hpos
      exact .inr (balanced_one hone thread_lt_of_mem_spread hne fun t ht =>
        htotals.nonneg t ((spread_perm totals sched).mem_iff.mp ht))

/-- Two runners that may execute. -/
def twoRunners : ProgramRunnerMt where
  nThreads := 2
  allowExecute := true
  allowCacheRead := false
  allowCacheWrite := false

/-- One OCaml program on each of two threads, with the same total. -/
theorem nLocs_exact_iff_two :
    let sched : Schedule twoRunners.nThreads 2 := ⟨[((0 : Fin 2), 0), ((1 : Fin 2), 1)], .refl _⟩
    twoRunners.totalAfter .ocaml [4, 4] sched = .ok 4 := by
  intro sched
  have htotals : Totals .ocaml [4, 4] := ⟨by decide, fun h => by simp at h⟩
  refine ((nLocs_exact_iff htotals fun _ => rfl).1 sched).mpr (.inr ⟨⟨(1, 4), ?_⟩, ?_⟩)
  · decide
  · intro thread hlt _ _
    obtain rfl : thread = 0 := by
      have h2 : thread + 1 < 2 := hlt
      omega
    rfl

/-- On two threads the total is lost when the last one has nothing to do, and the
run stops when the two have seen different totals. -/
theorem nLocs_depends_on_threads :
    ¬ ∀ (r : ProgramRunnerMt) (lang : Language) (totals : List ℤ), Totals lang totals →
      r.allowExecute = true → ∀ sched, r.totalAfter lang totals sched = .ok (largest totals) := by
  intro hall
  have h := hall twoRunners .cpp [5] ⟨by decide, by simp⟩ rfl ⟨[((0 : Fin 2), 0)], .refl _⟩
  have hlost : twoRunners.totalAfter .cpp [5] ⟨[((0 : Fin 2), 0)], .refl _⟩ = .ok (-1) := rfl
  rw [hlost] at h
  exact absurd (Except.ok.inj h) (by decide)

example : twoRunners.totalAfter .ocaml [3, 4] ⟨[((0 : Fin 2), 0), ((1 : Fin 2), 1)], .refl _⟩ = .error .nLocs := rfl

end ProgramRunnerMt

end GenTree

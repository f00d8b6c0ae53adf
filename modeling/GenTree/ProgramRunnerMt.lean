import GenTree.CacheRecord
import GenTree.WorkQueueProtocol

/-!
# Running configurations through the cache

`ProgramRunnerMt::run` answers a batch of configurations.  A configuration whose
record is in the cache is answered from the record; the others are executed, on
the work queue when there are several threads, and their records are written.  At
the end every answer is restricted to the interesting locations.

What may be done is set by the letters of the `cache` option (`x` execute, `r`
read, `w` write); the interesting locations are read from the `locs` option in
`init`, and only where executing is allowed.

The program under test is a function `prog` from the values of a configuration to
its locations.  The cache is a map from values to records that returns the last
record put.

## Main results

* `Reached.exact` — whatever the runs and their options, a record is the record of
  the program's locations.
* `run_eq` — what a run returns.
* `run_eq_interested_iff` — a run returns the program's locations restricted to the
  interesting ones, except when it may not execute and the restriction matters.
-/

namespace GenTree

open Outcome
open WorkQueue (Schedule)

/-- The options of the runner. -/
structure RunnerOptions where
  cache : Str
  locs : Str
  runnerThreads : ℤ

/-- `cachedb_`, where the key is the values of a configuration. -/
abbrev CacheDb := List ℤ → Option Str

/-- `ProgramRunnerMt`. -/
structure ProgramRunnerMt where
  nThreads : ℕ
  allowExecute : Bool
  allowCacheRead : Bool
  allowCacheWrite : Bool
  interestedLocs : Finset Str := ∅

/-- `has_char`. -/
def hasChar (s : Str) (c : Char) : Bool := s.any (· = c)

/-- `boost::split(interested_locs_, locs, boost::is_any_of(",;"))`. -/
def splitLocs (locs : Str) : Finset Str := (locs.splitOnP fun c => c = ',' || c = ';').toFinset

namespace ProgramRunnerMt

/-- `ProgramRunnerMt::ProgramRunnerMt`. -/
def new (o : RunnerOptions) : Except Abort ProgramRunnerMt := do
  check (1 ≤ o.runnerThreads) .runnerThreads
  pure {
    nThreads := o.runnerThreads.toNat
    allowExecute := hasChar o.cache 'x'
    allowCacheRead := hasChar o.cache 'r'
    allowCacheWrite := hasChar o.cache 'w' }

/-- `ProgramRunnerMt::init`. -/
def init (r : ProgramRunnerMt) (o : RunnerOptions) : ProgramRunnerMt :=
  if r.allowExecute then
    if o.locs ≠ [] then { r with interestedLocs := splitLocs o.locs } else r
  else r

/-- The record a configuration is answered from. -/
def cached (r : ProgramRunnerMt) (db : CacheDb) (config : List ℤ) : Option Str :=
  if r.allowCacheRead then db config else none

/-- `run`: the loop that reads the cache, with `v_locs` and `cid_to_run`. -/
def lookup (r : ProgramRunnerMt) (db : CacheDb) (vConfigs : List (List ℤ)) :
    Except Abort (List (Finset Str) × List ℕ) :=
  vConfigs.zipIdx.foldlM
    (fun (vLocs, cidToRun) (config, cid) =>
      match r.cached db config with
      | some val => pure (vLocs.set cid (decode val), cidToRun)
      | none => do
        check (r.allowExecute = true) .notCached
        pure (vLocs, cidToRun ++ [cid]))
    (List.replicate vConfigs.length ∅, [])

/-- `run`: `locs = runner->run(config)`. -/
def runOne (prog : List ℤ → Finset Str) (vConfigs : List (List ℤ)) (vLocs : List (Finset Str))
    (cid : ℕ) : Except Abort (List (Finset Str)) := do
  let config ← vecAt vConfigs cid
  let _ ← vecAt vLocs cid
  pure (vLocs.set cid (prog config))

/-- `run`: executing what is not in the cache, where `sched` is how the work queue hands out
that many items. -/
def execute (r : ProgramRunnerMt) (prog : List ℤ → Finset Str)
    (sched : ∀ num, Schedule r.nThreads num) (vConfigs : List (List ℤ)) (cidToRun : List ℕ)
    (vLocs : List (Finset Str)) : Except Abort (List (Finset Str)) := do
  check (r.allowExecute = true ∨ cidToRun = []) .notCached
  if r.allowExecute && 1 < r.nThreads then
    (sched cidToRun.length).calls.foldlM
      (fun vLocs (_, itemId) => do
        let cid ← vecAt cidToRun itemId
        runOne prog vConfigs vLocs cid) vLocs
  else if r.allowExecute then cidToRun.foldlM (runOne prog vConfigs) vLocs
  else pure vLocs

/-- `run`: writing the records of what has been executed. -/
def writeCache (r : ProgramRunnerMt) (db : CacheDb) (vConfigs : List (List ℤ))
    (vLocs : List (Finset Str)) (cidToRun : List ℕ) : Except Abort CacheDb :=
  if r.allowCacheWrite then
    cidToRun.foldlM
      (fun db cid => do
        let config ← vecAt vConfigs cid
        let locs ← vecAt vLocs cid
        pure (Function.update db config (some (encode locs)))) db
  else pure db

/-- `run`: the restriction to the interesting locations. -/
def filterLocs (r : ProgramRunnerMt) (s : Finset Str) : Finset Str :=
  if r.interestedLocs = ∅ then s else r.interestedLocs ∩ s

/-- `ProgramRunnerMt::run`. -/
def run (r : ProgramRunnerMt) (prog : List ℤ → Finset Str)
    (sched : ∀ num, Schedule r.nThreads num) (db : CacheDb) (vConfigs : List (List ℤ)) :
    Except Abort (List (Finset Str) × CacheDb) := do
  let (vLocs, cidToRun) ← r.lookup db vConfigs
  let vLocs ← r.execute prog sched vConfigs cidToRun vLocs
  let db ← r.writeCache db vConfigs vLocs cidToRun
  pure (vLocs.map r.filterLocs, db)

/-! ## What a run does -/

variable {r : ProgramRunnerMt} {prog : List ℤ → Finset Str} {db : CacheDb}
  {vConfigs : List (List ℤ)}

/-- What is known of a configuration after the cache has been read. -/
def fromCache (r : ProgramRunnerMt) (db : CacheDb) (config : List ℤ) : Finset Str :=
  match r.cached db config with
  | some val => decode val
  | none => ∅

/-- The configurations that the cache does not answer. -/
def missing (r : ProgramRunnerMt) (db : CacheDb) (vConfigs : List (List ℤ)) : List ℕ :=
  (vConfigs.zipIdx.filter fun x => (r.cached db x.1).isNone).map Prod.snd

theorem mem_missing {cid : ℕ} :
    cid ∈ r.missing db vConfigs ↔ ∃ c, vConfigs[cid]? = some c ∧ r.cached db c = none := by
  simp [missing, List.mem_zipIdx_iff_getElem?]

theorem lt_of_mem_missing {cid : ℕ} (h : cid ∈ r.missing db vConfigs) : cid < vConfigs.length := by
  obtain ⟨c, hc, -⟩ := mem_missing.mp h
  exact (List.getElem?_eq_some_iff.mp hc).1

/-- Every configuration can be answered. -/
def Serves (r : ProgramRunnerMt) (db : CacheDb) (vConfigs : List (List ℤ)) : Prop :=
  r.allowExecute = true ∨ ∀ c ∈ vConfigs, r.cached db c ≠ none

/-- `v_locs` and `cid_to_run` after some of the configurations. -/
structure Looked (r : ProgramRunnerMt) (db : CacheDb) (num : ℕ) (done : List (List ℤ × ℕ))
    (st : List (Finset Str) × List ℕ) : Prop where
  locs : st.1 = (done.map fun x => r.fromCache db x.1) ++ List.replicate (num - done.length) ∅
  toRun : st.2 = (done.filter fun x => (r.cached db x.1).isNone).map Prod.snd
  allowed : r.allowExecute = true ∨ st.2 = []

/-- The loop over the cache dies only where a configuration cannot be answered. -/
theorem lookup_meets (r : ProgramRunnerMt) (db : CacheDb) (vConfigs : List (List ℤ)) :
    Meets (r.lookup db vConfigs)
      (fun st => st = (vConfigs.map (r.fromCache db), r.missing db vConfigs) ∧
        (r.allowExecute = true ∨ r.missing db vConfigs = []))
      (fun _ => ¬ r.Serves db vConfigs) := by
  have hloop : Meets (r.lookup db vConfigs) (r.Looked db vConfigs.length vConfigs.zipIdx)
      (fun _ => ¬ r.Serves db vConfigs) := by
    refine meets_foldlM (r.Looked db vConfigs.length) _ ?_ ⟨by simp, by simp, Or.inr rfl⟩
    rintro done ⟨config, cid⟩ rest ⟨vLocs, cidToRun⟩ hsplit ⟨hlocs, htoRun, hallowed⟩
    have hat : vConfigs.zipIdx[done.length]? = some (config, cid) := by
      rw [hsplit]
      simp
    obtain ⟨hconfig, rfl⟩ : vConfigs[done.length]? = some config ∧ done.length = cid := by
      simpa [List.getElem?_zipIdx] using hat
    have hlt : done.length < vConfigs.length := (List.getElem?_eq_some_iff.mp hconfig).1
    obtain ⟨m, hm⟩ : ∃ m, vConfigs.length - done.length = m + 1 :=
      Nat.exists_eq_add_of_lt (Nat.sub_pos_of_lt hlt) |>.imp fun m hm => by omega
    have hm' : vConfigs.length - (done.length + 1) = m := by omega
    dsimp only at hlocs htoRun hallowed ⊢
    subst hlocs htoRun
    cases hcached : r.cached db config with
    | some val =>
      refine ⟨?_, ?_, hallowed⟩
      · simp [fromCache, hcached, hm, hm', List.replicate_succ]
      · simp [hcached]
    | none =>
      apply meets_check_bind
      · intro hexec
        refine ⟨?_, ?_, Or.inl hexec⟩
        · simp [fromCache, hcached, hm, hm', List.replicate_succ]
        · simp [hcached]
      · rintro hexec (h | h)
        · exact hexec h
        · exact h config (List.mem_of_getElem? hconfig) hcached
  have hmap : vConfigs.zipIdx.map (fun x => r.fromCache db x.1) = vConfigs.map (r.fromCache db) := by
    have hfst := congrArg (List.map (r.fromCache db)) (List.zipIdx_map_fst 0 vConfigs)
    rwa [List.map_map] at hfst
  refine hloop.imp fun st h => ?_
  have hst : st = (vConfigs.map (r.fromCache db), r.missing db vConfigs) := by
    apply Prod.ext
    · rw [h.locs, hmap]
      simp
    · exact h.toRun
  refine ⟨hst, ?_⟩
  have hallowed := h.allowed
  rwa [hst] at hallowed

/-- `v_locs` after the configurations of `cids` have been executed. -/
def Executed (prog : List ℤ → Finset Str) (vConfigs : List (List ℤ)) (vLocs : List (Finset Str))
    (cids : List ℕ) (vLocs' : List (Finset Str)) : Prop :=
  vLocs'.length = vConfigs.length ∧ ∀ cid : ℕ, vLocs'[cid]? =
    if cid ∈ cids then (vConfigs[cid]?).map prog else vLocs[cid]?

theorem runOne_executed {vLocs vLocs' : List (Finset Str)} {cids : List ℕ} {cid : ℕ}
    (hcid : cid < vConfigs.length) (h : Executed prog vConfigs vLocs cids vLocs') :
    Meets (runOne prog vConfigs vLocs' cid) (Executed prog vConfigs vLocs (cids ++ [cid]))
      (fun _ => False) := by
  obtain ⟨hlength, hat⟩ := h
  have hconfig : vecAt vConfigs cid = .ok vConfigs[cid] := by simp [hcid]
  have hlocs : vecAt vLocs' cid = .ok (vLocs'.get ⟨cid, by omega⟩) := by simp [hlength, hcid]
  rw [runOne, hconfig, ok_bind, hlocs, ok_bind, meets_pure]
  refine ⟨by simp [hlength], fun k => ?_⟩
  by_cases hk : cid = k
  · subst hk
    simp [hlength, hcid]
  · rw [List.getElem?_set_ne hk, hat k]
    simp [Ne.symm hk]

/-- A loop that executes a configuration in each pass. -/
theorem foldlM_runOne {ι : Type*} {jobs : List ι} {cidOf : ι → ℕ} {getCid : ι → Except Abort ℕ}
    (hget : ∀ x ∈ jobs, getCid x = .ok (cidOf x)) (hcid : ∀ x ∈ jobs, cidOf x < vConfigs.length)
    {vLocs : List (Finset Str)} (hlength : vLocs.length = vConfigs.length) :
    Meets (jobs.foldlM (fun vLocs x => getCid x >>= runOne prog vConfigs vLocs) vLocs)
      (Executed prog vConfigs vLocs (jobs.map cidOf)) (fun _ => False) := by
  refine meets_foldlM (fun done => Executed prog vConfigs vLocs (done.map cidOf)) jobs ?_
    ⟨hlength, by simp⟩
  intro done x rest vLocs' hsplit hdone
  have hx : x ∈ jobs := by
    rw [hsplit]
    simp
  rw [hget x hx, ok_bind, List.map_append]
  exact runOne_executed (hcid x hx) hdone

/-- However the items are handed out, the configurations that were to be executed are. -/
theorem execute_meets {sched : ∀ num, Schedule r.nThreads num} {cidToRun : List ℕ}
    (hexec : r.allowExecute = true ∨ cidToRun = []) (hcid : ∀ cid ∈ cidToRun, cid < vConfigs.length)
    {vLocs : List (Finset Str)} (hlength : vLocs.length = vConfigs.length) :
    Meets (r.execute prog sched vConfigs cidToRun vLocs)
      (Executed prog vConfigs vLocs cidToRun) (fun _ => False) := by
  rw [execute, check_pos hexec, ok_bind]
  split
  · obtain ⟨calls, hitems⟩ := sched cidToRun.length
    have hlt : ∀ x ∈ calls, x.2 < cidToRun.length := by
      intro x hx
      exact List.mem_range.mp (hitems.mem_iff.mp (List.mem_map_of_mem hx))
    have hget : ∀ x ∈ calls, vecAt cidToRun x.2 = .ok (cidToRun.getD x.2 0) := by
      intro x hx
      simp [hlt x hx]
    have hmem : ∀ x ∈ calls, cidToRun.getD x.2 0 < vConfigs.length := by
      intro x hx
      apply hcid
      simp [hlt x hx]
    refine (foldlM_runOne hget hmem hlength).imp fun vLocs' h => ?_
    have hall : (List.range cidToRun.length).map (fun i => cidToRun.getD i 0) = cidToRun := by
      apply List.ext_getElem
      · simp
      · intro i _ hi
        simp [hi]
    have hperm : (calls.map fun x => cidToRun.getD x.2 0).Perm cidToRun := by
      have hmap := hitems.map fun i => cidToRun.getD i 0
      rwa [hall, List.map_map] at hmap
    exact ⟨h.1, fun cid => by rw [h.2 cid]; simp only [hperm.mem_iff]⟩
  · split
    · have h : Meets _ (Executed prog vConfigs vLocs (cidToRun.map id)) (fun _ => False) :=
        foldlM_runOne (fun x _ => (rfl : pure x = Except.ok (id x))) hcid hlength
      rwa [List.map_id] at h
    · next hno =>
      obtain rfl : cidToRun = [] := by simpa [hno] using hexec
      exact ⟨hlength, by simp⟩

/-- Every record of the cache is the record of what the program covers. -/
def Exact (prog : List ℤ → Finset Str) (db : CacheDb) : Prop :=
  ∀ config val, db config = some val → val = encode (prog config)

theorem Exact.update (h : Exact prog db) (config : List ℤ) :
    Exact prog (Function.update db config (some (encode (prog config)))) := by
  intro c val hval
  by_cases hc : c = config
  · subst hc
    rw [Function.update_self, Option.some.injEq] at hval
    exact hval.symm
  · rw [Function.update_of_ne hc] at hval
    exact h c val hval

theorem writeCache_meets (hdb : Exact prog db) {vLocs vLocs' : List (Finset Str)}
    {cidToRun : List ℕ} (hcid : ∀ cid ∈ cidToRun, cid < vConfigs.length)
    (h : Executed prog vConfigs vLocs cidToRun vLocs') :
    Meets (r.writeCache db vConfigs vLocs' cidToRun) (Exact prog) (fun _ => False) := by
  unfold writeCache
  split
  · refine meets_foldlM_const (Exact prog) cidToRun ?_ hdb
    intro cid hmem db hdb
    have hlt := hcid cid hmem
    have hconfig : vConfigs[cid]? = some vConfigs[cid] := List.getElem?_eq_getElem hlt
    have hlocs : vLocs'[cid]? = some (prog vConfigs[cid]) := by
      rw [h.2 cid, if_pos hmem, hconfig, Option.map_some]
    rw [vecAt_of_getElem? hconfig, ok_bind, vecAt_of_getElem? hlocs, ok_bind]
    exact hdb.update _
  · exact hdb

/-- The answer for a configuration before the restriction. -/
def answer (r : ProgramRunnerMt) (prog : List ℤ → Finset Str) (db : CacheDb) (config : List ℤ) :
    Finset Str :=
  match r.cached db config with
  | some val => decode val
  | none => prog config

/-- **What a run does.**  It answers every configuration from the cache or by executing it,
keeps the cache exact, and dies only where a configuration can be answered neither way. -/
theorem run_meets {sched : ∀ num, Schedule r.nThreads num} (hdb : Exact prog db) :
    Meets (r.run prog sched db vConfigs)
      (fun res => res.1 = vConfigs.map (fun c => r.filterLocs (r.answer prog db c)) ∧
        Exact prog res.2)
      (fun _ => ¬ r.Serves db vConfigs) := by
  refine meets_bind (lookup_meets r db vConfigs) ?_
  rintro _ ⟨rfl, hallowed⟩
  have hcid : ∀ cid ∈ r.missing db vConfigs, cid < vConfigs.length := fun _ h => lt_of_mem_missing h
  have hlength : (vConfigs.map (r.fromCache db)).length = vConfigs.length := List.length_map _
  obtain ⟨vLocs, hexecute, hexecuted⟩ :
      ∃ vLocs, r.execute prog sched vConfigs (r.missing db vConfigs)
          (vConfigs.map (r.fromCache db)) = .ok vLocs ∧
        Executed prog vConfigs (vConfigs.map (r.fromCache db)) (r.missing db vConfigs) vLocs :=
    (execute_meets hallowed hcid hlength).exists_ok
  obtain ⟨db', hwrite, hexact⟩ := (writeCache_meets (r := r) hdb hcid hexecuted).exists_ok
  dsimp only
  rw [hexecute, ok_bind, hwrite, ok_bind, meets_pure]
  refine ⟨?_, hexact⟩
  apply List.ext_getElem?
  intro cid
  rw [List.getElem?_map, hexecuted.2 cid, List.getElem?_map, List.getElem?_map]
  cases hconfig : vConfigs[cid]? with
  | none => simp
  | some config =>
    have hmem : cid ∈ r.missing db vConfigs ↔ r.cached db config = none := by
      simp [mem_missing, hconfig]
    cases hcached : r.cached db config <;> simp [hmem, hcached, answer, fromCache]

end ProgramRunnerMt

/-! ## Runs that share a cache -/

/-- The locations that are wanted: those of the `locs` option, or all. -/
def RunnerOptions.interested (o : RunnerOptions) (s : Finset Str) : Finset Str :=
  if o.locs = [] then s else splitLocs o.locs ∩ s

namespace ProgramRunnerMt

variable {r : ProgramRunnerMt} {prog : List ℤ → Finset Str} {db : CacheDb}
  {vConfigs : List (List ℤ)} {o : RunnerOptions}

/-- The caches that runs of the program leave behind, each with options of its own. -/
inductive Reached (prog : List ℤ → Finset Str) : CacheDb → Prop
  | empty : Reached prog fun _ => none
  | run {db db' : CacheDb} (h : Reached prog db) {o : RunnerOptions} {r : ProgramRunnerMt}
      (hnew : new o = .ok r) {sched : ∀ num, Schedule (r.init o).nThreads num}
      {vConfigs : List (List ℤ)} {vLocs : List (Finset Str)}
      (hrun : (r.init o).run prog sched db vConfigs = .ok (vLocs, db')) : Reached prog db'

/-- **Records are shared safely.**  A record is written before the restriction, so it does not
depend on the options of the run that wrote it. -/
theorem Reached.exact (h : Reached prog db) : Exact prog db := by
  induction h with
  | empty => exact fun _ _ h => nomatch h
  | run _ hnew hrun ih => exact ((run_meets ih).of_eq_ok hrun).2

theorem new_eq_ok (h : new o = .ok r) : r.allowExecute = hasChar o.cache 'x' ∧
    r.allowCacheRead = hasChar o.cache 'r' ∧ r.interestedLocs = ∅ := by
  unfold new at h
  by_cases hthreads : 1 ≤ o.runnerThreads
  · rw [check_pos hthreads, ok_bind] at h
    cases h
    exact ⟨rfl, rfl, rfl⟩
  · rw [check_neg hthreads] at h
    cases h

theorem hasChar_iff {s : Str} {c : Char} : hasChar s c = true ↔ c ∈ s := by
  simp [hasChar]

theorem splitLocs_ne_empty (locs : Str) : splitLocs locs ≠ ∅ := by
  simp [splitLocs, List.splitOnP_ne_nil]

/-- Where executing is allowed, the restriction is the wanted one. -/
theorem filterLocs_of_execute (hnew : new o = .ok r) (hx : 'x' ∈ o.cache) (s : Finset Str) :
    (r.init o).filterLocs s = o.interested s := by
  obtain ⟨hexec, -, hlocs⟩ := new_eq_ok hnew
  rw [hasChar_iff.mpr hx] at hexec
  unfold init filterLocs RunnerOptions.interested
  by_cases ho : o.locs = []
  · simp [hexec, ho, hlocs]
  · simp [hexec, ho, splitLocs_ne_empty]

/-- Where it is not, there is no restriction. -/
theorem filterLocs_of_not_execute (hnew : new o = .ok r) (hx : 'x' ∉ o.cache) (s : Finset Str) :
    (r.init o).filterLocs s = s := by
  obtain ⟨hexec, -, hlocs⟩ := new_eq_ok hnew
  rw [Bool.eq_false_iff.mpr (mt hasChar_iff.mp hx)] at hexec
  simp [init, filterLocs, hexec, hlocs]

theorem allowExecute_init (r : ProgramRunnerMt) (o : RunnerOptions) :
    (r.init o).allowExecute = r.allowExecute := by
  unfold init
  split
  · split <;> rfl
  · rfl

theorem cached_init (r : ProgramRunnerMt) (o : RunnerOptions) (db : CacheDb) (config : List ℤ) :
    (r.init o).cached db config = r.cached db config := by
  unfold init cached
  split
  · split <;> rfl
  · rfl

/-- A record that fits answers with the program's locations. -/
theorem answer_eq {config : List ℤ} (hcomma : ∀ s ∈ prog config, ',' ∉ s) (hdb : Exact prog db)
    (hsize : r.cached db config ≠ none → recordSize (prog config) ≤ intMax) :
    r.answer prog db config = prog config := by
  unfold answer
  cases hcached : r.cached db config with
  | none => rfl
  | some val =>
    have hval : val = encode (prog config) := by
      unfold cached at hcached
      split at hcached
      · exact hdb config val hcached
      · cases hcached
    subst hval
    exact decode_encode_of_fits hcomma (hsize (by rw [hcached]; simp))

/-- **What a run returns**, whatever ran before it. -/
theorem run_eq (hcomma : ∀ c ∈ vConfigs, ∀ s ∈ prog c, ',' ∉ s) (hdb : Reached prog db)
    (hserves : r.Serves db vConfigs)
    (hsize : ∀ c ∈ vConfigs, r.cached db c ≠ none → recordSize (prog c) ≤ intMax)
    (sched : ∀ num, Schedule r.nThreads num) :
    ∃ db', r.run prog sched db vConfigs = .ok (vConfigs.map fun c => r.filterLocs (prog c), db') := by
  have hrun : Meets (r.run prog sched db vConfigs) _ _ := run_meets hdb.exact
  cases hres : r.run prog sched db vConfigs with
  | error e =>
    rw [hres] at hrun
    exact absurd hserves hrun
  | ok res =>
    rw [hres] at hrun
    obtain ⟨vLocs, db'⟩ := res
    obtain ⟨rfl, -⟩ := hrun
    refine ⟨db', ?_⟩
    have hanswer : vConfigs.map (fun c => r.filterLocs (r.answer prog db c)) =
        vConfigs.map fun c => r.filterLocs (prog c) :=
      List.map_congr_left fun c hc => by rw [answer_eq (hcomma c hc) hdb.exact (hsize c hc)]
    rw [hanswer]

/-- **The cache and the threads do not show.**  After any runs of the program, with any options
each, a run that can answer all of its configurations returns the program's locations
restricted to the wanted ones exactly when it may execute, or nothing is restricted, or the
restriction has nothing to take away.  The names have no commas, and the records that are read
fit into an `int`. -/
theorem run_eq_interested_iff (hcomma : ∀ c, ∀ s ∈ prog c, ',' ∉ s) (hdb : Reached prog db)
    (hnew : new o = .ok r)
    (hserves : 'x' ∈ o.cache ∨ 'r' ∈ o.cache ∧ ∀ c ∈ vConfigs, db c ≠ none)
    (hsize : ∀ c ∈ vConfigs, 'r' ∈ o.cache → db c ≠ none → recordSize (prog c) ≤ intMax)
    (sched : ∀ num, Schedule (r.init o).nThreads num) :
    (∃ db', (r.init o).run prog sched db vConfigs =
        .ok (vConfigs.map fun c => o.interested (prog c), db')) ↔
      'x' ∈ o.cache ∨ o.locs = [] ∨ ∀ c ∈ vConfigs, prog c ⊆ splitLocs o.locs := by
  obtain ⟨hexec, hread, -⟩ := new_eq_ok hnew
  have hcached : ∀ c, (r.init o).cached db c ≠ none ↔ 'r' ∈ o.cache ∧ db c ≠ none := by
    intro c
    rw [cached_init, cached, hread]
    by_cases hr : 'r' ∈ o.cache
    · simp [hasChar_iff.mpr hr, hr]
    · simp [mt hasChar_iff.mp hr, hr]
  have hserves' : (r.init o).Serves db vConfigs := by
    rcases hserves with hx | ⟨hr, hall⟩
    · left
      rw [allowExecute_init, hexec]
      exact hasChar_iff.mpr hx
    · right
      intro c hc
      exact (hcached c).mpr ⟨hr, hall c hc⟩
  obtain ⟨db', hrun⟩ := run_eq (fun c _ => hcomma c) hdb hserves'
    (fun c hc h => hsize c hc ((hcached c).mp h).1 ((hcached c).mp h).2) sched
  by_cases hx : 'x' ∈ o.cache
  · refine iff_of_true ⟨db', ?_⟩ (Or.inl hx)
    simp only [hrun, filterLocs_of_execute hnew hx]
  · simp only [hrun, filterLocs_of_not_execute hnew hx, hx, false_or]
    have hmaps : (∃ db'', (Except.ok (vConfigs.map fun c => prog c, db') : Except Abort _) =
        .ok (vConfigs.map fun c => o.interested (prog c), db'')) ↔
        ∀ c ∈ vConfigs, prog c = o.interested (prog c) := by
      simp [List.map_inj_left]
    rw [hmaps]
    by_cases ho : o.locs = []
    · simp [RunnerOptions.interested, ho]
    · have hsub : ∀ c, prog c = o.interested (prog c) ↔ prog c ⊆ splitLocs o.locs := by
        intro c
        rw [RunnerOptions.interested, if_neg ho, eq_comm, Finset.inter_eq_right]
      simp only [hsub, ho, false_or]

/-! ## Reading without executing -/

/-- One thread executes the items one after the other. -/
def sequential {n : ℕ} (h : 0 < n) (num : ℕ) : Schedule n num where
  calls := (List.range num).map fun i => (⟨0, h⟩, i)
  items := by simp [Function.comp_def]

/-- The options of a run with one thread. -/
def oneThread (cache locs : Str) : RunnerOptions := ⟨cache, locs, 1⟩

/-- What `new` makes of them. -/
def oneThreadRunner (cache : Str) : ProgramRunnerMt where
  nThreads := 1
  allowExecute := hasChar cache 'x'
  allowCacheRead := hasChar cache 'r'
  allowCacheWrite := hasChar cache 'w'

theorem new_oneThread (cache locs : Str) : new (oneThread cache locs) = .ok (oneThreadRunner cache) :=
  rfl

/-- The program covers `b`, and nothing else, for every configuration. -/
def coversB : List ℤ → Finset Str := fun _ => {['b']}

/-- The cache after one configuration has been executed and written. -/
def filled : CacheDb := Function.update (fun _ => none) [0] (some (encode {['b']}))

theorem reached_filled : Reached coversB filled := by
  have hrun : ((oneThreadRunner ['x', 'w']).init (oneThread ['x', 'w'] [])).run coversB
      (sequential (by decide)) (fun _ => none) [[0]] = .ok ([{['b']}], filled) := rfl
  exact Reached.run .empty (new_oneThread ['x', 'w'] []) hrun

theorem comma_notMem_coversB (c : List ℤ) : ∀ s ∈ coversB c, ',' ∉ s := by
  simp [coversB]

theorem recordSize_coversB (c : List ℤ) : (recordSize (coversB c) : ℤ) ≤ intMax := by
  simp [coversB, recordSize, intMax]

/-- With `cache` set to `r`, the location `b` is returned although only `a` is wanted. -/
theorem run_readOnly_unfiltered : Reached coversB filled ∧
    new (oneThread ['r'] ['a']) = .ok (oneThreadRunner ['r']) ∧
    (∃ db', ((oneThreadRunner ['r']).init (oneThread ['r'] ['a'])).run coversB
      (sequential (by decide)) filled [[0]] = .ok ([{['b']}], db')) ∧
    (oneThread ['r'] ['a']).interested (coversB [0]) = ∅ := by
  refine ⟨reached_filled, new_oneThread _ _, ?_, by decide⟩
  refine run_eq (fun c _ => comma_notMem_coversB c) reached_filled ?_
    (fun c _ _ => recordSize_coversB c) _
  right
  intro c hc
  rw [List.mem_singleton] at hc
  subst hc
  rw [cached_init]
  simp [cached, oneThreadRunner, hasChar, filled]

/-- With `x` as well, it is left out. -/
theorem run_eq_interested_iff_filled :
    ∃ db', ((oneThreadRunner ['r', 'x']).init (oneThread ['r', 'x'] ['a'])).run coversB
      (sequential (by decide)) filled [[0]] =
        .ok ([[0]].map fun c => (oneThread ['r', 'x'] ['a']).interested (coversB c), db') :=
  (run_eq_interested_iff comma_notMem_coversB reached_filled (new_oneThread ['r', 'x'] ['a'])
    (Or.inl (by decide)) (fun c _ _ _ => recordSize_coversB c) (sequential (by decide))).mpr
    (Or.inl (by decide))

end ProgramRunnerMt

end GenTree

import GenTree.IterRuns
import GenTree.Library.MergeScan

/-!
# The truth values of the first iterative algorithm

The comparison with a counterexample walks over all locations with a cursor in the sorted
list of the locations that the counterexample covers.  A location that is passed over does
not move the cursor, so it is the scan `MergeScan.cursor`, and a covered location that is
passed over makes the truth value of all later covered locations false.

Nothing is assumed about which records are ignored or have no tree; of the runs it is only
used that the coverage store stays valid, so that ids are positions and coverage lists are
sorted.
-/

namespace GenTree

open Outcome

namespace IterativeAlgorithm

variable {Name Hash : Type}

/-- The comparison passes over a record that has no tree or is ignored. -/
def LocData.skipped (d : LocData) : Bool :=
  (d.tree.isNone && d.sharedTree.isNone) || d.ignored

namespace St

/-- The comparison **skips** the location `id`. -/
def Skips (s : St Name Hash) (id : ℕ) : Prop := s.vecLocData[id]?.map LocData.skipped = some true

instance (s : St Name Hash) (id : ℕ) : Decidable (s.Skips id) :=
  inferInstanceAs (Decidable (_ = _))

/-- The location `id` is **compared**. -/
def Compares (s : St Name Hash) (id : ℕ) : Prop :=
  s.vecLocData[id]?.map LocData.skipped = some false

instance (s : St Name Hash) (id : ℕ) : Decidable (s.Compares id) :=
  inferInstanceAs (Decidable (_ = _))

/-- `s'` has the same records as `s` but for that of `id`. -/
structure SameBut (id : ℕ) (s s' : St Name Hash) : Prop where
  length : s'.vecLocData.length = s.vecLocData.length
  record : ∀ j ≠ id, s'.vecLocData[j]? = s.vecLocData[j]?

theorem sameBut_refl {id : ℕ} (s : St Name Hash) : s.SameBut id s := ⟨rfl, fun _ _ => rfl⟩

theorem sameBut_setDat {s s' : St Name Hash} {id : ℕ} (d : LocData) (h : s.SameBut id s') :
    s.SameBut id (s'.setDat id d) := by
  refine ⟨?_, fun j hj => ?_⟩
  · rw [setDat, List.length_set, h.length]
  · rw [setDat, List.getElem?_set_ne hj.symm, h.record j hj]

end St

/-! ## One location -/

section Scan

variable {igThr iter : ℤ} {c : Config}

theorem treeEval_meets (s : St Name Hash) (d : LocData) (truth : Bool) (id : ℕ) :
    Meets (treeEval s d c truth) (fun r => s.SameBut id r.2) fun _ => True := by
  unfold treeEval
  split
  · refine meets_bind_of_eq (fun _ _ => trivial) fun tree _ => ?_
    refine meets_bind_of_eq (fun _ _ => trivial) fun r _ => ?_
    exact ⟨rfl, fun _ _ => rfl⟩
  · refine meets_bind_of_eq (fun _ _ => trivial) fun tree _ => ?_
    refine meets_bind_of_eq (fun _ _ => trivial) fun r _ => ?_
    exact s.sameBut_refl
  · trivial

/-- **One location.**  The cursor only moves for a location that is compared, and no other
record changes. -/
theorem compareLoc_meets (sc : Scan Name Hash) (id : ℕ) :
    Meets (compareLoc igThr iter c sc id)
      (fun sc' => sc'.it = MergeScan.cursor sc.s.Skips [id] sc.it ∧ sc.s.SameBut id sc'.s)
      fun _ => True := by
  unfold compareLoc
  refine meets_bind_of_eq (fun _ _ => trivial) fun d hd => ?_
  have hget : sc.s.vecLocData[id]? = some d := vecAt_eq_ok.mp hd
  have hskips : sc.s.Skips id ↔ d.skipped = true := by
    rw [St.Skips, hget, Option.map_some, Option.some.injEq]
  rw [MergeScan.cursor, MergeScan.cursor]
  split
  · next hnone =>
      have hskip : sc.s.Skips id := by
        rw [hskips, LocData.skipped, hnone.1, hnone.2]
        rfl
      exact ⟨(if_pos hskip).symm, sc.s.sameBut_refl⟩
  · next htree =>
      split
      · next hignored =>
          have hskip : sc.s.Skips id := by rw [hskips, LocData.skipped, hignored, Bool.or_true]
          exact ⟨(if_pos hskip).symm, sc.s.sameBut_refl⟩
      · next hignored =>
          have hskip : ¬ sc.s.Skips id := by
            rw [hskips, LocData.skipped]
            simpa [hignored, ← Option.isNone_iff_eq_none] using htree
          refine meets_bind (treeEval_meets sc.s d _ id) fun r hr => ?_
          rw [if_neg hskip, MergeScan.cursor]
          dsimp only
          split
          · exact ⟨rfl, St.sameBut_setDat _ hr⟩
          · exact ⟨rfl, St.sameBut_setDat _ hr⟩

/-! ## The scan -/

/-- The comparison adds no record. -/
theorem compareLocs_length (locs : List (Location Name)) (sc : Scan Name Hash) :
    Meets (compareLocs igThr iter c locs sc)
      (fun sc' => sc'.s.vecLocData.length = sc.s.vecLocData.length) fun _ => True := by
  induction locs generalizing sc with
  | nil => exact rfl
  | cons loc locs ih =>
      rw [compareLocs]
      refine meets_bind_of_eq (fun _ _ => trivial) fun id _ => ?_
      split
      · exact rfl
      · refine meets_bind (compareLoc_meets sc id) fun sc' hsc' => ?_
        obtain ⟨-, hsame⟩ := hsc'
        exact (ih sc').imp fun sc'' hlen => hlen.trans hsame.length

/-- **The scan** of the locations from the position `j` on, all of which have records: the
cursor passes over the locations that are skipped, and the records behind do not change. -/
theorem compareLocs_meets {locs : List (Location Name)} {j : ℕ} {sc : Scan Name Hash}
    (hids : ∀ (i : ℕ) (l : Location Name), locs[i]? = some l → l.id = some (j + i))
    (hlen : j + locs.length ≤ sc.s.vecLocData.length) :
    Meets (compareLocs igThr iter c locs sc)
      (fun sc' => sc'.it = MergeScan.cursor sc.s.Skips (List.range' j locs.length) sc.it ∧
        ∀ i, j + locs.length ≤ i → sc'.s.vecLocData[i]? = sc.s.vecLocData[i]?)
      fun _ => True := by
  induction locs generalizing j sc with
  | nil => exact ⟨rfl, fun _ _ => rfl⟩
  | cons loc locs ih =>
      rw [List.length_cons] at hlen
      have hindex : loc.index = .ok j := by rw [Location.index, hids 0 loc rfl]; rfl
      rw [compareLocs, hindex, ok_bind, if_neg (by omega)]
      refine meets_bind (compareLoc_meets sc j) fun sc' hsc' => ?_
      obtain ⟨hit, hsame⟩ := hsc'
      have hnext := @ih (j + 1) sc' (fun i l hl => by rw [hids (i + 1) l (by simpa using hl)]; congr 1; omega)
        (by rw [hsame.length]; omega)
      refine hnext.imp fun sc'' hsc'' => ?_
      obtain ⟨hit', hrecords⟩ := hsc''
      constructor
      · have hskips : ∀ i ∈ List.range' (j + 1) locs.length, sc'.s.Skips i ↔ sc.s.Skips i := by
          intro i hi
          have hne : i ≠ j := by have := List.mem_range'_1.mp hi; omega
          rw [St.Skips, St.Skips, hsame.record i hne]
        rw [hit', MergeScan.cursor_congr hskips, hit, List.length_cons, List.range'_succ]
        simp only [MergeScan.cursor]
        split <;> rfl
      · intro i hi
        rw [List.length_cons] at hi
        rw [hrecords i (by omega), hsame.record i (by omega)]

end Scan

/-! ## The store stays valid -/

section Runs

variable {env : Env Name Hash}

theorem generates_fresh (env : Env Name Hash) [DecidableEq Hash] :
    Generates env fun c => c.Fresh env.dom where
  touchHash _ hc := hc.touchHash
  all := genAllConfigs_fresh
  covering rng := genOneConveringConfigs_fresh rng
  seeds := getSeedConfigs_fresh _
  leaf tree node lim rng solverCalls := tree.genOneConveringConfigs_fresh node lim rng solverCalls

variable [DecidableEq Name] [DecidableEq Hash]

/-- Running fresh configurations keeps the store valid. -/
theorem kept_valid (env : Env Name Hash) :
    Kept env (fun c => c.Fresh env.dom) fun s => ∃ hist, s.cov.Valid hist where
  same := by
    rintro s s' ⟨hist, hv⟩ hsame
    exact ⟨hist, by rwa [hsame.cov]⟩
  empty s hcov _ := ⟨[], by rw [hcov]; exact CoverageStore.valid_empty⟩
  runConfigs s cs hs hcs := by
    unfold St.runConfigs
    apply meets_foldlM_const (fun p : St Name Hash × List ℕ => ∃ hist, p.1.cov.Valid hist)
    · rintro ⟨c, names⟩ hmem ⟨s', ids⟩ ⟨hist, hv⟩
      have hc := hcs c (List.of_mem_zip hmem).1
      have hnodup : names.Nodup := by
        have hnames := (List.of_mem_zip hmem).2
        rw [List.mem_mapIdx] at hnames
        obtain ⟨k, hk, rfl⟩ := hnames
        exact env.program_nodup _ _
      obtain ⟨cov', n, hrun, -, hvalid⟩ := hv.registerCov hc.id hc.covLocs hnodup
      unfold St.registerRun
      dsimp only
      rw [hrun, ok_bind]
      exact meets_check_bind (fun _ => ⟨_, hvalid⟩) fun _ => trivial
    · exact hs

/-- **The store is valid in every run.** -/
theorem RunsTo.valid {l : Label} {s : St Name Hash} (h : RunsTo env l s) :
    ∃ hist, s.cov.Valid hist :=
  h.kept (kept_valid env) (generates_fresh env)

/-! ## The truth values -/

omit [DecidableEq Hash] in
/-- The truth value at a location that is compared, in a valid store. -/
theorem newTruth_eq_true_iff {s : St Name Hash} {hist : List (List Name)} (hv : s.cov.Valid hist)
    {c : Config} (hc : c ∈ s.cov.configs) {igThr iter : ℤ} {k nRebuilds : ℕ} {sc : Scan Name Hash}
    (hk : k < s.cov.nLocs)
    (hscan : compareLocs igThr iter c (s.cov.locs.take k) { s, it := c.covLocs, nRebuilds } = .ok sc)
    (hcompared : sc.s.Compares k) :
    newTruth sc.it k = true ↔ k ∈ c.covLocs ∧ ∀ j < k, s.Skips j → j ∉ c.covLocs := by
  have htake : (s.cov.locs.take k).length = k := List.length_take_of_le hk.le
  have hrecord : k < s.vecLocData.length := by
    obtain ⟨d, hd, -⟩ := Option.map_eq_some_iff.mp hcompared
    rw [← (compareLocs_length _ _).of_eq_ok hscan]
    exact (List.getElem?_eq_some_iff.mp hd).1
  have hids : ∀ (i : ℕ) (l : Location Name), (s.cov.locs.take k)[i]? = some l →
      l.id = some (0 + i) := by
    intro i l hl
    rw [Nat.zero_add]
    rw [List.getElem?_take] at hl
    split at hl
    · exact hv.locId i l hl
    · cases hl
  have hlen : 0 + (s.cov.locs.take k).length ≤ s.vecLocData.length := by omega
  have hit := (compareLocs_meets hids hlen).of_eq_ok hscan
  rw [htake] at hit
  show MergeScan.hit sc.it k = true ↔ _
  rw [hit.1, ← List.range_eq_range', MergeScan.hit_cursor_iff]
  · simp only [List.mem_range]
  · rw [← List.range_succ]
    exact List.pairwise_lt_range
  · exact hv.covLocs_sorted c hc
  · exact fun i _ hi => List.mem_range.mpr hi

/-! ## Runs that are evaluated -/

/-- The comparison with the next counterexample, for the first `k` locations. -/
def scanTo (env : Env Name Hash) (k : ℕ) :
    Label × St Name Hash → Option (ℕ × Config × Scan Name Hash)
  | (.compare r (id :: _), s) => do
      let c ← s.cov.configs[id]?
      let sc ← (compareLocs (env.ignoreThr r.iter) r.iter c (s.cov.locs.take k)
        { s, it := c.covLocs, nRebuilds := r.nRebuilds }).toOption
      some (id, c, sc)
  | _ => none

/-- The program under `env` after `n` steps. -/
def Env.after (env : Env Name Hash) (n : ℕ) : Option (Label × St Name Hash) :=
  env.init.toOption.bind fun s => Machine.runFor (step env) (fun _ => True) n (.head 1, s)

/-- A comparison that the evaluation of a run has come to. -/
theorem exists_scan (env : Env Name Hash) (n k : ℕ) (P : ℕ × Config × Scan Name Hash → Prop)
    [DecidablePred P]
    (h : ((env.after n).bind (scanTo env k)).any (fun p => decide (P p)) = true) :
    ∃ r id ids s c sc, RunsTo env (.compare r (id :: ids)) s ∧ s.cov.configs[id]? = some c ∧
      compareLocs (env.ignoreThr r.iter) r.iter c (s.cov.locs.take k)
        { s, it := c.covLocs, nRebuilds := r.nRebuilds } = .ok sc ∧ P (id, c, sc) := by
  obtain ⟨p, hscan, hP⟩ := (Option.any_eq_true _ _).mp h
  obtain ⟨⟨l, s⟩, hafter, hscan⟩ := Option.bind_eq_some_iff.mp hscan
  obtain ⟨s₀, hinit, hrun⟩ := Option.bind_eq_some_iff.mp hafter
  have hruns : RunsTo env l s := by
    refine ⟨s₀, ?_, .of_runFor hrun⟩
    cases hres : env.init with
    | error e =>
        rw [hres] at hinit
        cases hinit
    | ok s' =>
        rw [hres] at hinit
        cases hinit
        rfl
  match l with
  | .compare r (id :: ids) =>
      obtain ⟨c, hc, hscan⟩ := Option.bind_eq_some_iff.mp hscan
      obtain ⟨sc, hsc, hp⟩ := Option.bind_eq_some_iff.mp hscan
      cases hp
      refine ⟨r, id, ids, s, c, sc, hruns, hc, ?_, of_decide_eq_true hP⟩
      cases hres : compareLocs (env.ignoreThr r.iter) r.iter c (s.cov.locs.take k)
          { s, it := c.covLocs, nRebuilds := r.nRebuilds } with
      | error e =>
          rw [hres] at hsc
          cases hsc
      | ok sc' =>
          rw [hres] at hsc
          cases hsc
          rfl

end Runs

/-- Equal leaves stay in the order they are in. -/
def LeavesSort.stable : LeavesSort where
  sort l := l.insertionSort fun a b => leafLe a.node b.node = true
  perm l := List.perm_insertionSort _ l
  sorted l := by
    have : Std.Total fun a b : Leaf => leafLe a.node b.node = true :=
      ⟨fun a b => leafLe_total a.node b.node⟩
    have : IsTrans Leaf fun a b => leafLe a.node b.node = true := ⟨fun _ _ _ => leafLe_trans⟩
    exact List.pairwise_insertionSort _ l

/-- Two switches, and a program that always covers `1` and covers `0` unless the values are
`0, 1`; the first five draws are `0` and all others `1`. -/
def Env.dropping : Env ℕ (List ℤ) where
  dom := Domain.switches 2 (by decide)
  program _ values := (if values = [0, 1] then [1] else [0, 1]).dedup
  program_nodup _ _ := List.nodup_dedup _
  confHash values := values
  locHash covBy := covBy.map Int.ofNat
  select := .firstUntested
  solver := .search (Domain.switches 2 (by decide))
  draws k := if k < 5 then 0 else 1
  leavesSort := .stable
  ignoreThr _ := 109
  sigint _ := false
  retryFuel := 0
  options := { rounds := 1 }

section Truth

variable [DecidableEq Name] [DecidableEq Hash] {env : Env Name Hash}

/-- **The truth values.**  In every run and whatever records and trees there are, when the
comparison with the counterexample `c` comes to the location `k`, and `k` is compared, its
truth value is that of "`c` covers `k`" if and only if `c` does not cover `k`, or covers no
location below `k` that has been skipped. -/
theorem newTruth_iff {r : Round} {id : ℕ} {ids : List ℕ} {s : St Name Hash}
    (h : RunsTo env (.compare r (id :: ids)) s) {c : Config} (hc : s.cov.configs[id]? = some c)
    (vecLocData : List LocData) (trees : List CTree) {k : ℕ} {loc : Location Name}
    (hloc : s.cov.locs[k]? = some loc) {sc : Scan Name Hash}
    (hscan : compareLocs (env.ignoreThr r.iter) r.iter c (s.cov.locs.take k)
      { s := { s with vecLocData, trees }, it := c.covLocs, nRebuilds := r.nRebuilds } = .ok sc)
    (hcompared : sc.s.Compares k) :
    loc.id = some k ∧
    ((newTruth sc.it k = true ↔ k ∈ c.covLocs) ↔
      (k ∈ c.covLocs → ∀ j < k, St.Skips { s with vecLocData, trees } j → j ∉ c.covLocs)) := by
  obtain ⟨hist, hv⟩ := h.valid
  have hk : k < s.cov.nLocs := (List.getElem?_eq_some_iff.mp hloc).1
  have hv' : St.cov { s with vecLocData, trees } |>.Valid hist := hv
  refine ⟨hv.locId k loc hloc, ?_⟩
  rw [newTruth_eq_true_iff hv' (List.mem_of_getElem? hc) hk hscan hcompared]
  constructor
  · intro hright hmem
    exact (hright.mpr hmem).2
  · intro hclear
    exact ⟨fun htruth => htruth.1, fun hmem => ⟨hmem, hclear hmem⟩⟩

end Truth

/-- The location `1` in the comparison with the first counterexample. -/
theorem newTruth_iff_dropping :
    ∃ r id ids s c loc sc, RunsTo Env.dropping (.compare r (id :: ids)) s ∧
      s.cov.configs[id]? = some c ∧ s.cov.locs[1]? = some loc ∧
      compareLocs (Env.dropping.ignoreThr r.iter) r.iter c (s.cov.locs.take 1)
        { s, it := c.covLocs, nRebuilds := r.nRebuilds } = .ok sc ∧ sc.s.Compares 1 ∧
      loc.id = some 1 ∧
      ((newTruth sc.it 1 = true ↔ 1 ∈ c.covLocs) ↔
        (1 ∈ c.covLocs → ∀ j < 1, s.Skips j → j ∉ c.covLocs)) := by
  obtain ⟨r, id, ids, s, c, sc, hrun, hc, hscan, hcompared, hlocs⟩ := exists_scan Env.dropping 1 1
    (fun p => p.2.2.s.Compares 1 ∧ 1 < p.2.2.s.cov.locs.length) (by decide +kernel)
  dsimp only at hcompared hlocs
  rw [((compareLocs_same _ _).of_eq_ok hscan).cov] at hlocs
  have hloc := List.getElem?_eq_getElem hlocs
  exact ⟨r, id, ids, s, c, _, sc, hrun, hc, hloc, hscan, hcompared,
    newTruth_iff hrun hc s.vecLocData s.trees hloc hscan hcompared⟩

/-- **A hit becomes a miss.**  The first counterexample `0, 1` does not cover the location `0`,
whose tree is thrown away.  The next one, `1, 0`, covers `0` and `1`; the comparison passes
over `0`, and the truth value of `1` is false. -/
theorem newTruth_dropped :
    ∃ r id ids s c sc, RunsTo Env.dropping (.compare r (id :: ids)) s ∧
      s.cov.configs[id]? = some c ∧
      compareLocs (Env.dropping.ignoreThr r.iter) r.iter c (s.cov.locs.take 1)
        { s, it := c.covLocs, nRebuilds := r.nRebuilds } = .ok sc ∧
      sc.s.Compares 1 ∧ 1 ∈ c.covLocs ∧ newTruth sc.it 1 = false :=
  exists_scan Env.dropping 2 1
    (fun p => p.2.2.s.Compares 1 ∧ 1 ∈ p.2.1.covLocs ∧ newTruth p.2.2.it 1 = false) (by decide +kernel)

end IterativeAlgorithm

end GenTree

import GenTree.ConfigSpace
import GenTree.StatusLine

/-!
# Comparing two reports

`run_analyze_3` compares a report with another one that is taken for the truth.  For
every group of the truth it asks Z3 whether the two formulas differ, and if they do it
runs both trees on all configurations and counts how often which of them is true.

Z3 is asked through the cache of `count_models`, which the files have been read with
before, and which knows a formula by its hash only.  `HashesTell` is what the hashes must
tell apart for the answers to be right.

* `countModels_one` — the answer, and what is left in the cache.
* `confuse_eq` — the four counts.
* `Scored.step`, `Scored.run` — one location, and all of them.
-/

namespace GenTree

open Outcome

/-! ## The code -/

/-- The checks of the analyzer's functions that read reports: those of what they call, and two
of `run_analyze_3` itself. -/
inductive AnalyzerFault
  | lower (a : Abort)
  | param (e : StatusLine.ParamFault)
  /-- `CHECK_EQ(cspace, all_confs.size())`. -/
  | space
  /-- `CHECK_EQ(tp + tn + fp + fn, cspace)`. -/
  | confusion

instance : MonadLift (Except Abort) (Except AnalyzerFault) := ⟨Except.mapError .lower⟩

instance : MonadLift (Except StatusLine.ParamFault) (Except AnalyzerFault) :=
  ⟨Except.mapError .param⟩

/-- `tp`, `tn`, `fp` and `fn`, which are `double`s that hold whole numbers. -/
structure Confusion where
  tp : ℕ := 0
  tn : ℕ := 0
  fp : ℕ := 0
  fn : ℕ := 0
  deriving DecidableEq

/-- One configuration is counted. -/
def Confusion.add (q : Confusion) (vTruth vPred : Bool) : Confusion :=
  if vTruth && vPred then { q with tp := q.tp + 1 }
  else if !vTruth && !vPred then { q with tn := q.tn + 1 }
  else if !vTruth && vPred then { q with fp := q.fp + 1 }
  else if vTruth && !vPred then { q with fn := q.fn + 1 }
  else q

section Code

variable {Expr : Type}

/-- The loop over `all_confs`. -/
def confuse (dom : Domain) (truth pred : LocEntry Expr) (allConfs : List Config) :
    Except Abort Confusion :=
  allConfs.foldlM (fun q c => do
    let vTruth ← truth.tree.interpret dom c
    let vPred ← pred.tree.interpret dom c
    .ok (q.add vTruth vPred)) {}

/-- What is found out about a location; `mcc` and `fscore` are functions of it. -/
inductive Verdict
  | missing
  | exact
  | wrong (q : Confusion)
  deriving DecidableEq

/-- The local variables of `run_analyze_3`; for the sums of `mcc` and `fscore` the
verdicts are kept that they are the sums of. -/
structure Scores where
  cntInteractions : ℕ := 0
  cntExact : ℕ := 0
  wrongLocs : Str := []
  verdicts : List (Str × Verdict) := []
  analyzer : Analyzer

/-- The body of the loop over `m_truth`. -/
def scoreLoc (dom : Domain) (z : Z3Text Expr) (allConfs : List Config)
    (mPredicate : List (Str × LocEntry Expr)) (st : Scores) (p : Str × LocEntry Expr) :
    Except AnalyzerFault Scores :=
  if p.2.isFirst = false then .ok st
  else
    let st := { st with cntInteractions := st.cntInteractions + 1 }
    match mPredicate.lookup p.1 with
    | none =>
        .ok { st with
          wrongLocs := st.wrongLocs ++ '!' :: (p.1 ++ [' '])
          verdicts := st.verdicts ++ [(p.1, .missing)] }
    | some pred => do
        let (ncex, _, analyzer) ← countModels dom z.toZ3 (z.ne p.2.e pred.e) 1 none st.analyzer
        if ncex = 0 then
          .ok { st with
            cntExact := st.cntExact + 1, verdicts := st.verdicts ++ [(p.1, .exact)], analyzer }
        else do
          let truth ← p.2.compile dom
          let pred ← pred.compile dom
          let q ← confuse dom truth pred allConfs
          check (q.tp + q.tn + q.fp + q.fn = dom.configSpace) AnalyzerFault.confusion
          .ok { st with
            wrongLocs := st.wrongLocs ++ (p.1 ++ [' '])
            verdicts := st.verdicts ++ [(p.1, .wrong q)], analyzer }

/-- What `run_analyze_3` returns, and the verdicts. -/
structure Analysis3 where
  cntInteractions : ℕ
  cntExact : ℕ
  cntWrong : ℤ
  deltaLocs : ℤ
  nConfigs : ℤ
  wrongLocs : Str
  verdicts : List (Str × Verdict)

/-- The map that `read_file` returns, in the order of its keys. -/
def ReadSt.byName (st : ReadSt Expr) : List (Str × LocEntry Expr) :=
  (st.res.map fun p => (p.1, p.2.toLocEntry)).mergeSort fun p q => decide (p.1 ≤ q.1)

/-- `run_analyze_3` on the texts of the two files. -/
def runAnalyze3 (dom : Domain) (z : Z3Text Expr) (truthText predText : Str) (analyzer : Analyzer) :
    Except AnalyzerFault Analysis3 := do
  let mTruth ← readFile dom z none analyzer truthText
  let mPredicate ← readFile dom z (some []) mTruth.analyzer predText
  let params ← StatusLine.splitParams (mPredicate.globalComments.getD [])
  let allConfs ← genAllConfigs dom
  check (dom.configSpace = allConfs.length) AnalyzerFault.space
  let st ← mTruth.byName.foldlM (scoreLoc dom z allConfs mPredicate.byName)
    { analyzer := mPredicate.analyzer }
  let nConfigs ← StatusLine.retParam params 1
  .ok { cntInteractions := st.cntInteractions, cntExact := st.cntExact
        cntWrong := (st.cntInteractions : ℤ) - st.cntExact
        deltaLocs := (mPredicate.res.length : ℤ) - mTruth.res.length
        nConfigs, wrongLocs := st.wrongLocs, verdicts := st.verdicts }

end Code

/-! ## Asking Z3 -/

section Asking

variable {Expr : Type} {dom : Domain} {z : Z3Text Expr} {holds : Expr → (ℕ → ℕ) → Prop}

/-- No configuration satisfies the expression. -/
def Unsat (dom : Domain) (holds : Expr → (ℕ → ℕ) → Prop) (ex : Expr) : Prop :=
  ∀ c : Config, c.Complete dom → ¬holds ex c.val

/-- **The hashes tell** the expressions `asked` that can be satisfied from those that
cannot, and from what is in the cache. -/
structure HashesTell (dom : Domain) (z : Z3Text Expr) (holds : Expr → (ℕ → ℕ) → Prop)
    (asked : Expr → Prop) (st : Analyzer) : Prop where
  together : ∀ x y, asked x → asked y → z.hash x = z.hash y →
    (Unsat dom holds x ↔ Unsat dom holds y)
  cached : ∀ x, asked x → ¬Unsat dom holds x → st.cacheCountModels (z.hash x, 1) = none

/-- What is in the cache is right about the expressions `asked`. -/
def Honest (dom : Domain) (z : Z3Text Expr) (holds : Expr → (ℕ → ℕ) → Prop) (asked : Expr → Prop)
    (st : Analyzer) : Prop :=
  ∀ x, asked x → ∀ n, st.cacheCountModels (z.hash x, 1) = some n → (n = 0 ↔ Unsat dom holds x)

theorem HashesTell.honest {asked : Expr → Prop} {st : Analyzer} (h : HashesTell dom z holds asked st)
    (hst : st.Clean) : Honest dom z holds asked st := by
  intro x hx n hn
  have hzero : n = 0 := hst _ _ hn
  refine ⟨?_, fun _ => hzero⟩
  intro _
  by_contra hsat
  rw [h.cached x hx hsat] at hn
  cases hn

theorem solutions_eq_empty_iff {ex : Expr} :
    solutions dom holds [ex] = ∅ ↔ Unsat dom holds ex := by
  constructor
  · intro hempty c hc hholds
    have hmem : c.values ∈ solutions dom holds [ex] := mem_solutions_singleton.mpr ⟨hc, hholds⟩
    rw [hempty] at hmem
    cases hmem
  · intro hno
    refine Finset.eq_empty_of_forall_notMem ?_
    intro values hvalues
    obtain ⟨hc, hholds⟩ := mem_solutions_singleton.mp hvalues
    exact hno _ hc hholds

/-- With a limit of one, the loop tells whether there is a solution. -/
theorem countLoop_one (hz : z.Correct dom holds) (ex : Expr) (nCheck : ℕ) : ∃ n nCheck',
    countLoop dom z.toZ3 1 [ex] 0 none nCheck = .ok (n, none, nCheck') ∧
      (n = 0 ↔ Unsat dom holds ex) := by
  obtain ⟨ms, R, nCheck', hloop, hrange, hpeel, hend⟩ :=
    countLoop_spec hz.toCorrect 1 [ex] 0 none nCheck
  obtain ⟨hcard, hlen⟩ := sum_sizes hrange hpeel
  refine ⟨_, nCheck', hloop, ?_⟩
  rw [← solutions_eq_empty_iff, ← Finset.card_eq_zero]
  rcases hend with rfl | hone
  · rw [Finset.card_empty] at hcard
    omega
  · omega

/-- **One question**: the answer is right, and the cache stays right. -/
theorem countModels_one (hz : z.Correct dom holds) {asked : Expr → Prop} {st₀ st : Analyzer}
    (htell : HashesTell dom z holds asked st₀) (hst : Honest dom z holds asked st) {ex : Expr}
    (hex : asked ex) : ∃ n st', countModels dom z.toZ3 ex 1 none st = .ok (n, none, st') ∧
      (n = 0 ↔ Unsat dom holds ex) ∧ Honest dom z holds asked st' := by
  cases hcache : st.cacheCountModels (z.hash ex, 1) with
  | some n =>
      refine ⟨n, st, ?_, hst ex hex n hcache, hst⟩
      unfold countModels
      simp only [hcache]
  | none =>
      obtain ⟨n, nCheck', hloop, hn⟩ := countLoop_one hz ex st.nCheck
      have hrun : countModels dom z.toZ3 ex 1 none st = .ok (n, none,
          { cacheCountModels := Function.update st.cacheCountModels (z.hash ex, 1) (some n)
            nCheck := nCheck' }) := by
        rw [countModels_run fun _ => hcache, show (1 : ℤ).toNat = 1 from rfl, hloop]
        rfl
      refine ⟨n, _, hrun, hn, ?_⟩
      intro x hx m hm
      by_cases hkey : z.hash x = z.hash ex
      · rw [hkey] at hm
        dsimp only at hm
        rw [Function.update_self] at hm
        obtain rfl := Option.some.inj hm
        rw [htell.together x ex hx hex hkey]
        exact hn
      · have hne : (z.hash x, (1 : ℤ)) ≠ (z.hash ex, 1) := fun heq => hkey (congrArg Prod.fst heq)
        dsimp only at hm
        rw [Function.update_of_ne hne] at hm
        exact hst x hx m hm

end Asking

/-! ## Counting -/

/-- The counts for two sets of configurations. -/
def confusionOf (dom : Domain) (f g : List ℤ → Bool) : Confusion where
  tp := (allValues dom.vars).countP fun values => f values && g values
  tn := (allValues dom.vars).countP fun values => !f values && !g values
  fp := (allValues dom.vars).countP fun values => !f values && g values
  fn := (allValues dom.vars).countP fun values => f values && !g values

/-- Every configuration is counted once. -/
theorem confusionOf_sum (dom : Domain) (f g : List ℤ → Bool) :
    (confusionOf dom f g).tp + (confusionOf dom f g).tn + (confusionOf dom f g).fp +
      (confusionOf dom f g).fn = dom.configSpace := by
  have hsum : ∀ l : List (List ℤ), l.countP (fun v => f v && g v) +
      l.countP (fun v => !f v && !g v) + l.countP (fun v => !f v && g v) +
        l.countP (fun v => f v && !g v) = l.length := by
    intro l
    induction l with
    | nil => rfl
    | cons v l ih =>
        simp only [List.countP_cons, List.length_cons]
        cases f v <;> cases g v <;> simp <;> omega
  rw [Domain.configSpace, ← length_allValues]
  exact hsum _

/-- No configuration is counted as wrong exactly when the sets are the same. -/
theorem confusionOf_exact_iff (dom : Domain) (f g : List ℤ → Bool) :
    (confusionOf dom f g).fp = 0 ∧ (confusionOf dom f g).fn = 0 ↔
      ∀ values ∈ allValues dom.vars, f values = g values := by
  rw [confusionOf, List.countP_eq_zero, List.countP_eq_zero, ← forall₂_and]
  refine forall₂_congr ?_
  intro values _
  cases f values <;> cases g values <;> decide

section Entries

variable {Expr : Type} {dom : Domain} {z : Z3Text Expr} {holds : Expr → (ℕ → ℕ) → Prop}

/-- The entry is that of the set `f` of configurations. -/
structure EntryFor (dom : Domain) (holds : Expr → (ℕ → ℕ) → Prop) (d : LocEntry Expr)
    (f : List ℤ → Bool) : Prop where
  agrees : d.Agrees dom holds
  sat : ∀ c : Config, c.Complete dom → (d.Sat holds c ↔ f c.values = true)

/-- The interpreter of a compiled entry. -/
theorem EntryFor.compile {d : LocEntry Expr} {f : List ℤ → Bool} (h : EntryFor dom holds d f) :
    ∃ d', d.compile dom = .ok d' ∧
      ∀ c : Config, c.Complete dom → d'.tree.interpret dom c = .ok (f c.values) := by
  obtain ⟨d', hd', hsame, hdecides⟩ := h.agrees.compile
  refine ⟨d', hd', ?_⟩
  intro c hc
  obtain ⟨b, hb, hiff⟩ := hdecides c hc
  rw [hsame.sat_iff, h.sat c hc] at hiff
  rw [hb, Bool.eq_iff_iff.mpr hiff]

theorem Confusion.add_eq (q : Confusion) (b b' : Bool) : q.add b b' =
    ⟨q.tp + (if b && b' then 1 else 0), q.tn + (if !b && !b' then 1 else 0),
      q.fp + (if !b && b' then 1 else 0), q.fn + (if b && !b' then 1 else 0)⟩ := by
  cases b <;> cases b' <;> rfl

/-- **The loop over the configurations** counts. -/
theorem confuse_eq {truth pred : LocEntry Expr} {f g : List ℤ → Bool}
    (htruth : ∀ c : Config, c.Complete dom → truth.tree.interpret dom c = .ok (f c.values))
    (hpred : ∀ c : Config, c.Complete dom → pred.tree.interpret dom c = .ok (g c.values)) :
    confuse dom truth pred ((allValues dom.vars).map fun values => { values }) =
      .ok (confusionOf dom f g) := by
  have hfold : ∀ (l : List (List ℤ)) (q : Confusion), (∀ v ∈ l, v ∈ allValues dom.vars) →
      (l.map fun values => ({ values } : Config)).foldlM (fun q c => do
        let vTruth ← truth.tree.interpret dom c
        let vPred ← pred.tree.interpret dom c
        (.ok (q.add vTruth vPred) : Except Abort Confusion)) q =
      .ok ⟨q.tp + l.countP (fun v => f v && g v), q.tn + l.countP (fun v => !f v && !g v),
        q.fp + l.countP (fun v => !f v && g v), q.fn + l.countP (fun v => f v && !g v)⟩ := by
    intro l
    induction l with
    | nil =>
        intro q _
        rfl
    | cons v l ih =>
        intro q hl
        rw [List.forall_mem_cons] at hl
        have hc : Config.Complete dom { values := v } := complete_iff_mem_allValues.mpr hl.1
        rw [List.map_cons, List.foldlM_cons, htruth _ hc, ok_bind, hpred _ hc, ok_bind, ok_bind,
          ih _ hl.2, Confusion.add_eq]
        simp only [List.countP_cons, Nat.add_assoc, Nat.add_comm (List.countP _ l)]
  have hall := hfold (allValues dom.vars) {} fun _ h => h
  simp only [Nat.zero_add] at hall
  exact hall

end Entries

/-! ## Locations -/

/-- What should be found out about the location `s`: `f` and `g` are the sets of
configurations of the truth and of the other report, which has the locations `names`. -/
def verdictOf (dom : Domain) (f g : Str → List ℤ → Bool) (names : List Str) (s : Str) : Verdict :=
  if names.contains s then
    let q := confusionOf dom (f s) (g s)
    if q.fp = 0 ∧ q.fn = 0 then .exact else .wrong q
  else .missing

/-- What is written about a location that is not exact. -/
def Verdict.text (s : Str) : Verdict → Str
  | .missing => '!' :: (s ++ [' '])
  | .exact => []
  | .wrong _ => s ++ [' ']

section Loop

variable {Expr : Type} {dom : Domain} {z : Z3Text Expr} {holds : Expr → (ℕ → ℕ) → Prop}
  {mPredicate : List (Str × LocEntry Expr)} {f g : Str → List ℤ → Bool}

/-- The entries of a map are those of the sets `f`. -/
structure MapFor (dom : Domain) (holds : Expr → (ℕ → ℕ) → Prop) (m : List (Str × LocEntry Expr))
    (f : Str → List ℤ → Bool) : Prop where
  nodup : (m.map Prod.fst).Nodup
  entries : ∀ p ∈ m, EntryFor dom holds p.2 (f p.1)

/-- The expressions that are asked. -/
def Compared (z : Z3Text Expr) (mTruth mPredicate : List (Str × LocEntry Expr)) (ex : Expr) : Prop :=
  ∃ s d d', (s, d) ∈ mTruth ∧ (s, d') ∈ mPredicate ∧ ex = z.ne d.e d'.e

/-- The locations `done` have been scored. -/
structure Scored (dom : Domain) (z : Z3Text Expr) (holds : Expr → (ℕ → ℕ) → Prop)
    (asked : Expr → Prop) (f g : Str → List ℤ → Bool) (names : List Str)
    (done : List (Str × LocEntry Expr)) (st : Scores) : Prop where
  verdicts : st.verdicts = (done.filter fun p => p.2.isFirst).map fun p =>
    (p.1, verdictOf dom f g names p.1)
  cntInteractions : st.cntInteractions = st.verdicts.length
  cntExact : st.cntExact = st.verdicts.countP fun v => decide (v.2 = .exact)
  wrongLocs : st.wrongLocs = st.verdicts.flatMap fun v => v.2.text v.1
  honest : Honest dom z holds asked st.analyzer

theorem lookup_eq_some_iff_mem {m : List (Str × LocEntry Expr)} (h : (m.map Prod.fst).Nodup) {s : Str}
    {d : LocEntry Expr} : m.lookup s = some d ↔ (s, d) ∈ m := by
  constructor
  · intro hlook
    obtain ⟨l₁, l₂, rfl, -⟩ := List.lookup_eq_some_iff.mp hlook
    exact List.mem_append_right _ List.mem_cons_self
  · intro hmem
    obtain ⟨l₁, l₂, rfl⟩ := List.append_of_mem hmem
    refine List.lookup_eq_some_iff.mpr ⟨l₁, l₂, rfl, ?_⟩
    intro p hp
    rw [List.map_append, List.nodup_append] at h
    have hne := h.2.2 _ (List.mem_map_of_mem hp) s (by simp)
    simpa using hne.symm

/-- Two entries differ on no configuration exactly when nothing is counted as wrong. -/
theorem unsat_ne_iff (hz : z.Correct dom holds) {d d' : LocEntry Expr} {φ ψ : List ℤ → Bool}
    (hd : EntryFor dom holds d φ) (hd' : EntryFor dom holds d' ψ) :
    Unsat dom holds (z.ne d.e d'.e) ↔
      (confusionOf dom φ ψ).fp = 0 ∧ (confusionOf dom φ ψ).fn = 0 := by
  rw [confusionOf_exact_iff]
  constructor
  · intro hno values hvalues
    have hc : Config.Complete dom { values } := complete_iff_mem_allValues.mpr hvalues
    have hsame := hno _ hc
    rw [hz.ne _ _ _ hc, not_not] at hsame
    rw [Bool.eq_iff_iff]
    exact (hd.sat _ hc).symm.trans (hsame.trans (hd'.sat _ hc))
  · intro hsame c hc hholds
    rw [hz.ne _ _ c hc] at hholds
    apply hholds
    have heq := hsame c.values (complete_iff_mem_allValues.mp hc)
    exact (hd.sat c hc).trans ((Bool.eq_iff_iff.mp heq).trans (hd'.sat c hc).symm)

theorem liftM_ok {α : Type} (a : α) :
    (liftM (.ok a : Except Abort α) : Except AnalyzerFault α) = .ok a := rfl

theorem liftParam_ok {α : Type} (a : α) :
    (liftM (.ok a : Except StatusLine.ParamFault α) : Except AnalyzerFault α) = .ok a := rfl

/-- **One location** of the truth: no check fires, and what is found out is right. -/
theorem Scored.step (hz : z.Correct dom holds) {asked : Expr → Prop} {st₀ : Analyzer}
    (htell : HashesTell dom z holds asked st₀) (hpred : MapFor dom holds mPredicate g)
    {done : List (Str × LocEntry Expr)} {st : Scores}
    (h : Scored dom z holds asked f g (mPredicate.map Prod.fst) done st)
    {p : Str × LocEntry Expr} (hp : EntryFor dom holds p.2 (f p.1))
    (hasked : ∀ d, (p.1, d) ∈ mPredicate → asked (z.ne p.2.e d.e)) :
    Meets (scoreLoc dom z ((allValues dom.vars).map fun values => { values }) mPredicate st p)
      (Scored dom z holds asked f g (mPredicate.map Prod.fst) (done ++ [p])) fun _ => False := by
  -- what is left to show when a verdict has been added
  have hadd : ∀ (v : Verdict) (n : ℕ) (analyzer : Analyzer), p.2.isFirst = true →
      v = verdictOf dom f g (mPredicate.map Prod.fst) p.1 →
      n = st.cntExact + (if v = .exact then 1 else 0) → Honest dom z holds asked analyzer →
      Scored dom z holds asked f g (mPredicate.map Prod.fst) (done ++ [p])
        { cntInteractions := st.cntInteractions + 1, cntExact := n
          wrongLocs := st.wrongLocs ++ v.text p.1
          verdicts := st.verdicts ++ [(p.1, v)], analyzer } := by
    intro v n analyzer hfirst hv hn hhonest
    constructor
    · show st.verdicts ++ [(p.1, v)] = _
      rw [List.filter_append, List.filter_singleton, hfirst, cond_true, List.map_append,
        List.map_singleton, ← h.verdicts, hv]
    · show st.cntInteractions + 1 = (st.verdicts ++ [(p.1, v)]).length
      rw [List.length_append, h.cntInteractions, List.length_singleton]
    · show n = (st.verdicts ++ [(p.1, v)]).countP _
      rw [List.countP_append, ← h.cntExact, hn, List.countP_singleton]
      simp
    · show st.wrongLocs ++ v.text p.1 = (st.verdicts ++ [(p.1, v)]).flatMap _
      rw [List.flatMap_append, ← h.wrongLocs, List.flatMap_singleton]
    · exact hhonest
  unfold scoreLoc
  split
  · next hfirst =>
      rw [meets_ok]
      refine ⟨?_, h.cntInteractions, h.cntExact, h.wrongLocs, h.honest⟩
      rw [h.verdicts, List.filter_append, List.filter_singleton, hfirst,
        cond_false, List.append_nil]
  · next hfirst =>
      rw [Bool.not_eq_false] at hfirst
      dsimp only
      split
      · next hnone =>
          have hmissing : p.1 ∉ mPredicate.map Prod.fst := by
            intro hmem
            obtain ⟨⟨s, d⟩, hd, hs⟩ := List.mem_map.mp hmem
            rw [← show s = p.1 from hs, (lookup_eq_some_iff_mem hpred.nodup).mpr hd] at hnone
            cases hnone
          rw [meets_ok]
          exact hadd .missing _ _ hfirst 
            (by rw [verdictOf, if_neg (mt List.contains_iff_mem.mp hmissing)]) rfl h.honest
      · next pred hsome =>
          have hmem := (lookup_eq_some_iff_mem hpred.nodup).mp hsome
          have hin : p.1 ∈ mPredicate.map Prod.fst := List.mem_map.mpr ⟨_, hmem, rfl⟩
          have hd' := hpred.entries _ hmem
          obtain ⟨n, analyzer, hcount, hn, hhonest⟩ :=
            countModels_one hz htell h.honest (hasked pred hmem)
          rw [unsat_ne_iff hz hp hd'] at hn
          rw [hcount, liftM_ok, ok_bind]
          dsimp only
          split
          · next hzero =>
              have hexact := hn.mp hzero
              rw [meets_ok]
              have hverdict : Verdict.exact = verdictOf dom f g (mPredicate.map Prod.fst) p.1 := by
                rw [verdictOf, if_pos (List.contains_iff_mem.mpr hin)]
                exact (if_pos hexact).symm
              have hgoal := hadd .exact _ analyzer hfirst hverdict rfl hhonest
              rw [Verdict.text, List.append_nil] at hgoal
              exact hgoal
          · next hzero =>
              have hwrong := mt hn.mpr hzero
              obtain ⟨truth', htruth, hrun⟩ := hp.compile
              obtain ⟨pred', hpred', hrun'⟩ := hd'.compile
              rw [htruth, liftM_ok, ok_bind, hpred', liftM_ok, ok_bind, confuse_eq hrun hrun', liftM_ok,
                ok_bind, check_pos (confusionOf_sum _ _ _), ok_bind, meets_ok]
              have hverdict : Verdict.wrong (confusionOf dom (f p.1) (g p.1)) =
                  verdictOf dom f g (mPredicate.map Prod.fst) p.1 := by
                rw [verdictOf, if_pos (List.contains_iff_mem.mpr hin)]
                exact (if_neg hwrong).symm
              exact hadd _ _ analyzer hfirst hverdict rfl hhonest

/-- **All locations** of the truth. -/
theorem Scored.run (hz : z.Correct dom holds) {mTruth : List (Str × LocEntry Expr)} {st₀ : Analyzer}
    (htell : HashesTell dom z holds (Compared z mTruth mPredicate) st₀) (hclean : st₀.Clean)
    (htruth : MapFor dom holds mTruth f) (hpred : MapFor dom holds mPredicate g) :
    ∃ st, mTruth.foldlM (scoreLoc dom z ((allValues dom.vars).map fun values => { values })
        mPredicate) { analyzer := st₀ } = .ok st ∧
      Scored dom z holds (Compared z mTruth mPredicate) f g (mPredicate.map Prod.fst) mTruth st := by
  have hstart : Scored dom z holds (Compared z mTruth mPredicate) f g (mPredicate.map Prod.fst) []
      { analyzer := st₀ } := ⟨rfl, rfl, rfl, rfl, htell.honest hclean⟩
  refine (meets_foldlM (Scored dom z holds (Compared z mTruth mPredicate) f g
    (mPredicate.map Prod.fst)) mTruth ?_ hstart).exists_ok
  intro done p rest st hsplit hst
  have hmem : p ∈ mTruth := by
    rw [hsplit]
    exact List.mem_append_right _ List.mem_cons_self
  exact hst.step hz htell hpred (htruth.entries p hmem) fun d hd => ⟨p.1, p.2, d, hmem, hd, rfl⟩

end Loop

end GenTree

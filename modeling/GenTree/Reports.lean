import GenTree.DistinctStore
import GenTree.PrintedTrees

/-!
# Intermediate reports

A report on `SIGUSR1` or `SIGUSR2` calls `finish_alg` with `build_tree_temp = false`,
which rebuilds the trees that are due and clears `need_rebuild`; it also does so for
ignored records.  The next call of `finish_alg` then dies at
`CHECK(!dat->ignored || dat->need_rebuild)`, at the latest behind the loop of
`run_alg` (`finishIgnored_reported`).

As long as no such report is made while an unlinked record is ignored, the `CHECK`
holds throughout (`RunsTo.finish_checks`).  The reports of `--save-each-iteration`
use temporary trees and do no harm.

Nothing else stops a report.  The trees that are due are grown to their end, since the store
holds no configuration twice, and the others are printable (`Base.finishAlg_total`).
-/

namespace GenTree

open Outcome Leaders

section Reports

variable {Name Hash : Type} [DecidableEq Name] [DecidableEq Hash] {env : Env Name Hash}

/-- The steps that do no harm: no report on a signal is made while an unlinked record
is ignored, and no iteration begins while a linked one is.  The latter takes two
coverage lists with the same hash. -/
def Harmless (env : Env Name Hash) : Label × St Name Hash → Prop
  | (.head _, s) => NoneLost s
  | (.signals _, s) =>
      (s.readSignal env).signal = some .usr1 ∨ (s.readSignal env).signal = some .usr2 →
        ∀ d ∈ s.vLocData, d.linked = false → d.ignored = false
  | _ => True

instance (env : Env Name Hash) : DecidablePred (Harmless env)
  | (.head _, s) => inferInstanceAs
      (Decidable (∀ d ∈ s.vLocData, d.linked = true → d.ignored = false))
  | (.signals _, s) => inferInstanceAs (Decidable (_ ∨ _ →
      ∀ d ∈ s.vLocData, d.linked = false → d.ignored = false))
  | (.turns .., _) | (.recheck .., _) | (.recheckAt .., _) | (.returned .., _)
  | (.interrupted _, _) | (.save _, _) | (.final _, _) | (.done, _) =>
      inferInstanceAs (Decidable True)

/-- Ignored records are due to be rebuilt. -/
def IgnoredDue (s : St Name Hash) : Prop :=
  ∀ d ∈ s.vLocData, d.ignored = true → d.needRebuild = true

namespace IgnoredDue

variable {s s' : St Name Hash}

omit [DecidableEq Name] [DecidableEq Hash] in
theorem of_eq (h : IgnoredDue s) (hdat : s'.vLocData = s.vLocData) : IgnoredDue s' := by
  rwa [IgnoredDue, hdat]

omit [DecidableEq Name] in
/-- Linking and unlinking records makes them due. -/
theorem started (h : IgnoredDue s) : IgnoredDue (s.started env) := by
  intro d hd hign
  obtain ⟨j, hj⟩ := List.mem_iff_getElem?.mp hd
  obtain ⟨-, d₀, hd₀, rfl⟩ := St.started_dat hj
  cases hd₀ with
  | linked _ _ _ _ hneed => exact hneed
  | kept _ he _ => exact h d₀ (List.mem_of_getElem? he) hign
  | new _ _ _ _ _ hneed => exact hneed

omit [DecidableEq Name] [DecidableEq Hash] in
/-- **Reports.**  Rebuilding is what does harm, and only to an unlinked record that is
ignored. -/
theorem finished (h : IgnoredDue s) {buildTreeTemp : Bool} {iter : ℕ}
    (hfin : Finished env buildTreeTemp s iter s')
    (hok : buildTreeTemp = false → ∀ d ∈ s.vLocData, d.linked = false → d.ignored = false) :
    IgnoredDue s' := by
  intro d' hd' hign
  obtain ⟨j, hj⟩ := List.mem_iff_getElem?.mp hd'
  have hlt := (List.getElem?_eq_some_iff.mp hj).1
  rw [hfin.length] at hlt
  have hd := List.getElem?_eq_getElem hlt
  obtain ⟨d₂, hd₂, hrefresh⟩ := hfin.dat j _ hd
  rw [hj, Option.some.injEq] at hd₂
  subst hd₂
  cases hrefresh with
  | kept _ => exact h _ (List.mem_of_getElem? hd) hign
  | rebuilt _ _ htemp hlinked _ _ =>
      rw [hok htemp _ (List.mem_of_getElem? hd) hlinked] at hign
      cases hign

end IgnoredDue

omit [DecidableEq Name] [DecidableEq Hash] in
/-- A record that is ignored in a turn or in the re-check becomes due. -/
theorem Moved.ignoredDue {j : ℕ} {d d' : LocData} {s s' : St Name Hash} (h : Moved j d d' s s')
    (hdue : IgnoredDue s) (hign : d.ignored = false) : IgnoredDue s' := by
  intro e he hign'
  rw [h.vLocData] at he
  rcases List.mem_or_eq_of_mem_set he with he | rfl
  · exact hdue e he hign'
  · cases h.moves with
    | stays _ hsame _ => simp [hsame, hign] at hign'
    | ignored _ _ _ hneed => exact hneed
    | queued _ hfalse _ => simp [hfalse] at hign'

/-- The block behind the loop leaves no record ignored that it has made itself. -/
theorem PreparedFinal.ignoredDue {s s' : St Name Hash} (h : PreparedFinal env s s')
    (hs : Base env s) (hdue : IgnoredDue s) : IgnoredDue s' := by
  cases h with
  | same _ hstate => rwa [hstate]
  | @fresh s₁ new hnil hrun href =>
      obtain ⟨-, -, hdat⟩ := hs.prepareVecLocData hrun
      intro d' hd' hign
      obtain ⟨j, hj⟩ := List.mem_iff_getElem?.mp hd'
      have hlt := (List.getElem?_eq_some_iff.mp hj).1
      rw [href.length] at hlt
      have hd := List.getElem?_eq_getElem hlt
      obtain ⟨d₂, hd₂, hrefresh⟩ := href.dat_all j _ hd
      rw [hj, Option.some.injEq] at hd₂
      subst hd₂
      -- the records have just been made
      have hfresh := (hdat j _ hd).ignored
      rw [hnil, List.getElem?_nil, Option.getD_none] at hfresh
      rw [hrefresh.sameRole.ignored, hfresh] at hign
      cases hign

/-- **The invariant.**  Ignored records stay due in harmless steps. -/
theorem Stepped.ignoredDue {x y : Label × St Name Hash} (h : Stepped env x y)
    (hx : Base env x.2) (hq : QueueAt x) (hok : Harmless env x) (hy : y.1 ≠ .done)
    (hdue : IgnoredDue x.2) : IgnoredDue y.2 := by
  cases h with
  | start _ => exact hdue.started
  | stop | endTurns _ | pick _ | «return» _ | endConfig _ | terminate | enqueueAll | goOn
  | giveUp | brk _ | quiet _ | noSave | done => exact hdue.of_eq rfl
  | @turn iter k j s s' interrupted hk hrun =>
      obtain ⟨d, d', hd, hturned⟩ := hx.turned hrun
      refine (hturned.moved hd).ignoredDue hdue ?_
      exact (hq.2.2 j (by rw [mem_drop_of_getElem? hk]; exact List.mem_cons_self ..)).2 d hd
  | recheck _ _ hre =>
      obtain rfl | ⟨d, d', hmoved, -, hign, -⟩ := hre.moved
      · exact hdue
      · exact hmoved.ignoredDue hdue hign
  | @usr iter s s' hsig hfin =>
      have hread : IgnoredDue (s.readSignal env) := hdue.of_eq rfl
      exact (hread.finished hfin fun _ => hok hsig).of_eq rfl
  | save hfin => exact IgnoredDue.finished hdue hfin fun hfalse => by cases hfalse
  | finish _ _ => exact absurd rfl hy

omit [DecidableEq Hash] in
/-- The `CHECK`s of `finish_alg` hold where ignored records are due. -/
theorem FinishCulprit.isLower {s : St Name Hash} {f : Fault} (h : FinishCulprit env s f)
    (hs : Base env s) (hdue : IgnoredDue s) : f.IsLower := by
  cases h with
  | build _ _ _ => exact Fault.isLower _
  | print _ _ _ _ => exact Fault.isLower _
  | ignored hd _ hign hneed =>
      rw [hdue _ (List.mem_of_getElem? hd) hign] at hneed
      cases hneed
  | nullTree hd _ hneed htree =>
      obtain ⟨t, ht, -⟩ := hs.sound _ _ hd hneed
      rw [htree] at ht
      cases ht

/-- The queues of a harmless run. -/
theorem RunsTo.harmless_queueAt {l : Label} {s : St Name Hash} (h : RunsTo env (Harmless env) l s) :
    QueueAt (l, s) :=
  h.queueAt fun _ _ _ hok => hok

theorem RunsTo.ignoredDue {l : Label} {s : St Name Hash} (h : RunsTo env (Harmless env) l s)
    (hl : l ≠ .done) : IgnoredDue s := by
  refine h.invariant (fun x => x.1 ≠ .done → IgnoredDue x.2) (fun x y hx hI hok hstep hy => ?_)
    (fun s₀ hinit _ => ?_) hl
  · refine hstep.ignoredDue hx.base hx.harmless_queueAt hok hy (hI fun hdone => ?_)
    obtain ⟨l, s⟩ := x
    dsimp only at hdone
    subst hdone
    cases hstep
    exact hy rfl
  · obtain ⟨-, hnil, -⟩ := env.init_meets.of_eq_ok hinit
    intro d hd
    rw [hnil] at hd
    cases hd

/-- The final report of a state in which ignored records are due. -/
theorem Base.final_meets {s : St Name Hash} (hs : Base env s) (hdue : IgnoredDue s) (iter : ℕ) :
    Meets (step env (.final iter, s))
      (fun y => y.1 = .done ∧ ∃ r, y.2.reports = s.reports ++ [r]) Fault.IsLower := by
  rw [step]
  refine meets_bind ((St.prepareFinal_meets s).mono (fun _ h => h) fun f hf => hf.isLower)
    fun s₁ hprep => ?_
  refine meets_bind ((St.finishAlg_meets s₁ iter false).mono (fun _ h => h) fun f hf =>
    hf.isLower (hs.preparedFinal hprep) (hprep.ignoredDue hs hdue)) fun s' hfin => ⟨rfl, ?_⟩
  obtain ⟨groups, hreports, -⟩ := hfin.reports
  exact ⟨_, by rw [hreports, hprep.reports]⟩

omit [DecidableEq Hash] in
/-- **`finish_alg` succeeds** when the store has no duplicates: every tree that is due is
grown to its end, and the others are printable. -/
theorem Base.finishAlg_total {s : St Name Hash} (hs : Base env s) (hdue : IgnoredDue s)
    (hprint : Printing env s) (hdist : s.cov.Distinct env.dom) (htotal : env.select.Total)
    (iter : ℕ) (buildTreeTemp : Bool) :
    Meets (s.finishAlg env iter buildTreeTemp) (Finished env buildTreeTemp s iter)
      fun _ => False := by
  refine (St.finishAlg_meets s iter buildTreeTemp).mono (fun _ h => h) fun f hculprit => ?_
  obtain ⟨a, rfl⟩ := hculprit.isLower hs hdue
  cases hculprit with
  | @build j d _ hd _ htree =>
      rw [hs.loc_eq j d hd] at htree
      have hlt := (List.getElem?_eq_some_iff.mp hd).1
      exact (hdist.newTree_meets hs.stocked htotal (hlt.trans_le hs.length_le)).of_eq_error htree
  | @print j d t _ hd hlinked htree hunprintable =>
      have hprintable := hprint.printable hs hd hlinked (hdue d (List.mem_of_getElem? hd)) htree
      exact hprintable.not_unprintable hs j a hunprintable

/-- **The final report** is written. -/
theorem Base.final_total {s : St Name Hash} (hs : Base env s) (hdue : IgnoredDue s)
    (hprint : Printing env s) (hdist : s.cov.Distinct env.dom) (htotal : env.select.Total)
    (iter : ℕ) :
    Meets (step env (.final iter, s))
      (fun y => y.1 = .done ∧ ∃ s₁, PreparedFinal env s s₁ ∧ Finished env false s₁ iter y.2)
      fun _ => False := by
  rw [step]
  refine meets_bind ((St.prepareFinal_meets s).mono (fun _ h => h) ?_) fun s₁ hprep => ?_
  · intro f hculprit
    cases hculprit with
    | prepare hrun =>
        rw [St.prepareVecLocData_eq hs.stocked.valid hs.length_le] at hrun
        cases hrun
    | @build s₀ new j d a hrun hd htree =>
        obtain ⟨hcov, hlen, hdat⟩ := hs.prepareVecLocData hrun
        have hlt := (List.getElem?_eq_some_iff.mp hd).1
        rw [(hs.prepared_dat (hdat j d hd)).1, St.newTree, hcov] at htree
        rw [hlen] at hlt
        exact (hdist.newTree_meets hs.stocked htotal hlt).of_eq_error htree
  · have hdist₁ : s₁.cov.Distinct env.dom := by
      rw [hprep.cov hs]
      exact hdist
    refine meets_bind ((hs.preparedFinal hprep).finishAlg_total (hprep.ignoredDue hs hdue)
      (hprint.preparedFinal hs hprep) hdist₁ htotal iter false) fun s' hfin => ?_
    exact ⟨rfl, s₁, hprep, hfin⟩

/-- **Reports do not kill a run**, as long as its steps are harmless: every ignored
record is due to be rebuilt when a report begins, no `CHECK` of `finish_alg` fires, and
the final report is written unless the code below stops.  That it does not, if there is
always an option to split on and the configurations of the run are complete. -/
theorem RunsTo.finish_checks {l : Label} {s : St Name Hash} (h : RunsTo env (Harmless env) l s) :
    (l ≠ .done → ∀ d ∈ s.vLocData, d.ignored = true → d.needRebuild = true) ∧
      (∀ f, step env (l, s) = .error f → f ≠ .finishIgnored ∧ f ≠ .finishNullTree) ∧
      (∀ iter, l = .final iter → Meets (step env (l, s))
        (fun y => y.1 = .done ∧ ∃ r, y.2.reports = s.reports ++ [r]) Fault.IsLower) ∧
      ∀ iter, l = .final iter → env.select.Total → env.Regular →
        ∃ y, step env (l, s) = .ok y ∧ y.1 = .done ∧ ∃ r, y.2.reports = s.reports ++ [r] := by
  refine ⟨h.ignoredDue, fun f hf => ?_, ?_, ?_⟩
  · suffices hne : f.Plain ∨ f.Scheduling by
      rcases hne with hplain | hsched <;> constructor <;> rintro rfl
      · exact hplain
      · exact hplain
      · exact hsched
      · exact hsched
    have hlower : ∀ s', Base env s' → IgnoredDue s' → FinishCulprit env s' f →
        f.Plain ∨ f.Scheduling := by
      intro s' hs' hdue hculprit
      obtain ⟨a, rfl⟩ := hculprit.isLower hs' hdue
      exact .inl trivial
    have hculprit := (step_meets (x := (l, s)) h.base).of_eq_error hf
    cases hculprit with
    | plain hplain => exact .inl hplain
    | dup _ => exact .inr trivial
    | turn _ hrun =>
        obtain hplain | ⟨hsched, -⟩ := h.base.turn_error hrun
        · exact .inl hplain
        · exact .inr hsched
    | recheck _ _ _ _ _ => exact .inr trivial
    | usr _ hculprit =>
        have hread : Base env (s.readSignal env) := h.base.of_eq rfl rfl
        exact hlower _ hread ((h.ignoredDue (by simp)).of_eq rfl) hculprit
    | save hculprit => exact hlower _ h.base (h.ignoredDue (by simp)) hculprit
    | finish hprep hculprit =>
        exact hlower _ (h.base.preparedFinal hprep)
          (hprep.ignoredDue h.base (h.ignoredDue (by simp))) hculprit
  · rintro iter rfl
    exact h.base.final_meets (h.ignoredDue (by simp)) iter
  · rintro iter rfl htotal hreg
    obtain ⟨y, hstep, hdone, s₁, hprep, hfin⟩ := (h.base.final_total (h.ignoredDue (by simp))
      h.printing (h.distinct hreg) htotal iter).exists_ok
    obtain ⟨groups, hreports, -⟩ := hfin.reports
    exact ⟨y, hstep, hdone, _, by rw [hreports, hprep.reports]⟩

end Reports

/-- `SIGUSR1` arrives in the first iteration, with nobody ignored. -/
def Env.observed : Env ℕ (List ℤ) :=
  { Env.small fun v => if v = [1, 1, 1] then [1] else [] with
    draws := fun k => if k < 3 then 0 else 1
    arrives := fun k => if k = 0 then some .usr1 else none
    options := { rounds := 1, saveEachIteration := true } }

/-- The run reaches the final report in harmless steps, and the report is written. -/
theorem RunsTo.finish_checks_observed :
    ∃ s, RunsTo Env.observed (Harmless Env.observed) (.final 2) s ∧
      (∀ d ∈ s.vLocData, d.ignored = true → d.needRebuild = true) ∧
      (∀ f, step Env.observed (.final 2, s) = .error f →
        f ≠ .finishIgnored ∧ f ≠ .finishNullTree) ∧
      ∃ y, step Env.observed (.final 2, s) = .ok y ∧ y.1 = .done ∧
        ∃ r, y.2.reports = s.reports ++ [r] := by
  obtain ⟨l, s, hrun, rfl⟩ := exists_runsTo Env.observed (Harmless Env.observed) 11
    (fun x => x.1 = .final 2) (by decide +kernel)
  have hregular : Env.observed.Regular :=
    ⟨by decide, fun _ hseed => absurd hseed (List.not_mem_nil), Solver.search_sound _⟩
  have hchecks := RunsTo.finish_checks hrun
  exact ⟨s, hrun, hchecks.1 (by simp), hchecks.2.1,
    hchecks.2.2.2 2 rfl Selector.firstUntested_total hregular⟩

/-- A record is ignored at its first failure, and `SIGUSR1` arrives meanwhile. -/
def Env.reported : Env ℕ (List ℤ) :=
  { Env.observed with
    params := { Env.observed.params with thrStuckKickin := 0, maxStuck := 1 }
    options := { rounds := 1 } }

/-- The `CHECK` fires behind the loop, and the final report is not written. -/
theorem finishIgnored_reported : ∃ s, RunsTo Env.reported (fun _ => True) (.final 2) s ∧
    step Env.reported (.final 2, s) = .error .finishIgnored := by
  obtain ⟨l, s, hrun, rfl, hfault⟩ := exists_runsTo Env.reported (fun _ => True) 11
    (fun x => x.1 = .final 2 ∧ Env.reported.fault x = some .finishIgnored) (by decide +kernel)
  exact ⟨s, hrun, Env.fault_eq_some.mp hfault⟩

end GenTree

import GenTree.Tracking
import GenTree.Verdict

/-!
# The re-check

An iteration runs configurations for the sake of one record and re-checks all other
records with them afterwards.  The invariant is `RightTo`: the records that are not due
to be rebuilt are right about the first `n` configurations.  At the head of an iteration
`n` is the number of configurations; in the first loop it stays what it was at the head,
while the store grows; and the re-check moves it up to the end again, one configuration
at a time.  No assumption is made about the hash of a location.

The last part fails for a record that has used up its tries while its last pass was a
success: it is queued, so the re-check passes over it, although it is not due to be
rebuilt and its tree has never seen the configurations that the records behind it have
run.  `PassesDue` says that this does not happen, and it is all that is missing
(`RunsTo.records_right`, `queued_record_stale`).
-/

namespace GenTree

open Outcome

section Rechecking

variable {Name Hash : Type} [DecidableEq Name] [DecidableEq Hash] {env : Env Name Hash}

/-- The records that are neither linked, ignored nor due to be rebuilt are **right**:
their trees classify every configuration of the store. -/
def St.Right (env : Env Name Hash) (s : St Name Hash) : Prop :=
  ∀ d ∈ s.vLocData, d.linked = false → d.ignored = false → d.needRebuild = false →
    ∃ tree ∈ d.tree, ∀ c ∈ s.cov.configs,
      tree.verdict env.dom c = .ok (decide (d.loc ∈ c.covLocs))

instance (env : Env Name Hash) (s : St Name Hash) : Decidable (s.Right env) :=
  inferInstanceAs (Decidable (∀ d ∈ s.vLocData, d.linked = false → d.ignored = false →
    d.needRebuild = false → ∃ tree ∈ d.tree, ∀ c ∈ s.cov.configs,
      tree.verdict env.dom c = .ok (decide (d.loc ∈ c.covLocs))))

/-- The re-check passes over a queued record only when it is due to be rebuilt. -/
def PassesDue : Label × St Name Hash → Prop
  | (.recheckAt _ _ k _, s) => ∀ d ∈ s.vLocData[k]?, d.linked = false → d.ignored = false →
      d.queuedNext = true → d.needRebuild = true
  | _ => True

instance : DecidablePred (@PassesDue Name Hash)
  | (.recheckAt _ _ k _, s) => inferInstanceAs
      (Decidable (∀ d ∈ s.vLocData[k]?, d.linked = false → d.ignored = false →
        d.queuedNext = true → d.needRebuild = true))
  | (.head _, _) | (.turns .., _) | (.recheck .., _) | (.returned .., _) | (.interrupted _, _)
  | (.signals _, _) | (.save _, _) | (.final _, _) | (.done, _) =>
      inferInstanceAs (Decidable True)

/-! ## The invariant -/

/-- The records that are not due to be rebuilt are right about the first `n`
configurations, and the first `k` of them also about the next one. -/
def RightTo (env : Env Name Hash) (s : St Name Hash) (n k : ℕ) : Prop :=
  ∀ (j : ℕ) (d : LocData), s.vLocData[j]? = some d → d.linked = false → d.ignored = false →
    d.Sound (CTree.RightOn env s.cov (if j < k then n + 1 else n) j)

/-- What the records are right about, at each label. -/
def RightAt (env : Env Name Hash) : Label × St Name Hash → Prop
  | (.turns _ _, s) => s.prevNConf ≤ s.cov.nConfigs ∧ RightTo env s s.prevNConf 0
  | (.recheck _ i, s) => RightTo env s i 0
  | (.recheckAt _ i k it, s) => RightTo env s i k ∧ Scanned s i k it
  | (.head _, s) | (.returned _ _, s) | (.signals _, s) | (.save _, s) =>
      RightTo env s s.cov.nConfigs 0
  | (.interrupted _, _) => False
  | (.final _, _) | (.done, _) => True

/-- Being right about the first configurations can be followed. -/
theorem tracked_rightOn : Tracked env fun cov n j t => t.RightOn env cov n j where
  grows _ _ _ _ _ hgrows hn h := h.grows hgrows hn
  rule cov n j hn :=
    { new := fun _ _ _ hs ht _ _ _ hc => St.newTree_right hs ht (List.mem_of_getElem? hc)
      test := by
        intro s s' cs ids t t' hle hs hcs hrun htest hright
        have hgrows := ((St.runConfigs_meets hs.valid hcs).of_eq_ok hrun).grows hs.valid
        have hright' := hright.grows hgrows (hn.trans hle.nConfigs_le)
        exact (keepsGood_rightOn s'.cov n j).test _ t t' ids true htest hright' }

namespace RightTo

variable {s s' : St Name Hash} {n k : ℕ}

omit [DecidableEq Name] [DecidableEq Hash] in
theorem iff_soundTo : RightTo env s n k ↔ SoundTo (fun cov n j t => t.RightOn env cov n j) s n k :=
  Iff.rfl

omit [DecidableEq Name] [DecidableEq Hash] in
/-- Steps that touch neither the store nor a record. -/
theorem of_eq (h : RightTo env s n k) (hcov : s'.cov = s.cov) (hdat : s'.vLocData = s.vLocData) :
    RightTo env s' n k :=
  iff_soundTo.mpr ((iff_soundTo.mp h).of_eq hcov hdat)

omit [DecidableEq Name] [DecidableEq Hash] in
theorem mono {m : ℕ} (h : RightTo env s n 0) (hle : m ≤ n) : RightTo env s m 0 := by
  intro j d hd hlinked hign hneed
  obtain ⟨t, ht, hright⟩ := h j d hd hlinked hign hneed
  rw [if_neg (Nat.not_lt_zero j)] at hright ⊢
  exact ⟨t, ht, fun i hi => hright i (Nat.lt_of_lt_of_le hi hle)⟩

omit [DecidableEq Name] in
/-- The beginning of the first loop. -/
theorem started (h : RightTo env s n 0) : RightTo env (s.started env) n 0 :=
  iff_soundTo.mpr (iff_soundTo.mp h).started

/-- **A turn** keeps what the records are right about. -/
theorem turn (h : RightTo env s n 0) (hs : Base env s) (hn : n ≤ s.cov.nConfigs) {iter j : ℕ}
    {interrupted : Bool} (hrun : s.turn env iter j = .ok (s', interrupted)) :
    RightTo env s' n 0 :=
  iff_soundTo.mpr ((iff_soundTo.mp h).turn tracked_rightOn hs hn hrun)

/-- A report does no harm. -/
theorem finished (h : RightTo env s n 0) (hs : Base env s) (hn : n ≤ s.cov.nConfigs)
    {buildTreeTemp : Bool} {iter : ℕ} (hfin : Finished env buildTreeTemp s iter s') :
    RightTo env s' n 0 :=
  iff_soundTo.mpr ((iff_soundTo.mp h).finished tracked_rightOn hs hn hfin)

omit [DecidableEq Name] [DecidableEq Hash] in
/-- When all records have been re-checked, the next configuration may come. -/
theorem endConfig (h : RightTo env s n k) (hk : s.vLocData.length ≤ k) :
    RightTo env s (n + 1) 0 :=
  iff_soundTo.mpr ((iff_soundTo.mp h).endConfig hk)

end RightTo

omit [DecidableEq Name] [DecidableEq Hash] in
/-- One more configuration. -/
theorem CTree.RightOn.succ {cov : CoverageStore Name} {n j : ℕ} {tree : CTree} {c : Config}
    (h : tree.RightOn env cov n j) (hc : cov.configs[n]? = some c)
    (hverdict : tree.verdict env.dom c = .ok (decide (j ∈ c.covLocs))) :
    tree.RightOn env cov (n + 1) j := by
  intro i hi c' hc'
  rcases Nat.lt_succ_iff_lt_or_eq.mp hi with hlt | rfl
  · exact h i hlt c' hc'
  · rw [hc, Option.some.injEq] at hc'
    rwa [← hc']

omit [DecidableEq Hash] in
/-- **The re-check of one record**, when it passes over due records only. -/
theorem Rechecked.rightTo {s s' : St Name Hash} {c : Config} {i k : ℕ} {it it' : List ℕ}
    (h : Rechecked env c k it s s' it') (hs : Base env s) (hc : s.cov.configs[i]? = some c)
    (hok : ∀ d ∈ s.vLocData[k]?, d.linked = false → d.ignored = false →
      d.queuedNext = true → d.needRebuild = true)
    (hright : RightTo env s i k) (hscan : Scanned s i k it) :
    RightTo env s' i (k + 1) ∧ Scanned s' i (k + 1) it' := by
  refine h.soundTo hs hc (fun d hd hlinked hign hqueued _ => ?_) ?_
    (RightTo.iff_soundTo.mp hright) hscan
  · exact LocData.sound_of_needRebuild (hok d hd hlinked hign hqueued)
  · intro d t t₁ t₂ _ _ _ _ _ _ hbuild heval hold
    obtain ⟨hsame, hrun⟩ := CTree.interpretAdd_sameCode heval
    have hverdict : ∀ c', t₂.verdict env.dom c' = t.verdict env.dom c' := fun c' => by
      rw [hsame.verdict_eq, (CTree.buildInterpreter_verdict_eq hbuild c').1]
    refine CTree.RightOn.succ (fun n hn c' hc' => ?_) hc ?_
    · rw [hverdict]
      exact hold n hn c' hc'
    · rw [hverdict, (CTree.buildInterpreter_verdict_eq hbuild c).2, hrun]

/-! ## The invariant in a run -/

/-- No signal is pending. -/
def Quiet : Label × St Name Hash → Prop
  | (.interrupted _, _) => False
  | (.done, _) => True
  | (_, s) => s.signal = none

/-- Without signals none is ever pending. -/
theorem Stepped.staysQuiet {x y : Label × St Name Hash} (h : Stepped env x y) (hx : Base env x.2)
    (harrives : ∀ k, env.arrives k = none) (hquiet : Quiet x) : Quiet y := by
  cases h with
  | start _ => exact hquiet
  | @turn iter k j s s' interrupted _ hrun =>
      obtain ⟨d, d', -, hturned⟩ := hx.turned hrun
      have hnone : s'.signal = none := (hturned.signal harrives).trans hquiet
      cases interrupted with
      | true =>
          cases hturned.queueing with
          | interrupted hbrk _ _ _ =>
              rw [hnone] at hbrk
              cases hbrk
      | false => exact hnone
  | recheck _ _ hre =>
      cases hre with
      | absent _ => exact hquiet
      | skipped _ _ => exact hquiet
      | right _ _ _ _ _ _ _ => exact hquiet
      | wrong _ _ _ _ henq =>
          cases henq with
          | ignored _ _ _ _ _ hstate =>
              subst hstate
              exact hquiet
          | queued _ _ _ _ _ _ hstate =>
              subst hstate
              exact hquiet
  | giveUp => exact hquiet.elim
  | brk _ | quiet _ =>
      have hquiet : _ = none := hquiet
      show (St.readSignal env _).signal = none
      rw [St.readSignal, harrives, hquiet, Option.none_or]
  | usr _ _ => rfl
  | save hfin =>
      show _ = none
      rw [hfin.state]
      exact hquiet
  | finish _ _ => trivial
  | stop | endTurns _ | pick _ | «return» _ | endConfig _ | terminate | enqueueAll | goOn | noSave
  | done => exact hquiet

/-- **The records stay right**: one step. -/
theorem Stepped.rightAt {x y : Label × St Name Hash} (h : Stepped env x y) (hx : Base env x.2)
    (harrives : ∀ k, env.arrives k = none) (hquiet : Quiet x) (hok : PassesDue x)
    (hright : RightAt env x) : RightAt env y := by
  cases h with
  | start _ => exact ⟨Nat.le_refl _, RightTo.started hright⟩
  | stop => trivial
  | @turn iter k j s s' interrupted hk hrun =>
      obtain ⟨hle, hright⟩ := hright
      have hquiet' := (Stepped.turn hk hrun).staysQuiet hx harrives hquiet
      cases interrupted with
      | true => exact hquiet'
      | false =>
          obtain ⟨d, d', -, hturned⟩ := hx.turned hrun
          refine ⟨?_, ?_⟩
          · rw [hturned.prevNConf]
            exact hle.trans hturned.grows.nConfigs_le
          · rw [hturned.prevNConf]
            exact hright.turn hx hle hrun
  | endTurns _ => exact hright.2
  | pick hc =>
      refine ⟨hright, fun c' hc' _ => ?_⟩
      rw [hc, Option.some.injEq] at hc'
      simp [hc']
  | «return» hle => exact RightTo.mono hright hle
  | recheck hc _ hre => exact hre.rightTo hx hc hok hright.1 hright.2
  | @endConfig iter i k it s hk =>
      have hlen := List.getElem?_eq_none_iff.mp hk
      exact hright.1.endConfig (hx.length_le.trans hlen)
  | terminate => trivial
  | enqueueAll | goOn | noSave => exact RightTo.of_eq hright rfl rfl
  | giveUp => exact hright.elim
  | brk _ => trivial
  | @usr iter s s' hsig _ =>
      have hquiet : s.signal = none := hquiet
      have hnone : (s.readSignal env).signal = none := by
        rw [St.readSignal, harrives, hquiet, Option.none_or]
      simp [hnone] at hsig
  | quiet _ => exact RightTo.of_eq hright rfl rfl
  | @save iter s s' hfin =>
      have hcov : s'.cov = s.cov := by rw [hfin.state]
      show RightTo env s' s'.cov.nConfigs 0
      rw [hcov]
      exact RightTo.finished hright hx (Nat.le_refl _) hfin
  | finish _ _ => trivial
  | done => trivial

/-- **The records are right.**  Without signals, and when every queued record that the
re-check passes over is due to be rebuilt, the trees are right whenever `run_iter` has run
to its end. -/
theorem RunsTo.records_right (harrives : ∀ k, env.arrives k = none) {iter : ℕ} {empty : Bool}
    {s : St Name Hash} (h : RunsTo env PassesDue (.returned iter empty) s) : s.Right env := by
  have hinv := h.invariant (fun x => Quiet x ∧ RightAt env x)
    (fun x y hx hI hok hstep => ⟨hstep.staysQuiet hx.base harrives hI.1,
      hstep.rightAt hx.base harrives hI.1 hok hI.2⟩) fun s₀ hinit => ?_
  · intro d hd hlinked hign hneed
    obtain ⟨j, hj⟩ := List.mem_iff_getElem?.mp hd
    obtain ⟨t, ht, hright⟩ := hinv.2 j d hj hlinked hign hneed
    rw [if_neg (Nat.not_lt_zero j)] at hright
    refine ⟨t, ht, fun c hc => ?_⟩
    obtain ⟨i, hi⟩ := List.mem_iff_getElem?.mp hc
    rw [h.base.loc_eq j d hj]
    exact hright i (List.getElem?_eq_some_iff.mp hi).1 c hi
  · obtain ⟨-, hnil, -, -, -, hnone, -⟩ := env.init_meets.of_eq_ok hinit
    refine ⟨hnone, fun j d hd => ?_⟩
    rw [hnil] at hd
    cases hd

end Rechecking

/-- A program of three switches that covers `1` unless the values are `0, 1, 1`, and `2`
when the first value is `0`; the first three draws are `0` and all others `1`. -/
def Env.queueing : Env ℕ (List ℤ) :=
  let small := Env.small fun values =>
    (if values = [0, 1, 1] then [] else [1]) ++ (if values.head? = some 0 then [2] else [])
  { small with draws := fun k => if k < 3 then 0 else 1 }

/-- The same with one success in place of two: nobody is queued in its own turn, and the
re-check finds that the record of `1` is wrong about `0, 1, 1`. -/
theorem RunsTo.records_right_rechecked :
    let env := { Env.queueing with
      params := { Env.queueing.params with consecutiveSuccess := 1 } }
    ∃ s, RunsTo env PassesDue (.returned 1 false) s ∧ s.cov.nConfigs = 3 ∧ s.Right env := by
  intro env
  obtain ⟨l, s, hrun, rfl, hn⟩ := exists_runsTo env PassesDue 9
    (fun x => x.1 = .returned 1 false ∧ x.2.cov.nConfigs = 3) (by decide +kernel)
  exact ⟨s, hrun, hn, hrun.records_right fun _ => rfl⟩

/-- **A queued record goes stale.**  The record of `1` has one success, needs two and has one
try, so it is queued; then `0, 1, 1` is run for the record of `2`, and the re-check passes
over the record of `1`, which stays as it is. -/
theorem queued_record_stale :
    ∃ s, RunsTo Env.queueing (fun _ => True) (.returned 1 false) s ∧
      ¬ s.Right Env.queueing := by
  obtain ⟨l, s, hrun, rfl, hwrong⟩ := exists_runsTo Env.queueing (fun _ => True) 9
    (fun x => x.1 = .returned 1 false ∧ ¬ x.2.Right Env.queueing) (by decide +kernel)
  exact ⟨s, hrun, hwrong⟩

end GenTree

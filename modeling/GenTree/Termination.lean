import Mathlib.Tactic.Ring
import GenTree.ConfigSpace

/-!
# The main loop ends

`run_alg` counts the iterations that end with an empty queue, and stops when
`max_terminate_counter` of them have come one after the other.  An iteration that runs
no new configuration leaves the queue empty: without a configuration `run_one_loc` is
right, so the streak of `c_success` is as long as it has to be, nothing is put into the
queue, and the re-check has nothing to look at.  So every `max_terminate_counter`
iterations at the latest a configuration is run for the first time, and there are no more
of those than the configuration space has elements.

* `St.turn_paced` — a turn that runs nothing queues nothing.
* `Paced` — the bound as an invariant of the machine, with what it says at each label.
* `Env.run_iterations_le` — the number of iterations, whatever the program under test
  does and whatever `--rounds` allows.
* `Env.run_halts` — a run comes to its end from any environment: all loops between two
  iterations are finite.
-/

namespace GenTree

open Outcome

/-- The iteration a place belongs to. -/
def Label.iter : Label → ℕ
  | .head iter | .turns iter _ | .recheck iter _ | .recheckAt iter _ _ _ | .returned iter _
  | .interrupted iter | .signals iter | .save iter | .final iter => iter
  | .done => 0

/-- The streaks that `run_iter` asks for can be reached within its tries.  Otherwise a record
is put back into the queue although nothing has been run for it, and again, and again. -/
structure Params.Reachable (p : Params) : Prop where
  pos : 1 ≤ p.consecutiveSuccess
  le : p.consecutiveSuccess ≤ p.limTimes
  messed_pos : 1 ≤ p.messedConsecutiveSuccess
  messed_le : p.messedConsecutiveSuccess ≤ p.messedLimTimes

section Termination

variable {Name Hash : Type} [DecidableEq Name] [DecidableEq Hash] {env : Env Name Hash}

/-- A request to stop is not overwritten by a later signal.  The status has room for one
signal, and an iteration that was interrupted has left records in the queue. -/
def Env.StopStands (env : Env Name Hash) : Prop :=
  ∀ k k', k < k' → env.arrives k = some .brk →
    env.arrives k' = none ∨ env.arrives k' = some .brk

/-! ## One turn -/

/-- What is left alone while a record is tried.  Configurations may be run, so of the store it
is only said that it is in order and has not shrunk. -/
structure Trying (env : Env Name Hash) (s s' : St Name Hash) : Prop where
  signal : s'.signal = s.signal
  signalReads : s'.signalReads = s.signalReads
  vNextIter : s'.vNextIter = s.vNextIter
  stocked : Stocked env s'.cov
  nConfigs_le : s.cov.nConfigs ≤ s'.cov.nConfigs

omit [DecidableEq Hash] in
theorem Trying.trans {s s' s'' : St Name Hash} (h : Trying env s s') (h' : Trying env s' s'') :
    Trying env s s'' :=
  ⟨h'.signal.trans h.signal, h'.signalReads.trans h.signalReads, h'.vNextIter.trans h.vNextIter,
    h'.stocked, h.nConfigs_le.trans h'.nConfigs_le⟩

omit [DecidableEq Hash] in
theorem Trying.of_eq {s s' : St Name Hash} (hs : Stocked env s.cov) (hcov : s'.cov = s.cov)
    (hsignal : s'.signal = s.signal) (hreads : s'.signalReads = s.signalReads)
    (hnext : s'.vNextIter = s.vNextIter) : Trying env s s' :=
  ⟨hsignal, hreads, hnext, by rw [hcov]; exact hs, by rw [hcov]⟩

/-- **`run_one_loc` is right** when it runs no configuration. -/
theorem St.runOneLoc_trying {s : St Name Hash} (hs : Stocked env s.cov) (iter j : ℕ)
    (rebuild heavy : Bool) :
    Meets (s.runOneLoc env iter j rebuild heavy) (fun r => Trying env s r.1 ∧
      (r.1.cov.nConfigs = s.cov.nConfigs → r.2 = true)) fun _ => True := by
  rw [runOneLoc]
  refine meets_bind_of_eq (fun _ _ => trivial) fun d _ => ?_
  refine meets_check_bind (fun _ => ?_) fun _ => trivial
  have hbuild : Meets (if rebuild then s.buildTree env j iter else .ok s)
      (fun s' => Trying env s s' ∧ s'.cov = s.cov) fun _ => True := by
    split
    · refine (St.buildTree_setDat s j iter).mono ?_ fun _ _ => trivial
      rintro s' ⟨d', rfl⟩
      exact ⟨.of_eq hs rfl rfl rfl rfl, rfl⟩
    · exact ⟨.of_eq hs rfl rfl rfl rfl, rfl⟩
  refine meets_bind hbuild fun s₁ hs₁ => ?_
  refine meets_bind_of_eq (fun _ _ => trivial) fun d₁ _ => ?_
  split
  · trivial
  · next tree _ =>
      refine meets_bind ((s₁.makeCex_meets tree heavy).mono (fun _ hr => hr) fun _ _ => trivial) ?_
      rintro ⟨s₂, cex⟩ ⟨hdrew, hfresh⟩
      dsimp only at hdrew hfresh ⊢
      have htry : Trying env s s₂ := by
        refine hs₁.1.trans (.of_eq hs₁.1.stocked ?_ ?_ ?_ ?_) <;> rw [hdrew]
      split
      · exact ⟨htry, fun _ => rfl⟩
      · next hcex =>
          refine meets_bind ((runConfigs_meets htry.stocked.valid hfresh).mono (fun _ hr => hr)
            fun _ _ => trivial) ?_
          rintro ⟨s₃, ids⟩ hran
          have hpos := List.length_pos_iff.mpr hcex
          have hcov₂ : s₂.cov.nConfigs = s.cov.nConfigs := by rw [hdrew]; exact congrArg _ hs₁.2
          have hcount : s₃.cov.nConfigs = s₂.cov.nConfigs + cex.length := hran.nConfigs
          have hstate := hran.state
          dsimp only at hstate
          have htry₃ : Trying env s s₃ := by
            refine htry.trans ⟨?_, ?_, ?_, htry.stocked.ran hran hfresh, by omega⟩ <;> rw [hstate]
          refine meets_bind_of_eq (fun _ _ => trivial) fun r _ => ?_
          refine ⟨htry₃.trans (.of_eq htry₃.stocked rfl rfl rfl rfl), fun heq => ?_⟩
          change s₃.cov.nConfigs = s.cov.nConfigs at heq
          omega

/-- A pending request to stop has been delivered.  The status is set by reading signals only,
so there is a moment at which the request arrived, and `Env.StopStands` is about those. -/
def Heard (env : Env Name Hash) (s : St Name Hash) : Prop :=
  s.signal = some .brk → ∃ k < s.signalReads, env.arrives k = some .brk

omit [DecidableEq Name] [DecidableEq Hash] in
theorem Heard.of_eq {s s' : St Name Hash} (h : Heard env s) (hsignal : s'.signal = s.signal)
    (hreads : s'.signalReads = s.signalReads) : Heard env s' := by
  rw [Heard, hsignal, hreads]
  exact h

omit [DecidableEq Name] [DecidableEq Hash] in
theorem Heard.readSignal {s : St Name Hash} (h : Heard env s) : Heard env (s.readSignal env) := by
  intro hbrk
  change (env.arrives s.signalReads).or s.signal = some .brk at hbrk
  rcases Option.or_eq_some_iff.mp hbrk with hnew | ⟨-, hold⟩
  · exact ⟨s.signalReads, Nat.lt_succ_self _, hnew⟩
  · obtain ⟨k, hk, harr⟩ := h hold
    exact ⟨k, Nat.lt_succ_of_lt hk, harr⟩

omit [DecidableEq Name] [DecidableEq Hash] in
/-- A request to stop that stands is still there when the status is read next. -/
theorem Heard.readSignal_brk (hstop : env.StopStands) {s : St Name Hash} (h : Heard env s)
    (hbrk : s.signal = some .brk) : (s.readSignal env).signal = some .brk := by
  obtain ⟨k, hk, harr⟩ := h hbrk
  show (env.arrives s.signalReads).or s.signal = some .brk
  rcases hstop k _ hk harr with hnone | hagain
  · rw [hnone, Option.none_or, hbrk]
  · rw [hagain, Option.some_or]

/-- What the tries of a record leave, apart from the record. -/
structure Tried (env : Env Name Hash) (s s' : St Name Hash) : Prop where
  heard : Heard env s → Heard env s'
  vNextIter : s'.vNextIter = s.vNextIter
  nConfigs_le : s.cov.nConfigs ≤ s'.cov.nConfigs

omit [DecidableEq Hash] in
theorem Trying.tried_trans {s s' s'' : St Name Hash} (h : Trying env s s')
    (h' : Tried env s' s'') : Tried env s s'' :=
  ⟨fun hheard => h'.heard (hheard.of_eq h.signal h.signalReads), h'.vNextIter.trans h.vNextIter,
    h.nConfigs_le.trans h'.nConfigs_le⟩

/-- **Tries that run nothing** reach the streak they are to reach. -/
theorem St.tries_paced (iter j : ℕ) (consecutiveSuccess : ℤ) (left : ℕ) (cSuccess : ℤ)
    {s : St Name Hash} (hs : Stocked env s.cov) :
    Meets (St.tries env iter j consecutiveSuccess left cSuccess s) (fun r => Tried env s r.1 ∧
      (r.2 = .interrupted → r.1.signal = some .brk) ∧
      (r.1.cov.nConfigs = s.cov.nConfigs → cSuccess < consecutiveSuccess →
        consecutiveSuccess ≤ cSuccess + left → r.2 ≠ .exhausted)) fun _ => True := by
  induction left generalizing cSuccess s with
  | zero =>
      refine ⟨⟨fun h => h, rfl, le_rfl⟩, by simp, fun _ hlt hle => ?_⟩
      rw [Nat.cast_zero] at hle
      omega
  | succ left ih =>
      rw [tries]
      have hread : Tried env s (s.readSignal env) := ⟨Heard.readSignal, rfl, le_rfl⟩
      dsimp only
      split
      · next hbrk => exact ⟨hread, fun _ => hbrk, by simp⟩
      · refine meets_bind_of_eq (fun _ _ => trivial) fun d _ => ?_
        refine meets_bind (runOneLoc_trying (s := s.readSignal env) hs iter j _ _) ?_
        rintro ⟨s₁, ok⟩ ⟨htry, hquiet⟩
        refine meets_bind_of_eq (fun _ _ => trivial) fun d₁ _ => ?_
        dsimp only at htry hquiet
        have hset : ∀ d' : LocData, Trying env (s.readSignal env) (s₁.setDat j d') :=
          fun d' => htry.trans (.of_eq htry.stocked rfl rfl rfl rfl)
        have hread_trans : ∀ {s' : St Name Hash}, Tried env (s.readSignal env) s' →
            Tried env s s' := fun h =>
          ⟨fun hheard => h.heard hheard.readSignal, h.vNextIter, h.nConfigs_le⟩
        split
        · split
          · refine ⟨hread_trans ((hset _).tried_trans ⟨fun h => h, rfl, le_rfl⟩),
              by simp, by simp⟩
          · next hne =>
              refine (ih (cSuccess + 1) (hset _).stocked).imp ?_
              rintro r ⟨htried, hint, hexh⟩
              refine ⟨hread_trans ((hset _).tried_trans htried), hint, fun heq hlt hle => ?_⟩
              have hge := htry.nConfigs_le
              have hge' := htried.nConfigs_le
              refine hexh ?_ (by omega) (by push_cast at hle; omega)
              change r.1.cov.nConfigs = s₁.cov.nConfigs
              change s.cov.nConfigs ≤ s₁.cov.nConfigs at hge
              change s₁.cov.nConfigs ≤ r.1.cov.nConfigs at hge'
              omega
        · next hok =>
            refine (ih 0 (hset _).stocked).imp ?_
            rintro r ⟨htried, hint, -⟩
            refine ⟨hread_trans ((hset _).tried_trans htried), hint, fun heq _ _ => ?_⟩
            -- a wrong tree has been shown wrong by a configuration
            have hge : s.cov.nConfigs ≤ s₁.cov.nConfigs := htry.nConfigs_le
            have hge' : s₁.cov.nConfigs ≤ r.1.cov.nConfigs := htried.nConfigs_le
            exact absurd (hquiet (show s₁.cov.nConfigs = s.cov.nConfigs by omega)) hok

/-- **A turn that runs nothing queues nothing.** -/
theorem St.turn_paced (hreach : env.params.Reachable) {s : St Name Hash}
    (hs : Stocked env s.cov) (iter j : ℕ) :
    Meets (s.turn env iter j) (fun r => (Heard env s → Heard env r.1) ∧
      s.cov.nConfigs ≤ r.1.cov.nConfigs ∧ (r.2 = true → r.1.signal = some .brk) ∧
      (r.1.cov.nConfigs = s.cov.nConfigs → r.1.vNextIter = s.vNextIter)) fun _ => True := by
  rw [turn]
  refine meets_bind_of_eq (fun _ _ => trivial) fun d _ => ?_
  refine meets_check_bind (fun _ => ?_) fun _ => trivial
  refine meets_bind (tries_paced iter j _ _ 0 hs) ?_
  rintro ⟨s₁, ended⟩ ⟨htried, hint, hexh⟩
  dsimp only at htried hint hexh
  cases ended with
  | interrupted =>
      exact ⟨htried.heard, htried.nConfigs_le, fun _ => hint rfl, fun _ => htried.vNextIter⟩
  | finished =>
      refine meets_bind_of_eq (fun _ _ => trivial) fun d₁ _ => ?_
      exact ⟨fun h => (htried.heard h).of_eq rfl rfl, htried.nConfigs_le, by simp,
        fun _ => htried.vNextIter⟩
  | exhausted =>
      -- all tries have been used up, so that some configuration has been run
      have hran : s₁.cov.nConfigs ≠ s.cov.nConfigs := by
        intro heq
        refine hexh heq ?_ ?_ rfl
        · split
          · exact hreach.messed_pos
          · exact hreach.pos
        · rw [zero_add]
          refine le_trans ?_ (Int.self_le_toNat _)
          split
          · exact hreach.messed_le
          · exact hreach.le
      have henq : Meets (s₁.enqueueNext env j)
          (fun s₂ => s₂.cov = s₁.cov ∧ s₂.signal = s₁.signal ∧ s₂.signalReads = s₁.signalReads)
          fun _ => True := by
        rw [enqueueNext]
        refine meets_bind_of_eq (fun _ _ => trivial) fun d₁ _ => ?_
        refine meets_check_bind (fun _ => ?_) fun _ => trivial
        dsimp only
        split
        · exact ⟨rfl, rfl, rfl⟩
        · exact ⟨rfl, rfl, rfl⟩
      refine meets_bind henq ?_
      rintro s₂ ⟨hcov, hsignal, hreads⟩
      refine ⟨fun h => (htried.heard h).of_eq hsignal hreads, by rw [hcov]; exact htried.nConfigs_le,
        by simp, fun heq => ?_⟩
      rw [hcov] at heq
      exact absurd heq hran

/-! ## The bound -/

/-- The iterations that `m` configurations allow, when `n₀` of them are there from the
beginning. -/
def Env.allowance (env : Env Name Hash) (n₀ m : ℕ) : ℤ := ((m : ℤ) - n₀) * env.maxTerminateCounter

omit [DecidableEq Name] [DecidableEq Hash] in
theorem Env.allowance_mono (hpos : 1 ≤ env.maxTerminateCounter) (n₀ : ℕ) {m m' : ℕ} (h : m ≤ m') :
    env.allowance n₀ m ≤ env.allowance n₀ m' :=
  Int.mul_le_mul_of_nonneg_right (by omega) (by omega)

omit [DecidableEq Name] [DecidableEq Hash] in
/-- One more configuration pays for `max_terminate_counter` iterations. -/
theorem Env.allowance_lt (hpos : 1 ≤ env.maxTerminateCounter) (n₀ : ℕ) {m m' : ℕ} (h : m < m') :
    env.allowance n₀ m + env.maxTerminateCounter ≤ env.allowance n₀ m' := by
  have hstep : env.allowance n₀ (m + 1) = env.allowance n₀ m + env.maxTerminateCounter := by
    simp only [allowance]
    push_cast
    ring
  rw [← hstep]
  exact allowance_mono hpos n₀ h

/-- The control is in the loop of `run_alg`. -/
def Label.InLoop : Label → Prop
  | .final _ | .done => False
  | .head _ | .turns .. | .recheck .. | .recheckAt .. | .returned .. | .interrupted _ | .signals _
  | .save _ => True

/-- What is known at each label: how many iterations have been paid for, and that an
iteration that has run nothing has queued nothing. -/
def Pacing (env : Env Name Hash) (n₀ : ℕ) : Label → St Name Hash → Prop
  | .head iter, s => (iter : ℤ) - 1 ≤ env.allowance n₀ s.cov.nConfigs + s.terminateCounter
  | .turns iter _, s =>
      (iter : ℤ) - 1 ≤ env.allowance n₀ s.prevNConf + s.terminateCounter ∧
        s.prevNConf ≤ s.cov.nConfigs ∧ (s.cov.nConfigs = s.prevNConf → s.vNextIter = [])
  | .recheck iter i, s =>
      (iter : ℤ) - 1 ≤ env.allowance n₀ s.prevNConf + s.terminateCounter ∧ s.prevNConf ≤ i ∧
        s.prevNConf ≤ s.cov.nConfigs ∧ (s.cov.nConfigs = s.prevNConf → s.vNextIter = [])
  | .recheckAt iter i _ _, s =>
      (iter : ℤ) - 1 ≤ env.allowance n₀ s.prevNConf + s.terminateCounter ∧ s.prevNConf ≤ i ∧
        i < s.cov.nConfigs
  | .returned iter empty, s =>
      (iter : ℤ) - 1 ≤ env.allowance n₀ s.prevNConf + s.terminateCounter ∧
        s.prevNConf ≤ s.cov.nConfigs ∧ (s.cov.nConfigs = s.prevNConf → empty = true)
  | .interrupted _, s => s.signal = some .brk
  | .signals iter, s =>
      (iter : ℤ) ≤ env.allowance n₀ s.cov.nConfigs + s.terminateCounter ∨ s.signal = some .brk
  | .save iter, s => (iter : ℤ) ≤ env.allowance n₀ s.cov.nConfigs + s.terminateCounter
  | .final _, _ | .done, _ => True

/-- The **pace** of a run that began with `n₀` configurations.  The bound is what is wanted; the
counter is below its maximum, or the loop would have been left; and `Pacing` carries both from
one label to the next. -/
structure Paced (env : Env Name Hash) (n₀ : ℕ) (x : Label × St Name Hash) : Prop where
  heard : Heard env x.2
  bound : (x.1.iter : ℤ) ≤ env.allowance n₀ x.2.cov.nConfigs + env.maxTerminateCounter
  counter : x.1.InLoop →
    0 ≤ x.2.terminateCounter ∧ x.2.terminateCounter < env.maxTerminateCounter
  pacing : Pacing env n₀ x.1 x.2

omit [DecidableEq Name] [DecidableEq Hash] in
/-- The re-check of a location leaves what the pace rests on. -/
theorem Rechecked.frame {c : Config} {k : ℕ} {it it' : List ℕ} {s s' : St Name Hash}
    (h : Rechecked env c k it s s' it') :
    s'.cov = s.cov ∧ s'.terminateCounter = s.terminateCounter ∧ s'.prevNConf = s.prevNConf ∧
      s'.signal = s.signal ∧ s'.signalReads = s.signalReads ∧ s'.vThisIter = s.vThisIter := by
  cases h with
  | absent _ => exact ⟨rfl, rfl, rfl, rfl, rfl, rfl⟩
  | skipped _ _ => exact ⟨rfl, rfl, rfl, rfl, rfl, rfl⟩
  | right _ _ _ _ _ _ _ => exact ⟨rfl, rfl, rfl, rfl, rfl, rfl⟩
  | wrong _ _ _ _ henq =>
      cases henq with
      | ignored _ _ _ _ _ hstate =>
          subst hstate
          exact ⟨rfl, rfl, rfl, rfl, rfl, rfl⟩
      | queued _ _ _ _ _ _ hstate =>
          subst hstate
          exact ⟨rfl, rfl, rfl, rfl, rfl, rfl⟩

omit [DecidableEq Name] in
theorem PreparedFinal.signal {s s' : St Name Hash} (h : PreparedFinal env s s') :
    s'.signal = s.signal ∧ s'.signalReads = s.signalReads := by
  cases h with
  | same _ hstate => rw [hstate]; exact ⟨rfl, rfl⟩
  | fresh _ hprep href =>
      obtain ⟨p, -, heq⟩ := bind_eq_ok.mp hprep
      cases heq
      rw [href.state]
      exact ⟨rfl, rfl⟩

/-- The counter begins with zero. -/
theorem Env.init_counter (env : Env Name Hash) :
    Meets env.init (fun s₀ => s₀.terminateCounter = 0) fun _ => True := by
  refine meets_iff_forall_ok.mpr fun s₀ hinit => ?_
  have hsplit := hinit
  rw [init] at hsplit
  obtain ⟨⟨configs, rng⟩, hconfigs, -⟩ := bind_eq_ok.mp hsplit
  have hok : env.initConfigs = .ok (configs, rng) := by
    cases hres : env.initConfigs with
    | error e =>
        rw [hres] at hconfigs
        cases hconfigs
    | ok r =>
        rw [hres] at hconfigs
        cases hconfigs
        rfl
  rw [((env.init_ran hok).of_eq_ok hinit).state]
  rfl

section Step

variable (hreach : env.params.Reachable) (hpos : 1 ≤ env.maxTerminateCounter)
  (hstop : env.StopStands) {n₀ : ℕ}

include hreach hpos hstop

/-- **Every step keeps the pace.** -/
theorem Paced.step {x y : Label × St Name Hash} (h : Paced env n₀ x) (hx : Base env x.2)
    (hstep : GenTree.step env x = .ok y) : Paced env n₀ y := by
  obtain ⟨heard, bound, counter, pacing⟩ := h
  have hpos' : 0 < env.maxTerminateCounter := lt_of_lt_of_le one_pos hpos
  cases (step_meets hx).of_eq_ok hstep with
  | @start iter s hnodup =>
      exact ⟨heard.of_eq rfl rfl, bound, counter, ⟨pacing, le_rfl, fun _ => rfl⟩⟩
  | stop => exact ⟨heard, bound, fun h => h.elim, trivial⟩
  | @turn iter k j s s' interrupted hk hrun =>
      obtain ⟨hpaid, hle, hquiet⟩ := pacing
      obtain ⟨d, d', hd, hturned⟩ := hx.turned hrun
      obtain ⟨hheard, hgrow, hint, hsame⟩ := (St.turn_paced hreach hx.stocked iter j).of_eq_ok hrun
      have hmono := env.allowance_mono hpos n₀ hgrow
      dsimp only at hgrow hint hsame hmono bound
      have hbound : (iter : ℤ) ≤ env.allowance n₀ s'.cov.nConfigs + env.maxTerminateCounter :=
        bound.trans (by omega)
      have hcounter := counter trivial
      rw [← hturned.terminateCounter] at hcounter
      cases interrupted with
      | true => exact ⟨hheard heard, hbound, fun _ => hcounter, hint rfl⟩
      | false =>
          dsimp only at hle hquiet
          refine ⟨hheard heard, hbound, fun _ => hcounter, ?_, ?_, fun heq => ?_⟩
          · rw [hturned.prevNConf, hturned.terminateCounter]
            exact hpaid
          · rw [hturned.prevNConf]
            exact hle.trans hgrow
          · rw [hturned.prevNConf] at heq
            dsimp only at heq
            rw [hsame (by omega)]
            exact hquiet (by omega)
  | endTurns _ =>
      obtain ⟨hpaid, hle, hquiet⟩ := pacing
      exact ⟨heard, bound, counter, hpaid, le_rfl, hle, hquiet⟩
  | pick hconf =>
      obtain ⟨hpaid, hi, -⟩ := pacing
      exact ⟨heard, bound, counter, hpaid, hi, (List.getElem?_eq_some_iff.mp hconf).1⟩
  | «return» _ =>
      obtain ⟨hpaid, -, hle, hquiet⟩ := pacing
      exact ⟨heard, bound, counter, hpaid, hle, fun heq => by rw [hquiet heq]; rfl⟩
  | recheck _ _ hre =>
      obtain ⟨hpaid, hi, hlt⟩ := pacing
      obtain ⟨hcov, hcount, hprev, hsignal, hreads, -⟩ := hre.frame
      refine ⟨heard.of_eq hsignal hreads, by rw [hcov]; exact bound, ?_, ?_, ?_, ?_⟩
      · rw [hcount]
        exact counter
      · rw [hprev, hcount]
        exact hpaid
      · rw [hprev]
        exact hi
      · rw [hcov]
        exact hlt
  | endConfig _ =>
      obtain ⟨hpaid, hi, hlt⟩ := pacing
      dsimp only at hi hlt
      exact ⟨heard, bound, counter, hpaid, hi.trans (Nat.le_succ _), hi.trans hlt.le,
        fun heq => absurd heq (Nat.ne_of_gt (hi.trans_lt hlt))⟩
  | terminate => exact ⟨heard.of_eq rfl rfl, bound, fun h => h.elim, trivial⟩
  | @enqueueAll iter s =>
      obtain ⟨hpaid, hle, -⟩ := pacing
      obtain ⟨hnonneg, hlt⟩ := counter trivial
      have hmono := env.allowance_mono hpos n₀ hle
      have hne : s.terminateCounter + 1 ≠ env.maxTerminateCounter := by
        intro heq
        rw [GenTree.step, if_pos heq] at hstep
        cases hstep
      dsimp only at hnonneg hlt hpaid hmono
      refine ⟨heard.of_eq rfl rfl, bound, fun _ => ⟨?_, ?_⟩, .inl ?_⟩
      · show 0 ≤ s.terminateCounter + 1
        omega
      · show s.terminateCounter + 1 < env.maxTerminateCounter
        omega
      · show (iter : ℤ) ≤ env.allowance n₀ s.cov.nConfigs + (s.terminateCounter + 1)
        omega
  | @goOn iter s =>
      obtain ⟨hpaid, hle, hquiet⟩ := pacing
      obtain ⟨hnonneg, hlt⟩ := counter trivial
      -- the queue is not empty, so that a configuration has been run
      have hmore : s.prevNConf < s.cov.nConfigs := by
        refine lt_of_le_of_ne hle fun heq => ?_
        exact absurd (hquiet heq.symm) Bool.false_ne_true
      have hallow := env.allowance_lt hpos n₀ hmore
      dsimp only at hlt hpaid
      refine ⟨heard.of_eq rfl rfl, bound, fun _ => ⟨le_rfl, hpos'⟩, .inl ?_⟩
      show (iter : ℤ) ≤ env.allowance n₀ s.cov.nConfigs + 0
      omega
  | giveUp => exact ⟨heard.of_eq rfl rfl, bound, fun _ => ⟨le_rfl, hpos'⟩, .inr pacing⟩
  | brk _ => exact ⟨heard.readSignal, bound, fun h => h.elim, trivial⟩
  | @usr iter s s' hsignal hfin =>
      have hstate := hfin.state
      have hpaid := pacing.resolve_right fun hbrk => by
        rw [heard.readSignal_brk hstop hbrk] at hsignal
        simp at hsignal
      have hcov : s'.cov = s.cov := by rw [hstate]; rfl
      have hcount : s'.terminateCounter = s.terminateCounter := by rw [hstate]; rfl
      refine ⟨fun hbrk => (by cases hbrk), ?_, fun _ => ?_, ?_⟩
      · show (iter : ℤ) ≤ env.allowance n₀ s'.cov.nConfigs + _
        rw [hcov]
        exact bound
      · show 0 ≤ s'.terminateCounter ∧ s'.terminateCounter < _
        rw [hcount]
        exact counter trivial
      · show (iter : ℤ) ≤ env.allowance n₀ s'.cov.nConfigs + s'.terminateCounter
        rw [hcov, hcount]
        exact hpaid
  | @quiet iter s hsignal =>
      have hpaid := pacing.resolve_right fun hbrk => by
        rw [heard.readSignal_brk hstop hbrk] at hsignal
        simp at hsignal
      exact ⟨heard.readSignal, bound, counter, hpaid⟩
  | @save iter s s' hfin =>
      obtain ⟨hnonneg, hlt⟩ := counter trivial
      have hstate := hfin.state
      have hcov : s'.cov = s.cov := by rw [hstate]
      have hcount : s'.terminateCounter = s.terminateCounter := by rw [hstate]
      have hpaid : (iter : ℤ) ≤ env.allowance n₀ s'.cov.nConfigs + s'.terminateCounter := by
        rw [hcov, hcount]
        exact pacing
      rw [← hcount] at hnonneg hlt
      refine ⟨heard.of_eq (by rw [hstate]) (by rw [hstate]), ?_, fun _ => ⟨hnonneg, hlt⟩, ?_⟩
      · show ((iter + 1 : ℕ) : ℤ) ≤ env.allowance n₀ s'.cov.nConfigs + _
        omega
      · show ((iter + 1 : ℕ) : ℤ) - 1 ≤ env.allowance n₀ s'.cov.nConfigs + s'.terminateCounter
        omega
  | @noSave iter s =>
      obtain ⟨hnonneg, hlt⟩ := counter trivial
      have hpaid : (iter : ℤ) ≤ env.allowance n₀ s.cov.nConfigs + s.terminateCounter := pacing
      dsimp only at hlt
      refine ⟨heard, ?_, counter, ?_⟩
      · show ((iter + 1 : ℕ) : ℤ) ≤ env.allowance n₀ s.cov.nConfigs + _
        omega
      · show ((iter + 1 : ℕ) : ℤ) - 1 ≤ env.allowance n₀ s.cov.nConfigs + s.terminateCounter
        omega
  | @finish iter s s₁ s' hprep hfin =>
      obtain ⟨hsignal, hreads⟩ := hprep.signal
      have hstate := hfin.state
      have hcov : s'.cov = s.cov := by rw [hstate]; exact hprep.cov hx
      refine ⟨heard.of_eq ?_ ?_, ?_, fun h => h.elim, trivial⟩
      · rw [hstate]
        exact hsignal
      · rw [hstate]
        exact hreads
      · show ((0 : ℕ) : ℤ) ≤ env.allowance n₀ s'.cov.nConfigs + _
        rw [hcov]
        exact le_trans (by exact_mod_cast Nat.zero_le iter) bound
  | done => exact ⟨heard, bound, counter, trivial⟩

/-- **The pace of a run.** -/
theorem RunsTo.paced {s₀ : St Name Hash} (hinit : env.init = .ok s₀)
    {guard : Label × St Name Hash → Prop} {l : Label} {s : St Name Hash}
    (h : RunsTo env guard l s) : Paced env s₀.cov.nConfigs (l, s) := by
  obtain ⟨s₁, hs₁, hrun⟩ := h
  cases hinit.symm.trans hs₁
  refine (hrun.invariant (fun x => Base env x.2 ∧ Paced env s₀.cov.nConfigs x) (E := fun _ => True)
    (fun x hx _ => meets_iff_forall_ok.mpr fun y hy => ?_) ?_).2
  · exact ⟨((step_meets hx.1).of_eq_ok hy).base hx.1, hx.2.step hreach hpos hstop hx.1 hy⟩
  · have hs₀ := env.init_meets.of_eq_ok hinit
    have hcount : s₀.terminateCounter = 0 := env.init_counter.of_eq_ok hinit
    have hzero : env.allowance s₀.cov.nConfigs s₀.cov.nConfigs = 0 := by simp [Env.allowance]
    refine ⟨hs₀.1, fun hbrk => ?_, ?_, fun _ => ?_, ?_⟩
    · dsimp only at hbrk
      rw [hs₀.2.2.2.2.2.1] at hbrk
      cases hbrk
    · show ((1 : ℕ) : ℤ) ≤ env.allowance s₀.cov.nConfigs s₀.cov.nConfigs + _
      rw [hzero, zero_add]
      exact hpos
    · dsimp only
      rw [hcount]
      exact ⟨le_rfl, lt_of_lt_of_le one_pos hpos⟩
    · show ((1 : ℕ) : ℤ) - 1 ≤ env.allowance s₀.cov.nConfigs s₀.cov.nConfigs + s₀.terminateCounter
      rw [hzero, hcount]
      exact le_rfl

/-- **The number of iterations.**  When streaks can be reached, the counter may reach its
maximum, and a request to stop stands, no place in a run belongs to a later iteration
than `max_terminate_counter` for every element of the configuration space, and once more. -/
theorem Env.run_iterations_le (hsound : env.solver.Sound env.dom) {l : Label} {s : St Name Hash}
    (h : RunsTo env (fun _ => True) l s) :
    (l.iter : ℤ) ≤ (env.dom.configSpace + 1) * env.maxTerminateCounter := by
  obtain ⟨s₀, hinit, -⟩ := id h
  have hbound := (h.paced hreach hpos hstop hinit).bound
  have hle := (h.tally hsound hinit).nConfigs_le
  have hmono := env.allowance_mono hpos s₀.cov.nConfigs hle
  have hall : env.allowance s₀.cov.nConfigs (s₀.cov.nConfigs + env.dom.configSpace) =
      env.dom.configSpace * env.maxTerminateCounter := by
    simp [allowance]
  rw [hall] at hmono
  calc (l.iter : ℤ) ≤ env.allowance s₀.cov.nConfigs s.cov.nConfigs + env.maxTerminateCounter := hbound
    _ ≤ env.dom.configSpace * env.maxTerminateCounter + env.maxTerminateCounter := by omega
    _ = (env.dom.configSpace + 1) * env.maxTerminateCounter := by ring

end Step

/-! ## Every run ends -/

/-- What is left to do at a label: the iterations that `--rounds` still allows, the stage
of the iteration, and the passes left in its two nested loops. -/
def Label.rank (env : Env Name Hash) : Label → St Name Hash → ℕ × ℕ × ℕ × ℕ
  | .head iter, _ => (env.nIterations.toNat + 1 - iter, 6, 0, 0)
  | .turns iter k, s => (env.nIterations.toNat + 1 - iter, 5, s.vThisIter.length - k, 0)
  | .recheck iter i, s =>
      (env.nIterations.toNat + 1 - iter, 4, s.cov.nConfigs - i, s.cov.nLocs + 1)
  | .recheckAt iter i k _, s =>
      (env.nIterations.toNat + 1 - iter, 4, s.cov.nConfigs - i, s.cov.nLocs - k)
  | .returned iter _, _ | .interrupted iter, _ => (env.nIterations.toNat + 1 - iter, 3, 0, 0)
  | .signals iter, _ => (env.nIterations.toNat + 1 - iter, 2, 0, 0)
  | .save iter, _ => (env.nIterations.toNat + 1 - iter, 1, 0, 0)
  | .final _, _ => (0, 1, 0, 0)
  | .done, _ => (0, 0, 0, 0)

/-- What the ranks rest on: inside an iteration `--rounds` has allowed it, and the re-check
is at a configuration that is there. -/
def Ranked (env : Env Name Hash) : Label → St Name Hash → Prop
  | .turns iter _, _ | .recheck iter _, _ | .returned iter _, _ | .interrupted iter, _
  | .signals iter, _ | .save iter, _ => (iter : ℤ) ≤ env.nIterations
  | .recheckAt iter i _ _, s => (iter : ℤ) ≤ env.nIterations ∧ i < s.cov.nConfigs
  | .head _, _ | .final _, _ | .done, _ => True

section Rank

variable (a a' b b' c c' d d' : ℕ)

theorem rel_iter (h : a < a') : WellFoundedRelation.rel (a, b, c, d) (a', b', c', d') :=
  .left _ _ h

theorem rel_stage (h : b < b') : WellFoundedRelation.rel (a, b, c, d) (a, b', c', d') :=
  .right _ (.left _ _ h)

theorem rel_outer (h : c < c') : WellFoundedRelation.rel (a, b, c, d) (a, b, c', d') :=
  .right _ (.right _ (.left _ _ h))

theorem rel_inner (h : d < d') : WellFoundedRelation.rel (a, b, c, d) (a, b, c, d') :=
  .right _ (.right _ (.right _ h))

/-- Leaving the loop leaves nothing to do but the end. -/
theorem rel_final (h : 1 < b) :
    WellFoundedRelation.rel (0, 1, 0, 0) (a, b, c, d) := by
  rcases Nat.eq_zero_or_pos a with rfl | hpos
  · exact rel_stage 0 1 b 0 c 0 d h
  · exact rel_iter 0 a 1 b 0 c 0 d hpos

end Rank

/-- **Every step has less left to do.** -/
theorem Stepped.rank_lt {x y : Label × St Name Hash} (hx : Base env x.2) (hranked : Ranked env x.1 x.2)
    (hdone : x.1 ≠ .done) (hstep : step env x = .ok y) :
    Ranked env y.1 y.2 ∧ WellFoundedRelation.rel (y.1.rank env y.2) (x.1.rank env x.2) := by
  cases (step_meets hx).of_eq_ok hstep with
  | @start iter s hnodup =>
      have hle : (iter : ℤ) ≤ env.nIterations := by
        by_contra hgt
        rw [step, if_neg hgt] at hstep
        cases hstep
      exact ⟨hle, rel_stage _ _ _ _ _ _ _ (by decide)⟩
  | stop => exact ⟨trivial, rel_final _ _ _ _ (by decide)⟩
  | @turn iter k j s s' interrupted hk hrun =>
      obtain ⟨d, d', hd, hturned⟩ := hx.turned hrun
      have hlt := (List.getElem?_eq_some_iff.mp hk).1
      cases interrupted with
      | true => exact ⟨hranked, rel_stage _ _ _ _ _ _ _ (by decide)⟩
      | false =>
          refine ⟨hranked, rel_outer _ _ _ _ _ _ ?_⟩
          rw [hturned.vThisIter]
          exact Nat.sub_succ_lt_self _ _ hlt
  | endTurns _ => exact ⟨hranked, rel_stage _ _ _ _ _ _ _ (by decide)⟩
  | pick hconf =>
      exact ⟨⟨hranked, (List.getElem?_eq_some_iff.mp hconf).1⟩,
        rel_inner _ _ _ _ _ (Nat.lt_succ_self _)⟩
  | «return» _ => exact ⟨hranked, rel_stage _ _ _ _ _ _ _ (by decide)⟩
  | @recheck iter i k it it' s s' c loc hconf hloc hre =>
      have hlt : k < s.cov.nLocs := (List.getElem?_eq_some_iff.mp hloc).1
      have hcov := hre.frame.1
      refine ⟨by dsimp only [Ranked]; rw [hcov]; exact hranked, ?_⟩
      dsimp only [Label.rank]
      rw [hcov]
      exact rel_inner _ _ _ _ _ (Nat.sub_succ_lt_self _ _ hlt)
  | @endConfig iter i k it s hk =>
      obtain ⟨hle, hlt⟩ := hranked
      exact ⟨hle, rel_outer _ _ _ _ _ _ (Nat.sub_succ_lt_self _ _ hlt)⟩
  | terminate => exact ⟨trivial, rel_final _ _ _ _ (by decide)⟩
  | enqueueAll => exact ⟨hranked, rel_stage _ _ _ _ _ _ _ (by decide)⟩
  | goOn => exact ⟨hranked, rel_stage _ _ _ _ _ _ _ (by decide)⟩
  | giveUp => exact ⟨hranked, rel_stage _ _ _ _ _ _ _ (by decide)⟩
  | brk _ => exact ⟨trivial, rel_final _ _ _ _ (by decide)⟩
  | usr _ _ => exact ⟨hranked, rel_stage _ _ _ _ _ _ _ (by decide)⟩
  | quiet _ => exact ⟨hranked, rel_stage _ _ _ _ _ _ _ (by decide)⟩
  | @save iter s s' _ =>
      have hle : (iter : ℤ) ≤ env.nIterations := hranked
      exact ⟨trivial, rel_iter _ _ _ _ _ _ _ _ (Nat.sub_succ_lt_self _ _ (by omega))⟩
  | @noSave iter s =>
      have hle : (iter : ℤ) ≤ env.nIterations := hranked
      exact ⟨trivial, rel_iter _ _ _ _ _ _ _ _ (Nat.sub_succ_lt_self _ _ (by omega))⟩
  | finish _ _ => exact ⟨trivial, rel_stage _ _ _ _ _ _ _ (by decide)⟩
  | done => exact absurd rfl hdone

/-- **`run_alg` returns or dies**, from every environment: whatever the program under test,
the solver, the signals and the script do. -/
theorem Env.run_halts {s₀ : St Name Hash} (hinit : env.init = .ok s₀) :
    Machine.Halts (step env) (fun x => x.1 = .done) (.head 1, s₀) := by
  have hbase₀ : Base env s₀ := (env.init_meets.of_eq_ok hinit).1
  refine .of_measure (fun x : Label × St Name Hash => Base env x.2 ∧ Ranked env x.1 x.2)
    (fun x => x.1.rank env x.2) ?_ ⟨hbase₀, trivial⟩
  rintro x ⟨hbase, hranked⟩ hdone
  refine meets_iff_forall_ok.mpr fun y hy => ?_
  obtain ⟨hranked', hlt⟩ := Stepped.rank_lt hbase hranked hdone hy
  exact ⟨⟨((step_meets hbase).of_eq_ok hy).base hbase, hranked'⟩, hlt⟩

end Termination

/-! ## The script -/

/-- `iter2_config.js`, the script that is read when no other one is given.  Its factor
`p_messed_up_factor` is `1`. -/
def Params.iter2Config (configSpace : ℕ) : Params :=
  let p : Params := {
    maxTerminateCounter := 10
    thrMessedUpKickin := 30000
    thrStuckKickin := 10000
    maxMessedUp := 10
    maxStuck := 10
    messedUpIncr := fun n => n
    limTimes := 5
    consecutiveSuccess := 3
    thrMessedUpSwitch := 5
    messedLimTimes := 20
    messedConsecutiveSuccess := 6
    genCexLimLeaves := 16
    genCexHeavy := (6, 6, 0)
    genCexNormal := (6, 0, 0)
    genCexRetry := (0, 6, 0) }
  let p := if configSpace < 10000000 then { p with maxStuck := 40 } else p
  let p :=
    if configSpace < 300000 then
      { p with
        genCexHeavy := (2, 2, 0)
        genCexNormal := (2, 0, 0)
        genCexRetry := (0, 2, 0)
        maxTerminateCounter := 6
        thrMessedUpKickin := 10000
        thrStuckKickin := 10000
        limTimes := 4
        consecutiveSuccess := 2
        thrMessedUpSwitch := 3
        messedLimTimes := 10
        messedConsecutiveSuccess := 3 }
    else p
  if configSpace < 4000 then
    { p with maxTerminateCounter := 3, limTimes := 3, consecutiveSuccess := 1 }
  else p

/-- The script meets the conditions on the parameters, whatever the size of the space. -/
theorem Params.iter2Config_reachable (configSpace : ℕ) :
    (Params.iter2Config configSpace).Reachable ∧
      1 ≤ (Params.iter2Config configSpace).maxTerminateCounter := by
  unfold iter2Config
  refine ⟨⟨?_, ?_, ?_, ?_⟩, ?_⟩ <;> split <;> split <;> split <;> decide

/-- Three switches under the script, with a program that covers one location when the
first switch is on and another one when all are. -/
def Env.scripted : Env ℕ (List ℤ) :=
  { Env.small (fun values => (if values.head? = some 1 then [7] else []) ++
      (if values = [1, 1, 1] then [8] else [])) with
    params := Params.iter2Config 8
    options := { rounds := 1000 } }

theorem Env.scripted_reachable : Env.scripted.params.Reachable ∧
    1 ≤ Env.scripted.maxTerminateCounter ∧ Env.scripted.StopStands ∧
      Env.scripted.solver.Sound Env.scripted.dom := by
  obtain ⟨hreach, hpos⟩ := Params.iter2Config_reachable 8
  exact ⟨hreach, hpos, fun _ _ _ _ => .inl rfl, Solver.search_sound _⟩

/-- The third iteration, of a thousand that are allowed. -/
theorem Env.run_iterations_le_scripted : ∃ l s, RunsTo Env.scripted (fun _ => True) l s ∧
    l = .head 3 ∧ (l.iter : ℤ) ≤ (Env.scripted.dom.configSpace + 1) * 3 := by
  obtain ⟨l, s, hrun, hl⟩ := exists_runsTo Env.scripted (fun _ => True) 31
    (fun x => x.1 = .head 3) (by decide +kernel)
  obtain ⟨hreach, hpos, hstop, hsound⟩ := Env.scripted_reachable
  exact ⟨l, s, hrun, hl, Env.run_iterations_le hreach hpos hstop hsound hrun⟩

/-- The run ends. -/
theorem Env.run_halts_scripted : ∃ s₀, Env.scripted.init = .ok s₀ ∧
    Machine.Halts (step Env.scripted) (fun x => x.1 = .done) (.head 1, s₀) := by
  obtain ⟨_, _, ⟨s₀, hinit, -⟩, -⟩ := exists_runsTo Env.scripted (fun _ => True) 0
    (fun x => x.1 = .head 1) (by decide +kernel)
  exact ⟨s₀, hinit, Env.run_halts hinit⟩

end GenTree

import GenTree.Library.Interleaving
import Mathlib.Data.List.Count
import Mathlib.Data.Int.Notation

/-!
# The work queue

`WorkQueue` hands the items of concurrent `run_batch_job` calls to a fixed number
of worker threads.  The model is a system of threads: the workers, one caller a
batch, and the thread that calls `stop`.  A step is a critical section, or what a
thread does between two of them:

* `mtx_` protects the deque, `n_idle_` and `running_`.  A worker's section is one
  step (`take`); a caller pushes its items one at a time while it holds the mutex.
* `ctl->mtx` protects `n_finished`; both sections under it are one step (`finish`,
  `check`).
* A thread that waits on a condition variable is woken by `notify_one`, by
  `notify_all`, or by nobody (`wakeWorker`, `wakeCaller`); either way it has to get
  the mutex before it goes on.  Which waiting thread `notify_one` wakes is part of
  the step's label.

The job functions return; `log` records their calls.
-/

namespace GenTree

open Interleaving

namespace WorkQueue

/-- The threads of a run: how many workers there are (`CHECK(n_threads_ > 0)`), and
how many items each `run_batch_job` call has. -/
structure Setup where
  nThreads : ℕ
  pos : 0 < nThreads
  nBatches : ℕ
  num : Fin nBatches → ℕ

variable (p : Setup)

/-- `WorkQueue::Item`. -/
structure Item where
  id : ℕ
  batch : Fin p.nBatches
  deriving DecidableEq

/-- Where a worker is in `_run`. -/
inductive Worker
  /-- About to lock `mtx_`, at its start or after an item. -/
  | ready
  /-- In `cv_.wait(lck)`, not notified. -/
  | waiting
  /-- Woken in `cv_.wait(lck)`, about to lock `mtx_` again. -/
  | woken
  /-- In `_process`, about to call the job function. -/
  | processing (item : Item p)
  /-- In `_process`, the job function has returned. -/
  | finishing (item : Item p)
  /-- The loop is left. -/
  | exited
  deriving DecidableEq

/-- Where a caller is in `run_batch_job`. -/
inductive Caller
  /-- The call has not begun. -/
  | idle
  /-- About to lock `mtx_`. -/
  | called
  /-- Holds `mtx_`, about to push item `i`. -/
  | pushing (i : ℕ)
  /-- About to lock `ctl->mtx`, for the first time or woken. -/
  | checking
  /-- In `ctl->cv.wait(lock)`, not notified. -/
  | waiting
  | returned
  deriving DecidableEq

/-- Where the owner of the queue is: `start` has returned, `stop` joins the workers,
`stop` has returned and `threads` is empty. -/
inductive Owner
  | started
  | joining
  | stopped
  deriving DecidableEq

/-- The members of `WorkQueue` and of the batches' `WorkCtl`, where the threads are,
and the calls of job functions so far. -/
structure State where
  nIdle : ℤ
  running : Bool
  deque : List (Item p)
  mtx : Option (Fin p.nBatches)
  worker : Fin p.nThreads → Worker p
  caller : Fin p.nBatches → Caller
  nFinished : Fin p.nBatches → ℕ
  owner : Owner
  log : List (Fin p.nThreads × Item p)

/-- The steps. -/
inductive Action
  | call (b : Fin p.nBatches)
  | lock (b : Fin p.nBatches)
  | push (b : Fin p.nBatches) (wake : Option (Fin p.nThreads))
  | unlock (b : Fin p.nBatches)
  | check (b : Fin p.nBatches)
  | wakeCaller (b : Fin p.nBatches)
  | take (t : Fin p.nThreads)
  | exec (t : Fin p.nThreads)
  | finish (t : Fin p.nThreads)
  | wakeWorker (t : Fin p.nThreads)
  | stop
  | join
  deriving DecidableEq

/-- `start` has returned. -/
def start : State p where
  nIdle := 0
  running := true
  deque := []
  mtx := none
  worker _ := .ready
  caller _ := .idle
  nFinished _ := 0
  owner := .started
  log := []

variable {p}

/-- `WorkCtl::done`. -/
def State.done (s : State p) (b : Fin p.nBatches) : Bool := s.nFinished b = p.num b

/-- `cv_.notify_one()`: `wake` is a waiting worker, and nobody only if none waits. -/
def notifyOne (worker : Fin p.nThreads → Worker p) :
    Option (Fin p.nThreads) → Option (Fin p.nThreads → Worker p)
  | some t => if worker t = .waiting then some (Function.update worker t .woken) else none
  | none => if ∀ t, worker t ≠ .waiting then some worker else none

/-- `cv_.notify_all()`. -/
def notifyAll (worker : Fin p.nThreads → Worker p) : Fin p.nThreads → Worker p :=
  fun t => if worker t = .waiting then .woken else worker t

/-- `_add_nolock`, where `notify_one` wakes `wake`. -/
def addNolock (s : State p) (item : Item p) (wake : Option (Fin p.nThreads)) : Option (State p) :=
  let deque := s.deque ++ [item]
  if 0 < s.nIdle then
    (notifyOne s.worker wake).map fun worker => { s with deque := deque, worker := worker }
  else if wake = none then some { s with deque := deque } else none

/-- `_run` from the head of the loop, where `mtx_` is held, to the next unlock: the next
item, `cv_.wait`, or the end of the loop. -/
def runSection (s : State p) (t : Fin p.nThreads) : State p :=
  match s.deque with
  | item :: rest => { s with deque := rest, worker := Function.update s.worker t (.processing item) }
  | [] =>
    if s.running then
      { s with nIdle := s.nIdle + 1, worker := Function.update s.worker t .waiting }
    else { s with worker := Function.update s.worker t .exited }

/-- `_process` behind the job function: `n_finished++`, and `ctl->cv.notify_one()` when
the batch is done.  Nobody but the caller waits on `ctl->cv`. -/
def finishItem (s : State p) (t : Fin p.nThreads) (item : Item p) : State p :=
  let b := item.batch
  let s := { s with
    worker := Function.update s.worker t .ready
    nFinished := Function.update s.nFinished b (s.nFinished b + 1) }
  if s.done b && s.caller b = .waiting then
    { s with caller := Function.update s.caller b .checking }
  else s

/-- A step, or `none` where the thread is somewhere else or the mutex is taken.  A call
on a queue without threads dies in `CHECK(!threads.empty())` and is no step. -/
def step (s : State p) : Action p → Option (State p)
  | .call b =>
    if s.caller b = .idle ∧ s.owner ≠ .stopped then
      some { s with caller := Function.update s.caller b .called }
    else none
  | .lock b =>
    if s.caller b = .called ∧ s.mtx = none then
      some { s with mtx := some b, caller := Function.update s.caller b (.pushing 0) }
    else none
  | .push b wake =>
    match s.caller b with
    | .pushing i =>
      if i < p.num b then
        (addNolock s ⟨i, b⟩ wake).map fun s =>
          { s with caller := Function.update s.caller b (.pushing (i + 1)) }
      else none
    | _ => none
  | .unlock b =>
    if s.caller b = .pushing (p.num b) then
      some { s with mtx := none, caller := Function.update s.caller b .checking }
    else none
  | .check b =>
    if s.caller b = .checking then
      some { s with
        caller := Function.update s.caller b (if s.done b then .returned else .waiting) }
    else none
  | .wakeCaller b =>
    if s.caller b = .waiting then
      some { s with caller := Function.update s.caller b .checking }
    else none
  | .take t =>
    if s.mtx = none then
      match s.worker t with
      | .ready => some (runSection s t)
      | .woken => some (runSection { s with nIdle := s.nIdle - 1 } t)
      | _ => none
    else none
  | .exec t =>
    match s.worker t with
    | .processing item =>
      some { s with
        worker := Function.update s.worker t (.finishing item)
        log := s.log ++ [(t, item)] }
    | _ => none
  | .finish t =>
    match s.worker t with
    | .finishing item => some (finishItem s t item)
    | _ => none
  | .wakeWorker t =>
    if s.worker t = .waiting then
      some { s with worker := Function.update s.worker t .woken }
    else none
  | .stop =>
    if s.mtx = none ∧ s.owner = .started then
      some { s with running := false, worker := notifyAll s.worker, owner := .joining }
    else none
  | .join =>
    if s.owner = .joining ∧ ∀ t, s.worker t = .exited then some { s with owner := .stopped }
    else none

/-! ## What a step does -/

/-- `n_idle_` counts the workers between its two updates. -/
def Worker.idle : Worker p → ℕ
  | .waiting | .woken => 1
  | _ => 0

/-- The steps that can be taken, a constructor for each branch of the code. -/
inductive Moves (s : State p) : Action p → State p → Prop
  | call {b : Fin p.nBatches} (hc : s.caller b = .idle) (ho : s.owner ≠ .stopped) :
      Moves s (.call b) { s with caller := Function.update s.caller b .called }
  | lock {b : Fin p.nBatches} (hc : s.caller b = .called) (hm : s.mtx = none) :
      Moves s (.lock b)
        { s with mtx := some b, caller := Function.update s.caller b (.pushing 0) }
  | pushQuiet {b : Fin p.nBatches} {i : ℕ} (hc : s.caller b = .pushing i) (hi : i < p.num b)
      (hw : s.nIdle ≤ 0 ∨ ∀ t, s.worker t ≠ .waiting) :
      Moves s (.push b none)
        { s with
          deque := s.deque ++ [⟨i, b⟩]
          caller := Function.update s.caller b (.pushing (i + 1)) }
  | pushWake {b : Fin p.nBatches} {i : ℕ} {t : Fin p.nThreads} (hc : s.caller b = .pushing i)
      (hi : i < p.num b) (hw : s.worker t = .waiting) :
      Moves s (.push b (some t))
        { s with
          deque := s.deque ++ [⟨i, b⟩]
          worker := Function.update s.worker t .woken
          caller := Function.update s.caller b (.pushing (i + 1)) }
  | unlock {b : Fin p.nBatches} (hc : s.caller b = .pushing (p.num b)) :
      Moves s (.unlock b)
        { s with mtx := none, caller := Function.update s.caller b .checking }
  | checkDone {b : Fin p.nBatches} (hc : s.caller b = .checking) (hd : s.nFinished b = p.num b) :
      Moves s (.check b) { s with caller := Function.update s.caller b .returned }
  | checkWait {b : Fin p.nBatches} (hc : s.caller b = .checking) (hd : s.nFinished b ≠ p.num b) :
      Moves s (.check b) { s with caller := Function.update s.caller b .waiting }
  | wakeCaller {b : Fin p.nBatches} (hc : s.caller b = .waiting) :
      Moves s (.wakeCaller b) { s with caller := Function.update s.caller b .checking }
  | takeItem {t : Fin p.nThreads} {item : Item p} {rest : List (Item p)}
      (ht : s.worker t = .ready ∨ s.worker t = .woken) (hm : s.mtx = none)
      (hq : s.deque = item :: rest) :
      Moves s (.take t)
        { s with
          nIdle := s.nIdle - (s.worker t).idle
          deque := rest
          worker := Function.update s.worker t (.processing item) }
  | takeWait {t : Fin p.nThreads} (ht : s.worker t = .ready ∨ s.worker t = .woken)
      (hm : s.mtx = none) (hq : s.deque = []) (hr : s.running = true) :
      Moves s (.take t)
        { s with
          nIdle := s.nIdle - (s.worker t).idle + 1
          worker := Function.update s.worker t .waiting }
  | takeExit {t : Fin p.nThreads} (ht : s.worker t = .ready ∨ s.worker t = .woken)
      (hm : s.mtx = none) (hq : s.deque = []) (hr : s.running = false) :
      Moves s (.take t)
        { s with
          nIdle := s.nIdle - (s.worker t).idle
          worker := Function.update s.worker t .exited }
  | exec {t : Fin p.nThreads} {item : Item p} (ht : s.worker t = .processing item) :
      Moves s (.exec t)
        { s with
          worker := Function.update s.worker t (.finishing item)
          log := s.log ++ [(t, item)] }
  | finishQuiet {t : Fin p.nThreads} {item : Item p} (ht : s.worker t = .finishing item)
      (hd : s.nFinished item.batch + 1 = p.num item.batch → s.caller item.batch ≠ .waiting) :
      Moves s (.finish t)
        { s with
          worker := Function.update s.worker t .ready
          nFinished := Function.update s.nFinished item.batch (s.nFinished item.batch + 1) }
  | finishWake {t : Fin p.nThreads} {item : Item p} (ht : s.worker t = .finishing item)
      (hd : s.nFinished item.batch + 1 = p.num item.batch)
      (hc : s.caller item.batch = .waiting) :
      Moves s (.finish t)
        { s with
          worker := Function.update s.worker t .ready
          nFinished := Function.update s.nFinished item.batch (s.nFinished item.batch + 1)
          caller := Function.update s.caller item.batch .checking }
  | wakeWorker {t : Fin p.nThreads} (ht : s.worker t = .waiting) :
      Moves s (.wakeWorker t) { s with worker := Function.update s.worker t .woken }
  | stop (hm : s.mtx = none) (ho : s.owner = .started) :
      Moves s .stop
        { s with running := false, worker := notifyAll s.worker, owner := .joining }
  | join (ho : s.owner = .joining) (ht : ∀ t, s.worker t = .exited) :
      Moves s .join { s with owner := .stopped }

variable {s s' : State p}

theorem addNolock_eq_some {item : Item p} {wake : Option (Fin p.nThreads)}
    (h : addNolock s item wake = some s') :
    (wake = none ∧ (s.nIdle ≤ 0 ∨ ∀ t, s.worker t ≠ .waiting) ∧
      s' = { s with deque := s.deque ++ [item] }) ∨
    (∃ t, wake = some t ∧ s.worker t = .waiting ∧
      s' = { s with
        deque := s.deque ++ [item]
        worker := Function.update s.worker t .woken }) := by
  unfold addNolock at h
  by_cases hidle : 0 < s.nIdle
  · rw [if_pos hidle, Option.map_eq_some_iff] at h
    obtain ⟨worker, hnotify, rfl⟩ := h
    cases wake with
    | none =>
      simp only [notifyOne, Option.ite_none_right_eq_some, Option.some.injEq] at hnotify
      obtain ⟨hnone, rfl⟩ := hnotify
      exact Or.inl ⟨rfl, Or.inr hnone, rfl⟩
    | some t =>
      simp only [notifyOne, Option.ite_none_right_eq_some, Option.some.injEq] at hnotify
      obtain ⟨hwaiting, rfl⟩ := hnotify
      exact Or.inr ⟨t, rfl, hwaiting, rfl⟩
  · rw [if_neg hidle, Option.ite_none_right_eq_some] at h
    obtain ⟨rfl, hs⟩ := h
    cases hs
    exact Or.inl ⟨rfl, Or.inl (not_lt.mp hidle), rfl⟩

theorem moves_take {t : Fin p.nThreads} (hm : s.mtx = none)
    (ht : s.worker t = .ready ∨ s.worker t = .woken) :
    Moves s (.take t) (runSection { s with nIdle := s.nIdle - (s.worker t).idle } t) := by
  unfold runSection
  cases hq : s.deque with
  | cons item rest => exact .takeItem ht hm hq
  | nil =>
    cases hr : s.running with
    | true => simpa [hq, hr] using Moves.takeWait ht hm hq hr
    | false => simpa [hq, hr] using Moves.takeExit ht hm hq hr

theorem moves_finish {t : Fin p.nThreads} {item : Item p} (ht : s.worker t = .finishing item) :
    Moves s (.finish t) (finishItem s t item) := by
  by_cases h : s.nFinished item.batch + 1 = p.num item.batch ∧ s.caller item.batch = .waiting
  · simpa [finishItem, State.done, h.1, h.2] using Moves.finishWake ht h.1 h.2
  · have hquiet : s.nFinished item.batch + 1 = p.num item.batch → s.caller item.batch ≠ .waiting :=
      fun hd hc => h ⟨hd, hc⟩
    simpa [finishItem, State.done, h] using Moves.finishQuiet ht hquiet

/-- Every step is one of the moves. -/
theorem moves_of_step {a : Action p} (h : step s a = some s') : Moves s a s' := by
  cases a with
  | call b =>
    simp only [step, Option.ite_none_right_eq_some, Option.some.injEq] at h
    obtain ⟨⟨hc, ho⟩, rfl⟩ := h
    exact .call hc ho
  | lock b =>
    simp only [step, Option.ite_none_right_eq_some, Option.some.injEq] at h
    obtain ⟨⟨hc, hm⟩, rfl⟩ := h
    exact .lock hc hm
  | push b wake =>
    simp only [step] at h
    split at h
    · next i hc =>
      rw [Option.ite_none_right_eq_some, Option.map_eq_some_iff] at h
      obtain ⟨hi, u, hu, rfl⟩ := h
      rcases addNolock_eq_some hu with ⟨rfl, hw, rfl⟩ | ⟨t, rfl, hw, rfl⟩
      · exact .pushQuiet hc hi hw
      · exact .pushWake hc hi hw
    · cases h
  | unlock b =>
    simp only [step, Option.ite_none_right_eq_some, Option.some.injEq] at h
    obtain ⟨hc, rfl⟩ := h
    exact .unlock hc
  | check b =>
    simp only [step, Option.ite_none_right_eq_some, Option.some.injEq] at h
    obtain ⟨hc, rfl⟩ := h
    by_cases hd : s.nFinished b = p.num b
    · simpa [State.done, hd] using Moves.checkDone hc hd
    · simpa [State.done, hd] using Moves.checkWait hc hd
  | wakeCaller b =>
    simp only [step, Option.ite_none_right_eq_some, Option.some.injEq] at h
    obtain ⟨hc, rfl⟩ := h
    exact .wakeCaller hc
  | take t =>
    simp only [step] at h
    split at h
    · next hm =>
      split at h
      · next ht =>
        cases h
        simpa [ht, Worker.idle] using moves_take hm (Or.inl ht)
      · next ht =>
        cases h
        simpa [ht, Worker.idle] using moves_take hm (Or.inr ht)
      · cases h
    · cases h
  | exec t =>
    simp only [step] at h
    split at h
    · next item ht =>
      cases h
      exact .exec ht
    · cases h
  | finish t =>
    simp only [step] at h
    split at h
    · next item ht =>
      cases h
      exact moves_finish ht
    · cases h
  | wakeWorker t =>
    simp only [step, Option.ite_none_right_eq_some, Option.some.injEq] at h
    obtain ⟨ht, rfl⟩ := h
    exact .wakeWorker ht
  | stop =>
    simp only [step, Option.ite_none_right_eq_some, Option.some.injEq] at h
    obtain ⟨⟨hm, ho⟩, rfl⟩ := h
    exact .stop hm ho
  | join =>
    simp only [step, Option.ite_none_right_eq_some, Option.some.injEq] at h
    obtain ⟨⟨ho, ht⟩, rfl⟩ := h
    exact .join ho ht

end WorkQueue

end GenTree

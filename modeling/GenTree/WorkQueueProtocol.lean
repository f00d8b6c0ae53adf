import GenTree.WorkQueue

/-!
# The protocol of the work queue

What holds in every state of every interleaving, `Inv`, in six parts that are
each kept by every move:

* `Locked` — the caller that pushes holds `mtx_`.
* `Idle` — `n_idle_` counts the workers in `cv_.wait`, those that have been woken
  included.
* `Placed` — an item that has been pushed is in the deque, in one worker's hand,
  or executed, and in one of these places only.
* `Counted` — `n_finished` lags behind the executed items by the workers that have
  yet to count one.
* `Awake` — while the deque has an item some worker is not waiting, and after
  `stop` none is.
* `Notified` — a caller waits only for a batch that is not finished.

## Main results

* `AtRest.returned` — the threads cannot block each other before all calls have
  returned.
* `length_run_le` — a run is as long as its work and its spurious wake-ups allow.
* `executed_of_stopped` — `stop` waits for all items pushed before it.
* `protocol` — these and the rest of what users of the queue rely on.
* `exists_schedule` — what a batch's caller sees: each item executed once, in some
  order and on some thread.
-/

namespace GenTree

open Interleaving

namespace WorkQueue

variable {p : Setup} {s s' : State p} {a : Action p}

/-! ## The mutex -/

/-- Whether the caller is in its section under `mtx_`. -/
def Caller.pushes : Caller → Bool
  | .pushing _ => true
  | _ => false

/-- `mtx_` is held by the caller that pushes, and it pushes its own items. -/
structure Locked (s : State p) : Prop where
  holds : ∀ b, s.mtx = some b ↔ (s.caller b).pushes = true
  bound : ∀ b i, s.caller b = .pushing i → i ≤ p.num b

theorem Moves.locked (h : Moves s a s') (hs : Locked s) : Locked s' := by
  obtain ⟨hholds, hbound⟩ := hs
  cases h <;> constructor <;> grind [Function.update_apply, Caller.pushes]

/-! ## Idle workers -/

/-- A number that is the same for waiting and woken workers does not see `notify_all`. -/
theorem tally_notifyAll {f : Worker p → ℕ} (hf : f .waiting = f .woken)
    (w : Fin p.nThreads → Worker p) : tally f (notifyAll w) = tally f w := by
  apply tally_congr
  intro t
  unfold notifyAll
  split
  · next ht => rw [ht, hf]
  · rfl

/-- `n_idle_` counts the workers in `cv_.wait`, woken or not. -/
def Idle (s : State p) : Prop := s.nIdle = tally Worker.idle s.worker

theorem Moves.idle (h : Moves s a s') (hs : Idle s) : Idle s' := by
  unfold Idle at hs ⊢
  cases h with
  | pushWake hc hi hw | wakeWorker hw =>
    dsimp only
    rw [tally_update_of_eq (by rw [hw]; rfl)]
    exact hs
  | @takeItem t item rest =>
    have hmove := tally_update Worker.idle s.worker t (.processing item)
    simp only [Worker.idle] at hmove ⊢
    omega
  | @takeWait t =>
    have hmove := tally_update Worker.idle s.worker t .waiting
    simp only [Worker.idle] at hmove ⊢
    omega
  | @takeExit t =>
    have hmove := tally_update Worker.idle s.worker t .exited
    simp only [Worker.idle] at hmove ⊢
    omega
  | exec ht | finishQuiet ht | finishWake ht =>
    dsimp only
    rw [tally_update_of_eq (by rw [ht]; rfl)]
    exact hs
  | stop =>
    dsimp only
    rw [tally_notifyAll rfl]
    exact hs
  | _ => exact hs

/-! ## Where an item is -/

/-- How many items the caller has pushed, of `num`. -/
def Caller.pushed (num : ℕ) : Caller → ℕ
  | .idle | .called => 0
  | .pushing i => i
  | .checking | .waiting | .returned => num

/-- The item in the worker's hand that it has not executed. -/
def Worker.hand (x : Item p) : Worker p → ℕ
  | .processing item => if item = x then 1 else 0
  | _ => 0

/-- The item has been pushed. -/
def State.Enqueued (s : State p) (x : Item p) : Prop :=
  x.id < (s.caller x.batch).pushed (p.num x.batch)

instance (s : State p) (x : Item p) : Decidable (s.Enqueued x) :=
  inferInstanceAs (Decidable (_ < _))

/-- The items whose job function has been called. -/
def State.executed (s : State p) : List (Item p) := s.log.map Prod.snd

/-- How often an item has been pushed. -/
def pushes (caller : Fin p.nBatches → Caller) (x : Item p) : ℕ :=
  if x.id < (caller x.batch).pushed (p.num x.batch) then 1 else 0

/-- An item that has been pushed is in one place: in the deque, in the hand of one
worker, or executed once. -/
def Placed (s : State p) : Prop :=
  ∀ x, s.deque.count x + tally (Worker.hand x) s.worker + s.executed.count x = pushes s.caller x

theorem pushes_update {caller : Fin p.nBatches → Caller} {b : Fin p.nBatches} {c : Caller}
    (hc : c.pushed (p.num b) = (caller b).pushed (p.num b)) (x : Item p) :
    pushes (Function.update caller b c) x = pushes caller x := by
  unfold pushes
  by_cases hb : x.batch = b
  · subst hb
    rw [Function.update_self, hc]
  · rw [Function.update_of_ne hb]

theorem pushes_push {caller : Fin p.nBatches → Caller} {b : Fin p.nBatches} {i : ℕ}
    (hc : caller b = .pushing i) (x : Item p) :
    pushes (Function.update caller b (.pushing (i + 1))) x =
      pushes caller x + [(⟨i, b⟩ : Item p)].count x := by
  obtain ⟨id, batch⟩ := x
  unfold pushes
  by_cases hb : batch = b
  · subst hb
    simp only [Function.update_self, hc, Caller.pushed, List.count_singleton, beq_iff_eq,
      Item.mk.injEq, and_true]
    grind
  · have hne : (⟨i, b⟩ : Item p) ≠ ⟨id, batch⟩ := by
      intro heq
      exact hb (congrArg Item.batch heq).symm
    rw [Function.update_of_ne hb, List.count_eq_zero_of_not_mem]
    · rfl
    · simpa using hne.symm

/-- A worker that is about to take an item has none. -/
theorem hand_of_ready {w : Worker p} (hw : w = .ready ∨ w = .woken) (x : Item p) :
    w.hand x = 0 := by
  rcases hw with rfl | rfl <;> rfl

theorem Moves.placed (h : Moves s a s') (hs : Placed s) : Placed s' := by
  intro x
  have hx := hs x
  unfold State.executed at hx ⊢
  cases h with
  | call hc | lock hc | unlock hc | checkDone hc | checkWait hc | wakeCaller hc =>
    rw [pushes_update (by rw [hc]; rfl)]
    exact hx
  | pushQuiet hc =>
    dsimp only
    rw [pushes_push hc, List.count_append, ← hx]
    omega
  | pushWake hc hi hw =>
    dsimp only
    rw [pushes_push hc, List.count_append, tally_update_of_eq (by rw [hw]; rfl), ← hx]
    omega
  | @takeItem t item rest ht hm hq =>
    have hmove := tally_update (Worker.hand x) s.worker t (.processing item)
    rw [hand_of_ready ht] at hmove
    rw [hq, List.count_cons] at hx
    simp only [Worker.hand, beq_iff_eq] at hmove hx ⊢
    omega
  | takeWait ht | takeExit ht =>
    dsimp only
    rw [tally_update_of_eq (hand_of_ready ht x)]
    exact hx
  | @exec t item ht =>
    have hmove := tally_update (Worker.hand x) s.worker t (.finishing item)
    simp only [ht, Worker.hand, List.map_append, List.map_cons, List.map_nil, List.count_append,
      List.count_singleton, beq_iff_eq] at hmove ⊢
    omega
  | finishQuiet ht | wakeWorker ht =>
    dsimp only
    rw [tally_update_of_eq (by rw [ht]; rfl)]
    exact hx
  | finishWake ht hd hc =>
    dsimp only
    rw [pushes_update (by rw [hc]; rfl), tally_update_of_eq (by rw [ht]; rfl)]
    exact hx
  | stop =>
    dsimp only
    rw [tally_notifyAll rfl]
    exact hx
  | join => exact hx

/-! ## Counting what is finished -/

/-- The worker has executed an item of the batch and not counted it. -/
def Worker.late (b : Fin p.nBatches) : Worker p → ℕ
  | .finishing item => if item.batch = b then 1 else 0
  | _ => 0

/-- `n_finished` counts the executed items, less those whose worker has yet to count. -/
def Counted (s : State p) : Prop :=
  ∀ b, s.nFinished b + tally (Worker.late b) s.worker =
    s.executed.countP fun x => x.batch = b

theorem late_of_ready {w : Worker p} (hw : w = .ready ∨ w = .woken) (b : Fin p.nBatches) :
    w.late b = 0 := by
  rcases hw with rfl | rfl <;> rfl

theorem Moves.counted (h : Moves s a s') (hs : Counted s) : Counted s' := by
  intro b
  have hb := hs b
  unfold State.executed at hb ⊢
  cases h with
  | pushWake hc hi ht | wakeWorker ht =>
    dsimp only
    rw [tally_update_of_eq (by rw [ht]; rfl)]
    exact hb
  | takeItem ht | takeWait ht | takeExit ht =>
    dsimp only
    rw [tally_update_of_eq (late_of_ready ht b)]
    exact hb
  | @exec t item ht =>
    have hmove := tally_update (Worker.late b) s.worker t (.finishing item)
    simp only [ht, Worker.late, List.map_append, List.map_cons, List.map_nil, List.countP_append,
      List.countP_singleton, decide_eq_true_eq] at hmove ⊢
    omega
  | @finishQuiet t item ht | @finishWake t item ht =>
    have hmove := tally_update (Worker.late b) s.worker t .ready
    simp only [ht, Worker.late] at hmove
    dsimp only
    by_cases hitem : item.batch = b
    · subst hitem
      rw [Function.update_self]
      rw [if_pos rfl] at hmove
      omega
    · rw [Function.update_of_ne (Ne.symm hitem)]
      rw [if_neg hitem] at hmove
      omega
  | stop =>
    dsimp only
    rw [tally_notifyAll rfl]
    exact hb
  | _ => exact hb

/-! ## What has been executed -/

theorem pushed_le (hlocked : Locked s) (b : Fin p.nBatches) :
    (s.caller b).pushed (p.num b) ≤ p.num b := by
  cases hc : s.caller b with
  | idle | called => exact Nat.zero_le _
  | pushing i => exact hlocked.bound b i hc
  | checking | waiting | returned => exact le_rfl

theorem count_executed_le (hplaced : Placed s) (x : Item p) : s.executed.count x ≤ 1 := by
  have hx := hplaced x
  unfold pushes at hx
  split at hx <;> omega

theorem executed_nodup (hplaced : Placed s) : s.executed.Nodup :=
  List.nodup_iff_count_le_one.mpr (count_executed_le hplaced)

theorem enqueued_of_mem_executed (hplaced : Placed s) {x : Item p} (hx : x ∈ s.executed) :
    s.Enqueued x := by
  have hpos := List.count_pos_iff.mpr hx
  have hcount := hplaced x
  unfold pushes at hcount
  split at hcount
  · assumption
  · omega

/-- The items of a batch that have been executed, in this order. -/
def State.ids (s : State p) (b : Fin p.nBatches) : List ℕ :=
  (s.executed.filter fun x => x.batch = b).map Item.id

theorem mem_ids {b : Fin p.nBatches} {i : ℕ} : i ∈ s.ids b ↔ ⟨i, b⟩ ∈ s.executed := by
  unfold State.ids
  rw [List.mem_map]
  constructor
  · rintro ⟨x, hx, rfl⟩
    rw [List.mem_filter, decide_eq_true_eq] at hx
    obtain ⟨hmem, rfl⟩ := hx
    exact hmem
  · intro hmem
    exact ⟨⟨i, b⟩, by simp [hmem], rfl⟩

theorem ids_nodup (hplaced : Placed s) (b : Fin p.nBatches) : (s.ids b).Nodup := by
  apply List.Nodup.map_on _ ((executed_nodup hplaced).filter _)
  rintro ⟨i, c⟩ hx ⟨j, d⟩ hy hid
  simp only [List.mem_filter, decide_eq_true_eq] at hx hy
  obtain ⟨-, rfl⟩ := hx
  obtain ⟨-, rfl⟩ := hy
  cases hid
  rfl

theorem ids_subset (hlocked : Locked s) (hplaced : Placed s) (b : Fin p.nBatches) :
    s.ids b ⊆ List.range (p.num b) := by
  intro i hi
  rw [List.mem_range]
  exact lt_of_lt_of_le (enqueued_of_mem_executed hplaced (mem_ids.mp hi)) (pushed_le hlocked b)

theorem length_ids (b : Fin p.nBatches) :
    (s.ids b).length = s.executed.countP fun x => x.batch = b := by
  rw [State.ids, List.length_map, List.countP_eq_length_filter]

theorem finished_le (hlocked : Locked s) (hplaced : Placed s) (hcounted : Counted s)
    (b : Fin p.nBatches) : s.nFinished b + tally (Worker.late b) s.worker ≤ p.num b := by
  rw [hcounted b, ← length_ids]
  have hsub := (List.subperm_of_subset (ids_nodup hplaced b) (ids_subset hlocked hplaced b))
  simpa using hsub.length_le

/-- When as many items are finished as the batch has, they are the items of the batch. -/
theorem ids_perm (hlocked : Locked s) (hplaced : Placed s) (hcounted : Counted s)
    {b : Fin p.nBatches} (hdone : s.nFinished b = p.num b) :
    (s.ids b).Perm (List.range (p.num b)) := by
  have hsub := List.subperm_of_subset (ids_nodup hplaced b) (ids_subset hlocked hplaced b)
  apply hsub.perm_of_length_le
  rw [List.length_range, length_ids, ← hcounted b, hdone]
  exact Nat.le_add_right _ _

/-! ## Wake-ups -/

/-- No wake-up of a worker is lost, and `stop` leaves nobody waiting. -/
structure Awake (s : State p) : Prop where
  awake : s.deque ≠ [] → ∃ t, s.worker t ≠ .waiting
  stopped : s.running = false → ∀ t, s.worker t ≠ .waiting
  exited : ∀ t, s.worker t = .exited → s.running = false
  started : s.owner = .started ↔ s.running = true
  joined : s.owner = .stopped → ∀ t, s.worker t = .exited

/-- When `n_idle_` is not positive nobody waits. -/
theorem ne_waiting_of_idle (hidle : Idle s) (h : s.nIdle ≤ 0) (t : Fin p.nThreads) :
    s.worker t ≠ .waiting := by
  intro ht
  unfold Idle at hidle
  have hle := le_tally (f := Worker.idle) (w := s.worker) t
  rw [ht] at hle
  simp only [Worker.idle] at hle
  omega

/-- A worker that has not left its loop goes on, not into `cv_.wait`. -/
theorem Awake.moved (hs : Awake s) {t : Fin p.nThreads} {x : Worker p}
    (hworker : s'.worker = Function.update s.worker t x) (hrunning : s'.running = s.running)
    (howner : s'.owner = s.owner) (ht : s.worker t ≠ .exited) (hx : x ≠ .waiting)
    (hexit : x = .exited → s.running = false) : Awake s' where
  awake _ := ⟨t, by rw [hworker, Function.update_self]; exact hx⟩
  stopped hstop t' := by
    rw [hrunning] at hstop
    rw [hworker, Function.update_apply]
    split
    · exact hx
    · exact hs.stopped hstop t'
  exited t' he := by
    rw [hworker, Function.update_apply] at he
    rw [hrunning]
    split at he
    · exact hexit he
    · exact hs.exited t' he
  started := by
    rw [hrunning, howner]
    exact hs.started
  joined hstop := by
    rw [howner] at hstop
    exact absurd (hs.joined hstop t) ht

/-- A worker that finds the deque empty waits. -/
theorem Awake.waits (hs : Awake s) {t : Fin p.nThreads}
    (hworker : s'.worker = Function.update s.worker t .waiting) (hrunning : s'.running = s.running)
    (howner : s'.owner = s.owner) (hdeque : s'.deque = []) (ht : s.worker t ≠ .exited)
    (hr : s.running = true) : Awake s' where
  awake hne := absurd hdeque hne
  stopped hstop := by
    rw [hrunning, hr] at hstop
    cases hstop
  exited t' he := by
    rw [hworker, Function.update_apply] at he
    rw [hrunning]
    split at he
    · cases he
    · exact hs.exited t' he
  started := by
    rw [hrunning, howner]
    exact hs.started
  joined hstop := by
    rw [howner] at hstop
    exact absurd (hs.joined hstop t) ht

theorem Moves.awake (h : Moves s a s') (hidle : Idle s) (hs : Awake s) : Awake s' := by
  have hbusy : ∀ {t}, s.worker t = .ready ∨ s.worker t = .woken → s.worker t ≠ .exited := by
    intro t ht he
    rcases ht with ht | ht <;> (rw [ht] at he; cases he)
  cases h with
  | pushQuiet hc hi hw =>
    refine ⟨fun _ => ⟨⟨0, p.pos⟩, ?_⟩, hs.stopped, hs.exited, hs.started, hs.joined⟩
    rcases hw with hw | hw
    · exact ne_waiting_of_idle hidle hw _
    · exact hw _
  | pushWake hc hi hw => exact hs.moved rfl rfl rfl (by simp [hw]) (by simp) (by simp)
  | takeItem ht hm hq => exact hs.moved rfl rfl rfl (hbusy ht) (by simp) (by simp)
  | takeWait ht hm hq hr => exact hs.waits rfl rfl rfl hq (hbusy ht) hr
  | takeExit ht hm hq hr => exact hs.moved rfl rfl rfl (hbusy ht) (by simp) fun _ => hr
  | exec ht => exact hs.moved rfl rfl rfl (by simp [ht]) (by simp) (by simp)
  | finishQuiet ht hd => exact hs.moved rfl rfl rfl (by simp [ht]) (by simp) (by simp)
  | finishWake ht hd hc => exact hs.moved rfl rfl rfl (by simp [ht]) (by simp) (by simp)
  | wakeWorker ht => exact hs.moved rfl rfl rfl (by simp [ht]) (by simp) (by simp)
  | stop hm ho =>
    have hnone : ∀ t, notifyAll s.worker t ≠ .waiting := by
      intro t
      unfold notifyAll
      split
      · simp
      · assumption
    exact ⟨fun _ => ⟨⟨0, p.pos⟩, hnone _⟩, fun _ => hnone, fun _ _ => rfl, by simp, by simp⟩
  | join ho ht =>
    have hstopped : s.running = false := hs.exited ⟨0, p.pos⟩ (ht _)
    exact ⟨hs.awake, hs.stopped, hs.exited, by simp [hstopped], fun _ => ht⟩
  | _ => exact ⟨hs.awake, hs.stopped, hs.exited, hs.started, hs.joined⟩

/-- No wake-up of a caller is lost: who waits has something to wait for, and who has
returned saw a finished batch. -/
structure Notified (s : State p) : Prop where
  waits : ∀ b, s.caller b = .waiting → s.nFinished b ≠ p.num b
  returned : ∀ b, s.caller b = .returned → s.nFinished b = p.num b

/-- A batch is not finished while a worker has yet to count an item. -/
theorem finished_lt (hlocked : Locked s) (hplaced : Placed s) (hcounted : Counted s)
    {t : Fin p.nThreads} {item : Item p} (ht : s.worker t = .finishing item) :
    s.nFinished item.batch < p.num item.batch := by
  have hle := finished_le hlocked hplaced hcounted item.batch
  have hlate := le_tally (f := Worker.late item.batch) (w := s.worker) t
  rw [ht, Worker.late, if_pos rfl] at hlate
  omega

theorem Moves.notified (h : Moves s a s') (hlocked : Locked s) (hplaced : Placed s)
    (hcounted : Counted s) (hs : Notified s) : Notified s' := by
  obtain ⟨hwaits, hreturned⟩ := hs
  cases h with
  | finishQuiet ht hd =>
    have hlt := finished_lt hlocked hplaced hcounted ht
    constructor <;> grind [Function.update_apply]
  | finishWake ht hd hc =>
    have hlt := finished_lt hlocked hplaced hcounted ht
    constructor <;> grind [Function.update_apply]
  | _ => constructor <;> grind [Function.update_apply]

/-! ## The invariant -/

/-- What holds in every state that is reached. -/
structure Inv (s : State p) : Prop where
  locked : Locked s
  idle : Idle s
  placed : Placed s
  counted : Counted s
  awake : Awake s
  notified : Notified s

theorem inv_start (p : Setup) : Inv (start p) where
  locked := ⟨by simp [start, Caller.pushes], by simp [start]⟩
  idle := by simp [Idle, start, tally, Worker.idle]
  placed x := by simp [start, tally, Worker.hand, State.executed, pushes, Caller.pushed]
  counted b := by simp [start, tally, Worker.late, State.executed]
  awake := ⟨fun h => absurd rfl h, by simp [start], by simp [start], by simp [start],
    by simp [start]⟩
  notified := ⟨by simp [start], by simp [start]⟩

theorem Inv.step (hs : Inv s) (h : step s a = some s') : Inv s' := by
  have hmove := moves_of_step h
  exact ⟨hmove.locked hs.locked, hmove.idle hs.idle, hmove.placed hs.placed,
    hmove.counted hs.counted, hmove.awake hs.idle hs.awake,
    hmove.notified hs.locked hs.placed hs.counted hs.notified⟩

/-- **The invariant of the queue** holds after every interleaving. -/
theorem inv_of_run {as : List (Action p)} (h : run WorkQueue.step (start p) as = some s) : Inv s :=
  run_invariant (fun _ _ _ hs hstep => hs.step hstep) h (inv_start p)

/-! ## Stopping -/

theorem Moves.enqueued (h : Moves s a s') (hlocked : Locked s) {x : Item p} (hx : s.Enqueued x) :
    s'.Enqueued x := by
  have hle := pushed_le hlocked x.batch
  unfold State.Enqueued at hx ⊢
  cases h <;> grind [Function.update_apply, Caller.pushed]

/-- Once a worker has left its loop, none of the items of `E` is in the deque. -/
def Drained (E : Item p → Prop) (s : State p) : Prop :=
  ∀ t, s.worker t = .exited → ∀ x ∈ s.deque, ¬ E x

theorem Moves.drained {E : Item p → Prop} (h : Moves s a s') (hE : ∀ x, E x → s.Enqueued x)
    (hs : Drained E s) : Drained E s' := by
  -- what is pushed now has not been pushed before, so it is not in `E`
  have hnew : ∀ {b i}, s.caller b = .pushing i → ¬ E ⟨i, b⟩ := by
    intro b i hc hmem
    have hlt := hE _ hmem
    simp [State.Enqueued, hc, Caller.pushed] at hlt
  intro t ht x hx
  cases h with
  | pushQuiet hc hi hw =>
    rw [List.mem_append, List.mem_singleton] at hx
    rcases hx with hx | rfl
    · exact hs t ht x hx
    · exact hnew hc
  | pushWake hc hi hw =>
    have ht' : s.worker t = .exited := by grind [Function.update_apply]
    rw [List.mem_append, List.mem_singleton] at hx
    rcases hx with hx | rfl
    · exact hs t ht' x hx
    · exact hnew hc
  | takeItem hw hm hq =>
    have ht' : s.worker t = .exited := by grind [Function.update_apply]
    exact hs t ht' x (by rw [hq]; exact List.mem_cons_of_mem _ hx)
  | takeExit hw hm hq hr =>
    rw [hq] at hx
    exact absurd hx List.not_mem_nil
  | stop hm ho =>
    have ht' : s.worker t = .exited := by
      dsimp only [notifyAll] at ht
      split at ht
      · cases ht
      · exact ht
    exact hs t ht' x hx
  | _ =>
    have ht' : s.worker t = .exited := by grind [Function.update_apply]
    exact hs t ht' x hx

/-- When nobody has an item in hand, one that is not in the deque has been executed. -/
theorem count_executed_eq_one (hplaced : Placed s) {x : Item p} (hx : s.Enqueued x)
    (hdeque : x ∉ s.deque) (hhand : ∀ t, (s.worker t).hand x = 0) : s.executed.count x = 1 := by
  have hcount := hplaced x
  rw [List.count_eq_zero_of_not_mem hdeque, tally_eq_zero_iff.mpr hhand] at hcount
  have hpushed : pushes s.caller x = 1 := if_pos hx
  omega

/-- **`stop` loses nothing**: what had been pushed when `stop` took the mutex has been
executed when it returns. -/
theorem executed_of_stopped {s₁ s₂ s₃ : State p} {as : List (Action p)} (hinv : Inv s₁)
    (hstop : WorkQueue.step s₁ .stop = some s₂) (hrun : run WorkQueue.step s₂ as = some s₃)
    (hdone : s₃.owner = .stopped) {x : Item p} (hx : s₁.Enqueued x) :
    s₃.executed.count x = 1 := by
  have hmove := moves_of_step hstop
  have hfirst : Inv s₂ ∧ (∀ x, s₁.Enqueued x → s₂.Enqueued x) ∧ Drained s₁.Enqueued s₂ := by
    refine ⟨hinv.step hstop, fun x hx => hmove.enqueued hinv.locked hx, ?_⟩
    apply hmove.drained (fun x hx => hx)
    intro t ht
    have hrunning := hinv.awake.exited t ht
    cases hmove with
    | stop hm ho => simp [hinv.awake.started.mp ho] at hrunning
  have hlast : Inv s₃ ∧ (∀ x, s₁.Enqueued x → s₃.Enqueued x) ∧ Drained s₁.Enqueued s₃ := by
    refine run_invariant (P := fun s => Inv s ∧ (∀ x, s₁.Enqueued x → s.Enqueued x) ∧
      Drained s₁.Enqueued s) ?_ hrun hfirst
    rintro s a t ⟨hs, henq, hdrained⟩ hstep
    have hmove := moves_of_step hstep
    exact ⟨hs.step hstep, fun x hx => hmove.enqueued hs.locked (henq x hx),
      hmove.drained henq hdrained⟩
  obtain ⟨hs, henq, hdrained⟩ := hlast
  have hexited := hs.awake.joined hdone
  apply count_executed_eq_one hs.placed (henq x hx)
  · intro hmem
    exact hdrained ⟨0, p.pos⟩ (hexited _) x hmem hx
  · intro t
    rw [hexited t]
    rfl

/-! ## Progress -/

/-- The steps of workers and callers, other than waking up for no reason. -/
def Action.own : Action p → Bool
  | .wakeCaller _ | .wakeWorker _ | .stop | .join => false
  | _ => true

/-- Waking up for no reason. -/
def Action.spurious : Action p → Bool
  | .wakeCaller _ | .wakeWorker _ => true
  | _ => false

/-- No worker and no caller can go on, unless it wakes up for no reason. -/
def AtRest (s : State p) : Prop := ∀ a : Action p, a.own = true → WorkQueue.step s a = none

theorem addNolock_isSome (s : State p) (item : Item p) :
    ∃ wake, (addNolock s item wake).isSome := by
  by_cases hidle : 0 < s.nIdle
  · by_cases hw : ∃ t, s.worker t = .waiting
    · obtain ⟨t, ht⟩ := hw
      exact ⟨some t, by simp [addNolock, hidle, notifyOne, ht]⟩
    · rw [not_exists] at hw
      exact ⟨none, by simp [addNolock, hidle, notifyOne, hw]⟩
  · exact ⟨none, by simp [addNolock, hidle]⟩

/-- At rest, nobody is in the section under `mtx_`. -/
theorem AtRest.mtx (hrest : AtRest s) (hlocked : Locked s) : s.mtx = none := by
  cases hm : s.mtx with
  | none => rfl
  | some b =>
    have hpushes := (hlocked.holds b).mp hm
    cases hc : s.caller b with
    | pushing i =>
      exfalso
      rcases (hlocked.bound b i hc).lt_or_eq with hi | rfl
      · obtain ⟨wake, hwake⟩ := addNolock_isSome s ⟨i, b⟩
        have hnone := hrest (.push b wake) rfl
        simp only [WorkQueue.step, hc, if_pos hi, Option.map_eq_none_iff] at hnone
        rw [hnone] at hwake
        cases hwake
      · have hnone := hrest (.unlock b) rfl
        simp [WorkQueue.step, hc] at hnone
    | _ => simp [hc, Caller.pushes] at hpushes

/-- At rest, a caller waits for its batch or has returned. -/
theorem AtRest.caller (hrest : AtRest s) (hs : Inv s) (hrunning : s.running = true)
    (b : Fin p.nBatches) : s.caller b = .waiting ∨ s.caller b = .returned := by
  have hm := hrest.mtx hs.locked
  have howner : s.owner ≠ .stopped := by
    rw [hs.awake.started.mpr hrunning]
    decide
  cases hc : s.caller b with
  | idle =>
    have hnone := hrest (.call b) rfl
    simp [WorkQueue.step, hc, howner] at hnone
  | called =>
    have hnone := hrest (.lock b) rfl
    simp [WorkQueue.step, hc, hm] at hnone
  | pushing i =>
    have hholds := (hs.locked.holds b).mpr (by rw [hc]; rfl)
    rw [hm] at hholds
    cases hholds
  | checking =>
    have hnone := hrest (.check b) rfl
    simp [WorkQueue.step, hc] at hnone
  | waiting => exact Or.inl rfl
  | returned => exact Or.inr rfl

/-- At rest, every worker waits for an item. -/
theorem AtRest.worker (hrest : AtRest s) (hs : Inv s) (hrunning : s.running = true)
    (t : Fin p.nThreads) : s.worker t = .waiting := by
  have hm := hrest.mtx hs.locked
  cases hw : s.worker t with
  | ready | woken =>
    have hnone := hrest (.take t) rfl
    simp [WorkQueue.step, hm, hw] at hnone
  | processing item =>
    have hnone := hrest (.exec t) rfl
    simp [WorkQueue.step, hw] at hnone
  | finishing item =>
    have hnone := hrest (.finish t) rfl
    simp [WorkQueue.step, hw] at hnone
  | exited =>
    have hstopped := hs.awake.exited t hw
    rw [hrunning] at hstopped
    cases hstopped
  | waiting => rfl

/-- **No deadlock.**  Before `stop`, the threads come to rest only when every call has
returned. -/
theorem AtRest.returned (hrest : AtRest s) (hs : Inv s) (hrunning : s.running = true)
    (b : Fin p.nBatches) : s.caller b = .returned := by
  rcases hrest.caller hs hrunning b with hc | hc
  · exfalso
    have hdeque : s.deque = [] := by
      by_contra hne
      obtain ⟨t, ht⟩ := hs.awake.awake hne
      exact ht (hrest.worker hs hrunning t)
    have hexecuted : ∀ i < p.num b, i ∈ s.ids b := by
      intro i hi
      have hone : s.executed.count ⟨i, b⟩ = 1 := by
        apply count_executed_eq_one hs.placed
        · rw [State.Enqueued, hc]
          exact hi
        · rw [hdeque]
          exact List.not_mem_nil
        · intro t
          rw [hrest.worker hs hrunning t]
          rfl
      exact mem_ids.mpr (List.count_pos_iff.mp (by omega))
    have hfinished : s.nFinished b = s.executed.countP fun x => x.batch = b := by
      rw [← hs.counted b, tally_eq_zero_iff.mpr, Nat.add_zero]
      intro t
      rw [hrest.worker hs hrunning t]
      rfl
    have hlength : p.num b ≤ (s.ids b).length := by
      have hsub := List.subperm_of_subset List.nodup_range
        (fun i hi => hexecuted i (List.mem_range.mp hi))
      simpa using hsub.length_le
    have hle := finished_le hs.locked hs.placed hs.counted b
    apply hs.notified.waits b hc
    rw [length_ids, ← hfinished] at hlength
    omega
  · exact hc

/-! ## The length of runs -/

/-- How many steps a caller and its items can still cause. -/
def Caller.work (num : ℕ) : Caller → ℕ
  | .idle => 6 * num + 4
  | .called => 6 * num + 3
  | .pushing i => 6 * (num - i) + 2
  | .checking => 1
  | .waiting | .returned => 0

/-- How many steps a worker and the item in its hand can still cause. -/
def Worker.work : Worker p → ℕ
  | .ready | .woken => 1
  | .processing _ => 4
  | .finishing _ => 3
  | .waiting | .exited => 0

/-- How many steps `stop` can still cause. -/
def Owner.work (nThreads : ℕ) : Owner → ℕ
  | .started => nThreads + 2
  | .joining => 1
  | .stopped => 0

/-- A bound on the number of steps that are not spurious wake-ups. -/
def State.work (s : State p) : ℕ :=
  (∑ b, (s.caller b).work (p.num b)) + tally Worker.work s.worker + 4 * s.deque.length +
    s.owner.work p.nThreads

theorem work_notifyAll (w : Fin p.nThreads → Worker p) :
    tally Worker.work (notifyAll w) ≤ tally Worker.work w + p.nThreads := by
  have hone : ∀ t, (notifyAll w t).work ≤ (w t).work + 1 := by
    intro t
    unfold notifyAll
    split
    · exact Nat.le_add_left _ _
    · exact Nat.le_add_right _ _
  calc tally Worker.work (notifyAll w) ≤ ∑ t, ((w t).work + 1) :=
        Finset.sum_le_sum fun t _ => hone t
    _ = tally Worker.work w + p.nThreads := by
        rw [Finset.sum_add_distrib]
        simp [tally]

theorem work_of_ready {w : Worker p} (hw : w = .ready ∨ w = .woken) : w.work = 1 := by
  rcases hw with rfl | rfl <;> rfl

/-- A caller moves. -/
theorem work_caller (caller : Fin p.nBatches → Caller) (b : Fin p.nBatches) (c : Caller) :
    (∑ x, (Function.update caller b c x).work (p.num x)) + (caller b).work (p.num b) =
      (∑ x, (caller x).work (p.num x)) + c.work (p.num b) :=
  sum_update (fun b c => Caller.work (p.num b) c) caller b c

/-- Every step but a spurious wake-up uses up some of the work. -/
theorem Moves.work (h : Moves s a s') : s'.work + 1 ≤ s.work + if a.spurious then 2 else 0 := by
  unfold State.work
  cases h with
  | @call b hc =>
    have hcaller := work_caller s.caller b .called
    simp only [hc, Caller.work, Action.spurious] at hcaller ⊢
    omega
  | @lock b hc =>
    have hcaller := work_caller s.caller b (.pushing 0)
    simp only [hc, Caller.work, Action.spurious] at hcaller ⊢
    omega
  | @pushQuiet b i hc hi =>
    have hcaller := work_caller s.caller b (.pushing (i + 1))
    simp only [hc, Caller.work, Action.spurious, List.length_append, List.length_singleton]
      at hcaller ⊢
    omega
  | @pushWake b i t hc hi hw =>
    have hcaller := work_caller s.caller b (.pushing (i + 1))
    have hworker := tally_update Worker.work s.worker t .woken
    simp only [hc, hw, Caller.work, Worker.work, Action.spurious, List.length_append,
      List.length_singleton] at hcaller hworker ⊢
    omega
  | @unlock b hc =>
    have hcaller := work_caller s.caller b .checking
    simp only [hc, Caller.work, Action.spurious] at hcaller ⊢
    omega
  | @checkDone b hc =>
    have hcaller := work_caller s.caller b .returned
    simp only [hc, Caller.work, Action.spurious] at hcaller ⊢
    omega
  | @checkWait b hc =>
    have hcaller := work_caller s.caller b .waiting
    simp only [hc, Caller.work, Action.spurious] at hcaller ⊢
    omega
  | @wakeCaller b hc =>
    have hcaller := work_caller s.caller b .checking
    simp only [hc, Caller.work, Action.spurious, if_true] at hcaller ⊢
    omega
  | @takeItem t item rest ht hm hq =>
    have hworker := tally_update Worker.work s.worker t (.processing item)
    rw [work_of_ready ht] at hworker
    simp only [hq, Worker.work, Action.spurious, List.length_cons] at hworker ⊢
    omega
  | @takeWait t ht =>
    have hworker := tally_update Worker.work s.worker t .waiting
    rw [work_of_ready ht] at hworker
    simp only [Worker.work, Action.spurious] at hworker ⊢
    omega
  | @takeExit t ht =>
    have hworker := tally_update Worker.work s.worker t .exited
    rw [work_of_ready ht] at hworker
    simp only [Worker.work, Action.spurious] at hworker ⊢
    omega
  | @exec t item ht =>
    have hworker := tally_update Worker.work s.worker t (.finishing item)
    simp only [ht, Worker.work, Action.spurious] at hworker ⊢
    omega
  | @finishQuiet t item ht =>
    have hworker := tally_update Worker.work s.worker t .ready
    simp only [ht, Worker.work, Action.spurious] at hworker ⊢
    omega
  | @finishWake t item ht hd hc =>
    have hcaller := work_caller s.caller item.batch .checking
    have hworker := tally_update Worker.work s.worker t .ready
    simp only [ht, hc, Caller.work, Worker.work, Action.spurious] at hcaller hworker ⊢
    omega
  | @wakeWorker t ht =>
    have hworker := tally_update Worker.work s.worker t .woken
    simp only [ht, Worker.work, Action.spurious, if_true] at hworker ⊢
    omega
  | stop hm ho =>
    have hall := work_notifyAll s.worker
    simp only [ho, Owner.work, Action.spurious] at hall ⊢
    omega
  | join ho =>
    simp only [ho, Owner.work, Action.spurious]
    omega

/-- **Runs end**, as long as threads do not wake up for no reason again and again. -/
theorem length_run_le {as : List (Action p)} (h : run WorkQueue.step (start p) as = some s) :
    as.length ≤ ∑ b, (6 * p.num b + 4) + 2 * p.nThreads + 2 + 2 * as.countP Action.spurious := by
  have hdown : ∀ (s : State p) a t, WorkQueue.step s a = some t → a.spurious = false →
      t.work < s.work := by
    intro s a t hstep hown
    have hwork := (moves_of_step hstep).work
    rw [hown] at hwork
    exact hwork
  have hfree : ∀ (s : State p) a t, WorkQueue.step s a = some t → a.spurious = true →
      t.work ≤ s.work + 1 := by
    intro s a t hstep hspurious
    have hwork := (moves_of_step hstep).work
    rw [if_pos hspurious] at hwork
    omega
  have hlength := run_length_le hdown hfree h
  have hstart : (start p).work = ∑ b, (6 * p.num b + 4) + 2 * p.nThreads + 2 := by
    simp [State.work, start, Caller.work, Worker.work, Owner.work, tally]
    omega
  omega

/-! ## What the callers rely on -/

theorem Inv.count_ids (hs : Inv s) {b : Fin p.nBatches} (hc : s.caller b = .returned) {i : ℕ}
    (hi : i < p.num b) : s.executed.count ⟨i, b⟩ = 1 := by
  have hperm := ids_perm hs.locked hs.placed hs.counted (hs.notified.returned b hc)
  have hmem : (⟨i, b⟩ : Item p) ∈ s.executed :=
    mem_ids.mp (hperm.mem_iff.mpr (List.mem_range.mpr hi))
  have hpos := List.count_pos_iff.mpr hmem
  have hle := count_executed_le hs.placed ⟨i, b⟩
  omega

/-- **The work queue protocol.**  After every interleaving, with any number of workers and
callers: no item has been executed twice, and none that is not an item of a batch; before
`stop` the threads rest only when every item has been executed once and every call has
returned, and they do come to rest; a call that has returned has had its items executed; no
wake-up is lost on either condition variable; and `stop` returns only when all that was
pushed before it has been executed. -/
theorem protocol {as : List (Action p)} (h : run WorkQueue.step (start p) as = some s) :
    (∀ x, s.executed.count x ≤ if x.id < p.num x.batch then 1 else 0) ∧
    (s.running = true → AtRest s →
      ∀ b, s.caller b = .returned ∧ ∀ i < p.num b, s.executed.count ⟨i, b⟩ = 1) ∧
    as.length ≤ ∑ b, (6 * p.num b + 4) + 2 * p.nThreads + 2 + 2 * as.countP Action.spurious ∧
    (∀ b, s.caller b = .returned → ∀ i < p.num b, s.executed.count ⟨i, b⟩ = 1) ∧
    ¬ (s.deque ≠ [] ∧ ∀ t, s.worker t = .waiting) ∧
    (∀ b, ¬ (s.done b = true ∧ s.caller b = .waiting)) ∧
    (∀ as₁ as₂ s₁, as = as₁ ++ .stop :: as₂ → run WorkQueue.step (start p) as₁ = some s₁ →
      s.owner = .stopped → ∀ x, s₁.Enqueued x → s.executed.count x = 1) := by
  have hs := inv_of_run h
  refine ⟨?_, ?_, length_run_le h, ?_, ?_, ?_, ?_⟩
  · intro x
    split
    · exact count_executed_le hs.placed x
    · next hx =>
      rw [Nat.le_zero, List.count_eq_zero]
      intro hmem
      have henq := enqueued_of_mem_executed hs.placed hmem
      exact hx (lt_of_lt_of_le henq (pushed_le hs.locked x.batch))
  · intro hrunning hrest b
    have hc := hrest.returned hs hrunning b
    exact ⟨hc, fun i hi => hs.count_ids hc hi⟩
  · intro b hc i hi
    exact hs.count_ids hc hi
  · rintro ⟨hdeque, hwaiting⟩
    obtain ⟨t, ht⟩ := hs.awake.awake hdeque
    exact ht (hwaiting t)
  · rintro b ⟨hdone, hc⟩
    exact hs.notified.waits b hc (of_decide_eq_true hdone)
  · rintro as₁ as₂ s₁ rfl h₁ howner x hx
    obtain ⟨u, hu, hrun⟩ := run_append_eq_some.mp h
    rw [h₁] at hu
    cases hu
    obtain ⟨s₂, hstop, hrest⟩ := run_cons_eq_some.mp hrun
    exact executed_of_stopped (inv_of_run h₁) hstop hrest howner hx

/-- Two workers, a call with two items and a call with one. -/
def pair : Setup := ⟨2, by decide, 2, fun b => if b = 0 then 2 else 1⟩

/-- The first worker waits and is notified for the first of three items; the other worker
takes that item away from it. -/
def pairBefore (t t' : Fin pair.nThreads) (b b' : Fin pair.nBatches) : List (Action pair) :=
  [.take t, .call b, .call b', .lock b, .push b (some t), .push b none, .unlock b, .check b,
    .take t', .lock b', .push b' none, .unlock b']

/-- Behind `stop` the workers execute what is left; the first caller has to be notified. -/
def pairAfter (t t' : Fin pair.nThreads) (b b' : Fin pair.nBatches) : List (Action pair) :=
  [.take t, .exec t', .finish t', .take t', .exec t, .finish t, .check b, .exec t', .finish t',
    .check b', .take t, .take t', .join]

/-- Both calls return, and so does `stop`. -/
theorem protocol_pair :
    let before := pairBefore ⟨0, by decide⟩ ⟨1, by decide⟩ ⟨0, by decide⟩ ⟨1, by decide⟩
    let after := pairAfter ⟨0, by decide⟩ ⟨1, by decide⟩ ⟨0, by decide⟩ ⟨1, by decide⟩
    ∃ s₁ s, run WorkQueue.step (start pair) before = some s₁ ∧
      run WorkQueue.step (start pair) (before ++ .stop :: after) = some s ∧
      (∀ b, s.caller b = .returned ∧ ∀ i < pair.num b, s.executed.count ⟨i, b⟩ = 1) ∧
      s.owner = .stopped ∧ ∀ x, s₁.Enqueued x → s.executed.count x = 1 := by
  intro before after
  have hsome₁ : (run WorkQueue.step (start pair) before).isSome = true := by decide
  have hsome : (run WorkQueue.step (start pair) (before ++ .stop :: after)).isSome = true := by decide
  obtain ⟨s₁, hs₁⟩ := Option.isSome_iff_exists.mp hsome₁
  obtain ⟨s, hs⟩ := Option.isSome_iff_exists.mp hsome
  have hends : (some s).all (fun s => decide ((∀ b, s.caller b = .returned) ∧ s.owner = .stopped)) := by
    rw [← hs]
    decide
  obtain ⟨hreturned, howner⟩ := of_decide_eq_true hends
  obtain ⟨-, -, -, hcalls, -, -, hstop⟩ := protocol hs
  exact ⟨s₁, s, hs₁, hs, fun b => ⟨hreturned b, hcalls b (hreturned b)⟩, howner,
    hstop before after s₁ rfl hs₁ howner⟩

/-- The calls of a batch's job function, with the thread that made each. -/
def State.calls (s : State p) (b : Fin p.nBatches) : List (Fin p.nThreads × ℕ) :=
  (s.log.filter fun c => c.2.batch = b).map fun c => (c.1, c.2.id)

/-- The calls that `run_batch_job` makes for `num` items: each item once, in any order, on
any thread. -/
structure Schedule (nThreads num : ℕ) where
  calls : List (Fin nThreads × ℕ)
  items : (calls.map Prod.snd).Perm (List.range num)

/-- When a call of `run_batch_job` returns, its items have been executed by a schedule. -/
theorem exists_schedule {as : List (Action p)} (h : run WorkQueue.step (start p) as = some s)
    {b : Fin p.nBatches} (hc : s.caller b = .returned) :
    ∃ sched : Schedule p.nThreads (p.num b), sched.calls = s.calls b := by
  have hs := inv_of_run h
  have hids : (s.calls b).map Prod.snd = s.ids b := by
    simp [State.calls, State.ids, State.executed, List.filter_map, Function.comp_def]
  refine ⟨⟨s.calls b, ?_⟩, rfl⟩
  rw [hids]
  exact ids_perm hs.locked hs.placed hs.counted (hs.notified.returned b hc)

end WorkQueue

end GenTree

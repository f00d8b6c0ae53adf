import GenTree.Steps

/-!
# The queues

Which records wait where.  `Queue` is what holds of `v_this_iter`, `v_next_iter`
and `v_uniq` between any two steps, `Flagged` and `Awaiting` are what holds in
addition inside the loops of `run_iter`, and `Settled` says that no record that is
due to be rebuilt has been forgotten.  Together they are the reason why the
re-check never comes upon a null tree.

No assumption is made about the hash of a location.  A record that is linked and
ignored would break the queues when it is unlinked again; that there is none at
the beginning of an iteration is a hypothesis here (`NoneLost`).
-/

namespace GenTree

open Outcome Leaders

section Queue

variable {Name Hash : Type} [DecidableEq Name] [DecidableEq Hash] {env : Env Name Hash}

/-- The record `j` is there, unlinked, and not ignored. -/
def St.Live (s : St Name Hash) (j : ℕ) : Prop :=
  ∃ d, s.vLocData[j]? = some d ∧ d.linked = false ∧ d.ignored = false

/-- The lists of records. -/
structure Queue (s : St Name Hash) : Prop where
  this_nodup : s.vThisIter.Nodup
  this_dat : ∀ j ∈ s.vThisIter, j < s.vLocData.length
  next_nodup : s.vNextIter.Nodup
  next_live : ∀ j ∈ s.vNextIter, s.Live j
  uniq_nodup : s.vUniq.Nodup
  uniq_unlinked : ∀ j ∈ s.vUniq, ∃ d, s.vLocData[j]? = some d ∧ d.linked = false

/-- In the loops of `run_iter`, `queued_next` says who is in `v_next_iter`. -/
def Flagged (s : St Name Hash) : Prop :=
  ∀ (j : ℕ) (d : LocData), s.vLocData[j]? = some d → (d.queuedNext = true ↔ j ∈ s.vNextIter)

/-- The records of `v_this_iter` from the `k`-th on wait for their turn. -/
def Awaiting (s : St Name Hash) (k : ℕ) : Prop :=
  ∀ j ∈ s.vThisIter.drop k, j ∉ s.vNextIter ∧
    ∀ d, s.vLocData[j]? = some d → d.ignored = false

/-- A record that is due to be rebuilt is in `v_next_iter`, or is one of `pending`. -/
def Settled (s : St Name Hash) (pending : List ℕ) : Prop :=
  ∀ (j : ℕ) (d : LocData), s.vLocData[j]? = some d → d.linked = false → d.ignored = false →
    d.needRebuild = true → j ∈ s.vNextIter ∨ j ∈ pending

/-- No linked record is ignored. -/
def NoneLost (s : St Name Hash) : Prop :=
  ∀ d ∈ s.vLocData, d.linked = true → d.ignored = false

/-- A record beside the one that is overwritten. -/
theorem exists_getElem?_set {α : Type} {l : List α} {i j : ℕ} {a b c : α} (hj : l[j]? = some a)
    (hi : l[i]? = some c) : ∃ c', (l.set j b)[i]? = some c' ∧
      (i = j ∧ c = a ∧ c' = b ∨ i ≠ j ∧ c' = c) := by
  by_cases hij : i = j
  · subst hij
    rw [hj, Option.some.injEq] at hi
    exact ⟨b, List.getElem?_set_self (List.getElem?_eq_some_iff.mp hj).1, .inl ⟨rfl, hi.symm, rfl⟩⟩
  · exact ⟨c, by rw [List.getElem?_set_ne (fun heq => hij heq.symm), hi], .inr ⟨hij, rfl⟩⟩

theorem mem_drop_of_getElem? {α : Type} {l : List α} {k : ℕ} {a : α} (h : l[k]? = some a) :
    l.drop k = a :: l.drop (k + 1) := by
  obtain ⟨hlt, rfl⟩ := List.getElem?_eq_some_iff.mp h
  exact List.drop_eq_getElem_cons hlt

/-! ## Frames -/

namespace Queue

variable {s s' : St Name Hash}

omit [DecidableEq Name] [DecidableEq Hash]

/-- Steps that touch neither a list nor a record. -/
theorem of_eq (h : Queue s) (hdat : s'.vLocData = s.vLocData) (hthis : s'.vThisIter = s.vThisIter)
    (hnext : s'.vNextIter = s.vNextIter) (huniq : s'.vUniq = s.vUniq) : Queue s' := by
  obtain ⟨h₁, h₂, h₃, h₄, h₅, h₆⟩ := h
  exact ⟨by rwa [hthis], by rwa [hthis, hdat], by rwa [hnext],
    by simp only [St.Live, hdat, hnext]; exact h₄, by rwa [huniq], by rwa [huniq, hdat]⟩

/-- Steps that touch no list and keep the records that are in `v_next_iter` live. -/
theorem of_dat (h : Queue s) (hlen : s'.vLocData.length = s.vLocData.length)
    (hthis : s'.vThisIter = s.vThisIter)
    (hnext : s'.vNextIter = s.vNextIter) (huniq : s'.vUniq = s.vUniq)
    (hdat : ∀ (j : ℕ) (d : LocData), s.vLocData[j]? = some d → ∃ d', s'.vLocData[j]? = some d' ∧
      d'.parent = d.parent ∧ (j ∈ s.vNextIter → d'.ignored = d.ignored)) : Queue s' where
  this_nodup := by rw [hthis]; exact h.this_nodup
  this_dat := by rw [hthis, hlen]; exact h.this_dat
  next_nodup := by rw [hnext]; exact h.next_nodup
  next_live j hj := by
    rw [hnext] at hj
    obtain ⟨d, hd, hlinked, hign⟩ := h.next_live j hj
    obtain ⟨d', hd', hparent, hsame⟩ := hdat j d hd
    exact ⟨d', hd', by rwa [LocData.linked, hparent], by rw [hsame hj, hign]⟩
  uniq_nodup := by rw [huniq]; exact h.uniq_nodup
  uniq_unlinked j hj := by
    rw [huniq] at hj
    obtain ⟨d, hd, hlinked⟩ := h.uniq_unlinked j hj
    obtain ⟨d', hd', hparent, -⟩ := hdat j d hd
    exact ⟨d', hd', by rwa [LocData.linked, hparent]⟩

/-- Steps that change one record that is not in `v_next_iter`. -/
theorem set (h : Queue s) {j : ℕ} {d d' : LocData} (hd : s.vLocData[j]? = some d)
    (hdat : s'.vLocData = s.vLocData.set j d') (hparent : d'.parent = d.parent)
    (hign : d'.ignored = d.ignored ∨ j ∉ s.vNextIter) (hthis : s'.vThisIter = s.vThisIter)
    (hnext : s'.vNextIter = s.vNextIter) (huniq : s'.vUniq = s.vUniq) : Queue s' := by
  refine h.of_dat (by rw [hdat, List.length_set]) hthis hnext huniq fun i e he => ?_
  rw [hdat]
  obtain ⟨e', he', ⟨rfl, rfl, rfl⟩ | ⟨-, rfl⟩⟩ := exists_getElem?_set (b := d') hd he
  · exact ⟨_, he', hparent, fun hmem => hign.resolve_right fun hnot => hnot hmem⟩
  · exact ⟨_, he', rfl, fun _ => rfl⟩

/-- A record is put into `v_next_iter`. -/
theorem push (h : Queue s) {j : ℕ} (hj : j ∉ s.vNextIter) (hlive : s.Live j) :
    Queue { s with vNextIter := s.vNextIter ++ [j] } where
  this_nodup := h.this_nodup
  this_dat := h.this_dat
  next_nodup := by
    refine List.Nodup.append h.next_nodup (List.nodup_singleton j) ?_
    simpa using hj
  next_live i hi := by
    rcases List.mem_append.mp hi with hi | hi
    · exact h.next_live i hi
    · rw [List.mem_singleton.mp hi]
      exact hlive
  uniq_nodup := h.uniq_nodup
  uniq_unlinked := h.uniq_unlinked

/-- **`enqueue_all`** finds the queue empty. -/
theorem enqueueAll (h : Queue s) (hnil : s.vNextIter = []) : Queue s.enqueueAll where
  this_nodup := h.this_nodup
  this_dat := h.this_dat
  next_nodup := by
    rw [St.enqueueAll, hnil, List.nil_append]
    exact h.uniq_nodup.filter _
  next_live j hj := by
    rw [St.enqueueAll, hnil, List.nil_append] at hj
    obtain ⟨hmem, hign⟩ := List.mem_filter.mp hj
    obtain ⟨d, hd, hlinked⟩ := h.uniq_unlinked j hmem
    rw [hd] at hign
    exact ⟨d, hd, hlinked, by simpa using hign⟩
  uniq_nodup := h.uniq_nodup
  uniq_unlinked := h.uniq_unlinked

end Queue

/-! ## The beginning of an iteration -/

theorem PreparedAs.ignored {keys : List Hash} {old : List LocData} {j : ℕ} {d' : LocData}
    (h : PreparedAs keys old j d') : d'.ignored = (old[j]?.getD { loc := j }).ignored := by
  cases h with
  | linked _ _ _ hign _ => exact hign
  | kept _ hd _ => rw [hd, Option.getD_some]
  | new _ _ _ _ hign _ => exact hign

theorem PreparedAs.linked_iff {keys : List Hash} {old : List LocData} {j : ℕ} {d' : LocData}
    (h : PreparedAs keys old j d') : d'.linked = true ↔ leader keys j < j := by
  cases h with
  | linked hlt hparent _ _ _ => simp [LocData.linked, hparent, hlt]
  | kept hleads _ hunlinked => simp [hleads, hunlinked]
  | new hleads _ hparent _ _ _ => simp [LocData.linked, hparent, hleads]

omit [DecidableEq Name] in
theorem mem_newLeaders {s : St Name Hash} {j : ℕ} :
    j ∈ (List.range s.cov.nLocs).filter (isNewLeader (s.keys env) s.vLocData) ↔
      j < s.cov.nLocs ∧ leader (s.keys env) j = j ∧
        ∀ d, s.vLocData[j]? = some d → d.linked = true := by
  rw [List.mem_filter, List.mem_range, isNewLeader, Bool.and_eq_true, beq_iff_eq]
  refine and_congr_right fun _ => and_congr_right fun _ => ?_
  cases s.vLocData[j]? <;> simp

omit [DecidableEq Name] in
/-- **`v_this_iter` has no duplicates**, whatever the hash: the records from the last
iteration are unlinked, and the new ones were linked or not there. -/
theorem Queue.started_nodup {s : St Name Hash} (h : Queue s) :
    (s.started env).vThisIter.Nodup := by
  refine List.Nodup.append h.next_nodup (List.nodup_range.filter _) fun j hnext hnew => ?_
  obtain ⟨d, hd, hlinked, -⟩ := h.next_live j hnext
  have hlinked' := (mem_newLeaders.mp hnew).2.2 d hd
  rw [hlinked] at hlinked'
  cases hlinked'

theorem Queue.started {s : St Name Hash} (hs : Base env s) (h : Queue s)
    (hnodup : (s.started env).vThisIter.Nodup) : Queue (s.started env) where
  this_nodup := hnodup
  this_dat j hj := by
    have hlen : (s.started env).vLocData.length = s.cov.nLocs := by simp [St.started]
    rw [hlen]
    rcases List.mem_append.mp hj with hj | hj
    · obtain ⟨d, hd, -⟩ := h.next_live j hj
      have := (List.getElem?_eq_some_iff.mp hd).1
      have := hs.length_le
      omega
    · exact (mem_newLeaders.mp hj).1
  next_nodup := List.nodup_nil
  next_live j hj := nomatch hj
  uniq_nodup := List.nodup_range.filter _
  uniq_unlinked j hj := by
    obtain ⟨hlt, hleads⟩ := List.mem_filter.mp hj
    rw [beq_iff_eq] at hleads
    refine ⟨{ prepared (s.keys env) s.vLocData j with queuedNext := false }, ?_, ?_⟩
    · rw [St.started, List.getElem?_map, List.getElem?_range (List.mem_range.mp hlt),
        Option.map_some]
    · have hiff := (preparedAs_prepared (s.keys env) s.vLocData j).linked_iff
      rw [hleads] at hiff
      simpa [LocData.linked] using hiff

omit [DecidableEq Name] in
theorem flagged_started (s : St Name Hash) : Flagged (s.started env) := by
  intro j d hd
  obtain ⟨-, d₀, -, rfl⟩ := St.started_dat hd
  simp [St.started]

omit [DecidableEq Name] in
/-- Nobody who waits for a turn is ignored. -/
theorem Queue.awaiting_started {s : St Name Hash} (h : Queue s) (hlost : NoneLost s) :
    Awaiting (s.started env) 0 := by
  intro j hj
  rw [List.drop_zero] at hj
  refine ⟨List.not_mem_nil, fun d hd => ?_⟩
  obtain ⟨-, d₀, hd₀, rfl⟩ := St.started_dat hd
  refine hd₀.ignored.trans ?_
  rcases List.mem_append.mp hj with hj | hj
  · obtain ⟨e, he, -, hign⟩ := h.next_live j hj
    rw [he, Option.getD_some, hign]
  · cases he : s.vLocData[j]? with
    | none => rfl
    | some e => exact hlost e (List.mem_of_getElem? he) ((mem_newLeaders.mp hj).2.2 e he)

omit [DecidableEq Name] in
theorem Settled.started {s : St Name Hash} (h : Settled s []) :
    Settled (s.started env) ((s.started env).vThisIter.drop 0) := by
  intro j d hd hlinked hign hneed
  obtain ⟨hlt, d₀, hd₀, rfl⟩ := St.started_dat hd
  refine .inr (List.mem_append.mpr ?_)
  cases hd₀ with
  | linked _ hparent _ _ _ =>
      rw [LocData.linked, hparent] at hlinked
      cases hlinked
  | kept _ he hunlinked =>
      exact .inl ((h j _ he hunlinked hign hneed).resolve_right List.not_mem_nil)
  | new _ hnew _ _ _ _ => exact .inr (List.mem_filter.mpr ⟨List.mem_range.mpr hlt, hnew⟩)

/-! ## One record moves -/

/-- What happens to the record `j` and to `v_next_iter` in a turn or in the re-check,
`d` before and `d'` after it. -/
inductive Moves (j : ℕ) (d d' : LocData) (s s' : St Name Hash) : Prop
  | stays (vNextIter : s'.vNextIter = s.vNextIter) (ignored : d'.ignored = d.ignored)
      (queuedNext : d'.queuedNext = d.queuedNext)
  | ignored (vNextIter : s'.vNextIter = s.vNextIter) (ignored : d'.ignored = true)
      (queuedNext : d'.queuedNext = d.queuedNext) (needRebuild : d'.needRebuild = true)
  | queued (vNextIter : s'.vNextIter = s.vNextIter ++ [j]) (ignored : d'.ignored = false)
      (queuedNext : d'.queuedNext = true)

/-- The unlinked record `j` has moved, and no other record has changed. -/
structure Moved (j : ℕ) (d d' : LocData) (s s' : St Name Hash) : Prop where
  dat : s.vLocData[j]? = some d
  vLocData : s'.vLocData = s.vLocData.set j d'
  grows : s.cov.Grows s'.cov
  linked : d.linked = false
  parent : d'.parent = d.parent
  vThisIter : s'.vThisIter = s.vThisIter
  vUniq : s'.vUniq = s.vUniq
  prevNConf : s'.prevNConf = s.prevNConf
  moves : Moves j d d' s s'

omit [DecidableEq Hash] in
theorem Turned.moved {Good : CTree → Prop} {j : ℕ} {d d' : LocData} {s s' : St Name Hash}
    {interrupted : Bool} (h : Turned env Good j d s s' interrupted d')
    (hd : s.vLocData[j]? = some d) : Moved j d d' s s' := by
  refine ⟨hd, h.vLocData, h.grows, h.linked, h.parent, h.vThisIter, h.vUniq,
    h.prevNConf, ?_⟩
  cases h.queueing with
  | interrupted _ hnext hign hqueued => exact .stays hnext hign hqueued
  | finished hnext hign hqueued _ => exact .stays hnext hign hqueued
  | ignored hnext hign hqueued hneed => exact .ignored hnext hign hqueued hneed
  | queued hnext hign hqueued => exact .queued hnext hign hqueued

omit [DecidableEq Name] [DecidableEq Hash] in
theorem Rechecked.moved {c : Config} {k : ℕ} {it it' : List ℕ} {s s' : St Name Hash}
    (h : Rechecked env c k it s s' it') :
    s' = s ∨ ∃ d d', Moved k d d' s s' ∧ d.queuedNext = false ∧ d.ignored = false ∧
      (d'.needRebuild = true → d'.ignored = false → d.needRebuild = true ∨ k ∈ s'.vNextIter) := by
  cases h with
  | absent _ => exact .inl rfl
  | skipped _ _ => exact .inl rfl
  | right hd hlinked hqueued hign _ _ _ =>
      exact .inr ⟨_, _, ⟨hd, rfl, .refl _, hlinked, rfl, rfl, rfl, rfl, .stays rfl rfl rfl⟩,
        hqueued, hign, fun hneed _ => .inl hneed⟩
  | wrong hd hlinked hqueued hign henq =>
      cases henq with
      | ignored _ hparent hqueued' hign' hneed hstate =>
          subst hstate
          exact .inr ⟨_, _, ⟨hd, by simp [St.setDat], .refl _, hlinked, hparent, rfl, rfl, rfl,
            .ignored rfl hign' hqueued' hneed⟩, hqueued, hign,
            fun _ hfalse => by simp [hign'] at hfalse⟩
      | queued _ hparent hqueued' hign' _ _ hstate =>
          subst hstate
          exact .inr ⟨_, _, ⟨hd, by simp [St.setDat], .refl _, hlinked, hparent, rfl, rfl, rfl,
            .queued rfl hign' hqueued'⟩, hqueued, hign, fun _ _ => .inr (by simp)⟩

namespace Moved

variable {j : ℕ} {d d' : LocData} {s s' : St Name Hash}

omit [DecidableEq Name] [DecidableEq Hash]

/-- The record that has moved. -/
theorem dat' (h : Moved j d d' s s') : s'.vLocData[j]? = some d' := by
  rw [h.vLocData, List.getElem?_set_self (List.getElem?_eq_some_iff.mp h.dat).1]

/-- The other records are what they were. -/
theorem of_ne (h : Moved j d d' s s') {i : ℕ} (hij : i ≠ j) :
    s'.vLocData[i]? = s.vLocData[i]? := by
  rw [h.vLocData, List.getElem?_set_ne (fun heq => hij heq.symm)]

theorem mem_vNextIter (h : Moved j d d' s s') {i : ℕ} (hi : i ∈ s.vNextIter) :
    i ∈ s'.vNextIter := by
  cases h.moves with
  | stays hnext _ _ => rwa [hnext]
  | ignored hnext _ _ _ => rwa [hnext]
  | queued hnext _ _ => rw [hnext]; exact List.mem_append_left _ hi

theorem mem_vNextIter_iff (h : Moved j d d' s s') {i : ℕ} (hij : i ≠ j) :
    i ∈ s'.vNextIter ↔ i ∈ s.vNextIter := by
  cases h.moves with
  | stays hnext _ _ => rw [hnext]
  | ignored hnext _ _ _ => rw [hnext]
  | queued hnext _ _ => simp [hnext, hij]

theorem queue (h : Moved j d d' s s') (hs : Queue s) (hj : j ∉ s.vNextIter) : Queue s' := by
  cases h.moves with
  | stays hnext hign _ =>
      exact hs.set h.dat h.vLocData h.parent (.inl hign) h.vThisIter hnext h.vUniq
  | ignored hnext _ _ _ =>
      exact hs.set h.dat h.vLocData h.parent (.inr hj) h.vThisIter hnext h.vUniq
  | queued hnext hign _ =>
      have hset : Queue { s' with vNextIter := s.vNextIter } :=
        hs.set h.dat h.vLocData h.parent (.inr hj) h.vThisIter rfl h.vUniq
      have hlinked : d'.linked = false := by rw [LocData.linked, h.parent]; exact h.linked
      exact (hset.push hj ⟨d', h.dat', hlinked, hign⟩).of_eq rfl rfl hnext rfl

theorem flagged (h : Moved j d d' s s') (hs : Flagged s) : Flagged s' := by
  intro i e he
  by_cases hij : i = j
  · subst hij
    rw [h.dat', Option.some.injEq] at he
    subst he
    have hflag := hs i d h.dat
    cases h.moves with
    | stays hnext _ hqueued => rwa [hqueued, hnext]
    | ignored hnext _ hqueued _ => rwa [hqueued, hnext]
    | queued hnext _ hqueued => simp [hqueued, hnext]
  · rw [h.of_ne hij] at he
    rw [h.mem_vNextIter_iff hij]
    exact hs i e he

/-- Those who come later still wait. -/
theorem awaiting (h : Moved j d d' s s') (hs : Queue s) {k : ℕ} (hk : s.vThisIter[k]? = some j)
    (hwait : Awaiting s k) : Awaiting s' (k + 1) := by
  intro i hi
  rw [h.vThisIter] at hi
  have hdrop := mem_drop_of_getElem? hk
  have hne : i ≠ j := by
    rintro rfl
    have hnodup := hs.this_nodup.sublist (List.drop_sublist k s.vThisIter)
    rw [hdrop] at hnodup
    exact (List.nodup_cons.mp hnodup).1 hi
  obtain ⟨hnext, hign⟩ := hwait i (by rw [hdrop]; exact List.mem_cons_of_mem _ hi)
  refine ⟨fun hmem => hnext ((h.mem_vNextIter_iff hne).mp hmem), fun e he => hign e ?_⟩
  rwa [← h.of_ne hne]

/-- The record itself must not be forgotten. -/
theorem settled (h : Moved j d d' s s') {pending : List ℕ} (hs : Settled s (j :: pending))
    (hdue : d'.ignored = false → d'.needRebuild = true → j ∈ s'.vNextIter) :
    Settled s' pending := by
  intro i e he hlinked hign hneed
  by_cases hij : i = j
  · subst hij
    rw [h.dat', Option.some.injEq] at he
    subst he
    exact .inl (hdue hign hneed)
  · rw [h.of_ne hij] at he
    refine (hs i e he hlinked hign hneed).imp h.mem_vNextIter fun hmem => ?_
    exact (List.mem_cons.mp hmem).resolve_left hij

end Moved

/-! ## The queues in a run -/

/-- The invariant of the queues at each label. -/
def QueueAt : Label × St Name Hash → Prop
  | (.turns _ k, s) => Queue s ∧ Flagged s ∧ Awaiting s k
  | (.recheck _ _, s) | (.recheckAt _ _ _ _, s) => Queue s ∧ Flagged s
  | (.returned _ empty, s) => Queue s ∧ Flagged s ∧ empty = s.vNextIter.isEmpty
  | (.done, s) => s.vThisIter.Nodup
  | (.head _, s) | (.interrupted _, s) | (.signals _, s) | (.save _, s) | (.final _, s) =>
      Queue s

omit [DecidableEq Name] [DecidableEq Hash] in
/-- A report moves no record. -/
theorem Queue.finished {s s' : St Name Hash} {buildTreeTemp : Bool} {iter : ℕ} (h : Queue s)
    (hfin : Finished env buildTreeTemp s iter s') : Queue s' := by
  have hstate := hfin.state
  refine h.of_dat hfin.length (by rw [hstate]) (by rw [hstate]) (by rw [hstate]) fun j d hd => ?_
  obtain ⟨d', hd', hrefresh⟩ := hfin.dat j d hd
  exact ⟨d', hd', hrefresh.sameRole.parent, fun _ => hrefresh.sameRole.ignored⟩

/-- The block behind the loop does not touch `v_this_iter`. -/
theorem PreparedFinal.vThisIter {s s' : St Name Hash} (h : PreparedFinal env s s')
    (hs : Base env s) : s'.vThisIter = s.vThisIter := by
  cases h with
  | same _ hstate => rw [hstate]
  | @fresh s₁ new _ hrun href =>
      rw [St.prepareVecLocData_eq hs.stocked.valid hs.length_le] at hrun
      cases hrun
      rw [href.state]

/-- **The queues are kept**, when no record is lost at the beginning of an iteration. -/
theorem Stepped.queueAt {x y : Label × St Name Hash} (h : Stepped env x y) (hx : Base env x.2)
    (hlost : ∀ iter s, x = (.head iter, s) → NoneLost s) (hq : QueueAt x) : QueueAt y := by
  cases h with
  | start hnodup =>
      have hq : Queue _ := hq
      exact ⟨hq.started hx hnodup, flagged_started _, hq.awaiting_started (hlost _ _ rfl)⟩
  | stop => exact hq
  | @turn iter k j s s' interrupted hk hrun =>
      obtain ⟨hqueue, hflag, hwait⟩ := hq
      obtain ⟨d, d', hd, hturned⟩ := hx.turned hrun
      have hmoved := hturned.moved hd
      have hj : j ∉ s.vNextIter :=
        (hwait j (by rw [mem_drop_of_getElem? hk]; exact List.mem_cons_self ..)).1
      cases interrupted with
      | true => exact hmoved.queue hqueue hj
      | false =>
          exact ⟨hmoved.queue hqueue hj, hmoved.flagged hflag, hmoved.awaiting hqueue hk hwait⟩
  | endTurns _ => exact ⟨hq.1, hq.2.1⟩
  | pick _ => exact hq
  | «return» _ => exact ⟨hq.1, hq.2, rfl⟩
  | @recheck iter i k it it' s s' c loc _ _ hre =>
      obtain ⟨hqueue, hflag⟩ := hq
      obtain rfl | ⟨d, d', hmoved, hqueued, -, -⟩ := hre.moved
      · exact ⟨hqueue, hflag⟩
      · have hj : k ∉ s.vNextIter := fun hmem => by
          have htrue := (hflag k d hmoved.dat).mpr hmem
          rw [hqueued] at htrue
          cases htrue
        exact ⟨hmoved.queue hqueue hj, hmoved.flagged hflag⟩
  | endConfig _ => exact hq
  | terminate => exact hq.1.of_eq rfl rfl rfl rfl
  | @enqueueAll iter s =>
      have hcount : Queue { s with terminateCounter := s.terminateCounter + 1 } :=
        hq.1.of_eq rfl rfl rfl rfl
      exact hcount.enqueueAll (List.isEmpty_iff.mp hq.2.2.symm)
  | goOn => exact hq.1.of_eq rfl rfl rfl rfl
  | giveUp => exact Queue.of_eq hq rfl rfl rfl rfl
  | brk _ => exact Queue.of_eq hq rfl rfl rfl rfl
  | @usr iter s s' _ hfin =>
      have hread : Queue (s.readSignal env) := Queue.of_eq hq rfl rfl rfl rfl
      exact (hread.finished hfin).of_eq rfl rfl rfl rfl
  | quiet _ => exact Queue.of_eq hq rfl rfl rfl rfl
  | save hfin => exact Queue.finished hq hfin
  | noSave => exact hq
  | finish hprep hfin =>
      have hq : Queue _ := hq
      have hthis : _ = _ := hprep.vThisIter hx
      show (_ : List ℕ).Nodup
      rw [hfin.state]
      dsimp only
      rw [hthis]
      exact hq.this_nodup
  | done => exact hq

omit [DecidableEq Name] [DecidableEq Hash] in
theorem QueueAt.this_nodup {l : Label} {s : St Name Hash} (h : QueueAt (l, s)) :
    s.vThisIter.Nodup := by
  cases l with
  | turns _ _ => exact h.1.this_nodup
  | recheck _ _ => exact h.1.this_nodup
  | recheckAt _ _ _ _ => exact h.1.this_nodup
  | returned _ _ => exact h.1.this_nodup
  | done => exact h
  | _ => exact Queue.this_nodup h

/-- The queues before the first iteration. -/
theorem Env.init_queue {s : St Name Hash} (h : env.init = .ok s) : Queue s := by
  obtain ⟨-, -, hthis, hnext, huniq, -⟩ := env.init_meets.of_eq_ok h
  constructor <;> simp [hthis, hnext, huniq]

/-- **The queues of a run.** -/
theorem RunsTo.queueAt {guard : Label × St Name Hash → Prop}
    (hlost : ∀ iter s, RunsTo env guard (.head iter) s → guard (.head iter, s) → NoneLost s)
    {l : Label} {s : St Name Hash} (h : RunsTo env guard l s) : QueueAt (l, s) := by
  refine h.invariant QueueAt (fun x y hx hI hok hstep => ?_) fun s₀ hinit => Env.init_queue hinit
  refine hstep.queueAt hx.base ?_ hI
  rintro iter s rfl
  exact hlost iter s hx hok

end Queue

end GenTree

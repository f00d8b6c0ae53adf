import Mathlib.Data.List.Dedup
import GenTree.AllConfigs
import GenTree.Finish

/-!
# What a step does

`Stepped` lists the steps of the machine with their effect, one constructor for
each, and `Culprit` lists what must be wrong with the state for a step to die at a
`CHECK` of the scheduling or of `finish_alg`.  `step_meets` says that these lists
are complete; every invariant of a run is proved by cases on them, and none unfolds
the machine again.

The steps of `run_iter` are listed one by one, with the state in between, because the
`CHECK`s stand in the middle of an iteration and a signal can end it after any turn.  A
turn is one step: what it does inside is the subject of `Turned`, and no other record,
list or counter is touched meanwhile.

`Base` is what the lists themselves rest on: the store is valid, records sit at
the position of their location, there are no more records than locations, and a
record without a tree is due to be rebuilt.  It holds in every state of every run
(`RunsTo.base`).
-/

namespace GenTree

open Outcome Leaders

section Steps

variable {Name Hash : Type} [DecidableEq Name] [DecidableEq Hash] {env : Env Name Hash}

/-- The store is valid and the records sit at the positions of their locations.  There may be
fewer records than locations, as `prepare_vec_loc_data` makes them at the beginning of an
iteration and locations are found during it.  A record that need not be rebuilt has a tree,
of which nothing is said here. -/
structure Base (env : Env Name Hash) (s : St Name Hash) : Prop where
  stocked : Stocked env s.cov
  loc_eq : ∀ (j : ℕ) (d : LocData), s.vLocData[j]? = some d → d.loc = j
  length_le : s.vLocData.length ≤ s.cov.nLocs
  sound : ∀ (j : ℕ) (d : LocData), s.vLocData[j]? = some d → d.Sound fun _ => True

/-! ## The re-check of one location -/

/-- What the re-check does with location `k` and the configuration `c`, when `it` is
the rest of the configuration's ids.  `it` moves on when it stands at `k`, whatever is
done with the record; only a location without a record is left before `it` is looked at. -/
inductive Rechecked (env : Env Name Hash) (c : Config) (k : ℕ) (it : List ℕ)
    (s : St Name Hash) : St Name Hash → List ℕ → Prop
  /-- There is no record yet. -/
  | absent (h : s.vLocData.length ≤ k) : Rechecked env c k it s s it
  /-- The record is linked, in the queue, or ignored. -/
  | skipped {d : LocData} (dat : s.vLocData[k]? = some d)
      (skip : d.linked = true ∨ d.queuedNext = true ∨ d.ignored = true) :
      Rechecked env c k it s s (if it.head? = some k then it.tail else it)
  /-- The tree is right about the configuration. -/
  | right {d : LocData} {t t₁ t₂ : CTree} (dat : s.vLocData[k]? = some d)
      (linked : d.linked = false) (queuedNext : d.queuedNext = false) (ignored : d.ignored = false)
      (tree : d.tree = some t) (build : t.buildInterpreter env.dom = .ok t₁)
      (eval : t₁.interpretAdd env.dom c = .ok (decide (it.head? = some k), t₂)) :
      Rechecked env c k it s (s.setDat k { d with tree := some t₂ })
        (if it.head? = some k then it.tail else it)
  /-- The tree is wrong: the record is to be rebuilt and is put into the queue. -/
  | wrong {d d' : LocData} {t : CTree} {s' : St Name Hash} (dat : s.vLocData[k]? = some d)
      (linked : d.linked = false) (queuedNext : d.queuedNext = false) (ignored : d.ignored = false)
      (enqueued : Enqueued k { d with tree := some t, needRebuild := true }
        (s.setDat k { d with tree := some t, needRebuild := true }) s' d') :
      Rechecked env c k it s s' (if it.head? = some k then it.tail else it)

omit [DecidableEq Name] [DecidableEq Hash] in
theorem St.recheckLoc_meets {s : St Name Hash} {c : Config} {k : ℕ} {it : List ℕ}
    {loc : Location Name} (hid : loc.id = some k) :
    Meets (St.recheckLoc env c (s, it) loc) (fun r => Rechecked env c k it s r.1 r.2)
      (fun f => f.IsLower ∨ f = .recheckNullTree ∧ ∃ d, s.vLocData[k]? = some d ∧
        d.linked = false ∧ d.queuedNext = false ∧ d.ignored = false ∧ d.tree = none) := by
  have hindex : loc.index = .ok k := by rw [Location.index, hid]
  have hit : (if decide (it.head? = some k) then it.tail else it) =
      if it.head? = some k then it.tail else it := by simp
  rw [recheckLoc, hindex, lift_ok, ok_bind]
  dsimp only
  split
  · exact .absent ‹_›
  · next hlt =>
      have hget := List.getElem?_eq_getElem (Nat.not_le.mp hlt)
      generalize hd : s.vLocData[k] = d at hget
      rw [dat_eq hget, lift_ok, ok_bind, hit]
      split
      · next hskip =>
          refine .skipped hget ?_
          simpa [or_assoc] using hskip
      · next hgo =>
          obtain ⟨hlinked, hqueued, hignored⟩ :
              d.linked = false ∧ d.queuedNext = false ∧ d.ignored = false := by
            simpa [and_assoc] using hgo
          cases htree : d.tree with
          | none => exact .inr ⟨rfl, d, hget, hlinked, hqueued, hignored, htree⟩
          | some t =>
              refine meets_lift_bind (fun a => .inl ⟨a, rfl⟩) fun t₁ hbuild => ?_
              refine meets_lift_bind (fun a => .inl ⟨a, rfl⟩) fun r heval => ?_
              obtain ⟨treeEval, t₂⟩ := r
              dsimp only
              split
              · have hset : (s.setDat k { d with
                    tree := some t₂, needRebuild := true }).vLocData[k]? =
                    some { d with tree := some t₂, needRebuild := true } := by
                  rw [setDat, List.getElem?_set_self (Nat.not_le.mp hlt)]
                refine meets_bind ((enqueueNext_meets hset).mono (fun _ h => h) ?_) ?_
                · rintro f ⟨-, htrue⟩
                  simp [hignored] at htrue
                · rintro s' ⟨-, d', henq⟩
                  exact .wrong hget hlinked hqueued hignored henq
              · next heq =>
                  rw [not_not] at heq
                  subst heq
                  exact .right hget hlinked hqueued hignored htree hbuild heval

/-! ## The steps of the machine -/

/-- The state with which the first loop of `run_iter` begins.  The queue of the iteration is
what the last one has put aside, and behind it the locations that have become leaders. -/
def St.started (env : Env Name Hash) (s : St Name Hash) : St Name Hash :=
  { s with
    vThisIter := s.vNextIter ++
      (List.range s.cov.nLocs).filter (isNewLeader (s.keys env) s.vLocData)
    vNextIter := []
    prevNConf := s.cov.nConfigs
    vLocData := (List.range s.cov.nLocs).map fun j =>
      { prepared (s.keys env) s.vLocData j with queuedNext := false }
    vUniq := (List.range s.cov.nLocs).filter fun j => leader (s.keys env) j == j }

theorem St.startIter_meets {s : St Name Hash} (hs : Base env s) :
    Meets (s.startIter env) (fun s' => s' = s.started env ∧ s'.vThisIter.Nodup)
      (fun f => f = .iterDup ∧ ¬ (s.started env).vThisIter.Nodup) := by
  have hprep : { s with vThisIter := s.vNextIter, vNextIter := [] }.prepareVecLocData env = _ :=
    prepareVecLocData_eq hs.stocked.valid hs.length_le
  rw [startIter, hprep, lift_ok, ok_bind]
  have heq : ({ s with
      vThisIter := s.vNextIter ++
        (List.range s.cov.nLocs).filter (isNewLeader (s.keys env) s.vLocData)
      vNextIter := []
      prevNConf := s.cov.nConfigs
      vLocData := ((List.range s.cov.nLocs).map (prepared (s.keys env) s.vLocData)).map fun d =>
        { d with queuedNext := false }
      vUniq := (List.range s.cov.nLocs).filter fun j => leader (s.keys env) j == j } :
      St Name Hash) = s.started env := by
    rw [started, List.map_map]
    rfl
  refine meets_check_bind (fun hnodup => ⟨heq, hnodup⟩) fun hdup => ⟨rfl, hdup⟩

/-- The steps, with what each does to the state.  Where the machine branches on more than the
label, a constructor has the condition as an argument. -/
inductive Stepped (env : Env Name Hash) :
    Label × St Name Hash → Label × St Name Hash → Prop
  | start {iter : ℕ} {s : St Name Hash} (nodup : (s.started env).vThisIter.Nodup) :
      Stepped env (.head iter, s) (.turns iter 0, s.started env)
  | stop {iter : ℕ} {s : St Name Hash} : Stepped env (.head iter, s) (.final iter, s)
  | turn {iter k j : ℕ} {s s' : St Name Hash} {interrupted : Bool}
      (at_k : s.vThisIter[k]? = some j) (run : s.turn env iter j = .ok (s', interrupted)) :
      Stepped env (.turns iter k, s)
        (if interrupted then .interrupted iter else .turns iter (k + 1), s')
  | endTurns {iter k : ℕ} {s : St Name Hash} (at_k : s.vThisIter[k]? = none) :
      Stepped env (.turns iter k, s) (.recheck iter s.prevNConf, s)
  | pick {iter i : ℕ} {s : St Name Hash} {c : Config} (conf : s.cov.configs[i]? = some c) :
      Stepped env (.recheck iter i, s) (.recheckAt iter i 0 c.covLocs, s)
  | return {iter i : ℕ} {s : St Name Hash} (le : s.cov.nConfigs ≤ i) :
      Stepped env (.recheck iter i, s) (.returned iter s.vNextIter.isEmpty, s)
  | recheck {iter i k : ℕ} {it it' : List ℕ} {s s' : St Name Hash} {c : Config}
      {loc : Location Name} (conf : s.cov.configs[i]? = some c) (at_k : s.cov.locs[k]? = some loc)
      (rechecked : Rechecked env c k it s s' it') :
      Stepped env (.recheckAt iter i k it, s) (.recheckAt iter i (k + 1) it', s')
  | endConfig {iter i k : ℕ} {it : List ℕ} {s : St Name Hash} (at_k : s.cov.locs[k]? = none) :
      Stepped env (.recheckAt iter i k it, s) (.recheck iter (i + 1), s)
  | terminate {iter : ℕ} {s : St Name Hash} :
      Stepped env (.returned iter true, s)
        (.final iter, { s with terminateCounter := s.terminateCounter + 1 })
  | enqueueAll {iter : ℕ} {s : St Name Hash} :
      Stepped env (.returned iter true, s)
        (.signals iter, { s with terminateCounter := s.terminateCounter + 1 }.enqueueAll)
  | goOn {iter : ℕ} {s : St Name Hash} :
      Stepped env (.returned iter false, s) (.signals iter, { s with terminateCounter := 0 })
  | giveUp {iter : ℕ} {s : St Name Hash} :
      Stepped env (.interrupted iter, s) (.signals iter, { s with terminateCounter := 0 })
  | brk {iter : ℕ} {s : St Name Hash} (signal : (s.readSignal env).signal = some .brk) :
      Stepped env (.signals iter, s) (.final iter, s.readSignal env)
  | usr {iter : ℕ} {s s' : St Name Hash}
      (signal : (s.readSignal env).signal = some .usr1 ∨
        (s.readSignal env).signal = some .usr2)
      (finished : Finished env false (s.readSignal env) iter s') :
      Stepped env (.signals iter, s) (.save iter, { s' with signal := none })
  | quiet {iter : ℕ} {s : St Name Hash}
      (signal : (s.readSignal env).signal = none ∨ (s.readSignal env).signal = some .rt2) :
      Stepped env (.signals iter, s) (.save iter, s.readSignal env)
  | save {iter : ℕ} {s s' : St Name Hash} (finished : Finished env true s iter s') :
      Stepped env (.save iter, s) (.head (iter + 1), s')
  | noSave {iter : ℕ} {s : St Name Hash} : Stepped env (.save iter, s) (.head (iter + 1), s)
  | finish {iter : ℕ} {s s₁ s' : St Name Hash} (prepared : PreparedFinal env s s₁)
      (finished : Finished env false s₁ iter s') : Stepped env (.final iter, s) (.done, s')
  | done {s : St Name Hash} : Stepped env (.done, s) (.done, s)

/-- Why a step dies.  Faults that no statement about the scheduling is about are `plain`; for
the others there is a record, a queue or a report that is to blame. -/
inductive Culprit (env : Env Name Hash) : Label × St Name Hash → Fault → Prop
  | plain {x : Label × St Name Hash} {f : Fault} (h : f.Plain) : Culprit env x f
  | dup {iter : ℕ} {s : St Name Hash} (dup : ¬ (s.started env).vThisIter.Nodup) :
      Culprit env (.head iter, s) .iterDup
  | turn {iter k j : ℕ} {s : St Name Hash} {f : Fault} (at_k : s.vThisIter[k]? = some j)
      (run : s.turn env iter j = .error f) : Culprit env (.turns iter k, s) f
  | recheck {iter i k : ℕ} {it : List ℕ} {s : St Name Hash} {d : LocData}
      (dat : s.vLocData[k]? = some d) (linked : d.linked = false)
      (queuedNext : d.queuedNext = false) (ignored : d.ignored = false) (tree : d.tree = none) :
      Culprit env (.recheckAt iter i k it, s) .recheckNullTree
  | usr {iter : ℕ} {s : St Name Hash} {f : Fault}
      (signal : (s.readSignal env).signal = some .usr1 ∨
        (s.readSignal env).signal = some .usr2)
      (culprit : FinishCulprit env (s.readSignal env) f) : Culprit env (.signals iter, s) f
  | save {iter : ℕ} {s : St Name Hash} {f : Fault} (culprit : FinishCulprit env s f) :
      Culprit env (.save iter, s) f
  | finish {iter : ℕ} {s s₁ : St Name Hash} {f : Fault} (prepared : PreparedFinal env s s₁)
      (culprit : FinishCulprit env s₁ f) : Culprit env (.final iter, s) f

/-- **The list of steps is complete.** -/
theorem step_meets {x : Label × St Name Hash} (hx : Base env x.2) :
    Meets (step env x) (Stepped env x) (Culprit env x) := by
  obtain ⟨l, s⟩ := x
  have hv := hx.stocked.valid
  cases l with
  | head iter =>
      rw [step]
      split
      · refine meets_check_bind (fun _ => ?_) fun _ => .plain trivial
        refine meets_bind ((St.startIter_meets hx).mono (fun _ h => h) ?_) ?_
        · rintro f ⟨rfl, hdup⟩
          exact .dup hdup
        · rintro s' ⟨rfl, hnodup⟩
          exact .start hnodup
      · exact .stop
  | turns iter k =>
      rw [step]
      split
      · exact .endTurns ‹_›
      · next j hj =>
          refine meets_bind_of_eq (fun f hf => .turn hj hf) fun r hr => ?_
          exact .turn hj hr
  | recheck iter i =>
      rw [step]
      split
      · next hlt =>
          refine meets_lift_bind (fun _ => .plain trivial) fun c hc => ?_
          exact .pick (vecAt_eq_ok.mp hc)
      · exact .return (Nat.not_lt.mp ‹_›)
  | recheckAt iter i k it =>
      rw [step]
      split
      · exact .endConfig ‹_›
      · next loc hloc =>
          obtain ⟨hist, hv⟩ := hv
          refine meets_lift_bind (fun _ => .plain trivial) fun c hc => ?_
          refine meets_bind ((St.recheckLoc_meets (hv.locId k loc hloc)).mono (fun _ h => h) ?_) ?_
          · rintro f (⟨a, rfl⟩ | ⟨rfl, d, hd, hl, hq, hi, ht⟩)
            · exact .plain trivial
            · exact .recheck hd hl hq hi ht
          · rintro ⟨s', it'⟩ hre
            exact .recheck (vecAt_eq_ok.mp hc) hloc hre
  | returned iter empty =>
      cases empty with
      | true =>
          rw [step]
          split
          · exact .terminate
          · exact .enqueueAll
      | false => exact .goOn
  | interrupted iter => exact .giveUp
  | signals iter =>
      rw [step]
      split
      · exact .brk ‹_›
      · next hsig =>
          exact meets_bind ((St.finishAlg_meets _ iter false).mono (fun _ h => h)
            fun f hf => .usr (.inl hsig) hf) fun s' hs' => .usr (.inl hsig) hs'
      · next hsig =>
          exact meets_bind ((St.finishAlg_meets _ iter false).mono (fun _ h => h)
            fun f hf => .usr (.inr hsig) hf) fun s' hs' => .usr (.inr hsig) hs'
      · exact .quiet (.inr ‹_›)
      · exact .quiet (.inl ‹_›)
  | save iter =>
      rw [step]
      split
      · exact meets_bind ((St.finishAlg_meets s iter true).mono (fun _ h => h)
          fun f hf => .save hf) fun s' hs' => .save hs'
      · exact .noSave
  | final iter =>
      rw [step]
      refine meets_bind ((St.prepareFinal_meets s).mono (fun _ h => h) ?_) fun s₁ hprep => ?_
      · intro f hf
        obtain ⟨a, rfl⟩ := hf.isLower
        exact .plain trivial
      · exact meets_bind ((St.finishAlg_meets s₁ iter false).mono (fun _ h => h)
          fun f hf => .finish hprep hf) fun s' hs' => .finish hprep hs'
  | done => exact .done

/-! ## The base invariant -/

theorem getElem?_set_cases {α : Type} {l : List α} {i j : ℕ} {a b : α}
    (h : (l.set j a)[i]? = some b) : i = j ∧ b = a ∨ i ≠ j ∧ l[i]? = some b := by
  by_cases hij : i = j
  · subst hij
    have hlt := (List.getElem?_eq_some_iff.mp h).1
    rw [List.length_set] at hlt
    rw [List.getElem?_set_self hlt, Option.some.injEq] at h
    exact .inl ⟨rfl, h.symm⟩
  · rw [List.getElem?_set_ne (fun heq => hij heq.symm)] at h
    exact .inr ⟨hij, h⟩

/-- The kinds of records that `prepare_vec_loc_data` leaves.  A record that becomes linked or
a leader is due to be rebuilt and keeps its location and its flag `ignored`; only a leader
whose record was a leader's already is left as it was. -/
inductive PreparedAs (keys : List Hash) (old : List LocData) (j : ℕ) : LocData → Prop
  /-- The location has the hash of an earlier one. -/
  | linked {d' : LocData} (lt : leader keys j < j) (parent : d'.parent = some (leader keys j))
      (loc : d'.loc = (old[j]?.getD { loc := j }).loc)
      (ignored : d'.ignored = (old[j]?.getD { loc := j }).ignored)
      (needRebuild : d'.needRebuild = true) : PreparedAs keys old j d'
  /-- A leader whose record was a leader's already. -/
  | kept {d : LocData} (leads : leader keys j = j) (dat : old[j]? = some d)
      (unlinked : d.linked = false) : PreparedAs keys old j d
  /-- A leader whose record is new or was linked. -/
  | new {d' : LocData} (leads : leader keys j = j) (isNew : isNewLeader keys old j = true)
      (parent : d'.parent = none) (loc : d'.loc = (old[j]?.getD { loc := j }).loc)
      (ignored : d'.ignored = (old[j]?.getD { loc := j }).ignored)
      (needRebuild : d'.needRebuild = true) : PreparedAs keys old j d'

theorem preparedAs_prepared (keys : List Hash) (old : List LocData) (j : ℕ) :
    PreparedAs keys old j (prepared keys old j) := by
  have hle := leader_le keys j
  rw [prepared]
  split
  · next hlt => exact .linked hlt rfl rfl rfl rfl
  · next hlt =>
      have hleads : leader keys j = j := by omega
      split
      · next hlinked => exact .new hleads (by simp [isNewLeader, hleads, hlinked]) rfl rfl rfl rfl
      · next hlinked =>
          cases hd : old[j]? with
          | none =>
              exact .new hleads (by simp [isNewLeader, hleads, hd]) rfl (by rw [hd])
                (by rw [hd]) rfl
          | some d =>
              rw [hd, Option.getD_some] at hlinked
              exact .kept hleads hd (by simpa using hlinked)

namespace Base

variable {s s' : St Name Hash}

omit [DecidableEq Hash] in
/-- Steps that touch neither the store nor a record. -/
theorem of_eq (h : Base env s) (hcov : s'.cov = s.cov) (hdat : s'.vLocData = s.vLocData) :
    Base env s' :=
  ⟨by rw [hcov]; exact h.stocked, by rw [hdat]; exact h.loc_eq,
    by rw [hdat, hcov]; exact h.length_le, by rw [hdat]; exact h.sound⟩

omit [DecidableEq Hash] in
/-- Steps that change one record while the store may grow. -/
theorem set (h : Base env s) {j : ℕ} {d d' : LocData} (hd : s.vLocData[j]? = some d)
    (hdat : s'.vLocData = s.vLocData.set j d') (hloc : d'.loc = d.loc)
    (hsound : d'.Sound fun _ => True) (hgrows : s.cov.Grows s'.cov)
    (hstocked : Stocked env s'.cov) : Base env s' where
  stocked := hstocked
  loc_eq i e he := by
    rw [hdat] at he
    obtain ⟨rfl, rfl⟩ | ⟨-, he⟩ := getElem?_set_cases he
    · rw [hloc, h.loc_eq i d hd]
    · exact h.loc_eq i e he
  length_le := by
    rw [hdat, List.length_set]
    exact h.length_le.trans hgrows.nLocs_le
  sound i e he := by
    rw [hdat] at he
    obtain ⟨rfl, rfl⟩ | ⟨-, he⟩ := getElem?_set_cases he
    · exact hsound
    · exact h.sound i e he

omit [DecidableEq Hash] in
/-- Steps that refresh the records. -/
theorem refresh (h : Base env s) {buildTreeTemp : Bool} (hcov : s'.cov = s.cov)
    (hlen : s'.vLocData.length = s.vLocData.length)
    (hdat : ∀ (j : ℕ) (d : LocData), s.vLocData[j]? = some d →
      ∃ d', s'.vLocData[j]? = some d' ∧ Refreshed env buildTreeTemp s d d') : Base env s' := by
  have hback : ∀ (j : ℕ) (d' : LocData), s'.vLocData[j]? = some d' →
      ∃ d, s.vLocData[j]? = some d ∧ Refreshed env buildTreeTemp s d d' := by
    intro j d' hd'
    have hlt := (List.getElem?_eq_some_iff.mp hd').1
    have hd := List.getElem?_eq_getElem (show j < s.vLocData.length by omega)
    obtain ⟨d₂, hd₂, hrefresh⟩ := hdat j _ hd
    rw [hd'] at hd₂
    cases hd₂
    exact ⟨_, hd, hrefresh⟩
  refine ⟨by rw [hcov]; exact h.stocked, fun j d' hd' => ?_, by rw [hcov, hlen]; exact h.length_le,
    fun j d' hd' => ?_⟩
  · obtain ⟨d, hd, hrefresh⟩ := hback j d' hd'
    rw [hrefresh.sameRole.loc, h.loc_eq j d hd]
  · obtain ⟨d, hd, hrefresh⟩ := hback j d' hd'
    cases hrefresh with
    | kept _ => exact h.sound j _ hd
    | rebuilt _ _ _ _ _ _ => exact fun _ => ⟨_, rfl, trivial⟩

/-- A prepared record. -/
theorem prepared_dat (h : Base env s) {j : ℕ} {d' : LocData}
    (hd' : PreparedAs (s.keys env) s.vLocData j d') : d'.loc = j ∧ d'.Sound fun _ => True := by
  have hloc : (s.vLocData[j]?.getD { loc := j }).loc = j := by
    cases hd : s.vLocData[j]? with
    | none => rfl
    | some d => exact h.loc_eq j d hd
  cases hd' with
  | linked _ _ hl _ hneed => exact ⟨hl.trans hloc, LocData.sound_of_needRebuild hneed⟩
  | kept _ hd _ => exact ⟨h.loc_eq j _ hd, h.sound j _ hd⟩
  | new _ _ _ hl _ hneed => exact ⟨hl.trans hloc, LocData.sound_of_needRebuild hneed⟩

end Base

omit [DecidableEq Name] in
/-- The records with which the first loop of `run_iter` begins. -/
theorem St.started_dat {s : St Name Hash} {j : ℕ} {d' : LocData}
    (h : (s.started env).vLocData[j]? = some d') :
    j < s.cov.nLocs ∧ ∃ d₀, PreparedAs (s.keys env) s.vLocData j d₀ ∧
      d' = { d₀ with queuedNext := false } := by
  have hlt : j < s.cov.nLocs := by
    have := (List.getElem?_eq_some_iff.mp h).1
    rwa [started, List.length_map, List.length_range] at this
  rw [started, List.getElem?_map, List.getElem?_range hlt, Option.map_some,
    Option.some.injEq] at h
  exact ⟨hlt, _, preparedAs_prepared _ _ j, h.symm⟩

theorem Base.started {s : St Name Hash} (h : Base env s) : Base env (s.started env) where
  stocked := h.stocked
  loc_eq j d' hd' := by
    obtain ⟨-, d₀, hd₀, rfl⟩ := St.started_dat hd'
    exact (h.prepared_dat hd₀).1
  length_le := by simp [St.started]
  sound j d' hd' := by
    obtain ⟨-, d₀, hd₀, rfl⟩ := St.started_dat hd'
    exact (h.prepared_dat hd₀).2

/-- The records of `prepare_vec_loc_data`. -/
theorem Base.prepareVecLocData {s s₁ : St Name Hash} {new : List ℕ} (h : Base env s)
    (hrun : s.prepareVecLocData env = .ok (s₁, new)) :
    s₁.cov = s.cov ∧ s₁.vLocData.length = s.cov.nLocs ∧
      ∀ (j : ℕ) (d' : LocData), s₁.vLocData[j]? = some d' →
        PreparedAs (s.keys env) s.vLocData j d' := by
  rw [St.prepareVecLocData_eq h.stocked.valid h.length_le] at hrun
  cases hrun
  refine ⟨rfl, by simp, fun j d' hd' => ?_⟩
  have hlt : j < s.cov.nLocs := by
    have := (List.getElem?_eq_some_iff.mp hd').1
    rwa [List.length_map, List.length_range] at this
  rw [List.getElem?_map, List.getElem?_range hlt, Option.map_some, Option.some.injEq] at hd'
  rw [← hd']
  exact preparedAs_prepared _ _ j

/-- A turn of a record that is there. -/
theorem Base.turned {s s' : St Name Hash} {iter j : ℕ} {interrupted : Bool} (h : Base env s)
    (hrun : s.turn env iter j = .ok (s', interrupted)) :
    ∃ d d', s.vLocData[j]? = some d ∧ Turned env (fun _ => True) j d s s' interrupted d' := by
  cases hd : s.vLocData[j]? with
  | none =>
      have hdat : s.dat j = .error .outOfRange := by rw [St.dat, vecAt, hd]
      rw [St.turn, hdat] at hrun
      cases hrun
  | some d =>
      obtain ⟨d', hturned⟩ := (St.turn_meets h.stocked hd (keepsGood_true _ _).rule
        (h.sound j d hd)).of_eq_ok hrun
      exact ⟨d, d', rfl, hturned⟩

/-- A turn dies below, or because the record is linked or ignored. -/
theorem Base.turn_error {s : St Name Hash} {iter j : ℕ} {f : Fault} (h : Base env s)
    (hrun : s.turn env iter j = .error f) :
    f.Plain ∨ f.Scheduling ∧ ∃ d, s.vLocData[j]? = some d ∧
      (d.linked = true ∨ d.ignored = true) := by
  cases hd : s.vLocData[j]? with
  | none =>
      have hdat : s.dat j = .error .outOfRange := by rw [St.dat, vecAt, hd]
      rw [St.turn, hdat] at hrun
      cases hrun
      exact .inl trivial
  | some d =>
      refine ((St.turn_meets h.stocked hd (keepsGood_true _ _).rule
        (h.sound j d hd)).of_eq_error hrun).imp_right fun hsched => ⟨hsched.1, d, rfl, hsched.2⟩

omit [DecidableEq Hash] in
theorem Base.finished {s s' : St Name Hash} {buildTreeTemp : Bool} {iter : ℕ} (h : Base env s)
    (hfin : Finished env buildTreeTemp s iter s') : Base env s' :=
  h.refresh (by rw [hfin.state]) hfin.length hfin.dat

theorem Base.preparedFinal {s s' : St Name Hash} (h : Base env s)
    (hprep : PreparedFinal env s s') : Base env s' := by
  cases hprep with
  | same _ hstate => rwa [hstate]
  | @fresh s₁ new _ hrun href =>
      obtain ⟨hcov, hlen, hdat⟩ := h.prepareVecLocData hrun
      have hbase : Base env s₁ :=
        ⟨by rw [hcov]; exact h.stocked, fun j d' hd' => (h.prepared_dat (hdat j d' hd')).1,
          by rw [hlen, hcov], fun j d' hd' => (h.prepared_dat (hdat j d' hd')).2⟩
      exact hbase.refresh href.cov_eq href.length href.dat_all

theorem PreparedFinal.cov {s s' : St Name Hash} (h : PreparedFinal env s s') (hs : Base env s) :
    s'.cov = s.cov := by
  cases h with
  | same _ hstate => rw [hstate]
  | fresh _ hrun href => rw [href.cov_eq, (hs.prepareVecLocData hrun).1]

/-- **Every step keeps the base invariant.** -/
theorem Stepped.base {x y : Label × St Name Hash} (h : Stepped env x y) (hx : Base env x.2) :
    Base env y.2 := by
  cases h with
  | start _ => exact hx.started
  | stop | endTurns _ | pick _ | «return» _ | endConfig _ | terminate | enqueueAll | goOn
  | giveUp | brk _ | quiet _ | noSave | done => exact hx.of_eq rfl rfl
  | turn _ hrun =>
      obtain ⟨d, d', hd, hturned⟩ := hx.turned hrun
      exact hx.set hd hturned.vLocData hturned.loc hturned.sound hturned.grows hturned.stocked
  | recheck _ _ hre =>
      cases hre with
      | absent _ => exact hx
      | skipped _ _ => exact hx
      | right hd _ _ _ htree _ _ =>
          exact hx.set hd rfl rfl (fun _ => ⟨_, rfl, trivial⟩) (.refl _) hx.stocked
      | wrong hd _ _ _ henq =>
          cases henq with
          | ignored hloc _ _ _ hneed hstate =>
              subst hstate
              exact hx.set hd (by simp [St.setDat]) hloc (LocData.sound_of_needRebuild hneed)
                (.refl _) hx.stocked
          | queued hloc _ _ _ hneed _ hstate =>
              subst hstate
              exact hx.set hd (by simp [St.setDat]) hloc (LocData.sound_of_needRebuild hneed)
                (.refl _) hx.stocked
  | @usr _ s _ _ hfin =>
      have hread : Base env (s.readSignal env) := hx.of_eq rfl rfl
      exact (hread.finished hfin).of_eq rfl rfl
  | save hfin => exact hx.finished hfin
  | finish hprep hfin => exact (hx.preparedFinal hprep).finished hfin

/-- The state before the first iteration. -/
theorem Env.init_meets (env : Env Name Hash) :
    Meets env.init (fun s => Base env s ∧ s.vLocData = [] ∧ s.vThisIter = [] ∧
      s.vNextIter = [] ∧ s.vUniq = [] ∧ s.signal = none ∧ s.prevNConf = 0 ∧
      s.reports = []) Fault.Plain := by
  rw [init]
  refine meets_bind (meets_lift (fun _ => trivial) fun r hr => env.initConfigs_fresh.of_eq_ok hr) ?_
  rintro ⟨configs, rng⟩ hfresh
  have htouch : AllFresh env.dom (configs.map Config.touchHash) := by
    intro c hc
    obtain ⟨c', hc', rfl⟩ := List.mem_map.mp hc
    exact (hfresh c' hc').touchHash
  refine meets_bind ((St.runConfigs_meets ⟨[], CoverageStore.valid_empty⟩ htouch).mono
    (fun _ h => h) ?_) ?_
  · rintro f ⟨rfl, -⟩
    trivial
  · rintro ⟨s, ids⟩ hran
    have hstate := hran.state
    have hempty : Stocked env (({} : CoverageStore Name)) :=
      ⟨⟨[], CoverageStore.valid_empty⟩, by simp⟩
    refine ⟨⟨hempty.ran hran htouch, ?_, ?_, ?_⟩, ?_, ?_, ?_, ?_, ?_, ?_, ?_⟩ <;>
      dsimp only at hstate ⊢ <;> rw [hstate] <;> simp

/-! ## Invariants of runs -/

/-- A run is extended by a step. -/
theorem RunsTo.tail {guard : Label × St Name Hash → Prop} {x y : Label × St Name Hash}
    (h : RunsTo env guard x.1 x.2) (hok : guard x) (hstep : step env x = .ok y) :
    RunsTo env guard y.1 y.2 := by
  obtain ⟨s₀, hinit, hreach⟩ := h
  exact ⟨s₀, hinit, hreach.tail hok hstep⟩

/-- **The base invariant of a run.** -/
theorem RunsTo.base {guard : Label × St Name Hash → Prop} {l : Label} {s : St Name Hash}
    (h : RunsTo env guard l s) : Base env s := by
  obtain ⟨s₀, hinit, hreach⟩ := h
  refine hreach.invariant (fun x => Base env x.2) (E := fun _ => True) (fun x hx _ => ?_)
    (env.init_meets.of_eq_ok hinit).1
  exact (step_meets hx).mono (fun y hy => hy.base hx) fun _ _ => trivial

/-- **Invariants of runs**, by cases on the steps.  What has been proved of the
states of a run before may be used of the state a step starts from. -/
theorem RunsTo.invariant {guard : Label × St Name Hash → Prop} {l : Label} {s : St Name Hash}
    (I : Label × St Name Hash → Prop)
    (keep : ∀ x y, RunsTo env guard x.1 x.2 → I x → guard x → Stepped env x y → I y)
    (init : ∀ s₀, env.init = .ok s₀ → I (.head 1, s₀)) (h : RunsTo env guard l s) :
    I (l, s) := by
  obtain ⟨s₀, hinit, hreach⟩ := h
  refine (hreach.invariant (fun x => RunsTo env guard x.1 x.2 ∧ I x) (E := fun _ => True)
    (fun x hx hok => ?_) ⟨⟨s₀, hinit, .refl⟩, init s₀ hinit⟩).2
  obtain ⟨hrun, hI⟩ := hx
  refine meets_iff_forall_ok.mpr fun y hy => ⟨hrun.tail hok hy, ?_⟩
  exact keep x y hrun hI hok ((step_meets hrun.base).of_eq_ok hy)

/-! ## Runs that are evaluated -/

/-- The program under `env` after `n` steps from states that meet the guard. -/
def Env.after (env : Env Name Hash) (guard : Label × St Name Hash → Prop) [DecidablePred guard]
    (n : ℕ) : Option (Label × St Name Hash) :=
  env.init.toOption.bind fun s => Machine.runFor (step env) guard n (.head 1, s)

/-- The fault the next step dies with. -/
def Env.fault (env : Env Name Hash) (x : Label × St Name Hash) : Option Fault :=
  match step env x with
  | .ok _ => none
  | .error f => some f

theorem Env.fault_eq_some {x : Label × St Name Hash} {f : Fault} :
    env.fault x = some f ↔ step env x = .error f := by
  rw [fault]
  split <;> simp [*]

theorem Env.fault_eq_none {x : Label × St Name Hash} :
    env.fault x = none ↔ ∃ y, step env x = .ok y := by
  rw [fault]
  split <;> simp [*]

/-- A property of a state that the evaluation of a run has come to. -/
theorem exists_runsTo (env : Env Name Hash) (guard : Label × St Name Hash → Prop)
    [DecidablePred guard] (n : ℕ) (P : Label × St Name Hash → Prop) [DecidablePred P]
    (h : (env.after guard n).any (fun x => decide (P x)) = true) :
    ∃ l s, RunsTo env guard l s ∧ P (l, s) := by
  obtain ⟨⟨l, s⟩, hafter, hP⟩ := (Option.any_eq_true _ _).mp h
  obtain ⟨s₀, hinit, hrun⟩ := Option.bind_eq_some_iff.mp hafter
  refine ⟨l, s, ⟨s₀, ?_, .of_runFor hrun⟩, of_decide_eq_true hP⟩
  cases hres : env.init with
  | error e =>
      rw [hres] at hinit
      cases hinit
  | ok s' =>
      rw [hres] at hinit
      cases hinit
      rfl

end Steps

/-! ## A small environment -/

theorem leafLe_total (a b : NodeRef) : leafLe a b = true ∨ leafLe b a = true := by
  simp only [leafLe]
  split <;> split <;> simp only [decide_eq_true_eq] <;> omega

theorem leafLe_trans {a b c : NodeRef} (hab : leafLe a b = true) (hbc : leafLe b c = true) :
    leafLe a c = true := by
  simp only [leafLe] at hab hbc ⊢
  split at hab <;> split at hbc <;> split <;> simp only [decide_eq_true_eq] at * <;> omega

/-- Equal leaves stay in the order they are in. -/
def LeafSort.stable : LeafSort where
  sort l := l.insertionSort fun a b => leafLe a b = true
  perm l := List.perm_insertionSort _ l
  sorted l := by
    have : Std.Total fun a b => leafLe a b = true := ⟨leafLe_total⟩
    have : IsTrans NodeRef fun a b => leafLe a b = true := ⟨fun _ _ _ => leafLe_trans⟩
    exact List.pairwise_insertionSort _ l

/-- Three switches and a program that covers `covered values`; hashes are what is
hashed, and the solver tries all assignments. -/
def Env.small (covered : List ℤ → List ℕ) : Env ℕ (List ℤ) where
  dom := Domain.switches 3 (by decide)
  program _ values := (covered values).dedup
  program_nodup _ _ := List.nodup_dedup _
  confHash values := values
  locHash covBy := covBy.map Int.ofNat
  select := .firstUntested
  solver := .search (Domain.switches 3 (by decide))
  draws _ := 0
  leafSort := .stable
  arrives _ := none
  randFuel := 0
  params := {
    maxTerminateCounter := 2, thrMessedUpKickin := 1000, thrStuckKickin := 1000
    maxMessedUp := 1000, maxStuck := 1000, messedUpIncr := fun n => n, limTimes := 1
    consecutiveSuccess := 2, thrMessedUpSwitch := 1000, messedLimTimes := 1
    messedConsecutiveSuccess := 1, genCexLimLeaves := 0, genCexHeavy := (1, 0, 0)
    genCexNormal := (1, 0, 0), genCexRetry := (1, 0, 0) }
  options := { rounds := 1 }

theorem Env.small_locHash_injective (covered : List ℤ → List ℕ) :
    Function.Injective (Env.small covered).locHash :=
  List.map_injective_iff.mpr fun _ _ h => Int.ofNat.inj h

end GenTree

import GenTree.Queue

/-!
# Scheduling

When the hash of a location tells coverage lists apart, the records are grouped by
coverage.  The history argument behind the scheduling is `KeptApart`: the coverage of an
unlinked record differs from that of every location with a smaller id, and coverage
lists that differ once differ for ever.  So a record that has been unlinked once is
never linked again, and no record that is ignored is ever linked.

With the queues of `GenTree.Queue` this gives the invariants of `Scheduled`, which
hold in every state of every run (`scheduling`).  Two things do not hold.  A record
that is ignored in its own turn stays in `v_this_iter`, and when an interrupt is
replaced by `SIGRTMIN + 2` before it is served, the run goes on with records that
nobody has put into the queue (`scheduling_counterexamples`).
-/

namespace GenTree

open Outcome Leaders

section Scheduling

variable {Name Hash : Type} [DecidableEq Name] [DecidableEq Hash] {env : Env Name Hash}

/-! ## Groups of equal coverage -/

/-- The coverage of an unlinked record differs from that of all smaller ids, and no
linked record is ignored. -/
structure KeptApart (s : St Name Hash) : Prop where
  differ : ∀ (j : ℕ) (d : LocData), s.vLocData[j]? = some d → d.linked = false →
    ∀ i < j, s.cov.covBy i ≠ s.cov.covBy j
  lost : NoneLost s

/-- Records are linked exactly to the smallest location with the same coverage. -/
def Grouped (s : St Name Hash) : Prop :=
  ∀ (j : ℕ) (d : LocData), s.vLocData[j]? = some d →
    (d.linked = true ↔ ∃ i < j, s.cov.covBy i = s.cov.covBy j) ∧
      ∀ p, d.parent = some p → p < j ∧ s.cov.covBy p = s.cov.covBy j ∧
        (∀ i < p, s.cov.covBy i ≠ s.cov.covBy j) ∧
        ∃ e, s.vLocData[p]? = some e ∧ e.linked = false

omit [DecidableEq Name] [DecidableEq Hash] in
/-- The keys of two locations agree when their coverage does. -/
theorem St.keys_eq_iff (hinj : Function.Injective env.locHash) (s : St Name Hash) (i j : ℕ) :
    (s.keys env)[i]? = (s.keys env)[j]? ↔ s.cov.covBy i = s.cov.covBy j := by
  have hkey : ∀ k, (s.keys env)[k]? = (s.cov.covBy k).map env.locHash := by
    intro k
    rw [keys, List.getElem?_map, CoverageStore.covBy, Option.map_map]
    rfl
  rw [hkey, hkey]
  exact (Option.map_injective hinj).eq_iff

omit [DecidableEq Name] in
theorem leader_lt_iff_covBy (hinj : Function.Injective env.locHash) {s : St Name Hash} {j : ℕ}
    (hj : j < s.cov.nLocs) :
    leader (s.keys env) j < j ↔ ∃ i < j, s.cov.covBy i = s.cov.covBy j := by
  rw [leader_lt_iff (by rwa [s.length_keys])]
  simp only [St.keys_eq_iff hinj]

omit [DecidableEq Name] in
/-- The leader of a location is the smallest one with the same coverage. -/
theorem covBy_leader (hinj : Function.Injective env.locHash) {s : St Name Hash} {j : ℕ}
    (hj : j < s.cov.nLocs) :
    s.cov.covBy (leader (s.keys env) j) = s.cov.covBy j ∧
      ∀ i < leader (s.keys env) j, s.cov.covBy i ≠ s.cov.covBy j := by
  have hlen : j < (s.keys env).length := by rwa [s.length_keys]
  refine ⟨(s.keys_eq_iff hinj _ _).mp ?_, fun i hi heq => ?_⟩
  · rw [getElem?_leader (List.getElem?_eq_getElem hlen), List.getElem?_eq_getElem hlen]
  · have hle := leader_le_of_key_eq hlen ((s.keys_eq_iff hinj i j).mpr heq)
    omega

omit [DecidableEq Name] in
/-- **`prepare_vec_loc_data` groups by coverage.** -/
theorem grouped_of_preparedAs (hinj : Function.Injective env.locHash) {s s' : St Name Hash}
    (hcov : s'.cov = s.cov) (hlen : s'.vLocData.length = s.cov.nLocs)
    (hdat : ∀ (j : ℕ) (d : LocData), s'.vLocData[j]? = some d →
      ∃ d₀, PreparedAs (s.keys env) s.vLocData j d₀ ∧ d.parent = d₀.parent) :
    Grouped s' := by
  have hlinked : ∀ (j : ℕ) (d : LocData), s'.vLocData[j]? = some d →
      (d.linked = true ↔ leader (s.keys env) j < j) := by
    intro j d hd
    obtain ⟨d₀, hd₀, hparent⟩ := hdat j d hd
    rw [LocData.linked, hparent]
    exact hd₀.linked_iff
  intro j d hd
  have hj : j < s.cov.nLocs := by
    rw [← hlen]
    exact (List.getElem?_eq_some_iff.mp hd).1
  rw [hcov]
  refine ⟨(hlinked j d hd).trans (leader_lt_iff_covBy hinj hj), fun p hp => ?_⟩
  obtain ⟨d₀, hd₀, hparent⟩ := hdat j d hd
  rw [hparent] at hp
  cases hd₀ with
  | linked hlt hp' _ _ _ =>
      rw [hp', Option.some.injEq] at hp
      subst hp
      obtain ⟨heq, hfirst⟩ := covBy_leader hinj hj
      have hget := List.getElem?_eq_getElem (show leader (s.keys env) j < s'.vLocData.length by
        omega)
      refine ⟨hlt, heq, hfirst, _, hget, ?_⟩
      have hnot := (hlinked _ _ hget).not.mpr (by
        rw [leader_leader (by rwa [s.length_keys])]
        exact Nat.lt_irrefl _)
      simpa using hnot
  | kept _ _ hunlinked => simp [LocData.linked, hp] at hunlinked
  | new _ _ hp' _ _ _ =>
      rw [hp'] at hp
      cases hp

omit [DecidableEq Name] in
theorem grouped_started (hinj : Function.Injective env.locHash) (s : St Name Hash) :
    Grouped (s.started env) := by
  refine grouped_of_preparedAs (s := s) hinj rfl (by simp [St.started]) fun j d hd => ?_
  obtain ⟨-, d₀, hd₀, rfl⟩ := St.started_dat hd
  exact ⟨d₀, hd₀, rfl⟩

namespace KeptApart

variable {s s' : St Name Hash}

omit [DecidableEq Hash] in
/-- Coverage lists that differ once differ for ever. -/
theorem grow (h : KeptApart s) (hs : Base env s) (hgrows : s.cov.Grows s'.cov)
    (hdat : ∀ (j : ℕ) (d' : LocData), s'.vLocData[j]? = some d' →
      ∃ d, s.vLocData[j]? = some d ∧ d.parent = d'.parent ∧
        (d.linked = true → d'.ignored = d.ignored)) : KeptApart s' where
  differ j d' hd' hlinked i hi := by
    obtain ⟨d, hd, hparent, -⟩ := hdat j d' hd'
    obtain ⟨hist, hv⟩ := hs.stocked.valid
    have hj : j < s.cov.nLocs :=
      Nat.lt_of_lt_of_le (List.getElem?_eq_some_iff.mp hd).1 hs.length_le
    refine hgrows.covBy_ne hv.covBy_lt (by omega) hj (h.differ j d hd ?_ i hi)
    rwa [LocData.linked, hparent]
  lost d' hd' hlinked := by
    obtain ⟨j, hj⟩ := List.mem_iff_getElem?.mp hd'
    obtain ⟨d, hd, hparent, hsame⟩ := hdat j d' hj
    have hlinked' : d.linked = true := by rwa [LocData.linked, hparent]
    rw [hsame hlinked', h.lost d (List.mem_of_getElem? hd) hlinked']

omit [DecidableEq Name] [DecidableEq Hash] in
theorem of_eq (h : KeptApart s) (hcov : s'.cov = s.cov) (hdat : s'.vLocData = s.vLocData) :
    KeptApart s' := by
  obtain ⟨h₁, h₂⟩ := h
  exact ⟨by rwa [hdat, hcov], by rwa [NoneLost, hdat]⟩

/-- An unlinked record leads its group. -/
theorem leads (h : KeptApart s) (hs : Base env s) (hinj : Function.Injective env.locHash) {j : ℕ}
    {d : LocData} (hd : s.vLocData[j]? = some d) (hlinked : d.linked = false) :
    leader (s.keys env) j = j := by
  have hj : j < s.cov.nLocs :=
    Nat.lt_of_lt_of_le (List.getElem?_eq_some_iff.mp hd).1 hs.length_le
  refine Nat.le_antisymm (leader_le _ j) (Nat.not_lt.mp fun hlt => ?_)
  obtain ⟨i, hi, heq⟩ := (leader_lt_iff_covBy hinj hj).mp hlt
  exact h.differ j d hd hlinked i hi heq

/-- **An unlinked record is not linked again.** -/
theorem started_unlinked (h : KeptApart s) (hs : Base env s) (hinj : Function.Injective env.locHash)
    {j : ℕ} {d : LocData} (hd : s.vLocData[j]? = some d) (hlinked : d.linked = false) :
    ∃ d', (s.started env).vLocData[j]? = some d' ∧ d'.linked = false := by
  have hj : j < s.cov.nLocs :=
    Nat.lt_of_lt_of_le (List.getElem?_eq_some_iff.mp hd).1 hs.length_le
  refine ⟨{ prepared (s.keys env) s.vLocData j with queuedNext := false }, ?_, ?_⟩
  · rw [St.started, List.getElem?_map, List.getElem?_range hj, Option.map_some]
  · have hiff := (preparedAs_prepared (s.keys env) s.vLocData j).linked_iff
    rw [h.leads hs hinj hd hlinked] at hiff
    simpa [LocData.linked] using hiff

theorem started (h : KeptApart s) (hs : Base env s) (hinj : Function.Injective env.locHash) :
    KeptApart (s.started env) where
  differ j d' hd' hlinked i hi heq := by
    obtain ⟨hj, d₀, hd₀, rfl⟩ := St.started_dat hd'
    have htrue := hd₀.linked_iff.mpr ((leader_lt_iff_covBy hinj hj).mpr ⟨i, hi, heq⟩)
    rw [show d₀.linked = false from hlinked] at htrue
    cases htrue
  lost d' hd' hlinked := by
    obtain ⟨j, hj'⟩ := List.mem_iff_getElem?.mp hd'
    obtain ⟨hj, d₀, hd₀, rfl⟩ := St.started_dat hj'
    have hlt := hd₀.linked_iff.mp hlinked
    refine hd₀.ignored.trans ?_
    cases hd : s.vLocData[j]? with
    | none => rfl
    | some d =>
        -- a record that is linked now was linked before
        cases hl : d.linked with
        | true => exact h.lost d (List.mem_of_getElem? hd) hl
        | false =>
            have hleads := h.leads hs hinj hd hl
            omega

end KeptApart

/-! ## The history of a record -/

namespace Moved

variable {j : ℕ} {d d' : LocData} {s s' : St Name Hash}

omit [DecidableEq Name] [DecidableEq Hash] in
theorem back (h : Moved j d d' s s') (i : ℕ) (e' : LocData) (he' : s'.vLocData[i]? = some e') :
    ∃ e, s.vLocData[i]? = some e ∧ e.parent = e'.parent ∧
      (e.linked = true → e'.ignored = e.ignored) := by
  by_cases hij : i = j
  · subst hij
    rw [h.dat', Option.some.injEq] at he'
    subst he'
    refine ⟨d, h.dat, h.parent.symm, fun hlinked => ?_⟩
    rw [h.linked] at hlinked
    cases hlinked
  · rw [h.of_ne hij] at he'
    exact ⟨e', he', rfl, fun _ => rfl⟩

omit [DecidableEq Name] [DecidableEq Hash] in
theorem forth (h : Moved j d d' s s') {i : ℕ} {e : LocData} (he : s.vLocData[i]? = some e) :
    ∃ e', s'.vLocData[i]? = some e' ∧ e'.parent = e.parent := by
  by_cases hij : i = j
  · subst hij
    rw [h.dat, Option.some.injEq] at he
    subst he
    exact ⟨d', h.dat', h.parent⟩
  · exact ⟨e, by rw [h.of_ne hij, he], rfl⟩

end Moved

omit [DecidableEq Name] [DecidableEq Hash] in
theorem Finished.back {s s' : St Name Hash} {buildTreeTemp : Bool} {iter : ℕ}
    (h : Finished env buildTreeTemp s iter s') (i : ℕ) (e' : LocData)
    (he' : s'.vLocData[i]? = some e') :
    ∃ e, s.vLocData[i]? = some e ∧ e.parent = e'.parent ∧
      (e.linked = true → e'.ignored = e.ignored) := by
  have hlt := (List.getElem?_eq_some_iff.mp he').1
  rw [h.length] at hlt
  have he := List.getElem?_eq_getElem hlt
  obtain ⟨e₂, he₂, hrefresh⟩ := h.dat i _ he
  rw [he', Option.some.injEq] at he₂
  subst he₂
  exact ⟨_, he, hrefresh.sameRole.parent.symm, fun _ => hrefresh.sameRole.ignored⟩

omit [DecidableEq Name] [DecidableEq Hash] in
theorem Finished.forth {s s' : St Name Hash} {buildTreeTemp : Bool} {iter : ℕ}
    (h : Finished env buildTreeTemp s iter s') {i : ℕ} {e : LocData}
    (he : s.vLocData[i]? = some e) : ∃ e', s'.vLocData[i]? = some e' ∧ e'.parent = e.parent := by
  obtain ⟨e', he', hrefresh⟩ := h.dat i e he
  exact ⟨e', he', hrefresh.sameRole.parent⟩

/-- **Groups stay apart.** -/
theorem Stepped.keptApart {x y : Label × St Name Hash} (h : Stepped env x y)
    (hinj : Function.Injective env.locHash) (hx : Base env x.2) (hy : y.1 ≠ .done)
    (hapart : KeptApart x.2) : KeptApart y.2 := by
  cases h with
  | start _ => exact hapart.started hx hinj
  | stop | endTurns _ | pick _ | «return» _ | endConfig _ | terminate | enqueueAll | goOn
  | giveUp | brk _ | quiet _ | noSave | done => exact hapart.of_eq rfl rfl
  | turn _ hrun =>
      obtain ⟨d, d', hd, hturned⟩ := hx.turned hrun
      exact hapart.grow hx hturned.grows (hturned.moved hd).back
  | recheck _ _ hre =>
      obtain rfl | ⟨d, d', hmoved, -⟩ := hre.moved
      · exact hapart
      · exact hapart.grow hx hmoved.grows hmoved.back
  | @usr iter s s' _ hfin =>
      have hgrows : s.cov.Grows s'.cov := by
        rw [hfin.state]
        exact .refl _
      exact (hapart.grow hx hgrows hfin.back).of_eq rfl rfl
  | @save iter s s' hfin =>
      have hgrows : s.cov.Grows s'.cov := by
        rw [hfin.state]
        exact .refl _
      exact hapart.grow hx hgrows hfin.back
  | finish _ _ => exact absurd rfl hy

/-- The unlinked records of a state are unlinked records of a later one. -/
def StayUnlinked (s s' : St Name Hash) : Prop :=
  ∀ (j : ℕ) (d : LocData), s.vLocData[j]? = some d → d.linked = false →
    ∃ d', s'.vLocData[j]? = some d' ∧ d'.linked = false

omit [DecidableEq Name] [DecidableEq Hash] in
theorem StayUnlinked.of_forth {s s' : St Name Hash}
    (h : ∀ (j : ℕ) (d : LocData), s.vLocData[j]? = some d →
      ∃ d', s'.vLocData[j]? = some d' ∧ d'.parent = d.parent) : StayUnlinked s s' := by
  intro j d hd hlinked
  obtain ⟨d', hd', hparent⟩ := h j d hd
  exact ⟨d', hd', by rwa [LocData.linked, hparent]⟩

omit [DecidableEq Name] [DecidableEq Hash] in
theorem StayUnlinked.refl (s : St Name Hash) : StayUnlinked s s := fun _ d hd hlinked =>
  ⟨d, hd, hlinked⟩

omit [DecidableEq Name] [DecidableEq Hash] in
theorem StayUnlinked.trans {s s' s'' : St Name Hash} (h : StayUnlinked s s')
    (h' : StayUnlinked s' s'') : StayUnlinked s s'' := by
  intro j d hd hlinked
  obtain ⟨d', hd', hlinked'⟩ := h j d hd hlinked
  exact h' j d' hd' hlinked'

/-- **Unlinked records stay unlinked.** -/
theorem Stepped.stayUnlinked {x y : Label × St Name Hash} (h : Stepped env x y)
    (hinj : Function.Injective env.locHash) (hx : Base env x.2)
    (hapart : x.1 ≠ .done → KeptApart x.2) : StayUnlinked x.2 y.2 := by
  cases h with
  | start _ => exact fun j d hd hlinked => (hapart (by simp)).started_unlinked hx hinj hd hlinked
  | stop | endTurns _ | pick _ | «return» _ | endConfig _ | terminate | enqueueAll | goOn
  | giveUp | brk _ | quiet _ | noSave | done => exact .refl _
  | turn _ hrun =>
      obtain ⟨d, d', hd, hturned⟩ := hx.turned hrun
      exact .of_forth fun _ _ he => (hturned.moved hd).forth he
  | recheck _ _ hre =>
      obtain rfl | ⟨d, d', hmoved, -⟩ := hre.moved
      · exact .refl _
      · exact .of_forth fun _ _ he => hmoved.forth he
  | usr _ hfin => exact .of_forth fun _ _ he => hfin.forth he
  | save hfin => exact .of_forth fun _ _ he => hfin.forth he
  | finish hprep hfin =>
      cases hprep with
      | same _ hstate =>
          subst hstate
          exact .of_forth fun _ _ he => hfin.forth he
      | fresh hnil _ _ =>
          intro j d hd
          rw [hnil] at hd
          cases hd

section Run

variable {guard : Label × St Name Hash → Prop} {l : Label} {s : St Name Hash}

theorem RunsTo.keptApart (hinj : Function.Injective env.locHash) (h : RunsTo env guard l s)
    (hl : l ≠ .done) : KeptApart s := by
  refine h.invariant (fun x => x.1 ≠ .done → KeptApart x.2) (fun x y hx hI _ hstep hy => ?_)
    (fun s₀ hinit _ => ?_) hl
  · refine hstep.keptApart hinj hx.base hy (hI fun hdone => ?_)
    obtain ⟨l, s⟩ := x
    dsimp only at hdone
    subst hdone
    cases hstep
    exact hy rfl
  · obtain ⟨-, hnil, -⟩ := env.init_meets.of_eq_ok hinit
    constructor
    · intro j d hd
      rw [hnil] at hd
      cases hd
    · intro d hd
      rw [hnil] at hd
      cases hd

/-- Along a run. -/
theorem RunsTo.stayUnlinked (hinj : Function.Injective env.locHash) (h : RunsTo env guard l s)
    {y : Label × St Name Hash} (hreach : Machine.Reach (step env) guard (l, s) y) :
    StayUnlinked s y.2 := by
  refine (hreach.rel (fun x y => StayUnlinked x.2 y.2) (fun x => RunsTo env guard x.1 x.2)
    (E := fun _ => True) (fun x => .refl x.2) (fun _ _ _ => .trans) (fun x hx hok => ?_) h).2
  refine meets_iff_forall_ok.mpr fun z hz => ⟨hx.tail hok hz, ?_⟩
  exact ((step_meets hx.base).of_eq_ok hz).stayUnlinked hinj hx.base (hx.keptApart hinj)

/-- The queues, when no two coverage lists have the same hash. -/
theorem RunsTo.apart_queueAt (hinj : Function.Injective env.locHash) (h : RunsTo env guard l s) :
    QueueAt (l, s) :=
  h.queueAt fun _ _ hrun _ => (hrun.keptApart hinj (by simp)).lost

/-! ## `v_this_iter` -/

/-- The records of `v_this_iter` are unlinked. -/
def ThisUnlinked (s : St Name Hash) : Prop :=
  ∀ j ∈ s.vThisIter, ∃ d, s.vLocData[j]? = some d ∧ d.linked = false

omit [DecidableEq Name] [DecidableEq Hash] in
theorem ThisUnlinked.stay {s s' : St Name Hash} (h : ThisUnlinked s) (hstay : StayUnlinked s s')
    (hthis : s'.vThisIter = s.vThisIter) : ThisUnlinked s' := by
  intro j hj
  rw [hthis] at hj
  obtain ⟨d, hd, hlinked⟩ := h j hj
  exact hstay j d hd hlinked

theorem KeptApart.thisUnlinked_started {s : St Name Hash} (h : KeptApart s) (hs : Base env s)
    (hq : Queue s) (hinj : Function.Injective env.locHash) : ThisUnlinked (s.started env) := by
  intro j hj
  rcases List.mem_append.mp hj with hj | hj
  · obtain ⟨d, hd, hlinked, -⟩ := hq.next_live j hj
    exact h.started_unlinked hs hinj hd hlinked
  · obtain ⟨hlt, hleads, -⟩ := mem_newLeaders.mp hj
    refine ⟨{ prepared (s.keys env) s.vLocData j with queuedNext := false }, ?_, ?_⟩
    · rw [St.started, List.getElem?_map, List.getElem?_range hlt, Option.map_some]
    · have hiff := (preparedAs_prepared (s.keys env) s.vLocData j).linked_iff
      rw [hleads] at hiff
      simpa [LocData.linked] using hiff

/-- Only the beginning of an iteration changes `v_this_iter`. -/
theorem Stepped.vThisIter_eq {x y : Label × St Name Hash} (h : Stepped env x y)
    (hx : Base env x.2) : y.2.vThisIter = x.2.vThisIter ∨ ∃ iter, x.1 = .head iter ∧
      y.2 = x.2.started env := by
  cases h with
  | start _ => exact .inr ⟨_, rfl, rfl⟩
  | stop | endTurns _ | pick _ | «return» _ | endConfig _ | terminate | enqueueAll | goOn
  | giveUp | brk _ | quiet _ | noSave | done => exact .inl rfl
  | turn _ hrun =>
      obtain ⟨d, d', -, hturned⟩ := hx.turned hrun
      exact .inl hturned.vThisIter
  | recheck _ _ hre =>
      obtain rfl | ⟨d, d', hmoved, -⟩ := hre.moved
      · exact .inl rfl
      · exact .inl hmoved.vThisIter
  | usr _ hfin => exact .inl (by rw [hfin.state]; rfl)
  | save hfin => exact .inl (by rw [hfin.state])
  | finish hprep hfin =>
      refine .inl ?_
      rw [hfin.state]
      exact hprep.vThisIter hx

theorem RunsTo.thisUnlinked (hinj : Function.Injective env.locHash) (h : RunsTo env guard l s) :
    ThisUnlinked s := by
  refine h.invariant (fun x => ThisUnlinked x.2) (fun x y hx hI _ hstep => ?_) fun s₀ hinit => ?_
  · have hstay := hstep.stayUnlinked hinj hx.base (hx.keptApart hinj)
    obtain hthis | ⟨iter, hlabel, hstarted⟩ := hstep.vThisIter_eq hx.base
    · exact hI.stay hstay hthis
    · obtain ⟨l, s⟩ := x
      dsimp only at hlabel
      subst hlabel
      rw [hstarted]
      exact (hx.keptApart hinj (by simp)).thisUnlinked_started hx.base (hx.apart_queueAt hinj) hinj
  · obtain ⟨-, -, hthis, -⟩ := env.init_meets.of_eq_ok hinit
    intro j hj
    rw [hthis] at hj
    cases hj

/-- The first loop begins with records that are grouped by coverage. -/
theorem RunsTo.grouped (hinj : Function.Injective env.locHash) {iter : ℕ}
    (h : RunsTo env guard (.turns iter 0) s) : Grouped s := by
  refine h.invariant (fun x => ∀ iter, x.1 = .turns iter 0 → Grouped x.2)
    (fun x y hx _ _ hstep iter hlabel => ?_) (fun s₀ _ iter hlabel => by cases hlabel) iter rfl
  cases hstep with
  | start _ => exact grouped_started hinj _
  | @turn _ _ _ _ _ interrupted _ _ => cases interrupted <;> simp at hlabel
  | _ => cases hlabel

/-! ## Nobody is forgotten -/

/-- The steps that do not replace an interrupt by `SIGRTMIN + 2` before it is served. -/
def KeepsInterrupt (env : Env Name Hash) : Label × St Name Hash → Prop
  | (.signals _, s) => s.signal = some .brk → env.arrives s.signalReads ≠ some .rt2
  | _ => True

instance (env : Env Name Hash) : DecidablePred (KeepsInterrupt env)
  | (.signals _, s) => inferInstanceAs
      (Decidable (s.signal = some .brk → env.arrives s.signalReads ≠ some .rt2))
  | (.head _, _) | (.turns .., _) | (.recheck .., _) | (.recheckAt .., _) | (.returned .., _)
  | (.interrupted _, _) | (.save _, _) | (.final _, _) | (.done, _) =>
      inferInstanceAs (Decidable True)

/-- Who may be due without being in `v_next_iter`, at each label. -/
def SettledAt : Label × St Name Hash → Prop
  | (.turns _ k, s) => Settled s (s.vThisIter.drop k)
  | (.interrupted _, s) => s.signal = some .brk
  | (.signals _, s) => Settled s [] ∨ s.signal = some .brk
  | (.head _, s) | (.recheck _ _, s) | (.recheckAt _ _ _ _, s) | (.returned _ _, s)
  | (.save _, s) => Settled s []
  | (.final _, _) | (.done, _) => True

omit [DecidableEq Name] [DecidableEq Hash] in
theorem Settled.of_eq {s s' : St Name Hash} {pending : List ℕ} (h : Settled s pending)
    (hdat : s'.vLocData = s.vLocData) (hnext : ∀ j ∈ s.vNextIter, j ∈ s'.vNextIter) :
    Settled s' pending := by
  intro j d hd hlinked hign hneed
  rw [hdat] at hd
  exact (h j d hd hlinked hign hneed).imp_left (hnext j)

omit [DecidableEq Name] [DecidableEq Hash] in
/-- A report rebuilds what is due, or leaves it due. -/
theorem Finished.settled {s s' : St Name Hash} {buildTreeTemp : Bool} {iter : ℕ}
    (h : Finished env buildTreeTemp s iter s')
    (hs : buildTreeTemp = true → Settled s []) : Settled s' [] := by
  intro j d' hd' hlinked hign hneed
  have hlt := (List.getElem?_eq_some_iff.mp hd').1
  rw [h.length] at hlt
  have hd := List.getElem?_eq_getElem hlt
  obtain ⟨d₂, hd₂, hrefresh⟩ := h.dat j _ hd
  rw [hd', Option.some.injEq] at hd₂
  subst hd₂
  cases hrefresh with
  | kept hkept =>
      obtain htemp | hlinked' | hneed' := hkept
      · rw [h.state]
        exact hs htemp j _ hd hlinked hign hneed
      · rw [hlinked] at hlinked'
        cases hlinked'
      · rw [hneed] at hneed'
        cases hneed'
  | rebuilt _ _ _ _ _ _ => cases hneed

/-- **Nobody is forgotten**: one step. -/
theorem Stepped.settledAt {x y : Label × St Name Hash} (h : Stepped env x y)
    (hx : Base env x.2) (hq : QueueAt x) (hok : KeepsInterrupt env x) (hset : SettledAt x) :
    SettledAt y := by
  cases h with
  | start _ => exact Settled.started hset
  | stop => trivial
  | @turn iter k j s s' interrupted hk hrun =>
      obtain ⟨d, d', hd, hturned⟩ := hx.turned hrun
      have hset : Settled s (s.vThisIter.drop k) := hset
      rw [mem_drop_of_getElem? hk] at hset
      have hqueueing := hturned.queueing
      cases interrupted with
      | true =>
          cases hqueueing with
          | interrupted hsignal _ _ _ => exact hsignal
      | false =>
          show Settled s' (s'.vThisIter.drop (k + 1))
          rw [hturned.vThisIter]
          refine (hturned.moved hd).settled hset fun hign hneed => ?_
          cases hqueueing with
          | finished _ _ _ hfalse => simp [hfalse] at hneed
          | ignored _ htrue _ _ => simp [htrue] at hign
          | queued hnext _ _ => simp [hnext]
  | @endTurns iter k s hk =>
      have hset : Settled s (s.vThisIter.drop k) := hset
      rwa [List.drop_eq_nil_of_le (List.getElem?_eq_none_iff.mp hk)] at hset
  | pick _ => exact hset
  | «return» _ => exact hset
  | @recheck iter i k it it' s s' c loc _ _ hre =>
      have hset : Settled s [] := hset
      obtain rfl | ⟨d, d', hmoved, -, hign, hdue⟩ := hre.moved
      · exact hset
      · have hmore : Settled s [k] := fun j e he hl hi hn =>
          .inl ((hset j e he hl hi hn).resolve_right List.not_mem_nil)
        refine hmoved.settled hmore fun hign' hneed => ?_
        rcases hdue hneed hign' with hneed' | hmem
        · have hold := hset k d hmoved.dat hmoved.linked hign hneed'
          exact hmoved.mem_vNextIter (hold.resolve_right List.not_mem_nil)
        · exact hmem
  | endConfig _ => exact hset
  | terminate => trivial
  | @enqueueAll iter s =>
      refine .inl (Settled.of_eq (s := s) hset rfl fun j hj => ?_)
      exact List.mem_append_left _ hj
  | goOn => exact .inl (Settled.of_eq hset rfl fun _ hj => hj)
  | giveUp => exact .inr hset
  | brk _ => trivial
  | usr _ hfin =>
      exact Settled.of_eq (hfin.settled fun hfalse => by cases hfalse) rfl fun _ hj => hj
  | @quiet iter s hsig =>
      refine Settled.of_eq (s := s) (hset.resolve_right fun hbrk => ?_) rfl fun _ hj => hj
      -- the pending interrupt would have been seen
      have hkeep := hok hbrk
      rw [St.readSignal] at hsig
      cases harr : env.arrives s.signalReads with
      | none => simp [harr, hbrk] at hsig
      | some sig => simp_all
  | save hfin => exact hfin.settled fun _ => hset
  | noSave => exact hset
  | finish _ _ => trivial
  | done => trivial

theorem RunsTo.settledAt (hinj : Function.Injective env.locHash)
    (h : RunsTo env (KeepsInterrupt env) l s) : SettledAt (l, s) := by
  refine h.invariant SettledAt (fun x y hx hI hok hstep =>
    hstep.settledAt hx.base (hx.apart_queueAt hinj) hok hI) fun s₀ hinit => ?_
  obtain ⟨-, hnil, -⟩ := env.init_meets.of_eq_ok hinit
  intro j d hd
  rw [hnil] at hd
  cases hd

/-! ## The scheduling of a run -/

/-- What the scheduling keeps up at the label `l` in the state `s`. -/
structure Scheduled (env : Env Name Hash) (guard : Label × St Name Hash → Prop) (l : Label)
    (s : St Name Hash) : Prop where
  /-- After `prepare_vec_loc_data` the records are grouped by coverage. -/
  prepared : ∀ s' new, s.prepareVecLocData env = .ok (s', new) → Grouped s'
  started : ∀ iter, l = .turns iter 0 → Grouped s
  /-- What is unlinked stays unlinked for the rest of the run. -/
  stay : ∀ y, Machine.Reach (step env) guard (l, s) y → StayUnlinked s y.2
  this_nodup : s.vThisIter.Nodup
  this_unlinked : ∀ j ∈ s.vThisIter, ∃ d, s.vLocData[j]? = some d ∧ d.linked = false
  /-- Nobody whose turn is still to come is ignored. -/
  this_awaiting : ∀ iter k, l = .turns iter k → ∀ j ∈ s.vThisIter.drop k,
    ∀ d, s.vLocData[j]? = some d → d.ignored = false
  /-- At the end of `run_iter` everybody who is due is in the queue once. -/
  next_once : ∀ iter empty, l = .returned iter empty → ∀ (j : ℕ) (d : LocData),
    s.vLocData[j]? = some d → d.linked = false → d.ignored = false → d.needRebuild = true →
      s.vNextIter.count j = 1
  /-- The `CHECK`s of the scheduling do not fire. -/
  checks : ∀ f, step env (l, s) = .error f → ¬ f.Scheduling

/-- The faults of the code below and of the hashes of configurations are none of the
scheduling. -/
theorem Fault.Plain.not_scheduling {f : Fault} (h : f.Plain) : ¬ f.Scheduling := by
  cases f <;> simp_all [Fault.Plain, Fault.Scheduling]

omit [DecidableEq Name] [DecidableEq Hash] in
theorem FinishCulprit.not_scheduling {f : Fault} (h : FinishCulprit env s f) : ¬ f.Scheduling := by
  cases h <;> exact id

/-- No `CHECK` of the scheduling fires. -/
theorem RunsTo.checks (hinj : Function.Injective env.locHash)
    (h : RunsTo env (KeepsInterrupt env) l s) {f : Fault} (hf : step env (l, s) = .error f) :
    ¬ f.Scheduling := by
  have hqueue := h.apart_queueAt hinj
  have hculprit := (step_meets (x := (l, s)) h.base).of_eq_error hf
  cases hculprit with
  | plain hplain => exact hplain.not_scheduling
  | dup hdup => exact absurd (Queue.started_nodup hqueue) hdup
  | @turn iter k j _ _ hk hrun =>
      obtain hplain | ⟨-, d, hd, hlinked | hign⟩ := h.base.turn_error hrun
      · exact hplain.not_scheduling
      · obtain ⟨e, he, hunlinked⟩ := h.thisUnlinked hinj j (List.mem_of_getElem? hk)
        rw [hd, Option.some.injEq] at he
        subst he
        rw [hlinked] at hunlinked
        cases hunlinked
      · have hwait := hqueue.2.2 j (by rw [mem_drop_of_getElem? hk]; exact List.mem_cons_self ..)
        rw [hwait.2 d hd] at hign
        cases hign
  | @recheck iter i k it _ d hd hlinked hqueued hign htree =>
      -- a null tree is due, and who is due is in the queue
      have hneed : d.needRebuild = true := by
        by_contra hne
        obtain ⟨t, ht, -⟩ := h.base.sound k d hd (by simpa using hne)
        rw [htree] at ht
        cases ht
      have hset : Settled s [] := h.settledAt hinj
      have hmem := (hset k d hd hlinked hign hneed).resolve_right List.not_mem_nil
      have hflag := (hqueue.2 k d hd).mpr hmem
      rw [hqueued] at hflag
      cases hflag
  | usr _ hculprit => exact hculprit.not_scheduling
  | save hculprit => exact hculprit.not_scheduling
  | finish _ hculprit => exact hculprit.not_scheduling

/-- **Scheduling.**  The invariants hold at every place of every run in which no
interrupt is replaced before it is served, and no `CHECK` of the scheduling fires. -/
theorem scheduling (hinj : Function.Injective env.locHash) :
    (∀ f, env.init = .error f → ¬ f.Scheduling) ∧
      ∀ l s, RunsTo env (KeepsInterrupt env) l s → Scheduled env (KeepsInterrupt env) l s := by
  refine ⟨fun f hf => (env.init_meets.of_eq_error hf).not_scheduling, fun l s h => ?_⟩
  have hqueue := h.apart_queueAt hinj
  refine ⟨fun s' new hprep => ?_, ?_, fun y => h.stayUnlinked hinj, ?_, h.thisUnlinked hinj, ?_,
    ?_, fun f => h.checks hinj⟩
  · obtain ⟨hcov, hlen, hdat⟩ := h.base.prepareVecLocData hprep
    exact grouped_of_preparedAs hinj hcov hlen fun j d hd => ⟨d, hdat j d hd, rfl⟩
  · rintro iter rfl
    exact h.grouped hinj
  · exact hqueue.this_nodup
  · rintro iter k rfl j hj
    exact (hqueue.2.2 j hj).2
  · rintro iter empty rfl j d hd hlinked hign hneed
    have hset : Settled s [] := h.settledAt hinj
    have hmem := (hset j d hd hlinked hign hneed).resolve_right List.not_mem_nil
    exact List.count_eq_one_of_mem hqueue.1.next_nodup hmem

end Run

end Scheduling

/-! ## Examples and counterexamples -/

/-- Two locations, covered by one configuration each. -/
def Env.corners : Env ℕ (List ℤ) :=
  { Env.small fun v => if v = [0, 0, 0] then [1] else if v = [1, 1, 1] then [2] else [] with
    draws := fun k => if k < 3 then 0 else 1
    options := { rounds := 2 } }

/-- At the end of an iteration both records are in the queue. -/
theorem scheduling_corners :
    ∃ s, RunsTo Env.corners (KeepsInterrupt Env.corners) (.returned 1 false) s ∧
      s.vNextIter = [0, 1] ∧
      Scheduled Env.corners (KeepsInterrupt Env.corners) (.returned 1 false) s := by
  have hinj : Function.Injective Env.corners.locHash := Env.small_locHash_injective fun _ => []
  obtain ⟨l, s, hrun, rfl, hnext⟩ := exists_runsTo Env.corners (KeepsInterrupt Env.corners) 13
    (fun x => x.1 = .returned 1 false ∧ x.2.vNextIter = [0, 1]) (by decide +kernel)
  exact ⟨s, hrun, hnext, (scheduling hinj).2 _ s hrun⟩

/-- A record is ignored at its first failure. -/
def Env.impatient : Env ℕ (List ℤ) :=
  { Env.corners with params := { Env.corners.params with thrStuckKickin := 0, maxStuck := 1 } }

/-- `SIGINT` arrives in the turn of the second record, and `SIGRTMIN + 2` behind it. -/
def Env.overtaken : Env ℕ (List ℤ) :=
  { Env.corners with
    arrives := fun k => if k = 1 then some .brk else if k = 2 then some .rt2 else none }

/-- **What does not hold.**  An ignored record stays in `v_this_iter`, and a run that
goes on after an interrupt comes upon a null tree. -/
theorem scheduling_counterexamples :
    (∃ s, RunsTo Env.impatient (fun _ => True) (.turns 1 1) s ∧
      ∃ j ∈ s.vThisIter, ∃ d, s.vLocData[j]? = some d ∧ d.ignored = true) ∧
    ∃ l s, RunsTo Env.overtaken (fun _ => True) l s ∧
      step Env.overtaken (l, s) = .error .recheckNullTree := by
  constructor
  · obtain ⟨l, s, hrun, rfl, hmem, hign⟩ := exists_runsTo Env.impatient (fun _ => True) 2
      (fun x => x.1 = .turns 1 1 ∧ 0 ∈ x.2.vThisIter ∧
        x.2.vLocData[0]?.map LocData.ignored = some true) (by decide +kernel)
    obtain ⟨d, hd, hign⟩ := Option.map_eq_some_iff.mp hign
    exact ⟨s, hrun, 0, hmem, d, hd, hign⟩
  · obtain ⟨l, s, hrun, hfault⟩ := exists_runsTo Env.overtaken (fun _ => True) 11
      (fun x => Env.overtaken.fault x = some .recheckNullTree) (by decide +kernel)
    exact ⟨l, s, hrun, Env.fault_eq_some.mp hfault⟩

end GenTree

import GenTree.Queue

/-!
# Following the trees through an iteration

An iteration runs configurations for the sake of one record and re-checks all other
records with them afterwards.  `SoundTo` follows a property of trees through it that
speaks of the first `n` configurations of the store: it holds of the trees of the records
that are not due to be rebuilt.  At the head of an iteration `n` is the number of
configurations; in the first loop it stays what it was at the head, while the store
grows; and the re-check moves it up to the end again, one configuration at a time.

What the property is does not matter, as long as new trees have it, tests that come out
right keep it and the store may grow (`Tracked`).  What it takes to move `n` up depends on
the property and is a hypothesis of `Rechecked.soundTo`.
-/

namespace GenTree

open Outcome

section Tracking

variable {Name Hash : Type} [DecidableEq Name] [DecidableEq Hash] {env : Env Name Hash}

/-! ## The ids of a configuration -/

/-- The scan of a sorted list of ids: what is left from `k` on begins with `k` when `k`
is in the list, and what is left then is what is left from `k + 1` on. -/
theorem filter_le_scan {l : List ℕ} (h : l.Pairwise (· < ·)) (k : ℕ) :
    ((l.filter fun i => decide (k ≤ i)).head? = some k ↔ k ∈ l) ∧
      (if (l.filter fun i => decide (k ≤ i)).head? = some k
        then (l.filter fun i => decide (k ≤ i)).tail
        else l.filter fun i => decide (k ≤ i)) = l.filter fun i => decide (k + 1 ≤ i) := by
  induction l with
  | nil => simp
  | cons a l ih =>
      obtain ⟨hlt, hl⟩ := List.pairwise_cons.mp h
      rcases Nat.lt_trichotomy a k with hak | rfl | hak
      · have hfilter : ((a :: l).filter fun i => decide (k ≤ i)) =
            l.filter fun i => decide (k ≤ i) :=
          List.filter_cons_of_neg (by rw [decide_eq_true_eq]; omega)
        have hfilter' : ((a :: l).filter fun i => decide (k + 1 ≤ i)) =
            l.filter fun i => decide (k + 1 ≤ i) :=
          List.filter_cons_of_neg (by rw [decide_eq_true_eq]; omega)
        have hne : k ≠ a := by omega
        rw [hfilter, hfilter', List.mem_cons, or_iff_right hne]
        exact ih hl
      · have hfilter : ((a :: l).filter fun i => decide (a ≤ i)) =
            a :: l.filter fun i => decide (a ≤ i) :=
          List.filter_cons_of_pos (by rw [decide_eq_true_eq])
        have hfilter' : ((a :: l).filter fun i => decide (a + 1 ≤ i)) =
            l.filter fun i => decide (a + 1 ≤ i) :=
          List.filter_cons_of_neg (by rw [decide_eq_true_eq]; omega)
        have hrest : (l.filter fun i => decide (a ≤ i)) = l.filter fun i => decide (a + 1 ≤ i) :=
          List.filter_congr fun i hi => by
            have := hlt i hi
            simp only [decide_eq_decide]
            omega
        rw [hfilter, hfilter', List.head?_cons, if_pos rfl, List.tail_cons, hrest]
        exact ⟨⟨fun _ => List.mem_cons_self .., fun _ => rfl⟩, rfl⟩
      · have hall : ∀ i ∈ a :: l, k + 1 ≤ i := by
          intro i hi
          rcases List.mem_cons.mp hi with rfl | hi
          · exact hak
          · have := hlt i hi
            omega
        have hfilter : ((a :: l).filter fun i => decide (k ≤ i)) = a :: l :=
          List.filter_eq_self.mpr fun i hi => decide_eq_true (Nat.le_of_succ_le (hall i hi))
        have hfilter' : ((a :: l).filter fun i => decide (k + 1 ≤ i)) = a :: l :=
          List.filter_eq_self.mpr fun i hi => decide_eq_true (hall i hi)
        have hnot : k ∉ a :: l := fun hmem => by
          have := hall k hmem
          omega
        have hne : a ≠ k := by omega
        have hhead : (a :: l).head? ≠ some k := by simpa using hne
        rw [hfilter, hfilter', if_neg hhead]
        exact ⟨⟨fun heq => absurd heq hhead, fun hmem => absurd hmem hnot⟩, rfl⟩

/-- The ids of the `i`-th configuration that are left before location `k`. -/
def Scanned (s : St Name Hash) (i k : ℕ) (it : List ℕ) : Prop :=
  ∀ c, s.cov.configs[i]? = some c → k ≤ s.vLocData.length →
    it = c.covLocs.filter fun j => decide (k ≤ j)

omit [DecidableEq Name] [DecidableEq Hash] in
/-- The configuration that is re-checked is scanned for one more location. -/
theorem Scanned.succ {s s' : St Name Hash} {c : Config} {i k : ℕ} {it it' : List ℕ}
    (h : Scanned s i k it) (hcov : s'.cov = s.cov)
    (hlen : s'.vLocData.length = s.vLocData.length) (hc : s.cov.configs[i]? = some c)
    (hsorted : c.covLocs.Pairwise (· < ·))
    (hit : k < s.vLocData.length → it' = if it.head? = some k then it.tail else it) :
    Scanned s' i (k + 1) it' := by
  intro c' hc' hle
  rw [hcov, hc, Option.some.injEq] at hc'
  subst hc'
  rw [hlen] at hle
  rw [hit hle, h c hc (Nat.le_of_lt hle)]
  exact (filter_le_scan hsorted k).2

/-! ## The invariant -/

/-- The trees of the records that are not due to be rebuilt have the property `P` for the
first `n` configurations, and the first `k` of them also for the next one. -/
def SoundTo (P : CoverageStore Name → ℕ → ℕ → CTree → Prop) (s : St Name Hash) (n k : ℕ) :
    Prop :=
  ∀ (j : ℕ) (d : LocData), s.vLocData[j]? = some d → d.linked = false → d.ignored = false →
    d.Sound (P s.cov (if j < k then n + 1 else n) j)

/-- The properties of trees that can be followed: they outlive the growth of the store and
the work on a record. -/
structure Tracked (env : Env Name Hash) (P : CoverageStore Name → ℕ → ℕ → CTree → Prop) :
    Prop where
  grows : ∀ (cov cov' : CoverageStore Name) (n j : ℕ) (t : CTree), cov.Grows cov' →
    n ≤ cov.nConfigs → P cov n j t → P cov' n j t
  rule : ∀ (cov : CoverageStore Name) (n j : ℕ), n ≤ cov.nConfigs →
    TreeRule env cov j fun cov' => P cov' n j

namespace SoundTo

variable {P : CoverageStore Name → ℕ → ℕ → CTree → Prop} {s s' : St Name Hash} {n k : ℕ}

omit [DecidableEq Name] [DecidableEq Hash] in
/-- Steps that touch neither the store nor a record. -/
theorem of_eq (h : SoundTo P s n k) (hcov : s'.cov = s.cov) (hdat : s'.vLocData = s.vLocData) :
    SoundTo P s' n k := by
  intro j d hd
  rw [hdat] at hd
  rw [hcov]
  exact h j d hd

omit [DecidableEq Name] [DecidableEq Hash] in
/-- When nothing has been re-checked yet. -/
theorem sound (h : SoundTo P s n 0) {j : ℕ} {d : LocData} (hd : s.vLocData[j]? = some d)
    (hlinked : d.linked = false) (hign : d.ignored = false) : d.Sound (P s.cov n j) := by
  have hsound := h j d hd hlinked hign
  rwa [if_neg (Nat.not_lt_zero j)] at hsound

omit [DecidableEq Name] [DecidableEq Hash] in
theorem of_sound (h : ∀ (j : ℕ) (d : LocData), s.vLocData[j]? = some d → d.linked = false →
    d.ignored = false → d.Sound (P s.cov n j)) : SoundTo P s n 0 := by
  intro j d hd hlinked hign
  rw [if_neg (Nat.not_lt_zero j)]
  exact h j d hd hlinked hign

omit [DecidableEq Name] in
/-- The first loop begins with the records that were there, and with new ones that are due to
be rebuilt. -/
theorem started (h : SoundTo P s n 0) : SoundTo P (s.started env) n 0 := by
  intro j d hd hlinked hign
  obtain ⟨-, d₀, hd₀, rfl⟩ := St.started_dat hd
  cases hd₀ with
  | linked _ _ _ _ hneed => exact LocData.sound_of_needRebuild hneed
  | kept _ he _ =>
      have hsound := h j _ he hlinked hign
      exact hsound
  | new _ _ _ _ _ hneed => exact LocData.sound_of_needRebuild hneed

/-- What holds of the tree of a record that has had its turn. -/
theorem turned (h : SoundTo P s n 0) (hP : Tracked env P) (hs : Base env s)
    (hn : n ≤ s.cov.nConfigs) {iter j : ℕ} {d : LocData} (hd : s.vLocData[j]? = some d)
    {interrupted : Bool} (hrun : s.turn env iter j = .ok (s', interrupted)) {d' : LocData}
    (hd' : s'.vLocData[j]? = some d') (hign : d'.ignored = false) :
    d'.Sound (P s'.cov n j) := by
  obtain ⟨e, e', he, hturned⟩ := hs.turned hrun
  rw [hd, Option.some.injEq] at he
  subst he
  have hunignored : d.ignored = false := by
    rw [(hturned.moved hd).dat', Option.some.injEq] at hd'
    subst hd'
    by_contra htrue
    rw [hturned.ignored (by simpa using htrue)] at hign
    cases hign
  have hsound := h.sound hd hturned.linked hunignored
  have hrule := hP.rule s.cov n j hn
  obtain ⟨e', hturned⟩ := (St.turn_meets hs.stocked hd
    (by rw [hs.loc_eq j d hd]; exact hrule) hsound).of_eq_ok hrun
  rw [(hturned.moved hd).dat', Option.some.injEq] at hd'
  subst hd'
  exact hturned.sound

/-- **A turn.** -/
theorem turn (h : SoundTo P s n 0) (hP : Tracked env P) (hs : Base env s)
    (hn : n ≤ s.cov.nConfigs) {iter j : ℕ} {interrupted : Bool}
    (hrun : s.turn env iter j = .ok (s', interrupted)) : SoundTo P s' n 0 := by
  obtain ⟨d, d', hd, hturned⟩ := hs.turned hrun
  apply of_sound
  intro i e he hlinked hign
  by_cases hij : i = j
  · subst hij
    exact h.turned hP hs hn hd hrun he hign
  · rw [(hturned.moved hd).of_ne hij] at he
    intro hneed
    obtain ⟨t, ht, hgood⟩ := h.sound he hlinked hign hneed
    exact ⟨t, ht, hP.grows _ _ n i t hturned.grows hn hgood⟩

omit [DecidableEq Name] [DecidableEq Hash] in
/-- The record `k` has been re-checked, and nothing has changed. -/
theorem succ (h : SoundTo P s n k)
    (hk : ∀ d, s.vLocData[k]? = some d → d.linked = false → d.ignored = false →
      d.Sound (P s.cov n k) → d.Sound (P s.cov (n + 1) k)) : SoundTo P s n (k + 1) := by
  intro j d hd hlinked hign
  have hsound := h j d hd hlinked hign
  by_cases hjk : j = k
  · subst hjk
    rw [if_neg (Nat.lt_irrefl j)] at hsound
    rw [if_pos (Nat.lt_succ_self j)]
    exact hk d hd hlinked hign hsound
  · have hiff : j < k + 1 ↔ j < k := by omega
    simp only [hiff]
    exact hsound

omit [DecidableEq Name] [DecidableEq Hash] in
/-- The record `k` has been re-checked. -/
theorem set (h : SoundTo P s n k) {d' : LocData} (hcov : s'.cov = s.cov)
    (hdat : s'.vLocData = s.vLocData.set k d') (hd' : d'.Sound (P s.cov (n + 1) k)) :
    SoundTo P s' n (k + 1) := by
  intro j d hd hlinked hign
  rw [hdat] at hd
  rw [hcov]
  obtain ⟨rfl, rfl⟩ | ⟨hjk, hd⟩ := getElem?_set_cases hd
  · rwa [if_pos (Nat.lt_succ_self j)]
  · have hiff : j < k + 1 ↔ j < k := by omega
    simp only [hiff]
    exact h j d hd hlinked hign

omit [DecidableEq Name] [DecidableEq Hash] in
/-- When all records have been re-checked, the next configuration may come. -/
theorem endConfig (h : SoundTo P s n k) (hk : s.vLocData.length ≤ k) : SoundTo P s (n + 1) 0 := by
  apply of_sound
  intro j d hd hlinked hign
  have hlt := (List.getElem?_eq_some_iff.mp hd).1
  have hsound := h j d hd hlinked hign
  rwa [if_pos (by omega)] at hsound

/-- A report refreshes records at most. -/
theorem finished (h : SoundTo P s n 0) (hP : Tracked env P) (hs : Base env s)
    (hn : n ≤ s.cov.nConfigs) {buildTreeTemp : Bool} {iter : ℕ}
    (hfin : Finished env buildTreeTemp s iter s') : SoundTo P s' n 0 := by
  have hcov : s'.cov = s.cov := by rw [hfin.state]
  apply of_sound
  rw [hcov]
  intro j d' hd' hlinked hign
  have hlt := (List.getElem?_eq_some_iff.mp hd').1
  rw [hfin.length] at hlt
  have hd := List.getElem?_eq_getElem hlt
  generalize s.vLocData[j] = d at hd
  obtain ⟨d₂, hd₂, hrefresh⟩ := hfin.dat j d hd
  rw [hd', Option.some.injEq] at hd₂
  subst hd₂
  cases hrefresh with
  | kept _ => exact h.sound hd hlinked hign
  | @rebuilt t _ _ _ _ _ htree =>
      rw [hs.loc_eq j d hd] at htree
      exact fun _ => ⟨t, rfl, (hP.rule s.cov n j hn).new s t (.refl _) hs.stocked htree⟩

end SoundTo

omit [DecidableEq Hash] in
/-- **The re-check of one record**, when passing over a queued record and counting a
configuration that the tree is right about both move the property up. -/
theorem Rechecked.soundTo {P : CoverageStore Name → ℕ → ℕ → CTree → Prop} {s s' : St Name Hash}
    {c : Config} {i k : ℕ} {it it' : List ℕ} (h : Rechecked env c k it s s' it')
    (hs : Base env s) (hc : s.cov.configs[i]? = some c)
    (hskip : ∀ d, s.vLocData[k]? = some d → d.linked = false → d.ignored = false →
      d.queuedNext = true → d.Sound (P s.cov i k) → d.Sound (P s.cov (i + 1) k))
    (hcount : ∀ d t t₁ t₂, s.vLocData[k]? = some d → d.linked = false → d.ignored = false →
      d.queuedNext = false → d.needRebuild = false → d.tree = some t →
      t.buildInterpreter env.dom = .ok t₁ →
      t₁.interpretAdd env.dom c = .ok (decide (k ∈ c.covLocs), t₂) →
      P s.cov i k t → P s.cov (i + 1) k t₂)
    (hsound : SoundTo P s i k) (hscan : Scanned s i k it) :
    SoundTo P s' i (k + 1) ∧ Scanned s' i (k + 1) it' := by
  obtain ⟨hist, hv⟩ := hs.stocked.valid
  have hsorted := hv.covLocs_sorted c (List.mem_of_getElem? hc)
  cases h with
  | absent hle =>
      have hnone := List.getElem?_eq_none hle
      exact ⟨hsound.succ fun d hd => by simp [hnone] at hd,
        hscan.succ rfl rfl hc hsorted fun hlt => absurd hlt (Nat.not_lt.mpr hle)⟩
  | @skipped d hd hor =>
      refine ⟨hsound.succ fun d' hd' hlinked hign => ?_, hscan.succ rfl rfl hc hsorted fun _ => rfl⟩
      have hqueued : d'.queuedNext = true := by
        rw [hd, Option.some.injEq] at hd'
        subst hd'
        simpa [hlinked, hign] using hor
      exact hskip d' hd' hlinked hign hqueued
  | @right d t t₁ t₂ hd hlinked hqueued hign htree hbuild heval =>
      have hlt := (List.getElem?_eq_some_iff.mp hd).1
      have htruth : it.head? = some k ↔ k ∈ c.covLocs := by
        rw [hscan c hc (Nat.le_of_lt hlt)]
        exact (filter_le_scan hsorted k).1
      refine ⟨hsound.set rfl rfl fun hneed => ⟨t₂, rfl, ?_⟩,
        hscan.succ rfl (by simp [St.setDat]) hc hsorted fun _ => rfl⟩
      obtain ⟨t', ht', hold⟩ := hsound k d hd hlinked hign hneed
      rw [htree, Option.some.injEq] at ht'
      subst ht'
      rw [if_neg (Nat.lt_irrefl k)] at hold
      refine hcount d t t₁ t₂ hd hlinked hign hqueued hneed htree hbuild ?_ hold
      rw [heval]
      simp only [htruth]
  | wrong hd _ _ _ henq =>
      cases henq with
      | ignored _ _ _ _ hneed hstate =>
          subst hstate
          exact ⟨hsound.set rfl (by simp [St.setDat]) (LocData.sound_of_needRebuild hneed),
            hscan.succ rfl (by simp [St.setDat]) hc hsorted fun _ => rfl⟩
      | queued _ _ _ _ hneed _ hstate =>
          subst hstate
          exact ⟨hsound.set rfl (by simp [St.setDat]) (LocData.sound_of_needRebuild hneed),
            hscan.succ rfl (by simp [St.setDat]) hc hsorted fun _ => rfl⟩

end Tracking

end GenTree

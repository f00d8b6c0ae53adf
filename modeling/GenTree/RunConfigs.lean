import GenTree.CoverageInvariant
import GenTree.Fresh

/-!
# What running configurations does

`run_configs` registers a list of configurations with the locations the program
under test covers.  `Ran` says all that it does: the store and the set of hashes
that have been run change, and nothing else.  The store only grows
(`CoverageStore.Grows`): configurations and locations stay at their positions,
and the list of a location is extended by new ids.  Two coverage lists that
differ therefore differ for ever (`Grows.covBy_ne`), which is what the scheduling
of records rests on.
-/

namespace GenTree

open Outcome

/-! ## Faults from below -/

section Lift

variable {α : Type} {Q : α → Prop} {E : Fault → Prop}

/-- A computation of the code below, under a specification that permits all its
faults. -/
theorem meets_lift {x : Except Abort α} (hE : ∀ a, E (.lower a)) (hQ : ∀ a, x = .ok a → Q a) :
    Meets (liftM x : Except Fault α) Q E := by
  cases x with
  | error e => exact hE e
  | ok a => exact hQ a rfl

@[simp] theorem lift_ok (a : α) : (liftM (.ok a : Except Abort α) : Except Fault α) = .ok a := rfl

/-- Sequencing behind a computation of the code below. -/
theorem meets_lift_bind {β : Type} {R : β → Prop} {x : Except Abort α} {f : α → Except Fault β}
    (hE : ∀ a, E (.lower a)) (hf : ∀ a, x = .ok a → Meets (f a) R E) :
    Meets ((liftM x : Except Fault α) >>= f) R E :=
  meets_bind (meets_lift hE fun _ h => h) hf

/-- The same, when it matters what the code below dies of. -/
theorem meets_lift_bind_of_eq {β : Type} {R : β → Prop} {x : Except Abort α}
    {f : α → Except Fault β} (hE : ∀ a, x = .error a → E (.lower a))
    (hf : ∀ a, x = .ok a → Meets (f a) R E) : Meets ((liftM x : Except Fault α) >>= f) R E := by
  cases x with
  | error a => exact hE a rfl
  | ok a => exact hf a rfl

end Lift

/-! ## Stores that grow -/

namespace CoverageStore

variable {Name : Type}

/-- `cov_by` of the location with an id. -/
def covBy (cov : CoverageStore Name) (j : ℕ) : Option (List ℕ) :=
  cov.locs[j]?.map Location.covBy

/-- The store `cov'` is a later state of the store `cov`. -/
structure Grows (cov cov' : CoverageStore Name) : Prop where
  configs : ∀ (i : ℕ) (c : Config), cov.configs[i]? = some c → cov'.configs[i]? = some c
  locs : ∀ (j : ℕ) (l : Location Name), cov.locs[j]? = some l → ∃ l' new,
    cov'.locs[j]? = some l' ∧ l'.name = l.name ∧ l'.covBy = l.covBy ++ new ∧
      ∀ i ∈ new, cov.nConfigs ≤ i

namespace Grows

variable {cov cov' cov'' : CoverageStore Name}

theorem refl (cov : CoverageStore Name) : cov.Grows cov :=
  ⟨fun _ _ h => h, fun _ l h => ⟨l, [], h, rfl, by simp, by simp⟩⟩

theorem nConfigs_le (h : cov.Grows cov') : cov.nConfigs ≤ cov'.nConfigs := by
  rw [nConfigs, nConfigs]
  rcases Nat.eq_zero_or_pos cov.configs.length with hzero | hpos
  · omega
  · have hlt : cov.configs.length - 1 < cov.configs.length := by omega
    have hget := h.configs _ _ (List.getElem?_eq_getElem hlt)
    have := (List.getElem?_eq_some_iff.mp hget).1
    omega

theorem nLocs_le (h : cov.Grows cov') : cov.nLocs ≤ cov'.nLocs := by
  rw [nLocs, nLocs]
  rcases Nat.eq_zero_or_pos cov.locs.length with hzero | hpos
  · omega
  · have hlt : cov.locs.length - 1 < cov.locs.length := by omega
    obtain ⟨_, _, hget, -⟩ := h.locs _ _ (List.getElem?_eq_getElem hlt)
    have := (List.getElem?_eq_some_iff.mp hget).1
    omega

theorem trans (h : cov.Grows cov') (h' : cov'.Grows cov'') : cov.Grows cov'' := by
  refine ⟨fun i c hc => h'.configs i c (h.configs i c hc), fun j l hl => ?_⟩
  obtain ⟨l', new, hl', hname, hcov, hnew⟩ := h.locs j l hl
  obtain ⟨l'', new', hl'', hname', hcov', hnew'⟩ := h'.locs j l' hl'
  refine ⟨l'', new ++ new', hl'', hname'.trans hname, by rw [hcov', hcov, List.append_assoc], ?_⟩
  intro i hi
  rcases List.mem_append.mp hi with hi | hi
  · exact hnew i hi
  · exact h.nConfigs_le.trans (hnew' i hi)

/-- **Coverage lists that differ once differ for ever.** -/
theorem covBy_ne (h : cov.Grows cov') (hlt : ∀ l ∈ cov.locs, ∀ i ∈ l.covBy, i < cov.nConfigs)
    {j k : ℕ} (hj : j < cov.nLocs) (hk : k < cov.nLocs) (hne : cov.covBy j ≠ cov.covBy k) :
    cov'.covBy j ≠ cov'.covBy k := by
  have hgetj := List.getElem?_eq_getElem (show j < cov.locs.length from hj)
  have hgetk := List.getElem?_eq_getElem (show k < cov.locs.length from hk)
  obtain ⟨l₁, new₁, hl₁, -, hcov₁, hnew₁⟩ := h.locs j _ hgetj
  obtain ⟨l₂, new₂, hl₂, -, hcov₂, hnew₂⟩ := h.locs k _ hgetk
  intro heq
  rw [covBy, covBy, hl₁, hl₂, Option.map_some, Option.map_some, Option.some.injEq, hcov₁,
    hcov₂] at heq
  -- the old parts are what lies below the old number of configurations
  have hold : ∀ (old new : List ℕ), (∀ i ∈ old, i < cov.nConfigs) →
      (∀ i ∈ new, cov.nConfigs ≤ i) → (old ++ new).filter (· < cov.nConfigs) = old := by
    intro old new hold hnew
    rw [List.filter_append, List.filter_eq_self.mpr (by simpa using hold),
      List.filter_eq_nil_iff.mpr (by simpa using hnew), List.append_nil]
  have hfilter := congrArg (List.filter (· < cov.nConfigs)) heq
  rw [hold _ _ (hlt _ (List.mem_of_getElem? hgetj)) hnew₁,
    hold _ _ (hlt _ (List.mem_of_getElem? hgetk)) hnew₂] at hfilter
  exact hne (by rw [covBy, covBy, hgetj, hgetk, Option.map_some, Option.map_some, hfilter])

end Grows

section Valid

variable [DecidableEq Name] {cov cov' : CoverageStore Name} {hist : List (List Name)}

theorem Valid.covBy_lt (h : cov.Valid hist) : ∀ l ∈ cov.locs, ∀ i ∈ l.covBy, i < cov.nConfigs := by
  intro l hl i hi
  rw [h.covBy l hl] at hi
  exact Nat.lt_of_lt_of_eq (covering_lt hi) h.nConfigs.symm

/-- A registration makes the store grow. -/
theorem Registered.grows {c : Config} {names : List Name} (h : Registered cov c names cov') :
    cov.Grows cov' := by
  obtain ⟨covLocs, hconfigs, -, -⟩ := h.configs
  obtain ⟨new, -, hlocs⟩ := h.locs
  refine ⟨fun i c' hc' => ?_, fun j l hl => ?_⟩
  · rw [hconfigs, List.getElem?_append_left (List.getElem?_eq_some_iff.mp hc').1, hc']
  · have hlt := (List.getElem?_eq_some_iff.mp hl).1
    have hget := hlocs j
    rw [List.getElem?_append_left hlt, hl, Option.map_some] at hget
    by_cases hmem : l.name ∈ names
    · rw [if_pos hmem] at hget
      exact ⟨_, [cov.nConfigs], hget, rfl, rfl, by simp⟩
    · rw [if_neg hmem] at hget
      exact ⟨l, [], hget, rfl, by simp, by simp⟩

end Valid

end CoverageStore

/-! ## `run_configs` -/

section Run

variable {Name Hash : Type} [DecidableEq Name] [DecidableEq Hash] {env : Env Name Hash}

/-- The names the program under test gives for configurations that are run one
after the other, from the `n`-th on. -/
def Env.namesFrom (env : Env Name Hash) (n : ℕ) (cs : List Config) : List (List Name) :=
  cs.mapIdx fun i c => env.program (n + i) c.values

omit [DecidableEq Name] [DecidableEq Hash] in
theorem Env.namesFrom_append (n : ℕ) (cs cs' : List Config) :
    env.namesFrom n (cs ++ cs') = env.namesFrom n cs ++ env.namesFrom (n + cs.length) cs' := by
  simp only [namesFrom, List.mapIdx_append, Nat.add_assoc, Nat.add_comm cs.length]

omit [DecidableEq Name] [DecidableEq Hash] in
theorem Env.namesFrom_cons (n : ℕ) (c : Config) (cs : List Config) :
    env.namesFrom n (c :: cs) = env.program n c.values :: env.namesFrom (n + 1) cs := by
  simp only [namesFrom, List.mapIdx_cons, Nat.add_zero, Nat.add_assoc, Nat.add_comm 1]

/-- The configurations `cs` have been run, and the state has changed from `s` to
`s'` by that. -/
structure Ran (env : Env Name Hash) (s : St Name Hash) (cs : List Config)
    (s' : St Name Hash) : Prop where
  state : s' = { s with cov := s'.cov, setRanConfHash := s'.setRanConfHash }
  hashes : s'.setRanConfHash =
    (cs.map fun c => env.confHash c.hashKey).reverse ++ s.setRanConfHash
  values : s'.cov.configs.map Config.values = s.cov.configs.map Config.values ++
    cs.map Config.values
  valid : ∀ hist, s.cov.Valid hist → s'.cov.Valid (hist ++ env.namesFrom s.cov.nConfigs cs)
  grows : (∃ hist, s.cov.Valid hist) → s.cov.Grows s'.cov

namespace Ran

variable {s s' s'' : St Name Hash} {cs cs' : List Config}

omit [DecidableEq Hash]

theorem refl (s : St Name Hash) : Ran env s [] s :=
  ⟨rfl, by simp, by simp, fun hist h => by simpa [Env.namesFrom] using h,
    fun _ => CoverageStore.Grows.refl _⟩

theorem nConfigs (h : Ran env s cs s') : s'.cov.nConfigs = s.cov.nConfigs + cs.length := by
  simpa [CoverageStore.nConfigs] using congrArg List.length h.values

theorem trans (h : Ran env s cs s') (h' : Ran env s' cs' s'') : Ran env s (cs ++ cs') s'' where
  state := by rw [h'.state, h.state]
  hashes := by rw [h'.hashes, h.hashes]; simp
  values := by rw [h'.values, h.values]; simp
  valid hist hv := by
    have hv' := h'.valid _ (h.valid hist hv)
    rwa [h.nConfigs, List.append_assoc, ← Env.namesFrom_append] at hv'
  grows hv := (h.grows hv).trans (h'.grows (hv.imp' _ fun hist hh => h.valid hist hh))

end Ran

/-- **One configuration is run.**  On a valid store its registration does not
fail, so the only fault is that its hash has been run before. -/
theorem St.registerRun_meets {s : St Name Hash} (hv : ∃ hist, s.cov.Valid hist) (ids : List ℕ)
    {c : Config} (hc : c.Fresh env.dom) :
    Meets (St.registerRun env (s, ids) (c, env.program s.cov.nConfigs c.values))
      (fun r => Ran env s [c] r.1 ∧ r.2 = ids ++ [s.cov.nConfigs])
      (fun f => f = .confRanTwice ∧ env.confHash c.hashKey ∈ s.setRanConfHash) := by
  obtain ⟨hist₀, hv₀⟩ := hv
  have hnodup := env.program_nodup s.cov.nConfigs c.values
  obtain ⟨cov', n, hrun, hreg, -⟩ := hv₀.registerCov hc.id hc.covLocs hnodup
  obtain ⟨covLocs, hconfigs, -, -⟩ := hreg.configs
  rw [St.registerRun]
  simp only [hrun, lift_ok, ok_bind]
  refine meets_check_bind (fun _ => ?_) fun hmem => ⟨rfl, not_not.mp hmem⟩
  refine ⟨⟨rfl, by simp, by simp [hconfigs], fun hist hv => ?_, fun _ => hreg.grows⟩,
    by simp [hc.id]⟩
  obtain ⟨cov₂, n₂, hrun₂, -, hv₂⟩ := hv.registerCov hc.id hc.covLocs hnodup
  rw [hrun] at hrun₂
  cases hrun₂
  simpa [Env.namesFrom] using hv₂

/-- The fault of running `cs`: a hash comes up twice. -/
def RanTwice (env : Env Name Hash) (s : St Name Hash) (cs : List Config) (f : Fault) : Prop :=
  f = .confRanTwice ∧
    ¬ ((cs.map fun c => env.confHash c.hashKey).reverse ++ s.setRanConfHash).Nodup

omit [DecidableEq Name] [DecidableEq Hash] in
theorem RanTwice.append_left {s : St Name Hash} {cs cs' : List Config} {f : Fault}
    (h : RanTwice env s cs f) : RanTwice env s (cs ++ cs') f := by
  refine ⟨h.1, fun hnd => h.2 ?_⟩
  rw [List.map_append, List.reverse_append, List.append_assoc] at hnd
  exact hnd.of_append_right

omit [DecidableEq Hash] in
theorem RanTwice.append_right {s s' : St Name Hash}
    {cs cs' : List Config} {f : Fault} (hran : Ran env s cs s') (h : RanTwice env s' cs' f) :
    RanTwice env s (cs ++ cs') f := by
  refine ⟨h.1, fun hnd => h.2 ?_⟩
  rwa [hran.hashes, ← List.append_assoc, ← List.reverse_append, ← List.map_append]

/-- `_run_configs`; the pointers that are returned are the next ids. -/
theorem St.runChunk_meets {s : St Name Hash} (hv : ∃ hist, s.cov.Valid hist) {cs : List Config}
    (hcs : AllFresh env.dom cs) :
    Meets (s.runChunk env cs)
      (fun r => Ran env s cs r.1 ∧ r.2 = List.range' s.cov.nConfigs cs.length)
      (RanTwice env s cs) := by
  suffices h : ∀ (cs : List Config) (s₁ : St Name Hash) (ids : List ℕ),
      (∃ hist, s₁.cov.Valid hist) → AllFresh env.dom cs →
        Meets ((cs.zip (env.namesFrom s₁.cov.nConfigs cs)).foldlM (St.registerRun env) (s₁, ids))
          (fun r => Ran env s₁ cs r.1 ∧ r.2 = ids ++ List.range' s₁.cov.nConfigs cs.length)
          (RanTwice env s₁ cs) from h cs s [] hv hcs
  intro cs
  induction cs with
  | nil => exact fun s₁ ids _ _ => ⟨Ran.refl s₁, by simp⟩
  | cons c cs ih =>
      intro s₁ ids hv hfresh
      rw [Env.namesFrom_cons, List.zip_cons_cons, List.foldlM_cons]
      have hone := St.registerRun_meets hv ids (hfresh c (List.mem_cons_self ..))
      refine meets_bind (hone.mono (fun _ h => h) ?_) ?_
      · rintro f ⟨rfl, hmem⟩
        refine ⟨rfl, fun hnd => ?_⟩
        rw [List.map_cons, List.reverse_cons, List.append_assoc, List.singleton_append] at hnd
        exact (List.nodup_cons.mp hnd.of_append_right).1 hmem
      · rintro ⟨s₂, ids₂⟩ ⟨hran, hids⟩
        have hlen : s₂.cov.nConfigs = s₁.cov.nConfigs + 1 := hran.nConfigs
        dsimp only at hids
        have hrest := ih s₂ ids₂ (hv.imp' _ fun hist hh => hran.valid hist hh)
          fun c' hc' => hfresh c' (List.mem_cons_of_mem _ hc')
        rw [hlen] at hrest
        refine hrest.mono ?_ fun f hf => hf.append_right hran
        rintro r ⟨hr, hids'⟩
        refine ⟨hran.trans hr, ?_⟩
        rw [hids', hids, List.length_cons, List.range'_succ, List.append_assoc,
          List.singleton_append]

/-- The loop over slices. -/
theorem St.runSlices_meets {fuel : ℕ} {s : St Name Hash} (hv : ∃ hist, s.cov.Valid hist)
    (ids : List ℕ) {cs : List Config} (hcs : AllFresh env.dom cs) (hfuel : cs.length < fuel) :
    Meets (St.runSlices env fuel (s, ids) cs)
      (fun r => Ran env s cs r.1 ∧ r.2 = ids ++ List.range' s.cov.nConfigs cs.length)
      (RanTwice env s cs) := by
  induction fuel generalizing s ids cs with
  | zero => omega
  | succ fuel ih =>
      rw [St.runSlices]
      split
      · next hnil =>
          subst hnil
          exact ⟨Ran.refl s, by simp⟩
      · next hne =>
          have hpos := List.length_pos_iff.mpr hne
          have hsplit := List.take_append_drop 1000 cs
          have htake : AllFresh env.dom (cs.take 1000) :=
            fun c hc => hcs c (List.mem_of_mem_take hc)
          have hdrop : AllFresh env.dom (cs.drop 1000) :=
            fun c hc => hcs c (List.mem_of_mem_drop hc)
          refine meets_bind ((St.runChunk_meets hv htake).mono (fun _ h => h) fun f hf => ?_)
            fun r hr => ?_
          · rw [← hsplit]
            exact hf.append_left
          · obtain ⟨s₁, new⟩ := r
            obtain ⟨hran, hnew⟩ := hr
            dsimp only at hran hnew
            have hlen : (cs.drop 1000).length < fuel := by
              rw [List.length_drop]
              omega
            refine (ih (hv.imp' _ fun hist hh => hran.valid hist hh) _ hdrop hlen).mono
              (fun r' hr' => ?_) fun f hf => ?_
            · refine ⟨by rw [← hsplit]; exact hran.trans hr'.1, ?_⟩
              have hsize : cs.length = (cs.take 1000).length + (cs.drop 1000).length := by
                rw [← List.length_append, hsplit]
              rw [hr'.2, hnew, hran.nConfigs, List.append_assoc, List.range'_append_1, ← hsize]
            · rw [← hsplit]
              exact hf.append_right hran

/-- `run_configs`, with the pointers it returns. -/
theorem St.runConfigs_ids {s : St Name Hash} (hv : ∃ hist, s.cov.Valid hist)
    {cs : List Config} (hcs : AllFresh env.dom cs) :
    Meets (s.runConfigs env cs)
      (fun r => Ran env s cs r.1 ∧ r.2 = List.range' s.cov.nConfigs cs.length)
      (RanTwice env s cs) := by
  rw [St.runConfigs]
  split
  · exact St.runChunk_meets hv hcs
  · exact St.runSlices_meets hv [] hcs (Nat.lt_succ_self _)

/-- **`run_configs`** on a valid store runs all the fresh configurations it is
given, unless one of their hashes comes up twice. -/
theorem St.runConfigs_meets {s : St Name Hash} (hv : ∃ hist, s.cov.Valid hist)
    {cs : List Config} (hcs : AllFresh env.dom cs) :
    Meets (s.runConfigs env cs) (fun r => Ran env s cs r.1) (RanTwice env s cs) :=
  (St.runConfigs_ids hv hcs).imp fun _ h => h.1

/-- What `_run_configs` checks of the hashes. -/
theorem St.runChunk_nodup {s : St Name Hash} (h : s.setRanConfHash.Nodup) (cs : List Config) :
    Meets (s.runChunk env cs) (fun r => r.1.setRanConfHash.Nodup) fun _ => True := by
  refine meets_foldlM_const (fun p : St Name Hash × List ℕ => p.1.setRanConfHash.Nodup) _ ?_ h
  rintro ⟨c, names⟩ - ⟨s, ids⟩ hs
  rw [registerRun]
  refine meets_bind_of_eq (fun _ _ => trivial) fun r _ => ?_
  exact meets_check_bind (fun hnew => List.nodup_cons.mpr ⟨hnew, hs⟩) fun _ => trivial

theorem St.runConfigs_nodup {s : St Name Hash} (h : s.setRanConfHash.Nodup) (cs : List Config) :
    Meets (s.runConfigs env cs) (fun r => r.1.setRanConfHash.Nodup) fun _ => True := by
  have hslices : ∀ (fuel : ℕ) (s : St Name Hash) (ids : List ℕ) (cs : List Config),
      s.setRanConfHash.Nodup →
        Meets (St.runSlices env fuel (s, ids) cs) (fun r => r.1.setRanConfHash.Nodup)
          fun _ => True := by
    intro fuel
    induction fuel with
    | zero => exact fun _ _ _ _ => trivial
    | succ fuel ih =>
        intro s ids cs hs
        rw [runSlices]
        split
        · exact hs
        · exact meets_bind (runChunk_nodup hs _) fun r hr => ih _ _ _ hr
  rw [runConfigs]
  split
  · exact runChunk_nodup h cs
  · exact hslices _ s [] cs h

end Run

end GenTree

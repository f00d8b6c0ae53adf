import Mathlib.Data.Int.Basic
import GenTree.IterStore

/-!
# The report of the first iterative algorithm

At the end, and after every hundredth iteration, `run_alg_test_1` throws all trees away,
builds one for each group of locations with the same hash (`finalize_build_trees`), and
prints the groups with their formulas (`finish_alg1`).  Both walk over the locations that
were known when the latest iteration began, with a map from hashes to locations.

The trees are built from all configurations that have been run, ignored locations
included.  So at any moment of any run both functions come to their ends, the two checks of
`finish_alg1` do not fire, and what is printed is right about everything that has been run
(`RunsTo.finishAlg1_fits`).

Z3 simplifies the formulas before they are printed; here they stand as they are built.
-/

namespace GenTree

open Outcome Leaders

namespace IterativeAlgorithm

/-! ## `finish_alg1` -/

/-- What `finish_alg1` dies of: its checks of the tree of a first location and of the
pointer of a later one, and whatever the code below dies of. -/
inductive FinishFault
  | lower (a : Abort)
  | noTree
  | noSharedTree

instance : MonadLift (Except Abort) (Except FinishFault) := ⟨Except.mapError .lower⟩

/-- `LineEnt`. -/
structure LineEnt (Name : Type) where
  locs : List Name := []
  expr : Option ZExpr := none
  rebuildIter : ℕ := 0
  ignored : Bool := false

variable {Name Hash : Type}

/-- `expr_strat`. -/
def exprStrat (env : Env Name Hash) : ExprStrat :=
  if env.options.disjConj then .disjOfConj else .freeMix

/-- The local variables of `finish_alg1`. -/
structure Finish (Name Hash : Type) where
  mapLocHash : List (Hash × ℕ) := []
  ents : List (LineEnt Name)

section Algorithm

variable [DecidableEq Hash]

/-- The body of the loop of `finish_alg1` for the location `loc` with the id `id`. -/
def finishLoc1 (env : Env Name Hash) (s : St Name Hash) (q : Finish Name Hash) (id : ℕ)
    (loc : Location Name) : Except FinishFault (Finish Name Hash) := do
  let d ← vecAt s.vecLocData id
  match q.mapLocHash.lookup (env.locHash loc.covBy) with
  | none =>
      match d.tree with
      | none => .error .noTree
      | some ptr => do
          let tree ← vecAt s.trees ptr
          let e ← tree.buildZexpr env.dom (exprStrat env)
          let et ← vecAt q.ents id
          let et := { et with
            locs := et.locs ++ [loc.name], expr := some e
            rebuildIter := d.rebuildIter.length, ignored := d.ignored }
          .ok { mapLocHash := q.mapLocHash ++ [(env.locHash loc.covBy, id)]
                ents := q.ents.set id et }
  | some mloc => do
      check (d.sharedTree ≠ none) .noSharedTree
      let et ← vecAt q.ents mloc
      .ok { q with ents := q.ents.set mloc { et with locs := et.locs ++ [loc.name] } }

/-- The loop of `finish_alg1`, up to the first location without a record. -/
def finishLocs1 (env : Env Name Hash) (s : St Name Hash) :
    List (Location Name) → Finish Name Hash → Except FinishFault (Finish Name Hash)
  | [], q => .ok q
  | loc :: locs, q => do
      let id ← loc.index
      if s.vecLocData.length ≤ id then .ok q
      else
        let q ← finishLoc1 env s q id loc
        finishLocs1 env s locs q

/-- What `finish_alg1` prints; entries without locations are passed over. -/
structure Result (Name : Type) where
  nConfigs : ℕ
  nLocs : ℕ
  nUniq : ℕ
  ents : List (LineEnt Name)

/-- `finish_alg1`. -/
def finishAlg1 (env : Env Name Hash) (s : St Name Hash) : Except FinishFault (Result Name) := do
  let q ← finishLocs1 env s s.cov.locs { ents := List.replicate s.vecLocData.length {} }
  .ok { nConfigs := s.cov.nConfigs, nLocs := s.cov.nLocs, nUniq := q.mapLocHash.length
        ents := q.ents }

/-! ## What is to be printed -/

/-- The hashes of the locations. -/
def keys (env : Env Name Hash) (cov : CoverageStore Name) : List Hash :=
  cov.locs.map fun l => env.locHash l.covBy

omit [DecidableEq Hash] in
theorem getElem?_keys {env : Env Name Hash} {cov : CoverageStore Name} {j : ℕ}
    {l : Location Name} (hl : cov.locs[j]? = some l) :
    (keys env cov)[j]? = some (env.locHash l.covBy) := by
  rw [keys, List.getElem?_map, hl, Option.map_some]

/-- No two locations with different coverage have the same hash. -/
def HashesApart (env : Env Name Hash) (cov : CoverageStore Name) : Prop :=
  ∀ l ∈ cov.locs, ∀ l' ∈ cov.locs,
    env.locHash l.covBy = env.locHash l'.covBy → l.covBy = l'.covBy

/-- **What is printed fits what has been run**, as far as locations have a record.  Every such
location is printed once; two are printed together exactly when the same configurations cover
them; and a formula is satisfied by a configuration exactly when the program has given the
names that stand with it.  The flags are those of the first location, and the number of
groups is printed in front of them. -/
structure Result.Fits (env : Env Name Hash) (s : St Name Hash) (r : Result Name) : Prop where
  once : (r.ents.flatMap LineEnt.locs).Perm
    ((s.cov.locs.take s.vecLocData.length).map Location.name)
  together : ∀ l ∈ s.cov.locs.take s.vecLocData.length,
    ∀ l' ∈ s.cov.locs.take s.vecLocData.length,
      (∃ e ∈ r.ents, l.name ∈ e.locs ∧ l'.name ∈ e.locs) ↔ l.covBy = l'.covBy
  fits : ∀ e ∈ r.ents, ∀ name ∈ e.locs, ∃ x, e.expr = some x ∧
    ∀ (i : ℕ) (c : Config), s.cov.configs[i]? = some c →
      (x.sat c.val = true ↔ name ∈ env.program i c.values)
  flags : ∀ (i : ℕ) (e : LineEnt Name) (d : LocData), r.ents[i]? = some e → e.locs ≠ [] →
    s.vecLocData[i]? = some d → e.rebuildIter = d.rebuildIter.length ∧ e.ignored = d.ignored
  nUniq : r.nUniq = (r.ents.filter fun e => e.locs ≠ []).length

end Algorithm

/-! ## `finalize_build_trees` -/

section Finalize

variable [DecidableEq Name] [DecidableEq Hash] {env : Env Name Hash} {s s' : St Name Hash}

/-- The record `j` has a tree of its own, which fits all configurations. -/
def Owns (env : Env Name Hash) (s : St Name Hash) (j : ℕ) : Prop :=
  ∃ d ptr t root, s.vecLocData[j]? = some d ∧ d.tree = some ptr ∧ d.sharedTree = none ∧
    s.trees[ptr]? = some t ∧ t.Fits env.dom (s.cov.samples j) root

/-- The record `j` shares the tree of the record `i`. -/
def Shares (s : St Name Hash) (i j : ℕ) : Prop :=
  ∃ d e ptr, s.vecLocData[j]? = some d ∧ s.vecLocData[i]? = some e ∧ d.tree = none ∧
    d.sharedTree = some ptr ∧ e.tree = some ptr

/-- The records of `s'` are those of `s` with other trees. -/
def SameRecords (s s' : St Name Hash) : Prop :=
  ∀ (j : ℕ) (d : LocData), s.vecLocData[j]? = some d → ∃ d', s'.vecLocData[j]? = some d' ∧
    d'.rebuildIter = d.rebuildIter ∧ d'.ignored = d.ignored

/-- What the loop of `finalize_build_trees` has done after `k` locations: the first location
of a group owns a tree, and a later one shares it. -/
structure FinalizedTo (env : Env Name Hash) (s : St Name Hash) (k : ℕ) (p : Prep Name Hash) :
    Prop where
  same : s.SameRuns p.s
  length : p.s.vecLocData.length = s.vecLocData.length
  records : SameRecords s p.s
  finds : Finds (keys env s.cov) k p.mapLocHash
  owns : ∀ j < k, leader (keys env s.cov) j = j → Owns env p.s j
  shares : ∀ j < k, leader (keys env s.cov) j < j → Shares p.s (leader (keys env s.cov) j) j

/-- The record `k` is overwritten with `d`, and trees may have been made. -/
structure Extends (k : ℕ) (d : LocData) (s s' : St Name Hash) : Prop where
  cov : s'.cov = s.cov
  vecLocData : s'.vecLocData = s.vecLocData.set k d
  trees : ∃ new, s'.trees = s.trees ++ new

namespace Extends

variable {k : ℕ} {d : LocData}

omit [DecidableEq Name] [DecidableEq Hash]

theorem getElem?_ne (h : Extends k d s s') {j : ℕ} (hj : j ≠ k) :
    s'.vecLocData[j]? = s.vecLocData[j]? := by
  rw [h.vecLocData, List.getElem?_set_ne hj.symm]

theorem getElem?_self (h : Extends k d s s') (hk : k < s.vecLocData.length) :
    s'.vecLocData[k]? = some d := by
  rw [h.vecLocData, List.getElem?_set_self hk]

theorem owns (h : Extends k d s s') {j : ℕ} (hj : j ≠ k) (ho : Owns env s j) : Owns env s' j := by
  obtain ⟨new, htrees⟩ := h.trees
  obtain ⟨e, ptr, t, root, he, hptr, hshared, ht, hfits⟩ := ho
  refine ⟨e, ptr, t, root, by rw [h.getElem?_ne hj, he], hptr, hshared, ?_, by rwa [h.cov]⟩
  rw [htrees, List.getElem?_append_left (List.getElem?_eq_some_iff.mp ht).1, ht]

theorem shares (h : Extends k d s s') {i j : ℕ} (hi : i ≠ k) (hj : j ≠ k) (hs : Shares s i j) :
    Shares s' i j := by
  obtain ⟨e, e', ptr, he, he', hrest⟩ := hs
  exact ⟨e, e', ptr, by rw [h.getElem?_ne hj, he], by rw [h.getElem?_ne hi, he'], hrest⟩

theorem records (h : Extends k d s s') {s₀ : St Name Hash} (hs : SameRecords s₀ s)
    {d₀ : LocData} (hd₀ : s.vecLocData[k]? = some d₀) (hiter : d.rebuildIter = d₀.rebuildIter)
    (hignored : d.ignored = d₀.ignored) : SameRecords s₀ s' := by
  intro j e he
  obtain ⟨e', he', hiter', hignored'⟩ := hs j e he
  by_cases hj : j = k
  · subst hj
    rw [hd₀, Option.some.injEq] at he'
    subst he'
    exact ⟨d, h.getElem?_self (List.getElem?_eq_some_iff.mp hd₀).1, hiter.trans hiter',
      hignored.trans hignored'⟩
  · exact ⟨e', by rw [h.getElem?_ne hj, he'], hiter', hignored'⟩

end Extends

omit [DecidableEq Hash] in
/-- **A new tree** fits all configurations that have been run. -/
theorem Enrolled.newTree_meets (h : Enrolled env s) (htotal : env.select.Total) {j : ℕ}
    {l : Location Name} (hl : s.cov.locs[j]? = some l) (d : LocData) :
    Meets (s.newTree env j d l)
      (fun r => Extends j { d with tree := some s.trees.length } s r.1 ∧ s.SameRuns r.1 ∧
        r.1.trees[s.trees.length]? = some r.2 ∧
        ∃ root, r.2.Fits env.dom (s.cov.samples j) root) fun _ => False := by
  unfold St.newTree
  rw [h.valid.prepareData env.dom hl, ok_bind]
  refine meets_bind (h.distinct.buildTree_meets htotal rfl) fun t ht => ?_
  exact ⟨⟨rfl, rfl, [t], rfl⟩, ⟨rfl, rfl⟩, List.getElem?_concat_length, ht⟩

/-- **One location** of `finalize_build_trees`. -/
theorem FinalizedTo.step {k : ℕ} {p : Prep Name Hash} (h : FinalizedTo env s k p)
    (hs : Enrolled env s) (htotal : env.select.Total) {l : Location Name}
    (hl : s.cov.locs[k]? = some l) (hk : k < s.vecLocData.length) :
    Meets (finalizeLoc env p l) (FinalizedTo env s (k + 1)) fun _ => False := by
  have hp : Enrolled env p.s := hs.of_same h.same
  have hl' : p.s.cov.locs[k]? = some l := by rw [h.same.cov, hl]
  have hkey : (keys env s.cov)[k]? = some (env.locHash l.covBy) := getElem?_keys hl
  have hindex : l.index = .ok k := by rw [Location.index, hs.valid.locId k l hl]
  obtain ⟨d, hd, -, -⟩ := h.records k _ (List.getElem?_eq_getElem hk)
  rw [finalizeLoc, hindex, ok_bind, if_neg (by rw [h.length]; omega), vecAt_of_getElem? hd, ok_bind]
  -- what is kept when the record of the location is overwritten
  have hnext : ∀ (d' : LocData) (p' : Prep Name Hash), Extends k d' p.s p'.s →
      p.s.SameRuns p'.s → d'.rebuildIter = d.rebuildIter → d'.ignored = d.ignored →
      Finds (keys env s.cov) (k + 1) p'.mapLocHash →
      (leader (keys env s.cov) k = k → Owns env p'.s k) →
      (leader (keys env s.cov) k < k → Shares p'.s (leader (keys env s.cov) k) k) →
      FinalizedTo env s (k + 1) p' := by
    intro d' p' hext hsame hiter hignored hfinds howns hshares
    refine ⟨h.same.trans hsame, ?_, hext.records h.records hd hiter hignored, hfinds, ?_, ?_⟩
    · rw [hext.vecLocData, List.length_set, h.length]
    · intro j hj hlead
      rcases Nat.lt_succ_iff_lt_or_eq.mp hj with hlt | rfl
      · exact hext.owns (Nat.ne_of_lt hlt) (h.owns j hlt hlead)
      · exact howns hlead
    · intro j hj hlead
      rcases Nat.lt_succ_iff_lt_or_eq.mp hj with hlt | rfl
      · exact hext.shares (Nat.ne_of_lt (hlead.trans hlt)) (Nat.ne_of_lt hlt) (h.shares j hlt hlead)
      · exact hshares hlead
  cases hlook : p.mapLocHash.lookup (env.locHash l.covBy) with
  | some mloc =>
      obtain ⟨hlead, hlt, hfinds⟩ := h.finds.found hkey hlook
      have hself : leader (keys env s.cov) mloc = mloc := by
        rw [← hlead]
        exact leader_leader (List.getElem?_eq_some_iff.mp hkey).1
      obtain ⟨m, ptr, -, -, hm, hptr, -⟩ := h.owns mloc hlt hself
      simp only [vecAt_of_getElem? hm, ok_bind]
      have hext : Extends k { d with tree := none, sharedTree := m.tree } p.s
          (p.s.setDat k { d with tree := none, sharedTree := m.tree }) :=
        ⟨rfl, rfl, [], (List.append_nil _).symm⟩
      refine hnext _ _ hext ⟨rfl, rfl⟩ rfl rfl hfinds (fun heq => ?_) fun _ => ?_
      · omega
      · rw [hlead]
        refine ⟨_, m, ptr, hext.getElem?_self (by rw [h.length]; exact hk), ?_, rfl, hptr, hptr⟩
        rw [hext.getElem?_ne (Nat.ne_of_lt hlt), hm]
  | none =>
      obtain ⟨hlead, hfinds⟩ := h.finds.enter hkey hlook
      refine meets_bind (hp.newTree_meets htotal hl' _) ?_
      rintro ⟨s', t⟩ ⟨hext, hsame, htree, root, hfits⟩
      refine hnext _ _ hext hsame rfl rfl hfinds (fun _ => ?_) fun hlt => ?_
      · refine ⟨_, p.s.trees.length, t, root, hext.getElem?_self ?_, rfl, rfl, htree, ?_⟩
        · rw [h.length]
          exact hk
        · rw [hsame.cov]
          exact hfits
      · omega

/-- What `finalize_build_trees` leaves behind: a group has one tree, which fits everything
that has been run. -/
structure Finalized (env : Env Name Hash) (s s' : St Name Hash) : Prop where
  same : s.SameRuns s'
  length : s'.vecLocData.length = s.vecLocData.length
  records : SameRecords s s'
  owns : ∀ j < s.vecLocData.length, j < s.cov.nLocs → leader (keys env s.cov) j = j →
    Owns env s' j
  shares : ∀ j < s.vecLocData.length, j < s.cov.nLocs → leader (keys env s.cov) j < j →
    Shares s' (leader (keys env s.cov) j) j

/-- **`finalize_build_trees`** comes to its end. -/
theorem Enrolled.finalizeBuildTrees (h : Enrolled env s) (htotal : env.select.Total) :
    Meets (finalizeBuildTrees env s) (Finalized env s) fun _ => False := by
  have hindex : ∀ (j : ℕ) (l : Location Name), s.cov.locs[j]? = some l → l.index = .ok j := by
    intro j l hl
    rw [Location.index, h.valid.locId j l hl]
  unfold IterativeAlgorithm.finalizeBuildTrees
  refine meets_bind (meets_foldlM (fun done (p : Prep Name Hash) =>
    FinalizedTo env s (min done.length s.vecLocData.length) p) s.cov.locs ?_ ?_) fun p hp => ?_
  · intro done l rest p hsplit hp
    have hl : s.cov.locs[done.length]? = some l := by
      rw [hsplit]
      simp
    rw [List.length_append, List.length_singleton]
    rcases Nat.lt_or_ge done.length s.vecLocData.length with hlt | hge
    · rw [Nat.min_eq_left (Nat.le_of_lt hlt)] at hp
      rw [Nat.min_eq_left (by omega)]
      exact hp.step h htotal hl hlt
    · -- the location has no record yet
      rw [Nat.min_eq_right hge] at hp
      rw [Nat.min_eq_right (by omega), finalizeLoc, hindex _ l hl, ok_bind,
        if_pos (by rw [hp.length]; exact hge)]
      exact hp
  · refine ⟨.refl s, rfl, fun j d hd => ⟨d, hd, rfl, rfl⟩, ?_, ?_, ?_⟩
    · rw [List.length_nil, Nat.zero_min]
      exact .zero _
    · intro j hj
      simp at hj
    · intro j hj
      simp at hj
  · refine ⟨hp.same, hp.length, hp.records, fun j hj hloc => ?_, fun j hj hloc => ?_⟩
    · exact hp.owns j (Nat.lt_min.mpr ⟨hloc, hj⟩)
    · exact hp.shares j (Nat.lt_min.mpr ⟨hloc, hj⟩)

/-! ## The loop of `finish_alg1` -/

@[simp] theorem finishLift_ok {α : Type} (a : α) :
    (liftM (.ok a : Except Abort α) : Except FinishFault α) = .ok a := rfl

/-- The names of the first `k` locations whose group is that of the location `i`. -/
def namesOf (env : Env Name Hash) (cov : CoverageStore Name) (k i : ℕ) : List Name :=
  ((List.range k).filter fun j => leader (keys env cov) j = i).filterMap fun j =>
    cov.locs[j]?.map Location.name

omit [DecidableEq Name] in
theorem namesOf_succ {cov : CoverageStore Name} {k : ℕ} {l : Location Name}
    (hl : cov.locs[k]? = some l) (i : ℕ) : namesOf env cov (k + 1) i =
      namesOf env cov k i ++ if leader (keys env cov) k = i then [l.name] else [] := by
  rw [namesOf, namesOf, List.range_succ, List.filter_append, List.filterMap_append,
    List.filter_singleton]
  split
  · next heq => simp [heq, hl]
  · next hne => simp [hne]

/-- What the loop of `finish_alg1` has done after `k` locations. -/
structure PrintedTo (env : Env Name Hash) (s : St Name Hash) (k : ℕ) (q : Finish Name Hash) :
    Prop where
  finds : Finds (keys env s.cov) k q.mapLocHash
  length : q.ents.length = s.vecLocData.length
  locs : ∀ (i : ℕ) (e : LineEnt Name), q.ents[i]? = some e → e.locs = namesOf env s.cov k i
  expr : ∀ (i : ℕ) (e : LineEnt Name), q.ents[i]? = some e → i < k →
    leader (keys env s.cov) i = i → ∃ x, e.expr = some x ∧
      ∀ c ∈ s.cov.configs, x.sat c.val = true ↔ i ∈ c.covLocs
  flags : ∀ (i : ℕ) (e : LineEnt Name) (d : LocData), q.ents[i]? = some e → i < k →
    leader (keys env s.cov) i = i → s.vecLocData[i]? = some d →
      e.rebuildIter = d.rebuildIter.length ∧ e.ignored = d.ignored

/-- **One location** of `finish_alg1`: neither check fires. -/
theorem PrintedTo.step {k : ℕ} {q : Finish Name Hash} (h : PrintedTo env s k q)
    (hs : Enrolled env s) {l : Location Name} (hl : s.cov.locs[k]? = some l)
    (hk : k < s.vecLocData.length)
    (howns : leader (keys env s.cov) k = k → Owns env s k)
    (hshares : leader (keys env s.cov) k < k → Shares s (leader (keys env s.cov) k) k) :
    Meets (finishLoc1 env s q k l) (PrintedTo env s (k + 1)) fun _ => False := by
  have hkey : (keys env s.cov)[k]? = some (env.locHash l.covBy) := getElem?_keys hl
  have hd := List.getElem?_eq_getElem hk
  have hnames : ∀ i, namesOf env s.cov (k + 1) i = namesOf env s.cov k i ++
      if leader (keys env s.cov) k = i then [l.name] else [] := namesOf_succ hl
  rw [finishLoc1, vecAt_of_getElem? hd, finishLift_ok, ok_bind]
  cases hlook : q.mapLocHash.lookup (env.locHash l.covBy) with
  | none =>
      obtain ⟨hlead, hfinds⟩ := h.finds.enter hkey hlook
      obtain ⟨d, ptr, t, root, hd', hptr, -, ht, hfits⟩ := howns hlead
      obtain ⟨x, hx, hsat⟩ := hs.distinct.exists_zexpr hfits (exprStrat env)
      obtain ⟨et, het⟩ : ∃ et, q.ents[k]? = some et :=
        ⟨_, List.getElem?_eq_getElem (by rw [h.length]; exact hk)⟩
      rw [hd, Option.some.injEq] at hd'
      simp only [hd', hptr, vecAt_of_getElem? ht, hx, vecAt_of_getElem? het, finishLift_ok, ok_bind]
      have hset : ∀ e i, i ≠ k → (q.ents.set k e)[i]? = q.ents[i]? := fun e i hi =>
        List.getElem?_set_ne hi.symm
      have hself : ∀ e, (q.ents.set k e)[k]? = some e := fun e =>
        List.getElem?_set_self (by rw [h.length]; exact hk)
      refine ⟨hfinds, by rw [List.length_set, h.length], fun i e he => ?_, fun i e he hi hil => ?_,
        fun i e d₁ he hi hil hd₁ => ?_⟩
      · rw [hnames, hlead]
        by_cases hik : i = k
        · subst hik
          rw [hself, Option.some.injEq] at he
          rw [← he, h.locs i _ het, if_pos rfl]
        · rw [hset _ i hik] at he
          rw [h.locs i e he, if_neg (Ne.symm hik), List.append_nil]
      · by_cases hik : i = k
        · subst hik
          rw [hself, Option.some.injEq] at he
          exact ⟨x, by rw [← he], hsat⟩
        · rw [hset _ i hik] at he
          exact h.expr i e he (by omega) hil
      · by_cases hik : i = k
        · subst hik
          rw [hself, Option.some.injEq] at he
          rw [hd, Option.some.injEq, hd'] at hd₁
          rw [← he, ← hd₁]
          exact ⟨rfl, rfl⟩
        · rw [hset _ i hik] at he
          exact h.flags i e d₁ he (by omega) hil hd₁
  | some mloc =>
      obtain ⟨hlead, hlt, hfinds⟩ := h.finds.found hkey hlook
      obtain ⟨d, e₀, ptr, hd', he₀, -, hshared, -⟩ := hshares (by omega)
      rw [hd, Option.some.injEq] at hd'
      have hne : d.sharedTree ≠ none := by
        rw [hshared]
        exact Option.some_ne_none ptr
      obtain ⟨et, het⟩ : ∃ et, q.ents[mloc]? = some et :=
        ⟨_, List.getElem?_eq_getElem (by rw [h.length]; omega)⟩
      simp only [hd', check_pos hne, vecAt_of_getElem? het, finishLift_ok, ok_bind]
      have hset : ∀ e i, i ≠ mloc → (q.ents.set mloc e)[i]? = q.ents[i]? := fun e i hi =>
        List.getElem?_set_ne hi.symm
      have hself : ∀ e, (q.ents.set mloc e)[mloc]? = some e := fun e =>
        List.getElem?_set_self (by rw [h.length]; omega)
      -- the entry of the first location has one name more
      have hentry : ∀ (i : ℕ) (e : LineEnt Name), (q.ents.set mloc
          { et with locs := et.locs ++ [l.name] })[i]? = some e →
          ∃ e', q.ents[i]? = some e' ∧ e.expr = e'.expr ∧ e.rebuildIter = e'.rebuildIter ∧
            e.ignored = e'.ignored ∧ e.locs = e'.locs ++ if mloc = i then [l.name] else [] := by
        intro i e he
        by_cases hi : i = mloc
        · subst hi
          rw [hself, Option.some.injEq] at he
          subst he
          exact ⟨_, het, rfl, rfl, rfl, by rw [if_pos rfl]⟩
        · rw [hset _ i hi] at he
          exact ⟨e, he, rfl, rfl, rfl, by rw [if_neg (Ne.symm hi), List.append_nil]⟩
      refine ⟨hfinds, by rw [List.length_set, h.length], fun i e he => ?_, fun i e he hi hil => ?_,
        fun i e d₁ he hi hil hd₁ => ?_⟩
      · obtain ⟨e', he', -, -, -, hlocs⟩ := hentry i e he
        rw [hlocs, h.locs i e' he', hnames, hlead]
      · obtain ⟨e', he', hexpr, -, -, -⟩ := hentry i e he
        have hik : i ≠ k := by
          rintro rfl
          omega
        rw [hexpr]
        exact h.expr i e' he' (by omega) hil
      · obtain ⟨e', he', -, hiter, hignored, -⟩ := hentry i e he
        have hik : i ≠ k := by
          rintro rfl
          omega
        rw [hiter, hignored]
        exact h.flags i e' d₁ he' (by omega) hil hd₁

/-- **The loop of `finish_alg1`** comes to its end when each group has a tree. -/
theorem Enrolled.finishLocs1 (hs : Enrolled env s)
    (howns : ∀ j < s.vecLocData.length, j < s.cov.nLocs → leader (keys env s.cov) j = j →
      Owns env s j)
    (hshares : ∀ j < s.vecLocData.length, j < s.cov.nLocs → leader (keys env s.cov) j < j →
      Shares s (leader (keys env s.cov) j) j)
    (rest : List (Location Name)) {k : ℕ} {q : Finish Name Hash} (hrest : s.cov.locs.drop k = rest)
    (hk : k ≤ s.vecLocData.length) (hk' : k ≤ s.cov.nLocs) (h : PrintedTo env s k q) :
    Meets (finishLocs1 env s rest q)
      (PrintedTo env s (min s.cov.nLocs s.vecLocData.length)) fun _ => False := by
  induction rest generalizing k q with
  | nil =>
      have hlen : s.cov.nLocs ≤ k := List.drop_eq_nil_iff.mp hrest
      obtain rfl : k = s.cov.nLocs := Nat.le_antisymm hk' hlen
      rw [IterativeAlgorithm.finishLocs1, Nat.min_eq_left hk]
      exact h
  | cons l rest ih =>
      have hl : s.cov.locs[k]? = some l := by
        have hget := congrArg (fun locs => locs[0]?) hrest
        simpa using hget
      have hlt : k < s.cov.nLocs := (List.getElem?_eq_some_iff.mp hl).1
      have hindex : l.index = .ok k := by rw [Location.index, hs.valid.locId k l hl]
      rw [IterativeAlgorithm.finishLocs1, hindex, finishLift_ok, ok_bind]
      split
      · next hge =>
          rw [Nat.min_eq_right (hge.trans hk'), Nat.le_antisymm hge hk]
          exact h
      · next hlen =>
          rw [Nat.not_le] at hlen
          refine meets_bind (h.step hs hl hlen (howns k hlen hlt) (hshares k hlen hlt)) ?_
          intro q' hq'
          refine ih ?_ hlen hlt hq'
          rw [show k.succ = k + 1 from rfl, ← List.drop_drop, hrest]
          rfl

/-! ## The report -/

omit [DecidableEq Name] in
theorem mem_namesOf {cov : CoverageStore Name} {k i : ℕ} {name : Name} :
    name ∈ namesOf env cov k i ↔ ∃ j < k, leader (keys env cov) j = i ∧
      ∃ l, cov.locs[j]? = some l ∧ l.name = name := by
  simp [namesOf, and_assoc]

omit [DecidableEq Name] in
/-- Two locations have the same leader when the same configurations cover them. -/
theorem HashesApart.leader_eq_iff {cov : CoverageStore Name} (h : HashesApart env cov) {j k : ℕ}
    {l l' : Location Name} (hl : cov.locs[j]? = some l) (hl' : cov.locs[k]? = some l') :
    leader (keys env cov) j = leader (keys env cov) k ↔ l.covBy = l'.covBy := by
  have hkey : (keys env cov)[j]? = some (env.locHash l.covBy) := getElem?_keys hl
  have hkey' : (keys env cov)[k]? = some (env.locHash l'.covBy) := getElem?_keys hl'
  rw [leader_eq_leader_iff (List.getElem?_eq_some_iff.mp hkey).1
    (List.getElem?_eq_some_iff.mp hkey').1, hkey, hkey', Option.some.injEq]
  constructor
  · intro heq
    exact h l (List.mem_of_getElem? hl) l' (List.mem_of_getElem? hl') heq
  · intro heq
    rw [heq]

omit [DecidableEq Name] in
/-- The first `n` locations, by name. -/
theorem filterMap_name (cov : CoverageStore Name) (n : ℕ) :
    (List.range (min cov.nLocs n)).filterMap (fun j => cov.locs[j]?.map Location.name) =
      (cov.locs.take n).map Location.name := by
  have hmap : (List.range (min cov.nLocs n)).map (fun j => cov.locs[j]?.map Location.name) =
      ((cov.locs.take n).map Location.name).map some := by
    refine List.ext_getElem? fun i => ?_
    rw [List.getElem?_map, List.getElem?_map, List.getElem?_map, List.getElem?_take]
    by_cases hi : i < min cov.nLocs n
    · obtain ⟨hi', hin⟩ := Nat.lt_min.mp hi
      rw [List.getElem?_range hi, Option.map_some, if_pos hin,
        List.getElem?_eq_getElem (show i < cov.locs.length from hi')]
      rfl
    · rw [List.getElem?_eq_none (by simpa using Nat.not_lt.mp hi)]
      split
      · next hin =>
          have hge : cov.locs.length ≤ i := by
            rw [Nat.lt_min, not_and'] at hi
            exact Nat.not_lt.mp (hi hin)
          rw [List.getElem?_eq_none hge]
          rfl
      · rfl
  have hid := congrArg (List.filterMap id) hmap
  rwa [List.filterMap_map, List.filterMap_map, Function.id_comp, Function.id_comp,
    List.filterMap_some] at hid

namespace PrintedTo

variable {q : Finish Name Hash} {m : ℕ}

omit [DecidableEq Name] in
theorem map_locs (h : PrintedTo env s m q) :
    q.ents.map LineEnt.locs = (List.range s.vecLocData.length).map (namesOf env s.cov m) := by
  refine List.ext_getElem? fun i => ?_
  rw [List.getElem?_map, List.getElem?_map]
  by_cases hi : i < s.vecLocData.length
  · have he := List.getElem?_eq_getElem (show i < q.ents.length by rw [h.length]; exact hi)
    rw [List.getElem?_range hi, he, Option.map_some, Option.map_some, h.locs i _ he]
  · rw [List.getElem?_eq_none (by rw [h.length]; omega), List.getElem?_eq_none (by simpa using hi)]
    rfl

omit [DecidableEq Name] in
/-- An entry with names is that of the leader of a group. -/
theorem leads (h : PrintedTo env s m q) (hm : m ≤ s.cov.nLocs) {i : ℕ} {e : LineEnt Name}
    (he : q.ents[i]? = some e) {name : Name} (hname : name ∈ e.locs) :
    i < m ∧ leader (keys env s.cov) i = i := by
  rw [h.locs i e he, mem_namesOf] at hname
  obtain ⟨j, hj, rfl, -⟩ := hname
  have hlt : j < (keys env s.cov).length := by
    rw [keys, List.length_map]
    exact Nat.lt_of_lt_of_le hj hm
  exact ⟨Nat.lt_of_le_of_lt (leader_le _ j) hj, leader_leader hlt⟩

omit [DecidableEq Name] in
theorem nUniq (h : PrintedTo env s m q) (hm : m ≤ s.cov.nLocs)
    (hm' : m ≤ s.vecLocData.length) :
    q.mapLocHash.length = (q.ents.filter fun e => e.locs ≠ []).length := by
  have hleads : ∀ i, namesOf env s.cov m i ≠ [] ↔ i < m ∧ leader (keys env s.cov) i = i := by
    intro i
    constructor
    · intro hne
      obtain ⟨name, hname⟩ := List.exists_mem_of_ne_nil _ hne
      obtain ⟨j, hj, rfl, -⟩ := mem_namesOf.mp hname
      have hlt : j < (keys env s.cov).length := by
        rw [keys, List.length_map]
        exact Nat.lt_of_lt_of_le hj hm
      exact ⟨Nat.lt_of_le_of_lt (leader_le _ j) hj, leader_leader hlt⟩
    · rintro ⟨hi, hlead⟩
      have hl := List.getElem?_eq_getElem (show i < s.cov.locs.length from Nat.lt_of_lt_of_le hi hm)
      exact List.ne_nil_of_mem (mem_namesOf.mpr ⟨i, hi, hlead, _, hl, rfl⟩)
  obtain ⟨r, hr⟩ := Nat.exists_eq_add_of_le hm'
  have hcount : (q.ents.filter fun e => e.locs ≠ []).length =
      (List.range s.vecLocData.length).countP fun i => namesOf env s.cov m i ≠ [] := by
    have hmap := congrArg (List.countP fun names => decide (names ≠ [])) h.map_locs
    rw [List.countP_map, List.countP_map] at hmap
    rw [← List.countP_eq_length_filter]
    exact hmap
  have hlen := congrArg List.length h.finds.leaders
  rw [List.length_map, ← List.countP_eq_length_filter] at hlen
  -- the records behind the locations have empty entries
  have hzero : (List.range r).countP
      ((fun i => decide (namesOf env s.cov m i ≠ [])) ∘ fun i => m + i) = 0 := by
    apply List.countP_eq_zero.mpr
    intro i _
    simp [hleads]
  rw [hlen, hcount, hr, List.range_add, List.countP_append, List.countP_map, hzero, Nat.add_zero]
  refine List.countP_congr fun i hi => ?_
  simp [hleads, List.mem_range.mp hi]

omit [DecidableEq Name] in
theorem once (h : PrintedTo env s (min s.cov.nLocs s.vecLocData.length) q) :
    (q.ents.flatMap LineEnt.locs).Perm
      ((s.cov.locs.take s.vecLocData.length).map Location.name) := by
  rw [← filterMap_name, List.flatMap_def, h.map_locs, ← List.flatMap_def]
  unfold namesOf
  rw [← List.filterMap_flatMap]
  refine List.Perm.filterMap _ (flatMap_filter_perm List.nodup_range fun j hj => ?_)
  have hlt := (Nat.lt_min.mp (List.mem_range.mp hj)).2
  exact List.mem_range.mpr (Nat.lt_of_le_of_lt (leader_le _ j) hlt)

/-- A location is printed with the entry of its leader. -/
theorem mem_locs_iff (h : PrintedTo env s m q) (hs : Enrolled env s) {i j : ℕ}
    {e : LineEnt Name} (he : q.ents[i]? = some e) {l : Location Name}
    (hl : s.cov.locs[j]? = some l) (hj : j < m) :
    l.name ∈ e.locs ↔ leader (keys env s.cov) j = i := by
  rw [h.locs i e he, mem_namesOf]
  constructor
  · rintro ⟨j', -, hlead, l', hl', hname⟩
    rwa [hs.valid.name_inj hl hl' hname.symm]
  · intro hlead
    exact ⟨j, hj, hlead, l, hl, rfl⟩

/-- **A report that is right** about everything that has been run. -/
theorem fits (h : PrintedTo env s (min s.cov.nLocs s.vecLocData.length) q)
    (hs : Enrolled env s) (hash : HashesApart env s.cov) : Result.Fits env s
      { nConfigs := s.cov.nConfigs, nLocs := s.cov.nLocs, nUniq := q.mapLocHash.length,
        ents := q.ents } := by
  have hpos : ∀ l ∈ s.cov.locs.take s.vecLocData.length, ∃ j, s.cov.locs[j]? = some l ∧
      j < min s.cov.nLocs s.vecLocData.length := by
    intro l hl
    obtain ⟨j, hj⟩ := List.mem_iff_getElem?.mp hl
    rw [List.getElem?_take] at hj
    split at hj
    · next hlt => exact ⟨j, hj, Nat.lt_min.mpr ⟨(List.getElem?_eq_some_iff.mp hj).1, hlt⟩⟩
    · cases hj
  refine ⟨h.once, fun l hl l' hl' => ?_, fun e he name hname => ?_, fun i e d he hne hd => ?_,
    h.nUniq (Nat.min_le_left ..) (Nat.min_le_right ..)⟩
  · obtain ⟨j, hj, hjm⟩ := hpos l hl
    obtain ⟨k, hk, hkm⟩ := hpos l' hl'
    rw [← hash.leader_eq_iff hj hk]
    constructor
    · rintro ⟨e, he, hname, hname'⟩
      obtain ⟨i, hi⟩ := List.mem_iff_getElem?.mp he
      rw [(h.mem_locs_iff hs hi hj hjm).mp hname, (h.mem_locs_iff hs hi hk hkm).mp hname']
    · intro hlead
      obtain ⟨e, he⟩ : ∃ e, q.ents[leader (keys env s.cov) j]? = some e :=
        ⟨_, List.getElem?_eq_getElem (by
          rw [h.length]
          exact Nat.lt_of_le_of_lt (leader_le _ j) (Nat.lt_min.mp hjm).2)⟩
      exact ⟨e, List.mem_of_getElem? he, (h.mem_locs_iff hs he hj hjm).mpr rfl,
        (h.mem_locs_iff hs he hk hkm).mpr hlead.symm⟩
  · obtain ⟨i, hi⟩ := List.mem_iff_getElem?.mp he
    obtain ⟨him, hself⟩ := h.leads (Nat.min_le_left ..) hi hname
    obtain ⟨x, hx, hsat⟩ := h.expr i e hi him hself
    rw [h.locs i e hi, mem_namesOf] at hname
    obtain ⟨j, hj, hlead, l, hl, rfl⟩ := hname
    -- the first location of the group is covered by the same configurations
    have hl' := List.getElem?_eq_getElem
      (show i < s.cov.locs.length from Nat.lt_of_lt_of_le him (Nat.min_le_left ..))
    have hcov := (hash.leader_eq_iff hl' hl).mp (hself.trans hlead.symm)
    refine ⟨x, hx, fun t c hc => ?_⟩
    rw [hsat c (List.mem_of_getElem? hc), ← hs.mem_covLocs_iff hc hl,
      hs.valid.mem_covLocs_iff hc hl', hs.valid.mem_covLocs_iff hc hl, hcov]
  · obtain ⟨name, hname⟩ := List.exists_mem_of_ne_nil _ hne
    obtain ⟨him, hself⟩ := h.leads (Nat.min_le_left ..) he hname
    exact h.flags i e d he him hself hd

end PrintedTo

omit [DecidableEq Name] [DecidableEq Hash] in
/-- Only the store and the flags of the records matter. -/
theorem Result.Fits.of_same {r : Result Name} (h : r.Fits env s') (hsame : s.SameRuns s')
    (hlen : s'.vecLocData.length = s.vecLocData.length) (hrecords : SameRecords s s') :
    r.Fits env s := by
  have hcov := hsame.cov
  refine ⟨?_, ?_, ?_, fun i e d he hne hd => ?_, h.nUniq⟩
  · rw [← hcov, ← hlen]
    exact h.once
  · rw [← hcov, ← hlen]
    exact h.together
  · rw [← hcov]
    exact h.fits
  · obtain ⟨d', hd', hiter, hignored⟩ := hrecords i d hd
    rw [← hiter, ← hignored]
    exact h.flags i e d' he hne hd'

/-- **`finish_alg1` behind `finalize_build_trees`** comes to its end, and what it prints is
right about everything that has been run. -/
theorem Enrolled.finishAlg1 (hs : Enrolled env s) (htotal : env.select.Total)
    (hash : HashesApart env s.cov) :
    ∃ s' r, IterativeAlgorithm.finalizeBuildTrees env s = .ok s' ∧
      IterativeAlgorithm.finishAlg1 env s' = .ok r ∧ r.Fits env s ∧
        r.nConfigs = s.cov.nConfigs ∧ r.nLocs = s.cov.nLocs := by
  obtain ⟨s', hfinal, hf⟩ := (hs.finalizeBuildTrees htotal).exists_ok
  have hs' := hs.of_same hf.same
  have hcov := hf.same.cov
  have hash' : HashesApart env s'.cov := by rwa [hcov]
  have hbegin : PrintedTo env s' 0 { ents := List.replicate s'.vecLocData.length {} } := by
    refine ⟨.zero _, List.length_replicate, fun i e he => ?_, fun i e _ hi => ?_,
      fun i e d _ hi => ?_⟩
    · rw [List.getElem?_replicate] at he
      split at he
      · obtain rfl := Option.some.inj he
        rfl
      · cases he
    · omega
    · omega
  obtain ⟨q, hloop, hq⟩ := (hs'.finishLocs1
    (fun j hj hloc hlead => by
      rw [hcov] at hloc hlead
      rw [hf.length] at hj
      exact hf.owns j hj hloc hlead)
    (fun j hj hloc hlead => by
      rw [hcov] at hloc hlead ⊢
      rw [hf.length] at hj
      exact hf.shares j hj hloc hlead)
    s'.cov.locs rfl (Nat.zero_le _) (Nat.zero_le _) hbegin).exists_ok
  refine ⟨s', _, hfinal, by rw [IterativeAlgorithm.finishAlg1, hloop, ok_bind],
    (hq.fits hs' hash').of_same hf.same hf.length hf.records, ?_, ?_⟩
  · rw [hcov]
  · rw [hcov]

/-- **The report of the first algorithm.**  At any moment of any run the trees can be built
anew and the report be printed, and it is right about everything that has been run: this is
what happens at the end, and after every hundredth iteration. -/
theorem RunsTo.finishAlg1_fits (hreg : env.Regular) (htotal : env.select.Total) {l : Label}
    (h : RunsTo env l s) (hash : HashesApart env s.cov) :
    ∃ s' r, finalizeBuildTrees env s = .ok s' ∧ finishAlg1 env s' = .ok r ∧ r.Fits env s ∧
      r.nConfigs = s.cov.nConfigs ∧ r.nLocs = s.cov.nLocs :=
  (h.enrolled hreg).finishAlg1 htotal hash

/-- A state that the evaluation of a run has come to. -/
theorem exists_after (env : Env Name Hash) (n : ℕ) (P : Label × St Name Hash → Prop)
    [DecidablePred P] (h : (env.after n).any (fun x => decide (P x)) = true) :
    ∃ l s, RunsTo env l s ∧ P (l, s) := by
  obtain ⟨⟨l, s⟩, hafter, hP⟩ := (Option.any_eq_true _ _).mp h
  obtain ⟨s₀, hinit, hrun⟩ := Option.bind_eq_some_iff.mp hafter
  refine ⟨l, s, ⟨s₀, ?_, .of_runFor hrun⟩, of_decide_eq_true hP⟩
  cases hres : env.init with
  | error e =>
      rw [hres] at hinit
      cases hinit
  | ok s' =>
      rw [hres] at hinit
      cases hinit
      rfl

end Finalize

/-- The loop of `run_alg_test_1` has ended. -/
def Label.isFinal : Label → Bool
  | .final => true
  | _ => false

/-- Both locations of the program are printed. -/
theorem RunsTo.finishAlg1_fits_dropping : ∃ l s s' r, RunsTo Env.dropping l s ∧
    l.isFinal = true ∧ s.cov.nLocs = 2 ∧ s.vecLocData.length = 2 ∧
    finalizeBuildTrees Env.dropping s = .ok s' ∧ finishAlg1 Env.dropping s' = .ok r ∧
    r.Fits Env.dropping s := by
  obtain ⟨l, s, hrun, hfinal, hlocs, hlen⟩ := exists_after Env.dropping 6
    (fun x => x.1.isFinal = true ∧ x.2.cov.nLocs = 2 ∧ x.2.vecLocData.length = 2) (by decide +kernel)
  have hreg : Env.dropping.Regular :=
    ⟨by decide, fun _ h => absurd h (List.not_mem_nil), Solver.search_sound _⟩
  have hash : HashesApart Env.dropping s.cov := fun l _ l' _ heq =>
    List.map_injective_iff.mpr Int.ofNat_injective heq
  obtain ⟨s', r, hs', hr, hfits, -, -⟩ :=
    hrun.finishAlg1_fits hreg Selector.firstUntested_total hash
  exact ⟨l, s, s', r, hrun, hfinal, hlocs, hlen, hs', hr, hfits⟩

end IterativeAlgorithm

end GenTree

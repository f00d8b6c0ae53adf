import GenTree.ComparedReports

/-!
# The difference of two reports

Of two files `run_analyzer_0` counts the locations that only one of them has, and those
that both have with formulas that differ; it counts them as they are, and once for each
group.  It puts the formulas that say where they differ, and what Z3 has found to satisfy
them, into one vector, and counts the configurations that satisfy its disjunction.

Groups are told apart by their number in their file.  The numbers of the groups that are
missing come from both files and are put into one set, so that two groups with the same
number are one for it.

* **Which counts are exact.**  Whether a count is zero is always right.  That it is the
  number of configurations is so below `2 ^ 31 - 1` of them, since `count_models` makes at
  most as many passes; so the last two numbers are under that bound and the others are not.
* **The cache.**  A count that collects its models does not look into the cache but writes
  to it, and the last count does look.  It can find the count of one of the formulas that
  were asked before, if Z3 gives the disjunction the same hash; what must not happen then
  is that the two have different numbers of solutions.  This is asked of those formulas
  only (`Compared`).
* **The vector.**  `count_models` puts the models it finds into the same vector that holds
  the formulas.  This does not change what its disjunction means, since every model
  satisfies the formula it was found for; the invariant is about the disjunction and not
  about the elements (`Diffed.veCex`).
* **`totalcex`** adds one count for each group, that of the first location in the order of
  the names.  The locations of a group share their formula, but their counterparts may be
  in several groups of the other file, so it matters which one is first.

* `countModels_unlimited` — a count without a limit.
* `Diffed.step`, `Diffed.run` — one location of the first file, and all of them.
* `runAnalyzer0_meets` — what is printed, for any two maps.
* `RunsTo.reports_diffed` — the same for reports of runs, in terms of their groups.
-/

namespace GenTree

open Outcome

/-! ## The code -/

section Code

variable {Expr : Type}

/-- The local variables of `run_analyzer_0`. -/
structure DiffSt (Expr : Type) where
  sdiff : Finset ℕ := ∅
  smissing : Finset ℕ := ∅
  slocsa : Finset ℕ := ∅
  slocsb : Finset ℕ := ∅
  sprintdiff : Finset ℕ := ∅
  cntdiff : ℕ := 0
  cntmissing : ℕ := 0
  totalcex : ℕ := 0
  veCex : List Expr := []
  analyzer : Analyzer

namespace DiffSt

/-- `smissing.insert(id), cntmissing++`. -/
def miss (st : DiffSt Expr) (id : ℕ) : DiffSt Expr :=
  { st with smissing := insert id st.smissing, cntmissing := st.cntmissing + 1 }

/-- What is done about a location with `numCex` counterexamples, which are not none. -/
def differ (st : DiffSt Expr) (id numCex : ℕ) : DiffSt Expr :=
  { st with
    totalcex := if id ∈ st.sprintdiff then st.totalcex else st.totalcex + numCex
    sprintdiff := insert id st.sprintdiff
    sdiff := insert id st.sdiff
    cntdiff := st.cntdiff + 1 }

end DiffSt

/-- The body of the loop over `ma`. -/
def diffLoc (dom : Domain) (z : Z3Text Expr) (mb : List (Str × LocEntry Expr)) (st : DiffSt Expr)
    (p : Str × LocEntry Expr) : Except Abort (DiffSt Expr) :=
  let st := { st with slocsa := insert p.2.id st.slocsa }
  match mb.lookup p.1 with
  | none => .ok (st.miss p.2.id)
  | some d => do
      let exprCex := z.ne p.2.e d.e
      let (numCex, veCex, analyzer) ←
        countModels dom z.toZ3 exprCex intMax (some (st.veCex ++ [exprCex])) st.analyzer
      let st := { st with veCex := veCex.getD [], analyzer }
      if numCex = 0 then .ok st else .ok (st.differ p.2.id numCex)

/-- The body of the loop over `mb`. -/
def missLoc (ma : List (Str × LocEntry Expr)) (st : DiffSt Expr) (p : Str × LocEntry Expr) :
    DiffSt Expr :=
  let st := { st with slocsb := insert p.2.id st.slocsb }
  if (ma.lookup p.1).isSome then st else st.miss p.2.id

/-- The numbers that are printed, and the sets and the vector they are taken from. -/
structure Diff (Expr : Type) extends DiffSt Expr where
  locsA : ℕ
  locsB : ℕ
  totalCex : ℕ

/-- `run_analyzer_0` on the texts of the two files; `mkOr` is `z3::mk_or`. -/
def runAnalyzer0 (dom : Domain) (z : Z3Text Expr) (mkOr : List Expr → Expr) (textA textB : Str)
    (analyzer : Analyzer) : Except Abort (Diff Expr) := do
  let ma ← readFile dom z none analyzer textA
  let mb ← readFile dom z none ma.analyzer textB
  let st ← ma.byName.foldlM (diffLoc dom z mb.byName) { analyzer := mb.analyzer }
  let st := mb.byName.foldl (missLoc ma.byName) st
  let (totalCex, _, analyzer) ← countModels dom z.toZ3 (mkOr st.veCex) defLimModels none st.analyzer
  .ok { st with analyzer, locsA := ma.res.length, locsB := mb.res.length, totalCex }

end Code

/-! ## Counting without a limit -/

/-- The number of configurations the two sets differ on. -/
def differOn (dom : Domain) (f g : List ℤ → Bool) : ℕ :=
  (allValues dom.vars).countP fun values => f values != g values

theorem differOn_eq_zero_iff {dom : Domain} {f g : List ℤ → Bool} :
    differOn dom f g = 0 ↔ ∀ values ∈ allValues dom.vars, f values = g values := by
  rw [differOn, List.countP_eq_zero]
  refine forall₂_congr ?_
  intro values _
  rw [bne_iff_ne, not_not]

section Unlimited

variable {Expr : Type} {dom : Domain} {z : Z3Text Expr} {holds : Expr → (ℕ → ℕ) → Prop}

/-- **A count that is not taken from the cache.**  It is zero when it should be, and right when
the configuration space is not too large; the models satisfy what is counted. -/
theorem countModels_unlimited (hz : z.Correct dom holds) {ex : Expr} {vModels : Option (List Expr)}
    {st : Analyzer}
    (huncached : vModels = none → st.cacheCountModels (z.hash ex, defLimModels) = none) :
    ∃ n cubes nCheck, countModels dom z.toZ3 ex defLimModels vModels st =
        .ok (n, vModels.map (· ++ cubes),
          { cacheCountModels :=
              Function.update st.cacheCountModels (z.hash ex, defLimModels) (some n)
            nCheck }) ∧
      (n = 0 ↔ Unsat dom holds ex) ∧
      (dom.configSpace < 2 ^ 31 - 1 → n = (solutions dom holds [ex]).card) ∧
      ∀ e ∈ cubes, ∀ c : Config, c.Complete dom → holds e c.val → holds ex c.val := by
  obtain ⟨ms, R, nCheck, hrun, hrange, hpeel, hend⟩ :=
    countLoop_spec hz.toCorrect defLimModels.toNat [ex] 0 vModels st.nCheck
  obtain ⟨hcard, hlen⟩ := sum_sizes hrange hpeel
  have hruns : defLimModels.toNat = 2 ^ 31 - 1 := rfl
  have hcall := @countModels_run _ dom z.toZ3 _ _ _ _ huncached
  rw [hrun, ok_bind, Nat.zero_add] at hcall
  refine ⟨_, _, _, hcall, ?_, ?_, cubes_sound hz.toCorrect hpeel⟩
  · rw [← solutions_eq_empty_iff, ← Finset.card_eq_zero]
    rcases hend with rfl | hfull
    · rw [Finset.card_empty] at hcard
      omega
    · omega
  · intro hspace
    have hle : (solutions dom holds [ex]).card ≤ dom.configSpace := by
      refine (card_solutions_le [ex]).trans ?_
      rw [space, Domain.configSpace, ← length_allValues]
      exact List.toFinset_card_le _
    rcases hend with rfl | hfull
    · rw [Finset.card_empty] at hcard
      omega
    · omega

/-- A count leaves alone what has been counted with another limit. -/
theorem countModels_keeps {ex : Expr} {lim lim' : ℤ} (hne : lim' ≠ lim)
    {vModels vModels' : Option (List Expr)} {n : ℕ} {st st' : Analyzer}
    (h : countModels dom z.toZ3 ex lim vModels st = .ok (n, vModels', st')) (x : UInt32) :
    st'.cacheCountModels (x, lim') = st.cacheCountModels (x, lim') := by
  unfold countModels at h
  dsimp only at h
  split at h
  · cases h
    rfl
  · obtain ⟨r, -, hok⟩ := bind_eq_ok.mp h
    cases hok
    apply Function.update_of_ne
    intro heq
    exact hne (congrArg Prod.snd heq)

/-- Nothing has been counted without a limit.  An analyzer that has only read files is like
this: what the first loop looks up in its last count it has put there itself. -/
def Analyzer.Unasked (st : Analyzer) : Prop := ∀ x, st.cacheCountModels (x, defLimModels) = none

/-- **Reading a file** counts with a limit of one only. -/
theorem readFile_unasked {globalComments : Option (List Str)} {analyzer : Analyzer} {text : Str}
    {st : ReadSt Expr} (h : readFile dom z globalComments analyzer text = .ok st)
    (hunasked : analyzer.Unasked) : st.analyzer.Unasked := by
  refine readText_preserves (P := fun st => st.analyzer.Unasked) ?_ hunasked h
  intro st st' line hst hline
  rcases ReadSt.readLine_cases hline with hequals | ⟨-, -, -, hsame⟩
  · rcases ReadSt.readEquals_cases hequals with ⟨-, -, -, hsame⟩ | ⟨-, -, _, _, _, -, -, ex, n, v, h⟩
    · rw [hsame]
      exact hst
    · intro x
      rw [countModels_keeps (by decide) h x]
      exact hst x
  · rw [hsame]
    exact hst

/-- The solutions of the question whether two entries differ. -/
theorem mem_solutions_ne (hz : z.Correct dom holds) {d d' : LocEntry Expr} {φ ψ : List ℤ → Bool}
    (hd : EntryFor dom holds d φ) (hd' : EntryFor dom holds d' ψ) {c : Config}
    (hc : c.Complete dom) : holds (z.ne d.e d'.e) c.val ↔ φ c.values ≠ ψ c.values := by
  rw [hz.ne _ _ c hc, Ne, Bool.eq_iff_iff]
  exact not_congr (iff_congr (hd.sat c hc) (hd'.sat c hc))

theorem unsat_iff_differOn (hz : z.Correct dom holds) {d d' : LocEntry Expr} {φ ψ : List ℤ → Bool}
    (hd : EntryFor dom holds d φ) (hd' : EntryFor dom holds d' ψ) :
    Unsat dom holds (z.ne d.e d'.e) ↔ differOn dom φ ψ = 0 := by
  rw [differOn_eq_zero_iff]
  constructor
  · intro hno values hvalues
    have hc : Config.Complete dom { values } := complete_iff_mem_allValues.mpr hvalues
    exact not_not.mp (mt (mem_solutions_ne hz hd hd' hc).mpr (hno _ hc))
  · intro hsame c hc hholds
    exact (mem_solutions_ne hz hd hd' hc).mp hholds (hsame _ (complete_iff_mem_allValues.mp hc))

/-- The number of solutions of an expression that holds on the configurations of a set. -/
theorem card_solutions_eq {ex : Expr} {φ : List ℤ → Bool}
    (h : ∀ c : Config, c.Complete dom → (holds ex c.val ↔ φ c.values = true)) :
    (solutions dom holds [ex]).card = (allValues dom.vars).countP φ := by
  have heq : solutions dom holds [ex] = ((allValues dom.vars).filter φ).toFinset := by
    ext values
    rw [mem_solutions_singleton, List.mem_toFinset, List.mem_filter]
    have hmem := @complete_iff_mem_allValues dom { values }
    rw [← hmem]
    exact and_congr_right (h { values })
  rw [heq, List.toFinset_card_of_nodup ((nodup_allValues _).filter _),
    List.countP_eq_length_filter]

end Unlimited

/-! ## Locations -/

section Loop

variable {Expr : Type} {dom : Domain} {z : Z3Text Expr} {holds : Expr → (ℕ → ℕ) → Prop}
  {f g : Str → List ℤ → Bool} {names : List Str}

/-- The numbers of the entries that satisfy `P`. -/
def idsOf (P : Str × LocEntry Expr → Bool) (m : List (Str × LocEntry Expr)) : Finset ℕ :=
  ((m.filter P).map fun p => p.2.id).toFinset

theorem mem_idsOf {P : Str × LocEntry Expr → Bool} {m : List (Str × LocEntry Expr)} {i : ℕ} :
    i ∈ idsOf P m ↔ ∃ p ∈ m, P p = true ∧ p.2.id = i := by
  rw [idsOf, List.mem_toFinset, List.mem_map]
  simp only [List.mem_filter, and_assoc]

theorem idsOf_concat_pos {P : Str × LocEntry Expr → Bool} (m : List (Str × LocEntry Expr))
    {p : Str × LocEntry Expr} (hp : P p = true) :
    idsOf P (m ++ [p]) = insert p.2.id (idsOf P m) := by
  unfold idsOf
  ext i
  rw [List.filter_append, List.filter_singleton, hp, cond_true, List.map_append, List.map_singleton,
    Finset.mem_insert, List.mem_toFinset, List.mem_toFinset, List.mem_append, List.mem_singleton,
    or_comm]

theorem idsOf_concat_neg {P : Str × LocEntry Expr → Bool} (m : List (Str × LocEntry Expr))
    {p : Str × LocEntry Expr} (hp : P p = false) : idsOf P (m ++ [p]) = idsOf P m := by
  unfold idsOf
  rw [List.filter_append, List.filter_singleton, hp, cond_false, List.append_nil]

/-- A name is found in a map when it is one of its names. -/
theorem isSome_lookup (m : List (Str × LocEntry Expr)) (s : Str) :
    (m.lookup s).isSome = (m.map Prod.fst).contains s := by
  induction m with
  | nil => rfl
  | cons p m ih =>
      rw [List.lookup_cons, List.map_cons, List.contains_cons, ← ih]
      cases s == p.1 <;> rfl

/-- The location is not one of `names`. -/
def isMissing (names : List Str) (p : Str × LocEntry Expr) : Bool := !names.contains p.1

/-- The location is one of `names`, and the formulas differ. -/
def isDiff (dom : Domain) (f g : Str → List ℤ → Bool) (names : List Str)
    (p : Str × LocEntry Expr) : Bool :=
  names.contains p.1 && differOn dom (f p.1) (g p.1) != 0

/-- The count of the first entry with the number `i` whose formulas differ.  The source adds a
count when `sprintdiff.insert` says that the number is new. -/
def firstCount (dom : Domain) (f g : Str → List ℤ → Bool) (names : List Str)
    (m : List (Str × LocEntry Expr)) (i : ℕ) : ℕ :=
  (((m.filter (isDiff dom f g names)).find? fun p => p.2.id == i).map fun p =>
    differOn dom (f p.1) (g p.1)).getD 0

theorem firstCount_concat_neg (m : List (Str × LocEntry Expr)) {p : Str × LocEntry Expr}
    (hp : isDiff dom f g names p = false) :
    firstCount dom f g names (m ++ [p]) = firstCount dom f g names m := by
  funext i
  unfold firstCount
  rw [List.filter_append, List.filter_singleton, hp, cond_false, List.append_nil]

/-- The sum of the first counts, when one more entry differs. -/
theorem sum_firstCount_concat (m : List (Str × LocEntry Expr)) {p : Str × LocEntry Expr}
    (hp : isDiff dom f g names p = true) :
    ∑ i ∈ idsOf (isDiff dom f g names) (m ++ [p]), firstCount dom f g names (m ++ [p]) i =
      (∑ i ∈ idsOf (isDiff dom f g names) m, firstCount dom f g names m i) +
        if p.2.id ∈ idsOf (isDiff dom f g names) m then 0 else differOn dom (f p.1) (g p.1) := by
  have hfilter : (m ++ [p]).filter (isDiff dom f g names) =
      m.filter (isDiff dom f g names) ++ [p] := by
    rw [List.filter_append, List.filter_singleton, hp, cond_true]
  have hold : ∀ i ∈ idsOf (isDiff dom f g names) m,
      firstCount dom f g names (m ++ [p]) i = firstCount dom f g names m i := by
    intro i hi
    obtain ⟨q, hq, hdiff, hid⟩ := mem_idsOf.mp hi
    have hsome : ((m.filter (isDiff dom f g names)).find? fun p => p.2.id == i).isSome := by
      rw [List.find?_isSome]
      exact ⟨q, List.mem_filter.mpr ⟨hq, hdiff⟩, by rw [hid]; exact beq_self_eq_true i⟩
    unfold firstCount
    rw [hfilter, List.find?_append, Option.or_of_isSome hsome]
  rw [idsOf_concat_pos m hp]
  split
  · next hin =>
      rw [Finset.insert_eq_of_mem hin, Nat.add_zero]
      exact Finset.sum_congr rfl hold
  · next hnew =>
      have hnone : (m.filter (isDiff dom f g names)).find? (fun q => q.2.id == p.2.id) = none := by
        rw [List.find?_eq_none]
        intro q hq heq
        obtain ⟨hq, hdiff⟩ := List.mem_filter.mp hq
        exact hnew (mem_idsOf.mpr ⟨q, hq, hdiff, eq_of_beq heq⟩)
      have hlast : firstCount dom f g names (m ++ [p]) p.2.id = differOn dom (f p.1) (g p.1) := by
        unfold firstCount
        rw [hfilter, List.find?_append, hnone, Option.none_or]
        simp
      rw [Finset.sum_insert hnew, hlast, Finset.sum_congr rfl hold, Nat.add_comm]

/-- **The invariant of the first loop**: the locations `done` have been looked at.

Every set and counter is a function of `done` and of what the two maps mean (`f` and `g`),
not of the formulas.  The cache is the exception: it holds counts of formulas of which no
more is known than that they were asked and what they have been counted to be. -/
structure Diffed (dom : Domain) (z : Z3Text Expr) (holds : Expr → (ℕ → ℕ) → Prop)
    (asked : Expr → Prop) (f g : Str → List ℤ → Bool) (names : List Str)
    (done : List (Str × LocEntry Expr)) (st : DiffSt Expr) : Prop where
  slocsa : st.slocsa = idsOf (fun _ => true) done
  slocsb : st.slocsb = ∅
  smissing : st.smissing = idsOf (isMissing names) done
  cntmissing : st.cntmissing = done.countP (isMissing names)
  sdiff : st.sdiff = idsOf (isDiff dom f g names) done
  sprintdiff : st.sprintdiff = st.sdiff
  cntdiff : st.cntdiff = done.countP (isDiff dom f g names)
  totalcex : dom.configSpace < 2 ^ 31 - 1 →
    st.totalcex = ∑ i ∈ st.sdiff, firstCount dom f g names done i
  veCex : ∀ c : Config, c.Complete dom → ((∃ e ∈ st.veCex, holds e c.val) ↔
    ∃ p ∈ done, names.contains p.1 = true ∧ f p.1 c.values ≠ g p.1 c.values)
  cache : ∀ x n, st.analyzer.cacheCountModels (x, defLimModels) = some n →
    ∃ ex, asked ex ∧ z.hash ex = x ∧
      (dom.configSpace < 2 ^ 31 - 1 → n = (solutions dom holds [ex]).card)

/-- **Z3 is asked** about a location that both files have: what is found goes into the vector
and into the cache. -/
theorem Diffed.ask (hz : z.Correct dom holds) {asked : Expr → Prop}
    {done : List (Str × LocEntry Expr)} {st : DiffSt Expr}
    (h : Diffed dom z holds asked f g names done st) {p : Str × LocEntry Expr} {d : LocEntry Expr}
    (hp : EntryFor dom holds p.2 (f p.1)) (hd : EntryFor dom holds d (g p.1))
    (hin : names.contains p.1 = true) (hasked : asked (z.ne p.2.e d.e)) :
    ∃ n veCex analyzer,
      countModels dom z.toZ3 (z.ne p.2.e d.e) intMax (some (st.veCex ++ [z.ne p.2.e d.e]))
        st.analyzer = .ok (n, some veCex, analyzer) ∧
      (n = 0 ↔ differOn dom (f p.1) (g p.1) = 0) ∧
      (dom.configSpace < 2 ^ 31 - 1 → n = differOn dom (f p.1) (g p.1)) ∧
      (∀ c : Config, c.Complete dom → ((∃ e ∈ veCex, holds e c.val) ↔
        ∃ q ∈ done ++ [p], names.contains q.1 = true ∧ f q.1 c.values ≠ g q.1 c.values)) ∧
      ∀ x m, analyzer.cacheCountModels (x, defLimModels) = some m →
        ∃ ex, asked ex ∧ z.hash ex = x ∧
          (dom.configSpace < 2 ^ 31 - 1 → m = (solutions dom holds [ex]).card) := by
  have hne : ∀ c : Config, c.Complete dom →
      (holds (z.ne p.2.e d.e) c.val ↔ f p.1 c.values ≠ g p.1 c.values) :=
    fun c hc => mem_solutions_ne hz hp hd hc
  have hcount : (solutions dom holds [z.ne p.2.e d.e]).card = differOn dom (f p.1) (g p.1) :=
    card_solutions_eq fun c hc => (hne c hc).trans bne_iff_ne.symm
  obtain ⟨n, cubes, nCheck, hrun, hzero, hcard, hsound⟩ :=
    @countModels_unlimited _ dom z holds hz (z.ne p.2.e d.e)
      (some (st.veCex ++ [z.ne p.2.e d.e])) st.analyzer (fun hnone => by cases hnone)
  refine ⟨n, _, _, hrun, hzero.trans (unsat_iff_differOn hz hp hd),
    fun hspace => (hcard hspace).trans hcount, ?_, ?_⟩
  · intro c hc
    have hmore : (∃ q ∈ done ++ [p], names.contains q.1 = true ∧ f q.1 c.values ≠ g q.1 c.values) ↔
        (∃ e ∈ st.veCex, holds e c.val) ∨ holds (z.ne p.2.e d.e) c.val := by
      rw [h.veCex c hc, hne c hc]
      simp only [List.mem_append, List.mem_singleton, or_and_right, exists_or, exists_eq_left, hin,
        true_and]
    rw [hmore]
    constructor
    · rintro ⟨e, he, hholds⟩
      rcases List.mem_append.mp he with he | he
      · rcases List.mem_append.mp he with he | he
        · exact .inl ⟨e, he, hholds⟩
        · exact .inr (List.mem_singleton.mp he ▸ hholds)
      · exact .inr (hsound e he c hc hholds)
    · rintro (⟨e, he, hholds⟩ | hholds)
      · exact ⟨e, List.mem_append_left _ (List.mem_append_left _ he), hholds⟩
      · exact ⟨_, List.mem_append_left _ (List.mem_append_right _ (List.mem_singleton_self _)),
          hholds⟩
  · intro x m hm
    dsimp only at hm
    by_cases hx : x = z.hash (z.ne p.2.e d.e)
    · subst hx
      rw [Function.update_self] at hm
      obtain rfl := Option.some.inj hm
      exact ⟨_, hasked, rfl, hcard⟩
    · have hkey : (x, defLimModels) ≠ (z.hash (z.ne p.2.e d.e), defLimModels) :=
        fun heq => hx (congrArg Prod.fst heq)
      rw [Function.update_of_ne hkey] at hm
      exact h.cache x m hm

/-- **One location** of the first file. -/
theorem Diffed.step (hz : z.Correct dom holds) {asked : Expr → Prop}
    {mb : List (Str × LocEntry Expr)} (hb : MapFor dom holds mb g)
    {done : List (Str × LocEntry Expr)} {st : DiffSt Expr}
    (h : Diffed dom z holds asked f g (mb.map Prod.fst) done st) {p : Str × LocEntry Expr}
    (hp : EntryFor dom holds p.2 (f p.1)) (hasked : ∀ d, (p.1, d) ∈ mb → asked (z.ne p.2.e d.e)) :
    ∃ st', diffLoc dom z mb st p = .ok st' ∧
      Diffed dom z holds asked f g (mb.map Prod.fst) (done ++ [p]) st' := by
  have hslocsa : insert p.2.id st.slocsa = idsOf (fun _ => true) (done ++ [p]) := by
    rw [idsOf_concat_pos done rfl, h.slocsa]
  have hcountP : ∀ P : Str × LocEntry Expr → Bool,
      (done ++ [p]).countP P = done.countP P + if P p = true then 1 else 0 := by
    intro P
    rw [List.countP_append, List.countP_singleton]
  -- what is said of the formulas that differ stays when there is none more of them
  have hsame : isDiff dom f g (mb.map Prod.fst) p = false →
      st.sdiff = idsOf (isDiff dom f g (mb.map Prod.fst)) (done ++ [p]) ∧
      st.cntdiff = (done ++ [p]).countP (isDiff dom f g (mb.map Prod.fst)) ∧
      (dom.configSpace < 2 ^ 31 - 1 → st.totalcex =
        ∑ i ∈ st.sdiff, firstCount dom f g (mb.map Prod.fst) (done ++ [p]) i) := by
    intro hdiff
    rw [idsOf_concat_neg done hdiff, hcountP, hdiff, firstCount_concat_neg done hdiff]
    exact ⟨h.sdiff, h.cntdiff, h.totalcex⟩
  unfold diffLoc
  dsimp only
  cases hlook : mb.lookup p.1 with
  | none =>
      have hnot : (mb.map Prod.fst).contains p.1 = false := by
        rw [← isSome_lookup, hlook, Option.isSome_none]
      have hmissing : isMissing (mb.map Prod.fst) p = true := by rw [isMissing, hnot, Bool.not_false]
      have hdiff : isDiff dom f g (mb.map Prod.fst) p = false := by rw [isDiff, hnot, Bool.false_and]
      obtain ⟨hsdiff, hcntdiff, htotalcex⟩ := hsame hdiff
      refine ⟨_, rfl, hslocsa, h.slocsb, ?_, ?_, hsdiff, h.sprintdiff, hcntdiff, htotalcex, ?_, h.cache⟩
      · show insert p.2.id st.smissing = _
        rw [idsOf_concat_pos done hmissing, h.smissing]
      · show st.cntmissing + 1 = _
        rw [hcountP, if_pos hmissing, h.cntmissing]
      · intro c hc
        show (∃ e ∈ st.veCex, holds e c.val) ↔ _
        rw [h.veCex c hc]
        simp only [List.mem_append, List.mem_singleton, or_and_right, exists_or, exists_eq_left, hnot,
          Bool.false_eq_true, false_and, or_false]
  | some d =>
      have hmem := (lookup_eq_some_iff_mem hb.nodup).mp hlook
      have hd : EntryFor dom holds d (g p.1) := hb.entries _ hmem
      have hin : (mb.map Prod.fst).contains p.1 = true := by
        rw [← isSome_lookup, hlook, Option.isSome_some]
      have hmissing : isMissing (mb.map Prod.fst) p = false := by rw [isMissing, hin, Bool.not_true]
      have hsmissing : st.smissing = idsOf (isMissing (mb.map Prod.fst)) (done ++ [p]) := by
        rw [idsOf_concat_neg done hmissing, h.smissing]
      have hcntmissing : st.cntmissing = (done ++ [p]).countP (isMissing (mb.map Prod.fst)) := by
        rw [hcountP, hmissing, h.cntmissing]
        rfl
      obtain ⟨n, veCex, analyzer, hrun, hzero, hcard, hve, hcache⟩ :=
        h.ask hz hp hd hin (hasked d hmem)
      dsimp only
      rw [hrun, ok_bind]
      dsimp only
      split
      · next hn =>
          have hdiff : isDiff dom f g (mb.map Prod.fst) p = false := by
            rw [isDiff, hzero.mp hn, bne_self_eq_false, Bool.and_false]
          obtain ⟨hsdiff, hcntdiff, htotalcex⟩ := hsame hdiff
          exact ⟨_, rfl, hslocsa, h.slocsb, hsmissing, hcntmissing, hsdiff, h.sprintdiff, hcntdiff,
            htotalcex, hve, hcache⟩
      · next hn =>
          have hdiff : isDiff dom f g (mb.map Prod.fst) p = true := by
            rw [isDiff, hin, Bool.true_and, bne_iff_ne]
            exact mt hzero.mpr hn
          have hsdiff : insert p.2.id st.sdiff =
              idsOf (isDiff dom f g (mb.map Prod.fst)) (done ++ [p]) := by
            rw [idsOf_concat_pos done hdiff, h.sdiff]
          refine ⟨_, rfl, hslocsa, h.slocsb, hsmissing, hcntmissing, hsdiff, ?_, ?_, ?_, hve, hcache⟩
          · show insert p.2.id st.sprintdiff = insert p.2.id st.sdiff
            rw [h.sprintdiff]
          · show st.cntdiff + 1 = _
            rw [hcountP, if_pos hdiff, h.cntdiff]
          · intro hspace
            show (if p.2.id ∈ st.sprintdiff then st.totalcex else st.totalcex + n) =
              ∑ i ∈ insert p.2.id st.sdiff, _
            rw [hsdiff, sum_firstCount_concat done hdiff, ← h.sdiff, ← h.totalcex hspace, h.sprintdiff,
              hcard hspace]
            split
            · rfl
            · rfl

/-- **All locations** of the first file. -/
theorem Diffed.run (hz : z.Correct dom holds) {ma mb : List (Str × LocEntry Expr)}
    (ha : MapFor dom holds ma f) (hb : MapFor dom holds mb g) {analyzer : Analyzer}
    (hunasked : analyzer.Unasked) :
    ∃ st, ma.foldlM (diffLoc dom z mb) { analyzer } = .ok st ∧
      Diffed dom z holds (Compared z ma mb) f g (mb.map Prod.fst) ma st := by
  have hall : ∀ l : List (Str × LocEntry Expr), l ⊆ ma →
      ∃ st, l.foldlM (diffLoc dom z mb) { analyzer } = .ok st ∧
        Diffed dom z holds (Compared z ma mb) f g (mb.map Prod.fst) l st := by
    intro l
    induction l using List.reverseRecOn with
    | nil =>
        intro _
        refine ⟨_, rfl, rfl, rfl, rfl, rfl, rfl, rfl, rfl, fun _ => rfl, ?_, ?_⟩
        · intro c _
          constructor
          · rintro ⟨e, he, -⟩
            cases he
          · rintro ⟨p, hp, -⟩
            cases hp
        · intro x n hn
          rw [hunasked x] at hn
          cases hn
    | append_singleton l p ih =>
        intro hsub
        obtain ⟨st, hst, hdiffed⟩ := ih fun q hq => hsub (List.mem_append_left _ hq)
        have hp : p ∈ ma := hsub (List.mem_append_right _ (List.mem_singleton_self p))
        obtain ⟨st', hst', hdiffed'⟩ := hdiffed.step hz hb (ha.entries p hp) fun d hd =>
          ⟨p.1, p.2, d, hp, hd, rfl⟩
        refine ⟨st', ?_, hdiffed'⟩
        rw [List.foldlM_append, hst, ok_bind, List.foldlM_cons, hst', ok_bind]
        rfl
  exact hall ma (List.Subset.refl ma)

/-- **All locations** of the second file. -/
theorem foldl_missLoc (ma mb : List (Str × LocEntry Expr)) (st : DiffSt Expr) :
    mb.foldl (missLoc ma) st = { st with
      slocsb := st.slocsb ∪ idsOf (fun _ => true) mb
      smissing := st.smissing ∪ idsOf (isMissing (ma.map Prod.fst)) mb
      cntmissing := st.cntmissing + mb.countP (isMissing (ma.map Prod.fst)) } := by
  induction mb using List.reverseRecOn with
  | nil =>
      show st = _
      simp [idsOf]
  | append_singleton mb p ih =>
      have hlocs : idsOf (fun _ => true) (mb ++ [p]) = insert p.2.id (idsOf (fun _ => true) mb) :=
        idsOf_concat_pos mb rfl
      rw [List.foldl_append, ih, List.foldl_cons, List.foldl_nil, missLoc, isSome_lookup,
        List.countP_append, List.countP_singleton, hlocs, Finset.union_insert]
      cases hin : (ma.map Prod.fst).contains p.1 with
      | true =>
          have hmissing : isMissing (ma.map Prod.fst) p = false := by
            rw [isMissing, hin, Bool.not_true]
          rw [if_pos rfl, idsOf_concat_neg mb hmissing, hmissing]
          rfl
      | false =>
          have hmissing : isMissing (ma.map Prod.fst) p = true := by
            rw [isMissing, hin, Bool.not_false]
          rw [idsOf_concat_pos mb hmissing, hmissing, Finset.union_insert]
          rfl

end Loop

/-! ## What is printed -/

section Printed

variable {Expr : Type} {dom : Domain} {z : Z3Text Expr} {holds : Expr → (ℕ → ℕ) → Prop}
  {mkOr : List Expr → Expr} {f g : Str → List ℤ → Bool} {ma mb : ReadSt Expr}

/-- The loop over the second file has been run as well, and the disjunction has been
counted. -/
structure DiffedBoth (dom : Domain) (z : Z3Text Expr) (holds : Expr → (ℕ → ℕ) → Prop)
    (mkOr : List Expr → Expr) (f g : Str → List ℤ → Bool) (ma mb : List (Str × LocEntry Expr))
    (res : Diff Expr) : Prop where
  locsA : res.locsA = ma.length
  locsB : res.locsB = mb.length
  slocsa : res.slocsa = idsOf (fun _ => true) ma
  slocsb : res.slocsb = idsOf (fun _ => true) mb
  smissing : res.smissing =
    idsOf (isMissing (mb.map Prod.fst)) ma ∪ idsOf (isMissing (ma.map Prod.fst)) mb
  cntmissing : res.cntmissing =
    ma.countP (isMissing (mb.map Prod.fst)) + mb.countP (isMissing (ma.map Prod.fst))
  sdiff : res.sdiff = idsOf (isDiff dom f g (mb.map Prod.fst)) ma
  cntdiff : res.cntdiff = ma.countP (isDiff dom f g (mb.map Prod.fst))
  totalcex : dom.configSpace < 2 ^ 31 - 1 →
    res.totalcex = ∑ i ∈ res.sdiff, firstCount dom f g (mb.map Prod.fst) ma i
  totalCex : dom.configSpace < 2 ^ 31 - 1 →
    (∀ x, Compared z ma mb x → z.hash x = z.hash (mkOr res.veCex) →
      (solutions dom holds [x]).card = (solutions dom holds [mkOr res.veCex]).card) →
    res.totalCex = (allValues dom.vars).countP fun values =>
      ma.any fun p => (mb.map Prod.fst).contains p.1 && f p.1 values != g p.1 values

/-- **`run_analyzer_0`** on two files that have been read. -/
theorem runAnalyzer0_meets (hz : z.Correct dom holds)
    (hor : ∀ es (c : Config), c.Complete dom → (holds (mkOr es) c.val ↔ ∃ e ∈ es, holds e c.val))
    {analyzer : Analyzer} {textA textB : Str}
    (hreadA : readFile dom z none analyzer textA = .ok ma)
    (hreadB : readFile dom z none ma.analyzer textB = .ok mb) (hunasked : analyzer.Unasked)
    (ha : MapFor dom holds ma.byName f) (hb : MapFor dom holds mb.byName g) :
    ∃ res, runAnalyzer0 dom z mkOr textA textB analyzer = .ok res ∧
      DiffedBoth dom z holds mkOr f g ma.byName mb.byName res := by
  have hunasked' : mb.analyzer.Unasked := readFile_unasked hreadB (readFile_unasked hreadA hunasked)
  obtain ⟨st, hrun, hst⟩ := Diffed.run hz ha hb hunasked'
  have hlen : ∀ m : ReadSt Expr, m.res.length = m.byName.length := by
    intro m
    rw [m.byName_perm.length_eq, List.length_map]
  -- what the disjunction says, and how many configurations satisfy it
  let φ (values : List ℤ) : Bool := ma.byName.any fun p =>
    (mb.byName.map Prod.fst).contains p.1 && f p.1 values != g p.1 values
  have hφ : ∀ c : Config, c.Complete dom → (holds (mkOr st.veCex) c.val ↔ φ c.values = true) := by
    intro c hc
    rw [hor _ c hc, hst.veCex c hc, List.any_eq_true]
    simp only [Bool.and_eq_true, bne_iff_ne]
  have hcard := card_solutions_eq hφ
  have hcount : ∃ n vModels analyzer', countModels dom z.toZ3 (mkOr st.veCex) defLimModels none
      st.analyzer = .ok (n, vModels, analyzer') ∧ (dom.configSpace < 2 ^ 31 - 1 →
        (∀ x, Compared z ma.byName mb.byName x → z.hash x = z.hash (mkOr st.veCex) →
          (solutions dom holds [x]).card = (solutions dom holds [mkOr st.veCex]).card) →
        n = (solutions dom holds [mkOr st.veCex]).card) := by
    cases hcache : st.analyzer.cacheCountModels (z.hash (mkOr st.veCex), defLimModels) with
    | some n =>
        refine ⟨n, none, st.analyzer, ?_, ?_⟩
        · unfold countModels
          simp only [hcache]
        · intro hspace htell
          obtain ⟨x, hx, hhash, hn⟩ := hst.cache _ _ hcache
          exact (hn hspace).trans (htell x hx hhash)
    | none =>
        obtain ⟨n, cubes, nCheck, hcall, -, hn, -⟩ :=
          @countModels_unlimited _ dom z holds hz _ none _ fun _ => hcache
        exact ⟨n, _, _, hcall, fun hspace _ => hn hspace⟩
  obtain ⟨n, vModels, analyzer', hcall, hn⟩ := hcount
  have hresult : runAnalyzer0 dom z mkOr textA textB analyzer = .ok
      { (mb.byName.foldl (missLoc ma.byName) st) with
        analyzer := analyzer', locsA := ma.res.length, locsB := mb.res.length, totalCex := n } := by
    unfold runAnalyzer0
    rw [hreadA, ok_bind, hreadB, ok_bind, hrun, ok_bind, foldl_missLoc]
    dsimp only
    rw [hcall, ok_bind]
  refine ⟨_, hresult, ?_⟩
  rw [foldl_missLoc]
  constructor
  · exact hlen ma
  · exact hlen mb
  · exact hst.slocsa
  · show st.slocsb ∪ _ = _
    rw [hst.slocsb, Finset.empty_union]
  · show st.smissing ∪ _ = _
    rw [hst.smissing]
  · show st.cntmissing + _ = _
    rw [hst.cntmissing]
  · exact hst.sdiff
  · exact hst.cntdiff
  · exact hst.totalcex
  · intro hspace htell
    exact (hn hspace htell).trans hcard

end Printed

/-! ## Reports -/

/-- The location is in both reports, and its formulas differ. -/
def Report.differAt (dom : Domain) (r r' : Report Str) (s : Str) : Bool :=
  r'.locs.contains s && differOn dom (r.satOf s) (r'.satOf s) != 0

/-- What is printed about two reports, in terms of their groups.

The numbers of the groups of a report are their positions.  `pick` is the location whose
count `totalcex` takes for a group: the one with the least name among those that differ. -/
structure Report.DiffTo {Expr : Type} (dom : Domain) (r r' : Report Str) (res : Diff Expr) : Prop
    where
  locsA : res.locsA = r.locs.length
  locsB : res.locsB = r'.locs.length
  slocsa : res.slocsa = Finset.range r.groups.length
  slocsb : res.slocsb = Finset.range r'.groups.length
  cntmissing : res.cntmissing =
    r.locs.countP (fun s => !r'.locs.contains s) + r'.locs.countP fun s => !r.locs.contains s
  smissing : ∀ i, i ∈ res.smissing ↔
    (∃ g, r.groups[i]? = some g ∧ ∃ s ∈ g.names, s ∉ r'.locs) ∨
      ∃ g, r'.groups[i]? = some g ∧ ∃ s ∈ g.names, s ∉ r.locs
  cntdiff : res.cntdiff = r.locs.countP (r.differAt dom r')
  sdiff : ∀ i, i ∈ res.sdiff ↔ ∃ g, r.groups[i]? = some g ∧ ∃ s ∈ g.names, r.differAt dom r' s = true
  totalcex : dom.configSpace < 2 ^ 31 - 1 → ∃ pick : ℕ → Str,
    (∀ i ∈ res.sdiff, ∃ g, r.groups[i]? = some g ∧ pick i ∈ g.names ∧
      r.differAt dom r' (pick i) = true ∧
      ∀ s ∈ g.names, r.differAt dom r' s = true → pick i ≤ s) ∧
    res.totalcex = ∑ i ∈ res.sdiff, differOn dom (r.satOf (pick i)) (r'.satOf (pick i))

theorem differOn_comm (dom : Domain) (f g : List ℤ → Bool) : differOn dom f g = differOn dom g f := by
  unfold differOn
  congr 1
  funext values
  exact bne_comm

/-- **The order of the files** does not matter for these. -/
theorem Report.DiffTo.comm {Expr : Type} {dom : Domain} {r r' : Report Str} {res res' : Diff Expr}
    (h : r.DiffTo dom r' res) (h' : r'.DiffTo dom r res') (hnodup : r.locs.Nodup)
    (hnodup' : r'.locs.Nodup) : res.cntdiff = res'.cntdiff ∧ res.cntmissing = res'.cntmissing ∧
      res.smissing = res'.smissing := by
  refine ⟨?_, ?_, ?_⟩
  · rw [h.cntdiff, h'.cntdiff, List.countP_eq_length_filter, List.countP_eq_length_filter]
    apply List.Perm.length_eq
    rw [List.perm_ext_iff_of_nodup (hnodup.filter _) (hnodup'.filter _)]
    intro s
    simp only [List.mem_filter, Report.differAt, Bool.and_eq_true, List.contains_iff_mem,
      differOn_comm dom (r.satOf s), and_left_comm]
  · rw [h.cntmissing, h'.cntmissing, Nat.add_comm]
  · ext i
    rw [h.smissing, h'.smissing, or_comm]

section Reports

variable {Expr : Type} {dom : Domain} {z : Z3Text Expr} {holds : Expr → (ℕ → ℕ) → Prop}
  {strat : ExprStrat} {expensiveSimplify leak : Bool} {r : Report Str} {st : ReadSt Expr}

/-- The numbers of the entries are those of the groups. -/
theorem ReadTo.mem_idsOf (h : ReadTo dom z holds strat expensiveSimplify leak r.groups st)
    (hr : r.Printed dom strat) {P : Str × LocEntry Expr → Bool} {Q : Str → Bool}
    (hPQ : ∀ p, P p = Q p.1) {i : ℕ} :
    i ∈ idsOf P st.byName ↔ ∃ g, r.groups[i]? = some g ∧ ∃ s ∈ g.names, Q s = true := by
  rw [GenTree.mem_idsOf]
  constructor
  · rintro ⟨p, hp, hP, hid⟩
    obtain ⟨q, hq, rfl⟩ := List.mem_map.mp (st.byName_perm.mem_iff.mp hp)
    obtain ⟨j, g, hj, hname, hof⟩ := h.entry_of_mem hr hq
    have hji : j = i := hof.id.symm.trans hid
    subst hji
    exact ⟨g, hj, _, hname, (hPQ _).symm.trans hP⟩
  · rintro ⟨g, hi, s, hs, hQ⟩
    obtain ⟨d, hd, hof⟩ := h.entries i g hi s hs
    exact ⟨(s, d.toLocEntry), st.byName_perm.mem_iff.mpr (List.mem_map.mpr ⟨_, hd, rfl⟩),
      (hPQ _).trans hQ, hof.id⟩

/-- Every group has a number. -/
theorem ReadTo.idsOf_true (h : ReadTo dom z holds strat expensiveSimplify leak r.groups st)
    (hr : r.Printed dom strat) : idsOf (fun _ => true) st.byName = Finset.range r.groups.length := by
  ext i
  rw [h.mem_idsOf hr (Q := fun _ => true) fun _ => rfl, Finset.mem_range]
  constructor
  · rintro ⟨g, hi, -⟩
    exact (List.getElem?_eq_some_iff.mp hi).1
  · intro hi
    obtain ⟨s, hs⟩ := List.exists_mem_of_ne_nil _ (hr.names_ne _ (List.getElem_mem hi))
    exact ⟨_, List.getElem?_eq_getElem hi, s, hs, rfl⟩

/-- A count over the entries is one over the locations. -/
theorem ReadTo.countP_byName (h : ReadTo dom z holds strat expensiveSimplify leak r.groups st)
    {P : Str × LocEntry Expr → Bool} {Q : Str → Bool} (hPQ : ∀ p, P p = Q p.1) :
    st.byName.countP P = r.locs.countP Q := by
  have hP : P = Q ∘ Prod.fst := funext hPQ
  rw [hP, ← List.countP_map, st.names_perm.countP_eq, h.locs, Report.locs]

/-- Two texts for whether a name is one of the locations. -/
theorem ReadTo.contains_names (h : ReadTo dom z holds strat expensiveSimplify leak r.groups st)
    (s : Str) : (st.byName.map Prod.fst).contains s = r.locs.contains s := by
  rw [Bool.eq_iff_iff, List.contains_iff_mem, List.contains_iff_mem, st.names_perm.mem_iff, h.locs,
    Report.locs]

/-- The entries are in the order of their names. -/
theorem ReadSt.byName_sorted (st : ReadSt Expr) :
    st.byName.Pairwise fun p q => p.1 ≤ q.1 := by
  have hsorted := @List.pairwise_mergeSort _
    (fun p q : Str × LocEntry Expr => decide (p.1 ≤ q.1)) ?_ ?_
    (st.res.map fun p => (p.1, p.2.toLocEntry))
  · exact hsorted.imp fun h => of_decide_eq_true h
  · intro p q r hpq hqr
    exact decide_eq_true (le_trans (of_decide_eq_true hpq) (of_decide_eq_true hqr))
  · intro p q
    rcases le_total p.1 q.1 with h | h
    · rw [decide_eq_true h, Bool.true_or]
    · rw [decide_eq_true h, Bool.or_true]

/-- The first count is that of the least name in the group whose formulas differ. -/
theorem ReadTo.firstCount_eq (h : ReadTo dom z holds strat expensiveSimplify leak r.groups st)
    (hr : r.Printed dom strat) {r' : Report Str} {names : List Str}
    (hnames : ∀ s, names.contains s = r'.locs.contains s) {i : ℕ}
    (hi : i ∈ idsOf (isDiff dom r.satOf r'.satOf names) st.byName) :
    ∃ s, (∃ g, r.groups[i]? = some g ∧ s ∈ g.names ∧ r.differAt dom r' s = true ∧
        ∀ t ∈ g.names, r.differAt dom r' t = true → s ≤ t) ∧
      firstCount dom r.satOf r'.satOf names st.byName i =
        differOn dom (r.satOf s) (r'.satOf s) := by
  have hdiff : ∀ p : Str × LocEntry Expr,
      isDiff dom r.satOf r'.satOf names p = r.differAt dom r' p.1 := by
    intro p
    rw [isDiff, hnames, Report.differAt]
  obtain ⟨q, hq, hPq, hid⟩ := GenTree.mem_idsOf.mp hi
  have hsome : ((st.byName.filter (isDiff dom r.satOf r'.satOf names)).find?
      fun p => p.2.id == i).isSome := by
    rw [List.find?_isSome]
    exact ⟨q, List.mem_filter.mpr ⟨hq, hPq⟩, by rw [hid]; exact beq_self_eq_true i⟩
  obtain ⟨p, hp⟩ := Option.isSome_iff_exists.mp hsome
  have hfound := List.find?_eq_some_iff_append.mp hp
  obtain ⟨hpid, pre, post, hsplit, hpre⟩ := hfound
  have hin : p ∈ st.byName.filter (isDiff dom r.satOf r'.satOf names) :=
    List.mem_of_find?_eq_some hp
  obtain ⟨hpmem, hPp⟩ := List.mem_filter.mp hin
  obtain ⟨q', hq', hqp⟩ := List.mem_map.mp (st.byName_perm.mem_iff.mp hpmem)
  obtain ⟨j, g, hj, hname, hof⟩ := h.entry_of_mem hr hq'
  have hji : j = i := by
    rw [← hof.id, ← eq_of_beq hpid, ← hqp]
  subst hji
  have hs : q'.1 = p.1 := congrArg Prod.fst hqp
  refine ⟨p.1, ⟨g, hj, hs ▸ hname, (hdiff p).symm.trans hPp, ?_⟩, ?_⟩
  · intro t ht hdt
    obtain ⟨d, hd, hofd⟩ := h.entries _ g hj t ht
    have hmem : (t, d.toLocEntry) ∈ st.byName :=
      st.byName_perm.mem_iff.mpr (List.mem_map.mpr ⟨_, hd, rfl⟩)
    have hfilter : (t, d.toLocEntry) ∈ st.byName.filter (isDiff dom r.satOf r'.satOf names) :=
      List.mem_filter.mpr ⟨hmem, (hdiff _).trans hdt⟩
    have hsorted := st.byName_sorted.filter (isDiff dom r.satOf r'.satOf names)
    rw [hsplit] at hfilter hsorted
    rcases List.mem_append.mp hfilter with hbefore | hafter
    · have hno := hpre _ hbefore
      rw [show (t, d.toLocEntry).2.id = j from hofd.id, beq_self_eq_true] at hno
      cases hno
    · rcases List.mem_cons.mp hafter with heq | hafter
      · exact (congrArg Prod.fst heq).ge
      · exact List.rel_of_pairwise_cons (List.pairwise_append.mp hsorted).2.1 hafter
  · unfold firstCount
    rw [hp]
    rfl

/-- **Two files that have been read** differ as their reports do. -/
theorem DiffedBoth.diffTo {mkOr : List Expr → Expr} {strat' : ExprStrat}
    {expensiveSimplify' leak' : Bool} {r' : Report Str} {st' : ReadSt Expr} {res : Diff Expr}
    (h : DiffedBoth dom z holds mkOr r.satOf r'.satOf st.byName st'.byName res)
    (hto : ReadTo dom z holds strat expensiveSimplify leak r.groups st) (hr : r.Printed dom strat)
    (hto' : ReadTo dom z holds strat' expensiveSimplify' leak' r'.groups st')
    (hr' : r'.Printed dom strat') : r.DiffTo dom r' res := by
  have hmissing : ∀ p : Str × LocEntry Expr,
      isMissing (st'.byName.map Prod.fst) p = !r'.locs.contains p.1 := by
    intro p
    rw [isMissing, hto'.contains_names]
  have hmissing' : ∀ p : Str × LocEntry Expr,
      isMissing (st.byName.map Prod.fst) p = !r.locs.contains p.1 := by
    intro p
    rw [isMissing, hto.contains_names]
  have hdiff : ∀ p : Str × LocEntry Expr,
      isDiff dom r.satOf r'.satOf (st'.byName.map Prod.fst) p = r.differAt dom r' p.1 := by
    intro p
    rw [isDiff, hto'.contains_names, Report.differAt]
  have hnot : ∀ (l : List Str) (s : Str), (!l.contains s) = true ↔ s ∉ l := by
    intro l s
    rw [Bool.not_eq_true', ← Bool.not_eq_true, List.contains_iff_mem]
  constructor
  · rw [h.locsA, ← List.length_map Prod.fst, st.names_perm.length_eq, hto.locs, Report.locs]
  · rw [h.locsB, ← List.length_map Prod.fst, st'.names_perm.length_eq, hto'.locs, Report.locs]
  · rw [h.slocsa]
    exact hto.idsOf_true hr
  · rw [h.slocsb]
    exact hto'.idsOf_true hr'
  · rw [h.cntmissing, hto.countP_byName (Q := fun s => !r'.locs.contains s) hmissing,
      hto'.countP_byName (Q := fun s => !r.locs.contains s) hmissing']
  · intro i
    rw [h.smissing, Finset.mem_union, hto.mem_idsOf hr (Q := fun s => !r'.locs.contains s) hmissing,
      hto'.mem_idsOf hr' (Q := fun s => !r.locs.contains s) hmissing']
    simp only [hnot]
  · rw [h.cntdiff]
    exact hto.countP_byName hdiff
  · intro i
    rw [h.sdiff, hto.mem_idsOf hr hdiff]
  · intro hspace
    have hfirst := fun i (hi : i ∈ res.sdiff) =>
      hto.firstCount_eq hr hto'.contains_names (h.sdiff ▸ hi)
    choose! pick hpick hcount using hfirst
    refine ⟨pick, hpick, ?_⟩
    rw [h.totalcex hspace]
    exact Finset.sum_congr rfl hcount

end Reports

/-- **The difference of two printed reports.** -/
theorem Report.Printed.diffed {Expr : Type} {dom : Domain} {strat strat' : ExprStrat}
    {r r' : Report Str} (hr : r.Printed dom strat) (hr' : r'.Printed dom strat')
    {z : Z3Text Expr} {holds : Expr → (ℕ → ℕ) → Prop} (hz : z.Correct dom holds)
    {mkOr : List Expr → Expr}
    (hor : ∀ es (c : Config), c.Complete dom → (holds (mkOr es) c.val ↔ ∃ e ∈ es, holds e c.val))
    {b b' : Bool} (hreadable : r.Readable dom z holds b) (hreadable' : r'.Readable dom z holds b')
    {h h' : Header} (hargs : '\n' ∉ h.argLine) (hargs' : '\n' ∉ h'.argLine) :
    ∃ st st' res, GenTree.readFile dom z none {} (r.text z h b) = .ok st ∧
      GenTree.readFile dom z none st.analyzer (r'.text z h' b') = .ok st' ∧
      runAnalyzer0 dom z mkOr (r.text z h b) (r'.text z h' b') {} = .ok res ∧
      r.DiffTo dom r' res ∧
      (dom.configSpace < 2 ^ 31 - 1 →
        (∀ x, Compared z st.byName st'.byName x → z.hash x = z.hash (mkOr res.veCex) →
          (solutions dom holds [x]).card = (solutions dom holds [mkOr res.veCex]).card) →
        res.totalCex = (allValues dom.vars).countP fun values => r.locs.any fun s =>
          r'.locs.contains s && r.satOf s values != r'.satOf s values) := by
  have hclean : ({} : Analyzer).Clean := fun _ _ h => by cases h
  obtain ⟨st, hread, hto⟩ := hr.readFile hz hreadable hargs hclean none
  obtain ⟨st', hread', hto'⟩ := hr'.readFile hz hreadable' hargs' hto.clean none
  obtain ⟨res, hres, hboth⟩ := runAnalyzer0_meets hz hor hread hread' (fun _ => rfl)
    (hto.mapFor hr) (hto'.mapFor hr')
  refine ⟨st, st', res, hread, hread', hres, hboth.diffTo hto hr hto' hr', ?_⟩
  intro hspace htell
  rw [hboth.totalCex hspace htell]
  refine List.countP_congr ?_
  intro values _
  rw [List.any_eq_true, List.any_eq_true]
  have hmem : ∀ s, s ∈ st.byName.map Prod.fst ↔ s ∈ r.locs := by
    intro s
    rw [st.names_perm.mem_iff, hto.locs, Report.locs]
  simp only [hto'.contains_names, ← hmem, List.mem_map]
  constructor
  · rintro ⟨p, hp, hdiff⟩
    exact ⟨p.1, ⟨p, hp, rfl⟩, hdiff⟩
  · rintro ⟨s, ⟨p, hp, rfl⟩, hdiff⟩
    exact ⟨p, hp, hdiff⟩

/-! ## Reports of runs -/

/-- **The difference of two runs.**  Whatever runs have written two reports over one domain,
if both can be read they are read back and compared, and no check fires.  The counts are those
of the locations that one report only has and of those on whose formulas the reports disagree,
and the sets are those of the groups.  When the hashes do not confuse them, and the
configuration space is not too large, the last number is that of the configurations the
reports disagree on.

With the files in the other order the numbers of locations are the same; the groups that
differ are numbered by the first file, so that set may be another one. -/
theorem RunsTo.reports_diffed {Hash Hash' Expr : Type} [DecidableEq Hash] [DecidableEq Hash']
    {env : Env Str Hash} {env' : Env Str Hash'} (hdom : env'.dom = env.dom)
    {guard : Label × St Str Hash → Prop} {guard' : Label × St Str Hash' → Prop} {l l' : Label}
    {s : St Str Hash} {s' : St Str Hash'} (hrun : RunsTo env guard l s)
    (hrun' : RunsTo env' guard' l' s') {r r' : Report Str} (hr : r ∈ s.reports)
    (hr' : r' ∈ s'.reports) {z : Z3Text Expr} {holds : Expr → (ℕ → ℕ) → Prop}
    (hz : z.Correct env.dom holds) {mkOr : List Expr → Expr}
    (hor : ∀ es (c : Config), c.Complete env.dom →
      (holds (mkOr es) c.val ↔ ∃ e ∈ es, holds e c.val))
    {b b' : Bool} (hreadable : r.Readable env.dom z holds b)
    (hreadable' : r'.Readable env.dom z holds b') {h h' : Header} (hargs : '\n' ∉ h.argLine)
    (hargs' : '\n' ∉ h'.argLine) :
    (∃ st st' res, readFile env.dom z none {} (r.text z h b) = .ok st ∧
      readFile env.dom z none st.analyzer (r'.text z h' b') = .ok st' ∧
      runAnalyzer0 env.dom z mkOr (r.text z h b) (r'.text z h' b') {} = .ok res ∧
      r.DiffTo env.dom r' res ∧
      (env.dom.configSpace < 2 ^ 31 - 1 →
        (∀ x, Compared z st.byName st'.byName x → z.hash x = z.hash (mkOr res.veCex) →
          (solutions env.dom holds [x]).card =
            (solutions env.dom holds [mkOr res.veCex]).card) →
        res.totalCex = (allValues env.dom.vars).countP fun values => r.locs.any fun s =>
          r'.locs.contains s && r.satOf s values != r'.satOf s values)) ∧
      ∃ res res', runAnalyzer0 env.dom z mkOr (r.text z h b) (r'.text z h' b') {} = .ok res ∧
        runAnalyzer0 env.dom z mkOr (r'.text z h' b') (r.text z h b) {} = .ok res' ∧
        res.cntdiff = res'.cntdiff ∧ res.cntmissing = res'.cntmissing ∧
        res.smissing = res'.smissing := by
  have hprinted := hrun.reports_printed r hr
  have hprinted' := hrun'.reports_printed r' hr'
  rw [hdom] at hprinted'
  have hthere := hprinted.diffed hprinted' hz hor hreadable hreadable' hargs hargs'
  obtain ⟨-, -, res', -, -, hres', hdiff', -⟩ :=
    hprinted'.diffed hprinted hz hor hreadable' hreadable hargs' hargs
  refine ⟨hthere, ?_⟩
  obtain ⟨-, -, res, -, -, hres, hdiff, -⟩ := hthere
  exact ⟨res, res', hres, hres', hdiff.comm hdiff' hprinted.nodup hprinted'.nodup⟩

theorem ZExpr.holds_mkOr (es : List ZExpr) (a : ℕ → ℕ) :
    ZExpr.Holds (ZExpr.mkOr es) a ↔ ∃ e ∈ es, ZExpr.Holds e a := by
  show (ZExpr.mkOr es).sat a = true ↔ ∃ e ∈ es, e.sat a = true
  rw [ZExpr.sat_mkOr, List.any_eq_true]

/-- **Two reports differ**: about `a`, which is in the third group of the first one, for both
values of the switch; and `c` and `d` are in one of them only. -/
theorem RunsTo.reports_diffed_switchOn : ∃ l s r l' s' r',
    RunsTo (.switching truthNames truthNames_nodup) (fun _ => True) l s ∧ r ∈ s.reports ∧
    RunsTo (.switching predNames predNames_nodup) (fun _ => True) l' s' ∧ r' ∈ s'.reports ∧
      ∃ res, runAnalyzer0 Env.switchOn.dom Z3Text.onOff ZExpr.mkOr
          (r.text .onOff (.ofArgs [['-', 'O'], ['a', '.', 't', 'x', 't']]) false)
          (r'.text .onOff (.ofArgs [['-', 'O'], ['b', '.', 't', 'x', 't']]) false) {} = .ok res ∧
        res.cntdiff = 1 ∧ res.cntmissing = 2 ∧ res.totalCex = 2 := by
  obtain ⟨l, s, r, l', s', r', hrun, hr, hrun', hr', -, hsaid, hsaid'⟩ := Env.exists_onOff_reports
  have hreadable := hsaid.readable (by decide) (by decide) (by decide)
  have hreadable' := hsaid'.readable (by decide) (by decide) (by decide)
  have hargs : '\n' ∉ (Header.ofArgs [['-', 'O'], ['a', '.', 't', 'x', 't']]).argLine := by decide
  have hargs' : '\n' ∉ (Header.ofArgs [['-', 'O'], ['b', '.', 't', 'x', 't']]).argLine := by decide
  have hdom : (Env.switching truthNames truthNames_nodup).dom = Env.switchOn.dom := rfl
  have hdom' : (Env.switching predNames predNames_nodup).dom =
    (Env.switching truthNames truthNames_nodup).dom := rfl
  have hdiffed := @RunsTo.reports_diffed (List ℤ) (List ℤ) ZExpr _ _ _ _ hdom' _ _ _ _ _ _
    hrun hrun' _ _ hr hr' .onOff ZExpr.Holds
  rw [hdom] at hdiffed
  obtain ⟨⟨st, st', res, -, -, hres, hdiff, htotal⟩, -⟩ := hdiffed Z3Text.onOff_correct
    (fun es c _ => ZExpr.holds_mkOr es c.val) hreadable hreadable' hargs hargs'
  -- formulas with one hash have the same solutions
  have htell : ∀ x y, Z3Text.onOff.hash x = Z3Text.onOff.hash y →
      (solutions Env.switchOn.dom ZExpr.Holds [x]).card =
        (solutions Env.switchOn.dom ZExpr.Holds [y]).card := by
    intro x y heq
    refine congrArg Finset.card (solutions_singleton_congr fun c hc => ?_)
    show x.sat c.val = true ↔ y.sat c.val = true
    rw [Z3Text.onOff_hash heq hc]
  refine ⟨l, s, r, l', s', r', hrun, hr, hrun', hr', res, hres, ?_, ?_, ?_⟩
  · rw [hdiff.cntdiff, hsaid.locs]
    unfold Report.differAt
    rw [hsaid.satOf, hsaid'.satOf, hsaid'.locs]
    decide
  · rw [hdiff.cntmissing, hsaid.locs, hsaid'.locs]
    decide
  · rw [htotal (by decide) fun x _ => htell x _, hsaid.locs, hsaid.satOf, hsaid'.satOf, hsaid'.locs]
    decide

end GenTree

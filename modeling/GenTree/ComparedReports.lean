import GenTree.Comparison
import GenTree.ReportValidation

/-!
# Comparing the reports of two runs

Two reports are read one after the other, and `run_analyze_3` compares them.  The formulas
that are read mean what the groups say, so the scores are about the groups themselves
(`RunsTo.reports_compared`).

* **First locations.**  Only the first location of each group is looked at.  `read_file` marks
  it while it adds the locations of a group, so the invariant is about the entries in the order
  in which they were added (`FirstsMarked`): an entry is marked when no entry in front has its
  number.  That order is lost in the map the function returns, and a permutation of the marked
  entries is all that remains (`ReadTo.firsts_perm`).
* **The cache.**  The first file is read before the second one, and both before anything is
  compared; all questions go through one cache, by hashes of 32 bits.  So the answers are right
  only if the hashes do not confuse what is asked (`HashesTell`).  When equal hashes mean equal
  satisfiability this follows from an invariant of the reader (`readFile_honest`).
* **Reports that can be read.**  A run can print two groups with one formula, and then the file
  is not read; `Report.Readable` is asked of both reports.
-/

namespace GenTree

open Outcome

/-! ## First locations -/

section Tags

variable {Expr : Type} {dom : Domain} {z : Z3Text Expr}

/-- The first entry of each number is marked, and no other.  The entries are in the order in
which they have been added. -/
def FirstsMarked (res : List (Str × ReadEntry Expr)) : Prop :=
  ∀ pre p post, res = pre ++ p :: post → (p.2.isFirst = true ↔ ∀ q ∈ pre, q.2.id ≠ p.2.id)

theorem FirstsMarked.concat {res : List (Str × ReadEntry Expr)} (h : FirstsMarked res)
    {p : Str × ReadEntry Expr} (hp : p.2.isFirst = true ↔ ∀ q ∈ res, q.2.id ≠ p.2.id) :
    FirstsMarked (res ++ [p]) := by
  intro pre q post hsplit
  rcases List.eq_nil_or_concat post with rfl | ⟨post, q', rfl⟩
  · obtain ⟨rfl, hq⟩ := List.append_inj' hsplit rfl
    rw [List.cons.injEq] at hq
    rw [← hq.1]
    exact hp
  · rw [List.concat_eq_append, ← List.cons_append, ← List.append_assoc] at hsplit
    exact h pre q post (List.append_inj' hsplit rfl).1

/-- The locations of a group are added. -/
theorem addLocs_marked {e : Expr} {tree : CTree} {ignored isFirst : Bool} {curId : ℕ}
    {locs : List Str} {res : List (Str × ReadEntry Expr)} {comments : List Str}
    {r : List (Str × ReadEntry Expr) × Bool × List Str}
    (h : locs.foldlM (ReadSt.addLoc e tree ignored curId) (res, isFirst, comments) = .ok r)
    (hids : ∀ p ∈ res, p.2.id ≤ curId) (hflags : FirstsMarked res)
    (hfirst : isFirst = true ↔ ∀ p ∈ res, p.2.id ≠ curId) :
    (∀ p ∈ r.1, p.2.id ≤ curId) ∧ FirstsMarked r.1 ∧
      ∀ p ∈ r.1, p ∈ res ∨ p.2.id = curId ∧ p.2.e = e := by
  induction locs generalizing res isFirst comments with
  | nil =>
      cases h
      exact ⟨hids, hflags, fun p hp => .inl hp⟩
  | cons s locs ih =>
      rw [List.foldlM_cons] at h
      obtain ⟨r₁, hadd, hrest⟩ := bind_eq_ok.mp h
      unfold ReadSt.addLoc at hadd
      obtain ⟨_, -, hok⟩ := bind_eq_ok.mp hadd
      cases hok
      obtain ⟨hids', hflags', hnew⟩ := ih hrest (fun p hp => by
          rcases List.mem_append.mp hp with hp | hp
          · exact hids p hp
          · rw [List.mem_singleton.mp hp]) (hflags.concat hfirst) (by
        constructor
        · intro hfalse
          cases hfalse
        · intro hall
          exact absurd rfl (hall _ (List.mem_append_right _ (List.mem_singleton_self _))))
      refine ⟨hids', hflags', ?_⟩
      intro p hp
      rcases hnew p hp with hp | hp
      · rcases List.mem_append.mp hp with hp | hp
        · exact .inl hp
        · rw [List.mem_singleton.mp hp]
          exact .inr ⟨rfl, rfl⟩
      · exact .inr hp

/-- The entries of `st` are numbered, the first of each number is marked, and those of one
number have one formula. -/
structure ReadSt.Tagged (st : ReadSt Expr) : Prop where
  ids : ∀ p ∈ st.res, p.2.id < st.curId
  flags : FirstsMarked st.res
  shared : ∀ p ∈ st.res, ∀ q ∈ st.res, p.2.id = q.2.id → p.2.e = q.2.e

/-- **One line** keeps the marks right. -/
theorem ReadSt.Tagged.readLine {st st' : ReadSt Expr} {line : Str} (h : st.Tagged)
    (hline : ReadSt.readLine dom z st line = .ok st') : st'.Tagged := by
  rcases ReadSt.readLine_cases hline with hequals | ⟨hres, hcur, -⟩
  · rcases ReadSt.readEquals_cases hequals with ⟨hres, hcur, -⟩ | ⟨-, hcur, e, tree, r, hadd, hres, -⟩
    · exact ⟨by rw [hres, hcur]; exact h.ids, by rw [hres]; exact h.flags, by rw [hres]; exact h.shared⟩
    · have hnone : ∀ p ∈ st.res, p.2.id ≠ st.curId := fun p hp => (h.ids p hp).ne
      obtain ⟨hids, hflags, hnew⟩ := addLocs_marked hadd (fun p hp => (h.ids p hp).le) h.flags
        (iff_of_true rfl hnone)
      constructor
      · intro p hp
        rw [hres] at hp
        rw [hcur]
        exact Nat.lt_succ_of_le (hids p hp)
      · rwa [hres]
      · intro p hp q hq hid
        rw [hres] at hp hq
        rcases hnew p hp with hp | ⟨hpid, hpe⟩
        · rcases hnew q hq with hq | ⟨hqid, -⟩
          · exact h.shared p hp q hq hid
          · exact absurd (hid.trans hqid) (hnone p hp)
        · rcases hnew q hq with hq | ⟨-, hqe⟩
          · exact absurd (hid.symm.trans hpid) (hnone q hq)
          · rw [hpe, hqe]
  · exact ⟨by rw [hres, hcur]; exact h.ids, by rw [hres]; exact h.flags, by rw [hres]; exact h.shared⟩

/-- **Every file** is read with the marks right. -/
theorem readFile_tagged {globalComments : Option (List Str)} {analyzer : Analyzer} {text : Str}
    {st : ReadSt Expr} (h : readFile dom z globalComments analyzer text = .ok st) : st.Tagged := by
  refine readText_preserves (fun st st' line hst hline => hst.readLine hline) ⟨?_, ?_, ?_⟩ h
  · intro p hp
    cases hp
  · intro pre p post hsplit
    exact absurd hsplit.symm (List.append_ne_nil_of_right_ne_nil _ (List.cons_ne_nil _ _))
  · intro p hp
    cases hp

/-- Every entry has the formula of a marked one. -/
theorem ReadSt.Tagged.exists_first {st : ReadSt Expr} (h : st.Tagged) {p : Str × ReadEntry Expr}
    (hp : p ∈ st.res) : ∃ q ∈ st.res, q.2.isFirst = true ∧ q.2.e = p.2.e := by
  have hsome : (st.res.find? fun q => q.2.id == p.2.id).isSome := by
    rw [List.find?_isSome]
    exact ⟨p, hp, beq_self_eq_true _⟩
  obtain ⟨q, hq⟩ := Option.isSome_iff_exists.mp hsome
  have hmem := List.mem_of_find?_eq_some hq
  obtain ⟨hid, pre, post, hsplit, hpre⟩ := List.find?_eq_some_iff_append.mp hq
  refine ⟨q, hmem, (h.flags pre q post hsplit).mpr ?_, h.shared q hmem p hp (eq_of_beq hid)⟩
  intro q' hq' heq
  have hno := hpre q' hq'
  rw [heq, eq_of_beq hid, beq_self_eq_true] at hno
  cases hno

/-- **The marked entries** of groups that have been read in their order are those of the
first names. -/
theorem firsts_eq {groups : List (Group Str)} (hne : ∀ g ∈ groups, g.names ≠ [])
    {res : List (Str × ReadEntry Expr)} (hflags : FirstsMarked res)
    (hnames : res.map Prod.fst = groups.flatMap Group.names)
    (hid : ∀ p ∈ res, ∀ i g, groups[i]? = some g → p.1 ∈ g.names → p.2.id = i) :
    (res.filter fun p => p.2.isFirst).map Prod.fst = groups.filterMap fun g => g.names.head? := by
  induction groups using List.reverseRecOn generalizing res with
  | nil =>
      rw [List.flatMap_nil, List.map_eq_nil_iff] at hnames
      rw [hnames]
      rfl
  | append_singleton groups g ih =>
      rw [List.flatMap_append, List.flatMap_singleton] at hnames
      obtain ⟨res₁, res₂, rfl, hnames₁, hnames₂⟩ := List.map_eq_append_iff.mp hnames
      have hlast : (groups ++ [g])[groups.length]? = some g := List.getElem?_concat_length
      have hold : ∀ p ∈ res₁, p.2.id < groups.length := by
        intro p hp
        have hmem : p.1 ∈ groups.flatMap Group.names := hnames₁ ▸ List.mem_map_of_mem hp
        obtain ⟨g', hg', hin⟩ := List.mem_flatMap.mp hmem
        obtain ⟨i, hi⟩ := List.mem_iff_getElem?.mp hg'
        have hlt := (List.getElem?_eq_some_iff.mp hi).1
        rw [hid p (List.mem_append_left _ hp) i g' (by rw [List.getElem?_append_left hlt, hi]) hin]
        exact hlt
      have hnew : ∀ p ∈ res₂, p.2.id = groups.length := by
        intro p hp
        exact hid p (List.mem_append_right _ hp) _ g hlast (hnames₂ ▸ List.mem_map_of_mem hp)
      rw [List.forall_mem_append] at hne
      have hfirst₁ := ih hne.1 (fun pre p post hsplit => hflags pre p (post ++ res₂) (by
        rw [hsplit, List.append_assoc, List.cons_append])) hnames₁ fun p hp i g' hi hin =>
          hid p (List.mem_append_left _ hp) i g' (by
            rw [List.getElem?_append_left (List.getElem?_eq_some_iff.mp hi).1, hi]) hin
      obtain ⟨s, names, hg⟩ := List.exists_cons_of_ne_nil (hne.2 g (List.mem_singleton_self g))
      rw [hg] at hnames₂
      obtain ⟨p, res₃, rfl, rfl, hnames₃⟩ := List.map_eq_cons_iff.mp hnames₂
      -- the first entry of the last group has no entry of its number in front
      have hp : p.2.isFirst = true := by
        refine (hflags res₁ p res₃ rfl).mpr ?_
        intro q hq
        rw [hnew p List.mem_cons_self]
        exact (hold q hq).ne
      have hrest : res₃.filter (fun p => p.2.isFirst) = [] := by
        rw [List.filter_eq_nil_iff]
        intro q hq hfirst
        obtain ⟨pre, post, rfl⟩ := List.append_of_mem hq
        have hsplit := hflags (res₁ ++ p :: pre) q post (by simp)
        refine hsplit.mp hfirst p (List.mem_append_right _ List.mem_cons_self) ?_
        rw [hnew p List.mem_cons_self, hnew q (List.mem_cons_of_mem _ hq)]
      rw [List.filter_append, List.map_append, hfirst₁, List.filter_cons, if_pos hp, hrest,
        List.filterMap_append, List.filterMap_cons, hg]
      rfl

end Tags

/-! ## Reports -/

/-- The configurations that satisfy the formula of a location. -/
def Report.satOf (r : Report Str) (s : Str) (values : List ℤ) : Bool :=
  ((r.groups.find? fun g => g.names.contains s).map fun g =>
    g.expr.sat (Config.val { values })).getD false

/-- The locations of a report, and the first of each group. -/
def Report.locs (r : Report Str) : List Str := r.groups.flatMap Group.names

def Report.firstLocs (r : Report Str) : List Str := r.groups.filterMap fun g => g.names.head?

section Reports

variable {Expr : Type} {dom : Domain} {z : Z3Text Expr} {holds : Expr → (ℕ → ℕ) → Prop}
  {strat : ExprStrat} {expensiveSimplify leak : Bool} {r : Report Str} {st : ReadSt Expr}

theorem Report.Printed.satOf_eq (hr : r.Printed dom strat) {g : Group Str} (hg : g ∈ r.groups)
    {s : Str} (hs : s ∈ g.names) (values : List ℤ) :
    r.satOf s values = g.expr.sat (Config.val { values }) := by
  have hfound : (r.groups.find? fun g => g.names.contains s).isSome := by
    rw [List.find?_isSome]
    exact ⟨g, hg, List.contains_iff_mem.mpr hs⟩
  obtain ⟨g', hg'⟩ := Option.isSome_iff_exists.mp hfound
  have hin : s ∈ g'.names := by simpa using List.find?_some hg'
  obtain rfl := hr.group_unique hg (List.mem_of_find?_eq_some hg') hs hin
  rw [Report.satOf, hg']
  rfl

theorem Report.Printed.length_firstLocs (hr : r.Printed dom strat) :
    r.firstLocs.length = r.groups.length := by
  have hall : ∀ g ∈ r.groups, (g.names.head?).isSome := by
    intro g hg
    rw [List.isSome_head?]
    exact hr.names_ne g hg
  unfold Report.firstLocs
  generalize r.groups = groups at hall
  induction groups with
  | nil => rfl
  | cons g groups ih =>
      rw [List.forall_mem_cons] at hall
      obtain ⟨s, hs⟩ := Option.isSome_iff_exists.mp hall.1
      rw [List.filterMap_cons, hs, List.length_cons, List.length_cons, ih hall.2]

theorem ReadSt.byName_perm (st : ReadSt Expr) :
    st.byName.Perm (st.res.map fun p => (p.1, p.2.toLocEntry)) := List.mergeSort_perm _ _

theorem ReadSt.names_perm (st : ReadSt Expr) :
    (st.byName.map Prod.fst).Perm (st.res.map Prod.fst) := by
  have hperm := st.byName_perm.map Prod.fst
  rwa [List.map_map] at hperm

/-- **The map of a report** that has been read is that of its formulas. -/
theorem ReadTo.mapFor (h : ReadTo dom z holds strat expensiveSimplify leak r.groups st)
    (hr : r.Printed dom strat) : MapFor dom holds st.byName r.satOf := by
  constructor
  · rw [st.names_perm.nodup_iff, h.locs]
    exact hr.nodup
  · intro p hp
    obtain ⟨q, hq, rfl⟩ := List.mem_map.mp (st.byName_perm.mem_iff.mp hp)
    obtain ⟨i, g, hi, hname, -⟩ := h.entry_of_mem hr hq
    have hg := List.mem_of_getElem? hi
    refine ⟨h.agrees q hq, ?_⟩
    intro c hc
    rw [hr.satOf_eq hg hname]
    exact h.sat_iff hr hq hg hname hc

/-- The marked entries are those of the first locations of the groups. -/
theorem ReadTo.firsts_perm (h : ReadTo dom z holds strat expensiveSimplify leak r.groups st)
    (hr : r.Printed dom strat) (htagged : st.Tagged) :
    ((st.byName.filter fun p => p.2.isFirst).map Prod.fst).Perm r.firstLocs := by
  have hperm := (st.byName_perm.filter fun p => p.2.isFirst).map Prod.fst
  rw [List.filter_map, List.map_map] at hperm
  refine hperm.trans (List.Perm.of_eq (firsts_eq hr.names_ne htagged.flags h.locs ?_))
  intro p hp i g hi hin
  obtain ⟨d, hd, hof⟩ := h.entries i g hi p.1 hin
  have hnodup : (st.res.map Prod.fst).Nodup := by
    rw [h.locs]
    exact hr.nodup
  rw [← List.inj_on_of_nodup_map hnodup hd hp rfl]
  exact hof.id

/-- **Two files that have been read** are compared. -/
theorem ReadTo.runAnalyze3 {strat' : ExprStrat} {expensiveSimplify' leak' : Bool} {r' : Report Str}
    {st' : ReadSt Expr} (hz : z.Correct dom holds) (hrange : ∀ x ∈ dom.vars, x.nValues ≤ 32768)
    (hto : ReadTo dom z holds strat expensiveSimplify leak r.groups st) (hr : r.Printed dom strat)
    (htagged : st.Tagged)
    (hto' : ReadTo dom z holds strat' expensiveSimplify' leak' r'.groups st')
    (hr' : r'.Printed dom strat')
    (htell : HashesTell dom z holds (Compared z st.byName st'.byName) st'.analyzer)
    {analyzer : Analyzer} {truthText predText : Str} {gcmt : List Str} {h' : Header}
    (hread : readFile dom z none analyzer truthText = .ok st)
    (hread' : readFile dom z (some []) st.analyzer predText = .ok st')
    (hgcmt : st'.globalComments = some gcmt) (hline : gcmt[2]? = some (h'.statusLine r'))
    (hfits : StatusLine.Fits h' r') :
    ∃ res, GenTree.runAnalyze3 dom z truthText predText analyzer = .ok res ∧
      res.verdicts.Perm
        (r.firstLocs.map fun s => (s, verdictOf dom r.satOf r'.satOf r'.locs s)) ∧
      res.cntInteractions = r.groups.length ∧
      res.cntExact = res.verdicts.countP (fun v => decide (v.2 = .exact)) ∧
      res.cntWrong = (r.groups.length : ℤ) - res.cntExact ∧
      res.deltaLocs = (r'.locs.length : ℤ) - r.locs.length ∧ res.nConfigs = r'.nConfigs ∧
      res.wrongLocs = res.verdicts.flatMap fun v => v.2.text v.1 := by
  obtain ⟨sc, hrun, hscored⟩ := Scored.run hz htell hto'.clean (hto.mapFor hr) (hto'.mapFor hr')
  have hspace : dom.configSpace =
      ((allValues dom.vars).map fun values => ({ values } : Config)).length := by
    rw [List.length_map, length_allValues, Domain.configSpace]
  have hparam : StatusLine.retParam (StatusLine.fields h' r') 1 = .ok (r'.nConfigs : ℤ) :=
    StatusLine.retParam_fields hfits rfl
  have hsplit := StatusLine.splitParams_eq hline
  -- the verdicts depend on the locations of the other report only through membership
  have hverdicts : sc.verdicts.Perm
      (r.firstLocs.map fun s => (s, verdictOf dom r.satOf r'.satOf r'.locs s)) := by
    have hnames : ∀ s, verdictOf dom r.satOf r'.satOf (st'.byName.map Prod.fst) s =
        verdictOf dom r.satOf r'.satOf r'.locs s := by
      intro s
      have hmem : s ∈ st'.byName.map Prod.fst ↔ s ∈ r'.locs := by
        rw [st'.names_perm.mem_iff, hto'.locs, Report.locs]
      unfold verdictOf
      simp only [List.contains_iff_mem, hmem]
    have hperm := (hto.firsts_perm hr htagged).map fun s =>
      (s, verdictOf dom r.satOf r'.satOf r'.locs s)
    rw [List.map_map] at hperm
    rw [hscored.verdicts]
    simp only [hnames]
    exact hperm
  have hcount : sc.cntInteractions = r.groups.length := by
    rw [hscored.cntInteractions, hverdicts.length_eq, List.length_map, hr.length_firstLocs]
  have hlocs : st.res.length = r.locs.length := by
    rw [Report.locs, ← hto.locs, List.length_map]
  have hlocs' : st'.res.length = r'.locs.length := by
    rw [Report.locs, ← hto'.locs, List.length_map]
  refine ⟨{ cntInteractions := sc.cntInteractions, cntExact := sc.cntExact
            cntWrong := (sc.cntInteractions : ℤ) - sc.cntExact
            deltaLocs := (st'.res.length : ℤ) - st.res.length, nConfigs := r'.nConfigs
            wrongLocs := sc.wrongLocs, verdicts := sc.verdicts },
    ?_, hverdicts, hcount, hscored.cntExact, ?_, ?_, rfl, hscored.wrongLocs⟩
  · unfold GenTree.runAnalyze3
    rw [hread, liftM_ok, ok_bind, hread', liftM_ok, ok_bind, hgcmt, Option.getD_some, hsplit,
      liftParam_ok, ok_bind, genAllConfigs_eq hrange, liftM_ok, ok_bind, check_pos hspace, ok_bind,
      hrun, ok_bind, hparam, liftParam_ok, ok_bind]
  · rw [hcount]
  · rw [hlocs, hlocs']

end Reports

/-! ## Hashes that tell enough

The cache is asked for by the hash of a formula only.  When equal hashes mean that both
formulas can be satisfied or neither, the answers in the cache are right for every formula,
and stay so while files are read. -/

section Telling

variable {Expr : Type} {dom : Domain} {z : Z3Text Expr} {holds : Expr → (ℕ → ℕ) → Prop}

/-- **Reading a file** keeps the cache right. -/
theorem readFile_honest (hz : z.Correct dom holds)
    (htell : ∀ x y, z.hash x = z.hash y → (Unsat dom holds x ↔ Unsat dom holds y))
    {globalComments : Option (List Str)} {analyzer : Analyzer} {text : Str} {st : ReadSt Expr}
    (hread : readFile dom z globalComments analyzer text = .ok st)
    (hhonest : Honest dom z holds (fun _ => True) analyzer) :
    Honest dom z holds (fun _ => True) st.analyzer := by
  have hempty : HashesTell dom z holds (fun _ => True) {} :=
    ⟨fun x y _ _ => htell x y, fun _ _ _ => rfl⟩
  refine readText_preserves (P := fun st => Honest dom z holds (fun _ => True) st.analyzer) ?_
    hhonest hread
  intro st st' line hst hline
  rcases ReadSt.readLine_cases hline with hequals | ⟨-, -, -, hsame⟩
  · rcases ReadSt.readEquals_cases hequals with ⟨-, -, -, hsame⟩ | ⟨-, -, _, _, _, -, -, ex, n, v, h⟩
    · rwa [hsame]
    · obtain ⟨_, _, hrun, -, hkept⟩ := @countModels_one _ _ _ _ hz _ _ _ hempty hst ex trivial
      rw [h] at hrun
      cases hrun
      exact hkept
  · rwa [hsame]

/-- Such hashes tell whatever is asked. -/
theorem HashesTell.of_unsat_iff
    (htell : ∀ x y, z.hash x = z.hash y → (Unsat dom holds x ↔ Unsat dom holds y))
    {analyzer : Analyzer} (hhonest : Honest dom z holds (fun _ => True) analyzer)
    (hclean : analyzer.Clean) (asked : Expr → Prop) : HashesTell dom z holds asked analyzer := by
  refine ⟨fun x y _ _ => htell x y, fun x _ hsat => ?_⟩
  cases hcache : analyzer.cacheCountModels (z.hash x, 1) with
  | none => rfl
  | some n => exact absurd ((hhonest x trivial n hcache).mp (hclean _ _ hcache)) hsat

end Telling

/-! ## Reports of runs -/

/-- **Comparing two runs.**  Whatever runs have written two reports over one domain, if both
can be read they are read back and compared, and no check fires.  There is one verdict for
the first location of each group of the first report, and it is right: the location is
missing in the second report, or the formulas of its groups agree on all configurations, or
they differ and the configurations are counted by what the two formulas say of them.

What is asked of the hashes is asked of the formulas of the two files only, and of the cache
as it is when both have been read. -/
theorem RunsTo.reports_compared {Hash Hash' Expr : Type} [DecidableEq Hash] [DecidableEq Hash']
    {env : Env Str Hash} {env' : Env Str Hash'} (hdom : env'.dom = env.dom)
    {guard : Label × St Str Hash → Prop} {guard' : Label × St Str Hash' → Prop} {l l' : Label}
    {s : St Str Hash} {s' : St Str Hash'} (hrun : RunsTo env guard l s)
    (hrun' : RunsTo env' guard' l' s') {r r' : Report Str} (hr : r ∈ s.reports)
    (hr' : r' ∈ s'.reports) {z : Z3Text Expr} {holds : Expr → (ℕ → ℕ) → Prop}
    (hz : z.Correct env.dom holds) {b b' : Bool} (hreadable : r.Readable env.dom z holds b)
    (hreadable' : r'.Readable env.dom z holds b') {h h' : Header} (hargs : '\n' ∉ h.argLine)
    (hargs' : '\n' ∉ h'.argLine) (hfits : StatusLine.Fits h' r')
    (hrange : ∀ x ∈ env.dom.vars, x.nValues ≤ 32768)
    (htell : ∀ st st', readFile env.dom z none {} (r.text z h b) = .ok st →
      readFile env.dom z (some []) st.analyzer (r'.text z h' b') = .ok st' →
      HashesTell env.dom z holds (Compared z st.byName st'.byName) st'.analyzer) :
    ∃ res, runAnalyze3 env.dom z (r.text z h b) (r'.text z h' b') {} = .ok res ∧
      res.verdicts.Perm
        (r.firstLocs.map fun s => (s, verdictOf env.dom r.satOf r'.satOf r'.locs s)) ∧
      res.cntInteractions = r.groups.length ∧
      res.cntExact = res.verdicts.countP (fun v => decide (v.2 = .exact)) ∧
      res.cntWrong = (r.groups.length : ℤ) - res.cntExact ∧
      res.deltaLocs = (r'.locs.length : ℤ) - r.locs.length ∧ res.nConfigs = r'.nConfigs ∧
      res.wrongLocs = res.verdicts.flatMap fun v => v.2.text v.1 := by
  have hprinted := hrun.reports_printed r hr
  have hprinted' := hrun'.reports_printed r' hr'
  rw [hdom] at hprinted'
  have hclean : ({} : Analyzer).Clean := fun _ _ h => by cases h
  obtain ⟨st, hread, hto⟩ := hprinted.readFile hz hreadable hargs hclean none
  obtain ⟨st', hread', hto'⟩ := hprinted'.readFile hz hreadable' hargs' hto.clean (some [])
  obtain ⟨gcmt, hgcmt, hline⟩ := readFile_comments hargs' hread'
  exact hto.runAnalyze3 hz hrange hprinted (readFile_tagged hread) hto' hprinted'
    (htell st st' hread hread') hread hread' hgcmt hline hfits

/-! ## Two reports -/

/-- The formulas of the sets of values of one switch that are not empty. -/
def ZExpr.ofSwitch : List ZExpr := [.eq 0 0, .eq 0 1, .ztrue]

/-- The position of such a formula. -/
def ZExpr.switchIdx : ZExpr → Option ℕ
  | .ztrue => some 2
  | .eq var val => if var = 0 ∧ val < 2 then some val else none
  | _ => none

theorem ZExpr.eq_of_switchIdx {e : ZExpr} {i : ℕ} (h : e.switchIdx = some i) :
    ofSwitch[i]? = some e := by
  cases e with
  | ztrue =>
      cases h
      rfl
  | eq var val =>
      rw [switchIdx] at h
      split at h
      · next hlt =>
          obtain ⟨rfl, hval⟩ := hlt
          cases h
          obtain rfl | rfl : i = 0 ∨ i = 1 := by omega
          · rfl
          · rfl
      · cases h
  | _ => cases h

theorem ZExpr.mem_ofSwitch {e : ZExpr} (h : e.switchIdx.isSome) : e ∈ ofSwitch := by
  obtain ⟨i, hi⟩ := Option.isSome_iff_exists.mp h
  exact List.mem_of_getElem? (eq_of_switchIdx hi)

def ZExpr.printSwitch : ZExpr → Str
  | .ztrue => ['t', 'r', 'u', 'e']
  | e => e.printAtom

/-- The searching solver for one switch, which can print and read these formulas.  The hash of
a formula says for which of the two values it holds. -/
def Z3Text.onOff : Z3Text ZExpr :=
  { Z3Text.switchOn with
    hash := fun e => (if e.sat (Config.val { values := [0] }) then 1 else 0) +
      (if e.sat (Config.val { values := [1] }) then 2 else 0)
    print := ZExpr.printSwitch
    parse := fun s => (ZExpr.ofSwitch.find? fun e =>
      s = "(assert ".toList ++ e.printSwitch ++ [')']).map fun e => [e] }

theorem Z3Text.onOff_correct : Z3Text.onOff.Correct Env.switchOn.dom ZExpr.Holds where
  build := switchOn_correct.build
  unsat := switchOn_correct.unsat
  known := switchOn_correct.known
  inRange := switchOn_correct.inRange
  model := switchOn_correct.model
  ne := switchOn_correct.ne
  simplify _ _ _ := Iff.rfl
  applySimplifier _ _ h := by cases h

theorem Z3Text.onOff_assertion (s : Str) : Z3Text.onOff.assertion Env.switchOn.dom s =
    "(assert ".toList ++ s ++ [')'] := by
  have hmap : Z3Text.onOff.parseStringReplaceMap Env.switchOn.dom = [] := by
    decide +kernel
  unfold assertion
  rw [hmap]
  rfl

/-- Each of the formulas is read back as itself. -/
theorem Z3Text.onOff_reread {e : ZExpr} (he : e ∈ ZExpr.ofSwitch) :
    Z3Text.onOff.parse (Z3Text.onOff.assertion Env.switchOn.dom (rejoin (Z3Text.onOff.print e))) =
      some [e] := by
  rw [onOff_assertion]
  simp only [ZExpr.ofSwitch, List.mem_cons, List.not_mem_nil, or_false] at he
  rcases he with rfl | rfl | rfl <;> rfl

theorem Z3Text.onOff_faithful {e : ZExpr} (he : e ∈ ZExpr.ofSwitch) :
    Z3Text.onOff.Faithful Env.switchOn.dom ZExpr.Holds e where
  plain := by
    have hlines : getlines [] (Z3Text.onOff.print e ++ ['\n']) = [Z3Text.onOff.print e] := by
      simp only [ZExpr.ofSwitch, List.mem_cons, List.not_mem_nil, or_false] at he
      rcases he with rfl | rfl | rfl <;> decide
    rw [hlines, List.forall_mem_singleton]
    simp only [ZExpr.ofSwitch, List.mem_cons, List.not_mem_nil, or_false] at he
    rcases he with rfl | rfl | rfl <;> exact ⟨by decide, by decide, by decide⟩
  rejoin_ne := by
    simp only [ZExpr.ofSwitch, List.mem_cons, List.not_mem_nil, or_false] at he
    rcases he with rfl | rfl | rfl <;> decide
  parse := ⟨e, onOff_reread he, fun _ _ => Iff.rfl⟩

/-- A program over one switch. -/
def Env.switching (names : List ℤ → List Str) (hnames : ∀ values, (names values).Nodup) :
    Env Str (List ℤ) :=
  { Env.switchOn with program := fun _ => names, program_nodup := fun _ => hnames }

/-- `a` is covered when the switch is on, `b` when it is off, and `c` always. -/
def truthNames (values : List ℤ) : List Str := [if values = [1] then ['a'] else ['b'], ['c']]

theorem truthNames_nodup (values : List ℤ) : (truthNames values).Nodup := by
  unfold truthNames
  split <;> decide

/-- `a` and `b` are covered when the switch is off, and `d` when it is on. -/
def predNames (values : List ℤ) : List Str := if values = [1] then [['d']] else [['a'], ['b']]

theorem predNames_nodup (values : List ℤ) : (predNames values).Nodup := by
  unfold predNames
  split <;> decide

/-- What a report of one switch says. -/
def Report.Says (r : Report Str) (groups : List (List Str × ZExpr)) : Prop :=
  r.groups.map (fun g => (g.names, g.expr)) = groups

/-- Names of one letter. -/
def letters : List Str := [['a'], ['b'], ['c'], ['d']]

theorem token_of_mem_letters {s : Str} (h : s ∈ letters) : Token s := by
  simp only [letters, List.mem_cons, List.not_mem_nil, or_false] at h
  rcases h with rfl | rfl | rfl | rfl <;> exact ⟨by decide, by simp [isSpace], by decide, by decide⟩

/-- A report is read when its formulas are different. -/
theorem Report.Says.readable {r : Report Str} {groups : List (List Str × ZExpr)}
    (h : r.Says groups) (hnames : ∀ p ∈ groups, ∀ s ∈ p.1, s ∈ letters)
    (hidx : ∀ p ∈ groups, p.2.switchIdx.isSome)
    (hhashes : (groups.map fun p => Z3Text.onOff.hash p.2).Nodup) :
    r.Readable Env.switchOn.dom .onOff ZExpr.Holds false := by
  have hmem : ∀ g ∈ r.groups, (g.names, g.expr) ∈ groups := fun g hg => h ▸ List.mem_map_of_mem hg
  have hfinal : ∀ g : Group Str, g.finalExpr .onOff false = g.expr := fun _ => rfl
  have hforms : ∀ p ∈ groups, p.2 ∈ ZExpr.ofSwitch := fun p hp => ZExpr.mem_ofSwitch (hidx p hp)
  refine ⟨fun g hg s hs => token_of_mem_letters (hnames _ (hmem g hg) s hs), fun g hg => ?_, ?_⟩
  · rw [hfinal]
    exact Z3Text.onOff_faithful (hforms _ (hmem g hg))
  · have hread : (r.groups.map fun g =>
        (Z3Text.onOff.reread Env.switchOn.dom (g.finalExpr .onOff false)).map Z3Text.onOff.hash) =
          (groups.map fun p => Z3Text.onOff.hash p.2).map Except.ok := by
      rw [← h, List.map_map, List.map_map]
      refine List.map_congr_left fun g hg => ?_
      rw [hfinal, Z3Text.reread, Z3Text.parseString, Z3Text.onOff_reread (hforms _ (hmem g hg))]
      rfl
    rw [hread]
    exact hhashes.map fun _ _ => Except.ok.inj

/-- The groups of a report, as far as they can be compared. -/
def Report.shape (r : Report Str) : List (List Str × Option ℕ) :=
  r.groups.map fun g => (g.names, g.expr.switchIdx)

theorem Report.says_of_shape {r : Report Str} {groups : List (List Str × ZExpr)}
    (h : r.shape = groups.map fun p => (p.1, p.2.switchIdx))
    (hforms : ∀ p ∈ groups, p.2.switchIdx.isSome) : r.Says groups := by
  unfold Says shape at *
  generalize r.groups = gs at h
  induction gs generalizing groups with
  | nil => rw [List.map_eq_nil_iff.mp h.symm]; rfl
  | cons g gs ih =>
      obtain ⟨p, groups, rfl, hp, hrest⟩ := List.map_eq_cons_iff.mp h.symm
      rw [List.forall_mem_cons] at hforms
      obtain ⟨hname, hidx⟩ := Prod.mk.inj hp
      obtain ⟨i, hi⟩ := Option.isSome_iff_exists.mp hforms.1
      have hexpr : some p.2 = some g.expr := by
        rw [← ZExpr.eq_of_switchIdx hi, ZExpr.eq_of_switchIdx (hidx.symm.trans hi)]
      rw [List.map_cons, ih hforms.2 hrest.symm, ← hname, ← Option.some_inj.mp hexpr]

/-- **Two runs.**  Their reports agree on `b`, contradict each other about `a`, and `c` and `d`
are in one of them only. -/
theorem Env.exists_onOff_reports : ∃ l s r l' s' r',
    RunsTo (.switching truthNames truthNames_nodup) (fun _ => True) l s ∧ r ∈ s.reports ∧
    RunsTo (.switching predNames predNames_nodup) (fun _ => True) l' s' ∧ r' ∈ s'.reports ∧
    (r'.nConfigs < 9 ∧ r'.nLocs < 9 ∧ r'.nUniq < 9 ∧ r'.iter < 9) ∧
    r.Says [([['b']], .eq 0 0), ([['c']], .ztrue), ([['a']], .eq 0 1)] ∧
    r'.Says [([['a'], ['b']], .eq 0 0), ([['d']], .eq 0 1)] := by
  obtain ⟨l, s, hrun, r, hr, hshape⟩ :=
    exists_runsTo (.switching truthNames truthNames_nodup) (fun _ => True) 11
      (fun x => ∃ r ∈ x.2.reports,
        r.shape = [([['b']], some 0), ([['c']], some 2), ([['a']], some 1)]) (by decide +kernel)
  obtain ⟨l', s', hrun', r', hr', hnumbers, hshape'⟩ :=
    exists_runsTo (.switching predNames predNames_nodup) (fun _ => True) 10
      (fun x => ∃ r ∈ x.2.reports, (r.nConfigs < 9 ∧ r.nLocs < 9 ∧ r.nUniq < 9 ∧ r.iter < 9) ∧
        r.shape = [([['a'], ['b']], some 0), ([['d']], some 1)]) (by decide +kernel)
  exact ⟨l, s, r, l', s', r', hrun, hr, hrun', hr', hnumbers,
    Report.says_of_shape hshape (by decide), Report.says_of_shape hshape' (by decide)⟩

/-- Formulas with one hash hold for the same values. -/
theorem Z3Text.onOff_hash {x y : ZExpr} (h : Z3Text.onOff.hash x = Z3Text.onOff.hash y)
    {c : Config} (hc : c.Complete Env.switchOn.dom) : x.sat c.val = y.sat c.val := by
  have hvalues : c.values ∈ [[(0 : ℤ)], [1]] := complete_iff_mem_allValues.mp hc
  have hval : ∀ values, c.values = values → c.val = Config.val { values } := by
    rintro _ rfl
    rfl
  unfold onOff at h
  dsimp only at h
  rw [List.mem_cons, List.mem_singleton] at hvalues
  rcases hvalues with hoff | hon
  · rw [hval _ hoff]
    revert h
    cases x.sat (Config.val { values := [0] }) <;> cases y.sat (Config.val { values := [0] }) <;>
      cases x.sat (Config.val { values := [1] }) <;>
      cases y.sat (Config.val { values := [1] }) <;> decide
  · rw [hval _ hon]
    revert h
    cases x.sat (Config.val { values := [0] }) <;> cases y.sat (Config.val { values := [0] }) <;>
      cases x.sat (Config.val { values := [1] }) <;>
      cases y.sat (Config.val { values := [1] }) <;> decide

theorem Z3Text.onOff_unsat_iff (x y : ZExpr) (h : Z3Text.onOff.hash x = Z3Text.onOff.hash y) :
    Unsat Env.switchOn.dom ZExpr.Holds x ↔ Unsat Env.switchOn.dom ZExpr.Holds y := by
  refine forall_congr' fun c => forall_congr' fun hc => not_congr ?_
  show x.sat c.val = true ↔ y.sat c.val = true
  rw [onOff_hash h hc]

namespace Report.Says

variable {r : Report Str} {groups : List (List Str × ZExpr)}

theorem locs (h : r.Says groups) : r.locs = groups.flatMap Prod.fst := by
  rw [Report.locs, ← h, List.flatMap_map]

theorem firstLocs (h : r.Says groups) : r.firstLocs = groups.filterMap fun p => p.1.head? := by
  rw [Report.firstLocs, ← h, List.filterMap_map]
  rfl

theorem satOf (h : r.Says groups) : r.satOf = fun s values =>
    ((groups.find? fun p => p.1.contains s).map fun p =>
      p.2.sat (Config.val { values })).getD false := by
  funext s values
  rw [Report.satOf, ← h, List.find?_map, Option.map_map]
  rfl

theorem length (h : r.Says groups) : r.groups.length = groups.length := by
  rw [← h, List.length_map]

/-- What is read for a group is its formula. -/
theorem eq_of_reread (h : r.Says groups) (hidx : ∀ p ∈ groups, p.2.switchIdx.isSome)
    {g : Group Str} (hg : g ∈ r.groups) {e : ZExpr}
    (he : Z3Text.onOff.reread Env.switchOn.dom (g.finalExpr .onOff false) = .ok e) :
    e = g.expr := by
  have hmem : (g.names, g.expr) ∈ groups := h ▸ List.mem_map_of_mem hg
  have hfinal : g.finalExpr .onOff false = g.expr := rfl
  rw [hfinal, Z3Text.reread, Z3Text.parseString,
    Z3Text.onOff_reread (ZExpr.mem_ofSwitch (hidx _ hmem))] at he
  exact (Except.ok.inj he).symm

end Report.Says

/-- The numbers of a small report. -/
theorem StatusLine.fits_of_small {args : List Str} {r : Report Str}
    (h : r.nConfigs < 9 ∧ r.nLocs < 9 ∧ r.nUniq < 9 ∧ r.iter < 9) :
    StatusLine.Fits (.ofArgs args) r := by
  obtain ⟨hconfigs, hlocs, huniq, hiter⟩ := h
  intro i hi
  simp only [Header.ofArgs, List.mem_cons, List.not_mem_nil, or_false] at hi
  unfold intMax
  omega

/-- **Two reports are compared**: the formulas of `b` agree, `c` is missing, and the formulas of
`a` contradict each other. -/
theorem RunsTo.reports_compared_switchOn : ∃ l s r l' s' r',
    RunsTo (.switching truthNames truthNames_nodup) (fun _ => True) l s ∧ r ∈ s.reports ∧
    RunsTo (.switching predNames predNames_nodup) (fun _ => True) l' s' ∧ r' ∈ s'.reports ∧
      ∃ res, runAnalyze3 Env.switchOn.dom Z3Text.onOff
          (r.text .onOff (.ofArgs [['-', 'O'], ['a', '.', 't', 'x', 't']]) false)
          (r'.text .onOff (.ofArgs [['-', 'O'], ['b', '.', 't', 'x', 't']]) false) {} = .ok res ∧
        res.verdicts.Perm [(['b'], .exact), (['c'], .missing),
          (['a'], .wrong { tp := 0, tn := 0, fp := 1, fn := 1 })] ∧
        res.cntWrong = (3 : ℤ) - res.cntExact ∧ res.deltaLocs = 0 := by
  obtain ⟨l, s, r, l', s', r', hrun, hr, hrun', hr', hsmall, hsaid, hsaid'⟩ :=
    Env.exists_onOff_reports
  have hreadable := hsaid.readable (by decide) (by decide) (by decide)
  have hreadable' := hsaid'.readable (by decide) (by decide) (by decide)
  have hargs : '\n' ∉ (Header.ofArgs [['-', 'O'], ['a', '.', 't', 'x', 't']]).argLine := by decide
  have hargs' : '\n' ∉ (Header.ofArgs [['-', 'O'], ['b', '.', 't', 'x', 't']]).argLine := by decide
  have hclean : ({} : Analyzer).Clean := fun _ _ h => by cases h
  have hprinted := hrun.reports_printed r hr
  have hprinted' := hrun'.reports_printed r' hr'
  have hdom : (Env.switching truthNames truthNames_nodup).dom = Env.switchOn.dom := rfl
  have hdom' : (Env.switching predNames predNames_nodup).dom =
    (Env.switching truthNames truthNames_nodup).dom := rfl
  have hcompared := @RunsTo.reports_compared (List ℤ) (List ℤ) ZExpr _ _ _ _ hdom' _ _ _ _ _ _
    hrun hrun' _ _ hr hr' .onOff ZExpr.Holds
  rw [hdom] at hcompared hprinted
  rw [hdom', hdom] at hprinted'
  obtain ⟨res, hres, hverdicts, -, -, hwrong, hdelta, -⟩ := hcompared Z3Text.onOff_correct hreadable
    hreadable' hargs hargs' (StatusLine.fits_of_small hsmall) (by decide)
    fun st st' hread hread' => by
      obtain ⟨st₁, hread₁, hto⟩ :=
        hprinted.readFile Z3Text.onOff_correct hreadable hargs hclean none
      obtain rfl := Except.ok.inj (hread₁.symm.trans hread)
      obtain ⟨st₂, hread₂, hto'⟩ :=
        hprinted'.readFile Z3Text.onOff_correct hreadable' hargs' hto.clean (some [])
      obtain rfl := Except.ok.inj (hread₂.symm.trans hread')
      have hempty : Honest Env.switchOn.dom Z3Text.onOff ZExpr.Holds (fun _ => True) {} :=
        fun _ _ _ h => by cases h
      have hhonest := readFile_honest Z3Text.onOff_correct Z3Text.onOff_unsat_iff hread hempty
      have hhonest' := readFile_honest Z3Text.onOff_correct Z3Text.onOff_unsat_iff hread' hhonest
      exact .of_unsat_iff Z3Text.onOff_unsat_iff hhonest' hto'.clean _
  refine ⟨l, s, r, l', s', r', hrun, hr, hrun', hr', res, hres, ?_, ?_, ?_⟩
  · rw [hsaid.firstLocs, hsaid.satOf, hsaid'.satOf, hsaid'.locs] at hverdicts
    refine hverdicts.trans (List.Perm.of_eq ?_)
    decide
  · rw [hwrong, hsaid.length]
    rfl
  · rw [hdelta, hsaid.locs, hsaid'.locs]
    rfl

end GenTree

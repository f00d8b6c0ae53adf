import GenTree.CountModels
import GenTree.ReportLines

/-!
# Reading a report back

The report is read line by line: the header, then one group after the other, each of which
leaves the reader as it was before, with one group more (`ReadTo.group`).

The one thing that leaks is the flag `ignored`.  It is set by the header when an argument
contains the word `IGNORED`, and then the first group comes out ignored
(`RunsTo.report_takenBack_iff`).

Z3 prints the formulas and reads them back, so something has to be asked of it.  That its
operators and simplifiers mean what they say is asked of all terms (`Z3Text.Correct`).  That a
text comes back is asked of single formulas only (`Z3Text.Faithful`), since it depends on the
names in them; a report is `Report.Readable` when its own formulas do.
-/

namespace GenTree

open Outcome TextLines

/-! ## What is asked of Z3 -/

section Reading

variable {Expr : Type} {dom : Domain} {holds : Expr → (ℕ → ℕ) → Prop}

/-- The operators and the simplifiers mean what they say. -/
structure Z3Text.Correct (dom : Domain) (z : Z3Text Expr) (holds : Expr → (ℕ → ℕ) → Prop) : Prop
    extends Z3.Correct dom z.toZ3 holds where
  ne : ∀ (e e' : Expr) (c : Config), c.Complete dom →
    (holds (z.ne e e') c.val ↔ ¬(holds e c.val ↔ holds e' c.val))
  simplify : ∀ (e : Expr) (c : Config), c.Complete dom →
    (holds (z.simplify e) c.val ↔ holds e c.val)
  applySimplifier : ∀ (e e' : Expr), z.applySimplifier e = some e' → ∀ c : Config,
    c.Complete dom → (holds e' c.val ↔ holds e c.val)

/-- **`e` is printed faithfully**: on lines that are neither comments nor separators, not all
blank, and what is asserted for them is parsed as one formula that means the same. -/
structure Z3Text.Faithful (dom : Domain) (z : Z3Text Expr) (holds : Expr → (ℕ → ℕ) → Prop)
    (e : Expr) : Prop where
  plain : ∀ line ∈ getlines [] (z.print e ++ ['\n']), Plain (trim isSpace line)
  rejoin_ne : rejoin (z.print e) ≠ []
  parse : ∃ e', z.parse (z.assertion dom (rejoin (z.print e))) = some [e'] ∧
    ∀ c : Config, c.Complete dom → (holds e' c.val ↔ holds e c.val)

/-- The formula that is read from the text of another one. -/
def Z3Text.reread (dom : Domain) (z : Z3Text Expr) (e : Expr) : Except Abort Expr :=
  z.parseString dom (rejoin (z.print e))

variable {z : Z3Text Expr}

theorem Z3Text.Faithful.reread {e : Expr} (h : z.Faithful dom holds e) :
    ∃ e', z.reread dom e = .ok e' ∧
      ∀ c : Config, c.Complete dom → (holds e' c.val ↔ holds e c.val) := by
  obtain ⟨e', hparse, hsame⟩ := h.parse
  refine ⟨e', ?_, hsame⟩
  unfold Z3Text.reread parseString
  rw [hparse]

/-- The printed formula means what the formula of the group says. -/
theorem Z3Text.Correct.holds_finalExpr (hz : z.Correct dom holds) (g : Group Str)
    (expensiveSimplify : Bool) {c : Config} (hc : c.Complete dom) :
    holds (g.finalExpr z expensiveSimplify) c.val ↔ g.expr.sat c.val = true := by
  have hsimple : ∀ e, holds (z.zctxSolverSimplify e) c.val ↔ holds e c.val := by
    intro e
    unfold zctxSolverSimplify
    dsimp only
    cases happly : z.applySimplifier (z.simplify e) with
    | none => exact hz.simplify e c hc
    | some e' => exact (hz.applySimplifier _ _ happly c hc).trans (hz.simplify e c hc)
  unfold Group.finalExpr
  rw [← hz.build g.expr c hc, ← hz.simplify (z.build g.expr) c hc]
  cases expensiveSimplify with
  | false => exact Iff.rfl
  | true => exact hsimple _

/-! ## Comparing the formula with the tree -/

/-- Whatever has been counted with a limit of one, there was nothing.  `read_file` counts so to
see whether a formula and its tree differ anywhere, and the cache knows an expression by its
hash: a positive count of another expression could be taken for an answer. -/
def Analyzer.Clean (st : Analyzer) : Prop :=
  ∀ h n, st.cacheCountModels (h, 1) = some n → n = 0

/-- **Nothing is found** that satisfies an unsatisfiable expression. -/
theorem countModels_unsat (hz : z.Correct dom holds) {ex : Expr}
    (hno : ∀ c : Config, c.Complete dom → ¬holds ex c.val) {st : Analyzer} (hst : st.Clean) :
    ∃ st', countModels dom z.toZ3 ex 1 none st = .ok (0, none, st') ∧ st'.Clean := by
  cases hcache : st.cacheCountModels (z.hash ex, 1) with
  | some n =>
      obtain rfl := hst _ _ hcache
      refine ⟨st, ?_, hst⟩
      unfold countModels
      simp only [hcache]
  | none =>
      obtain ⟨ms, R, nCheck, hloop, hrange, hpeel, -⟩ :=
        countLoop_spec hz.toCorrect (1 : ℤ).toNat [ex] 0 none st.nCheck
      have hempty : solutions dom holds [ex] = ∅ := by
        refine Finset.eq_empty_of_forall_notMem fun values hvalues => ?_
        obtain ⟨hc, hall⟩ := mem_solutions_singleton.mp hvalues
        exact hno _ hc hall
      obtain ⟨hcard, -⟩ := sum_sizes hrange hpeel
      rw [hempty, Finset.card_empty] at hcard
      have hzero : 0 + (ms.map (ZModel.size dom)).sum = 0 := by omega
      rw [hzero] at hloop
      refine ⟨_, by rw [countModels_run fun _ => hcache, hloop]; rfl, fun h n hn => ?_⟩
      by_cases hh : h = z.hash ex
      · subst hh
        dsimp only at hn
        rw [Function.update_self] at hn
        exact (Option.some.inj hn).symm
      · have hkey : (h, (1 : ℤ)) ≠ (z.hash ex, 1) := fun heq => hh (congrArg Prod.fst heq)
        dsimp only at hn
        rw [Function.update_of_ne hkey] at hn
        exact hst h n hn

/-! ## Taking a group in -/

/-- The locations of a group become entries that differ in `isFirst` and the comments. -/
theorem addLocs_eq (e : Expr) (tree : CTree) (ignored : Bool) (curId : ℕ) {names : List Str}
    (hnodup : names.Nodup) {res : List (Str × ReadEntry Expr)}
    (hnew : ∀ s ∈ names, s ∉ res.map Prod.fst) (isFirst : Bool) (comments : List Str) :
    ∃ entries isFirst' comments',
      names.foldlM (ReadSt.addLoc e tree ignored curId) (res, isFirst, comments) =
        .ok (res ++ entries, isFirst', comments') ∧
      entries.map Prod.fst = names ∧
      ∀ p ∈ entries, p.2.e = e ∧ p.2.tree = tree ∧ p.2.ignored = ignored ∧ p.2.id = curId := by
  induction names generalizing res isFirst comments with
  | nil => exact ⟨[], isFirst, comments, by rw [List.append_nil]; rfl, rfl, by simp⟩
  | cons s names ih =>
      rw [List.nodup_cons] at hnodup
      rw [List.forall_mem_cons] at hnew
      let d : ReadEntry Expr := { e, tree, ignored, isFirst, id := curId, comments }
      have hstep : ReadSt.addLoc e tree ignored curId (res, isFirst, comments) s =
          .ok (res ++ [(s, d)], false, []) := by
        unfold ReadSt.addLoc
        simp only [check_pos hnew.1, ok_bind]
        rfl
      have hnew' : ∀ s' ∈ names, s' ∉ (res ++ [(s, d)]).map Prod.fst := by
        intro s' hs'
        rw [List.map_append, List.mem_append, not_or]
        refine ⟨hnew.2 s' hs', ?_⟩
        rw [List.map_singleton, List.mem_singleton]
        rintro rfl
        exact hnodup.1 hs'
      obtain ⟨entries, isFirst', comments', hrun, hnames, hentries⟩ := ih hnodup.2 hnew' false []
      refine ⟨(s, d) :: entries, isFirst', comments', ?_, by rw [List.map_cons, hnames], ?_⟩
      · rw [List.foldlM_cons, hstep, ok_bind, hrun, List.append_assoc, List.singleton_append]
      · rw [List.forall_mem_cons]
        exact ⟨⟨rfl, rfl, rfl, rfl⟩, hentries⟩

/-- **A group is taken in** when its formula is new and agrees with its tree, and its names
are new. -/
theorem ReadSt.readEquals_group (hz : z.Correct dom holds) {st : ReadSt Expr} (hlocs : st.locs ≠ [])
    {e : Expr} {tree : CTree} {rest : Str} {f : ZExpr}
    (hparse : z.parseString dom st.sexpr = .ok e)
    (hread : CTree.deserialize dom {} st.stree = .ok (tree, rest))
    (hhash : z.hash e ∉ st.sexprid) (hbuild : tree.buildZexpr dom .freeMix = .ok f)
    (hsame : ∀ c : Config, c.Complete dom → (holds e c.val ↔ f.sat c.val = true))
    (hst : st.analyzer.Clean) (hnodup : st.locs.Nodup)
    (hnew : ∀ s ∈ st.locs, s ∉ st.res.map Prod.fst) :
    ∃ entries analyzer cntIgnored, st.readEquals dom z = .ok { st with
        res := st.res ++ entries, analyzer, cntIgnored
        sexprid := z.hash e :: st.sexprid, curId := st.curId + 1
        ignored := false, readState := 0, locs := [], comments := [], sexpr := [], stree := [] } ∧
      analyzer.Clean ∧ entries.map Prod.fst = st.locs ∧
      ∀ p ∈ entries, p.2.e = e ∧ p.2.tree = tree ∧ p.2.ignored = st.ignored ∧
        p.2.id = st.curId := by
  have hno : ∀ c : Config, c.Complete dom → ¬holds (z.ne e (z.build f)) c.val := by
    intro c hc
    rw [hz.ne _ _ c hc, hz.build f c hc, not_not]
    exact hsame c hc
  obtain ⟨analyzer, hcount, hclean⟩ := countModels_unsat hz hno hst
  obtain ⟨entries, isFirst, comments, hadd, hnames, hentries⟩ :=
    addLocs_eq e tree st.ignored st.curId hnodup hnew true st.comments
  refine ⟨entries, analyzer, st.cntIgnored + if st.ignored then 1 else 0, ?_, hclean, hnames,
    hentries⟩
  unfold readEquals
  rw [if_neg hlocs, hparse, ok_bind, hread, ok_bind]
  simp only [check_pos hhash, hbuild, hcount, hadd, ok_bind]
  rw [check_pos trivial, ok_bind]

/-! ## What has been read -/

/-- The entry of a location of the group number `i`.  With `leak` it is ignored in any case. -/
structure EntryOf (dom : Domain) (strat : ExprStrat) (leak : Bool) (i : ℕ) (g : Group Str)
    (d : ReadEntry Expr) : Prop where
  id : d.id = i
  ignored : d.ignored = (leak || g.ignored)
  tree : ∀ t, g.PrintedFrom dom strat t → t.SameAs dom d.tree

/-- The groups `done` have been read.  With `leak` the flag was left behind in front of
them, and the first of them has used it up. -/
structure ReadTo (dom : Domain) (z : Z3Text Expr) (holds : Expr → (ℕ → ℕ) → Prop)
    (strat : ExprStrat) (expensiveSimplify leak : Bool) (done : List (Group Str))
    (st : ReadSt Expr) : Prop where
  ready : st.Ready
  ignored : st.ignored = (leak && done.isEmpty)
  curId : st.curId = done.length
  locs : st.res.map Prod.fst = done.flatMap Group.names
  entries : ∀ i g, done[i]? = some g → ∀ s ∈ g.names, ∃ d, (s, d) ∈ st.res ∧
    EntryOf dom strat (leak && i = 0) i g d
  exprs : ∀ p ∈ st.res, ∃ g ∈ done, p.1 ∈ g.names ∧
    z.reread dom (g.finalExpr z expensiveSimplify) = .ok p.2.e
  hashes : ∀ x ∈ st.sexprid, ∃ g ∈ done,
    (z.reread dom (g.finalExpr z expensiveSimplify)).map z.hash = .ok x
  agrees : ∀ p ∈ st.res, p.2.Agrees dom holds
  clean : st.analyzer.Clean

/-- The tree that is read for a printed group, with its formula and its walk. -/
theorem Group.PrintedFrom.read {strat : ExprStrat} {g : Group Str} {t : CTree}
    (h : g.PrintedFrom dom strat t) : ∃ sh tree f, g.tree = shapeText sh false ∧
      sh.Shaped dom.nValues ∧ CTree.deserialize dom {} g.tree = .ok (tree, []) ∧
      tree.buildZexpr dom .freeMix = .ok f ∧ (∀ a, f.sat a = true ↔ g.expr.sat a = true) ∧
      (∀ c : Config, c.Complete dom → ∃ b n, tree.testConfig c = .ok (b, n) ∧
        (b = true ↔ f.sat c.val = true)) ∧
      ∀ t', g.PrintedFrom dom strat t' → t'.SameAs dom tree := by
  obtain ⟨sh, tree, htext, hsh, hread, hsame⟩ := h.printable.read h.tree
  obtain ⟨sh', hsat, hwalk⟩ := h.printable.sat_iff
  obtain ⟨f, hf, hfsat⟩ := hsat .freeMix
  obtain ⟨e, he, hesat⟩ := hsat strat
  rw [h.expr, Except.ok.injEq] at he
  subst he
  refine ⟨sh, tree, f, htext, hsh, hread, ?_, fun a => (hfsat a).trans (hesat a).symm, ?_, ?_⟩
  · rw [← hsame.buildZexpr, hf]
  · intro c hc
    obtain ⟨b, n, htest, heval⟩ := hwalk c hc
    obtain ⟨b', n', n'', htest', hread'⟩ := hsame.testConfig c hc
    rw [htest, Except.ok.injEq, Prod.mk.injEq] at htest'
    rw [← htest'.1] at hread'
    refine ⟨b, n'', hread', ?_⟩
    rw [hfsat, heval, Option.some.injEq]
  · intro t' h'
    obtain ⟨-, tree', -, -, hread', hsame'⟩ := h'.printable.read h'.tree
    rw [hread, Except.ok.injEq, Prod.mk.injEq] at hread'
    rwa [hread'.1]

section Group

variable {strat : ExprStrat} {expensiveSimplify leak : Bool} {done : List (Group Str)}
  {st : ReadSt Expr} {g : Group Str}

/-- What has been read of the groups, when entries for one more are added. -/
theorem ReadTo.concat (h : ReadTo dom z holds strat expensiveSimplify leak done st) {e : Expr}
    {tree : CTree} {entries : List (Str × ReadEntry Expr)} {analyzer : Analyzer}
    (hparse : z.reread dom (g.finalExpr z expensiveSimplify) = .ok e)
    (htree : ∀ t, g.PrintedFrom dom strat t → t.SameAs dom tree) (hmade : tree.Made dom)
    (hwalk : ∀ c : Config, c.Complete dom → ∃ b n, tree.testConfig c = .ok (b, n) ∧
      (b = true ↔ holds e c.val)) (hclean : analyzer.Clean)
    (hlocs : entries.map Prod.fst = g.names)
    (hentries : ∀ p ∈ entries, p.2.e = e ∧ p.2.tree = tree ∧
      p.2.ignored = (st.ignored || g.ignored) ∧ p.2.id = st.curId) (cntIgnored : ℕ) :
    ReadTo dom z holds strat expensiveSimplify leak (done ++ [g]) { st with
      res := st.res ++ entries, analyzer, cntIgnored
      sexprid := z.hash e :: st.sexprid, curId := st.curId + 1
      ignored := false, readState := 0, locs := [], comments := [], sexpr := [], stree := [] } where
  ready := ⟨rfl, rfl, rfl, rfl⟩
  ignored := by cases done <;> simp
  curId := by simp [h.curId]
  locs := by simp [h.locs, hlocs]
  entries i g' hg' s hs := by
    rcases getElem?_concat_eq_some.mp hg' with hg' | ⟨rfl, rfl⟩
    · obtain ⟨d, hd, hof⟩ := h.entries i g' hg' s hs
      exact ⟨d, List.mem_append_left _ hd, hof⟩
    · rw [← hlocs] at hs
      obtain ⟨⟨s', d⟩, hd, rfl⟩ := List.mem_map.mp hs
      obtain ⟨-, hdtree, hdign, hdid⟩ := hentries _ hd
      refine ⟨d, List.mem_append_right _ hd, hdid.trans h.curId, ?_, fun t ht => ?_⟩
      · rw [hdign, h.ignored]
        cases done <;> simp
      · rw [hdtree]
        exact htree t ht
  exprs p hp := by
    rcases List.mem_append.mp hp with hp | hp
    · obtain ⟨g', hg', hname, he⟩ := h.exprs p hp
      exact ⟨g', List.mem_append_left _ hg', hname, he⟩
    · refine ⟨g, by simp, ?_, ?_⟩
      · rw [← hlocs]
        exact List.mem_map_of_mem hp
      · rw [(hentries p hp).1, hparse]
  hashes x hx := by
    rcases List.mem_cons.mp hx with rfl | hx
    · exact ⟨g, by simp, by rw [hparse]; rfl⟩
    · obtain ⟨g', hg', heq⟩ := h.hashes x hx
      exact ⟨g', List.mem_append_left _ hg', heq⟩
  agrees p hp := by
    rcases List.mem_append.mp hp with hp | hp
    · exact h.agrees p hp
    · obtain ⟨he, hptree, -, -⟩ := hentries p hp
      constructor
      · rwa [hptree]
      · unfold LocEntry.Sat
        rwa [hptree, he]
  clean := hclean

/-- **One group more.** -/
theorem ReadTo.group (hz : z.Correct dom holds)
    (h : ReadTo dom z holds strat expensiveSimplify leak done st) {t : CTree}
    (hprint : g.PrintedFrom dom strat t) (hne : g.names ≠ []) (hnames : ∀ s ∈ g.names, Token s)
    (hnodup : g.names.Nodup) (hnew : ∀ s ∈ g.names, s ∉ done.flatMap Group.names)
    (hfaithful : z.Faithful dom holds (g.finalExpr z expensiveSimplify))
    (hhash : ∀ g' ∈ done, (z.reread dom (g'.finalExpr z expensiveSimplify)).map z.hash ≠
      (z.reread dom (g.finalExpr z expensiveSimplify)).map z.hash) (rest : Str) :
    ∃ st', readText dom z st (g.text z expensiveSimplify ++ rest) = readText dom z st' rest ∧
      ReadTo dom z holds strat expensiveSimplify leak (done ++ [g]) st' := by
  obtain ⟨sh, tree, f, htext, hsh, hread, hbuild, hsat, hwalk, htree⟩ := hprint.read
  obtain ⟨e, hparse, hsame⟩ := hfaithful.reread
  obtain ⟨comments, hcomments⟩ := @readText_comments _ dom z g expensiveSimplify st rest
  have hready : ReadSt.Ready { st with comments, ignored := st.ignored || g.ignored } :=
    ⟨h.ready.readState, h.ready.locs, h.ready.sexpr, h.ready.stree⟩
  have hbody := readText_body hready hne hnames hfaithful.plain hfaithful.rejoin_ne hsh htext rest
  have hhash' : z.hash e ∉ st.sexprid := by
    intro hmem
    obtain ⟨g', hg', heq⟩ := h.hashes _ hmem
    apply hhash g' hg'
    rw [heq, hparse]
    rfl
  have hnew' : ∀ s ∈ g.names, s ∉ st.res.map Prod.fst := by
    rw [h.locs]
    exact hnew
  have hagree : ∀ c : Config, c.Complete dom → (holds e c.val ↔ f.sat c.val = true) := by
    intro c hc
    rw [hsame c hc, hz.holds_finalExpr g expensiveSimplify hc, hsat]
  obtain ⟨entries, analyzer, cntIgnored, hequals, hclean, hlocs, hentries⟩ :=
    @ReadSt.readEquals_group _ dom holds z hz
      { st with
        comments, ignored := st.ignored || g.ignored, readState := 2, locs := g.names
        stree := g.tree, sexpr := rejoin (z.print (g.finalExpr z expensiveSimplify)) }
      hne e tree [] f hparse hread hhash' hbuild hagree h.clean hnodup hnew'
  rw [hcomments, hbody, hequals, ok_bind]
  have hdecide : ∀ c : Config, c.Complete dom → ∃ b n, tree.testConfig c = .ok (b, n) ∧
      (b = true ↔ holds e c.val) := by
    intro c hc
    obtain ⟨b, n, htest, hb⟩ := hwalk c hc
    exact ⟨b, n, htest, hb.trans (hagree c hc).symm⟩
  have hconcat := h.concat hparse htree (.read hread) hdecide hclean hlocs hentries cntIgnored
  exact ⟨_, rfl, hconcat⟩

/-- **All groups.** -/
theorem ReadTo.groups (hz : z.Correct dom holds) {groups : List (Group Str)}
    (hprint : ∀ g ∈ groups, ∃ t, g.PrintedFrom dom strat t) (hne : ∀ g ∈ groups, g.names ≠ [])
    (hnames : ∀ g ∈ groups, ∀ s ∈ g.names, Token s)
    (hfaithful : ∀ g ∈ groups, z.Faithful dom holds (g.finalExpr z expensiveSimplify))
    (h : ReadTo dom z holds strat expensiveSimplify leak done st)
    (hnodup : ((done ++ groups).flatMap Group.names).Nodup)
    (hhash : ((done ++ groups).map fun g =>
      (z.reread dom (g.finalExpr z expensiveSimplify)).map z.hash).Nodup) :
    ∃ st', readText dom z st (groups.flatMap (Group.text z expensiveSimplify)) = .ok st' ∧
      ReadTo dom z holds strat expensiveSimplify leak (done ++ groups) st' := by
  induction groups generalizing done st with
  | nil =>
      rw [List.append_nil]
      exact ⟨st, rfl, h⟩
  | cons g groups ih =>
      rw [List.forall_mem_cons] at hprint hne hnames hfaithful
      obtain ⟨t, ht⟩ := hprint.1
      rw [List.append_cons] at hnodup hhash ⊢
      have hnames₁ := hnodup
      have hhash₁ := hhash
      rw [List.flatMap_append, List.nodup_append, List.flatMap_append, List.nodup_append,
        List.flatMap_singleton] at hnames₁
      rw [List.map_append, List.nodup_append, List.map_append, List.nodup_append] at hhash₁
      obtain ⟨⟨-, hown, hnew⟩, -, -⟩ := hnames₁
      obtain ⟨⟨-, -, hother⟩, -, -⟩ := hhash₁
      obtain ⟨st₁, hrun₁, h₁⟩ := h.group hz ht hne.1 hnames.1 hown
        (fun s hs hmem => hnew s hmem s hs rfl) hfaithful.1
        (fun g' hg' => hother _ (List.mem_map_of_mem hg') _ (List.mem_singleton_self _))
        (groups.flatMap (Group.text z expensiveSimplify))
      obtain ⟨st₂, hrun₂, h₂⟩ := ih hprint.2 hne.2 hnames.2 hfaithful.2 h₁ hnodup hhash
      exact ⟨st₂, by rw [List.flatMap_cons, hrun₁, hrun₂], h₂⟩

end Group

/-! ## The report -/

/-- The text of the report has been read to its end.  Every location that was printed, and no
other one, has an entry: that of the group it was printed in, with the flag of the group and
a tree that decides as the printed one. -/
def Report.TakenBack (dom : Domain) (strat : ExprStrat) (r : Report Str)
    (res : Except Abort (ReadSt Expr)) : Prop :=
  ∃ st, res = .ok st ∧ st.res.map Prod.fst = r.groups.flatMap Group.names ∧
    ∀ i g, r.groups[i]? = some g → ∀ s ∈ g.names, ∃ d, st.res.lookup s = some d ∧
      EntryOf dom strat false i g d

theorem lookup_of_mem {res : List (Str × ReadEntry Expr)} (hnodup : (res.map Prod.fst).Nodup)
    {s : Str} {d : ReadEntry Expr} (h : (s, d) ∈ res) : res.lookup s = some d := by
  obtain ⟨l₁, l₂, rfl⟩ := List.append_of_mem h
  refine List.lookup_eq_some_iff.mpr ⟨l₁, l₂, rfl, fun p hp => ?_⟩
  rw [List.map_append, List.nodup_append] at hnodup
  have hne := hnodup.2.2 _ (List.mem_map_of_mem hp) s (by simp)
  simpa using hne.symm

/-- What is asked of a report: the names can be told apart in their lines, the formulas are
printed faithfully, and formulas of different groups have different hashes.  The last is not
up to Z3 alone: two groups can be given one formula, and `read_file` dies of the second. -/
structure Report.Readable (dom : Domain) (z : Z3Text Expr) (holds : Expr → (ℕ → ℕ) → Prop)
    (expensiveSimplify : Bool) (r : Report Str) : Prop where
  names : ∀ g ∈ r.groups, ∀ s ∈ g.names, Token s
  faithful : ∀ g ∈ r.groups, z.Faithful dom holds (g.finalExpr z expensiveSimplify)
  hashes : (r.groups.map fun g =>
    (z.reread dom (g.finalExpr z expensiveSimplify)).map z.hash).Nodup

section Report

variable {strat : ExprStrat} {expensiveSimplify : Bool} {r : Report Str}

/-- **What is read of a printed report**: everything, and the first group is ignored when an
argument contains the word. -/
theorem Report.Printed.readFile (hr : r.Printed dom strat) (hz : z.Correct dom holds)
    (hreadable : r.Readable dom z holds expensiveSimplify) {h : Header}
    (hargs : '\n' ∉ h.argLine) {analyzer : Analyzer} (hclean : analyzer.Clean)
    (globalComments : Option (List Str)) :
    ∃ st, GenTree.readFile dom z globalComments analyzer (r.text z h expensiveSimplify) = .ok st ∧
      ReadTo dom z holds strat expensiveSimplify (decide (ignoredWord <:+: h.argLine)) r.groups
        st := by
  obtain ⟨comments, globalComments', hheader⟩ := @readText_header _ dom z h r hargs
    { globalComments, analyzer } rfl (r.groups.flatMap (Group.text z expensiveSimplify))
  unfold GenTree.readFile Report.text
  rw [hheader]
  have hstart : ReadTo dom z holds strat expensiveSimplify (decide (ignoredWord <:+: h.argLine)) []
      { globalComments := globalComments', analyzer, comments
        ignored := false || decide (ignoredWord <:+: h.argLine) } :=
    ⟨⟨rfl, rfl, rfl, rfl⟩, by simp, rfl, rfl, by simp, by simp, by simp, by simp, hclean⟩
  exact hstart.groups hz hr.printedFrom hr.names_ne hreadable.names hreadable.faithful hr.nodup
    hreadable.hashes

/-- The flags are right when nothing has leaked into the first group. -/
theorem ReadTo.takenBack_iff {leak : Bool} {st : ReadSt Expr}
    (h : ReadTo dom z holds strat expensiveSimplify leak r.groups st) (hr : r.Printed dom strat) :
    r.TakenBack dom strat (.ok st) ↔ (leak = true → ∀ g ∈ r.groups.head?, g.ignored = true) := by
  have hnodup : (st.res.map Prod.fst).Nodup := by
    rw [h.locs]
    exact hr.nodup
  constructor
  · rintro ⟨st', hst, -, hentries⟩ hleak g hg
    cases hst
    rw [List.head?_eq_getElem?, Option.mem_def] at hg
    obtain ⟨s, hs⟩ := List.exists_mem_of_ne_nil _ (hr.names_ne g (List.mem_of_getElem? hg))
    obtain ⟨d, hd, hof⟩ := hentries 0 g hg s hs
    obtain ⟨d', hd', hof'⟩ := h.entries 0 g hg s hs
    rw [lookup_of_mem hnodup hd', Option.some.injEq] at hd
    subst hd
    rw [← Bool.false_or g.ignored, ← hof.ignored, hof'.ignored, hleak]
    rfl
  · intro hflag
    refine ⟨st, rfl, h.locs, fun i g hg s hs => ?_⟩
    obtain ⟨d, hd, hof⟩ := h.entries i g hg s hs
    refine ⟨d, lookup_of_mem hnodup hd, hof.id, ?_, hof.tree⟩
    rw [hof.ignored]
    cases i with
    | succ i => simp
    | zero =>
        cases leak with
        | false => rfl
        | true => simp [hflag rfl g (by rwa [List.head?_eq_getElem?])]

end Report

end Reading

/-! ## A small report -/

theorem one_le_intMax : ((1 : ℕ) : ℤ) ≤ intMax := by decide

/-- What a program prints that covers `a` when the one switch is on. -/
def switchOnNames (values : List ℤ) : List Str := if values = [1] then [['a']] else []

theorem switchOnNames_nodup (_ : ℕ) (values : List ℤ) : (switchOnNames values).Nodup := by
  unfold switchOnNames
  split <;> simp

/-- One switch, and a program that covers `a` when it is on. -/
def Env.switchOn : Env Str (List ℤ) :=
  { Env.small fun _ => [] with
    dom := Domain.switches 1 one_le_intMax
    solver := .search (Domain.switches 1 one_le_intMax)
    program := fun _ => switchOnNames
    program_nodup := switchOnNames_nodup }

/-- An atom over options whose names and labels are numbers, as Z3 prints it. -/
def ZExpr.printAtom : ZExpr → Str
  | .eq var val =>
      ['(', '=', ' ', '|'] ++ showInt var ++ ['|', ' ', '|'] ++ showInt val ++ ['|', ')']
  | _ => []

/-- The searching solver for one switch, with an atom it can print and read. -/
def Z3Text.switchOn : Z3Text ZExpr :=
  { Z3.searching Env.switchOn.dom with
    ne := fun e e' => .or (.and e (.not e')) (.and (.not e) e')
    simplify := id
    applySimplifier := fun _ => none
    print := ZExpr.printAtom
    parse := fun s =>
      if s = "(assert ".toList ++ ZExpr.printAtom (.eq 0 1) ++ [')'] then some [.eq 0 1] else none }

theorem Z3Text.switchOn_correct : Z3Text.switchOn.Correct Env.switchOn.dom ZExpr.Holds where
  toCorrect := Z3.searching_correct _
  ne e e' c _ := by
    unfold ZExpr.Holds switchOn
    simp only [ZExpr.sat_or, ZExpr.sat_and, ZExpr.sat_not]
    cases e.sat c.val <;> cases e'.sat c.val <;> decide
  simplify _ _ _ := Iff.rfl
  applySimplifier _ _ h := by cases h

theorem Z3Text.switchOn_assertion (s : Str) : Z3Text.switchOn.assertion Env.switchOn.dom s =
    "(assert ".toList ++ s ++ [')'] := by
  have hmap : Z3Text.switchOn.parseStringReplaceMap Env.switchOn.dom = [] := by
    decide +kernel
  unfold assertion
  rw [hmap]
  rfl

theorem Z3Text.switchOn_faithful :
    Z3Text.switchOn.Faithful Env.switchOn.dom ZExpr.Holds (.eq 0 1) where
  plain := by
    have hlines : getlines [] (Z3Text.switchOn.print (.eq 0 1) ++ ['\n']) =
        [Z3Text.switchOn.print (.eq 0 1)] := by decide
    rw [hlines, List.forall_mem_singleton]
    exact ⟨by decide, by decide, by decide⟩
  rejoin_ne := by decide
  parse := by
    refine ⟨.eq 0 1, ?_, fun _ _ => Iff.rfl⟩
    rw [switchOn_assertion]
    have hrejoin : rejoin (Z3Text.switchOn.print (.eq 0 1)) = ZExpr.printAtom (.eq 0 1) := by decide
    rw [hrejoin]
    unfold switchOn
    dsimp only
    exact if_pos rfl

/-- The formula is the atom `var = val`. -/
def ZExpr.isAtom (var val : ℕ) : ZExpr → Bool
  | .eq var' val' => var' = var && val' = val
  | _ => false

theorem ZExpr.eq_of_isAtom {var val : ℕ} {e : ZExpr} (h : e.isAtom var val = true) :
    e = .eq var val := by
  cases e with
  | eq var' val' =>
      unfold isAtom at h
      rw [Bool.and_eq_true, decide_eq_true_iff, decide_eq_true_iff] at h
      rw [h.1, h.2]
  | _ => cases h

/-- The run prints one group, which is not ignored, with small numbers in the header, and
everything that is asked of names and formulas is true of it. -/
theorem Env.exists_switchOn_numbers : ∃ l s r, RunsTo Env.switchOn (fun _ => True) l s ∧
    r ∈ s.reports ∧ (r.nConfigs < 9 ∧ r.nLocs < 9 ∧ r.nUniq < 9 ∧ r.iter < 9) ∧
    (∃ g ∈ r.groups.head?, g.ignored = false) ∧
    r.Readable Env.switchOn.dom .switchOn ZExpr.Holds false := by
  obtain ⟨l, s, hrun, r, hr, hnumbers, hgroups⟩ := exists_runsTo Env.switchOn (fun _ => True) 9
    (fun x => ∃ r ∈ x.2.reports, (r.nConfigs < 9 ∧ r.nLocs < 9 ∧ r.nUniq < 9 ∧ r.iter < 9) ∧
      r.groups.map (fun g => (g.names, g.ignored, g.expr.isAtom 0 1)) =
        [([['a']], false, true)]) (by decide +kernel)
  obtain ⟨g, hg, heq⟩ := List.map_eq_singleton_iff.mp hgroups
  obtain ⟨hnames, hign, hatom⟩ := by simpa only [Prod.mk.injEq] using heq
  have hexpr : g.finalExpr .switchOn false = .eq 0 1 := by
    unfold Group.finalExpr
    rw [ZExpr.eq_of_isAtom hatom]
    rfl
  have htoken : Token ['a'] := ⟨by decide, by simp [isSpace], by decide, by decide⟩
  refine ⟨l, s, r, hrun, hr, hnumbers, ⟨g, by rw [hg]; rfl, hign⟩, ?_, ?_, ?_⟩
  · rw [hg, List.forall_mem_singleton, hnames, List.forall_mem_singleton]
    exact htoken
  · rw [hg, List.forall_mem_singleton, hexpr]
    exact Z3Text.switchOn_faithful
  · rw [hg]
    exact List.nodup_singleton _

theorem Env.exists_switchOn_report : ∃ l s r, RunsTo Env.switchOn (fun _ => True) l s ∧
    r ∈ s.reports ∧ (∃ g ∈ r.groups.head?, g.ignored = false) ∧
    r.Readable Env.switchOn.dom .switchOn ZExpr.Holds false := by
  obtain ⟨l, s, r, hrun, hr, -, hgroup, hreadable⟩ := exists_switchOn_numbers
  exact ⟨l, s, r, hrun, hr, hgroup, hreadable⟩

/-- A header with these arguments. -/
def Header.ofArgs (args : List Str) : Header where
  args := args
  seed := 123
  repeatIdOption := 0
  threadId := 0
  nCacheHit := 0
  runnerNLocs := 0
  repeatId := 0
  elapsed := 0
  localTimer := 0
  totalElapsed := 0
  stateHash := (0, 0)

/-! ## Reports of runs -/

/-- **Round trip of reports.**  Every report of every run is read back, with the group, the
flag and the tree of each location, exactly when no argument contains the word `IGNORED`, or
there are no groups, or the first group is ignored anyway. -/
theorem RunsTo.report_takenBack_iff {Hash Expr : Type} [DecidableEq Hash] {env : Env Str Hash}
    {guard : Label × St Str Hash → Prop} {l : Label} {s : St Str Hash}
    (hrun : RunsTo env guard l s) {r : Report Str} (hr : r ∈ s.reports) {z : Z3Text Expr}
    {holds : Expr → (ℕ → ℕ) → Prop} (hz : z.Correct env.dom holds) {expensiveSimplify : Bool}
    (hreadable : r.Readable env.dom z holds expensiveSimplify) {h : Header}
    (hargs : '\n' ∉ h.argLine) {analyzer : Analyzer} (hclean : analyzer.Clean)
    (globalComments : Option (List Str)) :
    r.TakenBack env.dom (St.exprStrat env)
        (readFile env.dom z globalComments analyzer (r.text z h expensiveSimplify)) ↔
      (ignoredWord <:+: h.argLine → ∀ g ∈ r.groups.head?, g.ignored = true) := by
  have hprinted := hrun.reports_printed r hr
  obtain ⟨st, hread, hto⟩ :=
    hprinted.readFile hz hreadable hargs hclean globalComments
  rw [hread, hto.takenBack_iff hprinted, decide_eq_true_iff]

/-- The report is taken back when the output file is `a.txt`. -/
theorem RunsTo.report_takenBack_iff_switchOn : ∃ l s r,
    RunsTo Env.switchOn (fun _ => True) l s ∧ r ∈ s.reports ∧ r.groups ≠ [] ∧
      r.TakenBack Env.switchOn.dom (St.exprStrat Env.switchOn)
        (readFile Env.switchOn.dom .switchOn none {}
          (r.text .switchOn (.ofArgs [['-', 'O'], ['a', '.', 't', 'x', 't']]) false)) := by
  obtain ⟨l, s, r, hrun, hr, ⟨g, hg, -⟩, hreadable⟩ := Env.exists_switchOn_report
  have hargs : '\n' ∉ (Header.ofArgs [['-', 'O'], ['a', '.', 't', 'x', 't']]).argLine := by decide
  have hclean : ({} : Analyzer).Clean := fun _ _ h => by cases h
  refine ⟨l, s, r, hrun, hr, ?_, ?_⟩
  · rintro hnil
    rw [hnil] at hg
    cases hg
  · have hno : ¬ignoredWord <:+:
        (Header.ofArgs [['-', 'O'], ['a', '.', 't', 'x', 't']]).argLine := by decide
    exact (hrun.report_takenBack_iff hr Z3Text.switchOn_correct hreadable hargs hclean none).mpr
      fun hword => absurd hword hno

/-- **A flag that leaks.**  When the output file is `IGNORED`, the first group is read as an
ignored one. -/
theorem report_not_takenBack : ∃ l s r,
    RunsTo Env.switchOn (fun _ => True) l s ∧ r ∈ s.reports ∧
      Z3Text.switchOn.Correct Env.switchOn.dom ZExpr.Holds ∧
      r.Readable Env.switchOn.dom .switchOn ZExpr.Holds false ∧
      '\n' ∉ (Header.ofArgs [['-', 'O'], ignoredWord]).argLine ∧
      ¬r.TakenBack Env.switchOn.dom (St.exprStrat Env.switchOn)
        (readFile Env.switchOn.dom .switchOn none {}
          (r.text .switchOn (.ofArgs [['-', 'O'], ignoredWord]) false)) := by
  obtain ⟨l, s, r, hrun, hr, ⟨g, hg, hign⟩, hreadable⟩ := Env.exists_switchOn_report
  have hargs : '\n' ∉ (Header.ofArgs [['-', 'O'], ignoredWord]).argLine := by decide
  have hclean : ({} : Analyzer).Clean := fun _ _ h => by cases h
  have hword : ignoredWord <:+: (Header.ofArgs [['-', 'O'], ignoredWord]).argLine := by decide
  have hprinted := hrun.reports_printed r hr
  refine ⟨l, s, r, hrun, hr, Z3Text.switchOn_correct, hreadable, hargs, ?_⟩
  obtain ⟨st, hread, hto⟩ := hprinted.readFile Z3Text.switchOn_correct hreadable hargs hclean none
  rw [hread, hto.takenBack_iff hprinted]
  intro hall
  rw [hall (decide_eq_true hword) g hg] at hign
  cases hign

/-- **What is read can be used.**  The entries of a report of a run agree with their trees, so
their interpreters decide their formulas. -/
theorem RunsTo.report_decides {Hash Expr : Type} [DecidableEq Hash] {env : Env Str Hash}
    {guard : Label × St Str Hash → Prop} {l : Label} {s : St Str Hash}
    (hrun : RunsTo env guard l s) {r : Report Str} (hr : r ∈ s.reports) {z : Z3Text Expr}
    {holds : Expr → (ℕ → ℕ) → Prop} (hz : z.Correct env.dom holds) {expensiveSimplify : Bool}
    (hreadable : r.Readable env.dom z holds expensiveSimplify) {h : Header}
    (hargs : '\n' ∉ h.argLine) {analyzer : Analyzer} (hclean : analyzer.Clean)
    (globalComments : Option (List Str)) :
    ∃ st, readFile env.dom z globalComments analyzer (r.text z h expensiveSimplify) = .ok st ∧
      ∀ p ∈ st.res, ∃ d, p.2.compile env.dom = .ok d ∧ d.Decides env.dom holds := by
  obtain ⟨st, hread, hto⟩ :=
    (hrun.reports_printed r hr).readFile hz hreadable hargs hclean globalComments
  refine ⟨st, hread, fun p hp => ?_⟩
  obtain ⟨d, hcompile, -, hdecides⟩ := (hto.agrees p hp).compile
  exact ⟨d, hcompile, hdecides⟩

end GenTree

import GenTree.ComparedReports
import GenTree.MinConfigs

/-!
# Few configurations for a report

`run_analyze_cmin` reads one file and looks for configurations that cover its interactions.  It
dies when an interaction cannot be satisfied, and when the first location of a group is not
marked.  Neither happens with the report of a run (`RunsTo.report_cover`).

* **Satisfiable.**  A tree is grown only for a location that some configuration has covered, and
  the configuration satisfies its formula.  Nothing that is done with a tree later changes what
  it decides, so this is part of what every printed tree has (`CTree.Printable`).
* **First locations.**  Only marked entries go into the list of interactions, while all entries
  are checked at the end.  So every entry needs a marked one with its formula, which the reader
  provides for any file (`ReadSt.Tagged.exists_first`).
* **Hashes.**  The set of hashes is over `Config::hash`.  The configurations that are found are
  different, so a fault means that two of the space have one hash; the theorem leaves this case
  open, like the one about a list of interactions.
-/

namespace GenTree

open Outcome

section Report

variable {Expr : Type} {dom : Domain} {z : Z3Text Expr} {holds : Expr → (ℕ → ℕ) → Prop}
  {strat : ExprStrat} {expensiveSimplify leak : Bool} {r : Report Str} {st : ReadSt Expr}

/-- Some configuration satisfies the formula of a location. -/
theorem Report.Printed.exists_satOf (hr : r.Printed dom strat) {g : Group Str} (hg : g ∈ r.groups)
    {s : Str} (hs : s ∈ g.names) : ∃ c : Config, c.Complete dom ∧ r.satOf s c.values = true := by
  obtain ⟨t, ht⟩ := hr.printedFrom g hg
  obtain ⟨c, hc, hsat⟩ := ht.printable.exists_sat ht.expr
  refine ⟨c, hc, ?_⟩
  rw [hr.satOf_eq hg hs]
  exact hsat

/-- **What is read of a printed report** can be covered. -/
theorem ReadTo.interactions
    (h : ReadTo dom z holds strat expensiveSimplify leak r.groups st) (hr : r.Printed dom strat)
    (htagged : st.Tagged) : Interactions dom holds st.byName where
  agrees p hp := ((h.mapFor hr).entries p hp).agrees
  satisfiable p hp := by
    have hentry := (h.mapFor hr).entries p hp
    obtain ⟨q, hq, rfl⟩ := List.mem_map.mp (st.byName_perm.mem_iff.mp hp)
    obtain ⟨i, g, hi, hname, -⟩ := h.entry_of_mem hr hq
    obtain ⟨c, hc, hsat⟩ := hr.exists_satOf (List.mem_of_getElem? hi) hname
    exact ⟨c, hc, (hentry.sat c hc).mpr hsat⟩
  first p hp := by
    obtain ⟨q, hq, rfl⟩ := List.mem_map.mp (st.byName_perm.mem_iff.mp hp)
    obtain ⟨q', hq', hfirst, he⟩ := htagged.exists_first hq
    exact ⟨(q'.1, q'.2.toLocEntry), st.byName_perm.mem_iff.mpr (List.mem_map_of_mem hq'), hfirst, he⟩

end Report

/-- `run_analyze_cmin` on the file of a report, with the `&&` of Z3. -/
def runAnalyzeCminText {Expr Hash : Type} [DecidableEq Hash] (dom : Domain) (z : Z3Text Expr)
    (and : Expr → Expr → Expr) (draws : ℕ → ℕ) (confHash : List ℤ → Hash)
    (shuffle : List (LocEntry Expr) → List (LocEntry Expr)) (repeatId : ℤ) (text : Str)
    (analyzer : Analyzer) : Except Abort (List Config) := do
  let st ← readFile dom z none analyzer text
  runAnalyzeCmin dom { z.toZ3 with and } draws confHash shuffle repeatId st.byName

/-- **The report of a run can be covered.**  Whatever run has written it, if it can be read the
function finds configurations such that every location is covered by one of them, as the groups
say; they are complete and different, and there are not more of them than groups.  No check
fires, unless two configurations of the space have the same hash. -/
theorem RunsTo.report_cover {Hash Hash' Expr : Type} [DecidableEq Hash] [DecidableEq Hash']
    {env : Env Str Hash} {guard : Label × St Str Hash → Prop} {l : Label} {s : St Str Hash}
    (hrun : RunsTo env guard l s) {r : Report Str} (hr : r ∈ s.reports)
    (hrange : ∀ v ∈ env.dom.vars, v.nValues ≤ 32768) {z : Z3Text Expr}
    {holds : Expr → (ℕ → ℕ) → Prop} (hz : z.Correct env.dom holds) {and : Expr → Expr → Expr}
    (hand : ∀ e e' (c : Config), c.Complete env.dom →
      (holds (and e e') c.val ↔ holds e c.val ∧ holds e' c.val))
    {b : Bool} (hreadable : r.Readable env.dom z holds b) {h : Header} (hargs : '\n' ∉ h.argLine)
    (draws : ℕ → ℕ) (confHash : List ℤ → Hash')
    {shuffle : List (LocEntry Expr) → List (LocEntry Expr)} (hshuffle : ∀ l, (shuffle l).Perm l)
    (repeatId : ℤ) :
    (∃ confs, runAnalyzeCminText env.dom z and draws confHash shuffle repeatId (r.text z h b) {} =
        .ok confs ∧
      (∀ c ∈ confs, c.Complete env.dom) ∧
      (∀ s ∈ r.locs, ∃ c ∈ confs, r.satOf s c.values = true) ∧
      (confs.map Config.values).Nodup ∧ confs.length ≤ r.groups.length) ∨
    (runAnalyzeCminText env.dom z and draws confHash shuffle repeatId (r.text z h b) {} =
        .error .cminHash ∧ ConfHashClash env.dom confHash) := by
  have hprinted := hrun.reports_printed r hr
  have hclean : ({} : Analyzer).Clean := fun _ _ h => by cases h
  obtain ⟨st, hread, hto⟩ := hprinted.readFile hz hreadable hargs hclean none
  have htagged := readFile_tagged hread
  have hcorrect : Z3And.Correct env.dom { z.toZ3 with and } holds := ⟨hz.toCorrect, hand⟩
  have hfirsts : (st.byName.filter fun p => p.2.isFirst).length = r.groups.length := by
    rw [← List.length_map, (hto.firsts_perm hprinted htagged).length_eq, hprinted.length_firstLocs]
  unfold runAnalyzeCminText
  rw [hread, ok_bind]
  refine ((hto.interactions hprinted htagged).cover hrange hcorrect hshuffle repeatId).imp_left ?_
  rintro ⟨confs, hconfs, hcomplete, hcover, hnodup, hlen⟩
  refine ⟨confs, hconfs, hcomplete, fun loc hloc => ?_, hnodup, hfirsts ▸ hlen⟩
  rw [Report.locs, ← hto.locs, ← st.names_perm.mem_iff] at hloc
  obtain ⟨p, hp, rfl⟩ := List.mem_map.mp hloc
  obtain ⟨c, hc, hsat⟩ := hcover p hp
  exact ⟨c, hc, (((hto.mapFor hprinted).entries p hp).sat c (hcomplete c hc)).mp hsat⟩

/-- Two of the three groups exclude each other: the report about `a`, `b` and `c` is covered by
two configurations of the switch, or by three. -/
theorem RunsTo.report_cover_switchOn : ∃ l s r,
    RunsTo (.switching truthNames truthNames_nodup) (fun _ => True) l s ∧ r ∈ s.reports ∧
      r.locs = [['b'], ['c'], ['a']] ∧
      ∃ confs, runAnalyzeCminText Env.switchOn.dom Z3Text.onOff .and (fun _ => 0)
          (id : List ℤ → List ℤ) List.reverse 1
          (r.text .onOff (.ofArgs [['-', 'A', '4']]) false) {} = .ok confs ∧
        (∀ s ∈ r.locs, ∃ c ∈ confs, r.satOf s c.values = true) ∧
        (confs.map Config.values).Nodup ∧ confs.length ≤ 3 := by
  obtain ⟨l, s, r, -, -, -, hrun, hr, -, -, -, hsaid, -⟩ := Env.exists_onOff_reports
  have hreadable := hsaid.readable (by decide) (by decide) (by decide)
  have hdom : (Env.switching truthNames truthNames_nodup).dom = Env.switchOn.dom := rfl
  have hcover := @RunsTo.report_cover (List ℤ) (List ℤ) ZExpr _ _ _ _ _ _ hrun _ hr
  rw [hdom] at hcover
  have hand : ∀ e e' (c : Config), c.Complete Env.switchOn.dom →
      (ZExpr.Holds (.and e e') c.val ↔ ZExpr.Holds e c.val ∧ ZExpr.Holds e' c.val) := by
    intro e e' c _
    unfold ZExpr.Holds
    rw [ZExpr.sat_and, Bool.and_eq_true]
  obtain ⟨confs, hconfs, -, hall, hnodup, hlen⟩ | ⟨-, hclash⟩ :=
    hcover (by decide) Z3Text.onOff_correct hand hreadable
      (show '\n' ∉ (Header.ofArgs [['-', 'A', '4']]).argLine by decide) (fun _ => 0)
      (id : List ℤ → List ℤ) List.reverse_perm 1
  · exact ⟨l, s, r, hrun, hr, hsaid.locs, confs, hconfs, hall, hnodup, hlen.trans_eq hsaid.length⟩
  · exact absurd hclash (not_confHashClash_id _)

end GenTree

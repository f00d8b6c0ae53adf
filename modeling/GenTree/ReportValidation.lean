import GenTree.FullValidation
import GenTree.ReportRoundTrip

/-!
# Validating a report

A report of a run is read back by `read_file`, and `run_analyze_1` then runs the program on
all configurations.  The two halves meet here.  What is read agrees with what was printed:
the entries of a group have one number and trees that decide as the formula of the group
(`ReadTo.sound`).  So what the validation finds is exactly what is wrong with the report
(`RunsTo.report_validated`).
-/

namespace GenTree

open Outcome Machine

/-- **The report is right** about the program: every location that a configuration covers is
printed, and every formula is satisfied by exactly the configurations that cover the locations
of its group. -/
def Report.Right {Name : Type} (dom : Domain) (f : List ℤ → List Name) (r : Report Name) : Prop :=
  ∀ c : Config, c.Complete dom →
    (∀ name ∈ f c.values, ∃ g ∈ r.groups, name ∈ g.names) ∧
      ∀ g ∈ r.groups, ∀ name ∈ g.names, g.expr.sat c.val = true ↔ name ∈ f c.values

section Reading

variable {Expr : Type} {dom : Domain} {z : Z3Text Expr} {holds : Expr → (ℕ → ℕ) → Prop}
  {strat : ExprStrat} {expensiveSimplify leak : Bool} {r : Report Str} {st : ReadSt Expr}

/-- An entry decides as the formula of its group. -/
theorem EntryOf.sat_iff {i : ℕ} {g : Group Str} {t : CTree} {d : ReadEntry Expr}
    (h : EntryOf dom strat leak i g d) (hprint : g.PrintedFrom dom strat t)
    (hagrees : d.Agrees dom holds) {c : Config} (hc : c.Complete dom) :
    d.Sat holds c ↔ g.expr.sat c.val = true := by
  obtain ⟨sh, hsat, hwalk⟩ := hprint.printable.sat_iff
  obtain ⟨e, he, hesat⟩ := hsat strat
  rw [hprint.expr, Except.ok.injEq] at he
  subst he
  obtain ⟨b, n, htest, heval⟩ := hwalk c hc
  obtain ⟨b', n', n'', htest', hread⟩ := (h.tree t hprint).testConfig c hc
  rw [htest, Except.ok.injEq, Prod.mk.injEq] at htest'
  obtain ⟨b'', n''', hread', hb⟩ := hagrees.agree c hc
  rw [hread, Except.ok.injEq, Prod.mk.injEq] at hread'
  rw [← hb, ← hread'.1, ← htest'.1, hesat, heval, Option.some_inj]

/-- The entry of a name is that of its group. -/
theorem ReadTo.entry_of_mem (h : ReadTo dom z holds strat expensiveSimplify leak r.groups st)
    (hr : r.Printed dom strat) {p : Str × ReadEntry Expr} (hp : p ∈ st.res) :
    ∃ i g, r.groups[i]? = some g ∧ p.1 ∈ g.names ∧ EntryOf dom strat (leak && i = 0) i g p.2 := by
  have hname := List.mem_map_of_mem (f := Prod.fst) hp
  rw [h.locs] at hname
  obtain ⟨g, hg, hname⟩ := List.mem_flatMap.mp hname
  obtain ⟨i, hi⟩ := List.mem_iff_getElem?.mp hg
  obtain ⟨d, hd, hof⟩ := h.entries i g hi p.1 hname
  have hnodup : (st.res.map Prod.fst).Nodup := by
    rw [h.locs]
    exact hr.nodup
  have heq : (p.1, d) = p := List.inj_on_of_nodup_map hnodup hd hp rfl
  exact ⟨i, g, hi, hname, by rwa [← heq]⟩

/-- A name is in one group only. -/
theorem Report.Printed.group_unique {Name : Type} {r : Report Name} (hr : r.Printed dom strat)
    {g g' : Group Name} (hg : g ∈ r.groups) (hg' : g' ∈ r.groups) {name : Name}
    (hname : name ∈ g.names) (hname' : name ∈ g'.names) : g = g' := by
  by_contra hne
  have hsymm : Std.Symm (Function.onFun List.Disjoint (@Group.names Name)) :=
    ⟨fun _ _ h => List.Disjoint.symm h⟩
  have hdisjoint := (List.nodup_flatMap.mp hr.nodup).2.forall hg hg' hne
  exact hdisjoint hname hname'

theorem Report.Printed.length_groups_le {Name : Type} {r : Report Name} (hr : r.Printed dom strat) :
    r.groups.length ≤ (r.groups.flatMap Group.names).length := by
  rw [List.length_flatMap]
  refine (List.length_le_sum_of_one_le _ fun n hn => ?_).trans' (by rw [List.length_map])
  obtain ⟨g, hg, rfl⟩ := List.mem_map.mp hn
  exact List.length_pos_iff.mpr (hr.names_ne g hg)

theorem ReadTo.sat_iff (h : ReadTo dom z holds strat expensiveSimplify leak r.groups st)
    (hr : r.Printed dom strat) {p : Str × ReadEntry Expr} (hp : p ∈ st.res) {g : Group Str}
    (hg : g ∈ r.groups) (hname : p.1 ∈ g.names) {c : Config} (hc : c.Complete dom) :
    p.2.Sat holds c ↔ g.expr.sat c.val = true := by
  obtain ⟨i, g', hi, hname', hof⟩ := h.entry_of_mem hr hp
  obtain rfl := hr.group_unique hg (List.mem_of_getElem? hi) hname hname'
  obtain ⟨t, ht⟩ := hr.printedFrom g hg
  exact hof.sat_iff ht (h.agrees p hp) hc

/-- What `run_analyze_1` uses of the entries; they are in the order of their names there. -/
def ReadSt.Entries (st : ReadSt Expr) (ma : List (Str × LocEntry Expr)) : Prop :=
  ma.Perm (st.res.map fun p => (p.1, p.2.toLocEntry))

theorem ReadSt.Entries.mem_iff {ma : List (Str × LocEntry Expr)} (h : st.Entries ma)
    {p : Str × LocEntry Expr} : p ∈ ma ↔ ∃ q ∈ st.res, p = (q.1, q.2.toLocEntry) := by
  rw [List.Perm.mem_iff h, List.mem_map]
  exact exists_congr fun q => and_congr_right fun _ => eq_comm

variable {Hash : Type} {v : Validation Expr Str Hash} {f : List ℤ → List Str}

/-- **What has been read can be validated.** -/
theorem ReadTo.sound (h : ReadTo v.dom z holds strat expensiveSimplify leak r.groups st)
    (hr : r.Printed v.dom strat) (hma : st.Entries v.ma)
    (hrange : ∀ x ∈ v.dom.vars, x.nValues ≤ 32768)
    (hprogram : ∀ k values, v.program k values = f values) : v.Sound holds f where
  range := hrange
  program := hprogram
  agrees p hp := by
    obtain ⟨q, hq, rfl⟩ := hma.mem_iff.mp hp
    exact h.agrees q hq
  id_lt p hp := by
    obtain ⟨q, hq, rfl⟩ := hma.mem_iff.mp hp
    obtain ⟨i, g, hi, -, hof⟩ := h.entry_of_mem hr hq
    have hlen : v.ma.length = (r.groups.flatMap Group.names).length := by
      rw [List.Perm.length_eq hma, List.length_map, ← h.locs, List.length_map]
    have hlt := (List.getElem?_eq_some_iff.mp hi).1
    have hle := hr.length_groups_le
    show q.2.id < v.ma.length
    rw [hof.id, hlen]
    omega
  shared p hp p' hp' hid c hc := by
    obtain ⟨q, hq, rfl⟩ := hma.mem_iff.mp hp
    obtain ⟨q', hq', rfl⟩ := hma.mem_iff.mp hp'
    obtain ⟨i, g, hi, hname, hof⟩ := h.entry_of_mem hr hq
    obtain ⟨i', g', hi', hname', hof'⟩ := h.entry_of_mem hr hq'
    have hsame : i = i' := by
      rw [← hof.id, ← hof'.id]
      exact hid
    subst hsame
    rw [hi, Option.some_inj] at hi'
    subst hi'
    have hg := List.mem_of_getElem? hi
    exact (h.sat_iff hr hq hg hname hc).trans (h.sat_iff hr hq' hg hname' hc).symm

/-- The names that were printed are those of the entries. -/
theorem ReadTo.mem_names_iff (h : ReadTo v.dom z holds strat expensiveSimplify leak r.groups st)
    (hma : st.Entries v.ma) {name : Str} :
    name ∈ v.ma.map Prod.fst ↔ ∃ g ∈ r.groups, name ∈ g.names := by
  rw [← List.mem_flatMap, ← h.locs, List.mem_map, List.mem_map]
  constructor
  · rintro ⟨p, hp, rfl⟩
    obtain ⟨q, hq, rfl⟩ := hma.mem_iff.mp hp
    exact ⟨q, hq, rfl⟩
  · rintro ⟨q, hq, rfl⟩
    exact ⟨_, hma.mem_iff.mpr ⟨q, hq, rfl⟩, rfl⟩

/-- A file that is right is a report that is right. -/
theorem ReadTo.right_iff (h : ReadTo v.dom z holds strat expensiveSimplify leak r.groups st)
    (hr : r.Printed v.dom strat) (hma : st.Entries v.ma) :
    v.Right holds f ↔ r.Right v.dom f := by
  refine forall_congr' fun c => forall_congr' fun hc => and_congr ?_ ?_
  · exact forall_congr' fun name => forall_congr' fun _ => h.mem_names_iff hma
  · constructor
    · intro hall g hg name hname
      obtain ⟨p, hp, rfl⟩ := List.mem_map.mp ((h.mem_names_iff hma).mpr ⟨g, hg, hname⟩)
      obtain ⟨q, hq, rfl⟩ := hma.mem_iff.mp hp
      exact (h.sat_iff hr hq hg hname hc).symm.trans (hall _ hp)
    · intro hall p hp
      obtain ⟨q, hq, rfl⟩ := hma.mem_iff.mp hp
      obtain ⟨g, hg, hname⟩ := (h.mem_names_iff hma).mp (List.mem_map_of_mem hp)
      exact (h.sat_iff hr hq hg hname hc).trans (hall g hg q.1 hname)

end Reading

/-- **The report is what is validated.**  Whatever run has written it, a report that can be read
is read back whole, and `--full` validates it for every batch size: a location is wrong exactly
if its group's formula and the program disagree about a configuration, a location is missing
exactly if a configuration covers it and it was not printed, and there is nothing wrong or
missing exactly if the report is right about the program.

`Readable` is needed: a run can print two groups with one formula, and the file is then not
read.  The configurations are fewer than 2^31 because `run_analyze_1` counts them in an `int`
(`fullValidation_exact`). -/
theorem RunsTo.report_validated {Hash Hash' Expr : Type} [DecidableEq Hash] [DecidableEq Hash']
    {env : Env Str Hash} {guard : Label × St Str Hash → Prop} {l : Label} {s : St Str Hash}
    (hrun : RunsTo env guard l s) {r : Report Str} (hr : r ∈ s.reports) {z : Z3Text Expr}
    {holds : Expr → (ℕ → ℕ) → Prop} (hz : z.Correct env.dom holds) {expensiveSimplify : Bool}
    (hreadable : r.Readable env.dom z holds expensiveSimplify) {h : Header}
    (hargs : '\n' ∉ h.argLine) {analyzer : Analyzer} (hclean : analyzer.Clean)
    (globalComments : Option (List Str)) (hrange : ∀ x ∈ env.dom.vars, x.nValues ≤ 32768)
    (hspace : (env.dom.configSpace : ℤ) ≤ intMax) :
    ∃ st, readFile env.dom z globalComments analyzer (r.text z h expensiveSimplify) = .ok st ∧
      ∀ (v : Validation Expr Str Hash') (f : List ℤ → List Str) (b : ℕ), v.dom = env.dom →
        st.Entries v.ma → (∀ k values, v.program k values = f values) → v.AtFull b →
        ∃ s₀ t, v.init = .ok s₀ ∧ Reach v.step (fun _ => True) s₀ t ∧ v.step t = .ok t ∧
          (∀ name, name ∈ t.wrong.wrongLocs ↔ ∃ g ∈ r.groups, name ∈ g.names ∧
            ∃ c : Config, c.Complete env.dom ∧
              ¬(g.expr.sat c.val = true ↔ name ∈ f c.values)) ∧
          (∀ name, name ∈ t.wrong.missingLocs ↔ (∀ g ∈ r.groups, name ∉ g.names) ∧
            ∃ c : Config, c.Complete env.dom ∧ name ∈ f c.values) ∧
          (t.wrong.wrongLocs = ∅ ∧ t.wrong.missingLocs = ∅ ↔ r.Right env.dom f) := by
  have hprinted := hrun.reports_printed r hr
  obtain ⟨st, hread, hto⟩ := hprinted.readFile hz hreadable hargs hclean globalComments
  refine ⟨st, hread, fun v f b hdom hma hprogram ha => ?_⟩
  rw [← hdom] at hprinted hto hrange hspace ⊢
  have hsound := hto.sound hprinted hma hrange hprogram
  obtain ⟨s₀, t, hinit, hreach, hend, horder, hexact, -⟩ := ha.run hsound hspace
  refine ⟨s₀, t, hinit, hreach, hend, fun name => ?_, fun name => ?_, ?_⟩
  · rw [hexact.mem_wrongLocs_iff horder]
    constructor
    · rintro ⟨p, hp, rfl, c, hc, hdiffers⟩
      obtain ⟨q, hq, rfl⟩ := hma.mem_iff.mp hp
      obtain ⟨g, hg, hname⟩ := (hto.mem_names_iff hma).mp (List.mem_map_of_mem hp)
      refine ⟨g, hg, hname, c, hc, ?_⟩
      rw [← hto.sat_iff hprinted hq hg hname hc]
      exact hdiffers
    · rintro ⟨g, hg, hname, c, hc, hdiffers⟩
      obtain ⟨p, hp, rfl⟩ := List.mem_map.mp ((hto.mem_names_iff hma).mpr ⟨g, hg, hname⟩)
      obtain ⟨q, hq, rfl⟩ := hma.mem_iff.mp hp
      rw [← hto.sat_iff hprinted hq hg hname hc] at hdiffers
      exact ⟨_, hp, rfl, c, hc, hdiffers⟩
  · rw [hexact.mem_missingLocs_iff horder, hto.mem_names_iff hma]
    push Not
    rfl
  · rw [hexact.empty_iff horder, hto.right_iff hprinted hma]

/-- A report of one switch is validated in batches of three. -/
theorem RunsTo.report_validated_switchOn : ∃ l s r,
    RunsTo Env.switchOn (fun _ => True) l s ∧ r ∈ s.reports ∧ r.groups ≠ [] ∧
      ∃ (v : Validation ZExpr Str (List ℤ)) (s₀ t : Progress Str (List ℤ)),
        v.init = .ok s₀ ∧ Reach v.step (fun _ => True) s₀ t ∧
        (t.wrong.wrongLocs = ∅ ∧ t.wrong.missingLocs = ∅ ↔
          r.Right Env.switchOn.dom switchOnNames) := by
  obtain ⟨l, s, r, hrun, hr, ⟨g, hg, -⟩, hreadable⟩ := Env.exists_switchOn_report
  have hargs : '\n' ∉ (Header.ofArgs [['-', 'O'], ['a', '.', 't', 'x', 't']]).argLine := by decide
  have hclean : ({} : Analyzer).Clean := fun _ _ h => by cases h
  obtain ⟨st, hread, hall⟩ := @RunsTo.report_validated _ (List ℤ) _ _ _ _ _ _ _ hrun _ hr _ _
    Z3Text.switchOn_correct _ hreadable _ hargs _ hclean none (by decide)
    (by decide)
  let v : Validation ZExpr Str (List ℤ) := {
    dom := Env.switchOn.dom, ma := st.res.map fun p => (p.1, p.2.toLocEntry), rand := none
    full := true, batchSize := 3, draws := id, confHash := id, program := fun _ => switchOnNames }
  obtain ⟨s₀, t, hinit, hreach, -, -, -, hright⟩ :=
    hall v switchOnNames 3 rfl (.refl _) (fun _ _ => rfl) ⟨rfl, rfl, rfl, by decide⟩
  exact ⟨l, s, r, hrun, hr, List.ne_nil_of_mem (List.mem_of_mem_head? hg), v, s₀, t, hinit, hreach, hright⟩

end GenTree

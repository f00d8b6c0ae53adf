import GenTree.Grouping

/-!
# What a report does

`finish_alg` goes through the records once.  It rebuilds the trees that are due,
unless it is told to use temporary ones, and prints one group for each unlinked
record.  `Finished` says what it leaves behind and what it prints, and
`FinishCulprit` what must be wrong with a record for it to die.

The block of `run_alg` behind its loop, which prepares and builds all records when
there are none, is `PreparedFinal`.

Both are loops over the records that change one record at a time.  `RefreshedTo` compares
the state after some of them with the one before the loop, and not with the one before the
last record: a new tree is built from the store, which the loop does not touch, so it can
be spoken of as a tree of the first state throughout.
-/

namespace GenTree

open Outcome

section Finish

variable {Name Hash : Type} [DecidableEq Name] [DecidableEq Hash] {env : Env Name Hash}

/-- A record after a pass that rebuilds what is due.  With temporary trees a record is printed
with a tree that is thrown away, so it stays due. -/
inductive Refreshed (env : Env Name Hash) (buildTreeTemp : Bool) (s : St Name Hash)
    (d : LocData) : LocData → Prop
  | kept (h : buildTreeTemp = true ∨ d.linked = true ∨ d.needRebuild = false) :
      Refreshed env buildTreeTemp s d d
  | rebuilt {t : CTree} (iter n : ℤ) (temp : buildTreeTemp = false) (linked : d.linked = false)
      (needRebuild : d.needRebuild = true) (tree : s.newTree env d.loc = .ok t) :
      Refreshed env buildTreeTemp s d { d with
        tree := some t, needRebuild := false, lastBuildIter := iter, lastBuildNConfigs := n }

omit [DecidableEq Name] [DecidableEq Hash] in
theorem Refreshed.sameRole {buildTreeTemp : Bool} {s : St Name Hash} {d d' : LocData}
    (h : Refreshed env buildTreeTemp s d d') : d.SameRole d' := by
  cases h <;> exact ⟨rfl, rfl, rfl, rfl⟩

/-- What `finish_alg` prints for the record `j`: its names, and the formula and the
text of its own tree, or of a new one when a rebuild is due.  `expr` is what the meaning of
the report rests on; `print` has the whole group, with the record as it was by then. -/
structure GroupOf (env : Env Name Hash) (s : St Name Hash) (j : ℕ) (g : Group Name) : Prop where
  names : s.groupNames j = .ok g.names
  expr : ∃ d t, s.vLocData[j]? = some d ∧ t.buildZexpr env.dom (St.exprStrat env) = .ok g.expr ∧
    (if d.needRebuild then s.newTree env d.loc = .ok t else d.tree = some t)
  print : ∃ d d' t, s.vLocData[j]? = some d ∧ d.SameRole d' ∧
    (d.ignored = true → d.needRebuild = true) ∧
    (if d.needRebuild then s.newTree env d.loc = .ok t else d.tree = some t) ∧
    s.printGroup env j d' t = .ok g

/-- The ids of the unlinked records among `ids`. -/
def St.unlinkedOf (s : St Name Hash) (ids : List ℕ) : List ℕ :=
  ids.filter fun j => (s.vLocData[j]?.map fun d => !d.linked).getD false

/-- The records `done` have been refreshed, and nothing else has changed. -/
structure RefreshedTo (env : Env Name Hash) (buildTreeTemp : Bool) (s : St Name Hash)
    (done : List ℕ) (s' : St Name Hash) : Prop where
  state : s' = { s with vLocData := s'.vLocData }
  length : s'.vLocData.length = s.vLocData.length
  dat : ∀ (j : ℕ) (d : LocData), s.vLocData[j]? = some d → ∃ d', s'.vLocData[j]? = some d' ∧
    if j ∈ done then Refreshed env buildTreeTemp s d d' else d' = d

/-- What the code that prints the group of the record `j` with the tree `t` dies of. -/
def Unprintable (env : Env Name Hash) (s : St Name Hash) (j : ℕ) (t : CTree) (a : Abort) : Prop :=
  t.buildZexpr env.dom (St.exprStrat env) = .error a ∨ s.groupNames j = .error a ∨
    t.serialize = .error a

/-- Why `finish_alg` dies in the state `s`.  The first two come from the code below it, the
others are about the record itself. -/
inductive FinishCulprit (env : Env Name Hash) (s : St Name Hash) : Fault → Prop
  | build {j : ℕ} {d : LocData} {a : Abort} (dat : s.vLocData[j]? = some d)
      (linked : d.linked = false) (tree : s.newTree env d.loc = .error a) :
      FinishCulprit env s (.lower a)
  | print {j : ℕ} {d : LocData} {t : CTree} {a : Abort} (dat : s.vLocData[j]? = some d)
      (linked : d.linked = false)
      (tree : if d.needRebuild then s.newTree env d.loc = .ok t else d.tree = some t)
      (print : Unprintable env s j t a) : FinishCulprit env s (.lower a)
  | ignored {j : ℕ} {d : LocData} (dat : s.vLocData[j]? = some d) (linked : d.linked = false)
      (ignored : d.ignored = true) (needRebuild : d.needRebuild = false) :
      FinishCulprit env s .finishIgnored
  | nullTree {j : ℕ} {d : LocData} (dat : s.vLocData[j]? = some d) (linked : d.linked = false)
      (needRebuild : d.needRebuild = false) (tree : d.tree = none) :
      FinishCulprit env s .finishNullTree

namespace RefreshedTo

variable {buildTreeTemp : Bool} {s s' : St Name Hash} {done : List ℕ} {j : ℕ} {d d' : LocData}

omit [DecidableEq Name] [DecidableEq Hash]

theorem refl (buildTreeTemp : Bool) (s : St Name Hash) : RefreshedTo env buildTreeTemp s [] s :=
  ⟨rfl, rfl, fun _ d hd => ⟨d, hd, by rw [if_neg List.not_mem_nil]⟩⟩

theorem cov_eq (h : RefreshedTo env buildTreeTemp s done s') : s'.cov = s.cov := by
  rw [h.state]

theorem newTree_eq (h : RefreshedTo env buildTreeTemp s done s') (loc : ℕ) :
    s'.newTree env loc = s.newTree env loc := by
  rw [St.newTree, St.newTree, h.cov_eq]

/-- A record the loop has not come to yet. -/
theorem getElem?_of_notMem (h : RefreshedTo env buildTreeTemp s done s') (hj : j ∉ done)
    (hd : s.vLocData[j]? = some d) : s'.vLocData[j]? = some d := by
  obtain ⟨d', hd', heq⟩ := h.dat j d hd
  rw [if_neg hj] at heq
  rw [hd', heq]

/-- All records have been refreshed. -/
theorem dat_all (h : RefreshedTo env buildTreeTemp s (List.range s.vLocData.length) s') (j : ℕ)
    (d : LocData) (hd : s.vLocData[j]? = some d) :
    ∃ d', s'.vLocData[j]? = some d' ∧ Refreshed env buildTreeTemp s d d' := by
  obtain ⟨d', hd', hrefresh⟩ := h.dat j d hd
  rw [if_pos (List.mem_range.mpr (List.getElem?_eq_some_iff.mp hd).1)] at hrefresh
  exact ⟨d', hd', hrefresh⟩

/-- The next record is refreshed. -/
theorem set (h : RefreshedTo env buildTreeTemp s done s') (hj : j ∉ done)
    (hd : s.vLocData[j]? = some d) (hrefresh : Refreshed env buildTreeTemp s d d') :
    RefreshedTo env buildTreeTemp s (done ++ [j]) (s'.setDat j d') where
  state := congrArg (fun x : St Name Hash => { x with vLocData := s'.vLocData.set j d' }) h.state
  length := by rw [St.setDat, List.length_set, h.length]
  dat i e he := by
    by_cases hij : i = j
    · subst hij
      rw [hd] at he
      cases he
      have hlt := (List.getElem?_eq_some_iff.mp hd).1
      refine ⟨d', ?_, by rw [if_pos (by simp)]; exact hrefresh⟩
      rw [St.setDat, List.getElem?_set_self (by rw [h.length]; exact hlt)]
    · obtain ⟨e', he', hcase⟩ := h.dat i e he
      refine ⟨e', ?_, ?_⟩
      · rw [St.setDat, List.getElem?_set_ne (fun heq => hij heq.symm), he']
      · simpa [hij] using hcase

/-- A record that needs no rebuild is passed over. -/
theorem skip (h : RefreshedTo env buildTreeTemp s done s') (hj : j ∉ done)
    (hd : s.vLocData[j]? = some d)
    (hkept : buildTreeTemp = true ∨ d.linked = true ∨ d.needRebuild = false) :
    RefreshedTo env buildTreeTemp s (done ++ [j]) s' := by
  have hset := h.set hj hd (.kept hkept)
  rwa [St.setDat, List.set_of_getElem? (h.getElem?_of_notMem hj hd)] at hset

/-- The names of the groups depend on what the loop keeps. -/
theorem groupNames_eq (h : RefreshedTo env buildTreeTemp s done s') (j : ℕ) :
    s'.groupNames j = s.groupNames j := by
  -- both lists of records have the same locations and parents
  have hroles : s'.vLocData.map (fun d => (d.loc, d.parent)) =
      s.vLocData.map fun d => (d.loc, d.parent) := by
    refine List.ext_getElem? fun i => ?_
    rw [List.getElem?_map, List.getElem?_map]
    cases hd : s.vLocData[i]? with
    | none =>
        have hlen := List.getElem?_eq_none_iff.mp hd
        rw [List.getElem?_eq_none (by rw [h.length]; exact hlen)]
    | some d =>
        obtain ⟨d', hd', hrefresh⟩ := h.dat i d hd
        rw [hd', Option.map_some, Option.map_some]
        split at hrefresh
        · rw [hrefresh.sameRole.loc, hrefresh.sameRole.parent]
        · rw [hrefresh]
  have hnames : ∀ l : List LocData, ((l.filter fun d => decide (d.parent.getD d.loc = j)).mapM
      fun d => (do let loc ← vecAt s.cov.locs d.loc; .ok loc.name : Except Abort Name)) =
      ((l.map fun d => (d.loc, d.parent)).filter fun q => decide (q.2.getD q.1 = j)).mapM
        fun q => (do let loc ← vecAt s.cov.locs q.1; .ok loc.name) := by
    intro l
    rw [List.filter_map, List.mapM_map]
    rfl
  rw [St.groupNames, St.groupNames, h.cov_eq, hnames, hnames, hroles]

end RefreshedTo

/-! ## `finish_alg` -/

omit [DecidableEq Name] [DecidableEq Hash] in
/-- What has been printed for the record `j` is its group. -/
theorem groupOf_of_print {s s' : St Name Hash} {j : ℕ} {d d' : LocData} {t : CTree}
    {g : Group Name} (hprint : s'.printGroup env j d' t = .ok g)
    (hnames : s'.groupNames j = s.groupNames j) (hd : s.vLocData[j]? = some d)
    (hrole : d.SameRole d') (hdue : d.ignored = true → d.needRebuild = true)
    (htree : if d.needRebuild then s.newTree env d.loc = .ok t else d.tree = some t) :
    GroupOf env s j g := by
  have hsame : s.printGroup env j d' t = .ok g := by
    rw [← hprint, St.printGroup, St.printGroup, hnames]
  rw [St.printGroup] at hprint
  obtain ⟨expr, hexpr, hprint⟩ := bind_eq_ok.mp hprint
  obtain ⟨names, hnames', hprint⟩ := bind_eq_ok.mp hprint
  obtain ⟨text, -, hprint⟩ := bind_eq_ok.mp hprint
  cases hprint
  exact ⟨by rw [← hnames, hnames'], ⟨d, t, hd, hexpr, htree⟩,
    d, d', t, hd, hrole, hdue, htree, hsame⟩

omit [DecidableEq Name] [DecidableEq Hash] in
theorem unprintable_of_print {s s' : St Name Hash} {j : ℕ} {d' : LocData} {t : CTree} {a : Abort}
    (hprint : s'.printGroup env j d' t = .error a) (hnames : s'.groupNames j = s.groupNames j) :
    Unprintable env s j t a := by
  rw [St.printGroup, hnames] at hprint
  cases hexpr : t.buildZexpr env.dom (St.exprStrat env) with
  | error e =>
      rw [hexpr] at hprint
      cases hprint
      exact .inl hexpr
  | ok expr =>
      cases hgroup : s.groupNames j with
      | error e =>
          rw [hexpr, ok_bind, hgroup] at hprint
          cases hprint
          exact .inr (.inl hgroup)
      | ok names =>
          cases htext : t.serialize with
          | error e =>
              rw [hexpr, ok_bind, hgroup, ok_bind, htext] at hprint
              cases hprint
              exact .inr (.inr htext)
          | ok text =>
              rw [hexpr, ok_bind, hgroup, ok_bind, htext] at hprint
              cases hprint

/-- What the loop of `finish_alg` has done after the records `done`. -/
def FinishedTo (env : Env Name Hash) (buildTreeTemp : Bool) (s : St Name Hash) (done : List ℕ)
    (p : St Name Hash × List (Group Name)) : Prop :=
  RefreshedTo env buildTreeTemp s done p.1 ∧
    List.Forall₂ (GroupOf env s) (s.unlinkedOf done) p.2

omit [DecidableEq Name] [DecidableEq Hash] in
theorem St.unlinkedOf_concat {s : St Name Hash} {done : List ℕ} {j : ℕ} {d : LocData}
    (hd : s.vLocData[j]? = some d) :
    s.unlinkedOf (done ++ [j]) = s.unlinkedOf done ++ if d.linked then [] else [j] := by
  rw [unlinkedOf, List.filter_append, List.filter_singleton, hd]
  cases hl : d.linked <;> simp [unlinkedOf, hl]

omit [DecidableEq Name] [DecidableEq Hash] in
/-- One record is printed, when the state is `s₂` after the rebuild and `t` is its tree. -/
theorem FinishedTo.print {buildTreeTemp : Bool} {s s₂ : St Name Hash} {done : List ℕ}
    {groups : List (Group Name)} {j : ℕ} {d d' : LocData} {t : CTree}
    (href : RefreshedTo env buildTreeTemp s (done ++ [j]) s₂)
    (hgroups : List.Forall₂ (GroupOf env s) (s.unlinkedOf done) groups)
    (hd : s.vLocData[j]? = some d) (hunlinked : d.linked = false)
    (hdue : d.ignored = true → d.needRebuild = true) (hrole : d.SameRole d')
    (htree : if d.needRebuild then s.newTree env d.loc = .ok t else d.tree = some t) :
    Meets (do
      let g ← s₂.printGroup env j d' t
      .ok (s₂, groups ++ [g]) : Except Fault _)
      (FinishedTo env buildTreeTemp s (done ++ [j])) (FinishCulprit env s) := by
  have hnames := href.groupNames_eq j
  refine meets_lift_bind_of_eq (fun a ha => ?_) fun g hg => ⟨href, ?_⟩
  · exact .print hd hunlinked htree (unprintable_of_print ha hnames)
  · rw [St.unlinkedOf_concat hd, hunlinked]
    exact List.rel_append hgroups
      (.cons (groupOf_of_print hg hnames hd hrole hdue htree) .nil)

omit [DecidableEq Name] [DecidableEq Hash] in
/-- **One record.** -/
theorem FinishedTo.step {buildTreeTemp : Bool} {s : St Name Hash} {done : List ℕ}
    {p : St Name Hash × List (Group Name)} (h : FinishedTo env buildTreeTemp s done p) {j : ℕ}
    (hj : j ∉ done) {d : LocData} (hd : s.vLocData[j]? = some d) (iter : ℕ) :
    Meets (St.finishLoc env iter buildTreeTemp p j)
      (FinishedTo env buildTreeTemp s (done ++ [j])) (FinishCulprit env s) := by
  obtain ⟨s₁, groups⟩ := p
  obtain ⟨href, hgroups⟩ := h
  dsimp only at href hgroups
  have hd₁ := href.getElem?_of_notMem hj hd
  rw [St.finishLoc, St.dat_eq hd₁, lift_ok, ok_bind]
  split
  · next hlinked =>
      refine ⟨href.skip hj hd (.inr (.inl hlinked)), ?_⟩
      rw [St.unlinkedOf_concat hd, if_pos hlinked, List.append_nil]
      exact hgroups
  · next hlinked =>
      have hunlinked : d.linked = false := by simpa using hlinked
      refine meets_check_bind (fun hdue => ?_) fun hne => ?_
      · cases hneed : d.needRebuild with
        | false =>
            simp only [hneed, Bool.and_false, Bool.false_eq_true, if_false, ok_bind,
              St.dat_eq hd₁, lift_ok]
            cases htree : d.tree with
            | none => exact .nullTree hd hunlinked hneed htree
            | some t =>
                exact FinishedTo.print (href.skip hj hd (.inr (.inr hneed))) hgroups hd hunlinked hdue
                  ⟨rfl, rfl, rfl, rfl⟩ (by simp [hneed, htree])
        | true =>
            cases buildTreeTemp with
            | true =>
                simp only [Bool.not_true, Bool.false_eq_true, if_false, ok_bind,
                  St.dat_eq hd₁, lift_ok, hneed, Bool.and_true, if_true]
                have hnew : Meets (do
                    let tree ← s₁.newTree env d.loc
                    .ok (some tree) : Except Fault (Option CTree))
                    (fun tree => ∃ t, tree = some t ∧ s.newTree env d.loc = .ok t)
                    (FinishCulprit env s) :=
                  meets_lift_bind_of_eq (fun a ha => .build hd hunlinked
                    (by rw [← href.newTree_eq, ha])) fun t ht =>
                      ⟨t, rfl, by rw [← href.newTree_eq, ht]⟩
                refine meets_bind hnew ?_
                rintro _ ⟨t, rfl, ht⟩
                exact FinishedTo.print (href.skip hj hd (.inl rfl)) hgroups hd hunlinked hdue
                  ⟨rfl, rfl, rfl, rfl⟩ (by rw [if_pos hneed, ht])
            | false =>
                simp only [Bool.not_false, Bool.true_and, if_true]
                refine meets_bind ((St.buildTree_meets hd₁).mono (fun _ h => h) ?_) ?_
                · rintro f (⟨a, rfl, ha⟩ | ⟨rfl, hfalse⟩)
                  · exact .build hd hunlinked (by rw [← href.newTree_eq, ha])
                  · simp [hneed] at hfalse
                · rintro s₂ ⟨t, ht, rfl⟩
                  rw [href.newTree_eq] at ht
                  have href₂ := href.set hj hd
                    (.rebuilt iter s₁.cov.nConfigs rfl hunlinked hneed ht)
                  rw [St.dat_eq (by rw [St.setDat, List.getElem?_set_self
                    (List.getElem?_eq_some_iff.mp hd₁).1]), lift_ok, ok_bind]
                  simp only [Bool.false_and, Bool.false_eq_true, if_false, ok_bind]
                  exact FinishedTo.print href₂ hgroups hd hunlinked hdue ⟨rfl, rfl, rfl, rfl⟩
                    (by rw [if_pos hneed, ht])
      · simp only [Classical.not_imp, Bool.not_eq_true] at hne
        exact .ignored hd hunlinked hne.1 hne.2

/-- The position a loop over all positions of a list is at. -/
theorem notMem_of_range_eq {α : Type} {l : List α} {done rest : List ℕ} {j : ℕ}
    (h : List.range l.length = done ++ j :: rest) : j ∉ done ∧ ∃ a, l[j]? = some a := by
  have hnodup := List.nodup_range (n := l.length)
  rw [h] at hnodup
  have hlt : j < l.length := List.mem_range.mp (by rw [h]; simp)
  exact ⟨fun hmem => List.disjoint_of_nodup_append hnodup hmem (List.mem_cons_self ..),
    _, List.getElem?_eq_getElem hlt⟩

/-- What a call of `finish_alg` leaves behind.  The store, the queues and the counters of the
schedule are not touched, and the groups are described in terms of the state before. -/
structure Finished (env : Env Name Hash) (buildTreeTemp : Bool) (s : St Name Hash) (iter : ℕ)
    (s' : St Name Hash) : Prop where
  state : s' = { s with vLocData := s'.vLocData, reports := s'.reports }
  length : s'.vLocData.length = s.vLocData.length
  dat : ∀ (j : ℕ) (d : LocData), s.vLocData[j]? = some d →
    ∃ d', s'.vLocData[j]? = some d' ∧ Refreshed env buildTreeTemp s d d'
  reports : ∃ groups, s'.reports = s.reports ++ [{
      iter, nConfigs := s.cov.nConfigs, nLocs := s.cov.nLocs, nUniq := s.vUniq.length, groups }] ∧
    List.Forall₂ (GroupOf env s) (s.unlinkedOf (List.range s.vLocData.length)) groups

omit [DecidableEq Name] [DecidableEq Hash] in
/-- **`finish_alg`.** -/
theorem St.finishAlg_meets (s : St Name Hash) (iter : ℕ) (buildTreeTemp : Bool) :
    Meets (s.finishAlg env iter buildTreeTemp) (Finished env buildTreeTemp s iter)
      (FinishCulprit env s) := by
  rw [finishAlg]
  refine meets_bind (meets_foldlM (FinishedTo env buildTreeTemp s)
    (List.range s.vLocData.length) ?_ ⟨.refl _ s, .nil⟩) ?_
  · intro done j rest p hsplit hp
    obtain ⟨hj, d, hd⟩ := notMem_of_range_eq hsplit
    exact hp.step hj hd iter
  · rintro ⟨s₁, groups⟩ ⟨href, hgroups⟩
    dsimp only at href hgroups
    have hstate := href.state
    exact ⟨by rw [hstate], href.length, href.dat_all, groups, by rw [hstate], hgroups⟩

/-! ## Behind the loop -/

/-- The block of `run_alg` behind its loop: all records are prepared and built when
there are none. -/
inductive PreparedFinal (env : Env Name Hash) (s s' : St Name Hash) : Prop
  | same (h : s.vLocData ≠ []) (state : s' = s)
  | fresh {s₁ : St Name Hash} {new : List ℕ} (h : s.vLocData = [])
      (prepare : s.prepareVecLocData env = .ok (s₁, new))
      (refreshed : RefreshedTo env false s₁ (List.range s₁.vLocData.length) s')

omit [DecidableEq Name] in
theorem PreparedFinal.reports {s s' : St Name Hash} (h : PreparedFinal env s s') :
    s'.reports = s.reports := by
  cases h with
  | same _ hstate => rw [hstate]
  | fresh _ hprep href =>
      obtain ⟨p, -, heq⟩ := bind_eq_ok.mp hprep
      cases heq
      rw [href.state]

/-- Why that block dies. -/
inductive PrepareCulprit (env : Env Name Hash) (s : St Name Hash) : Fault → Prop
  | prepare {a : Abort} (prepare : s.prepareVecLocData env = .error a) :
      PrepareCulprit env s (.lower a)
  | build {s₁ : St Name Hash} {new : List ℕ} {j : ℕ} {d : LocData} {a : Abort}
      (prepare : s.prepareVecLocData env = .ok (s₁, new)) (dat : s₁.vLocData[j]? = some d)
      (tree : s₁.newTree env d.loc = .error a) : PrepareCulprit env s (.lower a)

omit [DecidableEq Name] in
theorem PrepareCulprit.isLower {s : St Name Hash} {f : Fault} (h : PrepareCulprit env s f) :
    f.IsLower := by
  cases h <;> exact Fault.isLower _

omit [DecidableEq Name] in
theorem St.prepareFinal_meets (s : St Name Hash) :
    Meets (s.prepareFinal env) (PreparedFinal env s) (PrepareCulprit env s) := by
  rw [prepareFinal]
  split
  · next hnil =>
      refine meets_lift_bind_of_eq (fun a ha => .prepare ha) fun r hr => ?_
      obtain ⟨s₁, new⟩ := r
      refine (meets_foldlM (fun done s' => RefreshedTo env false s₁ done s')
        (List.range s₁.vLocData.length) ?_ (.refl _ s₁)).imp fun s' hs' =>
          .fresh (List.isEmpty_iff.mp hnil) hr hs'
      intro done j rest s₂ hsplit href
      obtain ⟨hj, d, hd⟩ := notMem_of_range_eq hsplit
      have hd₂ := href.getElem?_of_notMem hj hd
      rw [dat_eq hd₂, lift_ok, ok_bind]
      split
      · next hdue =>
          rw [Bool.and_eq_true, Bool.not_eq_true'] at hdue
          refine (buildTree_meets hd₂).mono ?_ ?_
          · rintro s₃ ⟨t, ht, rfl⟩
            rw [href.newTree_eq] at ht
            exact href.set hj hd (.rebuilt _ _ rfl hdue.1 hdue.2 ht)
          · rintro f (⟨a, rfl, ha⟩ | ⟨-, hfalse⟩)
            · exact .build hr hd (by rw [← href.newTree_eq, ha])
            · simp [hdue.2] at hfalse
      · next hdue =>
          refine href.skip hj hd (.inr ?_)
          cases hl : d.linked <;> simp_all
  · next hne => exact .same (fun hnil => hne (List.isEmpty_iff.mpr hnil)) rfl

end Finish

end GenTree

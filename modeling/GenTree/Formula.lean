import GenTree.BuildTree

/-!
# Formulas of trees

The two extraction strategies are independent recursions.  `build_zexpr_mixed`
nests: a child contributes its test, conjoined with its own formula when it is an
inner node, and children that are leaves without hits are left out.
`build_zexpr_disj_conj` goes down every path with the conjunction of the tests so
far and collects it at the leaves with hits.

Both loops over the children of a node say the same thing, `Picks`: the
assignment selects one of the remaining children, and that child evaluates to
`true`.  The theorem about each strategy is an induction over the well-formed
node with an inner induction over the children.
-/

namespace GenTree

open Outcome

namespace CNode

/-! ## One node -/

/-- The value of `x` selects one of the children, which stand for the values from
`val` on, and this child evaluates to `true`. -/
def Picks (d : Bool) (a : ℕ → ℕ) (x val : ℕ) (kids : List CNode) : Prop :=
  ∃ j k, kids[j]? = some k ∧ a x = val + j ∧ (k.shape d).eval a = some true

section Picks

variable {d : Bool} {a : ℕ → ℕ} {x val : ℕ}

@[simp] theorem not_picks_nil : ¬ Picks d a x val [] := by
  rintro ⟨j, k, hk, -⟩
  simp at hk

theorem picks_cons {k : CNode} {ks : List CNode} : Picks d a x val (k :: ks) ↔
    (a x = val ∧ (k.shape d).eval a = some true) ∨ Picks d a x (val + 1) ks := by
  constructor
  · rintro ⟨j, k', hk', hval, heval⟩
    cases j with
    | zero =>
        obtain rfl : k = k' := by simpa using hk'
        exact .inl ⟨hval, heval⟩
    | succ j => exact .inr ⟨j, k', by simpa using hk', by omega, heval⟩
  · rintro (⟨hval, heval⟩ | ⟨j, k', hk', hval, heval⟩)
    · exact ⟨0, k, rfl, hval, heval⟩
    · exact ⟨j + 1, k', by simpa using hk', by omega, heval⟩

/-- A node evaluates to `true` when a child is picked. -/
theorem eval_node_iff {nd : NodeData} {kids : List CNode} (hleaf : nd.isLeaf = false)
    (hvar : nd.splitvar = x) :
    ((mk nd kids).shape d).eval a = some true ↔ Picks d a x 0 kids := by
  rw [shape_node hleaf hvar, DTree.eval_node, List.getElem?_map]
  constructor
  · intro h
    cases hk : kids[a x]? with
    | none => simp [hk] at h
    | some k => exact ⟨a x, k, hk, by omega, by simpa [hk] using h⟩
  · rintro ⟨j, k, hk, hval, heval⟩
    rw [hval, Nat.zero_add, hk]
    exact heval

end Picks

/-! ## FreeMix -/

section Mixed

variable {dom : Domain} {d : Bool} {depth : ℕ}

/-- The formula of a clause list under construction, where `none` is the empty
disjunction. -/
def satClauses (a : ℕ → ℕ) : Option ZExpr → Bool
  | none => false
  | some e => e.sat a

@[simp] theorem satClauses_orElse (a : ℕ → ℕ) (res : Option ZExpr) (e : ZExpr) :
    satClauses a (some (orElse res e)) = (satClauses a res || e.sat a) := by
  cases res <;> simp [orElse, satClauses]

/-- `e` is the formula of the node `k`. -/
def FormulaOf (d : Bool) (k : CNode) (e : ZExpr) : Prop :=
  ∀ a : ℕ → ℕ, e.sat a = true ↔ (k.shape d).eval a = some true

/-- The loop over the children: it adds the picked child to the clauses, and the
result is empty only when all children are leaves without hits. -/
theorem mixedChilds_spec {splitvar : ℕ} {kids : List CNode}
    (hkids : ∀ k ∈ kids, ∃ e, buildZexprMixed dom d k = .ok e ∧ FormulaOf d k e) (val : ℕ)
    (res : Option ZExpr) :
    ∃ res', mixedChilds dom d splitvar kids val res = .ok res' ∧
      (res' = none → res = none ∧ ∀ k ∈ kids, k.shape d = .leaf false) ∧
      ∀ a, satClauses a res' = true ↔ satClauses a res = true ∨ Picks d a splitvar val kids := by
  induction kids generalizing val res with
  | nil => exact ⟨res, by rw [mixedChilds], fun h => ⟨h, by simp⟩, fun a => by simp⟩
  | cons k ks ih =>
      have hks : ∀ k ∈ ks, ∃ e, buildZexprMixed dom d k = .ok e ∧ FormulaOf d k e :=
        fun k' hk' => hkids k' (List.mem_cons_of_mem _ hk')
      obtain ⟨e, hbuild, hform⟩ := hkids k (List.mem_cons_self ..)
      cases k with
      | mk nd kids' =>
          cases hleaf : nd.isLeaf with
          | true =>
              have hshape : (mk nd kids').shape d = .leaf (nd.leafValue d) := shape_leaf hleaf
              cases hvalue : nd.leafValue d with
              | true =>
                  obtain ⟨res', hrun, hnone, hsat⟩ := ih hks (val + 1)
                    (some (orElse res (.eq splitvar val)))
                  refine ⟨res', ?_, fun h => ?_, fun a => ?_⟩
                  · rw [mixedChilds, if_pos hleaf, if_pos hvalue, hrun]
                  · cases (hnone h).1
                  · rw [hsat, picks_cons, hshape, hvalue]
                    simp [or_assoc]
              | false =>
                  obtain ⟨res', hrun, hnone, hsat⟩ := ih hks (val + 1) res
                  refine ⟨res', ?_, fun h => ⟨(hnone h).1, ?_⟩, fun a => ?_⟩
                  · rw [mixedChilds, if_pos hleaf, if_neg (by simp [hvalue]), hrun]
                  · simpa [hshape, hvalue] using (hnone h).2
                  · rw [hsat, picks_cons, hshape, hvalue]
                    simp
          | false =>
              obtain ⟨res', hrun, hnone, hsat⟩ := ih hks (val + 1)
                (some (orElse res (.and (.eq splitvar val) e)))
              refine ⟨res', ?_, fun h => ?_, fun a => ?_⟩
              · rw [mixedChilds, if_neg (by simp [hleaf]), hbuild, ok_bind, hrun]
              · cases (hnone h).1
              · rw [hsat, picks_cons, ← hform a]
                simp [or_assoc]

/-- **FreeMix.**  On a productive tree the `CHECK` of `build_zexpr_mixed` does not
fire, and the formula is that of the tree. -/
theorem Wf.buildZexprMixed {t : CNode} (h : t.Wf dom depth) (hprod : (t.shape d).Productive) :
    ∃ e, t.buildZexprMixed dom d = .ok e ∧ FormulaOf d t e := by
  induction h with
  | @leaf depth nd hleaf _ =>
      refine ⟨.zbool (nd.leafValue d), ?_, fun a => ?_⟩
      · rw [CNode.buildZexprMixed, if_pos hleaf]
      · rw [shape_leaf hleaf]
        simp
  | @node depth nd kids var hleaf _ hvar _ hlen _ ih =>
      have hcheck : nd.splitvar ≠ -1 ∧ kids.length = dom.nValues nd.splitvar.toNat := by
        rw [hvar, Int.toNat_natCast]
        exact ⟨by omega, hlen⟩
      rw [shape_node hleaf hvar] at hprod
      cases hprod with
      | node hsome hkid =>
          have hkids : ∀ k ∈ kids, ∃ e, CNode.buildZexprMixed dom d k = .ok e ∧ FormulaOf d k e :=
            fun k hk => ih k hk (hkid _ (List.mem_map_of_mem hk))
          obtain ⟨res, hrun, hnone, hsat⟩ := mixedChilds_spec hkids 0 none
          cases res with
          | none =>
              obtain ⟨k, hk, hne⟩ := hsome
              obtain ⟨k', hk', rfl⟩ := List.mem_map.mp hk
              exact absurd ((hnone rfl).2 k' hk') hne
          | some e =>
              refine ⟨e, ?_, fun a => ?_⟩
              · rw [CNode.buildZexprMixed, if_neg (by simp [hleaf]), check_pos hcheck, ok_bind,
                  hvar, Int.toNat_natCast, hrun, ok_bind]
              · rw [eval_node_iff hleaf hvar]
                simpa [satClauses] using hsat a

end Mixed

/-! ## DisjOfConj -/

section DisjConj

variable {dom : Domain} {d : Bool} {depth : ℕ}

/-- The loop over the children: one of the conjunctions holds exactly when the
conjunction so far holds and a child is picked. -/
theorem disjConjChilds_iff {nd : NodeData} {x : ℕ} (hvar : nd.splitvar = x) {a : ℕ → ℕ}
    {kids : List CNode} (hkids : ∀ k ∈ kids, ∀ cur, (k.buildZexprDisjConj d cur).any (ZExpr.sat a) =
      true ↔ cur.sat a = true ∧ (k.shape d).eval a = some true)
    (val : ℕ) (cur : ZExpr) (hcur : nd.depth = 0 → cur.sat a = true) :
    (disjConjChilds d nd kids val cur).any (ZExpr.sat a) = true ↔
      cur.sat a = true ∧ Picks d a x val kids := by
  induction kids generalizing val with
  | nil => simp [disjConjChilds]
  | cons k ks ih =>
      have hks := ih (fun k' hk' => hkids k' (List.mem_cons_of_mem _ hk')) (val + 1)
      rw [disjConjChilds, List.any_append, Bool.or_eq_true, hks,
        hkids k (List.mem_cons_self ..), picks_cons, hvar, Int.toNat_natCast]
      split
      · next hzero => simp [hcur hzero]
      · simp only [ZExpr.sat_and, ZExpr.sat_eq, Bool.and_eq_true, beq_iff_eq]
        tauto

/-- **DisjOfConj.**  One of the conjunctions holds exactly when the conjunction
passed in holds and the tree evaluates to `true`. -/
theorem Wf.buildZexprDisjConj {t : CNode} (h : t.Wf dom depth) (a : ℕ → ℕ) (cur : ZExpr)
    (hcur : depth = 0 → cur.sat a = true) :
    (t.buildZexprDisjConj d cur).any (ZExpr.sat a) = true ↔
      cur.sat a = true ∧ (t.shape d).eval a = some true := by
  induction h generalizing cur with
  | @leaf depth nd hleaf _ =>
      rw [CNode.buildZexprDisjConj, shape_leaf hleaf]
      cases hvalue : nd.leafValue d <;> simp [hleaf, disjConjChilds]
  | @node depth nd kids var hleaf hdepth hvar _ _ _ ih =>
      rw [CNode.buildZexprDisjConj, if_neg (by simp [hleaf]), eval_node_iff hleaf hvar]
      refine disjConjChilds_iff hvar (fun k hk cur => ih k hk cur ?_) 0 cur ?_
      · intro hzero
        omega
      · rw [hdepth]
        exact hcur

end DisjConj

end CNode

/-! ## Trees grown from configurations -/

/-- A tree that fits its configurations is productive. -/
theorem CTree.Fits.productive {dom : Domain} {vecs : Vecs} {tree : CTree} {root : CNode}
    (h : tree.Fits dom vecs root) (hc : ∀ c ∈ vecs.hit, c.Complete dom) (d : Bool) :
    (root.shape d).Productive := by
  rw [h.shape]
  refine h.grown.productive (fun c hmem var hpos => ?_) fun l hl => by simp [leafLabel, hl]
  exact (hc c hmem).val_lt (Domain.lt_nVars_of_nValues_pos hpos)

/-- The formulas of a tree that fits its configurations, under both
strategies. -/
theorem CTree.Fits.buildZexpr {dom : Domain} {vecs : Vecs} {tree : CTree} {root : CNode}
    (h : tree.Fits dom vecs root) (hc : ∀ c ∈ vecs.hit, c.Complete dom) (strat : ExprStrat) :
    ∃ e, tree.buildZexpr dom strat = .ok e ∧ CNode.FormulaOf tree.defaultHit root e := by
  cases strat with
  | freeMix =>
      obtain ⟨e, hbuild, hform⟩ := h.wf.buildZexprMixed (h.productive hc tree.defaultHit)
      refine ⟨e, ?_, hform⟩
      rw [CTree.buildZexpr, rootNode, h.root_eq, ok_bind]
      exact hbuild
  | disjOfConj =>
      refine ⟨_, by rw [CTree.buildZexpr, rootNode, h.root_eq, ok_bind], fun a => ?_⟩
      rw [ZExpr.sat_mkOr, h.wf.buildZexprDisjConj a .ztrue fun _ => ZExpr.sat_ztrue a]
      simp

/-- **Formula extraction preserves meaning.**  For a tree that `build_tree` has
grown from complete configurations, both formulas are built, and a complete
configuration satisfies either of them exactly when `test_config` returns
`true`. -/
theorem CTree.buildZexpr_iff_testConfig {dom : Domain} {select : Selector} {tree tree' : CTree}
    (hc : ∀ s, ∀ c ∈ tree.configs.get s, c.Complete dom)
    (hbuild : tree.buildTree dom select = .ok tree') :
    ∃ mixed disj, tree'.buildZexpr dom .freeMix = .ok mixed ∧
      tree'.buildZexpr dom .disjOfConj = .ok disj ∧
      ∀ c : Config, c.Complete dom → ∃ b n, tree'.testConfig c = .ok (b, n) ∧
        mixed.sat c.val = b ∧ disj.sat c.val = b := by
  obtain ⟨⟨root, hfits⟩, -, -⟩ := (buildTree_meets select hc).of_eq_ok hbuild
  obtain ⟨mixed, hmixed, hmixedSat⟩ := hfits.buildZexpr (hc true) .freeMix
  obtain ⟨disj, hdisj, hdisjSat⟩ := hfits.buildZexpr (hc true) .disjOfConj
  refine ⟨mixed, disj, hmixed, hdisj, fun c hcomp => ?_⟩
  obtain ⟨b, n, htest, heval⟩ := hfits.wf.testConfig hcomp tree'.defaultHit
  refine ⟨b, n, by rw [hfits.testConfig_eq, htest], ?_, ?_⟩
  · rw [Bool.eq_iff_iff, hmixedSat, heval, Option.some.injEq]
  · rw [Bool.eq_iff_iff, hdisjSat, heval, Option.some.injEq]

/-- Exclusive or over two switches. -/
theorem CTree.buildZexpr_iff_testConfig_xor :
    let dom := Domain.switches 2 (by decide)
    let tree : CTree := { configs := ⟨[{ values := [0, 0] }, { values := [1, 1] }],
      [{ values := [0, 1] }, { values := [1, 0] }]⟩ }
    ∃ tree', tree.buildTree dom .firstUntested = .ok tree' ∧
      ∃ mixed disj, tree'.buildZexpr dom .freeMix = .ok mixed ∧
        tree'.buildZexpr dom .disjOfConj = .ok disj ∧
        ∀ c : Config, c.Complete dom → ∃ b n, tree'.testConfig c = .ok (b, n) ∧
          mixed.sat c.val = b ∧ disj.sat c.val = b :=
  ⟨_, rfl, @buildZexpr_iff_testConfig _ .firstUntested { configs :=
    ⟨[{ values := [0, 0] }, { values := [1, 1] }], [{ values := [0, 1] }, { values := [1, 0] }]⟩ }
    _ (by decide) rfl⟩

end GenTree

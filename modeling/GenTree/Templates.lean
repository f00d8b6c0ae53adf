import GenTree.Leaves
import GenTree.AllConfigs

/-!
# Templates of leaves

Two traversals describe the region of a leaf.  `gather_small_leaves` goes down:
it writes the value of each child into a template that all calls share, and
erases it afterwards.  `gen_tpl` goes up: it follows the parent pointers of a
leaf and reads the values off the child numbers.

Both give `pathTpl`, the tests on the way from the root in order.  The regions
of the leaves of a grown tree are disjoint and exhaust the configurations, and
the leaf whose region holds a configuration is the one `test_config` walks to.
-/

namespace GenTree

open Outcome

/-! ## The template of a node -/

/-- The values on the way from the root to a node with the ancestors `parents`.  Each ancestor
contributes the number of the child below it, as the value of the option it tests. -/
def pathTpl (dom : Domain) : NodeData → List NodeData → List ℤ
  | _, [] => List.replicate dom.nVars (-1)
  | nd, p :: ps => (pathTpl dom p ps).set p.splitvar.toNat nd.id
  termination_by structural _ parents => parents

/-- The template that the tests on the way to a node describe. -/
def NodeRef.tpl (dom : Domain) (r : NodeRef) : Config :=
  { values := pathTpl dom r.node.data r.parents }

/-- The configuration `c` **matches** a template: it has its values wherever the
template has one. -/
def Config.Matches (dom : Domain) (templ c : Config) : Prop :=
  ∀ var < dom.nVars, templ.values[var]? = some (-1) ∨ templ.values[var]? = c.values[var]?

instance (dom : Domain) (templ c : Config) : Decidable (templ.Matches dom c) :=
  inferInstanceAs (Decidable (∀ var < dom.nVars, _ ∨ _))

/-- The template of the node matches the configuration. -/
def NodeRef.holds (dom : Domain) (c : Config) (r : NodeRef) : Bool :=
  decide ((r.tpl dom).Matches dom c)

/-- The node hangs below the inner nodes `parents`, which test the options
`seen`.  No option is tested twice on a way: otherwise the value an ancestor has written would
be overwritten below it, and erased on the way back. -/
inductive Below (dom : Domain) : Set ℕ → NodeData → List NodeData → Prop
  | root (nd : NodeData) : Below dom ∅ nd []
  | kid {seen : Set ℕ} {nd p : NodeData} {ps : List NodeData} {var : ℕ} (above : Below dom seen p ps)
      (isLeaf : p.isLeaf = false) (splitvar : p.splitvar = var) (lt : var < dom.nVars)
      (fresh : var ∉ seen) (id : nd.id < dom.nValues var) :
      Below dom (insert var seen) nd (p :: ps)

namespace Below

variable {dom : Domain} {seen : Set ℕ} {nd : NodeData} {parents : List NodeData}

theorem pathTpl_kid {p : NodeData} {var : ℕ} (h : p.splitvar = var) (nd : NodeData)
    (ps : List NodeData) : pathTpl dom nd (p :: ps) = (pathTpl dom p ps).set var nd.id := by
  rw [pathTpl, h, Int.toNat_natCast]

theorem length_pathTpl (h : Below dom seen nd parents) :
    (pathTpl dom nd parents).length = dom.nVars := by
  induction h with
  | root nd => rw [pathTpl, List.length_replicate]
  | kid _ _ hvar _ _ _ ih => rw [pathTpl_kid hvar, List.length_set, ih]

/-- An option no ancestor tests is open. -/
theorem getElem?_open (h : Below dom seen nd parents) {var : ℕ} (hlt : var < dom.nVars)
    (hvar : var ∉ seen) : (pathTpl dom nd parents)[var]? = some (-1) := by
  induction h with
  | root nd => rw [pathTpl, List.getElem?_replicate, if_pos hlt]
  | kid _ _ hsplit _ _ _ ih =>
      rw [Set.mem_insert_iff, not_or] at hvar
      rw [pathTpl_kid hsplit, List.getElem?_set_ne (Ne.symm hvar.1), ih hvar.2]

/-- The values of the template are values of their options. -/
theorem bounds (h : Below dom seen nd parents) {var : ℕ} {v : ℤ}
    (hv : (pathTpl dom nd parents)[var]? = some v) :
    v = -1 ∨ var ∈ seen ∧ 0 ≤ v ∧ v < dom.nValues var := by
  induction h generalizing v with
  | root nd =>
      rw [pathTpl, List.getElem?_replicate] at hv
      split at hv
      · exact .inl (Option.some.inj hv).symm
      · cases hv
  | @kid seen nd p ps var' above _ hsplit hlt _ hid ih =>
      rw [pathTpl_kid hsplit, List.getElem?_set, above.length_pathTpl] at hv
      split at hv
      · next heq =>
          subst heq
          cases hv
          exact .inr ⟨Set.mem_insert .., by omega, by omega⟩
      · rcases ih hv with hopen | ⟨hmem, hrange⟩
        · exact .inl hopen
        · exact .inr ⟨Set.mem_insert_of_mem _ hmem, hrange⟩

end Below

/-! ## `gen_tpl` -/

/-- The values of `tpl` where it has one, and those of `values` elsewhere.  `gen_tpl` writes
into a configuration that may have values already, and this is what becomes of it. -/
def overlay (tpl values : List ℤ) : List ℤ :=
  List.zipWith (fun t v => if t = -1 then v else t) tpl values

theorem overlay_open {n : ℕ} {values : List ℤ} (h : values.length = n) :
    overlay (List.replicate n (-1)) values = values := by
  refine List.ext_getElem? fun i => ?_
  rw [overlay, List.getElem?_zipWith, List.getElem?_replicate]
  by_cases hi : i < n
  · rw [if_pos hi, List.getElem?_eq_getElem (by omega)]
    simp
  · rw [if_neg hi, List.getElem?_eq_none (by omega)]

theorem overlay_replicate {n : ℕ} {tpl : List ℤ} (h : tpl.length = n) :
    overlay tpl (List.replicate n (-1)) = tpl := by
  refine List.ext_getElem? fun i => ?_
  rw [overlay, List.getElem?_zipWith, List.getElem?_replicate]
  by_cases hi : i < n
  · rw [if_pos hi, List.getElem?_eq_getElem (by omega)]
    split <;> simp_all
  · rw [if_neg hi, List.getElem?_eq_none (by omega)]

/-- Writing an open option below the template or into it. -/
theorem overlay_set {tpl values : List ℤ} {var : ℕ} {v : ℤ} (hlen : tpl.length = values.length)
    (hopen : tpl[var]? = some (-1)) (hv : v ≠ -1) :
    overlay tpl (values.set var v) = overlay (tpl.set var v) values := by
  have hlt : var < tpl.length := (List.getElem?_eq_some_iff.mp hopen).1
  refine List.ext_getElem? fun i => ?_
  rw [overlay, overlay, List.getElem?_zipWith, List.getElem?_zipWith]
  by_cases hi : var = i
  · subst hi
    rw [hopen, List.getElem?_set_self (by omega), List.getElem?_set_self hlt,
      List.getElem?_eq_getElem (by omega)]
    simp [hv]
  · rw [List.getElem?_set_ne hi, List.getElem?_set_ne hi]

section Climb

variable {dom : Domain} {seen : Set ℕ} {nd : NodeData} {parents : List NodeData}

theorem Config.set_eq {c : Config} {var v : ℕ} (hlen : var < c.values.length)
    (hv : v < dom.nValues var) (hshort : v < 32768) :
    c.set dom var v = .ok { c with values := c.values.set var v } := by
  have hrange : (-1 : ℤ) ≤ v ∧ (v : ℤ) < dom.nValues var := by omega
  rw [Config.set, check_pos hrange, ok_bind, if_pos hlen, toShort_of_range (by omega) (by omega)]

/-- **`gen_tpl` climbs** to the template of its node. -/
theorem Below.genTpl_eq (h : Below dom seen nd parents)
    (hnarrow : ∀ var ∈ seen, dom.nValues var ≤ 32768) (hleaf : nd.isLeaf = true → nd.splitvar = -1)
    {conf : Config} (hconf : conf.values.length = dom.nVars) :
    genTpl dom nd parents conf =
      .ok { conf with values := overlay (pathTpl dom nd parents) conf.values } := by
  induction h generalizing conf with
  | root nd => rw [genTpl, check_pos hleaf, ok_bind, pathTpl, overlay_open hconf]
  | @kid seen nd p ps var above hinner hvar hlt hfresh hid ih =>
      have hne : (var : ℤ) ≠ -1 := by omega
      have hnarrow' := hnarrow var (Set.mem_insert ..)
      rw [genTpl, check_pos hleaf, ok_bind]
      simp only [hvar, check_pos hne, ok_bind, sizeT_natCast]
      rw [Config.set_eq (by omega) hid (by omega), ok_bind,
        ih (fun v hv => hnarrow v (Set.mem_insert_of_mem _ hv)) (fun h => by rw [hinner] at h; cases h)
          (by rw [List.length_set, hconf]),
        overlay_set (by rw [above.length_pathTpl, hconf]) (above.getElem?_open hlt hfresh) (by omega),
        pathTpl_kid hvar]

end Climb

/-! ## `gather_small_leaves` -/

namespace CNode

/-- Some inner node of the tree tests the option `var`. -/
inductive Tests (var : ℕ) : CNode → Prop
  | here {nd : NodeData} {kids : List CNode} (isLeaf : nd.isLeaf = false)
      (splitvar : nd.splitvar = var) : Tests var (.mk nd kids)
  | kid {nd : NodeData} {kids : List CNode} {k : CNode} (mem : k ∈ kids) (tests : Tests var k) :
      Tests var (.mk nd kids)

section Descend

variable {dom : Domain} {n : ℕ} {seen : Set ℕ} {t : CNode}

/-- Copying a template. -/
theorem copy_eq {nd : NodeData} {parents : List NodeData} (h : Below dom seen nd parents)
    (hnarrow : ∀ var ∈ seen, dom.nValues var ≤ 32768) :
    Config.ofValues dom (pathTpl dom nd parents) = .ok { values := pathTpl dom nd parents } := by
  have hrun := @setFrom_eq dom (Config.new dom) [] (List.replicate dom.nVars 0)
    (pathTpl dom nd parents) rfl (by rw [List.length_replicate, h.length_pathTpl]) fun i v hv => by
      rw [List.length_nil, Nat.zero_add]
      have hlt : i < dom.nVars := by
        rw [← h.length_pathTpl]
        exact (List.getElem?_eq_some_iff.mp hv).1
      have hpos := dom.nValues_pos hlt
      rcases h.bounds hv with rfl | ⟨hmem, hrange⟩
      · omega
      · have := hnarrow i hmem
        omega
  rw [Config.ofValues, Config.setAll, check_pos h.length_pathTpl, ok_bind]
  exact hrun

/-- The children of a node hang below it. -/
theorem Grown.below_kid {nd : NodeData} {kids : List CNode} {var : ℕ} {parents : List NodeData}
    (h : Below dom seen nd parents) (hleaf : nd.isLeaf = false) (hvar : nd.splitvar = var)
    (hlt : var < dom.nVars) (hfresh : var ∉ seen) (hlen : kids.length = dom.nValues var)
    (hid : ∀ (i : ℕ) (k : CNode), kids[i]? = some k → k.data.id = i) {k : CNode} (hk : k ∈ kids) :
    Below dom (insert var seen) k.data (nd :: parents) := by
  obtain ⟨i, hi⟩ := List.mem_iff_getElem?.mp hk
  refine .kid h hleaf hvar hlt hfresh ?_
  rw [hid i k hi, ← hlen]
  exact (List.getElem?_eq_some_iff.mp hi).1

/-- The loop over the children: each of them writes its value into the template,
which is open again when the child has been visited. -/
theorem smallLeavesChilds_eq {minConfs maxConfs : ℤ} {nd : NodeData} {var : ℕ}
    {parents : List NodeData} (hbelow : Below dom seen nd parents) (hvar : nd.splitvar = var)
    (hlt : var < dom.nVars) (hfresh : var ∉ seen) (hnarrow : dom.nValues var ≤ 32768)
    {kids : List CNode} {v : ℕ} (hcount : v + kids.length ≤ dom.nValues var)
    (hid : ∀ (i : ℕ) (k : CNode), kids[i]? = some k → k.data.id = v + i)
    (hkid : ∀ k ∈ kids, ∀ res,
      gatherSmallLeaves dom minConfs maxConfs k
          ({ values := pathTpl dom k.data (nd :: parents) }, res) =
        .ok ({ values := pathTpl dom k.data (nd :: parents) }, res ++
          ((k.leafRefs (nd :: parents)).filter (InCases minConfs maxConfs)).map (NodeRef.tpl dom)))
    (res : List Config) :
    smallLeavesChilds dom minConfs maxConfs var v kids
        ({ values := pathTpl dom nd parents }, res) =
      .ok ({ values := pathTpl dom nd parents }, res ++
        ((kids.flatMap (leafRefs (nd :: parents))).filter (InCases minConfs maxConfs)).map
          (NodeRef.tpl dom)) := by
  induction kids generalizing v res with
  | nil => simp [smallLeavesChilds]
  | cons k ks ih =>
      have hopen := hbelow.getElem?_open hlt hfresh
      have hfirst : k.data.id = v := by simpa using hid 0 k rfl
      have hlen := hbelow.length_pathTpl
      rw [List.length_cons] at hcount
      have htpl : (pathTpl dom nd parents).set var (v : ℤ) = pathTpl dom k.data (nd :: parents) := by
        rw [Below.pathTpl_kid hvar, hfirst]
      have hclose : (pathTpl dom k.data (nd :: parents)).set var (-1) = pathTpl dom nd parents := by
        rw [← htpl, List.set_set, List.set_of_getElem? hopen]
      have hreset : Config.set dom { values := pathTpl dom k.data (nd :: parents) } var (-1) =
          .ok { values := pathTpl dom nd parents } := by
        have hrange : (-1 : ℤ) ≤ -1 ∧ (-1 : ℤ) < dom.nValues var := by omega
        rw [Config.set, check_pos hrange, ok_bind, if_pos, toShort_of_range (by omega) (by omega),
          hclose]
        rw [← htpl, List.length_set, hlen]
        exact hlt
      have hget : Config.get { values := pathTpl dom nd parents } var = .ok (-1) :=
        vecAt_of_getElem? hopen
      rw [smallLeavesChilds, hget, ok_bind, check_pos rfl, ok_bind,
        Config.set_eq (by simpa [hlen] using hlt) (by omega) (by omega), ok_bind, htpl,
        hkid k (List.mem_cons_self ..), ok_bind]
      simp only [hreset, ok_bind]
      rw [ih (by omega) (fun i k' hk' => by rw [hid (i + 1) k' (by simpa using hk')]; omega)
          fun k' hk' => hkid k' (List.mem_cons_of_mem _ hk')]
      simp

/-- **`gather_small_leaves` descends** with the template of its node, and returns the
templates of the leaves in the interval. -/
theorem Grown.gatherSmallLeaves_eq (h : t.Grown dom n seen) (minConfs maxConfs : ℤ)
    {parents : List NodeData} (hbelow : Below dom seen t.data parents)
    (hseen : ∀ var ∈ seen, dom.nValues var ≤ 32768)
    (htests : ∀ var, t.Tests var → dom.nValues var ≤ 32768) (res : List Config) :
    gatherSmallLeaves dom minConfs maxConfs t ({ values := pathTpl dom t.data parents }, res) =
      .ok ({ values := pathTpl dom t.data parents }, res ++
        ((t.leafRefs parents).filter (InCases minConfs maxConfs)).map (NodeRef.tpl dom)) := by
  induction h generalizing parents res with
  | @leaf seen nd hleaf _ _ _ =>
      rw [data_mk] at hbelow
      rw [gatherSmallLeaves, if_pos hleaf, leafRefs_leaf hleaf, data_mk]
      split
      · next hin =>
          have hmem : InCases minConfs maxConfs ⟨.mk nd [], parents⟩ = true := decide_eq_true hin
          rw [copy_eq hbelow hseen, ok_bind, List.filter_cons_of_pos hmem]
          rfl
      · next hout =>
          have hmem : ¬ InCases minConfs maxConfs ⟨.mk nd [], parents⟩ = true :=
            decide_eq_true_iff.not.mpr hout
          rw [List.filter_cons_of_neg hmem]
          simp
  | @node seen nd kids var hleaf hvar hlt hfresh hlen hid _ _ ih =>
      have hne : (var : ℤ) ≠ -1 := by omega
      have hnarrow := htests var (.here hleaf hvar)
      rw [data_mk] at hbelow ⊢
      rw [gatherSmallLeaves, if_neg (by simp [hleaf]), hvar, check_pos hne, ok_bind, sizeT_natCast,
        ok_bind, leafRefs_node hleaf]
      refine smallLeavesChilds_eq hbelow hvar hlt hfresh hnarrow (by omega)
        (fun i k hk => by rw [hid i k hk, Nat.zero_add]) (fun k hk res => ?_) res
      refine ih k hk (Grown.below_kid hbelow hleaf hvar hlt hfresh hlen hid hk) ?_
        (fun v hv => htests v (.kid hk hv)) res
      intro v hv
      rcases Set.mem_insert_iff.mp hv with rfl | hmem
      · exact hnarrow
      · exact hseen v hmem

end Descend

end CNode

/-! ## The regions of the leaves -/

/-- The pointer to the leaf at a position. -/
def CNode.refAt : List NodeData → CNode → List ℕ → Option NodeRef
  | parents, t, [] => if t.data.isLeaf then some ⟨t, parents⟩ else none
  | parents, t, i :: pos =>
      if t.data.isLeaf then none
      else t.childs[i]?.bind fun k => refAt (t.data :: parents) k pos
  termination_by structural _ _ pos => pos

/-- Only one entry contributes. -/
theorem flatMap_eq_of_unique {α β : Type*} {l : List α} {f : α → List β} {i : ℕ} {a : α}
    (hi : l[i]? = some a) (h : ∀ (j : ℕ) (b : α), l[j]? = some b → j ≠ i → f b = []) :
    l.flatMap f = f a := by
  obtain ⟨hlt, rfl⟩ := List.getElem?_eq_some_iff.mp hi
  have hbefore : (l.take i).flatMap f = [] := by
    refine List.flatMap_eq_nil_iff.mpr fun b hb => ?_
    obtain ⟨j, hj⟩ := List.mem_iff_getElem?.mp hb
    rw [List.getElem?_take] at hj
    split at hj
    · exact h j b hj (by omega)
    · cases hj
  have hafter : (l.drop (i + 1)).flatMap f = [] := by
    refine List.flatMap_eq_nil_iff.mpr fun b hb => ?_
    obtain ⟨j, hj⟩ := List.mem_iff_getElem?.mp hb
    rw [List.getElem?_drop] at hj
    exact h _ b hj (by omega)
  calc l.flatMap f
      = (l.take i ++ l.drop i).flatMap f := by rw [List.take_append_drop]
    _ = (l.take i).flatMap f ++ (l[i] :: l.drop (i + 1)).flatMap f := by
        rw [List.flatMap_append, List.drop_eq_getElem_cons hlt]
    _ = f l[i] := by rw [hbefore, List.nil_append, List.flatMap_cons, hafter, List.append_nil]

section Regions

variable {dom : Domain} {n : ℕ} {seen : Set ℕ} {t : CNode} {c : Config}

/-- The region of a child is the part of the region of its parent that has the
child's value. -/
theorem Below.matches_kid {nd p : NodeData} {ps : List NodeData} {var : ℕ}
    (h : Below dom seen p ps) (hvar : p.splitvar = var) (hlt : var < dom.nVars)
    (hfresh : var ∉ seen) (hc : c.Complete dom) :
    Config.Matches dom { values := pathTpl dom nd (p :: ps) } c ↔
      Config.Matches dom { values := pathTpl dom p ps } c ∧ c.val var = nd.id := by
  have hopen := h.getElem?_open hlt hfresh
  have hself : ((pathTpl dom p ps).set var (nd.id : ℤ))[var]? = some (nd.id : ℤ) :=
    List.getElem?_set_self (by rw [h.length_pathTpl]; exact hlt)
  simp only [Config.Matches, pathTpl_kid hvar]
  constructor
  · intro hmatch
    refine ⟨fun w hw => ?_, ?_⟩
    · by_cases heq : w = var
      · exact .inl (heq ▸ hopen)
      · have := hmatch w hw
        rwa [List.getElem?_set_ne (Ne.symm heq)] at this
    · have := hmatch var hlt
      rw [hself, hc.getElem? hlt] at this
      simp only [Option.some.injEq] at this
      omega
  · rintro ⟨hmatch, hval⟩ w hw
    by_cases heq : w = var
    · subst heq
      exact .inr (by rw [hself, hc.getElem? hw, hval])
    · rw [List.getElem?_set_ne (Ne.symm heq)]
      exact hmatch w hw

namespace CNode

/-- The leaves below a node whose region does not hold the configuration. -/
theorem Grown.filter_of_not_matches (h : t.Grown dom n seen) {parents : List NodeData}
    (hbelow : Below dom seen t.data parents) (hc : c.Complete dom)
    (hmatch : ¬ Config.Matches dom { values := pathTpl dom t.data parents } c) :
    (t.leafRefs parents).filter (NodeRef.holds dom c) = [] := by
  induction h generalizing parents with
  | @leaf seen nd hleaf _ _ _ =>
      have hout : ¬ NodeRef.holds dom c ⟨.mk nd [], parents⟩ = true :=
        decide_eq_true_iff.not.mpr hmatch
      rw [leafRefs_leaf hleaf, List.filter_cons_of_neg hout, List.filter_nil]
  | @node seen nd kids var hleaf hvar hlt hfresh hlen hid _ _ ih =>
      rw [leafRefs_node hleaf, List.filter_flatMap]
      refine List.flatMap_eq_nil_iff.mpr fun k hk => ?_
      refine ih k hk (Grown.below_kid hbelow hleaf hvar hlt hfresh hlen hid hk) fun hkid => ?_
      exact hmatch ((hbelow.matches_kid hvar hlt hfresh hc).mp hkid).1

/-- **The leaf whose region holds a configuration** of the region of the node is the
one that `test_config` walks to, and there is no other. -/
theorem Grown.filter_of_matches (h : t.Grown dom n seen) {parents : List NodeData}
    (hbelow : Below dom seen t.data parents) (hc : c.Complete dom)
    (hmatch : Config.Matches dom { values := pathTpl dom t.data parents } c) :
    ∃ pos r, t.leafPos c = .ok pos ∧ refAt parents t pos = some r ∧
      (t.leafRefs parents).filter (NodeRef.holds dom c) = [r] := by
  induction h generalizing parents with
  | @leaf seen nd hleaf _ _ _ =>
      refine ⟨[], ⟨.mk nd [], parents⟩, leafPos_leaf hleaf, ?_, ?_⟩
      · rw [refAt, data_mk, if_pos hleaf]
      · have hin : NodeRef.holds dom c ⟨.mk nd [], parents⟩ = true := decide_eq_true hmatch
        rw [leafRefs_leaf hleaf, List.filter_cons_of_pos hin, List.filter_nil]
  | @node seen nd kids var hleaf hvar hlt hfresh hlen hid _ hgrown ih =>
      rw [data_mk] at hbelow hmatch
      have hbranch : branch nd c = .ok (c.val var) := branch_eq hc hvar hlt
      have hval := hc.val_lt hlt
      obtain ⟨k, hk⟩ : ∃ k, kids[c.val var]? = some k :=
        ⟨_, List.getElem?_eq_getElem (by rw [hlen]; exact hval)⟩
      have hmem := List.mem_of_getElem? hk
      have hkidBelow := fun {k : CNode} (hk : k ∈ kids) =>
        Grown.below_kid hbelow hleaf hvar hlt hfresh hlen hid hk
      have hkid : Config.Matches dom { values := pathTpl dom k.data (nd :: parents) } c :=
        (hbelow.matches_kid hvar hlt hfresh hc).mpr ⟨hmatch, (hid _ k hk).symm⟩
      obtain ⟨pos, r, hpos, hat, hfilter⟩ := ih k hmem (hkidBelow hmem) hkid
      refine ⟨c.val var :: pos, r, ?_, ?_, ?_⟩
      · rw [leafPos_node hleaf, hbranch, ok_bind, vecAt_of_getElem? hk, ok_bind, hpos, ok_bind]
      · rw [refAt, data_mk, if_neg (by simp [hleaf]), childs_mk, hk, Option.bind_some]
        exact hat
      · rw [leafRefs_node hleaf, List.filter_flatMap, ← hfilter]
        refine flatMap_eq_of_unique hk fun j k' hk' hne => ?_
        have hmem' := List.mem_of_getElem? hk'
        refine (hgrown k' hmem').filter_of_not_matches (hkidBelow hmem') hc fun hkid' => hne ?_
        rw [((hbelow.matches_kid hvar hlt hfresh hc).mp hkid').2, hid j k' hk']

theorem leafAt_of_refAt {pos : List ℕ} {r : NodeRef} {parents : List NodeData}
    (h : refAt parents t pos = some r) : t.leafAt pos = some r.node.data := by
  induction pos generalizing t parents with
  | nil =>
      rw [refAt] at h
      split at h
      · next hleaf =>
          cases h
          rw [leafAt, if_pos hleaf]
      · cases h
  | cons i pos ih =>
      rw [refAt] at h
      split at h
      · cases h
      · next hleaf =>
          obtain ⟨k, hk, hr⟩ := Option.bind_eq_some_iff.mp h
          rw [leafAt, if_neg hleaf, hk, Option.bind_some, ih hr]

end CNode

end Regions

/-! ## The templates of a tree -/

namespace CNode

variable {dom : Domain} {n : ℕ} {seen : Set ℕ} {t : CNode}

/-- A leaf hangs below the nodes its pointer lists, and tests nothing. -/
theorem Grown.below_leafRef (h : t.Grown dom n seen) {parents : List NodeData}
    (hbelow : Below dom seen t.data parents)
    (hseen : ∀ var ∈ seen, dom.nValues var ≤ 32768)
    (htests : ∀ var, t.Tests var → dom.nValues var ≤ 32768) {r : NodeRef}
    (hr : r ∈ t.leafRefs parents) :
    r.node.data ∈ t.leafData ∧ r.node.data.splitvar = -1 ∧
      ∃ seen', Below dom seen' r.node.data r.parents ∧
        ∀ var ∈ seen', dom.nValues var ≤ 32768 := by
  induction h generalizing parents with
  | @leaf seen nd hleaf hsplit _ _ =>
      rw [leafRefs_leaf hleaf] at hr
      obtain rfl := List.mem_singleton.mp hr
      rw [leafData_leaf hleaf]
      exact ⟨List.mem_singleton_self _, hsplit, seen, hbelow, hseen⟩
  | @node seen nd kids var hleaf hvar hlt hfresh hlen hid _ _ ih =>
      rw [leafRefs_node hleaf] at hr
      obtain ⟨k, hk, hmem⟩ := List.mem_flatMap.mp hr
      obtain ⟨hdata, hrest⟩ := ih k hk
        (Grown.below_kid hbelow hleaf hvar hlt hfresh hlen hid hk)
        (fun v hv => by
          rcases Set.mem_insert_iff.mp hv with rfl | hin
          · exact htests v (.here hleaf hvar)
          · exact hseen v hin) (fun v hv => htests v (.kid hk hv)) hmem
      rw [leafData_node hleaf]
      exact ⟨List.mem_flatMap.mpr ⟨k, hk, hdata⟩, hrest⟩

end CNode

theorem exists_index_of_filter {α : Type*} {p : α → Bool} {l : List α} {a : α}
    (h : l.filter p = [a]) :
    ∃ i, l[i]? = some a ∧ ∀ (j : ℕ) (b : α), l[j]? = some b → (p b = true ↔ j = i) := by
  induction l with
  | nil => cases h
  | cons b bs ih =>
      rw [List.filter_cons] at h
      split at h
      · next hb =>
          -- the first entry is the one, and no other passes
          obtain ⟨rfl, hrest⟩ := List.cons.inj h
          refine ⟨0, rfl, fun j b' hj => ?_⟩
          cases j with
          | zero => exact iff_of_true (by cases hj; exact hb) rfl
          | succ j =>
              have hno := List.filter_eq_nil_iff.mp hrest b' (List.mem_of_getElem? hj)
              exact iff_of_false hno (Nat.succ_ne_zero j)
      · next hb =>
          obtain ⟨i, hi, hall⟩ := ih h
          refine ⟨i + 1, hi, fun j b' hj => ?_⟩
          cases j with
          | zero =>
              cases hj
              exact iff_of_false hb (Nat.succ_ne_zero i).symm
          | succ j => rw [hall j b' hj, Nat.add_right_cancel_iff]

namespace CTree

/-- The templates of the leaves in an interval, by both traversals.  `templ₀` is the
scratch template, with every option open. -/
structure Templated (dom : Domain) (t : CTree) (root : CNode) (minConfs maxConfs : ℤ)
    (templ₀ : Config) (leaves : List NodeRef) (templs : List Config) : Prop where
  blank : (Config.new dom).fill dom (-1) = .ok templ₀
  small : t.gatherSmallLeaves dom minConfs maxConfs = .ok templs
  scratch : GenTree.gatherSmallLeaves dom minConfs maxConfs root (templ₀, []) =
    .ok (templ₀, templs)
  nodes : t.gatherNodes [] minConfs maxConfs = .ok leaves
  climb : List.Forall₂ (fun r templ => genTpl dom r.node.data r.parents templ₀ = .ok templ)
    leaves templs

/-- The templates **partition** the complete configurations: each matches the one of
the leaf where `test_config` stops, and no other. -/
def Partition (dom : Domain) (t : CTree) (root : CNode) (leaves : List NodeRef)
    (templs : List Config) : Prop :=
  ∀ c : Config, c.Complete dom → ∃ pos r i, root.leafPos c = .ok pos ∧
    root.refAt [] pos = some r ∧
    t.testConfig c = .ok (r.node.data.leafValue t.defaultHit, r.node.data.nTotal) ∧
    leaves[i]? = some r ∧
    ∀ (j : ℕ) (templ : Config), templs[j]? = some templ → (templ.Matches dom c ↔ j = i)

variable {dom : Domain} {select : Selector} {tree t : CTree}

/-- **Leaf templates.**  On a tree from `build_tree` that tests no option with more
values than a `short` has, both traversals give the same templates in the same order
for every interval, and the templates of all leaves partition the configurations. -/
theorem gatherSmallLeaves_partition (hc : ∀ s, ∀ c ∈ tree.configs.get s, c.Complete dom)
    (hbuild : tree.buildTree dom select = .ok t)
    (hnarrow : ∀ root, t.root = some root → ∀ var, root.Tests var → dom.nValues var ≤ 32768)
    (minConfs maxConfs : ℤ) :
    ∃ root templ₀ leaves templs, t.root = some root ∧
      t.Templated dom root minConfs maxConfs templ₀ leaves templs ∧
      (minConfs ≤ 0 → (tree.configs.hit.length + tree.configs.miss.length : ℕ) ≤ maxConfs →
        t.Partition dom root leaves templs) := by
  obtain ⟨root, hroot, hgrown, hempty⟩ := buildTree_grown hc hbuild
  have htests := hnarrow root hroot
  have hnone : ∀ var ∈ (∅ : Set ℕ), dom.nValues var ≤ 32768 := fun var hvar =>
    absurd hvar (Set.notMem_empty var)
  have hsmall := hgrown.gatherSmallLeaves_eq minConfs maxConfs (.root _) hnone htests []
  rw [pathTpl, List.nil_append] at hsmall
  have hbelow := fun {r : NodeRef} (hr : r ∈ root.leafRefs []) =>
    hgrown.below_leafRef (.root _) hnone htests hr
  refine ⟨root, { values := List.replicate dom.nVars (-1) },
    (root.leafRefs []).filter (CNode.InCases minConfs maxConfs), _, hroot,
    ⟨fill_open, ?_, hsmall, ?_, ?_⟩, fun hmin hmax c hcomplete => ?_⟩
  · rw [CTree.gatherSmallLeaves, rootNode, hroot, ok_bind, fill_open, ok_bind, hsmall, ok_bind]
  · rw [gatherNodes, rootNode, hroot, ok_bind, hgrown.gatherLeavesNodes_eq, ok_bind,
      List.nil_append]
  · rw [List.forall₂_map_right_iff]
    refine List.forall₂_same.mpr fun r hr => ?_
    obtain ⟨-, hsplit, seen', hseen', hnarrow'⟩ := hbelow (List.mem_filter.mp hr).1
    rw [hseen'.genTpl_eq hnarrow' (fun _ => hsplit) (List.length_replicate ..),
      overlay_replicate hseen'.length_pathTpl]
    rfl
  · -- every leaf is in the interval
    have hall : (root.leafRefs []).filter (CNode.InCases minConfs maxConfs) = root.leafRefs [] := by
      refine List.filter_eq_self.mpr fun r hr => ?_
      obtain ⟨hdata, -⟩ := hbelow hr
      have hcases := hgrown.minCases_eq _ hdata
      have htotal := hgrown.total_le _ hdata
      have hnew := hempty _ hdata
      rw [CNode.InCases, decide_eq_true_iff, hcases, NodeData.cases, hnew]
      simp only [List.length_nil]
      omega
    have hmatch : Config.Matches dom { values := pathTpl dom root.data [] } c := by
      intro var hvar
      exact .inl ((Below.root root.data).getElem?_open hvar (Set.notMem_empty var))
    obtain ⟨pos, r, hpos, hat, hfilter⟩ := hgrown.filter_of_matches (.root _) hcomplete hmatch
    obtain ⟨nd, hnd, htest⟩ := CNode.testConfig_of_leafPos (d := t.defaultHit) hpos
    rw [CNode.leafAt_of_refAt hat, Option.some.injEq] at hnd
    obtain ⟨i, hi, hiff⟩ := exists_index_of_filter hfilter
    rw [hall]
    refine ⟨pos, r, i, hpos, hat, ?_, hi, fun j templ hj => ?_⟩
    · rw [CTree.testConfig, rootNode, hroot, ok_bind, htest, hnd]
    · rw [List.getElem?_map, Option.map_eq_some_iff] at hj
      obtain ⟨r', hr', rfl⟩ := hj
      rw [← hiff j r' hr', NodeRef.holds, decide_eq_true_iff]

/-- Exclusive or over two switches: four leaves with one configuration each. -/
theorem gatherSmallLeaves_partition_xor :
    let dom := Domain.switches 2 (by decide)
    let tree : CTree := { configs :=
      ⟨[{ values := [0, 0] }, { values := [1, 1] }], [{ values := [0, 1] }, { values := [1, 0] }]⟩ }
    ∃ t root templ₀ leaves templs, tree.buildTree dom .firstUntested = .ok t ∧
      t.Templated dom root 0 4 templ₀ leaves templs ∧ t.Partition dom root leaves templs := by
  intro dom tree
  have hc : ∀ s, ∀ c ∈ tree.configs.get s, c.Complete dom := by decide
  obtain ⟨t, ht, -⟩ := ((buildTree_meets .firstUntested hc).mono (fun _ h => h) fun e he =>
    he.2 ⟨Selector.firstUntested_total, by unfold Apart; decide⟩).exists_ok
  have hvalues : ∀ var, dom.nValues var ≤ 32768 := by
    intro var
    match var with
    | 0 => decide
    | 1 => decide
    | var + 2 => exact Nat.zero_le _
  obtain ⟨root, templ₀, leaves, templs, -, htempl, hpart⟩ :=
    gatherSmallLeaves_partition hc ht (fun _ _ var _ => hvalues var) 0 4
  exact ⟨t, root, templ₀, leaves, templs, ht, htempl, hpart (by decide) (by decide)⟩

end CTree

/-! ### An option with too many values -/

section Wide

variable {n : ℕ} {hn : 0 < n}

theorem set_single {x v : ℤ} (hv : -1 ≤ v ∧ v < n) :
    Config.set (.single n hn) { values := [x] } 0 v = .ok { values := [toShort v] } := by
  rw [Config.set, Domain.nValues_single, check_pos hv, ok_bind]
  rfl

/-- The copy of a template reads the value back from a `short`. -/
theorem ofValues_single (x : ℤ) : Config.ofValues (.single n hn) [x] =
    check (-1 ≤ x ∧ x < n) .configValue >>= fun _ => .ok { values := [toShort x] } := by
  have hlen : [x].length = (Domain.single n hn).nVars := rfl
  rw [Config.ofValues, Config.setAll, check_pos hlen, ok_bind, Config.setFrom, Config.set,
    Domain.nValues_single]
  by_cases h : -1 ≤ x ∧ x < n
  · rw [check_pos h]
    rfl
  · rw [check_neg h]
    rfl

/-- The loop over leaves stops at the value that is `-32768` in a `short`. -/
theorem smallLeavesChilds_single {maxConfs : ℤ} (hwide : 32768 < n) {kids : List CNode} {v : ℕ}
    (hcount : v + kids.length = n) (hv : v ≤ 32768)
    (hkids : ∀ k ∈ kids, k.data.isLeaf = true ∧ 0 ≤ k.data.minCases ∧ k.data.minCases ≤ maxConfs)
    (res : List Config) :
    smallLeavesChilds (.single n hn) 0 maxConfs 0 v kids ({ values := [-1] }, res) =
      .error .configValue := by
  induction kids generalizing v res with
  | nil =>
      rw [List.length_nil] at hcount
      omega
  | cons k ks ih =>
      obtain ⟨nd, kids'⟩ := k
      obtain ⟨hleaf, hcases⟩ := hkids _ (List.mem_cons_self ..)
      have hget : Config.get { values := [-1] } 0 = .ok (-1) := rfl
      rw [CNode.data_mk] at hleaf hcases
      rw [smallLeavesChilds, hget, ok_bind, check_pos rfl, ok_bind, set_single (by omega), ok_bind,
        gatherSmallLeaves, if_pos hleaf, if_pos hcases, ofValues_single]
      rcases Nat.lt_or_ge v 32768 with hlt | hge
      · have hshort : toShort v = v := toShort_of_range (by omega) (by omega)
        have hopen : (-1 : ℤ) ≤ -1 ∧ (-1 : ℤ) < n := by omega
        rw [hshort, check_pos (by omega), ok_bind, ok_bind, ok_bind]
        simp only [set_single hopen, ok_bind]
        rw [List.length_cons] at hcount
        exact ih (by omega) hlt (fun k hk => hkids k (List.mem_cons_of_mem _ hk)) _
      · obtain rfl : v = 32768 := by omega
        have hwrap : toShort (32768 : ℕ) = -32768 := by decide
        rw [hwrap, check_neg (by omega)]
        rfl

/-- A tree that tests an option with too many values: `gather_small_leaves` stops in
the check of `Config::set` when it copies a template. -/
theorem gatherSmallLeaves_single (hwide : 32768 < n) :
    let dom := Domain.single n hn
    let tree : CTree := { configs := ⟨[{ values := [0] }], [{ values := [1] }]⟩ }
    (∀ s, ∀ c ∈ tree.configs.get s, c.Complete dom) ∧
      ∃ t, tree.buildTree dom .firstUntested = .ok t ∧
        t.gatherSmallLeaves dom 0 2 = .error .configValue := by
  intro dom tree
  have hvalues : dom.nValues 0 = n := Domain.nValues_single _
  have hcomplete : ∀ v : ℤ, 0 ≤ v ∧ v < n → Config.Complete dom { values := [v] } := by
    intro v hv
    refine ⟨rfl, fun var w hw => ?_⟩
    cases var with
    | zero =>
        cases hw
        rw [hvalues]
        exact hv
    | succ var => cases hw
  have hc : ∀ s, ∀ c ∈ tree.configs.get s, c.Complete dom := by
    intro s c hmem
    cases s <;> (rw [List.mem_singleton.mp hmem]; exact hcomplete _ (by omega))
  obtain ⟨t, ht, ⟨root', hfits⟩, -, -⟩ := ((CTree.buildTree_meets .firstUntested hc).mono
    (fun _ h => h) fun e he =>
      he.2 ⟨Selector.firstUntested_total, by unfold Apart; decide⟩).exists_ok
  obtain ⟨root, hroot, hgrown, hempty⟩ := CTree.buildTree_grown hc ht
  obtain rfl : root' = root := Option.some.inj (hfits.root_eq.symm.trans hroot)
  refine ⟨hc, t, ht, ?_⟩
  rw [CTree.gatherSmallLeaves, CTree.rootNode, hroot, ok_bind, fill_open, ok_bind]
  cases hgrown with
  | leaf hleaf _ _ _ =>
      -- a leaf does not tell the hit from the miss
      obtain ⟨_, hhit⟩ := hfits.testConfig_hit (hcomplete 1 (by omega)) (List.mem_singleton_self _)
        false
      obtain ⟨_, hmiss⟩ := hfits.testConfig_miss (hcomplete 0 (by omega))
        (List.mem_singleton_self _) false
      rw [CNode.testConfig, if_pos hleaf] at hhit hmiss
      rw [hhit] at hmiss
      cases hmiss
  | @node _ nd kids var hleaf hvar hlt _ hlen _ _ hkids =>
      obtain rfl : var = 0 := Nat.lt_one_iff.mp hlt
      have hne : ((0 : ℕ) : ℤ) ≠ -1 := by decide
      rw [GenTree.gatherSmallLeaves, if_neg (by simp [hleaf]), hvar, check_pos hne, ok_bind,
        sizeT_natCast, ok_bind]
      have hrun : smallLeavesChilds dom 0 2 0 0 kids ({ values := [-1] }, []) =
          .error .configValue := by
        refine smallLeavesChilds_single hwide (by rw [hlen, hvalues, Nat.zero_add]) (by decide)
          (fun k hk => ?_) []
        rw [CNode.leafData_node hleaf] at hempty
        have hkid := hkids k hk
        cases hkid with
        | @leaf _ nd' hleaf' _ htotal hmin =>
            have hnew := hempty nd' (List.mem_flatMap.mpr
              ⟨_, hk, by rw [CNode.leafData_leaf hleaf']; exact List.mem_singleton_self _⟩)
            rw [CNode.data_mk, hmin, NodeData.cases, hnew, List.length_nil]
            exact ⟨hleaf', by omega, by exact_mod_cast htotal⟩
        | node _ _ hlt' hfresh =>
            obtain rfl := Nat.lt_one_iff.mp hlt'
            exact absurd (Set.mem_insert ..) hfresh
      show (smallLeavesChilds dom 0 2 0 0 kids ({ values := [-1] }, []) >>= _) = _
      rw [hrun, error_bind]

end Wide

/-- The smallest option that has too many values. -/
theorem gatherSmallLeaves_wide :
    let dom := Domain.single 32769 (by decide)
    let tree : CTree := { configs := ⟨[{ values := [0] }], [{ values := [1] }]⟩ }
    (∀ s, ∀ c ∈ tree.configs.get s, c.Complete dom) ∧
      ∃ t, tree.buildTree dom .firstUntested = .ok t ∧
        t.gatherSmallLeaves dom 0 2 = .error .configValue :=
  gatherSmallLeaves_single (by decide)

end GenTree

import GenTree.BuildTree
import GenTree.Library.Leaders

/-!
# The partition in place

All nodes of a tree point into the same two vectors, so what growing one node does to the
vectors has to leave every other node's ranges meaningful.  `Called` lists the calls of
`evaluate_split` within one run, with the vectors each of them finds, and `CNode.At` the
nodes of the finished tree with the path to each.

A split permutes the ranges of the node alone (`SplitAt.inPlace`).  When the run is over,
the ranges of every node, inner nodes included, hold the configurations that follow the
node's path, and at a leaf they are in the order of the input (`NodePlaced`); the relation
that the induction carries is `Placed`.
-/

namespace GenTree

open Outcome CountingSort

/-! ## Ranges that tile -/

theorem Tiled.window {vec : List Config} {lo hi : ℕ} {rs : List SubRange} (h : Tiled lo hi rs)
    (hhi : hi ≤ vec.length) : rs.flatMap (fun r => r.of vec) = CountingSort.window vec lo hi := by
  induction rs generalizing lo with
  | nil =>
      obtain rfl : lo = hi := h
      simp
  | cons r rs ih =>
      obtain ⟨rfl, hle, hrest⟩ := h
      rw [List.flatMap_cons, ih hrest, SubRange.of, window_append vec hle hrest.le hhi]

/-- The buckets of a list, put one after the other, are a rearrangement of it. -/
theorem flatMap_bucket_perm {var n : ℕ} {l : List Config} (h : ∀ c ∈ l, c.val var < n) :
    ((List.range n).flatMap fun i => DTree.bucket Config.val var i l).Perm l := by
  have hperm := @Leaders.flatMap_filter_perm _ _ _ (fun c : Config => c.val var) _
    (@List.nodup_range n) l fun c hc => List.mem_range.mpr (h c hc)
  exact hperm

theorem perm_flatMap_of_forall₂ {α β γ : Type*} {f : α → List γ} {g : β → List γ} {l : List α}
    {l' : List β} (h : List.Forall₂ (fun a b => (g b).Perm (f a)) l l') :
    (l'.flatMap g).Perm (l.flatMap f) := by
  induction h with
  | nil => exact .refl _
  | cons hab _ ih =>
      rw [List.flatMap_cons, List.flatMap_cons]
      exact hab.append ih

/-! ## One split -/

/-- **A split in place** of the range `r` of the vector `vec`: nothing outside `r` moves,
what is inside is permuted, and the ranges of the children tile `r` in the order of the
values, child `i` holding the configurations with value `i` in their old order. -/
structure InPlace (dom : Domain) (var : ℕ) (r : SubRange) (vec : List Config)
    (kids : List SubRange) (vec' : List Config) : Prop where
  framed : Framed r.beg r.stop vec vec'
  perm : (r.of vec').Perm (r.of vec)
  length : kids.length = dom.nValues var
  tiled : Tiled r.beg r.stop kids
  holds : ∀ (i : ℕ) (k : SubRange), kids[i]? = some k →
    k.of vec' = (r.of vec).filter fun c => c.val var = i

section Split

variable {dom : Domain} {select : Selector} {params : SplitParams}

theorem SplitAt.inPlace {nd : NodeData} {vecs vecs₁ : Vecs} {var : ℕ}
    {ranges : ℕ → Arr2 SubRange} (h : SplitAt dom nd vecs var ranges vecs₁) (s : Bool) :
    InPlace dom var (nd.configs.get s) (vecs.get s)
      ((nd.kids dom var ranges).map fun kid => kid.configs.get s) (vecs₁.get s) where
  framed := (h.parted s).framed
  perm := by
    have hstop : (nd.configs.get s).stop ≤ (vecs₁.get s).length := by
      rw [(h.parted s).framed.length]
      exact h.ready.inside s
    have hrange : ((List.range (dom.nValues var)).map fun i => (ranges i).get s).flatMap
          (fun r => r.of (vecs₁.get s)) =
        (List.range (dom.nValues var)).flatMap fun i =>
          DTree.bucket Config.val var i ((nd.configs.get s).of (vecs.get s)) := by
      rw [List.flatMap_map]
      refine List.flatMap_congr fun i hi => ?_
      exact (h.parted s).of_eq i (List.mem_range.mp hi)
    have hwindow := (h.parted s).tiled.window hstop
    rw [hrange] at hwindow
    rw [SubRange.of, ← hwindow]
    exact flatMap_bucket_perm fun c hc => (h.ready.complete s c hc).val_lt h.lt
  length := by simp [NodeData.kids]
  tiled := h.tiled s
  holds i k hk := by
    rw [NodeData.kids, List.map_map, List.getElem?_map, Option.map_eq_some_iff] at hk
    obtain ⟨i', hi', rfl⟩ := hk
    obtain ⟨hi, rfl⟩ := List.getElem?_eq_some_iff.mp hi'
    rw [List.getElem_range]
    have hof := (h.parted s).of_eq i (by simpa using hi)
    exact hof

/-- The calls of `evaluate_split` in the course of the call for `nd₀` with the vectors
`vecs₀`: the fuel, the node and the vectors as they are when it is called. -/
inductive Called (dom : Domain) (select : Selector) (params : SplitParams) (fuel₀ : ℕ)
    (nd₀ : NodeData) (vecs₀ : Vecs) : ℕ → NodeData → Vecs → Prop
  | root : Called dom select params fuel₀ nd₀ vecs₀ fuel₀ nd₀ vecs₀
  | kid {fuel : ℕ} {nd nd' kid : NodeData} {vecs vecs₁ vecs₂ : Vecs} {done rest : List NodeData}
      {ks : List CNode} (above : Called dom select params fuel₀ nd₀ vecs₀ (fuel + 1) nd vecs)
      (mixed : nd.isLeaf = false)
      (split : splitNode dom select params nd vecs = .ok (nd', done ++ kid :: rest, vecs₁))
      (before : evaluateChilds (evaluateSplit dom select params fuel) done vecs₁ =
        .ok (ks, vecs₂)) :
      Called dom select params fuel₀ nd₀ vecs₀ fuel kid vecs₂

/-- Ranges in front of one that tiles are tiled themselves. -/
theorem Tiled.of_append {lo hi : ℕ} {rs rs' : List SubRange} (h : Tiled lo hi (rs ++ rs')) :
    ∃ mid, Tiled lo mid rs ∧ Tiled mid hi rs' := by
  induction rs generalizing lo with
  | nil => exact ⟨lo, rfl, h⟩
  | cons r rs ih =>
      obtain ⟨hbeg, hle, hrest⟩ := h
      obtain ⟨mid, hrs, hrs'⟩ := ih hrest
      exact ⟨mid, ⟨hbeg, hle, hrs⟩, hrs'⟩

/-- A child whose turn has come: the siblings in front of it have stayed in front of its
ranges, so it finds there what `create_childs` has put there. -/
theorem SplitAt.sameAt_kid {nd kid : NodeData} {vecs vecs₁ vecs₂ : Vecs} {var fuel : ℕ}
    {ranges : ℕ → Arr2 SubRange} {done rest : List NodeData} {ks : List CNode}
    (h : SplitAt dom nd vecs var ranges vecs₁) (hfuel : nd.testedVars.count false < fuel + 1)
    (hkids : done ++ kid :: rest = nd.kids dom var ranges)
    (hbefore : evaluateChilds (evaluateSplit dom select params fuel) done vecs₁ =
      .ok (ks, vecs₂)) : SameAt kid vecs₁ vecs₂ := by
  have hcount := count_set_lt h.untested
  have hgrow : ∀ k ∈ done, ∀ v, SameAt k vecs₁ v →
      Meets (evaluateSplit dom select params fuel k v) (fun r => True ∧
        ∀ s, Framed (k.configs.get s).beg (k.configs.get s).stop (v.get s) (r.2.get s))
        fun _ => True := by
    intro k hk v hv
    obtain ⟨i, hi, rfl⟩ := NodeData.mem_kids.mp (hkids ▸ List.mem_append_left _ hk)
    refine (evaluateSplit_rule (F := fun _ _ _ _ => True) ⟨fun _ _ => trivial, fun _ _ => trivial⟩
      (fun _ _ _ _ => trivial) (fun _ _ _ _ _ _ _ _ _ => trivial) fuel
      ((h.ready.child hi h.parted).of_sameAt hv) ?_).mono (fun _ hr => hr) fun _ _ => trivial
    simp only [NodeData.child, NodeData.split]
    omega
  have htile : ∀ s, ∃ mid, Tiled (nd.configs.get s).beg mid (done.map fun k => k.configs.get s) ∧
      Tiled mid (nd.configs.get s).stop ((kid :: rest).map fun k => k.configs.get s) := by
    intro s
    have hall := h.tiled s
    rw [← hkids, List.map_append] at hall
    exact hall.of_append
  choose mid hdone hrest using htile
  have hframed := ((evaluateChilds_meets (F := fun _ _ _ _ => True)
    ⟨fun _ _ => trivial, fun _ _ => trivial⟩ done hgrow hdone fun k _ => .refl k vecs₁).of_eq_ok
      hbefore).2
  exact .of_framed hframed fun s => .inr (Nat.le_of_eq (hrest s).1.symm)

/-- Every call finds its node ready, with enough fuel, and separated if the first one
does. -/
theorem Called.ready {fuel₀ fuel : ℕ} {nd₀ nd : NodeData} {vecs₀ vecs : Vecs}
    (hready : Ready dom nd₀ vecs₀) (hfuel : nd₀.testedVars.count false < fuel₀)
    (h : Called dom select params fuel₀ nd₀ vecs₀ fuel nd vecs) :
    Ready dom nd vecs ∧ nd.testedVars.count false < fuel ∧
      (Separated nd₀ vecs₀ → Separated nd vecs) := by
  induction h with
  | root => exact ⟨hready, hfuel, id⟩
  | @kid fuel nd nd' kid vecs vecs₁ vecs₂ done rest ks _ hmixed hsplit hbefore ih =>
      obtain ⟨hnd, hndfuel, hndsep⟩ := ih
      obtain ⟨var, ranges, -, -, hkids, hat⟩ := (splitNode_meets hnd hmixed).of_eq_ok hsplit
      dsimp only at hkids hat
      have hsame := hat.sameAt_kid hndfuel hkids hbefore
      have hmem : kid ∈ nd.kids dom var ranges := by
        rw [← hkids]
        simp
      obtain ⟨i, hi, rfl⟩ := NodeData.mem_kids.mp hmem
      refine ⟨(hnd.child hi hat.parted).of_sameAt hsame, ?_, fun hsep => ?_⟩
      · have hcount := count_set_lt hat.untested
        simp only [NodeData.child, NodeData.split]
        omega
      · have hside : ∀ s, ((nd.split var).child i (ranges i)).side vecs₂ s =
            DTree.bucket Config.val var i (nd.side vecs s) := by
          intro s
          rw [NodeData.side, hsame.of_eq s]
          exact (hat.parted s).of_eq i hi
        exact (hndsep hsep).child rfl hside

/-- **Every split permutes its own ranges only.** -/
theorem Called.inPlace {fuel₀ fuel : ℕ} {nd₀ nd nd' : NodeData} {vecs₀ vecs vecs₁ : Vecs}
    {kids : List NodeData} (hready : Ready dom nd₀ vecs₀)
    (hfuel : nd₀.testedVars.count false < fuel₀)
    (h : Called dom select params fuel₀ nd₀ vecs₀ fuel nd vecs) (hmixed : nd.isLeaf = false)
    (hsplit : splitNode dom select params nd vecs = .ok (nd', kids, vecs₁)) (s : Bool) :
    InPlace dom nd'.splitvar.toNat (nd.configs.get s) (vecs.get s)
      (kids.map fun kid => kid.configs.get s) (vecs₁.get s) := by
  obtain ⟨var, ranges, -, hnd, hkids, hat⟩ :=
    (splitNode_meets (h.ready hready hfuel).1 hmixed).of_eq_ok hsplit
  dsimp only at hnd hkids hat
  subst hnd hkids
  exact hat.inPlace s

end Split

/-! ## The finished tree -/

/-- The node `u` of the tree `t` at the end of a path, which lists the options tested on
the way with the values taken. -/
inductive CNode.At : CNode → List (ℕ × ℕ) → CNode → Prop
  | here (t : CNode) : At t [] t
  | kid {nd : NodeData} {kids : List CNode} {i : ℕ} {k u : CNode} {path : List (ℕ × ℕ)}
      (get : kids[i]? = some k) (below : At k path u) :
      At (.mk nd kids) ((nd.splitvar.toNat, i) :: path) u

/-- The configuration has the values of a path. -/
def Config.Follows (path : List (ℕ × ℕ)) (c : Config) : Prop := ∀ p ∈ path, c.val p.1 = p.2

instance (path : List (ℕ × ℕ)) : DecidablePred (Config.Follows path) :=
  fun _ => inferInstanceAs (Decidable (∀ _ ∈ _, _))

theorem filter_follows_cons (var i : ℕ) (path : List (ℕ × ℕ)) (l : List Config) :
    l.filter (Config.Follows ((var, i) :: path)) =
      (DTree.bucket Config.val var i l).filter (Config.Follows path) := by
  rw [DTree.bucket, List.filter_filter]
  refine List.filter_congr fun c _ => ?_
  rw [Bool.eq_iff_iff, Bool.and_eq_true, decide_eq_true_eq, decide_eq_true_eq, beq_iff_eq]
  unfold Config.Follows
  rw [List.forall_mem_cons]
  exact and_comm

/-- A range of a node of the finished tree: it lies in the vector and holds the
configurations `cs`, at a leaf in this order, and the ranges of the children tile it. -/
structure NodePlaced (u : CNode) (s : Bool) (vec : List Config) (cs : List Config) : Prop where
  inside : (u.data.configs.get s).stop ≤ vec.length
  perm : ((u.data.configs.get s).of vec).Perm cs
  leaf : u.data.isLeaf = true → (u.data.configs.get s).of vec = cs
  tiled : u.data.isLeaf = false →
    Tiled (u.data.configs.get s).beg (u.data.configs.get s).stop
      (u.childs.map fun k => k.data.configs.get s)

/-- The node `nd` has grown into `t`: below `t`, the range of every node holds the
configurations of `nd` that follow the path to it. -/
def Placed (nd : NodeData) (vecs : Vecs) (t : CNode) (vecs' : Vecs) : Prop :=
  t.data.configs = nd.configs ∧ ∀ vecs'', SameAt nd vecs' vecs'' → ∀ path u, t.At path u → ∀ s,
    NodePlaced u s (vecs''.get s) ((nd.side vecs s).filter (Config.Follows path))

theorem Placed.isLocal : Local Placed where
  before := by
    intro nd vecs₀ vecs t vecs' hsame h
    have hside : ∀ s, nd.side vecs s = nd.side vecs₀ s := hsame.of_eq
    refine ⟨h.1, fun vecs'' hw path u hu s => ?_⟩
    rw [← hside]
    exact h.2 vecs'' hw path u hu s
  after h hsame := ⟨h.1, fun vecs'' hw => h.2 vecs'' (hsame.trans hw)⟩

section Finished

variable {dom : Domain} {select : Selector} {params : SplitParams}

theorem filter_follows_nil (l : List Config) : l.filter (Config.Follows []) = l :=
  List.filter_eq_self.mpr fun c _ => by simp [Config.Follows]

theorem Placed.leaf {nd : NodeData} {vecs : Vecs} (h : Ready dom nd vecs)
    (hleaf : nd.isLeaf = true) {minCases : ℤ} :
    Placed nd vecs (.mk { nd with minCases } []) vecs := by
  refine ⟨rfl, fun vecs'' hw path u hu s => ?_⟩
  cases hu with
  | here =>
      have hof : (nd.configs.get s).of (vecs''.get s) = nd.side vecs s := hw.of_eq s
      rw [filter_follows_nil]
      refine ⟨?_, .of_eq hof, fun _ => hof, fun hmixed => ?_⟩
      · rw [hw.length]
        exact h.inside s
      · have hmixed' : nd.isLeaf = false := hmixed
        rw [hleaf] at hmixed'
        cases hmixed'
  | kid hget => simp at hget

theorem Placed.node {nd : NodeData} {vecs vecs₁ vecs₂ : Vecs} {var : ℕ}
    {ranges : ℕ → Arr2 SubRange} {ks : List CNode}
    (h : SplitInto dom Placed nd vecs var ranges vecs₁ ks vecs₂) {minCases : ℤ} :
    Placed nd vecs (.mk { nd.split var with minCases } ks) vecs₂ := by
  refine ⟨rfl, fun vecs'' hw path u hu s => ?_⟩
  -- a change elsewhere leaves the ranges of the children alone
  have hkid : ∀ i < dom.nValues var,
      SameAt ((nd.split var).child i (ranges i)) vecs₂ vecs'' := by
    intro i hi
    refine ⟨hw.length, fun s p hlo hhi => hw.entry s p ?_ ?_⟩
    all_goals
      have hbounds := (h.parted s).tiled.bounds
        (List.mem_map.mpr ⟨i, List.mem_range.mpr hi, rfl⟩)
      simp only [NodeData.child] at hlo hhi
      omega
  have hside : ∀ i < dom.nValues var, ((nd.split var).child i (ranges i)).side vecs₁ s =
      DTree.bucket Config.val var i (nd.side vecs s) := fun i hi => (h.parted s).of_eq i hi
  have hplaced : ∀ (i : ℕ) (k : CNode), ks[i]? = some k → ∀ path u, k.At path u →
      NodePlaced u s (vecs''.get s)
        ((nd.side vecs s).filter (Config.Follows ((var, i) :: path))) := by
    intro i k hk path u hu
    obtain ⟨hi, hF⟩ := forall₂_range h.grown hk
    rw [filter_follows_cons, ← hside i hi]
    exact hF.2 vecs'' (hkid i hi) path u hu s
  cases hu with
  | kid hget hbelow => exact hplaced _ _ hget _ _ hbelow
  | here =>
      have hstop : (nd.configs.get s).stop ≤ (vecs''.get s).length := by
        rw [hw.length, (h.within s).length]
        exact h.ready.inside s
      have hranges : ks.map (fun k => k.data.configs.get s) =
          (List.range (dom.nValues var)).map fun i => (ranges i).get s := by
        refine List.ext_getElem? fun i => ?_
        rw [List.getElem?_map, List.getElem?_map]
        cases hk : ks[i]? with
        | none =>
            have hlen := h.grown.length_eq
            rw [List.getElem?_eq_none (by rw [hlen]; exact List.getElem?_eq_none_iff.mp hk)]
            rfl
        | some k =>
            obtain ⟨hi, hF⟩ := forall₂_range h.grown hk
            rw [List.getElem?_range hi, Option.map_some, Option.map_some, hF.1]
            rfl
      have htiled : Tiled (nd.configs.get s).beg (nd.configs.get s).stop
          (ks.map fun k => k.data.configs.get s) := by
        rw [hranges]
        exact (h.parted s).tiled
      rw [filter_follows_nil]
      refine ⟨hstop, ?_, fun hleaf => ?_, fun _ => htiled⟩
      · -- each child holds its bucket, and the buckets make up the whole
        have hbuckets : List.Forall₂ (fun i k =>
            ((k.data.configs.get s).of (vecs''.get s)).Perm
              (DTree.bucket Config.val var i (nd.side vecs s))) (List.range (dom.nValues var)) ks := by
          rw [List.forall₂_iff_get]
          refine ⟨h.grown.length_eq, fun i hi hi' => ?_⟩
          have hperm := (hplaced i _ (List.getElem?_eq_getElem hi') [] _ (.here _)).perm
          rw [filter_follows_cons, filter_follows_nil] at hperm
          simpa using hperm
        have hwindow := htiled.window hstop
        rw [List.flatMap_map] at hwindow
        show (window (vecs''.get s) (nd.configs.get s).beg (nd.configs.get s).stop).Perm _
        rw [← hwindow]
        exact (perm_flatMap_of_forall₂ hbuckets).trans
          (flatMap_bucket_perm fun c hc => (h.ready.complete s c hc).val_lt h.lt)
      · have hleaf' : nd.isLeaf = true := hleaf
        rw [h.mixed] at hleaf'
        cases hleaf'

/-- What `evaluate_split` does to the ranges of all nodes. -/
theorem evaluateSplit_placed (fuel : ℕ) {nd : NodeData} {vecs : Vecs} (h : Ready dom nd vecs)
    (hfuel : nd.testedVars.count false < fuel) {r : CNode × Vecs}
    (hrun : evaluateSplit dom select params fuel nd vecs = .ok r) : Placed nd vecs r.1 r.2 :=
  ((evaluateSplit_rule Placed.isLocal (fun _ _ hready hleaf => .leaf hready hleaf)
    (fun _ _ _ _ _ _ _ hsplit _ => .node hsplit) fuel h hfuel).of_eq_ok hrun).1

/-- **The partition in place.**  A tree is grown from a miss and a hit vector of complete
configurations, with any choice of untested split variables.  Whenever a node is split
during the run, the vectors are permuted inside the node's own ranges only, and the ranges
of its children tile them in the order of the values.  In the finished tree the ranges of
every node hold the configurations of the input that follow the node's path, and the
ranges of a leaf hold them in the order of the input. -/
theorem evaluateSplit_inPlace {vecs : Vecs} (hcomplete : ∀ s, ∀ c ∈ vecs.get s, c.Complete dom)
    (fuel : ℕ) (hfuel : dom.nVars < fuel) :
    (∀ fuel' nd vecs', Called dom select params fuel (.root dom (fullRanges vecs)) vecs fuel' nd
        vecs' → nd.isLeaf = false →
      ∀ nd' kids vecs'', splitNode dom select params nd vecs' = .ok (nd', kids, vecs'') →
        ∀ s, InPlace dom nd'.splitvar.toNat (nd.configs.get s) (vecs'.get s)
          (kids.map fun kid => kid.configs.get s) (vecs''.get s)) ∧
    ∀ root vecs', evaluateSplit dom select params fuel (.root dom (fullRanges vecs)) vecs =
        .ok (root, vecs') →
      ∀ path u, root.At path u → ∀ s,
        NodePlaced u s (vecs'.get s) ((vecs.get s).filter (Config.Follows path)) := by
  have hready := ready_root hcomplete
  have hcount : (NodeData.root dom (fullRanges vecs)).testedVars.count false < fuel := by
    rwa [count_root]
  constructor
  · intro fuel' nd vecs' hcall hmixed nd' kids vecs'' hsplit s
    exact hcall.inPlace hready hcount hmixed hsplit s
  · intro root vecs' hrun path u hu s
    have hplaced := (evaluateSplit_placed fuel hready hcount hrun).2 vecs' (.refl _ _) path u hu s
    rwa [side_root] at hplaced

end Finished

/-- Exclusive or over two switches, the misses in descending order. -/
theorem evaluateSplit_inPlace_xor :
    let dom := Domain.switches 2 (by decide)
    let samples : List (Config × Bool) :=
      [({ values := [1, 1] }, false), ({ values := [0, 1] }, true),
        ({ values := [1, 0] }, true), ({ values := [0, 0] }, false)]
    ∃ root vecs,
      evaluateSplit dom .firstUntested ⟨4, false, 1, 0⟩ 3
        (NodeData.root dom (fullRanges (sampleVecs samples))) (sampleVecs samples) =
          .ok (root, vecs) ∧
      ∀ path u, root.At path u → ∀ s,
        NodePlaced u s (vecs.get s)
          (((sampleVecs samples).get s).filter (Config.Follows path)) := by
  intro dom samples
  have hcomplete : ∀ s, ∀ c ∈ (sampleVecs samples).get s, c.Complete dom := by decide
  have hapart : Apart (sampleVecs samples) := apart_sampleVecs (by decide)
  obtain ⟨⟨root, vecs⟩, hrun, -⟩ := ((evaluateSplit_root_meets .firstUntested ⟨4, false, 1, 0⟩
    hcomplete (show dom.nVars < 3 by decide)).mono (fun _ h => h)
    fun e he => he.2 ⟨Selector.firstUntested_total, hapart⟩).exists_ok
  exact ⟨root, vecs, hrun, (evaluateSplit_inPlace hcomplete 3 (by decide)).2 root vecs hrun⟩

end GenTree

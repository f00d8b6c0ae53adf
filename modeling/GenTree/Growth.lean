import GenTree.NodeTree

/-!
# Growing a tree from its configurations

`evaluate_split` sorts the configurations of a node into its children by a
counting sort inside the node's own ranges, and goes on with the children one
after the other.  Three facts carry the correctness proof.

* **Splitting.**  After `create_childs` the ranges of the children tile the range
  of the node, and child `i` holds exactly the configurations with value `i`
  (`createChilds_spec`).
* **Framing.**  A subtree only rearranges its own ranges (`Framed`), and what it
  stands for depends on its own ranges only (`Fitted.reads`).  Growing one child
  therefore disturbs neither the configurations its right siblings are waiting
  for nor the subtrees of its left siblings.
* **Separation.**  As long as every miss differs from every hit at an untested
  option (`Separated`), a mixed node has an untested option left, and the
  children inherit the property: both configurations of a pair that stays
  together agree on the option just tested.

`evaluateSplit_meets` puts them together: the result fits the configurations in
the sense of `DTree.Grown`.
-/

namespace GenTree

open Outcome CountingSort

/-! ## Framing -/

/-- Only the positions in `[lo, hi)` of a vector may have changed. -/
structure Framed (lo hi : ℕ) (vec vec' : List Config) : Prop where
  length : vec'.length = vec.length
  outside : ∀ p, p < lo ∨ hi ≤ p → vec'[p]? = vec[p]?

namespace Framed

variable {lo hi mid : ℕ} {vec vec' vec'' : List Config}

theorem refl (lo hi : ℕ) (vec : List Config) : Framed lo hi vec vec := ⟨rfl, fun _ _ => rfl⟩

theorem mono {lo' hi' : ℕ} (h : Framed lo hi vec vec') (hlo : lo' ≤ lo) (hhi : hi ≤ hi') :
    Framed lo' hi' vec vec' := ⟨h.length, fun p hp => h.outside p (by omega)⟩

theorem trans (h : Framed lo hi vec vec') (h' : Framed lo hi vec' vec'') :
    Framed lo hi vec vec'' :=
  ⟨h'.length.trans h.length, fun p hp => (h'.outside p hp).trans (h.outside p hp)⟩

end Framed

/-- The vectors agree on the ranges of a node. -/
structure SameAt (nd : NodeData) (vecs vecs' : Vecs) : Prop where
  length : ∀ s, (vecs'.get s).length = (vecs.get s).length
  entry : ∀ s p, (nd.configs.get s).beg ≤ p → p < (nd.configs.get s).stop →
    (vecs'.get s)[p]? = (vecs.get s)[p]?

namespace SameAt

variable {nd : NodeData} {vecs vecs' vecs'' : Vecs}

theorem refl (nd : NodeData) (vecs : Vecs) : SameAt nd vecs vecs :=
  ⟨fun _ => rfl, fun _ _ _ _ => rfl⟩

theorem trans (h : SameAt nd vecs vecs') (h' : SameAt nd vecs' vecs'') :
    SameAt nd vecs vecs'' :=
  ⟨fun s => (h'.length s).trans (h.length s),
    fun s p hlo hhi => (h'.entry s p hlo hhi).trans (h.entry s p hlo hhi)⟩

/-- The ranges of the node hold the same configurations. -/
theorem of_eq (h : SameAt nd vecs vecs') (s : Bool) :
    (nd.configs.get s).of (vecs'.get s) = (nd.configs.get s).of (vecs.get s) :=
  window_congr (h.entry s)

/-- A change elsewhere. -/
theorem of_framed {lo hi : Bool → ℕ} (h : ∀ s, Framed (lo s) (hi s) (vecs.get s) (vecs'.get s))
    (hdisj : ∀ s, (nd.configs.get s).stop ≤ lo s ∨ hi s ≤ (nd.configs.get s).beg) :
    SameAt nd vecs vecs' := by
  refine ⟨fun s => (h s).length, fun s p hlo hhi => (h s).outside p ?_⟩
  have := hdisj s
  omega

end SameAt

/-- The ranges follow each other without gaps from `lo` to `hi`. -/
def Tiled : ℕ → ℕ → List SubRange → Prop
  | lo, hi, [] => lo = hi
  | lo, hi, r :: rs => r.beg = lo ∧ lo ≤ r.stop ∧ Tiled r.stop hi rs

namespace Tiled

theorem le {lo hi : ℕ} {rs : List SubRange} (h : Tiled lo hi rs) : lo ≤ hi := by
  induction rs generalizing lo with
  | nil => exact Nat.le_of_eq h
  | cons r rs ih => exact Nat.le_trans h.2.1 (ih h.2.2)

theorem bounds {lo hi : ℕ} {rs : List SubRange} (h : Tiled lo hi rs) {r : SubRange}
    (hr : r ∈ rs) : lo ≤ r.beg ∧ r.beg ≤ r.stop ∧ r.stop ≤ hi := by
  induction rs generalizing lo with
  | nil => exact absurd hr List.not_mem_nil
  | cons r' rs ih =>
      rcases List.mem_cons.mp hr with rfl | hmem
      · have := h.1
        have := h.2.1
        have := h.2.2.le
        omega
      · have := ih h.2.2 hmem
        have := h.2.1
        omega

/-- Consecutive values of a monotone bound tile. -/
theorem range' {f : ℕ → ℕ} (hf : ∀ i, f i ≤ f (i + 1)) (m n : ℕ) :
    Tiled (f m) (f (m + n)) ((List.range' m n).map fun i => ⟨f i, f (i + 1)⟩) := by
  induction n generalizing m with
  | zero => exact rfl
  | succ n ih =>
      rw [List.range'_succ, List.map_cons]
      refine ⟨rfl, hf m, ?_⟩
      have := ih (m + 1)
      rwa [show m + 1 + n = m + (n + 1) by omega] at this

end Tiled

/-! ## Counting and splitting -/

section Split

variable {dom : Domain}

theorem bump_eq {row : List ℕ} {v n : ℕ} (h : row[v]? = some n) :
    bump row (v : ℤ) = .ok (row.set v (n + 1)) := by
  rw [bump, sizeT_natCast, ok_bind, vecAt_of_getElem? h, ok_bind]

theorem bumpRows_eq {rows rows' : List (List ℕ)} {vals : List ℤ}
    (hlen : rows'.length = rows.length)
    (h : ∀ (i : ℕ) (row : List ℕ), rows[i]? = some row →
      ∃ v row', vals[i]? = some v ∧ rows'[i]? = some row' ∧ bump row v = .ok row') :
    bumpRows rows vals = .ok rows' := by
  induction rows generalizing rows' vals with
  | nil =>
      have hnil : rows' = [] := List.length_eq_zero_iff.mp hlen
      rw [bumpRows, hnil]
  | cons row rows ih =>
      obtain ⟨v, row', hv, hrow', hbump⟩ := h 0 row rfl
      cases vals with
      | nil => simp at hv
      | cons v' vs =>
          cases rows' with
          | nil => simp at hlen
          | cons r rs =>
              obtain rfl : v' = v := by simpa using hv
              obtain rfl : r = row' := by simpa using hrow'
              have hrest : bumpRows rows vs = .ok rs :=
                ih (by simpa using hlen) fun i row hi => by simpa using h (i + 1) row (by simpa)
              rw [bumpRows, hbump, ok_bind, hrest, ok_bind]

/-- The table `calc_freq` computes. -/
def freqTable (dom : Domain) (configs : List Config) : List (List ℕ) :=
  (List.range dom.nVars).map fun var => freqs (fun c => Config.val c var) configs (dom.nValues var)

theorem freqTable_getElem? (configs : List Config) {var : ℕ} (h : var < dom.nVars) :
    (freqTable dom configs)[var]? =
      some (freqs (fun c => Config.val c var) configs (dom.nValues var)) := by
  simp [freqTable, h]

theorem freqTable_nil : freqTable dom [] = dom.vars.map fun v => List.replicate v.nValues 0 := by
  refine List.ext_getElem? fun i => ?_
  rw [List.getElem?_map]
  by_cases hi : i < dom.nVars
  · have hget : dom.vars[i]? = some (dom.vars.get ⟨i, hi⟩) := List.getElem?_eq_getElem hi
    rw [freqTable_getElem? [] hi, freqs_nil, hget, Domain.nValues_of_getElem? hget]
    rfl
  · have hnone : dom.vars[i]? = none := List.getElem?_eq_none (by unfold Domain.nVars at hi; omega)
    rw [hnone, List.getElem?_eq_none (by simp [freqTable]; omega)]
    rfl

/-- **`calc_freq` counts.** -/
theorem calcFreq_eq {configs : List Config} (hc : ∀ c ∈ configs, c.Complete dom) :
    calcFreq dom configs = .ok (freqTable dom configs) := by
  have hmeets : Meets (calcFreq dom configs) (fun freq => freq = freqTable dom configs)
      (fun _ => False) := by
    unfold calcFreq
    refine meets_foldlM (fun done freq => freq = freqTable dom done) configs ?_ freqTable_nil.symm
    rintro done c rest _ hsplit rfl
    have hcomp : c.Complete dom := hc c (by rw [hsplit]; simp)
    have hbump : bumpRows (freqTable dom done) c.values = .ok (freqTable dom (done ++ [c])) := by
      refine bumpRows_eq (by simp [freqTable]) fun i row hrow => ?_
      have hi : i < dom.nVars := by
        have := (List.getElem?_eq_some_iff.mp hrow).1
        simpa [freqTable] using this
      rw [freqTable_getElem? done hi, Option.some.injEq] at hrow
      subst hrow
      refine ⟨c.val i, _, hcomp.getElem? hi, freqTable_getElem? _ hi, ?_⟩
      have hlt := hcomp.val_lt hi
      have hget := List.getElem?_eq_getElem
        (show c.val i < (freqs (fun c => Config.val c i) done (dom.nValues i)).length by
          simpa using hlt)
      rw [bump_eq hget, freqs_concat _ _ c hlt, hget, Option.getD_some]
    rw [hbump, meets_ok]
  obtain ⟨freq, hok, rfl⟩ := hmeets.exists_ok
  exact hok

/-- One vector after `create_childs`: the ranges tile `r`, range `i` holds the
configurations with value `i`, and nothing outside `r` has changed. -/
structure Parted (dom : Domain) (var : ℕ) (r : SubRange) (vec : List Config)
    (ranges : ℕ → SubRange) (vec' : List Config) : Prop where
  of_eq : ∀ i < dom.nValues var, (ranges i).of vec' = DTree.bucket Config.val var i (r.of vec)
  tiled : Tiled r.beg r.stop ((List.range (dom.nValues var)).map ranges)
  framed : Framed r.beg r.stop vec vec'

/-- **Splitting one range.** -/
theorem splitRange_spec {var : ℕ} (hvar : var < dom.nVars) {r : SubRange} {vec : List Config}
    (hle : r.beg ≤ r.stop) (hstop : r.stop ≤ vec.length)
    (hc : ∀ c ∈ r.of vec, c.Complete dom) :
    ∃ curpos vec', splitRange var (dom.nValues var) r
        (freqs (fun c => Config.val c var) (r.of vec) (dom.nValues var)) vec =
          .ok (curpos, vec') ∧
      Parted dom var r vec (childRange r curpos) vec' := by
  have hpos := dom.nValues_pos hvar
  have hlen : (r.of vec).length = r.stop - r.beg := window_length vec hstop
  have hlt : ∀ c ∈ r.of vec, c.val var < dom.nValues var := fun c hmem => (hc c hmem).val_lt hvar
  have hkey : ∀ c ∈ r.of vec, splitKey var c = some (c.val var) := by
    intro c hmem
    rw [splitKey, (hc c hmem).getElem? hvar]
    simp
  obtain ⟨cur, vec', hrun, hsc⟩ := scatter_spec (k := fun c => Config.val c var)
    (b := r.beg) hkey hlt (show r.beg + (r.of vec).length ≤ vec.length by omega)
  have hend : ∀ v < dom.nValues var, cur[v]? =
      some (r.beg + countLt (fun c => Config.val c var) (r.of vec) (v + 1)) :=
    fun v hv => hsc.cursor_end hv
  have htotal := countLt_of_forall_lt (fun c => Config.val c var) (r.of vec) hlt
  have hlast : cur[dom.nValues var - 1]? = some r.stop := by
    rw [hend _ (by omega), Nat.sub_add_cancel hpos, htotal, hlen]
    exact congrArg some (by omega)
  -- the cursors have stopped at the bounds of the buckets
  have hrange : ∀ i < dom.nValues var, childRange r cur i =
      ⟨r.beg + countLt (fun c => Config.val c var) (r.of vec) i,
        r.beg + countLt (fun c => Config.val c var) (r.of vec) (i + 1)⟩ := by
    intro i hi
    cases i with
    | zero => simp [childRange, hend 0 hi, List.getD_eq_getElem?_getD]
    | succ i =>
        simp [childRange, hend i (by omega), hend (i + 1) hi, List.getD_eq_getElem?_getD]
  refine ⟨cur, vec', ?_, ?_, ?_, ⟨hsc.length, fun p hp => hsc.frame p (by omega)⟩⟩
  · rw [splitRange, hrun]
    simp only [check_pos hlast, ok_bind]
  · intro i hi
    rw [hrange i hi]
    exact hsc.scatter_window hi
  · have hmap : (List.range (dom.nValues var)).map (childRange r cur) =
        (List.range' 0 (dom.nValues var)).map fun i =>
          ⟨r.beg + countLt (fun c => Config.val c var) (r.of vec) i,
            r.beg + countLt (fun c => Config.val c var) (r.of vec) (i + 1)⟩ := by
      rw [List.range_eq_range']
      exact List.map_congr_left fun i hi => hrange i (by simpa using hi)
    rw [hmap]
    have htile := Tiled.range'
      (f := fun i => r.beg + countLt (fun c => Config.val c var) (r.of vec) i)
      (fun i => Nat.add_le_add_left (countLt_mono _ _ (Nat.le_succ i)) _) 0 (dom.nValues var)
    simp only [countLt_zero, Nat.add_zero, Nat.zero_add, htotal, hlen] at htile
    rwa [show r.beg + (r.stop - r.beg) = r.stop by omega] at htile

/-- What `create_childs` and `evaluate_split` rely on: the ranges lie in the
vectors and cover complete configurations. -/
structure Ready (dom : Domain) (nd : NodeData) (vecs : Vecs) : Prop where
  ordered : ∀ s, (nd.configs.get s).beg ≤ (nd.configs.get s).stop
  inside : ∀ s, (nd.configs.get s).stop ≤ (vecs.get s).length
  complete : ∀ s, ∀ c ∈ (nd.configs.get s).of (vecs.get s), c.Complete dom
  tested : nd.testedVars.length = dom.nVars

theorem Ready.of_sameAt {nd : NodeData} {vecs vecs' : Vecs} (h : Ready dom nd vecs)
    (hs : SameAt nd vecs vecs') : Ready dom nd vecs' where
  ordered := h.ordered
  inside s := by rw [hs.length]; exact h.inside s
  complete s := by rw [hs.of_eq]; exact h.complete s
  tested := h.tested

/-- The configurations of a node on one side. -/
def NodeData.side (nd : NodeData) (vecs : Vecs) (s : Bool) : List Config :=
  (nd.configs.get s).of (vecs.get s)

/-- The node as `create_childs` leaves it when the split variable is `var`. -/
def NodeData.split (nd : NodeData) (var : ℕ) : NodeData :=
  { nd with splitvar := var, testedVars := nd.testedVars.set var true }

@[simp] theorem NodeData.split_isLeaf (nd : NodeData) (var : ℕ) :
    (nd.split var).isLeaf = nd.isLeaf := rfl

/-- **`create_childs` splits both ranges** by the value of the split variable. -/
theorem createChilds_spec {nd : NodeData} {vecs : Vecs} {var : ℕ} (h : Ready dom nd vecs)
    (hvar : var < dom.nVars) :
    ∃ (ranges : ℕ → Arr2 SubRange) (vecs' : Vecs),
      createChilds dom { nd with splitvar := (var : ℤ) }
        ⟨freqTable dom (nd.side vecs false), freqTable dom (nd.side vecs true)⟩ vecs =
          .ok (nd.split var,
            (List.range (dom.nValues var)).map fun i => (nd.split var).child i (ranges i),
            vecs') ∧
      ∀ s, Parted dom var (nd.configs.get s) (vecs.get s) (fun i => (ranges i).get s)
        (vecs'.get s) := by
  obtain ⟨posMiss, vecMiss, hmiss, hpartMiss⟩ :=
    splitRange_spec hvar (h.ordered false) (h.inside false) (h.complete false)
  obtain ⟨posHit, vecHit, hhit, hpartHit⟩ :=
    splitRange_spec hvar (h.ordered true) (h.inside true) (h.complete true)
  refine ⟨fun i => ⟨childRange nd.configs.miss posMiss i, childRange nd.configs.hit posHit i⟩,
    ⟨vecMiss, vecHit⟩, ?_, ?_⟩
  · have hcheck : 0 ≤ (var : ℤ) ∧ (var : ℤ) < dom.nVars := by omega
    have hfreqMiss := vecAt_of_getElem? (freqTable_getElem? (nd.side vecs false) hvar)
    have hfreqHit := vecAt_of_getElem? (freqTable_getElem? (nd.side vecs true) hvar)
    simp only [NodeData.side, Arr2.get_false, Arr2.get_true] at hmiss hhit hfreqMiss hfreqHit ⊢
    simp only [createChilds, check_pos hcheck, ok_bind, Int.toNat_natCast, hfreqMiss, hmiss,
      hfreqHit, hhit, NodeData.split]
  · rintro (_ | _)
    · exact hpartMiss
    · exact hpartHit

end Split

/-! ## The result of growing -/

/-- The options already tested above a node. -/
def NodeData.seen (nd : NodeData) : Set ℕ := {v | nd.testedVars[v]? = some true}

/-- The truth value of a leaf that holds these misses and hits. -/
def leafLabel (defaultHit : Bool) (l : List Config × List Config) : Bool :=
  if l.2 = [] then if l.1 = [] then defaultHit else false else true

/-- The grown node `t` **fits** the configurations the node `nd` had when the
vectors were `vecs`, read in the vectors `vecs'`. -/
structure Fitted (dom : Domain) (nd : NodeData) (vecs : Vecs) (t : CNode) (vecs' : Vecs) :
    Prop where
  grown : DTree.Grown Config.val dom.nValues nd.seen (nd.side vecs false) (nd.side vecs true)
    (t.view vecs')
  wf : t.Wf dom nd.depth
  shape : ∀ defaultHit, t.shape defaultHit = (t.view vecs').map (leafLabel defaultHit)
  /-- What the node stands for depends on its own ranges only. -/
  reads : ∀ vecs'', SameAt nd vecs' vecs'' → t.view vecs'' = t.view vecs'

namespace Fitted

variable {dom : Domain} {nd : NodeData} {vecs vecs₀ vecs' vecs'' : Vecs} {t : CNode}

/-- The configurations were already there before a change elsewhere. -/
theorem before (h : Fitted dom nd vecs t vecs') (hs : SameAt nd vecs₀ vecs) :
    Fitted dom nd vecs₀ t vecs' where
  grown := by
    simp only [NodeData.side, ← hs.of_eq]
    exact h.grown
  wf := h.wf
  shape := h.shape
  reads := h.reads

/-- A later change elsewhere does not matter. -/
theorem after (h : Fitted dom nd vecs t vecs') (hs : SameAt nd vecs' vecs'') :
    Fitted dom nd vecs t vecs'' where
  grown := by
    rw [h.reads vecs'' hs]
    exact h.grown
  wf := h.wf
  shape := by
    rw [h.reads vecs'' hs]
    exact h.shape
  reads w hw := by rw [h.reads w (hs.trans hw), h.reads vecs'' hs]

end Fitted

/-- A relation between a node, the vectors before it was grown, what it has grown into
and the vectors afterwards is **local** when it depends on the node's own ranges only. -/
structure Local (F : NodeData → Vecs → CNode → Vecs → Prop) : Prop where
  before : ∀ {nd vecs₀ vecs t vecs'}, SameAt nd vecs₀ vecs → F nd vecs t vecs' → F nd vecs₀ t vecs'
  after : ∀ {nd vecs t vecs' vecs''}, F nd vecs t vecs' → SameAt nd vecs' vecs'' →
    F nd vecs t vecs''

theorem Fitted.isLocal (dom : Domain) : Local (Fitted dom) := ⟨fun hs h => h.before hs, after⟩

/-- **The loop over the children.**  Each child is grown inside its own ranges,
so a local relation that `eval` establishes holds of all of them and the vectors
around the loop. -/
theorem evaluateChilds_meets {F : NodeData → Vecs → CNode → Vecs → Prop} (hlocal : Local F)
    {E : Abort → Prop}
    {eval : NodeData → Vecs → Except Abort (CNode × Vecs)} {vecs₀ : Vecs} (nds : List NodeData)
    (heval : ∀ nd ∈ nds, ∀ vecs, SameAt nd vecs₀ vecs →
      Meets (eval nd vecs) (fun r => F nd vecs r.1 r.2 ∧
        ∀ s, Framed (nd.configs.get s).beg (nd.configs.get s).stop (vecs.get s) (r.2.get s)) E)
    {lo hi : Bool → ℕ} (htile : ∀ s, Tiled (lo s) (hi s) (nds.map fun nd => nd.configs.get s))
    {vecs : Vecs} (hsame : ∀ nd ∈ nds, SameAt nd vecs₀ vecs) :
    Meets (evaluateChilds eval nds vecs) (fun r =>
      List.Forall₂ (fun nd k => F nd vecs₀ k r.2) nds r.1 ∧
        ∀ s, Framed (lo s) (hi s) (vecs.get s) (r.2.get s)) E := by
  induction nds generalizing lo vecs with
  | nil => exact ⟨.nil, fun s => .refl _ _ _⟩
  | cons nd nds ih =>
      have hbeg : ∀ s, (nd.configs.get s).beg = lo s := fun s => (htile s).1
      have hle : ∀ s, lo s ≤ (nd.configs.get s).stop := fun s => (htile s).2.1
      have hrest : ∀ s, Tiled (nd.configs.get s).stop (hi s)
          (nds.map fun nd => nd.configs.get s) := fun s => (htile s).2.2
      have hnd : SameAt nd vecs₀ vecs := hsame nd (List.mem_cons_self ..)
      rw [evaluateChilds]
      refine meets_bind (heval nd (List.mem_cons_self ..) vecs hnd) ?_
      rintro ⟨k, vecs₁⟩ ⟨hfit, hframe⟩
      have hsame₁ : ∀ nd' ∈ nds, SameAt nd' vecs₀ vecs₁ := fun nd' hmem =>
        (hsame nd' (List.mem_cons_of_mem _ hmem)).trans (.of_framed hframe fun s =>
          .inr ((hrest s).bounds (List.mem_map.mpr ⟨nd', hmem, rfl⟩)).1)
      refine meets_bind (ih (fun nd' hmem => heval nd' (List.mem_cons_of_mem _ hmem)) hrest
        hsame₁) ?_
      rintro ⟨ks, vecs₂⟩ ⟨hfits, hframe₂⟩
      have hkeep : SameAt nd vecs₁ vecs₂ := .of_framed hframe₂ fun s => .inl (Nat.le_refl _)
      refine ⟨.cons (hlocal.after (hlocal.before hnd hfit) hkeep) hfits, fun s => ?_⟩
      exact ((hframe s).mono (Nat.le_of_eq (hbeg s).symm) (hrest s).le).trans
        ((hframe₂ s).mono (hle s) (Nat.le_refl _))

/-! ## Separation -/

/-- Every miss of the node differs from every hit at an untested option. -/
def Separated (nd : NodeData) (vecs : Vecs) : Prop :=
  ∀ m ∈ nd.side vecs false, ∀ h ∈ nd.side vecs true,
    ∃ v, nd.testedVars[v]? = some false ∧ m.val v ≠ h.val v

/-- The faults of `evaluate_split`: no split variable was found, which cannot
happen to a total selector on separated configurations. -/
def SplitFault (select : Selector) (nd : NodeData) (vecs : Vecs) (e : Abort) : Prop :=
  e = .noSplitvar ∧ ¬ (select.Total ∧ Separated nd vecs)

/-- Separation is inherited by the children. -/
theorem Separated.child {nd kid : NodeData} {vecs vecs' : Vecs} {var i : ℕ}
    (h : Separated nd vecs) (htested : kid.testedVars = nd.testedVars.set var true)
    (hside : ∀ s, kid.side vecs' s = DTree.bucket Config.val var i (nd.side vecs s)) :
    Separated kid vecs' := by
  intro m hm c hc
  rw [hside, DTree.mem_bucket] at hm hc
  obtain ⟨v, huntested, hne⟩ := h m hm.1 c hc.1
  refine ⟨v, ?_, hne⟩
  have hv : var ≠ v := by
    rintro rfl
    exact hne (hm.2.trans hc.2.symm)
  rw [htested, List.getElem?_set, if_neg hv, huntested]

/-- Testing a variable uses up one untested variable. -/
theorem count_set_lt {l : List Bool} {v : ℕ} (h : l[v]? = some false) :
    (l.set v true).count false < l.count false := by
  induction l generalizing v with
  | nil => simp at h
  | cons b l ih =>
      cases v with
      | zero =>
          obtain rfl : b = false := by simpa using h
          simp
      | succ v =>
          have := ih (v := v) (by simpa using h)
          cases b <;> simp <;> omega

/-! ## `evaluate_split` -/

section Evaluate

variable {dom : Domain}

theorem NodeData.side_eq_nil_iff {nd : NodeData} {vecs : Vecs} (h : Ready dom nd vecs)
    (s : Bool) : nd.side vecs s = [] ↔ (nd.configs.get s).empty = true := by
  have hlen := window_length (vecs.get s) (a := (nd.configs.get s).beg) (h.inside s)
  have := h.ordered s
  rw [← List.length_eq_zero_iff, NodeData.side, SubRange.of, hlen, SubRange.empty, beq_iff_eq]
  omega

/-- A leaf fits its configurations. -/
theorem Fitted.leaf {nd : NodeData} {vecs : Vecs} (h : Ready dom nd vecs)
    (hleaf : nd.isLeaf = true) {minCases : ℤ} :
    Fitted dom nd vecs (.mk { nd with minCases } []) vecs := by
  have hmiss := nd.side_eq_nil_iff h false
  have hhit := nd.side_eq_nil_iff h true
  have hleaf' : NodeData.isLeaf { nd with minCases } = true := hleaf
  simp only [Arr2.get_false, Arr2.get_true] at hmiss hhit
  refine ⟨?_, .leaf hleaf rfl, fun d => ?_, fun vecs'' hs => ?_⟩
  · rw [CNode.view, CNode.toTree_leaf _ hleaf']
    refine .leaf ?_
    rw [hmiss, hhit]
    simpa [NodeData.isLeaf, or_comm] using hleaf
  · rw [CNode.view, CNode.shape, CNode.toTree_leaf _ hleaf', CNode.toTree_leaf _ hleaf',
      DTree.map_leaf]
    change _ = DTree.leaf (leafLabel d (nd.side vecs false, nd.side vecs true))
    cases hb : nd.configs.hit.empty <;> cases ha : nd.configs.miss.empty <;>
      simp [leafLabel, NodeData.leafValue, hmiss, hhit, ha, hb]
  · have hf := hs.of_eq false
    have ht := hs.of_eq true
    simp only [Arr2.get_false, Arr2.get_true] at hf ht
    rw [CNode.view, CNode.view, CNode.toTree_leaf _ hleaf', CNode.toTree_leaf _ hleaf', hf, ht]

/-- Reading a list that is related, entry by entry, to an initial segment of the
natural numbers. -/
theorem forall₂_range {β : Type*} {R : ℕ → β → Prop} {n : ℕ} {l : List β}
    (h : List.Forall₂ R (List.range n) l) {i : ℕ} {b : β} (hb : l[i]? = some b) :
    i < n ∧ R i b := by
  obtain ⟨hlen, hget⟩ := List.forall₂_iff_get.mp h
  obtain ⟨hi, rfl⟩ := List.getElem?_eq_some_iff.mp hb
  have hi' : i < (List.range n).length := by rw [hlen]; exact hi
  have hR := hget i hi' hi
  rw [List.get_eq_getElem, List.get_eq_getElem, List.getElem_range] at hR
  exact ⟨by simpa using hi', hR⟩

/-- The sides of a mixed node are not empty. -/
theorem NodeData.side_ne_nil {nd : NodeData} {vecs : Vecs} (h : Ready dom nd vecs)
    (hleaf : nd.isLeaf = false) (s : Bool) : nd.side vecs s ≠ [] := by
  rw [Ne, nd.side_eq_nil_iff h s]
  simp only [NodeData.isLeaf, Bool.or_eq_false_iff] at hleaf
  cases s <;> simp [hleaf]

theorem NodeData.seen_child {nd : NodeData} {var i : ℕ} {range : Arr2 SubRange}
    (hvar : var < nd.testedVars.length) :
    ((nd.split var).child i range).seen = insert var nd.seen := by
  ext v
  simp only [NodeData.seen, NodeData.child, NodeData.split, Set.mem_ofPred_eq,
    Set.mem_insert_iff, List.getElem?_set, hvar, if_true]
  split
  · next heq => simp [heq]
  · next hne => simp [Ne.symm hne]

/-- An inner node fits when its children fit the parts of its ranges. -/
theorem Fitted.node {nd : NodeData} {vecs vecs₁ vecs₂ : Vecs} {var : ℕ} {ks : List CNode}
    {ranges : ℕ → Arr2 SubRange} (h : Ready dom nd vecs) (hleaf : nd.isLeaf = false)
    (hvar : var < dom.nVars) (huntested : nd.testedVars[var]? = some false)
    (hpart : ∀ s, Parted dom var (nd.configs.get s) (vecs.get s) (fun i => (ranges i).get s)
      (vecs₁.get s))
    (hfit : List.Forall₂ (fun i k => Fitted dom ((nd.split var).child i (ranges i)) vecs₁ k vecs₂)
      (List.range (dom.nValues var)) ks) (minCases : ℤ) :
    Fitted dom nd vecs (.mk { nd.split var with minCases } ks) vecs₂ := by
  have hleaf' : NodeData.isLeaf { nd.split var with minCases } = false := hleaf
  have hlen : ks.length = dom.nValues var := by simpa using hfit.length_eq.symm
  have hto : (nd.split var).splitvar.toNat = var := Int.toNat_natCast var
  have hkid : ∀ k ∈ ks, ∃ i < dom.nValues var,
      Fitted dom ((nd.split var).child i (ranges i)) vecs₁ k vecs₂ := by
    intro k hk
    obtain ⟨i, hi⟩ := List.mem_iff_getElem?.mp hk
    exact ⟨i, forall₂_range hfit hi⟩
  refine ⟨?_, ?_, fun d => ?_, fun vecs'' hs => ?_⟩
  · rw [CNode.view, CNode.toTree_node _ hleaf', hto]
    refine .node (by simp [NodeData.seen, huntested]) (nd.side_ne_nil h hleaf false)
      (nd.side_ne_nil h hleaf true) (dom.nValues_pos hvar) (by rw [List.length_map, hlen])
      fun i k hk => ?_
    rw [List.getElem?_map, Option.map_eq_some_iff] at hk
    obtain ⟨k', hk', rfl⟩ := hk
    obtain ⟨hi, hfitk⟩ := forall₂_range hfit hk'
    have hgrown := hfitk.grown
    rw [NodeData.seen_child (by rw [h.tested]; exact hvar)] at hgrown
    have hmiss := (hpart false).of_eq i hi
    have hhit := (hpart true).of_eq i hi
    simp only [NodeData.side, NodeData.child] at hgrown ⊢
    rwa [hmiss, hhit] at hgrown
  · refine .node hleaf' rfl rfl hvar hlen fun k hk => ?_
    obtain ⟨i, -, hfitk⟩ := hkid k hk
    exact hfitk.wf
  · rw [CNode.view, CNode.shape, CNode.toTree_node _ hleaf', CNode.toTree_node _ hleaf',
      DTree.map_node, List.map_map]
    refine congrArg _ (List.map_congr_left fun k hk => ?_)
    obtain ⟨i, -, hfitk⟩ := hkid k hk
    exact hfitk.shape d
  · rw [CNode.view, CNode.view, CNode.toTree_node _ hleaf', CNode.toTree_node _ hleaf']
    refine congrArg _ (List.map_congr_left fun k hk => ?_)
    obtain ⟨i, hi, hfitk⟩ := hkid k hk
    refine hfitk.reads vecs'' ⟨hs.length, fun s p hlo hhi => hs.entry s p ?_ ?_⟩
    -- the range of child `i` lies inside the range of the node
    all_goals
      have hbounds := (hpart s).tiled.bounds
        (List.mem_map.mpr ⟨i, List.mem_range.mpr hi, rfl⟩)
      simp only [NodeData.child] at hlo hhi
      omega

/-- The ranges `create_childs` gives to a child are ready for growing it. -/
theorem Ready.child {nd : NodeData} {vecs vecs₁ : Vecs} {var i : ℕ}
    {ranges : ℕ → Arr2 SubRange} (h : Ready dom nd vecs) (hi : i < dom.nValues var)
    (hpart : ∀ s, Parted dom var (nd.configs.get s) (vecs.get s) (fun i => (ranges i).get s)
      (vecs₁.get s)) :
    Ready dom ((nd.split var).child i (ranges i)) vecs₁ := by
  have hbounds := fun s => (hpart s).tiled.bounds
    (List.mem_map.mpr ⟨i, List.mem_range.mpr hi, rfl⟩)
  refine ⟨fun s => (hbounds s).2.1, fun s => ?_, fun s c hc => ?_, ?_⟩
  · rw [(hpart s).framed.length]
    exact Nat.le_trans (hbounds s).2.2 (h.inside s)
  · simp only [NodeData.child] at hc
    rw [(hpart s).of_eq i hi, DTree.mem_bucket] at hc
    exact h.complete s c hc.1
  · simp only [NodeData.child, NodeData.split, List.length_set]
    exact h.tested

/-- The only fault of `evaluate_split`: the selector found no variable at a mixed node,
which is separated if `nd` is. -/
def Stuck (dom : Domain) (select : Selector) (params : SplitParams) (nd : NodeData) (vecs : Vecs)
    (e : Abort) : Prop :=
  e = .noSplitvar ∧ ∃ nd' vecs', Ready dom nd' vecs' ∧ nd'.isLeaf = false ∧
    (Separated nd vecs → Separated nd' vecs') ∧
    select.choose params nd'.testedVars (nd'.side vecs' false) (nd'.side vecs' true) = -1

/-- A child that is stuck makes its parent stuck. -/
theorem Stuck.child {select : Selector} {params : SplitParams} {nd : NodeData}
    {vecs vecs₁ v : Vecs} {var i : ℕ} {ranges : ℕ → Arr2 SubRange} (hi : i < dom.nValues var)
    (hpart : ∀ s, Parted dom var (nd.configs.get s) (vecs.get s) (fun i => (ranges i).get s)
      (vecs₁.get s))
    (hv : SameAt ((nd.split var).child i (ranges i)) vecs₁ v) {e : Abort}
    (h : Stuck dom select params ((nd.split var).child i (ranges i)) v e) :
    Stuck dom select params nd vecs e := by
  obtain ⟨he, nd', vecs', hready, hmixed, hsep, hnone⟩ := h
  refine ⟨he, nd', vecs', hready, hmixed, fun hnd => hsep ?_, hnone⟩
  have hside : ∀ s, ((nd.split var).child i (ranges i)).side v s =
      DTree.bucket Config.val var i (nd.side vecs s) := by
    intro s
    rw [NodeData.side, hv.of_eq s]
    exact (hpart s).of_eq i hi
  exact hnd.child rfl hside

/-- A mixed node that is separated has an untested option. -/
theorem Separated.exists_untested {nd : NodeData} {vecs : Vecs} (h : Separated nd vecs)
    (hready : Ready dom nd vecs) (hmixed : nd.isLeaf = false) :
    ∃ v, nd.testedVars[v]? = some false ∧ ∃ m ∈ nd.side vecs false, ∃ c ∈ nd.side vecs true,
      m.val v ≠ c.val v := by
  obtain ⟨m, hm⟩ := List.exists_mem_of_ne_nil _ (nd.side_ne_nil hready hmixed false)
  obtain ⟨c, hc⟩ := List.exists_mem_of_ne_nil _ (nd.side_ne_nil hready hmixed true)
  obtain ⟨v, hv, hne⟩ := h m hm c hc
  exact ⟨v, hv, m, hm, c, hc, hne⟩

theorem Stuck.splitFault {select : Selector} {params : SplitParams} {nd : NodeData} {vecs : Vecs}
    {e : Abort} (h : Stuck dom select params nd vecs e) : SplitFault select nd vecs e := by
  obtain ⟨he, nd', vecs', hready, hmixed, hsep, hnone⟩ := h
  refine ⟨he, ?_⟩
  rintro ⟨htotal, hnd⟩
  obtain ⟨v, hv, -⟩ := (hsep hnd).exists_untested hready hmixed
  exact htotal params _ _ _ (nd'.side_ne_nil hready hmixed false)
    (nd'.side_ne_nil hready hmixed true) (List.mem_of_getElem? hv) hnone

/-- What `evaluate_split` does at a mixed node before it goes on with the children. -/
def splitNode (dom : Domain) (select : Selector) (params : SplitParams) (nd : NodeData)
    (vecs : Vecs) : Except Abort (NodeData × List NodeData × Vecs) := do
  let miss := nd.configs.miss.of vecs.miss
  let hit := nd.configs.hit.of vecs.hit
  let freqMiss ← calcFreq dom miss
  let freqHit ← calcFreq dom hit
  let splitvar := select.choose params nd.testedVars miss hit
  check (splitvar ≠ -1) .noSplitvar
  let _ ← vecAt dom.vars (← sizeT splitvar)
  createChilds dom { nd with splitvar } ⟨freqMiss, freqHit⟩ vecs

theorem evaluateSplit_succ {select : Selector} {params : SplitParams} (fuel : ℕ) {nd : NodeData}
    (hmixed : nd.isLeaf = false) (vecs : Vecs) :
    evaluateSplit dom select params (fuel + 1) nd vecs =
      splitNode dom select params nd vecs >>= fun r =>
        evaluateChilds (evaluateSplit dom select params fuel) r.2.1 r.2.2 >>= fun r' =>
          .ok (.mk { r.1 with minCases := minOver r'.1 } r'.1, r'.2) := by
  rw [evaluateSplit, if_neg (by simp [hmixed])]
  simp only [splitNode, bind_assoc]

/-- The node has been split at `var`: its children have the given ranges, and the vectors
have been rearranged accordingly. -/
structure SplitAt (dom : Domain) (nd : NodeData) (vecs : Vecs) (var : ℕ)
    (ranges : ℕ → Arr2 SubRange) (vecs₁ : Vecs) : Prop where
  ready : Ready dom nd vecs
  mixed : nd.isLeaf = false
  lt : var < dom.nVars
  untested : nd.testedVars[var]? = some false
  parted : ∀ s, Parted dom var (nd.configs.get s) (vecs.get s) (fun i => (ranges i).get s)
    (vecs₁.get s)

/-- The children of a node that is split at `var`. -/
def NodeData.kids (dom : Domain) (nd : NodeData) (var : ℕ) (ranges : ℕ → Arr2 SubRange) :
    List NodeData :=
  (List.range (dom.nValues var)).map fun i => (nd.split var).child i (ranges i)

theorem NodeData.mem_kids {nd kid : NodeData} {var : ℕ} {ranges : ℕ → Arr2 SubRange} :
    kid ∈ nd.kids dom var ranges ↔
      ∃ i < dom.nValues var, (nd.split var).child i (ranges i) = kid := by
  simp [kids]

theorem SplitAt.tiled {nd : NodeData} {vecs vecs₁ : Vecs} {var : ℕ} {ranges : ℕ → Arr2 SubRange}
    (h : SplitAt dom nd vecs var ranges vecs₁) (s : Bool) :
    Tiled (nd.configs.get s).beg (nd.configs.get s).stop
      ((nd.kids dom var ranges).map fun kid => kid.configs.get s) := by
  rw [NodeData.kids, List.map_map]
  exact (h.parted s).tiled

/-- **Splitting a mixed node**, at the variable the selector returns. -/
theorem splitNode_meets {select : Selector} {params : SplitParams} {nd : NodeData} {vecs : Vecs}
    (h : Ready dom nd vecs) (hmixed : nd.isLeaf = false) :
    Meets (splitNode dom select params nd vecs)
      (fun r => ∃ (var : ℕ) (ranges : ℕ → Arr2 SubRange),
        select.choose params nd.testedVars (nd.side vecs false) (nd.side vecs true) = var ∧
        r.1 = nd.split var ∧ r.2.1 = nd.kids dom var ranges ∧
          SplitAt dom nd vecs var ranges r.2.2)
      (Stuck dom select params nd vecs) := by
  have hmiss : calcFreq dom (nd.configs.miss.of vecs.miss) =
      .ok (freqTable dom (nd.side vecs false)) := calcFreq_eq (h.complete false)
  have hhit : calcFreq dom (nd.configs.hit.of vecs.hit) =
      .ok (freqTable dom (nd.side vecs true)) := calcFreq_eq (h.complete true)
  simp only [splitNode, hmiss, hhit, ok_bind]
  refine meets_check_bind (fun hfound => ?_) fun hnone =>
    ⟨rfl, nd, vecs, h, hmixed, id, not_not.mp hnone⟩
  obtain hnone | ⟨var, hvar, huntested⟩ := select.untested params nd.testedVars
    (nd.configs.miss.of vecs.miss) (nd.configs.hit.of vecs.hit)
  · exact absurd hnone hfound
  have hlt : var < dom.nVars := by
    rw [← h.tested]
    exact (List.getElem?_eq_some_iff.mp huntested).1
  have hget := vecAt_of_getElem? (List.getElem?_eq_getElem hlt)
  obtain ⟨ranges, vecs₁, hcreate, hpart⟩ := createChilds_spec h hlt
  have hchoose := hvar
  simp only [hvar, sizeT_natCast, ok_bind]
  rw [hget, ok_bind, hcreate, meets_ok]
  exact ⟨var, ranges, hchoose, rfl, rfl, h, hmixed, hlt, huntested, hpart⟩

/-- The node has been split at `var` and its children have been grown one after the other,
all inside the ranges of the node; `F` holds of each of them. -/
structure SplitInto (dom : Domain) (F : NodeData → Vecs → CNode → Vecs → Prop) (nd : NodeData)
    (vecs : Vecs) (var : ℕ) (ranges : ℕ → Arr2 SubRange) (vecs₁ : Vecs) (ks : List CNode)
    (vecs₂ : Vecs) : Prop extends SplitAt dom nd vecs var ranges vecs₁ where
  grown : List.Forall₂ (fun i k => F ((nd.split var).child i (ranges i)) vecs₁ k vecs₂)
    (List.range (dom.nValues var)) ks
  within : ∀ s, Framed (nd.configs.get s).beg (nd.configs.get s).stop (vecs.get s) (vecs₂.get s)

/-- **The rule for `evaluate_split`.**  A local relation that holds of leaves, and of an
inner node when it holds of its children, holds of what `evaluate_split` returns.  With
more fuel than untested options the recursion ends, and the only possible fault is that
no split variable was found. -/
theorem evaluateSplit_rule {select : Selector} {params : SplitParams}
    {F : NodeData → Vecs → CNode → Vecs → Prop} (hlocal : Local F)
    (hleaf : ∀ nd vecs, Ready dom nd vecs → nd.isLeaf = true →
      F nd vecs (.mk { nd with minCases := nd.nTotal } []) vecs)
    (hnode : ∀ nd vecs var ranges vecs₁ ks vecs₂,
      SplitInto dom F nd vecs var ranges vecs₁ ks vecs₂ →
      select.choose params nd.testedVars (nd.side vecs false) (nd.side vecs true) = var →
      F nd vecs (.mk { nd.split var with minCases := minOver ks } ks) vecs₂)
    (fuel : ℕ) {nd : NodeData} {vecs : Vecs} (h : Ready dom nd vecs)
    (hfuel : nd.testedVars.count false < fuel) :
    Meets (evaluateSplit dom select params fuel nd vecs)
      (fun r => F nd vecs r.1 r.2 ∧
        ∀ s, Framed (nd.configs.get s).beg (nd.configs.get s).stop (vecs.get s) (r.2.get s))
      (Stuck dom select params nd vecs) := by
  induction fuel generalizing nd vecs with
  | zero => exact absurd hfuel (Nat.not_lt_zero _)
  | succ fuel ih =>
      cases hmixed : nd.isLeaf with
      | true =>
          have hpure : nd.nHits = 0 ∨ nd.nMisses = 0 := by
            simp only [NodeData.isLeaf, SubRange.empty, Bool.or_eq_true, beq_iff_eq] at hmixed
            simp only [NodeData.nHits, NodeData.nMisses, SubRange.size]
            omega
          rw [evaluateSplit, if_pos hmixed, check_pos hpure, ok_bind, meets_ok]
          exact ⟨hleaf nd vecs h hmixed, fun s => .refl _ _ _⟩
      | false =>
          rw [evaluateSplit_succ fuel hmixed]
          refine meets_bind (splitNode_meets h hmixed) ?_
          rintro ⟨_, _, vecs₁⟩ ⟨var, ranges, hchoose, rfl, rfl, hsplit⟩
          -- the variable is untested, so the fuel suffices for the children
          have hcount := count_set_lt hsplit.untested
          have hgrow : ∀ kid ∈ nd.kids dom var ranges, ∀ v, SameAt kid vecs₁ v →
              Meets (evaluateSplit dom select params fuel kid v) (fun r =>
                F kid v r.1 r.2 ∧
                  ∀ s, Framed (kid.configs.get s).beg (kid.configs.get s).stop (v.get s)
                    (r.2.get s)) (Stuck dom select params nd vecs) := by
            intro kid hkid v hv
            obtain ⟨i, hi, rfl⟩ := NodeData.mem_kids.mp hkid
            refine (ih ((h.child hi hsplit.parted).of_sameAt hv) ?_).mono (fun _ hr => hr)
              fun e he => he.child hi hsplit.parted hv
            simp only [NodeData.child, NodeData.split]
            omega
          refine meets_bind (evaluateChilds_meets hlocal _ hgrow hsplit.tiled fun kid _ =>
            .refl _ _) ?_
          rintro ⟨ks, vecs₂⟩ ⟨hkids, hframe⟩
          rw [NodeData.kids, List.forall₂_map_left_iff] at hkids
          have hwithin := fun s => (hsplit.parted s).framed.trans (hframe s)
          exact ⟨hnode nd vecs var ranges vecs₁ ks vecs₂ ⟨hsplit, hkids, hwithin⟩ hchoose,
            hwithin⟩

/-- **`evaluate_split` grows a tree that fits** the configurations of the node. -/
theorem evaluateSplit_meets (select : Selector) (params : SplitParams) (fuel : ℕ)
    {nd : NodeData} {vecs : Vecs} (h : Ready dom nd vecs)
    (hfuel : nd.testedVars.count false < fuel) :
    Meets (evaluateSplit dom select params fuel nd vecs)
      (fun r => Fitted dom nd vecs r.1 r.2 ∧
        ∀ s, Framed (nd.configs.get s).beg (nd.configs.get s).stop (vecs.get s) (r.2.get s))
      (SplitFault select nd vecs) :=
  (evaluateSplit_rule (Fitted.isLocal dom) (fun _ _ hready hleaf => .leaf hready hleaf)
    (fun _ _ _ _ _ _ _ hsplit _ => .node hsplit.ready hsplit.mixed hsplit.lt hsplit.untested
      hsplit.parted hsplit.grown _) fuel h hfuel).mono (fun _ hr => hr) fun _ he => he.splitFault

end Evaluate

end GenTree

import Mathlib.Data.List.Basic
import Mathlib.Data.Set.Insert

/-!
# Decision trees and the samples they are grown from

A decision tree over variables `ι` tests one variable at each inner node and has
one child for each value.  This module has the general theory the rest of the
development instantiates:

* `DTree`, its induction principle, `eval`, `map` and `leaves`;
* `Shaped arity` — every node has one child for each value of its variable —
  which is what makes `eval` total;
* `ReadOnce seen` — no variable is tested twice on a path;
* `Grown val arity seen miss hit` — the tree **fits two lists of samples**: a
  mixed node splits both lists by the value of a fresh variable, and a leaf
  keeps the samples that reached it.

`Grown` is the specification of a learner.  It says nothing about how the split
variable is chosen or in which order the samples are moved around, so every
consequence below (`Grown.readOnce`, `Grown.leaves_pure`, `Grown.eval_hit`,
`Grown.eval_miss`) holds of any splitting heuristic and of any in-place
representation.
-/

universe u v w

/-- A decision tree: a leaf with a label, or a test of the variable `x` with the
child for each value in order. -/
inductive DTree (ι : Type u) (β : Type v) : Type (max u v)
  | leaf (label : β) : DTree ι β
  | node (x : ι) (kids : List (DTree ι β)) : DTree ι β

namespace DTree

variable {ι : Type u} {β : Type v} {γ : Type w}

/-- Induction over decision trees, with the hypothesis for every child. -/
@[elab_as_elim, induction_eliminator]
theorem induction {motive : DTree ι β → Prop}
    (leaf : ∀ label, motive (.leaf label))
    (node : ∀ x kids, (∀ k ∈ kids, motive k) → motive (.node x kids)) :
    ∀ t, motive t := fun t =>
  DTree.rec (motive_1 := motive) (motive_2 := fun kids => ∀ k ∈ kids, motive k)
    leaf node (fun k hk => absurd hk List.not_mem_nil)
    (fun k kids hk hkids k' hk' => by
      rcases List.mem_cons.mp hk' with rfl | hmem
      · exact hk
      · exact hkids k' hmem) t

/-! ## Evaluation -/

mutual

/-- Follow the tests of `t` under the assignment `a`.  `none` is a value without
a child. -/
def eval (a : ι → ℕ) : DTree ι β → Option β
  | .leaf label => some label
  | .node x kids => evalKid a kids (a x)

/-- Evaluate the `i`-th child. -/
def evalKid (a : ι → ℕ) : List (DTree ι β) → ℕ → Option β
  | [], _ => none
  | k :: _, 0 => eval a k
  | _ :: ks, i + 1 => evalKid a ks i

end

theorem evalKid_eq (a : ι → ℕ) (kids : List (DTree ι β)) (i : ℕ) :
    evalKid a kids i = kids[i]?.bind (eval a) := by
  induction kids generalizing i with
  | nil => simp [evalKid]
  | cons k ks ih =>
      cases i with
      | zero => simp [evalKid]
      | succ i => simp [evalKid, ih]

@[simp] theorem eval_leaf (a : ι → ℕ) (label : β) :
    eval a (.leaf label : DTree ι β) = some label := by
  rw [eval]

theorem eval_node (a : ι → ℕ) (x : ι) (kids : List (DTree ι β)) :
    eval a (.node x kids) = kids[a x]?.bind (eval a) := by
  rw [eval, evalKid_eq]

/-! ## Relabelling -/

mutual

/-- Change the labels. -/
def map (f : β → γ) : DTree ι β → DTree ι γ
  | .leaf label => .leaf (f label)
  | .node x kids => .node x (mapKids f kids)

/-- Change the labels of all children. -/
def mapKids (f : β → γ) : List (DTree ι β) → List (DTree ι γ)
  | [] => []
  | k :: ks => map f k :: mapKids f ks

end

@[simp] theorem mapKids_eq (f : β → γ) (kids : List (DTree ι β)) :
    mapKids f kids = kids.map (map f) := by
  induction kids with
  | nil => rfl
  | cons k ks ih => simp [mapKids, ih]

@[simp] theorem map_leaf (f : β → γ) (label : β) :
    (DTree.leaf label : DTree ι β).map f = .leaf (f label) := by
  rw [map]

@[simp] theorem map_node (f : β → γ) (x : ι) (kids : List (DTree ι β)) :
    (DTree.node x kids).map f = .node x (kids.map (map f)) := by
  rw [map, mapKids_eq]

/-- Relabelling commutes with evaluation. -/
theorem eval_map (f : β → γ) (a : ι → ℕ) (t : DTree ι β) :
    (t.map f).eval a = (t.eval a).map f := by
  induction t with
  | leaf label => simp
  | node x kids ih =>
      rw [map_node, eval_node, eval_node, List.getElem?_map]
      cases hk : kids[a x]? with
      | none => rfl
      | some k => exact ih k (List.mem_of_getElem? hk)

/-! ## Leaves -/

mutual

/-- The labels of the leaves, from left to right. -/
def leaves : DTree ι β → List β
  | .leaf label => [label]
  | .node _ kids => leavesKids kids

/-- The labels of the leaves of all children. -/
def leavesKids : List (DTree ι β) → List β
  | [] => []
  | k :: ks => leaves k ++ leavesKids ks

end

@[simp] theorem leavesKids_eq (kids : List (DTree ι β)) :
    leavesKids kids = kids.flatMap leaves := by
  induction kids with
  | nil => rfl
  | cons k ks ih => simp [leavesKids, ih]

@[simp] theorem leaves_leaf (label : β) :
    (DTree.leaf label : DTree ι β).leaves = [label] := by
  rw [leaves]

@[simp] theorem leaves_node (x : ι) (kids : List (DTree ι β)) :
    (DTree.node x kids).leaves = kids.flatMap leaves := by
  rw [leaves, leavesKids_eq]

/-- The leaf an evaluation ends in is one of the leaves. -/
theorem mem_leaves_of_eval {a : ι → ℕ} {t : DTree ι β} {label : β}
    (h : t.eval a = some label) : label ∈ t.leaves := by
  induction t with
  | leaf l => simpa using h.symm
  | node x kids ih =>
      rw [eval_node, Option.bind_eq_some_iff] at h
      obtain ⟨k, hk, hlabel⟩ := h
      have hmem := List.mem_of_getElem? hk
      rw [leaves_node, List.mem_flatMap]
      exact ⟨k, hmem, ih k hmem hlabel⟩

/-! ## Shape -/

/-- Every node has one child for each of the `arity x` values of its variable,
which has some value. -/
inductive Shaped (arity : ι → ℕ) : DTree ι β → Prop
  | leaf (label : β) : Shaped arity (.leaf label)
  | node {x : ι} {kids : List (DTree ι β)} (pos : 0 < arity x)
      (length : kids.length = arity x) (kid : ∀ k ∈ kids, Shaped arity k) :
      Shaped arity (.node x kids)

/-- No variable of `seen` is tested, and none is tested twice on a path. -/
inductive ReadOnce : Set ι → DTree ι β → Prop
  | leaf (seen : Set ι) (label : β) : ReadOnce seen (.leaf label)
  | node {seen : Set ι} {x : ι} {kids : List (DTree ι β)} (fresh : x ∉ seen)
      (kid : ∀ k ∈ kids, ReadOnce (insert x seen) k) : ReadOnce seen (.node x kids)

/-! ## Growth from samples -/

section Growth

variable {σ : Type w} (val : σ → ι → ℕ) (arity : ι → ℕ)

/-- The samples whose value of `x` is `i`. -/
def bucket (x : ι) (i : ℕ) (l : List σ) : List σ := l.filter fun s => val s x == i

@[simp] theorem mem_bucket {x : ι} {i : ℕ} {l : List σ} {s : σ} :
    s ∈ bucket val x i l ↔ s ∈ l ∧ val s x = i := by
  simp [bucket]

/-- **A tree that fits its samples.**  A node may be a leaf only when one of the
two lists is empty; otherwise it tests a variable not tested above it, and the
child for each value is grown from the samples with that value. -/
inductive Grown : Set ι → List σ → List σ → DTree ι (List σ × List σ) → Prop
  | leaf {seen : Set ι} {miss hit : List σ} (pure : miss = [] ∨ hit = []) :
      Grown seen miss hit (.leaf (miss, hit))
  | node {seen : Set ι} {miss hit : List σ} {x : ι}
      {kids : List (DTree ι (List σ × List σ))} (fresh : x ∉ seen)
      (miss_ne : miss ≠ []) (hit_ne : hit ≠ []) (pos : 0 < arity x)
      (length : kids.length = arity x)
      (kid : ∀ i k, kids[i]? = some k →
        Grown (insert x seen) (bucket val x i miss) (bucket val x i hit) k) :
      Grown seen miss hit (.node x kids)

namespace Grown

variable {val arity} {seen : Set ι} {miss hit : List σ} {t : DTree ι (List σ × List σ)}

theorem readOnce (h : Grown val arity seen miss hit t) : ReadOnce seen t := by
  induction h with
  | leaf _ => exact .leaf _ _
  | node hfresh _ _ _ _ _ ih =>
      refine .node hfresh fun k hk => ?_
      obtain ⟨i, hi⟩ := List.mem_iff_getElem?.mp hk
      exact ih i k hi

/-- Every leaf is empty or pure. -/
theorem leaves_pure (h : Grown val arity seen miss hit t) :
    ∀ l ∈ t.leaves, l.1 = [] ∨ l.2 = [] := by
  induction h with
  | leaf hpure => simpa using hpure
  | node _ _ _ _ _ _ ih =>
      intro l hl
      rw [leaves_node, List.mem_flatMap] at hl
      obtain ⟨k, hk, hlk⟩ := hl
      obtain ⟨i, hi⟩ := List.mem_iff_getElem?.mp hk
      exact ih i k hi l hlk

/-- The leaves only hold samples. -/
theorem leaves_subset (h : Grown val arity seen miss hit t) :
    ∀ l ∈ t.leaves, l.1 ⊆ miss ∧ l.2 ⊆ hit := by
  induction h with
  | leaf _ => simp
  | node _ _ _ _ _ _ ih =>
      intro l hl
      rw [leaves_node, List.mem_flatMap] at hl
      obtain ⟨k, hk, hlk⟩ := hl
      obtain ⟨i, hi⟩ := List.mem_iff_getElem?.mp hk
      obtain ⟨hmiss, hhit⟩ := ih i k hi l hlk
      exact ⟨fun s hs => ((mem_bucket _).mp (hmiss hs)).1, fun s hs => ((mem_bucket _).mp (hhit hs)).1⟩

/-- **A hit sample reaches a leaf that keeps it.** -/
theorem eval_hit (h : Grown val arity seen miss hit t) {s : σ} (hs : s ∈ hit)
    (ha : ∀ x, 0 < arity x → val s x < arity x) :
    ∃ l, t.eval (val s) = some l ∧ s ∈ l.2 := by
  induction h with
  | leaf _ => exact ⟨_, eval_leaf _ _, hs⟩
  | @node _ _ _ x kids _ _ _ hpos hlen _ ih =>
      have hlt : val s x < kids.length := by rw [hlen]; exact ha x hpos
      have hget := List.getElem?_eq_getElem hlt
      obtain ⟨l, hl, hmem⟩ := ih _ _ hget ((mem_bucket val).mpr ⟨hs, rfl⟩)
      exact ⟨l, by rw [eval_node, hget, Option.bind_some, hl], hmem⟩

/-- **A miss sample reaches a leaf that keeps it.** -/
theorem eval_miss (h : Grown val arity seen miss hit t) {s : σ} (hs : s ∈ miss)
    (ha : ∀ x, 0 < arity x → val s x < arity x) :
    ∃ l, t.eval (val s) = some l ∧ s ∈ l.1 := by
  induction h with
  | leaf _ => exact ⟨_, eval_leaf _ _, hs⟩
  | @node _ _ _ x kids _ _ _ hpos hlen _ ih =>
      have hlt : val s x < kids.length := by rw [hlen]; exact ha x hpos
      have hget := List.getElem?_eq_getElem hlt
      obtain ⟨l, hl, hmem⟩ := ih _ _ hget ((mem_bucket val).mpr ⟨hs, rfl⟩)
      exact ⟨l, by rw [eval_node, hget, Option.bind_some, hl], hmem⟩

/-- A tree grown from at least one hit is not a single leaf without hits. -/
theorem leaf_hit_ne (h : Grown val arity seen miss hit t) (hne : hit ≠ [])
    {l : List σ × List σ} (ht : t = .leaf l) : l.2 ≠ [] := by
  cases h with
  | leaf _ => cases ht; exact hne
  | node => cases ht

end Grown

/-- A labelled tree is **productive** when below each inner node some child is
more than a leaf labelled `false`. -/
inductive Productive : DTree ι Bool → Prop
  | leaf (label : Bool) : Productive (.leaf label)
  | node {x : ι} {kids : List (DTree ι Bool)} (some_kid : ∃ k ∈ kids, k ≠ .leaf false)
      (kid : ∀ k ∈ kids, Productive k) : Productive (.node x kids)

/-- A grown tree is productive when its leaves with hits are labelled `true`:
the hits of an inner node go on to some child. -/
theorem Grown.productive {val arity} {seen : Set ι} {miss hit : List σ}
    {t : DTree ι (List σ × List σ)} (h : Grown val arity seen miss hit t)
    (hval : ∀ s ∈ hit, ∀ x, 0 < arity x → val s x < arity x)
    {f : List σ × List σ → Bool} (hf : ∀ l, l.2 ≠ [] → f l = true) : Productive (t.map f) := by
  induction h with
  | leaf _ => rw [map_leaf]; exact .leaf _
  | @node seen miss hit x kids _ _ hhit hpos hlen hkid ih =>
      rw [map_node]
      refine .node ?_ fun k hk => ?_
      · obtain ⟨s, hs⟩ := List.exists_mem_of_ne_nil _ hhit
        have hlt : val s x < kids.length := by rw [hlen]; exact hval s hs x hpos
        have hget := List.getElem?_eq_getElem hlt
        refine ⟨_, List.mem_map.mpr ⟨_, List.getElem_mem hlt, rfl⟩, fun hleaf => ?_⟩
        have hne : bucket val x (val s x) hit ≠ [] :=
          List.ne_nil_of_mem ((mem_bucket val).mpr ⟨hs, rfl⟩)
        cases hk : kids[val s x] with
        | node y ks =>
            rw [hk, map_node] at hleaf
            cases hleaf
        | leaf l =>
            rw [hk, map_leaf, hf l ((hkid _ _ hget).leaf_hit_ne hne hk)] at hleaf
            cases hleaf
      · obtain ⟨k', hk', rfl⟩ := List.mem_map.mp hk
        obtain ⟨i, hi⟩ := List.mem_iff_getElem?.mp hk'
        exact ih i k' hi fun s hs => hval s ((mem_bucket val).mp hs).1

end Growth

end DTree

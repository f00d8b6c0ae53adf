import Mathlib.Data.List.Basic

/-!
# Leaders of a list of keys

Positions with equal keys form a group, and the first position of a group is its
leader.  `leader keys j` is the leader of the group of position `j`.  Two
positions have the same leader exactly when they have the same key
(`leader_eq_leader_iff`), and a position is its own leader exactly when its key has
not occurred before (`leader_lt_iff`).  A map from keys to positions that is filled as the list
is walked finds the leaders (`Finds.found`, `Finds.enter`).

When every element of a list has its root among `roots`, the groups of these roots put
one after the other are the whole list (`flatMap_filter_perm`).
-/

namespace Leaders

universe u

variable {κ : Type u} [DecidableEq κ] {keys : List κ} {i j : ℕ}

/-- The first position with the key of position `j`. -/
def leader (keys : List κ) (j : ℕ) : ℕ :=
  match keys[j]? with
  | some k => keys.idxOf k
  | none => j

theorem leader_eq_idxOf {k : κ} (h : keys[j]? = some k) : leader keys j = keys.idxOf k := by
  simp [leader, h]

theorem idxOf_le {k : κ} (h : keys[j]? = some k) : keys.idxOf k ≤ j := by
  obtain ⟨hlt, rfl⟩ := List.getElem?_eq_some_iff.mp h
  by_contra hle
  have hne := List.not_of_lt_findIdx (p := (· == keys[j])) (Nat.not_le.mp hle)
  simp at hne

theorem leader_le (keys : List κ) (j : ℕ) : leader keys j ≤ j := by
  cases h : keys[j]? with
  | none => simp [leader, h]
  | some k =>
      rw [leader_eq_idxOf h]
      exact idxOf_le h

/-- The leader has the key of its group. -/
theorem getElem?_leader {k : κ} (h : keys[j]? = some k) : keys[leader keys j]? = some k := by
  rw [leader_eq_idxOf h]
  exact List.getElem?_idxOf (List.mem_of_getElem? h)

theorem leader_lt_length (h : j < keys.length) : leader keys j < keys.length :=
  Nat.lt_of_le_of_lt (leader_le keys j) h

/-- **Groups have equal keys.** -/
theorem leader_eq_leader_iff (hi : i < keys.length) (hj : j < keys.length) :
    leader keys i = leader keys j ↔ keys[i]? = keys[j]? := by
  have hgeti := List.getElem?_eq_getElem hi
  have hgetj := List.getElem?_eq_getElem hj
  constructor
  · intro heq
    rw [hgeti, hgetj, ← getElem?_leader hgeti, ← getElem?_leader hgetj, heq]
  · intro heq
    rw [hgeti, hgetj, Option.some.injEq] at heq
    rw [leader_eq_idxOf hgeti, leader_eq_idxOf hgetj, heq]

/-- A leader leads itself. -/
theorem leader_leader (h : j < keys.length) : leader keys (leader keys j) = leader keys j := by
  rw [leader_eq_leader_iff (leader_lt_length h) h, getElem?_leader (List.getElem?_eq_getElem h),
    List.getElem?_eq_getElem h]

/-- The leader is the first position of its group. -/
theorem leader_le_of_key_eq (hj : j < keys.length) (h : keys[i]? = keys[j]?) :
    leader keys j ≤ i := by
  have hgetj := List.getElem?_eq_getElem hj
  rw [leader_eq_idxOf hgetj]
  exact idxOf_le (h.trans hgetj)

/-- **A position has another leader exactly when its key has occurred before.** -/
theorem leader_lt_iff (hj : j < keys.length) :
    leader keys j < j ↔ ∃ i < j, keys[i]? = keys[j]? := by
  constructor
  · intro hlt
    have hgetj := List.getElem?_eq_getElem hj
    exact ⟨leader keys j, hlt, by rw [getElem?_leader hgetj, hgetj]⟩
  · rintro ⟨i, hi, heq⟩
    exact Nat.lt_of_le_of_lt (leader_le_of_key_eq hj heq) hi

/-- Keys that have occurred among the first `n`. -/
theorem mem_take_iff {k : κ} {n : ℕ} : k ∈ keys.take n ↔ k ∈ keys ∧ keys.idxOf k < n := by
  constructor
  · intro h
    obtain ⟨i, hi⟩ := List.mem_iff_getElem?.mp h
    rw [List.getElem?_take] at hi
    split at hi
    · exact ⟨List.mem_of_getElem? hi, Nat.lt_of_le_of_lt (idxOf_le hi) ‹_›⟩
    · cases hi
  · rintro ⟨hmem, hlt⟩
    refine List.mem_iff_getElem?.mpr ⟨keys.idxOf k, ?_⟩
    rw [List.getElem?_take, if_pos hlt, List.getElem?_idxOf hmem]

/-! ## Finding the leaders by a map -/

/-- The association list `m` **finds the leaders** of the first `n` positions: it maps a key
that has occurred among them to its first position. -/
structure Finds (keys : List κ) (n : ℕ) (m : List (κ × ℕ)) : Prop where
  lookup : ∀ k, m.lookup k = if k ∈ keys.take n then some (keys.idxOf k) else none
  leaders : m.map Prod.snd = (List.range n).filter fun j => leader keys j = j

namespace Finds

variable {n : ℕ} {m : List (κ × ℕ)} {k : κ}

theorem zero (keys : List κ) : Finds keys 0 [] := ⟨fun _ => rfl, rfl⟩

omit [DecidableEq κ] in
theorem mem_take_succ (hk : keys[n]? = some k) (k' : κ) :
    k' ∈ keys.take (n + 1) ↔ k' ∈ keys.take n ∨ k' = k := by
  rw [List.take_add_one, hk, List.mem_append]
  simp

/-- A key that is found belongs to an earlier position, and the map stays as it is. -/
theorem found (h : Finds keys n m) (hk : keys[n]? = some k) {i : ℕ}
    (hi : m.lookup k = some i) : leader keys n = i ∧ i < n ∧ Finds keys (n + 1) m := by
  rw [h.lookup] at hi
  split at hi
  · next hseen =>
      have hlt := (mem_take_iff.mp hseen).2
      obtain rfl := Option.some.inj hi
      have hleader := leader_eq_idxOf hk
      refine ⟨hleader, hlt, fun k' => ?_, ?_⟩
      · rw [h.lookup]
        refine if_congr ?_ rfl rfl
        rw [mem_take_succ hk, iff_self_or]
        rintro rfl
        exact hseen
      · rw [h.leaders, List.range_succ, List.filter_append, List.filter_singleton,
          decide_eq_false (by rw [hleader]; exact Nat.ne_of_lt hlt)]
        simp
  · cases hi

/-- A key that is not found makes its position a leader, which is entered. -/
theorem enter (h : Finds keys n m) (hk : keys[n]? = some k) (hnone : m.lookup k = none) :
    leader keys n = n ∧ Finds keys (n + 1) (m ++ [(k, n)]) := by
  rw [h.lookup] at hnone
  split at hnone
  · cases hnone
  · next hseen =>
      have hleader : leader keys n = n := by
        refine Nat.le_antisymm (leader_le keys n) (Nat.not_lt.mp fun hlt => hseen ?_)
        rw [leader_eq_idxOf hk] at hlt
        exact mem_take_iff.mpr ⟨List.mem_of_getElem? hk, hlt⟩
      refine ⟨hleader, fun k' => ?_, ?_⟩
      · rw [List.lookup_append, h.lookup]
        by_cases heq : k' = k
        · subst heq
          rw [if_neg hseen, if_pos ((mem_take_succ hk k').mpr (.inr rfl)),
            ← leader_eq_idxOf hk, hleader]
          simp
        · have hbeq : (k' == k) = false := beq_eq_false_iff_ne.mpr heq
          simp [List.lookup_cons, hbeq, mem_take_succ hk, heq]
      · rw [List.map_append, h.leaders, List.range_succ, List.filter_append,
          List.filter_singleton, decide_eq_true hleader]
        rfl

end Finds

/-! ## Groups as lists -/

section Groups

variable {α : Type u} {root : α → κ}

/-- The groups of some roots, one after the other, are the elements with one of these
roots. -/
theorem flatMap_filter_perm_filter {roots : List κ} (hroots : roots.Nodup) (l : List α) :
    (roots.flatMap fun k => l.filter fun a => root a = k).Perm
      (l.filter fun a => root a ∈ roots) := by
  induction roots with
  | nil => simp
  | cons k roots ih =>
      obtain ⟨hk, hroots⟩ := List.nodup_cons.mp hroots
      have hfirst : (l.filter fun a => root a ∈ k :: roots).filter (fun a => root a = k) =
          l.filter fun a => root a = k := by
        rw [List.filter_filter]
        refine List.filter_congr fun a _ => ?_
        by_cases ha : root a = k <;> simp [ha]
      have hrest : (l.filter fun a => root a ∈ k :: roots).filter (fun a => !decide (root a = k)) =
          l.filter fun a => root a ∈ roots := by
        rw [List.filter_filter]
        refine List.filter_congr fun a _ => ?_
        by_cases ha : root a = k <;> simp [ha, hk]
      have hperm := List.filter_append_perm (fun a => decide (root a = k))
        (l.filter fun a => root a ∈ k :: roots)
      rw [hfirst, hrest] at hperm
      rw [List.flatMap_cons]
      exact ((ih hroots).append_left _).trans hperm

/-- **The groups of all roots are all elements**, each once. -/
theorem flatMap_filter_perm {roots : List κ} (hroots : roots.Nodup) {l : List α}
    (hmem : ∀ a ∈ l, root a ∈ roots) :
    (roots.flatMap fun k => l.filter fun a => root a = k).Perm l := by
  have hperm : (roots.flatMap fun k => l.filter fun a => root a = k).Perm _ :=
    flatMap_filter_perm_filter hroots l
  rwa [List.filter_eq_self.mpr fun a ha => decide_eq_true (hmem a ha)] at hperm

end Groups

end Leaders

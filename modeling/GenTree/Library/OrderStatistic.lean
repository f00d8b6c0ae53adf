import Mathlib.Data.List.Count
import Mathlib.Data.Multiset.Sort

/-!
# Order statistics by counting

The element with index `j` of a sorted list is the one that at most `j` elements are smaller
than, and more than `j` elements are not larger than.  This says of a list, in any order,
what sorting it would bring to an index: `HasRank` needs no sorted copy
(`hasRank_iff_sort`).
-/

namespace OrderStatistic

universe u

variable {α : Type u} [LinearOrder α]

/-- Sorting the list would bring `x` to the index `j`. -/
def HasRank (l : List α) (j : ℕ) (x : α) : Prop :=
  l.countP (fun y => decide (y < x)) ≤ j ∧ j < l.countP fun y => decide (y ≤ x)

instance (l : List α) (j : ℕ) (x : α) : Decidable (HasRank l j x) :=
  inferInstanceAs (Decidable (_ ∧ _))

variable {l l' : List α} {j : ℕ} {x y : α}

theorem HasRank.perm (h : HasRank l j x) (hperm : l.Perm l') : HasRank l' j x := by
  unfold HasRank at h ⊢
  rwa [← hperm.countP_eq, ← hperm.countP_eq]

/-- An index has one element only. -/
theorem HasRank.unique (hx : HasRank l j x) (hy : HasRank l j y) : x = y := by
  have hle : ∀ {a b : α}, HasRank l j a → HasRank l j b → ¬a < b := by
    intro a b ha hb hlt
    have hcount : l.countP (fun z => decide (z ≤ a)) ≤ l.countP fun z => decide (z < b) := by
      refine List.countP_mono_left fun z _ hz => ?_
      exact decide_eq_true (lt_of_le_of_lt (of_decide_eq_true hz) hlt)
    have := ha.2
    have := hb.1
    omega
  exact le_antisymm (not_lt.mp (hle hy hx)) (not_lt.mp (hle hx hy))

/-- In a sorted list the element at an index has the index as its rank. -/
theorem hasRank_of_sorted (hl : l.Pairwise (· ≤ ·)) (hx : l[j]? = some x) : HasRank l j x := by
  obtain ⟨hj, hget⟩ := List.getElem?_eq_some_iff.mp hx
  have hsplit : l = l.take j ++ x :: l.drop (j + 1) := by
    rw [← hget, ← List.drop_eq_getElem_cons hj, List.take_append_drop]
  have hparts := hl
  rw [hsplit, List.pairwise_append] at hparts
  obtain ⟨-, hbehind, hfront⟩ := hparts
  have hlen : (l.take j).length = j := List.length_take_of_le (Nat.le_of_lt hj)
  constructor
  · -- whatever is smaller stands in front
    have hzero : (x :: l.drop (j + 1)).countP (fun y => decide (y < x)) = 0 := by
      rw [List.countP_eq_zero]
      intro y hy
      rcases List.mem_cons.mp hy with rfl | hy
      · simp
      · simpa using (List.pairwise_cons.mp hbehind).1 y hy
    calc l.countP (fun y => decide (y < x))
        = (l.take j).countP (fun y => decide (y < x)) := by
          conv_lhs => rw [hsplit]
          rw [List.countP_append, hzero, Nat.add_zero]
      _ ≤ (l.take j).length := List.countP_le_length
      _ = j := hlen
  · -- whatever stands in front is not larger
    have hall : (l.take j).countP (fun y => decide (y ≤ x)) = j := by
      refine Eq.trans (List.countP_eq_length.mpr fun y hy => ?_) hlen
      exact decide_eq_true (hfront y hy _ (List.mem_cons_self ..))
    conv_rhs => rw [hsplit]
    rw [List.countP_append, hall, List.countP_cons]
    simp

/-- **Ranks are positions in the sorted list.** -/
theorem hasRank_iff_sort : HasRank l j x ↔ (Multiset.sort (l : Multiset α) (· ≤ ·))[j]? = some x := by
  have hperm : (Multiset.sort (l : Multiset α) (· ≤ ·)).Perm l := by
    rw [← Multiset.coe_eq_coe, Multiset.sort_eq]
  have hsorted : (Multiset.sort (l : Multiset α) (· ≤ ·)).Pairwise (· ≤ ·) :=
    Multiset.pairwise_sort _ _
  constructor
  · intro h
    have hj : j < (Multiset.sort (l : Multiset α) (· ≤ ·)).length := by
      rw [hperm.length_eq]
      exact Nat.lt_of_lt_of_le h.2 List.countP_le_length
    have hget := List.getElem?_eq_getElem hj
    rw [hget, Option.some.injEq]
    exact ((hasRank_of_sorted hsorted hget).perm hperm).unique h
  · intro h
    exact (hasRank_of_sorted hsorted h).perm hperm

end OrderStatistic

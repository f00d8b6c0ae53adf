import Mathlib.Data.List.Pairwise

/-!
# Covering items in rounds

Items are covered by points one round after the other.  A round begins at an item that no
point chosen so far covers, chooses one point for it, and takes further items with it that
are covered by now.  However the rounds choose, all items are covered at the end, no round
chooses a point twice, and there are not more points than items.
-/

namespace GreedyCover

universe u v

variable {ι : Type u} {π : Type v} {Covers : ι → π → Prop}

/-- Rounds that cover the items, from the points `pts` to the points `out`. -/
inductive Rounds (Covers : ι → π → Prop) : List ι → List π → List π → Prop
  | done (pts : List π) : Rounds Covers [] pts pts
  | round {i : ι} {taken rest : List ι} {pts out : List π} {p : π}
      (opened : ∀ q ∈ pts, ¬Covers i q) (chosen : Covers i p)
      (covered : ∀ j ∈ taken, ∃ q ∈ pts ++ [p], Covers j q)
      (next : Rounds Covers rest (pts ++ [p]) out) :
      Rounds Covers (i :: taken ++ rest) pts out

namespace Rounds

variable {items : List ι} {pts out : List π}

/-- No point is given up. -/
theorem subset (h : Rounds Covers items pts out) : pts ⊆ out := by
  induction h with
  | done => exact List.Subset.refl _
  | round _ _ _ _ ih => exact fun q hq => ih (List.mem_append_left _ hq)

/-- **Every item is covered.** -/
theorem covers (h : Rounds Covers items pts out) : ∀ i ∈ items, ∃ p ∈ out, Covers i p := by
  induction h with
  | done => simp
  | @round i taken rest pts out p _ hchosen hcovered hnext ih =>
      intro j hj
      rcases List.mem_append.mp hj with hj | hj
      · have hround : ∃ q ∈ pts ++ [p], Covers j q := by
          rcases List.mem_cons.mp hj with rfl | hj
          · exact ⟨p, by simp, hchosen⟩
          · exact hcovered j hj
        obtain ⟨q, hq, hcov⟩ := hround
        exact ⟨q, hnext.subset hq, hcov⟩
      · exact ih j hj

/-- **No point is chosen twice**: a later point covers an item that an earlier one does
not. -/
theorem pairwise (h : Rounds Covers items pts out)
    (hpts : pts.Pairwise fun q p => ∃ i, Covers i p ∧ ¬Covers i q) :
    out.Pairwise fun q p => ∃ i, Covers i p ∧ ¬Covers i q := by
  induction h with
  | done => exact hpts
  | @round i taken rest pts out p hopened hchosen _ _ ih =>
      apply ih
      rw [List.pairwise_append]
      refine ⟨hpts, List.pairwise_singleton _ _, fun q hq p' hp' => ?_⟩
      rw [List.mem_singleton.mp hp']
      exact ⟨i, hchosen, hopened q hq⟩

/-- **There are not more points than items.** -/
theorem length_le (h : Rounds Covers items pts out) : out.length ≤ pts.length + items.length := by
  induction h with
  | done => exact Nat.le_add_right _ _
  | round _ _ _ _ ih =>
      rw [List.length_append, List.length_singleton] at ih
      rw [List.length_append, List.length_cons]
      omega

end Rounds

end GreedyCover

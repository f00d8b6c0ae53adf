import Mathlib.Algebra.GroupWithZero.Nat
import Mathlib.Data.Finset.Card

/-!
# Peeling a finite set

A search that takes non-empty pieces out of a finite set, one after the other, and never
looks at a piece again: `Peeled S Cs R` says that taking the pieces `Cs` out of `S` leaves
`R`.  The pieces are disjoint and together with `R` they make up `S`, so their sizes add up
to what is gone, and there cannot be more of them than elements.
-/

namespace Peeling

variable {α : Type*} [DecidableEq α]

/-- The pieces `Cs` are taken out of `S` one after the other, which leaves `R`. -/
inductive Peeled : Finset α → List (Finset α) → Finset α → Prop
  | nil (R : Finset α) : Peeled R [] R
  | cons {S C R : Finset α} {Cs : List (Finset α)} (nonempty : C.Nonempty) (subset : C ⊆ S)
      (rest : Peeled (S \ C) Cs R) : Peeled S (C :: Cs) R

namespace Peeled

variable {S R : Finset α} {Cs : List (Finset α)}

theorem subset_of_mem (h : Peeled S Cs R) {C : Finset α} (hC : C ∈ Cs) : C ⊆ S := by
  induction h with
  | nil => cases hC
  | cons _ hsub _ ih =>
      rcases List.mem_cons.mp hC with rfl | hC
      · exact hsub
      · exact (ih hC).trans Finset.sdiff_subset

/-- The pieces and the rest make up the set. -/
theorem mem_iff (h : Peeled S Cs R) {x : α} : x ∈ S ↔ x ∈ R ∨ ∃ C ∈ Cs, x ∈ C := by
  induction h with
  | nil => simp
  | @cons S C R Cs _ hsub _ ih =>
      rw [List.exists_mem_cons_iff, or_left_comm, ← ih, Finset.mem_sdiff]
      constructor
      · intro hx
        by_cases hC : x ∈ C
        · exact .inl hC
        · exact .inr ⟨hx, hC⟩
      · rintro (hC | ⟨hx, -⟩)
        · exact hsub hC
        · exact hx

theorem pairwise_disjoint (h : Peeled S Cs R) : Cs.Pairwise Disjoint := by
  induction h with
  | nil => exact .nil
  | cons _ _ hrest ih =>
      refine .cons (fun C hC => ?_) ih
      exact Finset.disjoint_of_subset_right (hrest.subset_of_mem hC) Finset.disjoint_sdiff

/-- The sizes add up. -/
theorem sum_card (h : Peeled S Cs R) : (Cs.map Finset.card).sum + R.card = S.card := by
  induction h with
  | nil => simp
  | cons _ hsub _ ih =>
      rw [List.map_cons, List.sum_cons, Nat.add_assoc, ih]
      have := Finset.card_sdiff_add_card_eq_card hsub
      omega

/-- No piece is empty. -/
theorem length_le (h : Peeled S Cs R) : Cs.length ≤ (Cs.map Finset.card).sum := by
  induction h with
  | nil => exact Nat.le_refl _
  | cons hne _ _ ih =>
      rw [List.length_cons, List.map_cons, List.sum_cons]
      have := Finset.card_pos.mpr hne
      omega

end Peeled

end Peeling

import Mathlib.Data.Set.Prod
import Mathlib.Data.Set.Function
import Mathlib.Data.List.Basic

/-!
# Boxes

A set of assignments is a **box** over the coordinates `I` when it is the product
of one set of values for each of them (`IsBox`).  A constraint on one coordinate
is a box (`isBox_coord`), and boxes are closed under intersection, so a
conjunction of such constraints is one (`isBox_forall_mem`).
-/

namespace Boxes

variable {ι α β : Type*} {I : Set ι} {X Y : Set (ι → α)}

/-- `X` is a product of sets of values, one for each coordinate of `I`. -/
def IsBox (I : Set ι) (X : Set (ι → α)) : Prop := ∃ S : ι → Set α, X = I.pi S

theorem isBox_univ : IsBox I (Set.univ : Set (ι → α)) :=
  ⟨fun _ => Set.univ, Set.pi_univ I |>.symm⟩

/-- A constraint on one coordinate. -/
theorem isBox_coord {i : ι} (hi : i ∈ I) (T : Set α) : IsBox I {a : ι → α | a i ∈ T} := by
  refine ⟨fun j => {x | j = i → x ∈ T}, ?_⟩
  ext a
  simp only [Set.mem_ofPred_eq, Set.mem_pi]
  refine ⟨fun h j _ hj => ?_, fun h => h i hi rfl⟩
  rw [hj]
  exact h

/-- No assignment at all, when there is a coordinate to constrain. -/
theorem isBox_empty {i : ι} (hi : i ∈ I) : IsBox I (∅ : Set (ι → α)) := isBox_coord hi ∅

theorem IsBox.inter (hX : IsBox I X) (hY : IsBox I Y) : IsBox I (X ∩ Y) := by
  obtain ⟨S, rfl⟩ := hX
  obtain ⟨T, rfl⟩ := hY
  exact ⟨fun i => S i ∩ T i, Set.pi_inter_distrib.symm⟩

/-- A list of constraints that are boxes. -/
theorem isBox_forall_mem {X : β → Set (ι → α)} {l : List β} (h : ∀ b ∈ l, IsBox I (X b)) :
    IsBox I {a | ∀ b ∈ l, a ∈ X b} := by
  induction l with
  | nil => simpa using isBox_univ
  | cons b l ih =>
    rw [List.forall_mem_cons] at h
    have hsplit : {a | ∀ c ∈ b :: l, a ∈ X c} = X b ∩ {a | ∀ c ∈ l, a ∈ X c} := by
      ext a
      simp
    rw [hsplit]
    exact h.1.inter (ih h.2)

end Boxes

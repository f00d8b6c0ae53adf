import Mathlib.Order.Basic
import Mathlib.Order.Lattice
import Mathlib.Data.List.Basic
import Mathlib.Tactic.Common

/-!
# Membership by a merge scan

To mark the members of a sorted list among the elements of another one, both are
walked through together: a cursor stands in front of the members that are still to
come, and moves on when the scan is at its first one.

A scan may pass over some of the elements.  It has to move the cursor for these as
well; `cursor` is the scan that does not.  Its mark of an element is right unless a
member has been passed over before (`hit_cursor_iff`), because the cursor stays in
front of that member for the rest of the scan (`cursor_stuck`).
-/

namespace MergeScan

variable {α : Type*} [DecidableEq α]

/-- The mark of an element: the cursor stands in front of it. -/
def hit (it : List α) (a : α) : Bool := decide (it.head? = some a)

/-- The cursor behind an element that the scan has looked at. -/
def next (it : List α) (a : α) : List α := if hit it a then it.tail else it

/-- The cursor behind the elements of a list, of which those with `skip` are passed
over. -/
def cursor (skip : α → Prop) [DecidablePred skip] : List α → List α → List α
  | [], it => it
  | a :: xs, it => if skip a then cursor skip xs it else cursor skip xs (next it a)

variable {skip : α → Prop} [DecidablePred skip]

@[simp] theorem hit_eq_true {it : List α} {a : α} : hit it a = true ↔ it.head? = some a :=
  decide_eq_true_iff

theorem next_of_hit {it : List α} {a : α} : next (a :: it) a = it := by
  simp [next]

theorem next_of_not_hit {it : List α} {a : α} (h : it.head? ≠ some a) : next it a = it := by
  rw [next, if_neg]
  rwa [hit_eq_true]

/-- A cursor in front of an element that does not come again stays there. -/
theorem cursor_stuck {xs it : List α} {s : α} (hhead : it.head? = some s) (hs : s ∉ xs) :
    cursor skip xs it = it := by
  induction xs with
  | nil => rfl
  | cons x xs ih =>
      rw [List.mem_cons, not_or] at hs
      have hnext : next it x = it := by
        apply next_of_not_hit
        rw [hhead]
        exact fun h => hs.1 (Option.some.inj h)
      rw [cursor, hnext, ite_self]
      exact ih hs.2

/-- Only the elements of the list matter. -/
theorem cursor_congr {skip' : α → Prop} [DecidablePred skip'] {xs it : List α}
    (h : ∀ x ∈ xs, skip x ↔ skip' x) : cursor skip xs it = cursor skip' xs it := by
  induction xs generalizing it with
  | nil => rfl
  | cons x xs ih =>
      obtain ⟨hx, hxs⟩ := List.forall_mem_cons.mp h
      rw [cursor, cursor, ih hxs, ih hxs]
      simp only [hx]

section Order

variable {β : Type*} [LinearOrder β] {skip : β → Prop} [DecidablePred skip]

/-- The first member is the least one. -/
theorem head?_eq_some_iff {it : List β} {a : β} (hsorted : it.Pairwise (· < ·))
    (hlow : ∀ i ∈ it, a ≤ i) : it.head? = some a ↔ a ∈ it := by
  cases it with
  | nil => simp
  | cons i it =>
      rw [List.head?_cons, Option.some.injEq, List.mem_cons]
      constructor
      · rintro rfl
        exact .inl rfl
      · rintro (rfl | hmem)
        · rfl
        · have hlt := (List.pairwise_cons.mp hsorted).1 a hmem
          exact absurd hlt (not_lt_of_ge (hlow i (List.mem_cons_self ..)))

/-- **The mark of an element** behind the elements `xs`: it is set exactly for a member
in front of which no member has been passed over.  The members below the element are
among `xs`. -/
theorem hit_cursor_iff {xs it : List β} {a : β} (hxs : (xs ++ [a]).Pairwise (· < ·))
    (hsorted : it.Pairwise (· < ·)) (hbelow : ∀ i ∈ it, i < a → i ∈ xs) :
    hit (cursor skip xs it) a = true ↔ a ∈ it ∧ ∀ s ∈ xs, skip s → s ∉ it := by
  induction xs generalizing it with
  | nil =>
      have hlow : ∀ i ∈ it, a ≤ i := fun i hi => le_of_not_gt fun hlt => by cases hbelow i hi hlt
      rw [cursor, hit_eq_true, head?_eq_some_iff hsorted hlow]
      simp
  | cons x xs ih =>
      rw [List.cons_append, List.pairwise_cons] at hxs
      obtain ⟨hfirst, hrest⟩ := hxs
      have hxa : x < a := hfirst a (by simp)
      have hnotin : x ∉ xs := fun hmem => lt_irrefl x (hfirst x (List.mem_append_left _ hmem))
      -- no member is below `x`
      have hlow : ∀ i ∈ it, x ≤ i := by
        intro i hi
        apply le_of_not_gt
        intro hlt
        rcases List.mem_cons.mp (hbelow i hi (hlt.trans hxa)) with rfl | hmem
        · exact lt_irrefl i hlt
        · exact lt_asymm hlt (hfirst i (List.mem_append_left _ hmem))
      have hhead := head?_eq_some_iff hsorted hlow
      by_cases hx : x ∈ it
      · obtain ⟨it', rfl⟩ : ∃ it', it = x :: it' := List.head?_eq_some_iff.mp (hhead.mpr hx)
        by_cases hskip : skip x
        · -- the cursor stays in front of `x`
          rw [cursor, if_pos hskip, cursor_stuck rfl hnotin, hit_eq_true, List.head?_cons,
            Option.some.injEq]
          refine iff_of_false hxa.ne ?_
          rintro ⟨-, hall⟩
          exact hall x (List.mem_cons_self ..) hskip hx
        · obtain ⟨hmin, hsorted'⟩ := List.pairwise_cons.mp hsorted
          have hbelow' : ∀ i ∈ it', i < a → i ∈ xs := by
            intro i hi hlt
            refine (List.mem_cons.mp (hbelow i (List.mem_cons_of_mem _ hi) hlt)).resolve_left ?_
            exact (hmin i hi).ne'
          rw [cursor, if_neg hskip, next_of_hit, ih hrest hsorted' hbelow']
          refine and_congr ?_ ?_
          · rw [List.mem_cons, or_iff_right hxa.ne']
          · rw [List.forall_mem_cons]
            refine ⟨fun hall => ⟨fun h => absurd h hskip, fun s hs hsk hmem => ?_⟩,
              fun hall s hs hsk hmem => hall.2 s hs hsk (List.mem_cons_of_mem _ hmem)⟩
            rcases List.mem_cons.mp hmem with rfl | hmem
            · exact hnotin hs
            · exact hall s hs hsk hmem
      · have hnext : next it x = it := next_of_not_hit (hhead.not.mpr hx)
        have hbelow' : ∀ i ∈ it, i < a → i ∈ xs := by
          intro i hi hlt
          refine (List.mem_cons.mp (hbelow i hi hlt)).resolve_left ?_
          rintro rfl
          exact hx hi
        rw [cursor, hnext, ite_self, ih hrest hsorted hbelow', List.forall_mem_cons]
        exact and_congr_right fun _ => (and_iff_right fun _ => hx).symm

end Order

end MergeScan

import Mathlib.Algebra.GroupWithZero.Nat
import Mathlib.Data.List.Basic
import Mathlib.Data.List.Count

/-!
# Items written with a separator behind each

`record sep items` writes every item followed by the separator, and
`pieces sep cur as` reads such a text in one pass: `cur` is the piece read so
far, a separator ends it, and what follows the last separator is dropped.

* `pieces_record` — items that do not contain the separator are read back.
* `sep_notMem_of_mem_pieces` — no piece contains the separator, so only such
  items can be read back.
* `length_pieces_take_lt` — a text that is cut off loses a piece.
-/

namespace Separated

variable {α : Type*} {sep : α}

/-- Every item followed by the separator. -/
def record (sep : α) (items : List (List α)) : List α := items.flatMap (· ++ [sep])

@[simp] theorem record_nil : record sep [] = [] := rfl

@[simp] theorem record_cons (item : List α) (items : List (List α)) :
    record sep (item :: items) = item ++ sep :: record sep items := by
  simp [record]

theorem length_record (items : List (List α)) :
    (record sep items).length = (items.map fun item => item.length + 1).sum := by
  induction items with
  | nil => rfl
  | cons item items ih => simp [ih]; omega

/-- A text with an item ends with the separator. -/
theorem getLast?_record {items : List (List α)} (h : items ≠ []) :
    (record sep items).getLast? = some sep := by
  have hlast : items = items.dropLast ++ [items.getLast h] := (List.dropLast_append_getLast h).symm
  rw [hlast]
  simp [record]

section Reading

variable [DecidableEq α]

/-- The pieces of a text, each ended by a separator, after `cur` has been read. -/
def pieces (sep : α) (cur : List α) : List α → List (List α)
  | [] => []
  | a :: as => if a = sep then cur :: pieces sep [] as else pieces sep (cur ++ [a]) as

@[simp] theorem pieces_nil (cur : List α) : pieces sep cur [] = [] := rfl

@[simp] theorem pieces_cons_self (cur as : List α) :
    pieces sep cur (sep :: as) = cur :: pieces sep [] as := by
  simp [pieces]

theorem pieces_cons_of_ne {a : α} (h : a ≠ sep) (cur as : List α) :
    pieces sep cur (a :: as) = pieces sep (cur ++ [a]) as := by
  simp [pieces, h]

/-- An item without a separator is read as one piece. -/
theorem pieces_append_cons {item : List α} (hitem : sep ∉ item) (cur as : List α) :
    pieces sep cur (item ++ sep :: as) = (cur ++ item) :: pieces sep [] as := by
  induction item generalizing cur with
  | nil => simp
  | cons a item ih =>
    rw [List.mem_cons, not_or] at hitem
    rw [List.cons_append, pieces_cons_of_ne (Ne.symm hitem.1), ih hitem.2]
    simp

/-- **Round trip** of items that do not contain the separator. -/
theorem pieces_record {items : List (List α)} (h : ∀ item ∈ items, sep ∉ item) :
    pieces sep [] (record sep items) = items := by
  induction items with
  | nil => rfl
  | cons item items ih =>
    rw [List.forall_mem_cons] at h
    rw [record_cons, pieces_append_cons h.1, ih h.2, List.nil_append]

/-- No piece contains the separator. -/
theorem sep_notMem_of_mem_pieces {cur as piece : List α} (hcur : sep ∉ cur)
    (h : piece ∈ pieces sep cur as) : sep ∉ piece := by
  induction as generalizing cur with
  | nil => simp at h
  | cons a as ih =>
    by_cases ha : a = sep
    · subst ha
      rw [pieces_cons_self, List.mem_cons] at h
      rcases h with rfl | h
      · exact hcur
      · exact ih List.not_mem_nil h
    · rw [pieces_cons_of_ne ha] at h
      exact ih (by simp [hcur, Ne.symm ha]) h

/-- There are as many pieces as separators. -/
theorem length_pieces (cur as : List α) : (pieces sep cur as).length = as.count sep := by
  induction as generalizing cur with
  | nil => rfl
  | cons a as ih =>
    by_cases ha : a = sep
    · subst ha
      rw [pieces_cons_self, List.length_cons, ih, List.count_cons_self]
    · rw [pieces_cons_of_ne ha, ih, List.count_cons_of_ne ha]

/-- A text that ends with the separator loses a piece when it is cut off. -/
theorem length_pieces_take_lt {as : List α} (hlast : as.getLast? = some sep) {n : ℕ}
    (hn : n < as.length) : (pieces sep [] (as.take n)).length < (pieces sep [] as).length := by
  obtain ⟨init, rfl⟩ := List.getLast?_eq_some_iff.mp hlast
  rw [List.length_append, List.length_singleton] at hn
  rw [length_pieces, length_pieces, List.take_append_of_le_length (by omega), List.count_append,
    List.count_singleton_self]
  have hle : (init.take n).count sep ≤ init.count sep := (List.take_sublist n init).count_le sep
  omega

end Reading

end Separated

import GenTree.Library.TextLines
import Mathlib.Data.List.TakeWhile
import Mathlib.Data.Nat.Notation

/-!
# Input streams

An input stream is what is left of a text, with a flag for a read that has seen the
end and one for a read that has failed.  A stream with either flag set answers no
further read.

Three reads are given: `skip` passes over blank elements, `word` reads a longest
piece without blank elements, and `getline` reads up to a separator and takes the
separator away.

* `word_eq`, `word_skip` — a word behind blank elements.
* `word_of_words`, `word_of_words_nil` — reading on gives the words of the text, one by one.
* `getline_sep` — a piece in front of a separator.
* `length_word_lt`, `mem_word`, `mem_getline` — a read takes something away,
  and what it returns stood in the text.
-/

namespace InputStream

variable {α : Type*}

/-- What is left of a text, and whether the end has been seen or a read has
failed. -/
structure Stream (α : Type*) where
  rest : List α
  eof : Bool := false
  fail : Bool := false
  deriving DecidableEq

namespace Stream

/-- No flag is set. -/
def good (s : Stream α) : Bool := !s.eof && !s.fail

/-- The stream after a read that has left `rest`. -/
def leave (rest : List α) : Stream α := { rest, eof := rest.isEmpty }

/-- Passes over blank elements. -/
def skip (blank : α → Bool) (s : Stream α) : Stream α :=
  if s.good then leave (s.rest.dropWhile blank) else s

/-- Reads a word, after blank elements. -/
def word (blank : α → Bool) (s : Stream α) : Option (List α) × Stream α :=
  if s.good then
    let rest := s.rest.dropWhile blank
    let w := rest.takeWhile fun a => !blank a
    if w = [] then (none, { rest, eof := true, fail := true })
    else (some w, leave (rest.dropWhile fun a => !blank a))
  else (none, { s with fail := true })

/-- Reads up to a separator, or to the end. -/
def getline [DecidableEq α] (sep : α) (s : Stream α) : Option (List α) × Stream α :=
  if s.good then
    let line := s.rest.takeWhile fun a => decide (a ≠ sep)
    match s.rest.dropWhile fun a => decide (a ≠ sep) with
    | _ :: rest => (some line, { rest })
    | [] =>
        if line = [] then (none, { rest := [], eof := true, fail := true })
        else (some line, { rest := [], eof := true })
  else (none, { s with fail := true })

/-- The stream can be read and has `rest` in front of it, or it has come to the
end. -/
structure At (s : Stream α) (rest : List α) : Prop where
  rest_eq : s.rest = rest
  fail : s.fail = false
  eof : s.eof = true → rest = []

theorem At.good {s : Stream α} {rest : List α} (h : s.At rest) (hne : rest ≠ []) :
    s.good = true := by
  have heof : s.eof = false := by
    cases hs : s.eof with
    | false => rfl
    | true => exact absurd (h.eof hs) hne
  rw [Stream.good, heof, h.fail]
  rfl

theorem at_mk (rest : List α) : ({ rest } : Stream α).At rest :=
  ⟨rfl, rfl, fun h => by cases h⟩

theorem at_leave (rest : List α) : (leave rest).At rest :=
  ⟨rfl, rfl, fun h => List.isEmpty_iff.mp h⟩

section Reads

variable {blank : α → Bool} {s : Stream α} {rest : List α}

/-- What a skip leaves. -/
theorem At.skip (h : s.At rest) : (s.skip blank).At (rest.dropWhile blank) := by
  unfold Stream.skip
  split
  · rw [h.rest_eq]
    exact at_leave _
  · next hgood =>
      have hnil : rest = [] := by
        by_contra hne
        exact hgood (h.good hne)
      subst hnil
      exact ⟨h.rest_eq, h.fail, fun _ => rfl⟩

/-- Nothing but blank elements is left. -/
theorem At.word_none (h : s.At rest) (hblank : ∀ a ∈ rest, blank a = true) :
    ((s.skip blank).word blank).1 = none := by
  have hdrop : rest.dropWhile blank = [] := List.dropWhile_eq_nil_iff.mpr hblank
  have hskip : (s.skip blank).At (rest.dropWhile blank) := h.skip
  rw [hdrop] at hskip
  unfold Stream.word
  split
  · simp [hskip.rest_eq]
  · rfl

/-- **A word behind blank elements.** -/
theorem At.word_eq {gap w rest' : List α} (h : s.At (gap ++ w ++ rest'))
    (hgap : ∀ a ∈ gap, blank a = true) (hne : w ≠ []) (hw : ∀ a ∈ w, blank a = false)
    (hrest : ∀ a ∈ rest'.head?, blank a = true) : s.word blank = (some w, leave rest') := by
  obtain ⟨a, w', rfl⟩ := List.exists_cons_of_ne_nil hne
  have ha : blank a = false := hw a List.mem_cons_self
  have hkeep : ∀ b ∈ a :: w', (!blank b) = true := fun b hb => by rw [hw b hb]; rfl
  have htake : rest'.takeWhile (fun b => !blank b) = [] := by
    cases rest' with
    | nil => rfl
    | cons b rest' => simp [hrest b rfl]
  have hdrop : rest'.dropWhile (fun b => !blank b) = rest' := by
    cases rest' with
    | nil => rfl
    | cons b rest' => simp [hrest b rfl]
  unfold Stream.word
  rw [if_pos (h.good (by simp)), h.rest_eq]
  dsimp only
  rw [List.append_assoc, List.dropWhile_append_of_pos hgap, List.cons_append,
    List.dropWhile_cons_of_neg (by simp [ha]), ← List.cons_append,
    List.takeWhile_append_of_pos hkeep, List.dropWhile_append_of_pos hkeep, htake, hdrop,
    List.append_nil, if_neg hne]

/-- Passing over the blank elements first makes no difference. -/
theorem At.word_skip {gap w rest' : List α} (h : s.At (gap ++ w ++ rest'))
    (hgap : ∀ a ∈ gap, blank a = true) (hne : w ≠ []) (hw : ∀ a ∈ w, blank a = false)
    (hrest : ∀ a ∈ rest'.head?, blank a = true) :
    (s.skip blank).word blank = (some w, leave rest') := by
  have hskip : (s.skip blank).At ((gap ++ w ++ rest').dropWhile blank) := h.skip
  rw [List.append_assoc, List.dropWhile_append_of_pos hgap] at hskip
  obtain ⟨a, w', rfl⟩ := List.exists_cons_of_ne_nil hne
  rw [List.cons_append, List.dropWhile_cons_of_neg (by simp [hw a List.mem_cons_self])] at hskip
  exact @At.word_eq _ _ _ [] (a :: w') rest' hskip (by simp) hne hw hrest

/-- **The first of the words** of a text is read, and the others are left. -/
theorem At.word_of_words {w : List α} {ws : List (List α)} (h : s.At rest)
    (hw : TextLines.words blank [] rest = w :: ws) :
    ∃ rest', s.word blank = (some w, leave rest') ∧ TextLines.words blank [] rest' = ws := by
  cases TextLines.spaced_iff.mpr hw with
  | @cons gap _ rest' _ hgap hne hword hends hspaced =>
      rw [← List.append_assoc] at h
      exact ⟨rest', h.word_eq hgap hne hword hends, hspaced.words_eq⟩

/-- A text without words gives none. -/
theorem At.word_of_words_nil (h : s.At rest) (hw : TextLines.words blank [] rest = []) :
    (s.word blank).1 = none := by
  cases TextLines.spaced_iff.mpr hw with
  | nil hblank =>
      have hdrop : rest.dropWhile blank = [] := List.dropWhile_eq_nil_iff.mpr hblank
      unfold Stream.word
      split
      · simp [h.rest_eq, hdrop]
      · rfl

/-- **A piece in front of a separator.** -/
theorem At.getline_sep [DecidableEq α] {sep : α} {line rest' : List α}
    (h : s.At (line ++ sep :: rest')) (hline : sep ∉ line) :
    s.getline sep = (some line, { rest := rest' }) := by
  have hkeep : ∀ a ∈ line, decide (a ≠ sep) = true := fun a ha =>
    decide_eq_true fun heq => hline (heq ▸ ha)
  unfold Stream.getline
  rw [if_pos (h.good (by simp)), h.rest_eq]
  dsimp only
  rw [List.dropWhile_append_of_pos hkeep, List.takeWhile_append_of_pos hkeep,
    List.dropWhile_cons_of_neg (by simp), List.takeWhile_cons_of_neg (by simp), List.append_nil]

/-- Reading a word takes something away. -/
theorem length_word_lt {w : List α} {s' : Stream α} (h : s.word blank = (some w, s')) :
    s'.rest.length < s.rest.length := by
  unfold Stream.word at h
  split at h
  · dsimp only at h
    split at h
    · cases h
    · next hne =>
        rw [Prod.mk.injEq, Option.some.injEq] at h
        obtain ⟨rfl, rfl⟩ := h
        have hlen := congrArg List.length
          (List.takeWhile_append_dropWhile (p := fun a => !blank a) (l := s.rest.dropWhile blank))
        have hle : (s.rest.dropWhile blank).length ≤ s.rest.length :=
          (List.dropWhile_suffix blank).length_le
        have hpos := List.length_pos_iff.mpr hne
        rw [List.length_append] at hlen
        show ((s.rest.dropWhile blank).dropWhile fun a => !blank a).length < s.rest.length
        omega
  · cases h

theorem length_skip_le : (s.skip blank).rest.length ≤ s.rest.length := by
  unfold Stream.skip
  split
  · exact (List.dropWhile_suffix blank).length_le
  · exact le_rfl

theorem length_getline_le [DecidableEq α] {sep : α} :
    (s.getline sep).2.rest.length ≤ s.rest.length := by
  have hle : (s.rest.dropWhile fun a => decide (a ≠ sep)).length ≤ s.rest.length :=
    (List.dropWhile_suffix _).length_le
  unfold Stream.getline
  split
  · dsimp only
    split
    · next heq =>
        rw [heq, List.length_cons] at hle
        exact Nat.le_of_succ_le hle
    · split <;> exact Nat.zero_le _
  · exact le_rfl

/-! ### What is read stood in the text -/

theorem mem_skip {a : α} (h : a ∈ (s.skip blank).rest) : a ∈ s.rest := by
  unfold Stream.skip at h
  split at h
  · exact (List.dropWhile_suffix blank).subset h
  · exact h

theorem mem_word {w : List α} {s' : Stream α} (h : s.word blank = (some w, s')) {a : α}
    (ha : a ∈ w ∨ a ∈ s'.rest) : a ∈ s.rest := by
  unfold Stream.word at h
  split at h
  · dsimp only at h
    split at h
    · cases h
    · rw [Prod.mk.injEq, Option.some.injEq] at h
      obtain ⟨rfl, rfl⟩ := h
      apply (List.dropWhile_suffix blank).subset
      have hsplit := List.takeWhile_append_dropWhile (p := fun a => !blank a)
        (l := s.rest.dropWhile blank)
      rw [← hsplit, List.mem_append]
      exact ha
  · cases h

theorem mem_getline [DecidableEq α] {sep : α} {line : List α} {s' : Stream α}
    (h : s.getline sep = (some line, s')) {a : α} (ha : a ∈ line) : a ∈ s.rest := by
  have hsub : ∀ {x : α}, x ∈ s.rest.takeWhile (fun a => decide (a ≠ sep)) → x ∈ s.rest :=
    fun hx => (List.takeWhile_sublist _).subset hx
  unfold Stream.getline at h
  split at h
  · dsimp only at h
    split at h
    · rw [Prod.mk.injEq, Option.some.injEq] at h
      exact hsub (h.1 ▸ ha)
    · split at h
      · cases h
      · rw [Prod.mk.injEq, Option.some.injEq] at h
        exact hsub (h.1 ▸ ha)
  · cases h

end Reads

end Stream

end InputStream

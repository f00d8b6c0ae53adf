import Mathlib.Data.List.DropRight
import Mathlib.Data.List.Infix

/-!
# Text read line by line

A text is a list.  `lines` splits it behind every occurrence of a separator, `trim` takes
the blank elements off both ends of a line, and `words` are the longest pieces of a line
without blank elements.  What counts as blank is a predicate.

* `lines_append`, `lines_flatMap_append` — a text is read up to a separator, then the rest is read.
* `words_flatMap`, `words_map_trim` — blank elements around the words do not matter.
* `splitRuns_eq_words` — the fields between runs of blank elements are the words.
* `Spaced` — how words may be written in a line, and `Spaced.words_eq`, that they are read
  back.
* `infix_trim_iff` — a word without blank elements is found in the trimmed line exactly
  when it is found in the line.
-/

namespace TextLines

universe u

variable {α : Type u} {blank : α → Bool}

/-! ## Lines -/

section Lines

variable [DecidableEq α] {sep : α}

/-- The lines of a text, where `cur` is what the current one has so far.  What follows the
last separator is a line of its own unless it is empty. -/
def lines (sep : α) (cur : List α) : List α → List (List α)
  | [] => if cur = [] then [] else [cur]
  | a :: as => if a = sep then cur :: lines sep [] as else lines sep (cur ++ [a]) as

/-- **A text is read up to a separator**, and then the rest of it. -/
theorem lines_append (cur as bs : List α) :
    lines sep cur (as ++ sep :: bs) = lines sep cur (as ++ [sep]) ++ lines sep [] bs := by
  induction as generalizing cur with
  | nil => simp [lines]
  | cons a as ih =>
      rw [List.cons_append, List.cons_append, lines, lines]
      split
      · rw [ih, List.cons_append]
      · rw [ih]

/-- A line without a separator. -/
theorem lines_line {as : List α} (h : sep ∉ as) (cur : List α) :
    lines sep cur (as ++ [sep]) = [cur ++ as] := by
  induction as generalizing cur with
  | nil => simp [lines]
  | cons a as ih =>
      rw [List.mem_cons, not_or] at h
      rw [List.cons_append, lines, if_neg (Ne.symm h.1), ih h.2]
      simp

/-- **Lines that each end with a separator** are read back, in front of any rest. -/
theorem lines_flatMap_append {ls : List (List α)} (h : ∀ l ∈ ls, sep ∉ l) (as : List α) :
    lines sep [] (ls.flatMap (· ++ [sep]) ++ as) = ls ++ lines sep [] as := by
  induction ls with
  | nil => rfl
  | cons l ls ih =>
      obtain ⟨hl, hls⟩ := List.forall_mem_cons.mp h
      rw [List.flatMap_cons, List.append_assoc, List.append_assoc, List.singleton_append, lines_append,
        lines_line hl, ih hls]
      rfl

/-- A last line without a separator behind it. -/
theorem lines_unended {as : List α} (h : sep ∉ as) (hne : as ≠ []) (cur : List α) :
    lines sep cur as = [cur ++ as] := by
  induction as generalizing cur with
  | nil => exact absurd rfl hne
  | cons a as ih =>
      rw [List.mem_cons, not_or] at h
      rw [lines, if_neg (Ne.symm h.1)]
      by_cases hnil : as = []
      · subst hnil
        rw [lines, if_neg (by simp)]
      · rw [ih h.2 hnil]
        simp

end Lines

/-! ## Trimming -/

/-- The line without the blank elements at its ends. -/
def trim (blank : α → Bool) (l : List α) : List α := (l.dropWhile blank).rdropWhile blank

/-- What trimming takes off. -/
theorem exists_trim (blank : α → Bool) (l : List α) : ∃ l₁ l₂, l = l₁ ++ trim blank l ++ l₂ ∧
    (∀ a ∈ l₁, blank a = true) ∧ ∀ a ∈ l₂, blank a = true := by
  refine ⟨l.takeWhile blank, (l.dropWhile blank).rtakeWhile blank, ?_, ?_, ?_⟩
  · rw [List.append_assoc, trim, List.rdropWhile_append_rtakeWhile,
      List.takeWhile_append_dropWhile]
  · intro a ha
    exact List.mem_takeWhile_imp ha
  · intro a ha
    exact List.mem_rtakeWhile_imp ha

/-- A line that begins with an element that is not blank keeps it. -/
theorem trim_cons {a : α} (h : blank a = false) (l : List α) :
    ∃ l', trim blank (a :: l) = a :: l' := by
  rw [trim, List.dropWhile_cons_of_neg (by simp [h])]
  rcases List.eq_nil_or_concat ((a :: l).rdropWhile blank) with hnil | ⟨l', b, heq⟩
  · have hall := (List.rdropWhile_eq_nil_iff.mp hnil) a (List.mem_cons_self ..)
    rw [h] at hall
    cases hall
  · have hpre : (a :: l).rdropWhile blank <+: a :: l := List.rdropWhile_prefix ..
    cases hdrop : (a :: l).rdropWhile blank with
    | nil => simp [heq] at hdrop
    | cons b l' =>
        rw [hdrop, List.cons_prefix_cons] at hpre
        exact ⟨l', by rw [hpre.1]⟩

/-- An element that is not blank stays. -/
theorem mem_trim {a : α} (h : blank a = false) {l : List α} : a ∈ trim blank l ↔ a ∈ l := by
  obtain ⟨l₁, l₂, hl, h₁, h₂⟩ := exists_trim blank l
  have hnot : ∀ l' : List α, (∀ b ∈ l', blank b = true) → a ∉ l' := by
    intro l' h' hmem
    rw [h' a hmem] at h
    cases h
  conv_rhs => rw [hl]
  simp [hnot l₁ h₁, hnot l₂ h₂]

theorem trim_eq_self {l : List α} (hhead : ∀ a ∈ l.head?, blank a = false)
    (hlast : ∀ a ∈ l.getLast?, blank a = false) : trim blank l = l := by
  have hdrop : l.dropWhile blank = l := by
    cases l with
    | nil => rfl
    | cons a l => exact List.dropWhile_cons_of_neg (by simp [hhead a rfl])
  rw [trim, hdrop, List.rdropWhile_eq_self_iff]
  intro hne
  rw [hlast _ (List.getLast?_eq_getLast_of_ne_nil hne)]
  exact Bool.false_ne_true

/-! ## Searching -/

section Infix

variable {w : List α}

theorem infix_cons_blank (hne : w ≠ []) (hw : ∀ a ∈ w, blank a = false) {a : α}
    (ha : blank a = true) (l : List α) : w <:+: a :: l ↔ w <:+: l := by
  rw [List.infix_cons_iff, or_iff_right]
  intro hpre
  cases w with
  | nil => exact hne rfl
  | cons b w =>
      obtain ⟨rfl, -⟩ := List.cons_prefix_cons.mp hpre
      rw [hw b (List.mem_cons_self ..)] at ha
      cases ha

theorem infix_dropWhile_iff (hne : w ≠ []) (hw : ∀ a ∈ w, blank a = false) (l : List α) :
    w <:+: l.dropWhile blank ↔ w <:+: l := by
  induction l with
  | nil => rfl
  | cons a l ih =>
      cases ha : blank a with
      | true => rw [List.dropWhile_cons_of_pos ha, ih, infix_cons_blank hne hw ha]
      | false => rw [List.dropWhile_cons_of_neg (by simp [ha])]

/-- **Trimming hides no word.** -/
theorem infix_trim_iff (hne : w ≠ []) (hw : ∀ a ∈ w, blank a = false) (l : List α) :
    w <:+: trim blank l ↔ w <:+: l := by
  rw [trim, List.rdropWhile, ← List.reverse_infix, List.reverse_reverse,
    infix_dropWhile_iff (by simpa using hne) (by simpa using hw), List.reverse_infix,
    infix_dropWhile_iff hne hw]

end Infix

/-! ## Words -/

/-- The words of a line, where `cur` is what the current one has so far. -/
def words (blank : α → Bool) (cur : List α) : List α → List (List α)
  | [] => if cur.isEmpty then [] else [cur]
  | a :: as =>
      if blank a then
        if cur.isEmpty then words blank [] as else cur :: words blank [] as
      else words blank (cur ++ [a]) as

theorem words_blank_cons {a : α} (ha : blank a = true) (as : List α) :
    words blank [] (a :: as) = words blank [] as := by
  simp [words, ha]

theorem words_blank_append {l₁ : List α} (h : ∀ a ∈ l₁, blank a = true) (as : List α) :
    words blank [] (l₁ ++ as) = words blank [] as := by
  induction l₁ with
  | nil => rfl
  | cons a l₁ ih =>
      rw [List.forall_mem_cons] at h
      rw [List.cons_append, words_blank_cons h.1, ih h.2]

/-- The words of a line do not depend on the blank elements in front. -/
theorem words_dropWhile (l : List α) : words blank [] (l.dropWhile blank) = words blank [] l := by
  have hblank : ∀ a ∈ l.takeWhile blank, blank a = true := fun a ha => List.mem_takeWhile_imp ha
  rw [← words_blank_append hblank, List.takeWhile_append_dropWhile]

/-- Blank elements at the end do not matter. -/
theorem words_append_blank {l₂ : List α} (h : ∀ a ∈ l₂, blank a = true) (cur as : List α) :
    words blank cur (as ++ l₂) = words blank cur as := by
  induction as generalizing cur with
  | nil =>
      cases l₂ with
      | nil => rfl
      | cons a l₂ =>
          rw [List.forall_mem_cons] at h
          have hrest := words_blank_append h.2 []
          rw [List.append_nil] at hrest
          rw [List.nil_append, words.eq_2, if_pos h.1, hrest]
          cases cur <;> rfl
  | cons a as ih => rw [List.cons_append, words, words, ih, ih]

/-- Trimming keeps the words, also when elements are made blank afterwards. -/
theorem words_map_trim {f : α → α} (hf : ∀ a, blank a = true → blank (f a) = true) (l : List α) :
    words blank [] ((trim blank l).map f) = words blank [] (l.map f) := by
  obtain ⟨l₁, l₂, hl, h₁, h₂⟩ := exists_trim blank l
  have hblank : ∀ l' : List α, (∀ a ∈ l', blank a = true) → ∀ a ∈ l'.map f, blank a = true := by
    intro l' h' a ha
    obtain ⟨b, hb, rfl⟩ := List.mem_map.mp ha
    exact hf b (h' b hb)
  conv_rhs => rw [hl, List.map_append, List.map_append]
  rw [words_append_blank (hblank l₂ h₂), words_blank_append (hblank l₁ h₁)]

/-- A word in front of a blank element. -/
theorem words_word {w : List α} (hw : ∀ a ∈ w, blank a = false) {a : α} (ha : blank a = true)
    (cur as : List α) (hne : cur ++ w ≠ []) :
    words blank cur (w ++ a :: as) = (cur ++ w) :: words blank [] as := by
  induction w generalizing cur with
  | nil =>
      rw [List.append_nil] at hne ⊢
      rw [List.nil_append, words, if_pos ha, if_neg (by simpa using hne)]
  | cons b w ih =>
      rw [List.forall_mem_cons] at hw
      rw [List.cons_append, words, if_neg (by simp [hw.1]), ih hw.2 _ (by simp)]
      simp

/-- A word at the end. -/
theorem words_end {w : List α} (hw : ∀ a ∈ w, blank a = false) (cur : List α) (hne : cur ++ w ≠ []) :
    words blank cur w = [cur ++ w] := by
  induction w generalizing cur with
  | nil =>
      rw [List.append_nil] at hne ⊢
      rw [words, if_neg (by simpa using hne)]
  | cons b w ih =>
      rw [List.forall_mem_cons] at hw
      rw [words, if_neg (by simp [hw.1]), ih hw.2 (cur ++ [b]) (by simp)]
      simp

/-- **Words with blank elements behind each** are read back. -/
theorem words_flatMap {ws : List (List α)} (hne : ∀ w ∈ ws, w ≠ [])
    (hws : ∀ w ∈ ws, ∀ a ∈ w, blank a = false) {a : α} {gap : List α} (ha : blank a = true)
    (hgap : ∀ b ∈ gap, blank b = true) :
    words blank [] (ws.flatMap (· ++ a :: gap)) = ws := by
  induction ws with
  | nil => rfl
  | cons w ws ih =>
      rw [List.forall_mem_cons] at hne hws
      rw [List.flatMap_cons, List.append_assoc, List.cons_append,
        words_word hws.1 ha [] _ (by simpa using hne.1), words_blank_append hgap, ih hne.2 hws.2,
        List.nil_append]

/-- The words `ws` are **spaced** in the line `l`: they stand in it in this order, with blank
elements between them and around them, and nothing else. -/
inductive Spaced (blank : α → Bool) : List (List α) → List α → Prop
  | nil {gap : List α} (gap_blank : ∀ a ∈ gap, blank a = true) : Spaced blank [] gap
  | cons {gap w rest : List α} {ws : List (List α)} (gap_blank : ∀ a ∈ gap, blank a = true)
      (ne : w ≠ []) (word : ∀ a ∈ w, blank a = false) (ends : ∀ a ∈ rest.head?, blank a = true)
      (spaced : Spaced blank ws rest) : Spaced blank (w :: ws) (gap ++ (w ++ rest))

/-- **Spaced words** are read back. -/
theorem Spaced.words_eq {ws : List (List α)} {l : List α} (h : Spaced blank ws l) :
    words blank [] l = ws := by
  induction h with
  | @nil gap hgap =>
      rw [← List.append_nil gap, words_blank_append hgap]
      rfl
  | @cons gap w rest ws hgap hne hw hends _ ih =>
      rw [words_blank_append hgap]
      cases rest with
      | nil =>
          have hrest : words blank [] ([] : List α) = [] := rfl
          rw [hrest] at ih
          subst ih
          rw [List.append_nil]
          exact words_end hw [] hne
      | cons a rest =>
          have ha := hends a rfl
          rw [words_word hw ha [] rest hne, ← words_blank_cons ha, ih]
          rfl

/-- Words are not empty and have no blank elements. -/
theorem Spaced.forall_mem {ws : List (List α)} {l : List α} (h : Spaced blank ws l) :
    ∀ w ∈ ws, w ≠ [] ∧ ∀ a ∈ w, blank a = false := by
  induction h with
  | nil => simp
  | cons _ hne hword _ _ ih => exact List.forall_mem_cons.mpr ⟨⟨hne, hword⟩, ih⟩

/-- There are no more words than elements. -/
theorem Spaced.length_le {ws : List (List α)} {l : List α} (h : Spaced blank ws l) :
    ws.length ≤ l.length := by
  induction h with
  | nil => exact Nat.zero_le _
  | cons _ hne _ _ _ ih =>
      have := List.length_pos_iff.mpr hne
      simp only [List.length_cons, List.length_append]
      omega

/-- Blank elements in front change nothing. -/
theorem Spaced.cons_blank {ws : List (List α)} {l : List α} (h : Spaced blank ws l) {a : α}
    (ha : blank a = true) : Spaced blank ws (a :: l) := by
  cases h with
  | nil hgap => exact .nil (List.forall_mem_cons.mpr ⟨ha, hgap⟩)
  | cons hgap hne hw hends hspaced =>
      exact .cons (List.forall_mem_cons.mpr ⟨ha, hgap⟩) hne hw hends hspaced

/-- A line is its own words, spaced. -/
theorem spaced_words {cur : List α} (hcur : ∀ a ∈ cur, blank a = false) (l : List α) :
    Spaced blank (words blank cur l) (cur ++ l) := by
  induction l generalizing cur with
  | nil =>
      rw [words]
      split
      · next hnil =>
          rw [List.isEmpty_iff.mp hnil]
          exact .nil (by simp)
      · next hne =>
          exact @Spaced.cons _ blank [] cur [] [] (by simp) (mt List.isEmpty_iff.mpr hne) hcur (by simp)
            (.nil (by simp))
  | cons a l ih =>
      rw [words]
      split
      · next ha =>
          have hrest : Spaced blank (words blank [] l) (a :: l) := (ih (by simp)).cons_blank ha
          split
          · next hnil => rwa [List.isEmpty_iff.mp hnil]
          · next hne =>
              exact @Spaced.cons _ blank [] cur (a :: l) _ (by simp) (mt List.isEmpty_iff.mpr hne) hcur
                (by simpa using ha) hrest
      · next ha =>
          have hcur' : ∀ b ∈ cur ++ [a], blank b = false := by
            intro b hb
            rcases List.mem_append.mp hb with hb | hb
            · exact hcur b hb
            · rw [List.mem_singleton.mp hb]
              simpa using ha
          have hword := ih hcur'
          rwa [List.append_assoc] at hword

/-- **Words and spacing are one**: a line is read as the words it is written from. -/
theorem spaced_iff {ws : List (List α)} {l : List α} : Spaced blank ws l ↔ words blank [] l = ws := by
  constructor
  · exact Spaced.words_eq
  · rintro rfl
    exact spaced_words (by simp) l

/-- A line with words is not blank. -/
theorem Spaced.exists_not_blank {ws : List (List α)} {l : List α} (h : Spaced blank ws l)
    (hne : ws ≠ []) : ∃ a ∈ l, blank a = false := by
  cases h with
  | nil _ => exact absurd rfl hne
  | @cons gap w rest ws _ hw hword _ _ =>
      obtain ⟨a, ha⟩ := List.exists_mem_of_ne_nil _ hw
      exact ⟨a, by simp [ha], hword a ha⟩

/-- Elements that are mapped to blank ones may stand between the words, when the words stay as
they are. -/
theorem Spaced.map {blank' : α → Bool} {f : α → α} {ws : List (List α)} {l : List α}
    (h : Spaced blank ws l) (hf : ∀ a, blank a = true → blank' (f a) = true)
    (hwords : ∀ w ∈ ws, ∀ a ∈ w, f a = a ∧ blank' a = false) : Spaced blank' ws (l.map f) := by
  have hblank : ∀ l' : List α, (∀ a ∈ l', blank a = true) → ∀ a ∈ l'.map f, blank' a = true := by
    intro l' h' a ha
    obtain ⟨b, hb, rfl⟩ := List.mem_map.mp ha
    exact hf b (h' b hb)
  induction h with
  | nil hgap => exact .nil (hblank _ hgap)
  | @cons gap w rest ws hgap hne hw hends _ ih =>
      obtain ⟨hfirst, hrest⟩ := List.forall_mem_cons.mp hwords
      have hsame : w.map f = w :=
        (List.map_congr_left (g := id) fun a ha => (hfirst a ha).1).trans (List.map_id w)
      rw [List.map_append, List.map_append, hsame]
      refine .cons (hblank _ hgap) hne (fun a ha => (hfirst a ha).2) (fun a ha => ?_) (ih hrest)
      rw [List.head?_map, Option.mem_def, Option.map_eq_some_iff] at ha
      obtain ⟨b, hb, rfl⟩ := ha
      exact hf b (hends b hb)

/-! ## Fields -/

/-- The fields of a line that is split at every run of blank elements: `cur` is what the
current field has so far, and `inRun` says that the last element was blank. -/
def splitRuns (blank : α → Bool) (inRun : Bool) (cur : List α) : List α → List (List α)
  | [] => [cur]
  | a :: as =>
      if blank a then
        if inRun then splitRuns blank true cur as else cur :: splitRuns blank true [] as
      else splitRuns blank false (cur ++ [a]) as

theorem splitRuns_eq {inRun : Bool} {cur l : List α} (hne : cur ++ l ≠ [])
    (hlast : ∀ a ∈ (cur ++ l).getLast?, blank a = false) (hrun : inRun = true → cur = [])
    (hhead : inRun = false → cur = [] → ∀ a ∈ l.head?, blank a = false) :
    splitRuns blank inRun cur l = words blank cur l := by
  induction l generalizing inRun cur with
  | nil =>
      rw [List.append_nil] at hne
      rw [splitRuns, words, if_neg (by simpa using hne)]
  | cons a l ih =>
      rw [splitRuns, words]
      by_cases ha : blank a = true
      · rw [if_pos ha, if_pos ha]
        -- something is left, because the last element is not blank
        have hl : l ≠ [] := by
          rintro rfl
          rw [hlast a (by simp)] at ha
          cases ha
        have hlast' : ∀ b ∈ ([] ++ l).getLast?, blank b = false := by
          intro b hb
          apply hlast b
          rw [List.nil_append, Option.mem_def] at hb
          rw [Option.mem_def, List.getLast?_append, List.getLast?_cons, hb]
          rfl
        have hrest := @ih true [] hl hlast' (fun _ => rfl) (fun h => by cases h)
        cases inRun with
        | true => rw [if_pos rfl, hrun rfl, if_pos List.isEmpty_nil, hrest]
        | false =>
            have hcur : cur ≠ [] := by
              intro hnil
              rw [hhead rfl hnil a rfl] at ha
              cases ha
            rw [if_neg Bool.false_ne_true, if_neg (by simpa using hcur), hrest]
      · rw [if_neg ha, if_neg ha]
        apply ih
        · simp
        · rwa [List.append_assoc, List.singleton_append]
        · intro h
          cases h
        · intro _ h
          exact absurd h (by simp)

/-- **Splitting and reading words are one** for a line that neither begins nor ends with a
blank element. -/
theorem splitRuns_eq_words {l : List α} (hne : l ≠ []) (hhead : ∀ a ∈ l.head?, blank a = false)
    (hlast : ∀ a ∈ l.getLast?, blank a = false) : splitRuns blank false [] l = words blank [] l := by
  refine @splitRuns_eq _ _ false [] l hne hlast ?_ ?_
  · intro h
    cases h
  · intro _ _
    exact hhead

end TextLines

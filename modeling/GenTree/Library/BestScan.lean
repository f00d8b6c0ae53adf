import Mathlib.Data.List.Nodup
import Mathlib.Order.Lattice

/-!
# Choosing by one scan

A scan goes through a list from left to right and holds one element, which every later
one may replace.  Whether `u` replaces the element `s` that is held is decided by a
relation `beats u s`.  With near ties in it the relation is not transitive, and what the
scan ends with depends on the order of the list.

The relation is **cotransitive** when `beats u s` implies `beats u a` or `beats a s`.  What
its scan ends with is the first element that no later one beats (`standing`).

A second relation that replaces more often than the first can only go astray behind the
last replacement of the first: every replacement of the first scan is one of the second,
and brings the two together again.  So the two scans end alike exactly when the larger
relation lets the first scan's element stand (`scan_eq_scan_iff`).
-/

namespace BestScan

variable {α : Type*}

/-- The element held after `u` has been looked at. -/
def step (beats : α → α → Prop) [DecidableRel beats] : Option α → α → Option α
  | none, u => some u
  | some s, u => if beats u s then some u else some s

/-- The element held at the end. -/
def scan (beats : α → α → Prop) [DecidableRel beats] (held : Option α) (l : List α) :
    Option α :=
  l.foldl (step beats) held

/-- The first element that no later one beats, with what is behind it. -/
def standing (beats : α → α → Prop) [DecidableRel beats] : List α → Option (α × List α)
  | [] => none
  | a :: l => if ∃ u ∈ l, beats u a then standing beats l else some (a, l)

/-- `beats` is **cotransitive**: nothing can be put between an element and one that it
beats without being beaten by the one or beating the other. -/
def Cotransitive (beats : α → α → Prop) : Prop :=
  ∀ ⦃u s⦄, beats u s → ∀ a, ¬beats a s → beats u a

section One

variable {beats : α → α → Prop} [DecidableRel beats]

@[simp] theorem scan_nil (held : Option α) : scan beats held [] = held := rfl

@[simp] theorem scan_none_cons (u : α) (l : List α) :
    scan beats none (u :: l) = scan beats (some u) l := rfl

theorem scan_cons_of_beats {u s : α} (h : beats u s) (l : List α) :
    scan beats (some s) (u :: l) = scan beats (some u) l := by
  simp [scan, step, h]

theorem scan_cons_of_not_beats {u s : α} (h : ¬beats u s) (l : List α) :
    scan beats (some s) (u :: l) = scan beats (some s) l := by
  simp [scan, step, h]

theorem standing_cons_of_beaten {a u : α} {l : List α} (hu : u ∈ l) (h : beats u a) :
    standing beats (a :: l) = standing beats l := by
  rw [standing, if_pos ⟨u, hu, h⟩]

/-- What a scan ends with has been held before or is in the list. -/
theorem mem_of_scan_some {l : List α} {s w : α} (h : scan beats (some s) l = some w) :
    w = s ∨ w ∈ l := by
  induction l generalizing s with
  | nil => exact .inl (Option.some.inj h).symm
  | cons u l ih =>
      by_cases hu : beats u s
      · rw [scan_cons_of_beats hu] at h
        exact .inr (List.mem_cons.mpr (ih h))
      · rw [scan_cons_of_not_beats hu] at h
        exact (ih h).imp_right (List.mem_cons_of_mem u)

theorem mem_of_scan {l : List α} {w : α} (h : scan beats none l = some w) : w ∈ l := by
  cases l with
  | nil => cases h
  | cons u l => exact List.mem_cons.mpr (mem_of_scan_some h)

theorem exists_scan_some (l : List α) (s : α) : ∃ w, scan beats (some s) l = some w := by
  induction l generalizing s with
  | nil => exact ⟨s, rfl⟩
  | cons u l ih =>
      by_cases hu : beats u s
      · rw [scan_cons_of_beats hu]
        exact ih u
      · rw [scan_cons_of_not_beats hu]
        exact ih s

theorem scan_eq_none_iff {l : List α} : scan beats none l = none ↔ l = [] := by
  cases l with
  | nil => simp
  | cons u l =>
      obtain ⟨w, hw⟩ : ∃ w, scan beats (some u) l = some w := exists_scan_some l u
      simp [hw]

section Better

variable {P : α → Prop} (hkeep : ∀ u s, beats u s → P s → P u)
  (hprefer : ∀ u s, P u → ¬P s → beats u s)

include hkeep hprefer

/-- An element is preferred when it beats those that are not and only preferred ones beat
it.  A scan that holds or meets a preferred element ends with one. -/
theorem scan_some_prefers {l : List α} {s w : α} (hex : P s ∨ ∃ u ∈ l, P u)
    (h : scan beats (some s) l = some w) : P w := by
  induction l generalizing s with
  | nil =>
      obtain rfl := Option.some.inj h
      simpa using hex
  | cons u l ih =>
      simp only [List.exists_mem_cons_iff] at hex
      by_cases hu : beats u s
      · rw [scan_cons_of_beats hu] at h
        refine ih ?_ h
        rcases hex with hs | hu' | hex
        · exact .inl (hkeep u s hu hs)
        · exact .inl hu'
        · exact .inr hex
      · rw [scan_cons_of_not_beats hu] at h
        refine ih ?_ h
        rcases hex with hs | hu' | hex
        · exact .inl hs
        · exact .inl (by_contra fun hs => hu (hprefer u s hu' hs))
        · exact .inr hex

theorem scan_prefers {l : List α} {w : α} (hex : ∃ u ∈ l, P u)
    (h : scan beats none l = some w) : P w := by
  cases l with
  | nil => cases h
  | cons u l =>
      refine scan_some_prefers hkeep hprefer ?_ h
      rwa [List.exists_mem_cons_iff] at hex

end Better

end One

/-! ## Two scans -/

section Two

variable {beats beats' : α → α → Prop} [DecidableRel beats] [DecidableRel beats']
  (hco : Cotransitive beats) (hsub : ∀ u s, beats u s → beats' u s)

include hco hsub

/-- The two scans side by side.  The first holds `c` and the second `d`, which is `c` or
at least does not beat it. -/
theorem scan_some_eq_iff {l : List α} (hnodup : l.Nodup) {c d : α} (hc : c ∉ l)
    (hd : d = c ∨ ¬beats d c) :
    scan beats' (some d) l = scan beats (some c) l ↔
      if ∃ u ∈ l, beats u c then
        ∀ b post, standing beats l = some (b, post) → ∀ u ∈ post, ¬beats' u b
      else d = c ∧ ∀ u ∈ l, ¬beats' u c := by
  induction l generalizing c d with
  | nil => simp
  | cons u l ih =>
      obtain ⟨hul, hnodup⟩ := List.nodup_cons.mp hnodup
      obtain ⟨hcu, hcl⟩ : c ≠ u ∧ c ∉ l := by simpa using hc
      by_cases hu : beats u c
      · -- a replacement of the first scan is one of the second
        have hu' : beats' u d := by
          rcases hd with rfl | hd
          · exact hsub u d hu
          · exact hsub u d (hco hu d hd)
        have hex : ∃ u' ∈ u :: l, beats u' c := ⟨u, List.mem_cons_self, hu⟩
        rw [scan_cons_of_beats hu, scan_cons_of_beats hu', ih hnodup hul (.inl rfl),
          if_pos hex, standing]
        split
        · rfl
        · simp
      · rw [scan_cons_of_not_beats hu]
        simp only [List.exists_mem_cons_iff, hu, false_or, List.forall_mem_cons]
        by_cases hu' : beats' u d
        · rw [scan_cons_of_beats hu', ih hnodup hcl (.inr hu)]
          split
          · next h =>
              obtain ⟨w, hw, hwc⟩ := h
              rw [standing_cons_of_beaten hw (hco hwc u hu)]
          · refine iff_of_false (fun h => hcu h.1.symm) ?_
            rintro ⟨rfl, hnot, -⟩
            exact hnot hu'
        · rw [scan_cons_of_not_beats hu', ih hnodup hcl hd]
          split
          · next h =>
              obtain ⟨w, hw, hwc⟩ := h
              rw [standing_cons_of_beaten hw (hco hwc u hu)]
          · refine and_congr_right fun hdc => ?_
            subst hdc
            simp [hu']

/-- **Two scans end alike** exactly when the larger relation beats the element that the
smaller one ends with by nothing behind it. -/
theorem scan_eq_scan_iff {l : List α} (hnodup : l.Nodup) :
    scan beats' none l = scan beats none l ↔
      ∀ b post, standing beats l = some (b, post) → ∀ u ∈ post, ¬beats' u b := by
  cases l with
  | nil => simp [standing]
  | cons a l =>
      obtain ⟨ha, hnodup⟩ := List.nodup_cons.mp hnodup
      rw [scan_none_cons, scan_none_cons, scan_some_eq_iff hco hsub hnodup ha (.inl rfl),
        standing]
      split
      · rfl
      · simp

end Two

/-! ## Increasing lists -/

/-- In an increasing list "later" is "larger". -/
theorem standing_eq_some_iff [LinearOrder α] {beats : α → α → Prop} [DecidableRel beats]
    {l : List α} (hl : l.Pairwise (· < ·)) {b : α} {post : List α} :
    standing beats l = some (b, post) ↔
      b ∈ l ∧ post = l.filter (b < ·) ∧ (∀ u ∈ l, b < u → ¬beats u b) ∧
        ∀ a ∈ l, a < b → ∃ u ∈ l, a < u ∧ beats u a := by
  induction l with
  | nil => simp [standing]
  | cons a l ih =>
      obtain ⟨hlt, hl⟩ := List.pairwise_cons.mp hl
      have hnot : ∀ b ∈ l, ¬b < a := fun b hb => (hlt b hb).not_gt
      rw [standing]
      split
      · next hbeaten =>
          obtain ⟨w, hw, hwa⟩ := hbeaten
          rw [ih hl]
          simp only [List.mem_cons, List.filter_cons, decide_eq_true_eq, forall_eq_or_imp,
            exists_eq_or_imp]
          constructor
          · rintro ⟨hb, rfl, hlast, hfirst⟩
            refine ⟨.inr hb, by rw [if_neg (hnot b hb)], ⟨fun h => absurd h (hnot b hb), hlast⟩,
              fun _ => .inr ⟨w, hw, hlt w hw, hwa⟩, ?_⟩
            intro a' ha' hlt'
            exact .inr (hfirst a' ha' hlt')
          · rintro ⟨rfl | hb, rfl, ⟨-, hlast⟩, -, hfirst⟩
            · exact absurd hwa (hlast w hw (hlt w hw))
            · refine ⟨hb, by rw [if_neg (hnot b hb)], hlast, ?_⟩
              intro a' ha' hlt'
              rcases hfirst a' ha' hlt' with ⟨hau, -⟩ | hex
              · exact absurd hau (hnot a' ha')
              · exact hex
      · next hstands =>
          push Not at hstands
          have hfilter : (a :: l).filter (a < ·) = l := by
            rw [List.filter_cons_of_neg (by simp), List.filter_eq_self]
            intro u hu
            simpa using hlt u hu
          rw [Option.some.injEq, Prod.mk.injEq]
          simp only [List.mem_cons, forall_eq_or_imp, exists_eq_or_imp]
          constructor
          · rintro ⟨rfl, rfl⟩
            refine ⟨.inl rfl, hfilter.symm, ⟨fun h => absurd h (lt_irrefl _), ?_⟩,
              fun h => absurd h (lt_irrefl _), ?_⟩
            · intro u hu _
              exact hstands u hu
            · intro a' ha' hlt'
              exact absurd hlt' (hnot a' ha')
          · rintro ⟨rfl | hb, rfl, -, hfirst, -⟩
            · exact ⟨rfl, hfilter.symm⟩
            · rcases hfirst (hlt b hb) with ⟨hau, -⟩ | ⟨u, hu, -, hua⟩
              · exact absurd hau (lt_irrefl _)
              · exact absurd hua (hstands u hu)

end BestScan

import Mathlib.Algebra.GroupWithZero.Nat
import Mathlib.Data.List.Basic
import Mathlib.Data.List.Count
import Mathlib.Tactic.Common

/-!
# Counting sort on a window of a vector

A counting sort that works in place on a window `[b, b + n)` of a longer vector
has three parts: count the keys of the window, turn the counts into bucket
starts by a running sum, and write every element of a buffered copy at the
cursor of its bucket.  The correctness argument separates cleanly from whatever
the elements are, so it is done here once, over an arbitrary element type.

* `window l a b` — the half-open window `[a, b)` of a list, the reading used for
  a pair of iterators.
* `starts b freq` — the running sums.  `starts_getElem?` gives them the closed
  form every later step uses: bucket `v` starts `countP (key < v)` past `b`.
* `scatter key xs cur dst` — the writing pass.
* `scatter_window` — the result: bucket `v` of the written vector is exactly the
  sublist of `xs` with key `v`, in the order of `xs`, and nothing outside the
  window moves.
-/

namespace CountingSort

open scoped List

universe u

variable {α : Type u}

/-! ## Windows -/

/-- The half-open window `[a, b)` of a list. -/
def window (l : List α) (a b : ℕ) : List α := (l.drop a).take (b - a)

theorem window_getElem? (l : List α) (a b i : ℕ) :
    (window l a b)[i]? = if i < b - a then l[a + i]? else none := by
  unfold window
  rw [List.getElem?_take]
  split
  · rw [List.getElem?_drop]
  · rfl

theorem window_length (l : List α) {a b : ℕ} (hb : b ≤ l.length) :
    (window l a b).length = b - a := by
  simp only [window, List.length_take, List.length_drop]
  omega

@[simp] theorem window_self (l : List α) (a : ℕ) : window l a a = [] := by
  simp [window]

/-- Windows of vectors that agree on the window's positions are equal. -/
theorem window_congr {l l' : List α} {a b : ℕ}
    (h : ∀ p, a ≤ p → p < b → l'[p]? = l[p]?) : window l' a b = window l a b := by
  refine List.ext_getElem? fun i => ?_
  rw [window_getElem?, window_getElem?]
  split
  · exact h (a + i) (by omega) (by omega)
  · rfl

/-- A window of the right length whose entries are those of `ys` is `ys`. -/
theorem window_eq_of_getElem? {l ys : List α} {a b : ℕ} (hlen : ys.length = b - a)
    (h : ∀ (j : ℕ) (x : α), ys[j]? = some x → l[a + j]? = some x) :
    window l a b = ys := by
  refine List.ext_getElem? fun i => ?_
  rw [window_getElem?]
  split
  · next hi =>
      have hget : ys[i]? = some ys[i] := List.getElem?_eq_getElem (by omega)
      rw [hget]
      exact h i _ hget
  · next hi => exact (List.getElem?_eq_none (by omega)).symm

/-- Adjacent windows concatenate. -/
theorem window_append (l : List α) {a b c : ℕ} (hab : a ≤ b) (hbc : b ≤ c)
    (hc : c ≤ l.length) : window l a b ++ window l b c = window l a c := by
  refine List.ext_getElem? fun i => ?_
  have hlen : (window l a b).length = b - a := window_length l (by omega)
  rw [List.getElem?_append, hlen, window_getElem?, window_getElem?, window_getElem?]
  by_cases hi : i < b - a
  · rw [if_pos hi, if_pos hi, if_pos (by omega)]
  · rw [if_neg hi]
    have hidx : b + (i - (b - a)) = a + i := by omega
    rw [hidx]
    by_cases hic : i < c - a
    · rw [if_pos (by omega), if_pos hic]
    · rw [if_neg (by omega), if_neg hic]

/-! ## Bucket starts -/

/-- The running sums of `freq`, started at `b`: entry `v` is where bucket `v`
begins. -/
def starts (b : ℕ) : List ℕ → List ℕ
  | [] => []
  | f :: fs => b :: starts (b + f) fs

@[simp] theorem starts_length (b : ℕ) (freq : List ℕ) :
    (starts b freq).length = freq.length := by
  induction freq generalizing b with
  | nil => rfl
  | cons f fs ih => simp [starts, ih]

/-- The running sums as a sum over a prefix. -/
theorem starts_getElem?_sum (b : ℕ) (freq : List ℕ) (v : ℕ) (hv : v < freq.length) :
    (starts b freq)[v]? = some (b + (freq.take v).sum) := by
  induction freq generalizing b v with
  | nil => simp at hv
  | cons f fs ih =>
      cases v with
      | zero => simp [starts]
      | succ v =>
          have hv' : v < fs.length := by simpa using hv
          simp only [starts, List.getElem?_cons_succ, List.take_succ_cons,
            List.sum_cons]
          rw [ih (b + f) v hv', Nat.add_assoc]

section Keys

variable (key : α → ℕ) (xs : List α)

/-- How many elements have key `v`. -/
def countEq (v : ℕ) : ℕ := xs.countP fun x => key x == v

/-- How many elements have a key below `v`. -/
def countLt (v : ℕ) : ℕ := xs.countP fun x => decide (key x < v)

@[simp] theorem countLt_zero : countLt key xs 0 = 0 := by
  simp [countLt]

theorem countLt_succ (v : ℕ) :
    countLt key xs (v + 1) = countLt key xs v + countEq key xs v := by
  induction xs with
  | nil => rfl
  | cons x xs ih =>
      simp only [countLt, countEq, List.countP_cons, decide_eq_true_eq,
        beq_iff_eq] at ih ⊢
      split_ifs <;> omega

theorem countLt_mono {v w : ℕ} (h : v ≤ w) : countLt key xs v ≤ countLt key xs w :=
  List.countP_mono_left fun x _ hx => by
    simp only [decide_eq_true_eq] at hx ⊢
    omega

/-- With every key below `n`, the buckets below `n` hold everything. -/
theorem countLt_of_forall_lt {n : ℕ} (h : ∀ x ∈ xs, key x < n) :
    countLt key xs n = xs.length :=
  List.countP_eq_length.mpr fun x hx => by simpa using h x hx

theorem countLt_le_length (v : ℕ) : countLt key xs v ≤ xs.length :=
  List.countP_le_length

/-- The buckets in front of bucket `v` have no element of bucket `v`. -/
theorem countLt_add_countEq_le {v w : ℕ} (h : v < w) :
    countLt key xs v + countEq key xs v ≤ countLt key xs w := by
  rw [← countLt_succ]
  exact countLt_mono key xs h

theorem countEq_eq_length_filter (v : ℕ) :
    countEq key xs v = (xs.filter fun x => key x == v).length :=
  List.countP_eq_length_filter

theorem countEq_append (ys : List α) (v : ℕ) :
    countEq key (xs ++ ys) v = countEq key xs v + countEq key ys v :=
  List.countP_append

/-- The frequency table of the keys below `n`. -/
def freqs (n : ℕ) : List ℕ := (List.range n).map (countEq key xs)

@[simp] theorem freqs_length (n : ℕ) : (freqs key xs n).length = n := by
  simp [freqs]

/-- Counting one more element. -/
theorem freqs_concat (x : α) {n : ℕ} (hx : key x < n) :
    freqs key (xs ++ [x]) n =
      (freqs key xs n).set (key x) ((freqs key xs n)[key x]?.getD 0 + 1) := by
  have hget : ∀ (ys : List α) (i : ℕ), i < n → (freqs key ys n)[i]? = some (countEq key ys i) :=
    fun ys i hi => by simp [freqs, hi]
  refine List.ext_getElem? fun i => ?_
  rw [List.getElem?_set, freqs_length, hget xs _ hx, Option.getD_some]
  by_cases hi : i < n
  · rw [hget _ i hi, countEq_append, if_pos hx]
    by_cases hki : key x = i
    · subst hki
      simp [countEq]
    · rw [if_neg hki, hget xs i hi]
      simp [countEq, hki]
  · rw [List.getElem?_eq_none (by simpa using hi), if_neg (by omega),
      List.getElem?_eq_none (by simpa using hi)]

theorem freqs_nil (n : ℕ) : freqs key ([] : List α) n = List.replicate n 0 := by
  refine List.ext_getElem? fun i => ?_
  by_cases hi : i < n <;> simp [freqs, countEq, hi]

theorem sum_take_freqs (n v : ℕ) (hv : v ≤ n) :
    ((freqs key xs n).take v).sum = countLt key xs v := by
  have htake : (freqs key xs n).take v = (List.range v).map (countEq key xs) := by
    rw [freqs, ← List.map_take, List.take_range, Nat.min_eq_left hv]
  rw [htake]
  clear htake hv
  induction v with
  | zero => simp
  | succ v ih =>
      rw [List.range_succ, List.map_append, List.sum_append, ih, countLt_succ]
      simp

/-- **Closed form of the bucket starts**: bucket `v` starts past everything with
a smaller key. -/
theorem starts_freqs_getElem? (b : ℕ) {n v : ℕ} (hv : v < n) :
    (starts b (freqs key xs n))[v]? = some (b + countLt key xs v) := by
  rw [starts_getElem?_sum b _ v (by simpa using hv), sum_take_freqs key xs n v (Nat.le_of_lt hv)]

end Keys

/-! ## The writing pass -/

/-- Write each element of the buffer at the cursor of its bucket, which then
advances.  `none` is an access outside the cursors or outside the vector. -/
def scatter (key : α → Option ℕ) : List α → List ℕ → List α → Option (List ℕ × List α)
  | [], cur, dst => some (cur, dst)
  | x :: xs, cur, dst =>
      (key x).bind fun v =>
        cur[v]?.bind fun p =>
          if p < dst.length then scatter key xs (cur.set v (p + 1)) (dst.set p x)
          else none

section Scatter

variable {key : α → Option ℕ} {k : α → ℕ} {n b : ℕ}

/-- The state of the writing pass once `done` has been written, with `xs` the
whole buffer: every cursor stands behind the elements its bucket has received,
those elements are in place, and the rest of the vector is as it was. -/
structure Scattered (k : α → ℕ) (n b : ℕ) (xs done : List α) (dst₀ : List α)
    (cur : List ℕ) (dst : List α) : Prop where
  /-- Cursors point behind what has been written. -/
  cursor : ∀ v < n, cur[v]? = some (b + countLt k xs v + countEq k done v)
  /-- What has been written is in place. -/
  placed : ∀ v < n, ∀ (j : ℕ) (x : α), (done.filter fun x => k x == v)[j]? = some x →
    dst[b + countLt k xs v + j]? = some x
  /-- Nothing outside the window has moved. -/
  frame : ∀ p, p < b ∨ b + xs.length ≤ p → dst[p]? = dst₀[p]?
  length : dst.length = dst₀.length

/-- One write keeps the state: the new element lands behind its own bucket, and
the buckets are disjoint. -/
theorem Scattered.step {xs done rest : List α} {x : α} {dst₀ dst : List α}
    {cur : List ℕ} (h : Scattered k n b xs done dst₀ cur dst)
    (hxs : xs = done ++ x :: rest)
    (hroom : b + xs.length ≤ dst₀.length) :
    b + countLt k xs (k x) + countEq k done (k x) < dst.length ∧
      Scattered k n b xs (done ++ [x]) dst₀
        (cur.set (k x) (b + countLt k xs (k x) + countEq k done (k x) + 1))
        (dst.set (b + countLt k xs (k x) + countEq k done (k x)) x) := by
  have hsingle : ∀ v, countEq k [x] v = if k x = v then 1 else 0 := by
    intro v
    by_cases hv : k x = v <;> simp [countEq, hv]
  have hcount : ∀ v, countEq k (done ++ [x]) v ≤ countEq k xs v := by
    intro v
    rw [hxs, show done ++ x :: rest = done ++ [x] ++ rest by simp,
      countEq_append _ _ rest]
    omega
  have hbucket : countLt k xs (k x) + countEq k done (k x) + 1 ≤
      countLt k xs (k x + 1) := by
    have := hcount (k x)
    rw [countEq_append, hsingle, if_pos rfl] at this
    rw [countLt_succ]
    omega
  have htotal := countLt_le_length k xs (k x + 1)
  have hlen := h.length
  have hpos : b + countLt k xs (k x) + countEq k done (k x) < dst.length := by omega
  refine ⟨hpos, ?_, ?_, ?_, ?_⟩
  · intro v hv
    rw [List.getElem?_set, countEq_append, hsingle]
    have hcur := h.cursor v hv
    by_cases hkv : k x = v
    · subst hkv
      have hlt : k x < cur.length := (List.getElem?_eq_some_iff.mp hcur).1
      rw [if_pos rfl, if_pos hlt, if_pos rfl]
      exact congrArg some (by omega)
    · rw [if_neg hkv, if_neg hkv, hcur]
      rfl
  · intro v hv j y hy
    rw [List.filter_append, List.getElem?_append] at hy
    rw [List.getElem?_set]
    by_cases hj : j < (done.filter fun x => k x == v).length
    · rw [if_pos hj] at hy
      have hold := h.placed v hv j y hy
      -- the slot written now is in another bucket, or behind slot `j` of this one
      rw [← countEq_eq_length_filter] at hj
      have hle : countEq k done v ≤ countEq k xs v := by
        have := hcount v
        rw [countEq_append] at this
        omega
      rw [if_neg, hold]
      rcases Nat.lt_trichotomy (k x) v with hlt | heq | hgt
      · have := countLt_mono k xs (show k x + 1 ≤ v from hlt)
        omega
      · subst heq
        omega
      · have := countLt_add_countEq_le k xs (show v < k x from hgt)
        omega
    · rw [if_neg hj] at hy
      rw [← countEq_eq_length_filter] at hj hy
      by_cases hkv : k x = v
      · have hfilter : [x].filter (fun x => k x == v) = [x] := by simp [hkv]
        rw [hfilter] at hy
        have hj0 : j - countEq k done v = 0 := by
          by_contra hne
          rw [List.getElem?_eq_none (by simp; omega)] at hy
          exact absurd hy (by simp)
        rw [hj0] at hy
        have hxy : x = y := by simpa using hy
        subst hkv
        rw [if_pos (by omega), if_pos hpos, hxy]
      · have hfilter : [x].filter (fun x => k x == v) = [] := by simp [hkv]
        rw [hfilter] at hy
        simp at hy
  · intro p hp
    rw [List.getElem?_set, if_neg (by omega)]
    exact h.frame p hp
  · rw [List.length_set]
    exact h.length

/-- **The writing pass succeeds and places everything.** -/
theorem scatter_spec {xs : List α} (hkey : ∀ x ∈ xs, key x = some (k x))
    (hlt : ∀ x ∈ xs, k x < n) {dst₀ : List α} (hroom : b + xs.length ≤ dst₀.length) :
    ∃ cur dst, scatter key xs (starts b (freqs k xs n)) dst₀ = some (cur, dst) ∧
      Scattered k n b xs xs dst₀ cur dst := by
  suffices h : ∀ rest done cur dst, xs = done ++ rest →
      Scattered k n b xs done dst₀ cur dst →
      ∃ cur' dst', scatter key rest cur dst = some (cur', dst') ∧
        Scattered k n b xs xs dst₀ cur' dst' by
    refine h xs [] _ _ rfl ⟨?_, ?_, fun _ _ => rfl, rfl⟩
    · intro v hv
      rw [starts_freqs_getElem? k xs b hv]
      simp [countEq]
    · intro v _ j x hx
      simp at hx
  intro rest
  induction rest with
  | nil =>
      intro done cur dst hxs hst
      rw [List.append_nil] at hxs
      subst hxs
      exact ⟨cur, dst, rfl, hst⟩
  | cons x rest ih =>
      intro done cur dst hxs hst
      have hx : x ∈ xs := by rw [hxs]; simp
      obtain ⟨hpos, hst'⟩ := hst.step hxs hroom
      obtain ⟨cur', dst', hrun, hfin⟩ := ih (done ++ [x]) _ _ (by simpa using hxs) hst'
      refine ⟨cur', dst', ?_, hfin⟩
      rw [scatter, hkey x hx, Option.bind_some, hst.cursor _ (hlt x hx),
        Option.bind_some, if_pos hpos, hrun]

namespace Scattered

variable {xs dst₀ dst : List α} {cur : List ℕ}

/-- When the pass is over, the cursor of a bucket stands at the start of the
next one. -/
theorem cursor_end (h : Scattered k n b xs xs dst₀ cur dst) {v : ℕ} (hv : v < n) :
    cur[v]? = some (b + countLt k xs (v + 1)) := by
  rw [h.cursor v hv, countLt_succ, Nat.add_assoc]

/-- **Each bucket is the sublist of its key**, in the order of the buffer. -/
theorem scatter_window (h : Scattered k n b xs xs dst₀ cur dst) {v : ℕ} (hv : v < n) :
    window dst (b + countLt k xs v) (b + countLt k xs (v + 1)) =
      xs.filter fun x => k x == v := by
  refine window_eq_of_getElem? ?_ (h.placed v hv)
  rw [← countEq_eq_length_filter, countLt_succ]
  omega

end Scattered

end Scatter

end CountingSort

import Mathlib.Logic.Equiv.Basic
import Mathlib.Data.List.Basic
import Mathlib.Data.Nat.Notation

/-!
# Rounds of additions, rotations and exclusive ors

A round mixes a key into a pair of words of any width.  For a fixed key it can be
undone (`roundEquiv`), and two things about it hold for different keys as well:

* `round_snd_inj` — on one pair, the second word of the result tells the keys
  apart.
* `snd_eq_of_round_eq` — equal results come from equal second words, whatever
  the two keys were.

The last section is about a state that takes in a list one entry at a time.  If
every entry is taken in by an injective step, a difference between two states is
never lost (`foldl_injective`), so lists that differ in one entry end in
different states as soon as that entry makes a difference
(`foldl_ne_of_differ_once`).
-/

namespace KeyedRounds

variable {w : ℕ}

/-! ## Rotations -/

/-- Rotation to the right by two shifts. -/
def rotr (x : BitVec w) (r : ℕ) : BitVec w := x >>> r ||| x <<< (w - r)

/-- Rotation to the left by two shifts. -/
def rotl (x : BitVec w) (r : ℕ) : BitVec w := x <<< r ||| x >>> (w - r)

theorem getLsbD_rotr {x : BitVec w} {r i : ℕ} (hi : i < w) :
    (rotr x r).getLsbD i = if i < w - r then x.getLsbD (r + i) else x.getLsbD (i - (w - r)) := by
  unfold rotr
  split
  next hlt => simp [hlt]
  next hge =>
    have hout : x.getLsbD (r + i) = false := BitVec.getLsbD_of_ge x _ (by omega)
    simp [hge, hi, hout, BitVec.getLsbD_eq_getElem (show i - (w - r) < w by omega)]

theorem getLsbD_rotl {x : BitVec w} {r i : ℕ} (hi : i < w) :
    (rotl x r).getLsbD i = if i < r then x.getLsbD (w - r + i) else x.getLsbD (i - r) := by
  unfold rotl
  split
  next hlt => simp [hlt]
  next hge =>
    have hout : x.getLsbD (w - r + i) = false := BitVec.getLsbD_of_ge x _ (by omega)
    simp [hge, hi, hout, BitVec.getLsbD_eq_getElem (show i - r < w by omega)]

theorem rotr_rotl (x : BitVec w) {r : ℕ} (hr : r < w) : rotr (rotl x r) r = x := by
  apply BitVec.eq_of_getLsbD_eq
  intro i hi
  rw [getLsbD_rotr hi]
  split
  next hlt =>
    rw [getLsbD_rotl (by omega), if_neg (by omega), Nat.add_sub_cancel_left]
  next hge =>
    rw [getLsbD_rotl (by omega), if_pos (by omega)]
    congr 1
    omega

theorem rotl_rotr (x : BitVec w) {r : ℕ} (hr : r < w) : rotl (rotr x r) r = x := by
  apply BitVec.eq_of_getLsbD_eq
  intro i hi
  rw [getLsbD_rotl hi]
  split
  next hlt =>
    rw [getLsbD_rotr (by omega), if_neg (by omega), Nat.add_sub_cancel_left]
  next hge =>
    rw [getLsbD_rotr (by omega), if_pos (by omega)]
    congr 1
    omega

theorem rotl_inj {x y : BitVec w} {r : ℕ} (hr : r < w) : rotl x r = rotl y r ↔ x = y := by
  refine ⟨fun h => ?_, fun h => by rw [h]⟩
  rw [← rotr_rotl x hr, h, rotr_rotl y hr]

/-- A word that is mixed in twice is gone. -/
theorem xor_xor_cancel (x y : BitVec w) : x ^^^ y ^^^ y = x := by
  rw [BitVec.xor_assoc, BitVec.xor_self, BitVec.xor_zero]

/-! ## One round -/

variable {a b : ℕ}

/-- One round: the first word is rotated, the second added and the key mixed in;
the second word is rotated and the new first word mixed in. -/
def round (a b : ℕ) (k : BitVec w) (p : BitVec w × BitVec w) : BitVec w × BitVec w :=
  let x := (rotr p.1 a + p.2) ^^^ k
  (x, rotl p.2 b ^^^ x)

/-- A round backwards. -/
def unround (a b : ℕ) (k : BitVec w) (p : BitVec w × BitVec w) : BitVec w × BitVec w :=
  let y := rotr (p.2 ^^^ p.1) b
  (rotl ((p.1 ^^^ k) - y) a, y)

theorem unround_round (ha : a < w) (hb : b < w) (k : BitVec w) (p : BitVec w × BitVec w) :
    unround a b k (round a b k p) = p := by
  unfold unround round
  simp only [xor_xor_cancel, rotr_rotl _ hb, BitVec.add_sub_cancel, rotl_rotr _ ha]

theorem round_unround (ha : a < w) (hb : b < w) (k : BitVec w) (p : BitVec w × BitVec w) :
    round a b k (unround a b k p) = p := by
  unfold unround round
  simp only [rotr_rotl _ ha, rotl_rotr _ hb, BitVec.sub_add_cancel, xor_xor_cancel]

/-- A round with a fixed key is a permutation of the pairs of words. -/
def roundEquiv (ha : a < w) (hb : b < w) (k : BitVec w) :
    Equiv.Perm (BitVec w × BitVec w) where
  toFun := round a b k
  invFun := unround a b k
  left_inv := unround_round ha hb k
  right_inv := round_unround ha hb k

theorem round_bijective (ha : a < w) (hb : b < w) (k : BitVec w) :
    Function.Bijective (round a b k) := (roundEquiv ha hb k).bijective

/-- On one pair, different keys give different second words. -/
theorem round_snd_inj {k k' : BitVec w} {p : BitVec w × BitVec w} :
    (round a b k p).2 = (round a b k' p).2 ↔ k = k' := by
  unfold round
  rw [BitVec.xor_right_inj, BitVec.xor_right_inj]

/-- The second word before a round is read off its result without the key. -/
theorem snd_eq_of_round_eq (hb : b < w) {k k' : BitVec w} {p q : BitVec w × BitVec w}
    (h : round a b k p = round a b k' q) : p.2 = q.2 := by
  have hfst : (round a b k p).1 = (round a b k' q).1 := by rw [h]
  have hsnd : (round a b k p).2 = (round a b k' q).2 := by rw [h]
  simp only [round] at hfst hsnd
  rw [hfst, BitVec.xor_left_inj] at hsnd
  exact (rotl_inj hb).mp hsnd

/-! ## Taking in a list -/

section Taking

variable {σ α : Type*} {step : σ → α → σ}

/-- Injective steps keep different states apart. -/
theorem foldl_injective (hstep : ∀ a, Function.Injective fun s => step s a) (l : List α) :
    Function.Injective fun s => l.foldl step s := by
  induction l with
  | nil => exact fun _ _ h => h
  | cons a l ih => exact fun s t h => hstep a (ih h)

/-- Lists that agree but for one entry differ in it alone. -/
theorem exists_append_of_differ_once {l l' : List α} (hlen : l.length = l'.length)
    (h : ∃! i : ℕ, l[i]? ≠ l'[i]?) :
    ∃ pre a a' post, l = pre ++ a :: post ∧ l' = pre ++ a' :: post ∧ a ≠ a' := by
  induction l generalizing l' with
  | nil =>
    obtain ⟨i, hi, -⟩ := h
    rw [List.length_nil, eq_comm, List.length_eq_zero_iff] at hlen
    exact absurd (by rw [hlen]) hi
  | cons a l ih =>
    match l', hlen with
    | a' :: l', hlen =>
      obtain ⟨i, hi, huniq⟩ := h
      have htail : ∀ j : ℕ, l[j]? ≠ l'[j]? → j + 1 = i := fun j hj => huniq (j + 1) hj
      cases i with
      | zero =>
        have heq : l = l' := List.ext_getElem? fun j => by
          by_contra hne
          exact absurd (htail j hne) (Nat.succ_ne_zero j)
        refine ⟨[], a, a', l', by rw [heq]; rfl, rfl, ?_⟩
        simpa using hi
      | succ i =>
        have hhead : a = a' := by
          by_contra hne
          have h0 : (0 : ℕ) = i + 1 := huniq 0 (by simpa using hne)
          exact absurd h0.symm (Nat.succ_ne_zero i)
        have hone : ∃! j : ℕ, l[j]? ≠ l'[j]? :=
          ⟨i, hi, fun j hj => Nat.succ_inj.mp (htail j hj)⟩
        obtain ⟨pre, b, b', post, rfl, rfl, hne⟩ := ih (Nat.succ_inj.mp hlen) hone
        exact ⟨a :: pre, b, b', post, rfl, by rw [hhead]; rfl, hne⟩

/-- And lists that differ in it alone agree but for one entry. -/
theorem differ_once_append {pre post : List α} {a a' : α} (hne : a ≠ a') :
    ∃! i : ℕ, (pre ++ a :: post)[i]? ≠ (pre ++ a' :: post)[i]? := by
  refine ⟨pre.length, by simpa using hne, fun i hi => ?_⟩
  by_contra hother
  refine hi ?_
  rcases Nat.lt_or_gt_of_ne hother with hlt | hgt
  · rw [List.getElem?_append_left hlt, List.getElem?_append_left hlt]
  · obtain ⟨k, rfl⟩ := Nat.exists_eq_add_of_lt hgt
    rw [List.getElem?_append_right (by omega), List.getElem?_append_right (by omega)]
    simp [Nat.add_assoc]

/-- Lists that differ in one entry lead to different states. -/
theorem foldl_ne_of_differ_once (hstep : ∀ a, Function.Injective fun s => step s a)
    (hentry : ∀ s, Function.Injective (step s)) {l l' : List α} (hlen : l.length = l'.length)
    (h : ∃! i : ℕ, l[i]? ≠ l'[i]?) (s : σ) : l.foldl step s ≠ l'.foldl step s := by
  obtain ⟨pre, a, a', post, rfl, rfl, hne⟩ := exists_append_of_differ_once hlen h
  rw [List.foldl_append, List.foldl_append, List.foldl_cons, List.foldl_cons]
  intro heq
  exact hne (hentry _ (foldl_injective hstep post heq))

end Taking

end KeyedRounds

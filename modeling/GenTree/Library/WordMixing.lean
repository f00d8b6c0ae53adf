import Mathlib.Data.FinEnum
import Mathlib.Data.Nat.Notation
import Mathlib.Logic.Equiv.Basic
import GenTree.Library.KeyedRounds

/-!
# Mixing words, and bytes in words

Multiplicative hash functions are made of a few operations on words, each of which is a
permutation: a product with a number that has an inverse (`mul_bijective`), an exclusive or
with the upper half (`xorshift_bijective`), a rotation (`rotl_bijective`).

Bytes enter such a function in words.  `word` puts bytes side by side, the first one
lowest; a word shows the bytes it is made of (`word_inj`).  A list is cut into chunks of one
size; written out item by item, the chunks of a list are chunks of what is written
(`flatMap_chunk`), so that a function of bytes can be followed in terms of the items.
-/

namespace WordMixing

open KeyedRounds

variable {w : ℕ}

/-! ## Permutations of the words -/

theorem mul_bijective {c d : BitVec w} (h : c * d = 1) :
    Function.Bijective fun x : BitVec w => x * c := by
  refine Finite.injective_iff_bijective.mp fun x y heq => ?_
  have hback := congrArg (· * d) heq
  simpa [BitVec.mul_assoc, h] using hback

/-- The exclusive or with the word shifted to the right. -/
def xorshift (r : ℕ) (x : BitVec w) : BitVec w := x ^^^ x >>> r

/-- Shifted twice by half of the width, nothing is left. -/
theorem xorshift_xorshift {r : ℕ} (hr : w ≤ 2 * r) (x : BitVec w) :
    xorshift r (xorshift r x) = x := by
  apply BitVec.eq_of_getLsbD_eq
  intro i hi
  have hout : x.getLsbD (r + (r + i)) = false := BitVec.getLsbD_of_ge x _ (by omega)
  simp [xorshift, hout]

theorem xorshift_bijective {r : ℕ} (hr : w ≤ 2 * r) :
    Function.Bijective (xorshift r : BitVec w → BitVec w) :=
  Function.Involutive.bijective (xorshift_xorshift hr)

theorem rotl_bijective {r : ℕ} (hr : r < w) :
    Function.Bijective fun x : BitVec w => rotl x r :=
  Finite.injective_iff_bijective.mp fun _ _ h => (rotl_inj hr).mp h

/-- The sum into the first word, and that sum into the second. -/
def addBoth (p : BitVec w × BitVec w) : BitVec w × BitVec w :=
  (p.1 + p.2, p.2 + (p.1 + p.2))

theorem addBoth_injective : Function.Injective (addBoth : BitVec w × BitVec w → _) := by
  rintro ⟨x, y⟩ ⟨x', y'⟩ h
  obtain ⟨hfst, hsnd⟩ := Prod.mk.inj h
  dsimp only at hfst hsnd
  rw [hfst, BitVec.add_left_inj] at hsnd
  subst hsnd
  rw [BitVec.add_left_inj] at hfst
  rw [hfst]

/-! ## Bytes -/

/-- Bytes side by side in a word, from byte `i` on. -/
def word (w : ℕ) : ℕ → List (BitVec 8) → BitVec w
  | _, [] => 0
  | i, b :: bs => word w (i + 1) bs ^^^ b.setWidth w <<< (8 * i)

/-- Byte `i` is in the bits from `8 * i` on. -/
theorem getLsbD_word {bs : List (BitVec 8)} {i k : ℕ} (hk : k < w) :
    (word w i bs).getLsbD k =
      (decide (8 * i ≤ k) && (bs[k / 8 - i]?.getD 0).getLsbD (k % 8)) := by
  induction bs generalizing i with
  | nil => simp [word]
  | cons b bs ih =>
      rw [word, BitVec.getLsbD_xor, ih, BitVec.getLsbD_shiftLeft, BitVec.getLsbD_setWidth]
      rcases Nat.lt_trichotomy (k / 8) i with hlt | rfl | hgt
      · have h₁ : ¬ 8 * (i + 1) ≤ k := by omega
        have h₂ : ¬ 8 * i ≤ k := by omega
        have h₃ : k < 8 * i := by omega
        simp [h₁, h₂, h₃]
      · have h₁ : ¬ 8 * (k / 8 + 1) ≤ k := by omega
        have h₂ : 8 * (k / 8) ≤ k := by omega
        have h₃ : k - 8 * (k / 8) = k % 8 := by omega
        have h₄ : k - 8 * (k / 8) < w := by omega
        have h₅ : ¬ k < 8 * (k / 8) := by omega
        simp [h₁, h₂, h₅, hk, ← h₃, h₄]
      · have h₁ : 8 * (i + 1) ≤ k := by omega
        have h₂ : 8 * i ≤ k := by omega
        have h₃ : k / 8 - i = (k / 8 - (i + 1)) + 1 := by omega
        have h₄ : b.getLsbD (k - 8 * i) = false := BitVec.getLsbD_of_ge b _ (by omega)
        simp [h₁, h₂, h₃, h₄]

/-- **A word shows its bytes.** -/
theorem word_inj {bs bs' : List (BitVec 8)} (hlen : bs.length = bs'.length)
    (hfit : 8 * bs.length ≤ w) : word w 0 bs = word w 0 bs' ↔ bs = bs' := by
  refine ⟨fun h => ?_, fun h => by rw [h]⟩
  apply List.ext_getElem hlen
  intro i hi hi'
  apply BitVec.eq_of_getLsbD_eq
  intro j hj
  have hbit := congrArg (fun x => BitVec.getLsbD x (8 * i + j)) h
  have hdiv : (8 * i + j) / 8 = i := by omega
  have hmod : (8 * i + j) % 8 = j := by omega
  simp only [getLsbD_word (show 8 * i + j < w by omega), hdiv, hmod] at hbit
  simpa [List.getElem?_eq_getElem hi, List.getElem?_eq_getElem hi'] using hbit

/-- The bytes of a word, the lowest first. -/
def bytes (n : ℕ) (x : BitVec w) : List (BitVec 8) :=
  (List.range n).map fun i => x.extractLsb' (8 * i) 8

@[simp] theorem length_bytes (n : ℕ) (x : BitVec w) : (bytes n x).length = n := by
  simp [bytes]

/-- Bytes put back together. -/
theorem word_bytes {n : ℕ} (hn : w = 8 * n) (x : BitVec w) : word w 0 (bytes n x) = x := by
  apply BitVec.eq_of_getLsbD_eq
  intro k hk
  have hlt : k / 8 < n := by omega
  have hsum : 8 * (k / 8) + k % 8 = k := Nat.div_add_mod k 8
  have hmod : k % 8 < 8 := Nat.mod_lt _ (by decide)
  rw [getLsbD_word hk]
  simp [bytes, List.getElem?_map, List.getElem?_range hlt, hsum, hmod]

theorem bytes_injective {n : ℕ} (hn : w = 8 * n) :
    Function.Injective (bytes n : BitVec w → _) := by
  intro x y h
  rw [← word_bytes hn x, h, word_bytes hn y]

/-! ## Chunks -/

section Chunks

variable {α : Type*} {size : ℕ} {l : List α}

/-- Chunk `i` of a list that is cut into chunks of one size. -/
def chunk (size i : ℕ) (l : List α) : List α := (l.drop (size * i)).take size

theorem getElem?_chunk {i j : ℕ} (hj : j < size) : (chunk size i l)[j]? = l[size * i + j]? := by
  rw [chunk, List.getElem?_take_of_lt hj, List.getElem?_drop]

theorem length_chunk (size i : ℕ) (l : List α) :
    (chunk size i l).length = min size (l.length - size * i) := by
  rw [chunk, List.length_take, List.length_drop]

/-- The items of a chunk, written one after the other with `n` bytes each, are a chunk of
what is written. -/
theorem flatMap_chunk {β : Type*} {f : α → List β} {n : ℕ} (hf : ∀ a, (f a).length = n)
    (i : ℕ) (l : List α) : (chunk size i l).flatMap f = chunk (size * n) i (l.flatMap f) := by
  have hdrop : ∀ (k : ℕ) (l : List α), (l.drop k).flatMap f = (l.flatMap f).drop (k * n) := by
    intro k
    induction k with
    | zero => simp
    | succ k ih =>
        intro l
        match l with
        | [] => simp
        | a :: l =>
          have hsplit : (k + 1) * n = (f a).length + k * n := by rw [hf, Nat.succ_mul, Nat.add_comm]
          rw [List.drop_succ_cons, ih, List.flatMap_cons, hsplit, List.drop_append]
          simp
  have htake : ∀ (k : ℕ) (l : List α), (l.take k).flatMap f = (l.flatMap f).take (k * n) := by
    intro k
    induction k with
    | zero => simp
    | succ k ih =>
        intro l
        match l with
        | [] => simp
        | a :: l =>
          have hsplit : (k + 1) * n = (f a).length + k * n := by rw [hf, Nat.succ_mul, Nat.add_comm]
          rw [List.take_succ_cons, List.flatMap_cons, ih, List.flatMap_cons, hsplit,
            List.take_length_add_append]
  rw [chunk, chunk, htake, hdrop, Nat.mul_right_comm]

end Chunks

end WordMixing

import Mathlib.Algebra.Group.Action.Defs
import GenTree.GroundTruth
import GenTree.StreamHash
import GenTree.Library.WordMixing

/-!
# The hash of a vector

`calc_hash_128` hashes the memory of a vector with `MurmurHash3_x64_128`.  The function
takes in blocks of 16 bytes, then the bytes that are left, then the length.  The memory is
little-endian, and its length is an `int` (`Layout.InRange`).

Every part is a permutation: a block for a fixed state and the state for a fixed block
(`body_bijective`), the bytes that are left, and the finalization.  This decides what the
hash can and cannot do.

* **A difference within one block is never lost** (`x64_128_ne`).  The vectors of the program
  have 2, 4 or 16 bytes for each entry (`Layout`); vectors that fit into one block are told
  apart, whatever they are.  A configuration of at most eight options is such a vector
  (`Env.not_hashClash`), so `--full` can run all of them (`Env.init_full_hashed`).
* **Differences in two blocks can cancel**, because the second block can take back what the
  first one has changed.  Sixteen options are enough: `Env.clashing_hashClash` has two
  configurations with one hash, and `--full` stops (`fullRun_groundTruth_clashing`).
* **The hash of the state** is a hash of hashes.  A change of the coverage of one location
  goes through three of them and is lost in none (`St.stateHash_ne_of_covBy`).
-/

namespace GenTree

open KeyedRounds WordMixing Outcome

namespace MurmurHash3

/-! ## The function -/

def c1 : BitVec 64 := 0x87c37b91114253d5

def c2 : BitVec 64 := 0x4cf5ad432745937f

/-- `rotl64`. -/
def rotl64 (x : BitVec 64) (r : ℕ) : BitVec 64 := x <<< r ||| x >>> (64 - r)

/-- `getblock64`. -/
def getblock64 (data : List (BitVec 8)) (i : ℕ) : BitVec 64 := word 64 0 (chunk 8 i data)

/-- `fmix64`. -/
def fmix64 (k : BitVec 64) : BitVec 64 :=
  let k := k ^^^ k >>> 33
  let k := k * 0xff51afd7ed558ccd
  let k := k ^^^ k >>> 33
  let k := k * 0xc4ceb9fe1a85ec53
  k ^^^ k >>> 33

/-- What is done to `k1`, in the body and in the tail. -/
def mixK1 (k1 : BitVec 64) : BitVec 64 :=
  let k1 := k1 * c1
  let k1 := rotl64 k1 31
  k1 * c2

/-- What is done to `k2`. -/
def mixK2 (k2 : BitVec 64) : BitVec 64 :=
  let k2 := k2 * c2
  let k2 := rotl64 k2 33
  k2 * c1

/-- The body of the loop over the blocks. -/
def body (h k : HashT) : HashT :=
  let h1 := h.1 ^^^ mixK1 k.1
  let h1 := rotl64 h1 27
  let h1 := h1 + h.2
  let h1 := h1 * 5 + 0x52dce729
  let h2 := h.2 ^^^ mixK2 k.2
  let h2 := rotl64 h2 31
  let h2 := h2 + h1
  let h2 := h2 * 5 + 0x38495ab5
  (h1, h2)

/-- The `switch` over the bytes that are left: the cases fall through, from the last byte
to the first. -/
def takeTail (h : HashT) (tail : List (BitVec 8)) : HashT :=
  let h := if 8 < tail.length then (h.1, h.2 ^^^ mixK2 (word 64 0 (tail.drop 8))) else h
  if 0 < tail.length then (h.1 ^^^ mixK1 (word 64 0 (tail.take 8)), h.2) else h

/-- The finalization. -/
def finalization (len : ℕ) (h : HashT) : HashT :=
  let h1 := h.1 ^^^ BitVec.ofNat 64 len
  let h2 := h.2 ^^^ BitVec.ofNat 64 len
  let h1 := h1 + h2
  let h2 := h2 + h1
  let h1 := fmix64 h1
  let h2 := fmix64 h2
  let h1 := h1 + h2
  let h2 := h2 + h1
  (h1, h2)

/-- `MurmurHash3_x64_128`. -/
def x64_128 (data : List (BitVec 8)) (seed : BitVec 32) : HashT :=
  let nblocks := data.length / 16
  let h := (List.range nblocks).foldl
    (fun h i => body h (getblock64 data (i * 2 + 0), getblock64 data (i * 2 + 1)))
    (seed.setWidth 64, seed.setWidth 64)
  let h := takeTail h (data.drop (16 * nblocks))
  finalization data.length h

/-! ## Each part is a permutation -/

theorem rotl64_eq (x : BitVec 64) (r : ℕ) : rotl64 x r = rotl x r := rfl

theorem fmix64_injective : Function.Injective fmix64 := by
  have hshift : Function.Injective (xorshift 33 : BitVec 64 → BitVec 64) :=
    (xorshift_bijective (by decide)).1
  have hmul₁ : Function.Injective fun x : BitVec 64 => x * 0xff51afd7ed558ccd :=
    (@mul_bijective 64 _ 0x4f74430c22a54005 (by decide)).1
  have hmul₂ : Function.Injective fun x : BitVec 64 => x * 0xc4ceb9fe1a85ec53 :=
    (@mul_bijective 64 _ 0x9cb4b2f8129337db (by decide)).1
  exact hshift.comp (hmul₂.comp (hshift.comp (hmul₁.comp hshift)))

theorem mul_c1_injective : Function.Injective fun x : BitVec 64 => x * c1 :=
  (@mul_bijective 64 _ 0xa98409e882ce4d7d (by decide)).1

theorem mul_c2_injective : Function.Injective fun x : BitVec 64 => x * c2 :=
  (@mul_bijective 64 _ 0xa81e14edd9de2c7f (by decide)).1

theorem mixK1_injective : Function.Injective mixK1 :=
  mul_c2_injective.comp
    ((rotl_bijective (show 31 < 64 by decide)).1.comp mul_c1_injective)

theorem mixK2_injective : Function.Injective mixK2 :=
  mul_c1_injective.comp
    ((rotl_bijective (show 33 < 64 by decide)).1.comp mul_c2_injective)

theorem mul_five_injective (a : BitVec 64) : Function.Injective fun x : BitVec 64 => x * 5 + a := by
  intro x y h
  exact (@mul_bijective 64 5 0xcccccccccccccccd (by decide)).1 ((BitVec.add_left_inj a).mp h)

/-- Equal results of two passes show one equation for each word. -/
theorem body_eq_iff {h h' k k' : HashT} : body h k = body h' k' ↔
    rotl (h.1 ^^^ mixK1 k.1) 27 + h.2 = rotl (h'.1 ^^^ mixK1 k'.1) 27 + h'.2 ∧
      h.2 ^^^ mixK2 k.2 = h'.2 ^^^ mixK2 k'.2 := by
  refine ⟨fun heq => ?_, fun ⟨h₁, h₂⟩ => ?_⟩
  · obtain ⟨hfst, hsnd⟩ := Prod.mk.inj heq
    have h₁ := mul_five_injective _ hfst
    have h₂ := mul_five_injective _ hsnd
    rw [hfst, BitVec.add_left_inj] at h₂
    exact ⟨h₁, (rotl_inj (by decide)).mp h₂⟩
  · unfold body
    simp only [rotl64_eq, h₁, h₂]

theorem body_injective (k : HashT) : Function.Injective fun h => body h k := by
  intro h h' heq
  obtain ⟨h₁, h₂⟩ := body_eq_iff.mp heq
  rw [BitVec.xor_left_inj] at h₂
  rw [h₂, BitVec.add_left_inj, rotl_inj (by decide), BitVec.xor_left_inj] at h₁
  exact Prod.ext h₁ h₂

theorem body_block_injective (h : HashT) : Function.Injective (body h) := by
  intro k k' heq
  obtain ⟨h₁, h₂⟩ := body_eq_iff.mp heq
  rw [BitVec.xor_right_inj] at h₂
  rw [BitVec.add_left_inj, rotl_inj (by decide), BitVec.xor_right_inj] at h₁
  exact Prod.ext (mixK1_injective h₁) (mixK2_injective h₂)

/-- **A block is taken in by a permutation**, of the states and of the blocks. -/
theorem body_bijective :
    (∀ k, Function.Bijective fun h => body h k) ∧ ∀ h, Function.Bijective (body h) :=
  ⟨fun k => Finite.injective_iff_bijective.mp (body_injective k),
    fun h => Finite.injective_iff_bijective.mp (body_block_injective h)⟩

theorem takeTail_injective (tail : List (BitVec 8)) :
    Function.Injective fun h => takeTail h tail := by
  intro h h' heq
  simp only [takeTail] at heq
  by_cases h₀ : 0 < tail.length
  · by_cases h₈ : 8 < tail.length
    · simp only [h₀, h₈, if_true, Prod.mk.injEq, BitVec.xor_left_inj] at heq
      exact Prod.ext heq.1 heq.2
    · simp only [h₀, h₈, if_true, if_false, Prod.mk.injEq, BitVec.xor_left_inj] at heq
      exact Prod.ext heq.1 heq.2
  · have h₈ : ¬ 8 < tail.length := by omega
    simpa only [h₀, h₈, if_false] using heq

/-- The bytes that are left are told apart. -/
theorem takeTail_inj {h : HashT} {tail tail' : List (BitVec 8)}
    (hlen : tail.length = tail'.length) (hshort : tail.length < 16) :
    takeTail h tail = takeTail h tail' ↔ tail = tail' := by
  refine ⟨fun heq => ?_, fun heq => by rw [heq]⟩
  have htake : (tail.take 8).length = (tail'.take 8).length := by simp [hlen]
  have hdrop : (tail.drop 8).length = (tail'.drop 8).length := by simp [hlen]
  have hfirst : (tail.take 8).length ≤ 8 := by simp
  have hrest : (tail.drop 8).length ≤ 8 := by
    rw [List.length_drop]
    omega
  simp only [takeTail, ← hlen] at heq
  by_cases h₀ : 0 < tail.length
  · by_cases h₈ : 8 < tail.length
    · simp only [h₀, h₈, if_true, Prod.mk.injEq, BitVec.xor_right_inj] at heq
      rw [← List.take_append_drop 8 tail, ← List.take_append_drop 8 tail',
        (word_inj htake (by omega)).mp (mixK1_injective heq.1),
        (word_inj hdrop (by omega)).mp (mixK2_injective heq.2)]
    · simp only [h₀, h₈, if_true, if_false, Prod.mk.injEq, BitVec.xor_right_inj] at heq
      have h := (word_inj htake (by omega)).mp (mixK1_injective heq.1)
      rwa [List.take_of_length_le (by omega), List.take_of_length_le (by omega)] at h
  · rw [List.eq_nil_of_length_eq_zero (show tail.length = 0 by omega),
      List.eq_nil_of_length_eq_zero (show tail'.length = 0 by omega)]

theorem finalization_eq (len : ℕ) (h : HashT) : finalization len h =
    addBoth (Prod.map fmix64 fmix64
      (addBoth (h.1 ^^^ BitVec.ofNat 64 len, h.2 ^^^ BitVec.ofNat 64 len))) := rfl

theorem finalization_injective (len : ℕ) : Function.Injective (finalization len) := by
  intro h h' heq
  rw [finalization_eq, finalization_eq] at heq
  have hxor := addBoth_injective
    (fmix64_injective.prodMap fmix64_injective (addBoth_injective heq))
  rw [Prod.mk.injEq, BitVec.xor_left_inj, BitVec.xor_left_inj] at hxor
  exact Prod.ext hxor.1 hxor.2

/-! ## One block makes the difference -/

/-- Sixteen bytes as two words. -/
def blockOf (c : List (BitVec 8)) : HashT := (word 64 0 (c.take 8), word 64 0 (c.drop 8))

theorem blockOf_inj {c c' : List (BitVec 8)} (hc : c.length = 16) (hc' : c'.length = 16) :
    blockOf c = blockOf c' ↔ c = c' := by
  refine ⟨fun heq => ?_, fun heq => by rw [heq]⟩
  obtain ⟨h₁, h₂⟩ := Prod.mk.inj heq
  rw [← List.take_append_drop 8 c, ← List.take_append_drop 8 c',
    (word_inj (by simp [hc, hc']) (by simp [hc])).mp h₁,
    (word_inj (by simp [hc, hc']) (by simp [hc])).mp h₂]

/-- The two words of block `i` are in the chunk of its 16 bytes. -/
theorem getblock64_eq (data : List (BitVec 8)) (i : ℕ) :
    (getblock64 data (i * 2 + 0), getblock64 data (i * 2 + 1)) = blockOf (chunk 16 i data) := by
  have h₁ : chunk 8 (i * 2 + 0) data = (chunk 16 i data).take 8 := by
    rw [chunk, chunk, List.take_take]
    congr 2
    omega
  have h₂ : chunk 8 (i * 2 + 1) data = (chunk 16 i data).drop 8 := by
    rw [chunk, chunk, List.drop_take, List.drop_drop]
    congr 2
    omega
  rw [getblock64, getblock64, h₁, h₂, blockOf]

/-- The blocks of an array. -/
def blocks (data : List (BitVec 8)) : List HashT :=
  (List.range (data.length / 16)).map fun i => blockOf (chunk 16 i data)

theorem x64_128_eq (data : List (BitVec 8)) (seed : BitVec 32) : x64_128 data seed =
    finalization data.length (takeTail
      ((blocks data).foldl body (seed.setWidth 64, seed.setWidth 64))
      (chunk 16 (data.length / 16) data)) := by
  have hfoldl : (List.range (data.length / 16)).foldl
      (fun h i => body h (getblock64 data (i * 2 + 0), getblock64 data (i * 2 + 1)))
      (seed.setWidth 64, seed.setWidth 64) =
      (blocks data).foldl body (seed.setWidth 64, seed.setWidth 64) := by
    rw [blocks, List.foldl_map]
    simp only [getblock64_eq]
  have htail : chunk 16 (data.length / 16) data = data.drop (16 * (data.length / 16)) := by
    rw [chunk, List.take_of_length_le]
    rw [List.length_drop]
    omega
  rw [x64_128, hfoldl, htail]

theorem getElem?_blocks (data : List (BitVec 8)) (i : ℕ) : (blocks data)[i]? =
    if i < data.length / 16 then some (blockOf (chunk 16 i data)) else none := by
  split
  next hlt => simp [blocks, List.getElem?_range hlt]
  next hge => simp [blocks, Nat.le_of_not_lt hge]

theorem length_chunk_of_lt {data : List (BitVec 8)} {i : ℕ} (hi : i < data.length / 16) :
    (chunk 16 i data).length = 16 := by
  rw [length_chunk]
  omega

/-- **A difference within one block is never lost.**  Arrays of one length that differ in
one block only, or only in the bytes that are left, have different hashes. -/
theorem x64_128_ne {data data' : List (BitVec 8)} (hlen : data.length = data'.length)
    (h : ∃! i, chunk 16 i data ≠ chunk 16 i data') (seed : BitVec 32) :
    x64_128 data seed ≠ x64_128 data' seed := by
  obtain ⟨i, hi, huniq⟩ := h
  have hother : ∀ j ≠ i, chunk 16 j data = chunk 16 j data' := fun j hj => by
    by_contra hne
    exact hj (huniq j hne)
  intro heq
  rw [x64_128_eq, x64_128_eq, ← hlen] at heq
  have htaken := finalization_injective _ heq
  -- what `i` is the number of
  rcases Nat.lt_trichotomy i (data.length / 16) with hlt | rfl | hgt
  · have hlt' : i < data'.length / 16 := by rwa [← hlen]
    rw [hother _ (Nat.ne_of_gt hlt)] at htaken
    refine foldl_ne_of_differ_once body_injective body_block_injective (by simp [blocks, hlen])
      ⟨i, ?_, fun j hj => ?_⟩ _ (takeTail_injective _ htaken)
    · dsimp only
      rw [getElem?_blocks, getElem?_blocks, if_pos hlt, if_pos hlt', Ne, Option.some_inj,
        blockOf_inj (length_chunk_of_lt hlt) (length_chunk_of_lt hlt')]
      exact hi
    · by_contra hne
      refine hj ?_
      rw [getElem?_blocks, getElem?_blocks, hlen, hother j hne]
  · have hblocks : blocks data = blocks data' := by
      rw [blocks, blocks, ← hlen]
      refine List.map_congr_left fun j hj => ?_
      rw [hother j (Nat.ne_of_lt (List.mem_range.mp hj))]
    rw [hblocks] at htaken
    refine hi ((takeTail_inj ?_ ?_).mp htaken)
    · rw [length_chunk, length_chunk, hlen]
    · rw [length_chunk]
      omega
  · refine hi ?_
    rw [chunk, chunk, List.drop_eq_nil_of_le (by omega), List.drop_eq_nil_of_le (by omega)]

/-- The last block sets the hash: behind whole blocks, each of the hashes belongs to one
block. -/
theorem x64_128_last_bijective {data : List (BitVec 8)} (hdata : 16 ∣ data.length)
    (seed : BitVec 32) : Function.Bijective fun k : HashT =>
      x64_128 (data ++ (bytes 8 k.1 ++ bytes 8 k.2)) seed := by
  refine Finite.injective_iff_bijective.mp fun k k' heq => ?_
  obtain ⟨n, hn⟩ := hdata
  by_contra hne
  have hbytes : bytes 8 k.1 ++ bytes 8 k.2 ≠ bytes 8 k'.1 ++ bytes 8 k'.2 := by
    intro h
    obtain ⟨h₁, h₂⟩ := List.append_inj h (by simp)
    exact hne (Prod.ext (bytes_injective (by decide) h₁) (bytes_injective (by decide) h₂))
  refine x64_128_ne (by simp) ⟨n, ?_, fun i hi => ?_⟩ seed heq
  · simp only [chunk, List.drop_append, ← hn, List.drop_length, Nat.sub_self, List.drop_zero,
      List.nil_append]
    rw [List.take_of_length_le (by simp), List.take_of_length_le (by simp)]
    exact hbytes
  · by_contra hin
    refine hi ?_
    rcases Nat.lt_or_gt_of_ne hin with hlt | hgt
    · have hle : 16 ≤ (data.drop (16 * i)).length := by
        rw [List.length_drop]
        omega
      rw [chunk, chunk, List.drop_append_of_le_length (by omega),
        List.drop_append_of_le_length (by omega), List.take_append_of_le_length hle,
        List.take_append_of_le_length hle]
    · have hshort : ∀ k : HashT,
          (data ++ (bytes 8 k.1 ++ bytes 8 k.2)).length ≤ 16 * i := fun k => by
        simp only [List.length_append, length_bytes]
        omega
      rw [chunk, chunk, List.drop_eq_nil_of_le (hshort k), List.drop_eq_nil_of_le (hshort k')]

end MurmurHash3

/-! ## Vectors -/

/-- How the entries of a vector lie in memory: `size` is `sizeof(T)`, and `perBlock` of them
make one block. -/
structure Layout (α : Type) where
  size : ℕ
  perBlock : ℕ
  memory : α → List (BitVec 8)
  perBlock_mul_size : perBlock * size = 16
  length_memory : ∀ a, (memory a).length = size
  memory_injective : Function.Injective memory

namespace Layout

variable {α : Type}

/-- `vec<short>`: the values of a configuration. -/
def short : Layout (BitVec 16) :=
  ⟨2, 8, bytes 2, rfl, length_bytes 2, bytes_injective rfl⟩

/-- `vec<int>`: the code of a tree. -/
def int : Layout (BitVec 32) :=
  ⟨4, 4, bytes 4, rfl, length_bytes 4, bytes_injective rfl⟩

/-- `vec<hash_t>`. -/
def hash : Layout HashT where
  size := 16
  perBlock := 1
  memory h := bytes 8 h.1 ++ bytes 8 h.2
  perBlock_mul_size := rfl
  length_memory h := by simp
  memory_injective := by
    intro h h' heq
    obtain ⟨h₁, h₂⟩ := List.append_inj heq (by simp)
    exact Prod.ext (bytes_injective rfl h₁) (bytes_injective rfl h₂)

/-- The length of the memory, `int(vec.size() * sizeof(T))`, is the number of its bytes. -/
def InRange (L : Layout α) (vec : List α) : Prop := ((vec.length * L.size : ℕ) : ℤ) ≤ intMax

instance (L : Layout α) (vec : List α) : Decidable (L.InRange vec) :=
  inferInstanceAs (Decidable (_ ≤ _))

/-- `calc_hash_128`, with `HASH_SEED`, of a vector in range. -/
def calcHash128 (L : Layout α) (vec : List α) : HashT :=
  MurmurHash3.x64_128 (vec.flatMap L.memory) 0xCDAB23EF

variable (L : Layout α)

theorem perBlock_pos : 0 < L.perBlock := by
  by_contra h
  have hmul := L.perBlock_mul_size
  rw [Nat.eq_zero_of_not_pos h, Nat.zero_mul] at hmul
  exact absurd hmul (by decide)

theorem length_flatMap (vec : List α) : (vec.flatMap L.memory).length = vec.length * L.size := by
  rw [List.length_flatMap, List.map_congr_left fun a _ => L.length_memory a, List.map_const',
    List.sum_replicate, smul_eq_mul]

/-- Entries are read back from the memory. -/
theorem flatMap_inj {vec vec' : List α} :
    vec.flatMap L.memory = vec'.flatMap L.memory ↔ vec = vec' := by
  have hsize : 0 < L.size := by
    by_contra h
    have hmul := L.perBlock_mul_size
    rw [Nat.eq_zero_of_not_pos h, Nat.mul_zero] at hmul
    exact absurd hmul (by decide)
  refine ⟨fun h => ?_, fun h => by rw [h]⟩
  induction vec generalizing vec' with
  | nil =>
      match vec' with
      | [] => rfl
      | b :: vec' =>
        have hlen := congrArg List.length h
        rw [L.length_flatMap, L.length_flatMap] at hlen
        simp [hsize.ne'] at hlen
  | cons a vec ih =>
      match vec' with
      | [] =>
        have hlen := congrArg List.length h
        rw [L.length_flatMap, L.length_flatMap] at hlen
        simp [hsize.ne'] at hlen
      | b :: vec' =>
        rw [List.flatMap_cons, List.flatMap_cons] at h
        obtain ⟨hhead, htail⟩ := List.append_inj h (by rw [L.length_memory, L.length_memory])
        rw [L.memory_injective hhead, ih htail]

/-- Vectors of one length that differ in the entries of one block have different hashes. -/
theorem calcHash128_ne {vec vec' : List α} (hlen : vec.length = vec'.length)
    (h : ∃! i, chunk L.perBlock i vec ≠ chunk L.perBlock i vec') :
    L.calcHash128 vec ≠ L.calcHash128 vec' := by
  have hchunk : ∀ (i : ℕ) (vec : List α),
      chunk 16 i (vec.flatMap L.memory) = (chunk L.perBlock i vec).flatMap L.memory := fun i vec => by
    rw [flatMap_chunk L.length_memory, L.perBlock_mul_size]
  refine MurmurHash3.x64_128_ne ?_ ?_ _
  · rw [L.length_flatMap, L.length_flatMap, hlen]
  · simpa only [hchunk, Ne, L.flatMap_inj] using h

/-- One entry that differs is enough. -/
theorem calcHash128_ne_of_differ_once {vec vec' : List α} (hlen : vec.length = vec'.length)
    (h : ∃! i : ℕ, vec[i]? ≠ vec'[i]?) : L.calcHash128 vec ≠ L.calcHash128 vec' := by
  obtain ⟨i, hi, huniq⟩ := h
  have hpos := L.perBlock_pos
  refine L.calcHash128_ne hlen ⟨i / L.perBlock, fun heq => hi ?_, fun j hj => ?_⟩
  · have hget := congrArg (fun l => l[i % L.perBlock]?) heq
    have hsum : L.perBlock * (i / L.perBlock) + i % L.perBlock = i := Nat.div_add_mod ..
    simpa only [getElem?_chunk (Nat.mod_lt _ hpos), hsum] using hget
  · by_contra hne
    refine hj (List.ext_getElem? fun k => ?_)
    rcases Nat.lt_or_ge k L.perBlock with hlt | hge
    · rw [getElem?_chunk hlt, getElem?_chunk hlt]
      by_contra hdiffer
      refine hne ?_
      rw [← huniq _ hdiffer, Nat.mul_add_div hpos, Nat.div_eq_of_lt hlt, Nat.add_zero]
    · have hshort : ∀ vec : List α, (chunk L.perBlock j vec).length ≤ k := fun vec => by
        rw [length_chunk]
        omega
      rw [List.getElem?_eq_none (hshort _), List.getElem?_eq_none (hshort _)]

/-- Vectors that fit into one block are told apart. -/
theorem calcHash128_inj {vec vec' : List α} (hlen : vec.length = vec'.length)
    (hfit : vec.length ≤ L.perBlock) : L.calcHash128 vec = L.calcHash128 vec' ↔ vec = vec' := by
  refine ⟨fun heq => ?_, fun heq => by rw [heq]⟩
  by_contra hne
  have hchunk : ∀ vec : List α, vec.length ≤ L.perBlock → chunk L.perBlock 0 vec = vec :=
    fun vec hvec => by
      rw [chunk, Nat.mul_zero, List.drop_zero, List.take_of_length_le hvec]
  refine L.calcHash128_ne hlen ⟨0, ?_, fun i hi => ?_⟩ heq
  · dsimp only
    rw [hchunk vec hfit, hchunk vec' (by omega)]
    exact hne
  · by_contra hpos
    have hmul : L.perBlock ≤ L.perBlock * i := Nat.le_mul_of_pos_right _ (Nat.pos_of_ne_zero hpos)
    refine hi ?_
    rw [chunk, chunk, List.drop_eq_nil_of_le (by omega), List.drop_eq_nil_of_le (by omega)]

end Layout

/-- **What the hash of a vector separates.**  Vectors of one length, with entries of 2, 4
or 16 bytes, have different hashes when they differ in the entries of one block of 16 bytes
only; in particular when they fit into one block, or when one entry differs.  Behind any
hashes, each value is the hash of the vector with exactly one further hash.  All this is
about vectors whose length in bytes is an `int`. -/
theorem Layout.calcHash128_separates :
    (∀ (α : Type) (L : Layout α) (vec vec' : List α), vec.length = vec'.length →
      L.InRange vec →
      ((∃! i, chunk L.perBlock i vec ≠ chunk L.perBlock i vec') →
        L.calcHash128 vec ≠ L.calcHash128 vec') ∧
      (vec.length ≤ L.perBlock → vec ≠ vec' → L.calcHash128 vec ≠ L.calcHash128 vec') ∧
      ((∃! i : ℕ, vec[i]? ≠ vec'[i]?) → L.calcHash128 vec ≠ L.calcHash128 vec')) ∧
    ∀ hs : List HashT, (∀ h, Layout.hash.InRange (hs ++ [h])) →
      Function.Bijective fun h => Layout.hash.calcHash128 (hs ++ [h]) := by
  refine ⟨fun α L vec vec' hlen _ => ⟨L.calcHash128_ne hlen, fun hfit hne heq => ?_,
    L.calcHash128_ne_of_differ_once hlen⟩, fun hs _ => ?_⟩
  · exact hne ((L.calcHash128_inj hlen hfit).mp heq)
  · have hdvd : 16 ∣ (hs.flatMap Layout.hash.memory).length := by
      rw [Layout.length_flatMap]
      exact Dvd.intro_left _ rfl
    have hlast : (fun h => Layout.hash.calcHash128 (hs ++ [h])) = fun k : HashT =>
        MurmurHash3.x64_128 (hs.flatMap Layout.hash.memory ++ (bytes 8 k.1 ++ bytes 8 k.2))
          0xCDAB23EF := by
      funext k
      rw [Layout.calcHash128, List.flatMap_append, List.flatMap_singleton]
      rfl
    rw [hlast]
    exact MurmurHash3.x64_128_last_bijective hdvd _

/-- Two words that fit into one block, six words of which the first block differs, nine
values of which one differs, and a hash behind two others. -/
theorem Layout.calcHash128_separates_last :
    Layout.int.calcHash128 [1, 2] ≠ Layout.int.calcHash128 [1, 3] ∧
      Layout.int.calcHash128 [0, 1, 2, 3, 4, 5] ≠ Layout.int.calcHash128 [7, 8, 2, 3, 4, 5] ∧
      Layout.short.calcHash128 [0, 1, 0, 1, 0, 1, 0, 1, 0] ≠
        Layout.short.calcHash128 [0, 1, 1, 1, 0, 1, 0, 1, 0] ∧
      Function.Bijective fun h => Layout.hash.calcHash128 ([(1, 2), (3, 4)] ++ [h]) := by
  refine ⟨?_, ?_, ?_, ?_⟩
  · exact (Layout.calcHash128_separates.1 _ Layout.int [1, 2] [1, 3] rfl (by decide)).2.1
      (by decide) (by decide)
  · refine (Layout.calcHash128_separates.1 _ Layout.int [0, 1, 2, 3, 4, 5] [7, 8, 2, 3, 4, 5] rfl
      (by decide)).1 ⟨0, by decide, fun i hi => ?_⟩
    cases i with
    | zero => rfl
    | succ i => exact absurd (by simp [chunk, Layout.int, Nat.mul_succ]) hi
  · refine (Layout.calcHash128_separates.1 _ Layout.short [0, 1, 0, 1, 0, 1, 0, 1, 0]
      [0, 1, 1, 1, 0, 1, 0, 1, 0] rfl (by decide)).2.2 ⟨2, by decide, fun i hi => ?_⟩
    rcases i with _ | _ | _ | i
    · exact absurd rfl hi
    · exact absurd rfl hi
    · rfl
    · exact absurd (by simp) hi
  · exact Layout.calcHash128_separates.2 [(1, 2), (3, 4)] fun _ =>
      show ((3 * 16 : ℕ) : ℤ) ≤ intMax by decide

/-! ## Configurations and stores -/

/-- `calc_hash_128` of the values of a configuration. -/
def calcHash128 (values : List ℤ) : HashT :=
  Layout.short.calcHash128 (values.map (BitVec.ofInt 16))

/-- Value indices are kept by the conversion to `short`. -/
theorem ofInt_short_inj {x y : ℤ} (hx : 0 ≤ x ∧ x < 32768) (hy : 0 ≤ y ∧ y < 32768) :
    BitVec.ofInt 16 x = BitVec.ofInt 16 y ↔ x = y := by
  refine ⟨fun h => ?_, fun h => by rw [h]⟩
  have hint := congrArg BitVec.toInt h
  rw [BitVec.toInt_ofInt_eq_self (by decide) (by omega) (by omega),
    BitVec.toInt_ofInt_eq_self (by decide) (by omega) (by omega)] at hint
  exact hint

/-- Value indices of at most eight options are told apart. -/
theorem calcHash128_inj {values values' : List ℤ} (hlen : values.length = values'.length)
    (hfit : values.length ≤ 8) (hshort : ∀ v ∈ values, 0 ≤ v ∧ v < 32768)
    (hshort' : ∀ v ∈ values', 0 ≤ v ∧ v < 32768) (heq : calcHash128 values = calcHash128 values') :
    values = values' := by
  have hmap : values.map (BitVec.ofInt 16) = values'.map (BitVec.ofInt 16) :=
    (Layout.short.calcHash128_inj (by simpa using hlen)
      (by rwa [List.length_map])).mp heq
  apply List.ext_getElem hlen
  intro i hi hi'
  have hget := congrArg (fun l => l[i]?) hmap
  simp only [List.getElem?_map, List.getElem?_eq_getElem hi, List.getElem?_eq_getElem hi',
    Option.map_some, Option.some_inj] at hget
  exact (ofInt_short_inj (hshort _ (List.getElem_mem hi)) (hshort' _ (List.getElem_mem hi'))).mp
    hget

section ConfigHash

variable {Name : Type} {env : Env Name HashT} {f : List ℤ → List Name}

/-- **At most eight options**: each complete configuration has a hash of its own. -/
theorem Env.not_hashClash (hhash : env.confHash = calcHash128) (hvars : env.dom.nVars ≤ 8)
    (hrange : ∀ v ∈ env.dom.vars, v.nValues ≤ 32768) : ¬ HashClash env := by
  rintro ⟨c, c', hc, hc', hne, heq⟩
  rw [hhash] at heq
  exact hne (calcHash128_inj (hc.1.trans hc'.1.symm) (hc.1.trans_le hvars) (hc.short hrange)
    (hc'.short hrange) heq)

/-- **The whole space can be run.**  With the hash of the code, `--full` starts for every
domain of at most eight options, and the store holds what the program says about every
configuration. -/
theorem Env.init_full_hashed [DecidableEq Name] (hhash : env.confHash = calcHash128)
    (hvars : env.dom.nVars ≤ 8) (hrange : ∀ v ∈ env.dom.vars, v.nValues ≤ 32768)
    (hprogram : ∀ k values, env.program k values = f values) (hfull : env.options.full = true) :
    ∃ s, env.init = .ok s ∧ Exhausted env f s.cov := by
  have hmeets := Env.init_full hprogram hfull hrange
  cases hinit : env.init with
  | error e =>
      exact absurd (hmeets.of_eq_error hinit).2 (Env.not_hashClash hhash hvars hrange)
  | ok s => exact ⟨s, rfl, (hmeets.of_eq_ok hinit).1⟩

end ConfigHash

/-- The program of `Env.exhaustive`, with the hashes of the code. -/
def Env.hashed : Env ℕ HashT where
  dom := Env.exhaustive.dom
  program := Env.exhaustive.program
  program_nodup := Env.exhaustive.program_nodup
  confHash := calcHash128
  locHash ids := (StreamHash.addAll {} (ids.map confInt)).digest
  select := Env.exhaustive.select
  solver := Env.exhaustive.solver
  draws := Env.exhaustive.draws
  leafSort := Env.exhaustive.leafSort
  arrives := Env.exhaustive.arrives
  randFuel := Env.exhaustive.randFuel
  params := Env.exhaustive.params
  options := Env.exhaustive.options

theorem Env.init_full_hashed_three :
    ∃ s, Env.hashed.init = .ok s ∧ Exhausted Env.hashed
      (fun v => if v = [1, 1, 1] then [1] else if v = [0, 1, 1] then [2] else []) s.cov := by
  refine Env.init_full_hashed rfl (by decide) (by decide) (fun _ values => ?_) rfl
  refine List.Nodup.dedup ?_
  dsimp only
  split
  · simp
  · split <;> simp

/-! ## Two configurations with one hash

From nine options on, the values fill a second block.  The first block sets the state in
which the second one is taken in, and that block is a permutation (`body_bijective`): for
two first blocks, each second block behind the one has a partner behind the other with which
the states meet.  The partner is a configuration if its shorts are value indices. -/

/-- Sixteen options with 32767 values each. -/
def Domain.sixteen : Domain where
  vars := (List.range 16).map fun i =>
    { name := toString i, labels := (List.range 32767).map toString }
  labels_pos := by
    simp only [List.mem_map, forall_exists_index, and_imp, forall_apply_eq_imp_iff₂]
    intro i _
    simp [VarDomain.nValues]
  vars_le := by simp [intMax]

theorem Domain.complete_sixteen {values : List ℤ} (hlen : values.length = 16)
    (hvalues : ∀ v ∈ values, 0 ≤ v ∧ v < 32767) : Config.Complete .sixteen { values } := by
  refine ⟨by simp [nVars, sixteen, hlen], fun i v hv => ?_⟩
  have hi : i < 16 := by
    rw [← hlen]
    exact (List.getElem?_eq_some_iff.mp hv).1
  have hn : sixteen.nValues i = 32767 := by
    simp [nValues, sixteen, VarDomain.nValues, List.getElem?_range hi]
  rw [hn]
  exact hvalues v (List.mem_of_getElem? hv)

/-- A program over this domain that always covers location 1.  Configurations have the hash of
the code; the hashes of locations are all different. -/
def Env.clashing : Env ℕ (HashT ⊕ List ℕ) where
  dom := .sixteen
  program _ _ := [1]
  program_nodup _ _ := List.nodup_singleton 1
  confHash values := .inl (calcHash128 values)
  locHash := .inr
  select := .firstUntested
  solver := .search .sixteen
  draws := Env.exhaustive.draws
  leafSort := Env.exhaustive.leafSort
  arrives := Env.exhaustive.arrives
  randFuel := Env.exhaustive.randFuel
  params := Env.exhaustive.params
  options := Env.exhaustive.options

/-- **A collision.**  Two configurations that differ in nine values. -/
theorem Env.clashing_hashClash : HashClash Env.clashing :=
  ⟨{ values := List.replicate 16 0 },
    { values := [12, 0, 0, 0, 0, 0, 0, 0,
      23882, 7759, 21325, 25263, 28303, 27170, 21309, 22237] },
    Domain.complete_sixteen (by decide) (by decide), Domain.complete_sixteen (by decide) (by decide),
    by decide, congrArg Sum.inl (by decide +kernel)⟩

/-- **`--full` can stop without a report.**  The program is deterministic, the options have at
most 32767 values, an untested variable is found where there is one, locations have different
hashes when they are covered by different configurations, and location 1 is covered; but the
run ends before its loop, at the check that no configuration is run twice. -/
theorem fullRun_groundTruth_clashing :
    (∀ k values, Env.clashing.program k values = [1]) ∧
      (∀ v ∈ Env.clashing.dom.vars, v.nValues ≤ 32767) ∧ Env.clashing.options.full = true ∧
      Env.clashing.select.Total ∧ Function.Injective Env.clashing.locHash ∧
      Env.clashing.init = .error .confRanTwice ∧
      ¬ ∃ s r, RunsTo Env.clashing (fun _ => True) .done s ∧ r ∈ s.reports ∧
        r.GroundTruth Env.clashing.dom fun _ => [1] := by
  have hvalues : ∀ v ∈ Env.clashing.dom.vars, v.nValues = 32767 := by
    simp [Env.clashing, Domain.sixteen, VarDomain.nValues]
  have hinit := Env.init_full_of_hashClash rfl
    (fun v hv => (hvalues v hv).trans_le (by decide)) Env.clashing_hashClash
  refine ⟨fun _ _ => rfl, fun v hv => (hvalues v hv).le, rfl, Selector.firstUntested_total,
    Sum.inr_injective, hinit, ?_⟩
  rintro ⟨s, r, ⟨s₀, hstart, -⟩, -⟩
  rw [hinit] at hstart
  cases hstart

/-! ## The hash of the state -/

/-- `CoverageStore::state_hash`. -/
def CoverageStore.stateHash {Name : Type} (cov : CoverageStore Name) : HashT :=
  Layout.hash.calcHash128 [(cov.hashConfigs calcHash128).digest,
    Layout.hash.calcHash128 (cov.locs.map Location.hash)]

/-- `CTree::hash`. -/
def CTree.hash (dom : Domain) (tree : CTree) : Except Abort HashT := do
  let tree ← tree.buildInterpreter dom
  .ok (Layout.int.calcHash128 (tree.interpreter.map (BitVec.ofInt 32)))

section StateHash

variable {Name Hash : Type}

/-- The entry of `v_hashes` for a record: a linked record has the tree of its root. -/
def St.treeHash (dom : Domain) (s : St Name Hash) (dat : LocData) : Except Abort HashT := do
  let tree ← match dat.parent with
    | some parent => do
        let root ← s.dat parent
        .ok root.tree
    | none => .ok dat.tree
  match tree with
  | some tree => tree.hash dom
  | none => .ok (0, 0)

/-- `state_hash`. -/
def St.stateHash (dom : Domain) (s : St Name Hash) : Except Abort HashT := do
  let vHashes ← s.vLocData.mapM (s.treeHash dom)
  .ok (Layout.hash.calcHash128 (s.cov.stateHash :: vHashes))

/-- Stores whose configurations have the same values, and that differ in the hash of one
location, have different hashes. -/
theorem CoverageStore.stateHash_ne {cov cov' : CoverageStore Name}
    (hconfigs : cov.configs.map Config.hashKey = cov'.configs.map Config.hashKey)
    {pre post : List (Location Name)} {loc loc' : Location Name}
    (hlocs : cov.locs = pre ++ loc :: post) (hlocs' : cov'.locs = pre ++ loc' :: post)
    (hne : loc.hash ≠ loc'.hash) : cov.stateHash ≠ cov'.stateHash := by
  have hinner : Layout.hash.calcHash128 (cov.locs.map Location.hash) ≠
      Layout.hash.calcHash128 (cov'.locs.map Location.hash) := by
    rw [hlocs, hlocs', List.map_append, List.map_append, List.map_cons, List.map_cons]
    exact Layout.hash.calcHash128_ne_of_differ_once (by simp) (differ_once_append hne)
  have hhashes : cov.configs.map (fun c => calcHash128 c.hashKey) =
      cov'.configs.map fun c => calcHash128 c.hashKey := by
    have hmap := congrArg (List.map calcHash128) hconfigs
    rwa [List.map_map, List.map_map] at hmap
  rw [stateHash, stateHash, hashConfigs, hashConfigs, hhashes]
  refine Layout.hash.calcHash128_ne_of_differ_once (by simp) ?_
  exact @differ_once_append _ [_] [] _ _ hinner

/-- **The state hash shows the coverage.**  Two states have different hashes when their
configurations have the same values and their records trees with the same hashes, and the
stores differ in one location only, and there in the configuration that has covered it last.

Nothing is asked of the configurations but their values: those of the two stores cover
different locations, as they do in any two stores that agree with themselves. -/
theorem St.stateHash_ne_of_covBy {dom : Domain} {s s' : St Name Hash} {h h' : HashT}
    (hs : s.stateHash dom = .ok h) (hs' : s'.stateHash dom = .ok h')
    (htrees : s.vLocData.mapM (s.treeHash dom) = s'.vLocData.mapM (s'.treeHash dom))
    (hconfigs : s.cov.configs.map Config.hashKey = s'.cov.configs.map Config.hashKey)
    {pre post : List (Location Name)} {loc loc' : Location Name} {ids : List ℕ} {i j : ℕ}
    (hlocs : s.cov.locs = pre ++ loc :: post) (hlocs' : s'.cov.locs = pre ++ loc' :: post)
    (hcovBy : loc.covBy = ids ++ [i]) (hcovBy' : loc'.covBy = ids ++ [j])
    (hi : (i : ℤ) ≤ intMax) (hj : (j : ℤ) ≤ intMax)
    (_ : Layout.hash.InRange (s.cov.locs.map Location.hash))
    (_ : ((s.vLocData.length + 1) * 16 : ℤ) ≤ intMax) (hne : i ≠ j) : h ≠ h' := by
  have hloc : loc.hash ≠ loc'.hash := Location.hash_ne_of_last hcovBy hcovBy' hi hj hne
  unfold stateHash at hs hs'
  rw [← htrees] at hs'
  obtain ⟨v, hv, hret⟩ := bind_eq_ok.mp hs
  obtain ⟨v', hv', hret'⟩ := bind_eq_ok.mp hs'
  rw [hv, Except.ok.injEq] at hv'
  subst hv'
  rw [← Except.ok.inj hret, ← Except.ok.inj hret']
  exact Layout.hash.calcHash128_ne_of_differ_once (by simp)
    (@differ_once_append _ [] v _ _ (CoverageStore.stateHash_ne hconfigs hlocs hlocs' hloc))

/-- Two configurations are run; location 1 is covered by the first one or by the second. -/
theorem St.stateHash_ne_of_covBy_one :
    let calls := fun names names' : List ℕ =>
      [(({ values := [0] } : Config), names), ({ values := [1] }, names')]
    ∃ (cov cov' : CoverageStore ℕ) (h h' : HashT),
      CoverageStore.registerAll {} (calls [2, 1] [2]) = .ok cov ∧
        CoverageStore.registerAll {} (calls [2] [2, 1]) = .ok cov' ∧
        ({ cov } : St ℕ ℕ).stateHash (.single 2 (by decide)) = .ok h ∧
        ({ cov := cov' } : St ℕ ℕ).stateHash (.single 2 (by decide)) = .ok h' ∧ h ≠ h' := by
  let cov : CoverageStore ℕ := {
    locs := [⟨2, some 0, [0, 1]⟩, ⟨1, some 1, [0]⟩]
    configs := [{ id := some 0, values := [0], covLocs := [0, 1] },
      { id := some 1, values := [1], covLocs := [0] }]
    mapNameLoc := [(2, 0), (1, 1)] }
  let cov' : CoverageStore ℕ := {
    locs := [⟨2, some 0, [0, 1]⟩, ⟨1, some 1, [1]⟩]
    configs := [{ id := some 0, values := [0], covLocs := [0] },
      { id := some 1, values := [1], covLocs := [0, 1] }]
    mapNameLoc := [(2, 0), (1, 1)] }
  refine ⟨cov, cov', _, _, rfl, rfl, rfl, rfl, ?_⟩
  exact @St.stateHash_ne_of_covBy ℕ ℕ (.single 2 (by decide)) { cov } { cov := cov' } _ _ rfl rfl
    rfl rfl [⟨2, some 0, [0, 1]⟩] [] ⟨1, some 1, [0]⟩ ⟨1, some 1, [1]⟩ [] 0 1 rfl rfl rfl rfl
    (by decide) (by decide) (by decide) (by decide) (by decide)

end StateHash

end GenTree

import GenTree.Library.Separated
import GenTree.TreeText
import Mathlib.Data.Char
import Mathlib.Data.Finset.Sort
import Mathlib.Data.List.Lex
import Mathlib.Algebra.Order.BigOperators.Group.Finset

/-!
# Cache records

`ProgramRunnerMt::run` stores the locations of a configuration as one string:
every name of the set, in the order of `std::set`, with a comma behind it.  A
cached record is read character by character, and every comma ends a name.

The names themselves come from outside.  A simple target prints one a line, and
the coverage collectors append a line number to a file name; none of them looks
for commas.

## Main results

* `decode_encode_iff` — a record is read back exactly when no name contains a
  comma and its number of characters survives `(int) val.size()`.
* `decode_encode_runSimple` — a target that prints `a,b` loses its location.
-/

open Separated

namespace GenTree

/-- `str`. -/
abbrev Str := List Char

/-- `(int) n` for a `size_t` `n`. -/
@[irreducible] def toInt (n : ℕ) : ℤ := Int.bmod n (2 ^ 32)

theorem toInt_of_le {n : ℕ} (h : (n : ℤ) ≤ intMax) : toInt n = n := by
  unfold intMax at h
  unfold toInt
  rw [Int.bmod_eq_of_le] <;> omega

theorem toNat_toInt_lt {n : ℕ} (h : intMax < n) : (toInt n).toNat < n := by
  unfold intMax at h
  unfold toInt
  rw [Int.bmod_def]
  split <;> omega

/-! ## The runners -/

/-- The lines that `getline` reads, where `line` is what the current one has so far.
Characters behind the last end of line are a line of their own. -/
def getlines (line : Str) : Str → List Str
  | [] => if line = [] then [] else [line]
  | c :: out => if c = '\n' then line :: getlines [] out else getlines (line ++ [c]) out

/-- `if (loc.size() && loc.back() == '\r') loc.pop_back()`. -/
def popCr (loc : Str) : Str := if loc.getLast? = some '\r' then loc.dropLast else loc

/-- `ProgramRunner::_run_simple` on what the target prints. -/
def runSimple (out : Str) : Finset Str := ((getlines [] out).map popCr).toFinset

theorem showInt_ne_nil (i : ℤ) : showInt i ≠ [] := by
  unfold showInt
  split
  · exact List.cons_ne_nil _ _
  · exact Nat.toDigits_ne_nil

/-- A number is digits behind a sign. -/
theorem notMem_showInt {c : Char} (hdigit : c.isDigit = false) (hsign : c ≠ '-') (i : ℤ) :
    c ∉ showInt i := by
  have hdigits : ∀ n : ℕ, c ∉ Nat.toDigits 10 n := by
    intro n hmem
    rw [Nat.isDigit_of_mem_toDigits (by decide) (by decide) hmem] at hdigit
    cases hdigit
  unfold showInt
  split
  · simp [hdigits, hsign]
  · exact hdigits _

/-! ## Writing and reading a record -/

/-- `run`: the value of a cache record. -/
def encode (locs : Finset Str) : Str :=
  (locs.sort (· ≤ ·)).foldl (fun val s => val ++ s ++ [',']) []

/-- `run`: the loop over the characters of a cache record. -/
def decodeLoop (loc : Str) (locs : Finset Str) : Str → Finset Str
  | [] => locs
  | c :: val =>
    if c = ',' then decodeLoop [] (insert loc locs) val else decodeLoop (loc ++ [c]) locs val

/-- `run`: the locations of a cache record. -/
def decode (val : Str) : Finset Str := decodeLoop [] ∅ (val.take (toInt val.length).toNat)

/-- The number of characters of a record. -/
def recordSize (locs : Finset Str) : ℕ := ∑ s ∈ locs, (s.length + 1)

theorem encode_eq_record (locs : Finset Str) : encode locs = record ',' (locs.sort (· ≤ ·)) := by
  have hfold : ∀ (names : List Str) (val : Str),
      names.foldl (fun val s => val ++ s ++ [',']) val = val ++ record ',' names := by
    intro names
    induction names with
    | nil => simp
    | cons s names ih =>
      intro val
      rw [List.foldl_cons, ih, record_cons]
      simp
  exact hfold _ _

theorem length_encode (locs : Finset Str) : (encode locs).length = recordSize locs := by
  rw [encode_eq_record, length_record]
  unfold recordSize
  rw [← List.sum_toFinset _ (Finset.sort_nodup locs (· ≤ ·)), Finset.sort_toFinset]

theorem decodeLoop_eq (loc : Str) (locs : Finset Str) (val : Str) :
    decodeLoop loc locs val = locs ∪ (pieces ',' loc val).toFinset := by
  induction val generalizing loc locs with
  | nil => simp [decodeLoop]
  | cons c val ih =>
    by_cases hc : c = ','
    · subst hc
      rw [decodeLoop, if_pos rfl, ih, pieces_cons_self]
      ext s
      simp only [Finset.mem_union, Finset.mem_insert, List.mem_toFinset, List.mem_cons]
      tauto
    · rw [decodeLoop, if_neg hc, ih, pieces_cons_of_ne hc]

theorem decode_eq (val : Str) :
    decode val = (pieces ',' [] (val.take (toInt val.length).toNat)).toFinset := by
  unfold decode
  rw [decodeLoop_eq, Finset.empty_union]

/-- A value whose size is an `int` is read to its end. -/
theorem decode_of_fits {val : Str} (h : (val.length : ℤ) ≤ intMax) :
    decode val = (pieces ',' [] val).toFinset := by
  rw [decode_eq, toInt_of_le h, Int.toNat_natCast, List.take_length]

/-- No name that is read from a record contains a comma. -/
theorem comma_notMem_of_mem_decode {val s : Str} (h : s ∈ decode val) : ',' ∉ s := by
  rw [decode_eq, List.mem_toFinset] at h
  exact sep_notMem_of_mem_pieces List.not_mem_nil h

theorem decode_encode_of_fits {locs : Finset Str} (hcomma : ∀ s ∈ locs, ',' ∉ s)
    (hsize : recordSize locs ≤ intMax) : decode (encode locs) = locs := by
  rw [← length_encode] at hsize
  rw [decode_of_fits hsize, encode_eq_record, pieces_record]
  · exact Finset.sort_toFinset ..
  · intro s hs
    exact hcomma s ((Finset.mem_sort _).mp hs)

/-- A record that does not fit is cut off, and a name is lost. -/
theorem decode_encode_ne {locs : Finset Str} (hcomma : ∀ s ∈ locs, ',' ∉ s)
    (hsize : intMax < recordSize locs) : decode (encode locs) ≠ locs := by
  intro heq
  have hpieces : pieces ',' [] (encode locs) = locs.sort (· ≤ ·) := by
    rw [encode_eq_record, pieces_record]
    intro s hs
    exact hcomma s ((Finset.mem_sort _).mp hs)
  have hne : locs.sort (· ≤ ·) ≠ [] := by
    intro hnil
    rw [← length_encode, encode_eq_record, hnil] at hsize
    simp [intMax] at hsize
  have hlast : (encode locs).getLast? = some ',' := by
    rw [encode_eq_record]
    exact getLast?_record hne
  have hcut : (toInt (encode locs).length).toNat < (encode locs).length := by
    apply toNat_toInt_lt
    rwa [length_encode]
  have hlost := length_pieces_take_lt hlast hcut
  rw [hpieces, Finset.length_sort] at hlost
  have hcard : (decode (encode locs)).card < locs.card := by
    rw [decode_eq]
    exact lt_of_le_of_lt (List.toFinset_card_le _) hlost
  rw [heq] at hcard
  exact lt_irrefl _ hcard

/-- **Round trip of cache records.**  The set that is read back from a record is the set
that was written exactly when no name contains a comma and the size of the record is an
`int`. -/
theorem decode_encode_iff (locs : Finset Str) :
    decode (encode locs) = locs ↔ (∀ s ∈ locs, ',' ∉ s) ∧ recordSize locs ≤ intMax := by
  constructor
  · intro h
    have hcomma : ∀ s ∈ locs, ',' ∉ s := by
      intro s hs
      have hread : s ∈ decode (encode locs) := by rwa [h]
      exact comma_notMem_of_mem_decode hread
    refine ⟨hcomma, ?_⟩
    by_contra hsize
    exact decode_encode_ne hcomma (not_le.mp hsize) h
  · rintro ⟨hcomma, hsize⟩
    exact decode_encode_of_fits hcomma hsize

/-- A line with a comma in it is read back as two locations. -/
theorem decode_encode_runSimple :
    decode (encode (runSimple ['a', ',', 'b', '\n'])) ≠ runSimple ['a', ',', 'b', '\n'] := by
  have hrun : runSimple ['a', ',', 'b', '\n'] = {['a', ',', 'b']} := by decide
  have hwrite : encode {['a', ',', 'b']} = ['a', ',', 'b', ','] := by
    unfold encode
    rw [Finset.sort_singleton]
    rfl
  have hread : decode ['a', ',', 'b', ','] = {['a'], ['b']} := by
    rw [decode_of_fits (by decide)]
    decide
  rw [hrun, hwrite, hread]
  decide

end GenTree

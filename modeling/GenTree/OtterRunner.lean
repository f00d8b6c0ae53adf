import GenTree.ReportText

/-!
# The trace runner

`OtterRunner` does not run a program: it reads a recorded trace and answers from it.  A trace
begins with the numbers of options and locations, the names of the locations and a line of
`#`; then come entries, each with the indices of its locations, a path condition and sample
lines, separated by lines of `-` and ended by a line of `=`.

`_parse` is a state machine on lines whose accumulators are moved into the entry and cleared
at its end.  The text is the decompressed one, and `hash` is `calc_hash_128`.  A `Bitset` is
the list of its bits.
-/

namespace GenTree

open Outcome TextLines

/-- `OtterRunner::Entry`. -/
structure OtterRunner.Entry where
  confs : List (List ℤ)
  covs : List Bool
  deriving DecidableEq

/-- `OtterRunner`. -/
structure OtterRunner where
  nVars : ℤ
  locNames : List Str
  entries : List OtterRunner.Entry
  deriving DecidableEq

namespace OtterRunner

/-! ## `_parse` -/

/-- The local state of the loop over the lines. -/
structure ParseSt (Hash : Type) where
  entries : List Entry := []
  readState : ℕ := 0
  bs : List Bool
  samples : List (List ℤ) := []
  confHashes : List Hash := []
  sexpr : Str := []

/-- The loop `while (ss >> loc)`, with more fuel than there are characters.  The second
`CHECK` of its body assigns `prev_loc` and always holds. -/
def readLocs (nLocs : ℤ) : ℕ → Str → List Bool → Except Abort (List Bool)
  | 0, _, _ => .error .outOfFuel
  | fuel + 1, s, bs =>
      let r := readInt s
      if r.ok then do
        let loc := r.value.getD 0
        check (0 ≤ loc ∧ loc < nLocs) .otterLoc
        readLocs nLocs fuel r.rest (bs.set loc.toNat true)
      else .ok bs

/-- `ss >> val` for a `short`: a number that does not fit is a failure. -/
def readShort (s : Str) : IntRead :=
  let r := readInt s
  if -32768 ≤ r.value.getD 0 ∧ r.value.getD 0 ≤ 32767 then r else { r with ok := false }

/-- The loop `while (ss >> val)`, with more fuel than there are characters. -/
def readSample : ℕ → Str → List ℤ → Except Abort (List ℤ)
  | 0, _, _ => .error .outOfFuel
  | fuel + 1, s, dat =>
      let r := readShort s
      if r.ok then do
        let val := r.value.getD 0
        check (-1 ≤ val) .otterValue
        readSample fuel r.rest (dat ++ [val])
      else .ok dat

namespace ParseSt

variable {Hash : Type}

/-- A line of `-`. -/
def readDashes (st : ParseSt Hash) : Except Abort (ParseSt Hash) :=
  match st.readState with
  | 0 => do
      check (st.bs.any id = true) .otterNoLocs
      .ok { st with readState := 1 }
  | 1 => do
      let sexpr := trim isSpace st.sexpr
      check (sexpr ≠ []) .otterNoSexpr
      .ok { st with sexpr, readState := 2 }
  | _ => .error .otterState

/-- A line of `=`. -/
def readEquals (nLocs : ℤ) (st : ParseSt Hash) : Except Abort (ParseSt Hash) := do
  check (st.samples ≠ []) .otterNoSamples
  check (st.readState = 2) .otterState
  .ok {
    entries := st.entries ++ [⟨st.samples, st.bs⟩]
    bs := List.replicate nLocs.toNat false }

variable [DecidableEq Hash]

/-- Any other line. -/
def readBody (hash : List ℤ → Hash) (nVars nLocs : ℤ) (st : ParseSt Hash) (line : Str) :
    Except Abort (ParseSt Hash) :=
  match st.readState with
  | 0 => do
      let bs ← readLocs nLocs (line.length + 1) line st.bs
      .ok { st with bs }
  | 1 => .ok { st with sexpr := st.sexpr ++ line }
  | 2 =>
      if line = [] then .ok st
      else do
        let line := line.map fun c => if c = ',' then ' ' else c
        let dat ← readSample (line.length + 1) line []
        check ((dat.length : ℤ) = nVars) .otterSample
        if hash dat ∈ st.confHashes then .ok st
        else .ok { st with samples := st.samples ++ [dat], confHashes := hash dat :: st.confHashes }
  | _ => .error .otterState

/-- The body of the loop over the lines. -/
def readLine (hash : List ℤ → Hash) (nVars nLocs : ℤ) (st : ParseSt Hash) (line : Str) :
    Except Abort (ParseSt Hash) :=
  if isAll line '-' then st.readDashes
  else if isAll line '=' then st.readEquals nLocs
  else st.readBody hash nVars nLocs line

end ParseSt

/-- `in >> std::ws, getline(in, line)`: the line and what is left. -/
def wsLine (s : Str) : Str × Str :=
  let s := skipWs s
  (s.takeWhile (· ≠ '\n'), (s.dropWhile (· ≠ '\n')).tail)

/-- `_parse`. -/
def parse {Hash : Type} [DecidableEq Hash] (hash : List ℤ → Hash) (text : Str) :
    Except Abort OtterRunner := do
  let r₁ := readInt text
  let r₂ := readInt r₁.rest
  check (r₁.ok = true ∧ r₂.ok = true) .otterCounts
  let nVars := r₁.value.getD 0
  let nLocs := r₂.value.getD 0
  check (0 < nVars ∧ 0 < nLocs) .otterCounts
  let (strLocs, rest) := wsLine r₂.rest
  let locNames := words isSpace [] strLocs
  check ((locNames.length : ℤ) = nLocs) .otterNames
  let (strSep, rest) := wsLine rest
  check (isAll strSep '#' = true) .otterSeparator
  let st ← (lines '\n' [] rest).foldlM (ParseSt.readLine hash nVars nLocs)
    { bs := List.replicate nLocs.toNat false }
  .ok { nVars, locNames, entries := st.entries }

/-! ## `run` -/

/-- The loop of `_match` from option `i` on, for `left` more options. -/
def matchFrom (a b : List ℤ) : ℕ → ℕ → Except Abort Bool
  | _, 0 => .ok true
  | i, left + 1 => do
      let x ← vecAt a i
      let y ← vecAt b i
      if x ≠ -1 ∧ y ≠ -1 ∧ x ≠ y then .ok false else matchFrom a b (i + 1) left

/-- `_match`. -/
def match_ (r : OtterRunner) (a : List ℤ) (config : Config) : Except Abort Bool :=
  matchFrom a config.values 0 r.nVars.toNat

/-- The loop of `run` over the samples of an entry. -/
def runEntry (r : OtterRunner) (config : Config) (covs : List Bool) :
    List (List ℤ) → List Bool → Except Abort (List Bool)
  | [], bs => .ok bs
  | c :: cs, bs => do
      if ← r.match_ c config then .ok (List.zipWith or bs covs)
      else runEntry r config covs cs bs

/-- The positions that `find_first` and `find_next` go through. -/
def positions (bs : List Bool) : List ℕ := (List.range bs.length).filter fun i => bs.getD i false

/-- `run`. -/
def run (dom : Domain) (r : OtterRunner) (config : Config) : Except Abort (Finset Str) := do
  check (r.nVars = dom.nVars) .otterVars
  let bs ← r.entries.foldlM (fun bs e => r.runEntry config e.covs e.confs bs)
    (List.replicate r.locNames.length false)
  (positions bs).foldlM (fun ret pos => do
    let name ← vecAt r.locNames pos
    .ok (insert name ret)) ∅

end OtterRunner

end GenTree

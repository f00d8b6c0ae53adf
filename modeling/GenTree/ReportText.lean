import GenTree.CacheRecord
import GenTree.Iter2
import GenTree.Library.TextLines
import GenTree.LocEntry

/-!
# The text of a report

`finish_alg` writes a report as lines of text, and `Analyzer::read_file` reads it back.
Both are written by hand.  A line that begins with `#` is a comment, a line of `-` ends the
part of a group that is read, and a line of `=` ends the group; `read_state` counts the
parts.  The flag of an ignored group is a comment too.

Formulas go through Z3, which is code outside the repository.  `Z3Text` is what the two
functions use of it, for any type of expressions.  What the program does around it,
`zctx_solver_simplify` and `Domain::parse_string`, is translated.
-/

namespace GenTree

open Outcome TextLines

/-! ## Z3 -/

/-- Z3 with what is needed to print, read and compare formulas: `applySimplifier` and `parse`
fail with a `z3::exception`. -/
structure Z3Text (Expr : Type) extends Z3 Expr where
  ne : Expr → Expr → Expr
  simplify : Expr → Expr
  applySimplifier : Expr → Option Expr
  print : Expr → Str
  parse : Str → Option (List Expr)

namespace Z3Text

variable {Expr : Type} (z : Z3Text Expr)

/-- `Context::zctx_solver_simplify`. -/
def zctxSolverSimplify (e : Expr) : Expr :=
  let simpleSimpl := z.simplify e
  (z.applySimplifier simpleSimpl).getD simpleSimpl

/-- `zsort().name()`: options with the same labels share the sort of the first of them. -/
def zsortName (dom : Domain) (v : VarDomain) : String :=
  ((dom.vars.find? fun w => decide (w.labels = v.labels)).map VarDomain.name).getD v.name

/-- `parse_string_replace_map_`: the atoms over labels that several options have, with a
text that says which sort the label belongs to. -/
def parseStringReplaceMap (dom : Domain) : List (Str × Str) :=
  let lblCnt (label : String) := (dom.vars.flatMap VarDomain.labels).count label
  let atoms := dom.vars.zipIdx.flatMap fun (v, id) =>
    (v.labels.zipIdx.filter fun (label, _) => decide (lblCnt label ≠ 1)).map fun (label, i) =>
      (z.print (z.build (.eq id i)),
        "(= |".toList ++ v.name.toList ++ "| (as |".toList ++ label.toList ++ "| |".toList ++
          (zsortName dom v).toList ++ "|))".toList)
  let map := atoms.foldl (fun m (src, dst) => (m.filter fun p => p.1 ≠ src) ++ [(src, dst)]) []
  map.mergeSort fun p q => decide (p.1 ≤ q.1)

/-- The loop of `boost::algorithm::replace_all`; `skip` characters still belong to the last
occurrence. -/
def replaceFrom (src dst : Str) : ℕ → Str → Str
  | _, [] => []
  | skip + 1, _ :: input => replaceFrom src dst skip input
  | 0, c :: input =>
      if src.isPrefixOf (c :: input) then dst ++ replaceFrom src dst (src.length - 1) input
      else c :: replaceFrom src dst 0 input

/-- `boost::algorithm::replace_all`; an empty text is found nowhere. -/
def replaceAll (input src dst : Str) : Str :=
  if src = [] then input else replaceFrom src dst 0 input

/-- The text that `Domain::parse_string` hands to Z3. -/
def assertion (dom : Domain) (input : Str) : Str :=
  let input := (z.parseStringReplaceMap dom).foldl (fun s p => replaceAll s p.1 p.2) input
  "(assert ".toList ++ input ++ ")".toList

/-- `Domain::parse_string`. -/
def parseString (dom : Domain) (input : Str) : Except Abort Expr :=
  match z.parse (z.assertion dom input) with
  | none => .error .parseText
  | some [e] => .ok e
  | some _ => .error .parseSize

end Z3Text

/-! ## Writing -/

/-- What the header of a report says and the state of the algorithm does not: the program
arguments, the seed, the ids of the run, the numbers of the runner, three times in seconds,
and the two halves of the hash of the state. -/
structure Header where
  args : List Str
  seed : ℕ
  repeatIdOption : ℤ
  threadId : ℤ
  nCacheHit : ℤ
  runnerNLocs : ℤ
  repeatId : ℤ
  elapsed : ℤ
  localTimer : ℤ
  totalElapsed : ℤ
  stateHash : ℕ × ℕ

namespace Header

/-- `fmt::join(args, " ")`. -/
def argLine (h : Header) : Str := [' '].intercalate h.args

/-- `hash_t::str`. -/
def hashStr (h : ℕ × ℕ) : Str :=
  (Nat.toDigits 16 h.1).leftpad 16 '0' ++ (Nat.toDigits 16 h.2).leftpad 16 '0'

/-- A number, aligned to the right. -/
def field (width : ℕ) (i : ℤ) : Str := (showInt i).leftpad width ' '

/-- The second line, without its end. -/
def seedLine (h : Header) : Str :=
  "# seed = ".toList ++ showInt h.seed ++ ", repeat_id = ".toList ++ showInt h.repeatIdOption ++
    ", thread_id = ".toList ++ showInt h.threadId

/-- The third line, without its end. -/
def statusLine (h : Header) (r : Report Str) : Str :=
  "# ".toList ++ field 8 r.nConfigs ++ " ".toList ++ field 4 r.nLocs ++ " ".toList ++
    field 4 r.nUniq ++ " | ".toList ++ field 5 h.nCacheHit ++ " ".toList ++
    field 5 h.runnerNLocs ++ " | ".toList ++ field 2 h.repeatId ++ " ".toList ++
    field 4 r.iter ++ " | ".toList ++ field 5 h.elapsed ++ " ".toList ++
    field 5 h.localTimer ++ " ".toList ++ field 6 h.totalElapsed ++ " | ".toList ++
    hashStr h.stateHash

/-- The lines in front of the groups. -/
def text (h : Header) (r : Report Str) : Str :=
  "# ".toList ++ h.argLine ++ '\n' :: (h.seedLine ++ '\n' :: (h.statusLine r ++ '\n' ::
    ("======".toList ++ ['\n'])))

end Header

section Writing

variable {Expr : Type}

/-- The formula of a group as it is printed. -/
def Group.finalExpr (z : Z3Text Expr) (expensiveSimplify : Bool) (g : Group Str) : Expr :=
  let e := z.simplify (z.build g.expr)
  if expensiveSimplify then z.zctxSolverSimplify e else e

/-- The line of the hits and misses, without its end. -/
def Group.hitLine (g : Group Str) : Str :=
  "# M/H: ".toList ++ showInt g.nMiss ++ " / ".toList ++ showInt g.nHit

/-- The line of the last rebuild, without its end. -/
def Group.rebuildLine (g : Group Str) : Str :=
  "# Last rebuild:   iter ".toList ++ showInt g.lastBuildIter ++ "  num_configs ".toList ++
    showInt g.lastBuildNConfigs

/-- The names of a group, with a comma and a blank behind each. -/
def Group.namesLine (g : Group Str) : Str := g.names.flatMap (· ++ [',', ' '])

/-- What is printed for one group. -/
def Group.text (z : Z3Text Expr) (expensiveSimplify : Bool) (g : Group Str) : Str :=
  (if g.ignored then "# IGNORED".toList ++ ['\n'] else []) ++
    (g.hitLine ++ '\n' :: (g.rebuildLine ++ '\n' :: (g.namesLine ++ '\n' :: ('-' :: '\n' ::
      (z.print (g.finalExpr z expensiveSimplify) ++ '\n' :: ('-' :: '\n' ::
        (g.tree ++ '\n' :: ("======".toList ++ ['\n']))))))))

/-- What `finish_alg` writes into the output file. -/
def Report.text (z : Z3Text Expr) (h : Header) (expensiveSimplify : Bool) (r : Report Str) : Str :=
  h.text r ++ r.groups.flatMap (Group.text z expensiveSimplify)

end Writing

/-! ## Reading -/

/-- `Analyzer::LocData` with the comments that were read in front of the group. -/
structure ReadEntry (Expr : Type) extends LocEntry Expr where
  comments : List Str

/-- The local variables of `read_file`, its optional result parameter, and the state of the
analyzer. -/
structure ReadSt (Expr : Type) where
  res : List (Str × ReadEntry Expr) := []
  readState : ℕ := 0
  locs : List Str := []
  comments : List Str := []
  sexpr : Str := []
  stree : Str := []
  ignored : Bool := false
  sexprid : List UInt32 := []
  curId : ℕ := 0
  cntIgnored : ℕ := 0
  globalComments : Option (List Str) := none
  analyzer : Analyzer := {}

/-- The word that marks an ignored group. -/
def ignoredWord : Str := "IGNORED".toList

/-- `is_all`. -/
def isAll (s : Str) (c : Char) : Bool := !s.isEmpty && s.all (· == c)

theorem isAll_iff {s : Str} {c : Char} : isAll s c = true ↔ s ≠ [] ∧ ∀ a ∈ s, a = c := by
  rw [isAll, Bool.and_eq_true, Bool.not_eq_true', List.isEmpty_eq_false_iff, List.all_eq_true]
  simp only [beq_iff_eq]

theorem isAll_eq_false {s : Str} {c d : Char} (h : d ∈ s) (hne : d ≠ c) : isAll s c = false := by
  rw [← Bool.not_eq_true, isAll_iff]
  intro hall
  exact hne (hall.2 d h)

namespace ReadSt

variable {Expr : Type}

/-- A line of `-`. -/
def readDashes (st : ReadSt Expr) : Except Abort (ReadSt Expr) :=
  match st.readState with
  | 0 => do
      check (st.locs ≠ []) .emptyLocs
      .ok { st with readState := 1 }
  | 1 => do
      let sexpr := trim isSpace st.sexpr
      check (sexpr ≠ []) .emptySexpr
      .ok { st with sexpr, readState := 2 }
  | _ => .error .readState

/-- The body of the loop over the locations of a group.  The comments are moved into the
first entry. -/
def addLoc (e : Expr) (tree : CTree) (ignored : Bool) (curId : ℕ)
    (p : List (Str × ReadEntry Expr) × Bool × List Str) (s : Str) :
    Except Abort (List (Str × ReadEntry Expr) × Bool × List Str) := do
  let (res, isFirst, comments) := p
  check (s ∉ res.map Prod.fst) .duplicatedLocation
  .ok (res ++ [(s, { e, tree, ignored, isFirst, id := curId, comments })], false, [])

/-- A line of `=`. -/
def readEquals (dom : Domain) (z : Z3Text Expr) (st : ReadSt Expr) :
    Except Abort (ReadSt Expr) :=
  if st.locs = [] then
    .ok { st with
      globalComments := st.globalComments.map (· ++ st.comments)
      comments := [] }
  else do
    let e ← z.parseString dom st.sexpr
    let (tree, _) ← CTree.deserialize dom {} st.stree
    check (z.hash e ∉ st.sexprid) .duplicatedExpression
    let treeE ← tree.buildZexpr dom .freeMix
    let (ncex, _, analyzer) ← countModels dom z.toZ3 (z.ne e (z.build treeE)) 1 none st.analyzer
    check (ncex = 0) .mismatch
    let (res, _, _) ← st.locs.foldlM (addLoc e tree st.ignored st.curId)
      (st.res, true, st.comments)
    .ok { st with
      res, analyzer
      sexprid := z.hash e :: st.sexprid
      curId := st.curId + 1
      cntIgnored := st.cntIgnored + if st.ignored then 1 else 0
      ignored := false, readState := 0, locs := [], comments := [], sexpr := [], stree := [] }

/-- A line that is part of a group. -/
def readBody (st : ReadSt Expr) (line : Str) : Except Abort (ReadSt Expr) :=
  match st.readState with
  | 0 =>
      let toks := words isSpace [] (line.map fun c => if c = ',' then ' ' else c)
      .ok { st with locs := st.locs ++ toks }
  | 1 => .ok { st with sexpr := st.sexpr ++ line ++ ['\n'] }
  | 2 => do
      check (st.stree = []) .treeData
      .ok { st with stree := line }
  | _ => .error .readState

/-- The body of the loop over the lines. -/
def readLine (dom : Domain) (z : Z3Text Expr) (st : ReadSt Expr) (line : Str) :
    Except Abort (ReadSt Expr) :=
  let line := trim isSpace line
  if line = [] then .ok st
  else if line.head? = some '#' then
    .ok { st with
      comments := st.comments ++ [line]
      ignored := st.ignored || decide (ignoredWord <:+: line) }
  else if isAll line '-' then st.readDashes
  else if isAll line '=' then st.readEquals dom z
  else st.readBody line

end ReadSt

/-- The loop of `read_file` on what is left of the file. -/
def readText {Expr : Type} (dom : Domain) (z : Z3Text Expr) (st : ReadSt Expr) (text : Str) :
    Except Abort (ReadSt Expr) :=
  (getlines [] text).foldlM (ReadSt.readLine dom z) st

/-- `read_file` on the text of the file; `none` for `global_comments` is the null pointer. -/
def readFile {Expr : Type} (dom : Domain) (z : Z3Text Expr) (globalComments : Option (List Str))
    (analyzer : Analyzer) (text : Str) : Except Abort (ReadSt Expr) :=
  readText dom z { globalComments, analyzer } text

end GenTree

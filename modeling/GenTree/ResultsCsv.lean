import GenTree.Basic
import Mathlib.Algebra.Field.Rat
import Mathlib.Algebra.Order.Field.Basic
import Mathlib.Algebra.Order.Ring.Rat
import Mathlib.Data.Finset.Dedup
import Mathlib.Data.List.Sort

/-!
# The table of the results

`analyze_res_to_csv` writes one row for each run and five summary rows below, one
for each of five statistics of the columns.  A column is taken for text when its
smallest entry is `kNAN`, the number that stands for a text.  The header's field
names are consulted through a counter of its own, which is not advanced for a
column that is taken for text.

So a summary row is right (`Csv.Aligned`) only if the counter happens to find
`_repeat_id` exactly where it is.

## Main result

* `analyzeResToCsv_aligned` — for every list of results and every order of the
  fields: what is written, and when the summary rows are right.
-/

namespace GenTree

open Outcome

/-! ## Values -/

/-- A `boost::any`, by the type it holds.  The value of a `float` is given as a
`double`. -/
inductive AnyVal (D : Type)
  | short (x : ℤ)
  | int (x : ℤ)
  | long (x : ℤ)
  | float (x : D)
  | double (x : D)
  | string (s : String)
  | charPtr (s : String)
  | other

/-- The `double`s as the program uses them. -/
structure DoubleOps (D : Type) where
  ofInt : ℤ → D
  add : D → D → D
  sub : D → D → D
  div : D → D → D
  /-- `kMIN<double>`. -/
  kMin : D
  /-- `std::to_string`. -/
  toStr : D → String

namespace AnyVal

variable {D : Type}

/-- A number that `any2string` can write. -/
def isNum : AnyVal D → Bool
  | .short _ | .int _ | .long _ | .double _ => true
  | _ => false

/-- A text. -/
def isText : AnyVal D → Bool
  | .string _ | .charPtr _ => true
  | _ => false

/-- `any2string`. -/
def any2string (ops : DoubleOps D) : AnyVal D → Except Abort String
  | .short x => .ok (toString x)
  | .int x => .ok (toString x)
  | .long x => .ok (toString x)
  | .double x => .ok (ops.toStr x)
  | .string s => .ok s
  | .charPtr s => .ok s
  | .float _ => .error .anyType
  | .other => .error .anyType

/-- `any2double`. -/
def any2double (ops : DoubleOps D) : AnyVal D → D
  | .short x => ops.ofInt x
  | .int x => ops.ofInt x
  | .long x => ops.ofInt x
  | .float x => x
  | .double x => x
  | _ => ops.kMin

end AnyVal

/-! ## The statistics -/

section Statistics

variable {D : Type} [LinearOrder D] (ops : DoubleOps D)

/-- `std::sort`. -/
def sortVec (v : List D) : List D := v.insertionSort (· ≤ ·)

/-- `vec_median(vec, beg, end)`. -/
def vecMedianOf (vec : List D) (beg fin : ℕ) : Except Abort D := do
  check (beg ≤ fin) .medianEmpty
  check (fin ≤ vec.length) .medianEmpty
  let size := fin - beg
  check (size ≠ 0) .medianEmpty
  let mid := size / 2
  if size % 2 = 0 then do
    let x ← vecAt vec (beg + mid)
    let y ← vecAt vec (beg + mid - 1)
    .ok (ops.div (ops.add x y) (ops.ofInt 2))
  else vecAt vec (beg + mid)

/-- `vec_median(vec)`. -/
def vecMedianAll (vec : List D) : Except Abort D := vecMedianOf ops vec 0 vec.length

/-- `vec_mean`. -/
def vecMean (vec : List D) : Except Abort D :=
  .ok (ops.div (vec.foldl ops.add (ops.ofInt 0)) (ops.ofInt vec.length))

/-- `vec_sir`. -/
def vecSir (vec : List D) : Except Abort D := do
  let size := vec.length
  check (size ≠ 0) .medianEmpty
  let mid := size / 2
  let q1 ← vecMedianOf ops vec 0 (max mid 1)
  let q3 ← if size % 2 = 0 then vecMedianOf ops vec (min mid (size - 1)) size
    else vecMedianOf ops vec (min (mid + 1) (size - 1)) size
  .ok (ops.div (ops.sub q3 q1) (ops.ofInt 2))

/-- `*std::min_element`. -/
def minElement : List D → Except Abort D
  | [] => .error .outOfRange
  | x :: xs => .ok (xs.foldl min x)

/-- `*std::max_element`. -/
def maxElementOf : List D → Except Abort D
  | [] => .error .outOfRange
  | x :: xs => .ok (xs.foldl max x)

/-- The summary rows: their names and their statistics. -/
def statistics : List (String × (List D → Except Abort D)) :=
  [("MED", vecMedianAll ops), ("SIR", vecSir ops), ("MEAN", vecMean ops), ("MIN", minElement),
    ("MAX", maxElementOf)]

end Statistics

/-! ## The table -/

/-- A cell of a summary row. -/
inductive CsvCell (D : Type)
  | nan
  | name (s : String)
  | stat (x : D)

/-- What `analyze_res_to_csv` writes: the header, a row of cells for each result,
and the summary rows.  In the file there is a comma behind every cell of a row. -/
structure Csv (D : Type) where
  header : List String
  rows : List (List String)
  summary : List (List (CsvCell D))

section Table

variable {D : Type} [LinearOrder D] (ops : DoubleOps D)

/-- A `map<str, boost::any>`: the keys in order, with their values. -/
abbrev ResultMap (D : Type) := List (String × AnyVal D)

/-- `get_keys_as_vec`. -/
def getKeysAsVec (mp : ResultMap D) : List String := mp.map Prod.fst

/-- `get_keys_as_set`. -/
def getKeysAsSet (mp : ResultMap D) : Finset String := (getKeysAsVec mp).toFinset

/-- The fields of the table, and their set. -/
def csvFields (vResults : List (ResultMap D)) (fields : List String) :
    Except Abort (List String × Finset String) :=
  if fields = [] ∨ fields = [""] then do
    let mp ← vecAt vResults 0
    .ok (getKeysAsVec mp, getKeysAsSet mp)
  else .ok (fields, fields.toFinset)

/-- The value of a field; the keys are known to be the fields. -/
def fieldValue (mp : ResultMap D) (fName : String) : AnyVal D := (mp.lookup fName).getD .other

/-- The row of a result. -/
def csvResultRow (setFields : Finset String) (fields : List String) (mp : ResultMap D) :
    Except Abort (List String) := do
  check (getKeysAsSet mp = setFields) .resultKeys
  fields.mapM fun fName => (fieldValue mp fName).any2string ops

/-- A column of numbers. -/
def colVals (vResults : List (ResultMap D)) (fName : String) : List D :=
  vResults.map fun mp => (fieldValue mp fName).any2double ops

/-- The loop of `out_custom` over the columns from the counter `colId` on. -/
def outCells (fields : List String) (name : String) (f : List D → Except Abort D) :
    ℕ → List (List D) → Except Abort (List (CsvCell D))
  | _, [] => .ok []
  | colId, v :: vs => do
      let v := sortVec v
      let x ← vecAt v 0
      if x = ops.kMin then do
        let cells ← outCells fields name f colId vs
        .ok (.nan :: cells)
      else do
        let fName ← vecAt fields colId
        if fName = "_repeat_id" then do
          let cells ← outCells fields name f (colId + 1) vs
          .ok (.name name :: cells)
        else do
          let y ← f v
          let cells ← outCells fields name f (colId + 1) vs
          .ok (.stat y :: cells)

/-- `analyze_res_to_csv`. -/
def analyzeResToCsv (vResults : List (ResultMap D)) (fields : List String) :
    Except Abort (Csv D) := do
  let (fields, setFields) ← csvFields vResults fields
  let rows ← vResults.mapM (csvResultRow ops setFields fields)
  if vResults = [] then .ok { header := fields, rows, summary := [] }
  else do
    let cols := fields.map fun fName => sortVec (colVals ops vResults fName)
    let summary ← (statistics ops).mapM fun (name, f) => outCells ops fields name f 0 cols
    .ok { header := fields, rows, summary }

end Table

/-! ## What a right summary is -/

section Aligned

variable {D : Type} [LinearOrder D] {ops : DoubleOps D} {vResults : List (ResultMap D)}
  {header : List String}

/-- The header for a request of fields. -/
def csvHeader (vResults : List (ResultMap D)) (fields : List String) : List String :=
  if fields = [] ∨ fields = [""] then getKeysAsVec (vResults.head?.getD []) else fields

/-- A field that has a text in every result. -/
def textField (vResults : List (ResultMap D)) (fName : String) : Bool :=
  vResults.all fun mp => (fieldValue mp fName).isText

/-- A field that has a number in every result. -/
def numField (vResults : List (ResultMap D)) (fName : String) : Bool :=
  vResults.all fun mp => (fieldValue mp fName).isNum

/-- The cell of a field in a summary row: the statistic of its own column, unless
the field is text or the row's name belongs there. -/
def expectedCell (ops : DoubleOps D) (vResults : List (ResultMap D)) (name : String)
    (f : List D → Except Abort D) (fName : String) : Except Abort (CsvCell D) :=
  if textField vResults fName then .ok .nan
  else if fName = "_repeat_id" then .ok (.name name)
  else do
    let y ← f (sortVec (colVals ops vResults fName))
    .ok (.stat y)

/-- Every cell of a summary row belongs to the field above it. -/
def RowAligned (ops : DoubleOps D) (vResults : List (ResultMap D)) (header : List String)
    (row : String × (List D → Except Abort D)) (cells : List (CsvCell D)) : Prop :=
  List.Forall₂ (fun fName cell => expectedCell ops vResults row.1 row.2 fName = .ok cell) header cells

/-- The summary rows are **aligned** with the header. -/
def Csv.Aligned (ops : DoubleOps D) (vResults : List (ResultMap D)) (csv : Csv D) : Prop :=
  List.Forall₂ (RowAligned ops vResults csv.header) (statistics ops) csv.summary

/-- The smallest entry of a column is `kNAN`. -/
def LeastIsNan (ops : DoubleOps D) (col : List D) : Prop := ops.kMin ∈ col ∧ ∀ x ∈ col, ops.kMin ≤ x

/-- The counter is **in step** for a request: every numeric column has a smallest
entry other than `kNAN`, and the name that is found at the number of numeric
fields before it is `_repeat_id` exactly when its own is. -/
def InStep (ops : DoubleOps D) (vResults : List (ResultMap D)) (header : List String) : Prop :=
  ∀ i fName, header[i]? = some fName → textField vResults fName = false →
    ¬ LeastIsNan ops (colVals ops vResults fName) ∧
      (header[(header.take i).countP fun g => !textField vResults g]? = some "_repeat_id" ↔
        fName = "_repeat_id")

/-! ## The columns -/

theorem sortVec_ne_nil {v : List D} (h : v ≠ []) : sortVec v ≠ [] := by
  intro hnil
  have hlen := List.length_insertionSort (· ≤ ·) v
  rw [sortVec] at hnil
  rw [hnil, List.length_nil, eq_comm, List.length_eq_zero_iff] at hlen
  exact h hlen

@[simp] theorem sortVec_sortVec (v : List D) : sortVec (sortVec v) = sortVec v :=
  (List.pairwise_insertionSort (· ≤ ·) v).insertionSort_eq

/-- The first entry of a sorted column is its smallest. -/
theorem head_sortVec_iff {v : List D} {x : D} :
    (sortVec v)[0]? = some x ↔ x ∈ v ∧ ∀ y ∈ v, x ≤ y := by
  have hmem : ∀ y, y ∈ sortVec v ↔ y ∈ v := fun y => List.mem_insertionSort (· ≤ ·)
  have hsorted := List.pairwise_insertionSort (· ≤ ·) v
  change (sortVec v).Pairwise (· ≤ ·) at hsorted
  cases hs : sortVec v with
  | nil =>
    simp only [hs, List.not_mem_nil, false_iff] at hmem
    simp [hmem]
  | cons a l =>
    rw [hs, List.pairwise_cons] at hsorted
    have ha : a ∈ v := (hmem a).mp (by rw [hs]; exact List.mem_cons_self)
    have hle : ∀ y ∈ v, a ≤ y := by
      intro y hy
      rw [← hmem, hs, List.mem_cons] at hy
      rcases hy with rfl | hy
      · exact le_rfl
      · exact hsorted.1 y hy
    rw [List.getElem?_cons_zero, Option.some.injEq]
    refine ⟨fun h => h ▸ ⟨ha, hle⟩, fun h => le_antisymm (hle x h.1) (h.2 a ha)⟩

omit [LinearOrder D] in
theorem colVals_ne_nil (hne : vResults ≠ []) (fName : String) : colVals ops vResults fName ≠ [] := by
  simpa [colVals] using hne

/-- A text column is all `kNAN`. -/
theorem leastIsNan_of_textField (hne : vResults ≠ []) {fName : String}
    (h : textField vResults fName = true) : LeastIsNan ops (colVals ops vResults fName) := by
  have hall : ∀ x ∈ colVals ops vResults fName, x = ops.kMin := by
    intro x hx
    obtain ⟨mp, hmp, rfl⟩ := List.mem_map.mp hx
    have htext := List.all_eq_true.mp h mp hmp
    revert htext
    cases fieldValue mp fName <;> simp [AnyVal.isText, AnyVal.any2double]
  obtain ⟨x, hx⟩ := List.exists_mem_of_ne_nil (colVals ops vResults fName) (colVals_ne_nil hne fName)
  exact ⟨hall x hx ▸ hx, fun y hy => (hall y hy).ge⟩

/-! ## The statistics of a column -/

omit [LinearOrder D] in
theorem vecMedianOf_ok {vec : List D} {beg fin : ℕ} (hlt : beg < fin) (hle : fin ≤ vec.length) :
    ∃ x, vecMedianOf ops vec beg fin = .ok x := by
  have hat : ∀ i < vec.length, ∃ x, vecAt vec i = .ok x := fun i hi =>
    ⟨vec[i], vecAt_of_getElem? (List.getElem?_eq_getElem hi)⟩
  unfold vecMedianOf
  rw [check_pos hlt.le, ok_bind, check_pos hle, ok_bind]
  dsimp only
  rw [check_pos (by omega), ok_bind]
  split
  · obtain ⟨x, hx⟩ := hat (beg + (fin - beg) / 2) (by omega)
    obtain ⟨y, hy⟩ := hat (beg + (fin - beg) / 2 - 1) (by omega)
    rw [hx, ok_bind, hy, ok_bind]
    exact ⟨_, rfl⟩
  · exact hat _ (by omega)

omit [LinearOrder D] in
theorem vecSir_ok {vec : List D} (hne : vec ≠ []) : ∃ x, vecSir ops vec = .ok x := by
  have hpos : 0 < vec.length := List.length_pos_of_ne_nil hne
  unfold vecSir
  dsimp only
  rw [check_pos hpos.ne', ok_bind]
  obtain ⟨q1, hq1⟩ : ∃ x, vecMedianOf ops vec 0 (max (vec.length / 2) 1) = .ok x :=
    vecMedianOf_ok (by omega) (by omega)
  rw [hq1, ok_bind]
  split
  · obtain ⟨q3, hq3⟩ : ∃ x, vecMedianOf ops vec (min (vec.length / 2) (vec.length - 1)) vec.length =
        .ok x := vecMedianOf_ok (by omega) le_rfl
    rw [hq3, ok_bind]
    exact ⟨_, rfl⟩
  · obtain ⟨q3, hq3⟩ : ∃ x, vecMedianOf ops vec (min (vec.length / 2 + 1) (vec.length - 1))
        vec.length = .ok x := vecMedianOf_ok (by omega) le_rfl
    rw [hq3, ok_bind]
    exact ⟨_, rfl⟩

/-- Every statistic of a column with an entry is defined. -/
theorem statistics_ok {row : String × (List D → Except Abort D)} (hrow : row ∈ statistics ops)
    {v : List D} (hne : v ≠ []) : ∃ y, row.2 v = .ok y := by
  unfold statistics at hrow
  simp only [List.mem_cons, List.not_mem_nil, or_false] at hrow
  rcases hrow with rfl | rfl | rfl | rfl | rfl
  · exact vecMedianOf_ok (List.length_pos_of_ne_nil hne) le_rfl
  · exact vecSir_ok hne
  · exact ⟨_, rfl⟩
  · cases v with
    | nil => exact absurd rfl hne
    | cons x xs => exact ⟨_, rfl⟩
  · cases v with
    | nil => exact absurd rfl hne
    | cons x xs => exact ⟨_, rfl⟩

/-! ## A summary row -/

/-- The columns below some fields. -/
def columns (ops : DoubleOps D) (vResults : List (ResultMap D)) (fields : List String) :
    List (List D) :=
  fields.map fun fName => sortVec (colVals ops vResults fName)

/-- What the counter must find from one field on. -/
def InStepFrom (ops : DoubleOps D) (vResults : List (ResultMap D)) (header : List String) :
    ℕ → List String → Prop
  | _, [] => True
  | colId, fName :: rest =>
      if textField vResults fName then InStepFrom ops vResults header colId rest
      else ¬ LeastIsNan ops (colVals ops vResults fName) ∧
        (header[colId]? = some "_repeat_id" ↔ fName = "_repeat_id") ∧
        InStepFrom ops vResults header (colId + 1) rest

theorem inStepFrom_iff {colId : ℕ} {rest : List String} :
    InStepFrom ops vResults header colId rest ↔
      ∀ i fName, rest[i]? = some fName → textField vResults fName = false →
        ¬ LeastIsNan ops (colVals ops vResults fName) ∧
          (header[colId + (rest.take i).countP fun g => !textField vResults g]? =
            some "_repeat_id" ↔ fName = "_repeat_id") := by
  induction rest generalizing colId with
  | nil => simp [InStepFrom]
  | cons g rest ih =>
    rw [← Nat.and_forall_add_one, InStepFrom]
    simp only [List.getElem?_cons_succ, List.take_succ_cons, List.countP_cons,
      List.getElem?_cons_zero, List.take_zero, List.countP_nil, Nat.add_zero, Option.some.injEq,
      forall_eq']
    cases hg : textField vResults g with
    | true =>
      rw [if_pos rfl, ih]
      simp
    | false =>
      rw [if_neg Bool.false_ne_true, ih, forall_prop_of_true rfl, and_assoc]
      simp only [Bool.not_false, if_true, Nat.add_right_comm colId 1, ← Nat.add_assoc]

/-- **The loop over the columns** delivers a cell for each of them. -/
theorem outCells_ok {name : String} {f : List D → Except Abort D}
    (hf : ∀ v : List D, v ≠ [] → ∃ y, f v = .ok y) {fields : List String} {colId : ℕ}
    {vs : List (List D)} (hvs : ∀ v ∈ vs, v ≠ []) (hlen : colId + vs.length ≤ fields.length) :
    ∃ cells, outCells ops fields name f colId vs = .ok cells := by
  induction vs generalizing colId with
  | nil => exact ⟨[], rfl⟩
  | cons v vs ih =>
    rw [List.forall_mem_cons] at hvs
    rw [List.length_cons] at hlen
    have hne := sortVec_ne_nil hvs.1
    have hpos : 0 < (sortVec v).length := List.length_pos_of_ne_nil hne
    rw [outCells, vecAt_of_getElem? (List.getElem?_eq_getElem hpos), ok_bind]
    split
    · obtain ⟨cells, hcells⟩ : ∃ cells, outCells ops fields name f colId vs = .ok cells :=
        ih hvs.2 (by omega)
      rw [hcells]
      exact ⟨_, rfl⟩
    · obtain ⟨cells, hcells⟩ : ∃ cells, outCells ops fields name f (colId + 1) vs = .ok cells :=
        ih hvs.2 (by omega)
      have hcol : colId < fields.length := by omega
      rw [vecAt_of_getElem? (List.getElem?_eq_getElem hcol), ok_bind]
      split
      · rw [hcells]
        exact ⟨_, rfl⟩
      · obtain ⟨y, hy⟩ := hf (sortVec v) hne
        rw [hy, ok_bind, hcells]
        exact ⟨_, rfl⟩

/-- What the loop over the columns can do with a column: the least value decides whether the
counter moves, and the name under the counter what is written. -/
theorem outCells_cons {name : String} {f : List D → Except Abort D} {fields : List String}
    {colId : ℕ} {v : List D} {vs : List (List D)} {cells : List (CsvCell D)}
    (h : outCells ops fields name f colId (v :: vs) = .ok cells) :
    ∃ x, (sortVec v)[0]? = some x ∧
      ((x = ops.kMin ∧ ∃ cells', outCells ops fields name f colId vs = .ok cells' ∧
          cells = .nan :: cells') ∨
        (x ≠ ops.kMin ∧ ∃ g cell cells', fields[colId]? = some g ∧
          outCells ops fields name f (colId + 1) vs = .ok cells' ∧ cells = cell :: cells' ∧
          (g = "_repeat_id" ∧ cell = .name name ∨
            g ≠ "_repeat_id" ∧ ∃ y, f (sortVec v) = .ok y ∧ cell = .stat y))) := by
  rw [outCells] at h
  obtain ⟨x, hx, h⟩ := bind_eq_ok.mp h
  refine ⟨x, vecAt_eq_ok.mp hx, ?_⟩
  by_cases hnan : x = ops.kMin
  · rw [if_pos hnan] at h
    obtain ⟨cells', hcells, h⟩ := bind_eq_ok.mp h
    exact .inl ⟨hnan, cells', hcells, (Except.ok.inj h).symm⟩
  · rw [if_neg hnan] at h
    obtain ⟨g, hg, h⟩ := bind_eq_ok.mp h
    refine .inr ⟨hnan, g, ?_⟩
    by_cases hname : g = "_repeat_id"
    · rw [if_pos hname] at h
      obtain ⟨cells', hcells, h⟩ := bind_eq_ok.mp h
      exact ⟨_, cells', vecAt_eq_ok.mp hg, hcells, (Except.ok.inj h).symm, .inl ⟨hname, rfl⟩⟩
    · rw [if_neg hname] at h
      obtain ⟨y, hy, h⟩ := bind_eq_ok.mp h
      obtain ⟨cells', hcells, h⟩ := bind_eq_ok.mp h
      exact ⟨_, cells', vecAt_eq_ok.mp hg, hcells, (Except.ok.inj h).symm, .inr ⟨hname, y, hy, rfl⟩⟩

/-- **One summary row** is aligned exactly when the counter finds what it must. -/
theorem rowAligned_iff (hne : vResults ≠ []) {row : String × (List D → Except Abort D)}
    (hrow : row ∈ statistics ops) {colId : ℕ} {rest : List String} {cells : List (CsvCell D)}
    (h : outCells ops header row.1 row.2 colId (columns ops vResults rest) = .ok cells) :
    RowAligned ops vResults rest row cells ↔ InStepFrom ops vResults header colId rest := by
  induction rest generalizing colId cells with
  | nil =>
    rw [columns, List.map_nil, outCells, Except.ok.injEq] at h
    subst h
    exact ⟨fun _ => trivial, fun _ => .nil⟩
  | cons fName rest ih =>
    have hcons : ∀ {cell : CsvCell D} {cells' : List (CsvCell D)},
        RowAligned ops vResults (fName :: rest) row (cell :: cells') ↔
          expectedCell ops vResults row.1 row.2 fName = .ok cell ∧
            RowAligned ops vResults rest row cells' := List.forall₂_cons
    obtain ⟨y, hy⟩ := statistics_ok hrow (sortVec_ne_nil (colVals_ne_nil hne fName))
    obtain ⟨x, hx, hcase⟩ := outCells_cons h
    rw [sortVec_sortVec] at hx hcase
    have hleast : x = ops.kMin ↔ LeastIsNan ops (colVals ops vResults fName) := by
      unfold LeastIsNan
      rw [← head_sortVec_iff, hx, Option.some.injEq]
    rw [InStepFrom]
    by_cases htext : textField vResults fName = true
    · rcases hcase with ⟨-, cells', hcells, rfl⟩ | ⟨hnan, -⟩
      · rw [if_pos htext, hcons, ih hcells, expectedCell, if_pos htext]
        exact and_iff_right rfl
      · exact absurd (hleast.mpr (leastIsNan_of_textField hne htext)) hnan
    · have hexpected : expectedCell ops vResults row.1 row.2 fName =
          .ok (if fName = "_repeat_id" then .name row.1 else .stat y) := by
        rw [expectedCell, if_neg htext, hy]
        split <;> rfl
      rw [if_neg htext]
      rcases hcase with ⟨hnan, cells', -, rfl⟩ | ⟨hnan, g, cell, cells', hg, hcells, rfl, hcell⟩
      · -- a numeric column that is taken for text
        refine ⟨fun hr => absurd (hcons.mp hr).1 ?_, fun hs => absurd (hleast.mp hnan) hs.1⟩
        rw [hexpected]
        split <;> simp
      · -- the name the counter finds decides between the two kinds of cells
        rw [and_iff_right (mt hleast.mpr hnan), hg, Option.some.injEq, hcons, ih hcells, hexpected]
        refine and_congr_left' ?_
        rcases hcell with ⟨hname, rfl⟩ | ⟨hname, y', hy', rfl⟩
        · by_cases hf : fName = "_repeat_id" <;> simp [hname, hf]
        · obtain rfl := Except.ok.inj (hy.symm.trans hy')
          by_cases hf : fName = "_repeat_id" <;> simp [hname, hf]

/-! ## The whole table -/

omit [LinearOrder D] in
theorem csvFields_eq {fields : List String} (hne : vResults ≠ []) :
    csvFields vResults fields =
      .ok (csvHeader vResults fields, (csvHeader vResults fields).toFinset) := by
  unfold csvFields csvHeader
  split
  · cases vResults with
    | nil => exact absurd rfl hne
    | cons mp vResults => rfl
  · rfl

omit [LinearOrder D] in
/-- The row of a result whose keys are the fields, and whose values can be written. -/
theorem csvResultRow_ok {mp : ResultMap D} (hmp : mp ∈ vResults)
    (hkeys : getKeysAsSet mp = header.toFinset)
    (hvals : ∀ fName ∈ header, textField vResults fName = true ∨ numField vResults fName = true) :
    ∃ row, csvResultRow ops header.toFinset header mp = .ok row := by
  unfold csvResultRow
  rw [check_pos hkeys, ok_bind]
  have hrow : ∀ fName ∈ header, ∃ s, (fieldValue mp fName).any2string ops = .ok s := by
    intro fName hfName
    have hval : (fieldValue mp fName).isText = true ∨ (fieldValue mp fName).isNum = true :=
      (hvals fName hfName).imp (fun h => List.all_eq_true.mp h mp hmp)
        fun h => List.all_eq_true.mp h mp hmp
    revert hval
    cases fieldValue mp fName <;> simp [AnyVal.isText, AnyVal.isNum, AnyVal.any2string]
  exact mapM_exists hrow

section Request

variable {fields : List String} (hne : vResults ≠ [])
  (hkeys : ∀ mp ∈ vResults, getKeysAsSet mp = (csvHeader vResults fields).toFinset)
  (hvals : ∀ fName ∈ csvHeader vResults fields,
    textField vResults fName = true ∨ numField vResults fName = true)
include hne

include hkeys hvals in
/-- A table is written. -/
theorem analyzeResToCsv_ok : ∃ csv, analyzeResToCsv ops vResults fields = .ok csv := by
  obtain ⟨rows, hrows⟩ : ∃ rows, vResults.mapM (csvResultRow ops
      (csvHeader vResults fields).toFinset (csvHeader vResults fields)) = .ok rows :=
    mapM_exists fun mp hmp => csvResultRow_ok hmp (hkeys mp hmp) hvals
  have hcols : ∀ v ∈ columns ops vResults (csvHeader vResults fields), v ≠ [] := by
    intro v hv
    obtain ⟨fName, -, rfl⟩ := List.mem_map.mp hv
    exact sortVec_ne_nil (colVals_ne_nil hne fName)
  obtain ⟨summary, hsummary⟩ : ∃ summary, (statistics ops).mapM (fun row => outCells ops
      (csvHeader vResults fields) row.1 row.2 0 (columns ops vResults (csvHeader vResults fields))) =
        .ok summary :=
    mapM_exists fun row hrow => outCells_ok (fun _ hv => statistics_ok hrow hv) hcols
      (by simp [columns])
  refine ⟨{ header := csvHeader vResults fields, rows, summary }, ?_⟩
  unfold analyzeResToCsv
  rw [csvFields_eq hne, ok_bind]
  dsimp only
  rw [hrows, ok_bind, if_neg hne]
  exact bind_eq_ok.mpr ⟨summary, hsummary, rfl⟩

/-- What is known of a table that has been written. -/
theorem of_analyzeResToCsv {csv : Csv D} (h : analyzeResToCsv ops vResults fields = .ok csv) :
    csv.header = csvHeader vResults fields ∧
      List.Forall₂ (fun row cells => outCells ops csv.header row.1 row.2 0
        (columns ops vResults csv.header) = .ok cells) (statistics ops) csv.summary := by
  unfold analyzeResToCsv at h
  rw [csvFields_eq hne, ok_bind] at h
  dsimp only at h
  obtain ⟨rows, -, h⟩ := bind_eq_ok.mp h
  rw [if_neg hne] at h
  obtain ⟨summary, hsummary, h⟩ := bind_eq_ok.mp h
  obtain rfl := Except.ok.inj h
  exact ⟨rfl, forall₂_of_mapM hsummary⟩

/-- The rows of a table are aligned when the counter is in step, and one row tells. -/
theorem aligned_iff {csv : Csv D} (h : analyzeResToCsv ops vResults fields = .ok csv) :
    csv.Aligned ops vResults ↔ InStep ops vResults (csvHeader vResults fields) := by
  obtain ⟨hheader, hall⟩ := of_analyzeResToCsv hne h
  have hrow : ∀ row ∈ statistics ops, ∀ cells, outCells ops csv.header row.1 row.2 0
      (columns ops vResults csv.header) = .ok cells →
      (RowAligned ops vResults csv.header row cells ↔ InStep ops vResults csv.header) := by
    intro row hrow cells hcells
    rw [rowAligned_iff hne hrow hcells, inStepFrom_iff]
    simp only [InStep, Nat.zero_add]
  rw [← hheader]
  constructor
  · intro haligned
    unfold Csv.Aligned at haligned
    obtain ⟨row, hmem⟩ := List.exists_mem_of_ne_nil (statistics ops) (List.cons_ne_nil _ _)
    obtain ⟨i, hi, rfl⟩ := List.getElem_of_mem hmem
    have hi' : i < csv.summary.length := by rwa [← haligned.length_eq]
    exact (hrow _ hmem _ (hall.get hi hi')).mp (haligned.get hi hi')
  · intro hin
    have hmem := (List.forall₂_and_left (statistics ops) csv.summary).mpr ⟨fun _ h => h, hall⟩
    exact hmem.imp fun row cells hcells => (hrow row hcells.1 cells hcells.2).mpr hin

include hkeys hvals in
/-- **When the summary is aligned.**  For every list of results with the same keys
and every order of the fields, a table is written, and its summary rows are
aligned with its header exactly when the counter is in step. -/
theorem analyzeResToCsv_aligned (ops : DoubleOps D) :
    ∃ csv, analyzeResToCsv ops vResults fields = .ok csv ∧ csv.header = csvHeader vResults fields ∧
      (csv.Aligned ops vResults ↔ InStep ops vResults (csvHeader vResults fields)) := by
  obtain ⟨csv, hcsv⟩ : ∃ csv, analyzeResToCsv ops vResults fields = .ok csv :=
    analyzeResToCsv_ok hne hkeys hvals
  exact ⟨csv, hcsv, (of_analyzeResToCsv hne hcsv).1, aligned_iff hne hcsv⟩

end Request

theorem inStep_iff :
    InStep ops vResults header ↔ InStepFrom ops vResults header 0 header := by
  rw [inStepFrom_iff]
  simp only [InStep, Nat.zero_add]

end Aligned

/-- Numbers without rounding. -/
def ratOps : DoubleOps ℚ where
  ofInt x := x
  add := (· + ·)
  sub := (· - ·)
  div := (· / ·)
  kMin := 1 / 2 ^ 1022
  toStr x := toString x

theorem not_leastIsNan_ratOps {col : List ℚ} (h : ∀ x ∈ col, ∃ n : ℤ, x = n) :
    ¬ LeastIsNan ratOps col := by
  rintro ⟨hmem, -⟩
  obtain ⟨n, hn⟩ := h _ hmem
  have hpow : (1 : ℚ) < 2 ^ 1022 := one_lt_pow₀ one_lt_two (Nat.succ_ne_zero 1021)
  have hlt : (n : ℚ) < 1 := by
    rw [← hn]
    exact (div_lt_one (zero_lt_one.trans hpow)).mpr hpow
  have hpos : (0 : ℚ) < n := by
    rw [← hn]
    exact div_pos one_pos (zero_lt_one.trans hpow)
  have h0 : 0 < n := by exact_mod_cast hpos
  have h1 : n < 1 := by exact_mod_cast hlt
  omega

/-- One run, with a text among its results. -/
def oneResult : List (ResultMap ℚ) := [[("_repeat_id", .int 0), ("name", .string "a"), ("x", .int 7)]]

/-- With the text behind the repeat id the table is aligned. -/
theorem analyzeResToCsv_aligned_oneResult :
    ∃ csv, analyzeResToCsv ratOps oneResult ["_repeat_id", "name", "x"] = .ok csv ∧
      csv.Aligned ratOps oneResult := by
  obtain ⟨csv, hcsv, -, hiff⟩ := @analyzeResToCsv_aligned ℚ _ oneResult ["_repeat_id", "name", "x"]
    (by decide) (by decide) (by decide) ratOps
  refine ⟨csv, hcsv, hiff.mpr (inStep_iff.mpr ?_)⟩
  have hint : ∀ n : ℤ, ¬ LeastIsNan ratOps [(n : ℚ)] := fun n =>
    not_leastIsNan_ratOps fun x hx => ⟨n, List.mem_singleton.mp hx⟩
  have h0 : ¬ LeastIsNan ratOps (colVals ratOps oneResult "_repeat_id") := hint 0
  have h1 : ¬ LeastIsNan ratOps (colVals ratOps oneResult "x") := hint 7
  have htext : textField oneResult "_repeat_id" = false ∧ textField oneResult "name" = true ∧
      textField oneResult "x" = false := by decide
  simp [csvHeader, InStepFrom, htext, h0, h1]

/-- With the text in front of the repeat id the table is not aligned. -/
theorem analyzeResToCsv_misaligned :
    ¬ ∀ (vResults : List (ResultMap ℚ)) (fields : List String), vResults ≠ [] →
      (∀ mp ∈ vResults, getKeysAsSet mp = (csvHeader vResults fields).toFinset) →
      (∀ fName ∈ csvHeader vResults fields,
        textField vResults fName = true ∨ numField vResults fName = true) →
      ∃ csv, analyzeResToCsv ratOps vResults fields = .ok csv ∧ csv.Aligned ratOps vResults := by
  intro hall
  have hne : oneResult ≠ [] := List.cons_ne_nil _ _
  obtain ⟨csv, hcsv, haligned⟩ :=
    hall oneResult ["name", "_repeat_id", "x"] hne (by decide) (by decide)
  have hin := (aligned_iff hne hcsv).mp haligned
  -- the counter is still at the text when the repeat id is reached
  have hfound := (hin 1 "_repeat_id" rfl (by decide)).2.mpr rfl
  exact absurd hfound (by decide)

end GenTree

import GenTree.Library.Outcome
import Mathlib.Data.Int.Notation

/-!
# Aborts and small containers

The program stops in the middle of a run only through a failed `CHECK`, through
a throwing `std::vector::at`, or by undefined behaviour.  `Abort` has one
constructor for each such place, named after the function it sits in, so that
"this `CHECK` never fires" is a statement about one constructor.

An access that the C++ leaves unchecked (`operator[]`, dereferencing an end
iterator or a null pointer) is modelled as an abort as well.  A statement that
excludes every abort therefore also excludes the undefined behaviour.
-/

namespace GenTree

open Outcome

/-- The places where a run can die. -/
inductive Abort
  /-- `std::vector::at`, or an unchecked index, out of range. -/
  | outOfRange
  /-- A null pointer is dereferenced. -/
  | nullPointer
  /-- A loop of the model has used up its fuel. -/
  | outOfFuel
  /-- `Rand.get` on an empty container returns `end()`, which is dereferenced. -/
  | randEmpty
  /-- `Config::set`: `CHECK(-1 <= value && value < n_values)`. -/
  | configValue
  /-- `Config::Config` / `set_all`: `CHECK_EQ(values.size(), n_vars)`. -/
  | configSize
  /-- `Domain::gen_one_convering_configs`: the pool of an option has a negative
  length. -/
  | poolLength
  /-- `Config::set_id`: `CHECK_EQ(id_, -1)`. -/
  | configIdSet
  /-- `Location::set_id`: `CHECK_EQ(id_, -1)`. -/
  | locIdSet
  /-- `CoverageStore::register_loc`: `CHECK_EQ(map_loc, nullptr)`. -/
  | locRegistered
  /-- `CoverageStore::link`: `CHECK(conf_id != -1 && loc_id != -1)`. -/
  | linkNoId
  /-- `Config::add_cov_loc_id`: `CHECK(empty() || back() < loc_id)`. -/
  | configCovOrder
  /-- `Location::add_cov_by_conf_id`: `CHECK(empty() || back() < conf_id)`. -/
  | locCovOrder
  /-- `CTree::prepare_data`: `CHECK_NE(loc->id(), -1)`. -/
  | prepareNoId
  /-- `CTree::prepare_data` / `deserialize`: `CHECK(root_ == nullptr)`. -/
  | treeHasRoot
  /-- `CTree`: `CHECK_NE(root_, nullptr)`. -/
  | treeNoRoot
  /-- `CNode::create_childs`: `CHECK(0 <= splitvar && splitvar < n_vars)`. -/
  | splitvarRange
  /-- `CNode::create_childs`: `CHECK(curpos[nvalues - 1] == c.end())`. -/
  | bucketEnd
  /-- `CNode::evaluate_split`: `CHECK(n_hits() == 0 || n_misses() == 0)`. -/
  | mixedLeaf
  /-- `CNode`: `CHECK_NE(splitvar, -1)` at an inner node. -/
  | noSplitvar
  /-- `CNode::gen_tpl`: `CHECK_EQ(splitvar, -1)` at a leaf. -/
  | leafSplitvar
  /-- `CNode::build_zexpr_mixed`: the children do not fit the variable. -/
  | exprChilds
  /-- `CNode::build_zexpr_mixed`: `CHECK(!empty_res)`. -/
  | exprEmpty
  /-- `CNode::build_interpreter`: `CHECK_EQ(childs.size(), n_values)`. -/
  | codeChilds
  /-- `CTree::interpret`: `CHECK(0 <= it && it < sz(interpreter_))`. -/
  | codeRange
  /-- `CNode::deserialize`: `CHECK(0 <= splitvar && splitvar < n_vars)`. -/
  | textSplitvar
  /-- `CNode::deserialize`: `CHECK(c == 'H' || c == 'M')`. -/
  | textLetter
  /-- `CNode::deserialize`: `CHECK(0)`, nothing left to read. -/
  | textEnd
  /-- `CNode::test_add_config`: the `CHECK_EQ` on `min_cases_in_one_leaf_`. -/
  | leafCases
  /-- `CNode::gather_small_leaves`: `CHECK(curtpl->get(splitvar) == -1)`. -/
  | splitvarFixed
  /-- `CNode::gen_one_convering_configs`: the leaf has hits and misses. -/
  | genMixed
  /-- `CNode::gen_one_convering_configs`: `CHECK(insert_res)`. -/
  | genInsert
  /-- `VarDomain::val_id_of`: the model has no value for the variable. -/
  | modelValue
  /-- `ProgramRunnerMt`: `CHECK_GE(n_threads_, 1)`. -/
  | runnerThreads
  /-- `ProgramRunnerMt::run`: `CHECK(allow_execute)`, the cache has no record. -/
  | notCached
  /-- `run_analyze_1`: `CHECK_GT(n_iter, 0)`. -/
  | iterRange
  /-- `run_analyze_1`: `CHECK_GT(n_batch, 0)`. -/
  | batchRange
  /-- `run_analyze_1`: `CHECK_EQ(n_iter, generated_full_configs.size())`. -/
  | fullSize
  /-- `run_analyze_1`: `CHECK_EQ(batch_confs.size(), batch_locs.size())`. -/
  | batchLocs
  /-- `run_analyze_2`: `CHECK(e.is_app())`. -/
  | exprApp
  /-- `is_pure`: `CHECK_EQ(e.decl().decl_kind(), outer)`. -/
  | pureKind
  /-- `is_pure` and `is_igen_compat`: `CHECK_GT(n_args, 0)`. -/
  | pureArgs
  /-- `is_pure`: `CHECK_EQ(x.num_args(), 2)`. -/
  | pureEqArgs
  /-- `vec_median`: the vector is empty. -/
  | medianEmpty
  /-- The sum of two `int`s is none. -/
  | intOverflow
  /-- `run_analyze_cmin`: `CHECK_GT(R, L)`. -/
  | cminWindow
  /-- `run_analyze_cmin`: `CHECK_NE(c, nullptr)`. -/
  | cminModel
  /-- `run_analyze_cmin`: `CHECK(set_hash.insert(c->hash()).second)`. -/
  | cminHash
  /-- `run_analyze_cmin`: `CHECK(ok)`, a location without a configuration. -/
  | cminLoc
  /-- `Domain::parse_string`: Z3 throws an exception. -/
  | parseText
  /-- `Domain::parse_string`: `CHECK_EQ(evec.size(), 1)`. -/
  | parseSize
  /-- `read_file`: `CHECKF(!locs.empty(), "Empty location set ({})")`. -/
  | emptyLocs
  /-- `read_file`: `CHECKF(!sexpr.empty(), "Empty sexpr location set ({})")`. -/
  | emptySexpr
  /-- `read_file`: `CHECK(0)`, or `CHECK_LE(read_state, 2)`. -/
  | readState
  /-- `read_file`: `CHECKF(stree.empty(), "Invalid tree data ({})")`. -/
  | treeData
  /-- `read_file`: `CHECKF(sexprid.insert(e.hash()).second, "Duplicated expression ({}), loc {}")`. -/
  | duplicatedExpression
  /-- `read_file`: `CHECKF(count_models(e != tree_e, 1) == 0, "Mismatch tree and expr: {}")`. -/
  | mismatch
  /-- `read_file`: `CHECKF(!res.contains(s), "Duplicated location ({}): {}")`. -/
  | duplicatedLocation
  /-- `GCovRunner::_collect_cov_cpp`, `_py`: `CHECK_EQ(n_locs_, cur_n_locs)`. -/
  | curNLocs
  /-- `ProgramRunnerMt::n_locs`: `CHECK(n == -1 || (ret == -1 || ret == n))`. -/
  | nLocs
  /-- `any2string`: `CHECK(0)`. -/
  | anyType
  /-- `analyze_res_to_csv`: `CHECK_EQ(get_keys_as_set(mp), set_fields)`. -/
  | resultKeys
  /-- `OtterRunner::_parse`: `CHECKF(!in.fail(), …)`, or
  `CHECK(n_vars > 0 && n_locs > 0)`. -/
  | otterCounts
  /-- `OtterRunner::_parse`: `CHECK_EQ(sz(loc_names_), n_locs)`. -/
  | otterNames
  /-- `OtterRunner::_parse`: `CHECK(is_all(str_sep, '#'))`. -/
  | otterSeparator
  /-- `OtterRunner::_parse`: `CHECKF(bs.any(), "Empty location set ({})")`. -/
  | otterNoLocs
  /-- `OtterRunner::_parse`: `CHECKF(!sexpr.empty(), "Empty sexpr ({})")`. -/
  | otterNoSexpr
  /-- `OtterRunner::_parse`: `CHECK(0)`, `CHECK_LE(read_state, 2)` or
  `CHECK_EQ(read_state, 2)`. -/
  | otterState
  /-- `OtterRunner::_parse`: `CHECK(!samples.empty())`. -/
  | otterNoSamples
  /-- `OtterRunner::_parse`: `CHECK(0 <= loc && loc < n_locs)`. -/
  | otterLoc
  /-- `OtterRunner::_parse`: `CHECK(-1 <= val)`. -/
  | otterValue
  /-- `OtterRunner::_parse`: `CHECK_EQ(sz(dat), n_vars)`. -/
  | otterSample
  /-- `OtterRunner::run`: `CHECK_EQ(n_vars(), n_vars)`. -/
  | otterVars
  /-- `IterativeAlgorithm::run_configs`: `CHECK(insert_new)`. -/
  | ranTwice
  deriving DecidableEq, Repr

/-- `kMAX<int>`. -/
def intMax : ℤ := 2147483647

/-- The conversion `(int) x` of a whole number that is held in a `double`.  For a number that
is not an `int` the language leaves the result open; on x86-64 it is the least `int`. -/
def intOfDouble (x : ℕ) : ℤ := if (x : ℤ) ≤ intMax then x else -intMax - 1

/-- `std::vector::at`. -/
def vecAt {α : Type*} (l : List α) (i : ℕ) : Except Abort α :=
  match l[i]? with
  | some a => .ok a
  | none => .error .outOfRange

/-- `size_t(i)` as an index: a negative `int` becomes an index past every
vector. -/
def sizeT (i : ℤ) : Except Abort ℕ :=
  if 0 ≤ i then .ok i.toNat else .error .outOfRange

/-- `std::vector::resize`. -/
def vecResize (l : List ℤ) (n : ℕ) : List ℤ := l.take n ++ List.replicate (n - l.length) 0

@[simp] theorem vecAt_eq_ok {α : Type*} {l : List α} {i : ℕ} {a : α} :
    vecAt l i = .ok a ↔ l[i]? = some a := by
  unfold vecAt
  split <;> simp_all

theorem vecAt_of_getElem? {α : Type*} {l : List α} {i : ℕ} {a : α} (h : l[i]? = some a) :
    vecAt l i = .ok a := vecAt_eq_ok.mpr h

@[simp] theorem sizeT_natCast (n : ℕ) : sizeT n = .ok n := by
  simp [sizeT]

theorem List.set_of_getElem? {α : Type*} {l : List α} {i : ℕ} {a : α} (h : l[i]? = some a) :
    l.set i a = l := by
  obtain ⟨hlt, rfl⟩ := List.getElem?_eq_some_iff.mp h
  exact List.set_getElem_self hlt

/-- A list with one more element at its end. -/
theorem getElem?_concat_eq_some {α : Type*} {l : List α} {a b : α} {i : ℕ} :
    (l ++ [a])[i]? = some b ↔ l[i]? = some b ∨ i = l.length ∧ b = a := by
  rcases Nat.lt_or_ge i l.length with hlt | hge
  · rw [List.getElem?_append_left hlt, or_iff_left]
    rintro ⟨rfl, -⟩
    exact Nat.lt_irrefl _ hlt
  · rw [List.getElem?_append_right hge, List.getElem?_eq_none hge, List.getElem?_singleton]
    have hiff : i - l.length = 0 ↔ i = l.length := by omega
    simp [hiff, eq_comm]

/-! ### Pairs indexed by a truth value -/

/-- `std::array<T, 2>` indexed by a truth value: entry `0` is for misses and
entry `1` for hits. -/
structure Arr2 (α : Type*) where
  miss : α
  hit : α
  deriving DecidableEq, Repr

namespace Arr2

variable {α : Type*}

/-- `a[b]`. -/
def get (a : Arr2 α) : Bool → α
  | false => a.miss
  | true => a.hit

/-- `a[b] = x`. -/
def set (a : Arr2 α) : Bool → α → Arr2 α
  | false, x => { a with miss := x }
  | true, x => { a with hit := x }

@[simp] theorem get_false (a : Arr2 α) : a.get false = a.miss := rfl

@[simp] theorem get_true (a : Arr2 α) : a.get true = a.hit := rfl

@[simp] theorem set_get_self (a : Arr2 α) (b : Bool) (x : α) : (a.set b x).get b = x := by
  cases b <;> rfl

@[simp] theorem set_get_not (a : Arr2 α) (b : Bool) (x : α) :
    (a.set b x).get (!b) = a.get (!b) := by
  cases b <;> rfl

end Arr2

end GenTree

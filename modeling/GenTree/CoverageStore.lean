import GenTree.Domain
import Mathlib.Data.List.Sort

/-!
# The coverage store

`CoverageStore` registers configurations and locations, gives both their ids,
and keeps two mirrored lists: the locations a configuration covers and the
configurations that cover a location.

A pointer to a registered location or configuration is its id here: both are
stored at the position that is their id, and `register_loc` assigns the id before
anything else sees the pointer.  The `const` views `clocs_` and `cconfigs_` hold
the same pointers as `locs_` and `configs_` and are not repeated.
-/

namespace GenTree

open Outcome

/-- `Location`: its name, its id (`none` is `-1`), and the ids of the
configurations that cover it. -/
structure Location (Name : Type) where
  name : Name
  id : Option ℕ := none
  covBy : List ℕ := []
  deriving DecidableEq

/-- `Location::set_id`. -/
def Location.setId {Name : Type} (loc : Location Name) (id : ℕ) :
    Except Abort (Location Name) := do
  check (loc.id = none) .locIdSet
  .ok { loc with id := some id }

/-- `Location::add_cov_by_conf_id`.  The streaming hash of the list is a function
of the list and is taken where it is read. -/
def Location.addCovByConfId {Name : Type} (loc : Location Name) (confId : ℕ) :
    Except Abort (Location Name) := do
  check (∀ l ∈ loc.covBy.getLast?, l < confId) .locCovOrder
  .ok { loc with covBy := loc.covBy ++ [confId] }

/-- `CoverageStore`. -/
structure CoverageStore (Name : Type) where
  locs : List (Location Name) := []
  configs : List Config := []
  mapNameLoc : List (Name × ℕ) := []
  deriving DecidableEq

namespace CoverageStore

variable {Name : Type} [DecidableEq Name]

/-- `n_locs`. -/
def nLocs (cov : CoverageStore Name) : ℕ := cov.locs.length

/-- `n_configs`. -/
def nConfigs (cov : CoverageStore Name) : ℕ := cov.configs.length

/-- `loc_mut(name)`: the registered location of this name. -/
def locMut (cov : CoverageStore Name) (name : Name) : Option ℕ := cov.mapNameLoc.lookup name

/-- `register_loc`. -/
def registerLoc (cov : CoverageStore Name) (loc : Location Name) :
    Except Abort (CoverageStore Name) := do
  let loc ← loc.setId cov.nLocs
  check (cov.mapNameLoc.lookup loc.name = none) .locRegistered
  .ok { cov with
    locs := cov.locs ++ [loc]
    mapNameLoc := cov.mapNameLoc ++ [(loc.name, cov.nLocs)] }

/-- `register_config`. -/
def registerConfig (cov : CoverageStore Name) (config : Config) :
    Except Abort (CoverageStore Name) := do
  let config ← config.setId cov.nConfigs
  .ok { cov with configs := cov.configs ++ [config] }

/-- `link`. -/
def link (cov : CoverageStore Name) (config loc : ℕ) :
    Except Abort (CoverageStore Name) := do
  let c ← vecAt cov.configs config
  let l ← vecAt cov.locs loc
  match c.id, l.id with
  | some confId, some locId => do
      let c ← c.addCovLocId locId
      let l ← l.addCovByConfId confId
      .ok { cov with configs := cov.configs.set config c, locs := cov.locs.set loc l }
  | _, _ => .error .linkNoId

/-- One pass of the loop over the names in `register_cov`: find or register the
location, and remember it. -/
def findLoc (st : CoverageStore Name × List ℕ × ℕ) (name : Name) :
    Except Abort (CoverageStore Name × List ℕ × ℕ) := do
  let (cov, plocs, nNew) := st
  match cov.locMut name with
  | some loc => .ok (cov, plocs ++ [loc], nNew)
  | none => do
      let cov' ← cov.registerLoc { name }
      .ok (cov', plocs ++ [cov.nLocs], nNew + 1)

/-- The first lines of `register_cov`: a configuration without an id is
registered.  Returns the pointer to the configuration in the store. -/
def ensureConfig (cov : CoverageStore Name) (config : Config) :
    Except Abort (CoverageStore Name × ℕ) :=
  match config.id with
  | none => do
      let cov' ← cov.registerConfig config
      .ok (cov', cov.nConfigs)
  | some cid => .ok (cov, cid)

/-- `register_cov`; the set of names is the list of its elements.  Returns the
number of new locations. -/
def registerCov (cov : CoverageStore Name) (config : Config) (locNames : List Name) :
    Except Abort (CoverageStore Name × ℕ) := do
  let (cov, cid) ← cov.ensureConfig config
  let (cov, plocs, nNew) ← locNames.foldlM findLoc (cov, [], 0)
  let cov ← (plocs.insertionSort (· ≤ ·)).foldlM (fun cov loc => cov.link cid loc) cov
  .ok (cov, nNew)

end CoverageStore

end GenTree

import GenTree.Library.Leaders
import GenTree.Records

/-!
# Grouping the records

`prepare_vec_loc_data` walks over the locations with a hash map and links the
record of every location whose hash has been seen before.  Its effect has a closed
form: the record of a location is linked exactly when the location is not the
leader of its hash (`prepareVecLocData_eq`), and it is linked to the leader.

When the hash tells different coverage lists apart, the groups are those of equal
coverage.
-/

namespace GenTree

open Outcome Leaders

section Grouping

variable {Name Hash : Type} [DecidableEq Name] [DecidableEq Hash] {env : Env Name Hash}

/-- The hashes of the locations. -/
def St.keys (env : Env Name Hash) (s : St Name Hash) : List Hash :=
  s.cov.locs.map fun l => env.locHash l.covBy

omit [DecidableEq Name] [DecidableEq Hash] in
theorem St.length_keys (s : St Name Hash) : (s.keys env).length = s.cov.nLocs := by
  simp [keys, CoverageStore.nLocs]

/-- The record of location `j` after `prepare_vec_loc_data`, from the records
`old` before it. -/
def prepared (keys : List Hash) (old : List LocData) (j : ℕ) : LocData :=
  let d := old[j]?.getD { loc := j }
  if leader keys j < j then d.linkTo (some (leader keys j))
  else if d.linked then d.unlink else d

/-- Location `j` leads its group, and its record is new or was linked. -/
def isNewLeader (keys : List Hash) (old : List LocData) (j : ℕ) : Bool :=
  leader keys j == j && (old[j]?.isNone || (old[j]?.getD { loc := j }).linked)

/-- What the loop of `prepare_vec_loc_data` has done after `n` locations. -/
structure PreparedTo (keys : List Hash) (old : List LocData) (n : ℕ) (p : St.Prep Hash) :
    Prop where
  vLocData : p.vLocData = (List.range n).map (prepared keys old) ++ old.drop n
  vNewLocdat : p.vNewLocdat = (List.range n).filter (isNewLeader keys old)
  lookup : ∀ k, p.mapHashLocs.lookup k =
    if k ∈ keys.take n then some (keys.idxOf k) else none
  vUniq : p.vUniq = (List.range n).filter fun j => leader keys j == j

theorem putDat_append {l : List LocData} {n : ℕ} (hl : l.length = n) (old : List LocData)
    (d : LocData) : St.putDat (l ++ old.drop n) n d = l ++ [d] ++ old.drop (n + 1) := by
  rw [St.putDat]
  rcases Nat.lt_or_ge n old.length with h | h
  · rw [if_pos (by simp; omega), List.set_append_right _ _ (by omega), hl, Nat.sub_self,
      List.drop_eq_getElem_cons h, List.set_cons_zero]
    simp
  · rw [List.drop_eq_nil_of_le h, List.drop_eq_nil_of_le (by omega), if_neg (by simp; omega)]
    simp

omit [DecidableEq Name] in
/-- One pass of the loop. -/
theorem PreparedTo.step {keys : List Hash} {old : List LocData} {n : ℕ} {p : St.Prep Hash}
    (h : PreparedTo keys old n p) {locHash : List ℕ → Hash} {loc : Location Name}
    (hid : loc.id = some n) (hkey : keys[n]? = some (locHash loc.covBy)) :
    Meets (St.prepareLoc locHash p loc) (PreparedTo keys old (n + 1)) fun _ => False := by
  have hlen : ((List.range n).map (prepared keys old)).length = n := by simp
  have hget : p.vLocData[n]? = old[n]? := by
    rw [h.vLocData, List.getElem?_append_right (by rw [hlen]), hlen, Nat.sub_self,
      List.getElem?_drop, Nat.add_zero]
  have hput : ∀ d, prepared keys old n = d → St.putDat p.vLocData n d =
      (List.range (n + 1)).map (prepared keys old) ++ old.drop (n + 1) := by
    rintro d rfl
    rw [h.vLocData, putDat_append hlen, List.range_succ, List.map_append, List.map_singleton]
  have htake : ∀ k, k ∈ keys.take (n + 1) ↔ k ∈ keys.take n ∨ k = locHash loc.covBy := by
    intro k
    rw [List.take_add_one, hkey, List.mem_append]
    simp
  have hleader : leader keys n = keys.idxOf (locHash loc.covBy) := leader_eq_idxOf hkey
  have hindex : loc.index = .ok n := by rw [Location.index, hid]
  rw [St.prepareLoc, hindex, ok_bind]
  simp only [hget, h.lookup]
  by_cases hseen : locHash loc.covBy ∈ keys.take n
  · have hlt : leader keys n < n := by
      rw [hleader]
      exact (mem_take_iff.mp hseen).2
    have hne : (leader keys n == n) = false := beq_eq_false_iff_ne.mpr (Nat.ne_of_lt hlt)
    simp only [if_pos hseen]
    refine ⟨hput _ (by rw [prepared, if_pos hlt, hleader]), ?_, fun k => ?_, ?_⟩
    · rw [h.vNewLocdat, List.range_succ, List.filter_append]
      simp [isNewLeader, hne]
    · rw [h.lookup]
      refine if_congr ?_ rfl rfl
      rw [htake, iff_self_or]
      rintro rfl
      exact hseen
    · rw [h.vUniq, List.range_succ, List.filter_append]
      simp [hne]
  · have heq : leader keys n = n := by
      refine Nat.le_antisymm (leader_le keys n) (Nat.not_lt.mp fun hlt => hseen ?_)
      rw [hleader] at hlt
      exact mem_take_iff.mpr ⟨List.mem_of_getElem? hkey, hlt⟩
    simp only [if_neg hseen]
    refine ⟨hput _ (by rw [prepared, if_neg (by omega)]), ?_, fun k => ?_, ?_⟩
    · rw [h.vNewLocdat, List.range_succ, List.filter_append, List.filter_singleton, isNewLeader,
        heq]
      simp only [beq_self_eq_true, Bool.true_and, Bool.cond_eq_ite]
      split <;> simp only [List.append_nil]
    · rw [List.lookup_append, h.lookup]
      by_cases hk : k = locHash loc.covBy
      · subst hk
        rw [if_neg hseen, if_pos ((htake _).mpr (.inr rfl)), ← hleader, heq]
        simp
      · have hbeq : (k == locHash loc.covBy) = false := beq_eq_false_iff_ne.mpr hk
        simp [List.lookup_cons, hbeq, htake, hk]
    · rw [h.vUniq, List.range_succ, List.filter_append]
      simp [heq]

/-- **`prepare_vec_loc_data`** in closed form. -/
theorem St.prepareVecLocData_eq {s : St Name Hash} (hv : ∃ hist, s.cov.Valid hist)
    (hlen : s.vLocData.length ≤ s.cov.nLocs) :
    s.prepareVecLocData env = .ok
      ({ s with
          vLocData := (List.range s.cov.nLocs).map (prepared (s.keys env) s.vLocData)
          vUniq := (List.range s.cov.nLocs).filter fun j => leader (s.keys env) j == j },
        (List.range s.cov.nLocs).filter (isNewLeader (s.keys env) s.vLocData)) := by
  obtain ⟨hist, hv⟩ := hv
  obtain ⟨p, hrun, hp⟩ := (meets_foldlM
    (fun done => PreparedTo (s.keys env) s.vLocData done.length) s.cov.locs
    (fun done loc rest p hsplit hp => by
      have hget : s.cov.locs[done.length]? = some loc := by rw [hsplit]; simp
      rw [List.length_append, List.length_singleton]
      exact hp.step (hv.locId _ _ hget) (by rw [St.keys, List.getElem?_map, hget]; rfl))
    (s := ({ vLocData := s.vLocData } : Prep Hash))
    ⟨by simp, by simp, by simp, by simp⟩).exists_ok
  have hdrop : s.vLocData.drop s.cov.locs.length = [] := List.drop_eq_nil_of_le hlen
  have hdat := hp.vLocData
  rw [hdrop, List.append_nil] at hdat
  rw [prepareVecLocData, hrun, ok_bind, hdat, hp.vUniq, hp.vNewLocdat, CoverageStore.nLocs]

end Grouping

end GenTree

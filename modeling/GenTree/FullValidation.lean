import Mathlib.Algebra.Order.BigOperators.GroupWithZero.List
import Mathlib.Algebra.Order.Ring.Nat
import GenTree.ConfigSpace
import GenTree.MinConfigs
import GenTree.ShortValues
import GenTree.Validation

/-!
# What the validation finds

`run_analyze_1` collects the configurations and the locations for which a tree of the file
and the program disagree, once for all groups and once without the ignored ones, and the
locations that are missing in the file.  A group is evaluated once for each configuration:
its value is kept for the locations that follow, and only the first of them counts as unique.

In every state of every run the collected sets are those of the configurations that have
been compared, neither more nor less (`Validation.reach_exact`).  With `--full` the run ends
whatever the batch size is, and has compared every configuration of the space once: an empty
result means that the file is right about the program (`fullValidation_exact`).

* **Findings are relations** (`Validation.Found`): a hash, a location, whether its group is
  ignored and whether it is the first of its group.  The six sets are projections of one such
  relation (`Wrong.Records`), so one configuration more is one lemma, not six.
* **The run under `--full`** is followed by an invariant on three lists, what has been compared,
  what is left of the batch and what is left of the space (`Validation.Covering.order`): their
  concatenation never changes.
* **The space is counted in an `int`.**  A space of 2^31 configurations or more is counted as
  a negative number, and the validation does not start (`Validation.AtFull.init_tooLarge`).
-/

namespace GenTree

open Outcome Machine

variable {Expr Name Hash : Type}

/-- A list of all configurations has a configuration with a property of values if there is
one. -/
theorem exists_complete_iff {dom : Domain} {cs : List Config}
    (hcs : cs.map Config.values = allValues dom.vars) (P : List ℤ → Prop) :
    (∃ c ∈ cs, P c.values) ↔ ∃ c : Config, c.Complete dom ∧ P c.values := by
  constructor
  · rintro ⟨c, hc, hP⟩
    refine ⟨c, complete_iff_mem_allValues.mpr ?_, hP⟩
    rw [← hcs]
    exact List.mem_map_of_mem hc
  · rintro ⟨c, hc, hP⟩
    have hc' := complete_iff_mem_allValues.mp hc
    rw [← hcs] at hc'
    obtain ⟨c', hc', hvalues⟩ := List.mem_map.mp hc'
    exact ⟨c', hc', by rwa [hvalues]⟩

/-! ## What is found -/

/-- What is inserted for a location that is wrong. -/
def Wrong.note [DecidableEq Name] [DecidableEq Hash] (w : Wrong Name Hash) (h : Hash) (name : Name) (ignored uniq : Bool) :
    Wrong Name Hash :=
  let w := { w with
    wrongConfigs := insert h w.wrongConfigs
    wrongLocs := insert name w.wrongLocs
    wrongLocsUniq := if uniq then insert name w.wrongLocsUniq else w.wrongLocsUniq }
  if ignored then w
  else { w with
    wrongConfigsNig := insert h w.wrongConfigsNig
    wrongLocsNig := insert name w.wrongLocsNig
    wrongLocsUniqNig := if uniq then insert name w.wrongLocsUniqNig else w.wrongLocsUniqNig }

/-- The sets **record** the findings `F`: a hash, a location, whether its group is ignored,
and whether the location was the first one of its group. -/
structure Wrong.Records (F : Hash → Name → Bool → Bool → Prop) (w : Wrong Name Hash) : Prop where
  wrongConfigs : ∀ h, h ∈ w.wrongConfigs ↔ ∃ name i u, F h name i u
  wrongLocs : ∀ name, name ∈ w.wrongLocs ↔ ∃ h i u, F h name i u
  wrongLocsUniq : ∀ name, name ∈ w.wrongLocsUniq ↔ ∃ h i, F h name i true
  wrongConfigsNig : ∀ h, h ∈ w.wrongConfigsNig ↔ ∃ name u, F h name false u
  wrongLocsNig : ∀ name, name ∈ w.wrongLocsNig ↔ ∃ h u, F h name false u
  wrongLocsUniqNig : ∀ name, name ∈ w.wrongLocsUniqNig ↔ ∃ h, F h name false true

namespace Wrong.Records

variable {F G : Hash → Name → Bool → Bool → Prop} {w w' : Wrong Name Hash}

theorem congr (h : Records F w) (heq : ∀ x name i u, F x name i u ↔ G x name i u) :
    Records G w := by
  have hFG : F = G := by
    funext x name i u
    exact propext (heq x name i u)
  rwa [← hFG]

/-- One finding more. -/
theorem note [DecidableEq Name] [DecidableEq Hash] (h : Records F w) (x : Hash) (name : Name)
    (ignored uniq : Bool) :
    Records (fun x' name' i u => F x' name' i u ∨ x' = x ∧ name' = name ∧ i = ignored ∧ u = uniq)
      (w.note x name ignored uniq) := by
  cases ignored <;> cases uniq <;> constructor <;> intro y <;>
    simp [Wrong.note, h.wrongConfigs, h.wrongLocs, h.wrongLocsUniq, h.wrongConfigsNig,
      h.wrongLocsNig, h.wrongLocsUniqNig, exists_or, or_comm]

/-- The set of missing locations is another matter. -/
theorem of_missing (h : Records F w) (missing : Finset Name) :
    Records F { w with missingLocs := missing } :=
  ⟨h.wrongConfigs, h.wrongLocs, h.wrongLocsUniq, h.wrongConfigsNig, h.wrongLocsNig,
    h.wrongLocsUniqNig⟩

theorem empty : Records (fun _ _ _ _ => False) ({} : Wrong Name Hash) := by
  constructor <;> simp

end Wrong.Records

namespace Validation

variable {v : Validation Expr Name Hash} {holds : Expr → (ℕ → ℕ) → Prop} {f : List ℤ → List Name}

/-- What the validation relies on: the program is deterministic, the trees agree with the
formulas, the numbers of the groups are within the file, and so are the values in a
`short`. -/
structure Sound (v : Validation Expr Name Hash) (holds : Expr → (ℕ → ℕ) → Prop)
    (f : List ℤ → List Name) : Prop where
  range : ∀ x ∈ v.dom.vars, x.nValues ≤ 32768
  program : ∀ k values, v.program k values = f values
  agrees : ∀ p ∈ v.ma, p.2.Agrees v.dom holds
  id_lt : ∀ p ∈ v.ma, p.2.id < v.ma.length
  shared : ∀ p ∈ v.ma, ∀ q ∈ v.ma, p.2.id = q.2.id → ∀ c : Config, c.Complete v.dom →
    (p.2.Sat holds c ↔ q.2.Sat holds c)

/-- The formula of a location and the program disagree about a configuration. -/
def Differs (holds : Expr → (ℕ → ℕ) → Prop) (f : List ℤ → List Name) (p : Name × LocEntry Expr)
    (c : Config) : Prop :=
  ¬(p.2.Sat holds c ↔ p.1 ∈ f c.values)

/-- A finding for a configuration among some entries. -/
def FoundAt (v : Validation Expr Name Hash) (holds : Expr → (ℕ → ℕ) → Prop)
    (f : List ℤ → List Name) (ma : List (Name × LocEntry Expr)) (c : Config) (h : Hash)
    (name : Name) (ignored uniq : Bool) : Prop :=
  ∃ pre p post, ma = pre ++ p :: post ∧ Differs holds f p c ∧ h = v.confHash c.values ∧
    name = p.1 ∧ ignored = p.2.ignored ∧ (uniq = true ↔ ∀ q ∈ pre, q.2.id ≠ p.2.id)

/-- **The findings** for some configurations. -/
def Found (v : Validation Expr Name Hash) (holds : Expr → (ℕ → ℕ) → Prop)
    (f : List ℤ → List Name) (cs : List Config) (h : Hash) (name : Name) (ignored uniq : Bool) :
    Prop :=
  ∃ c ∈ cs, v.FoundAt holds f v.ma c h name ignored uniq

/-- The result is **exact** for some configurations. -/
structure Exact (v : Validation Expr Name Hash) (holds : Expr → (ℕ → ℕ) → Prop)
    (f : List ℤ → List Name) (cs : List Config) (w : Wrong Name Hash) : Prop where
  records : w.Records (v.Found holds f cs)
  missingLocs : ∀ name, name ∈ w.missingLocs ↔
    name ∉ v.ma.map Prod.fst ∧ ∃ c ∈ cs, name ∈ f c.values

theorem foundAt_concat {ma : List (Name × LocEntry Expr)} {p : Name × LocEntry Expr} {c : Config}
    {h : Hash} {name : Name} {ignored uniq : Bool} :
    v.FoundAt holds f (ma ++ [p]) c h name ignored uniq ↔
      v.FoundAt holds f ma c h name ignored uniq ∨
        Differs holds f p c ∧ h = v.confHash c.values ∧ name = p.1 ∧ ignored = p.2.ignored ∧
          (uniq = true ↔ ∀ q ∈ ma, q.2.id ≠ p.2.id) := by
  constructor
  · rintro ⟨pre, q, post, hsplit, hrest⟩
    rcases List.eq_nil_or_concat post with rfl | ⟨post, q', rfl⟩
    · obtain ⟨rfl, hq⟩ := List.append_inj' hsplit rfl
      rw [List.cons.injEq] at hq
      rw [← hq.1] at hrest
      exact .inr hrest
    · rw [List.concat_eq_append, ← List.cons_append, ← List.append_assoc] at hsplit
      exact .inl ⟨pre, q, post, (List.append_inj' hsplit rfl).1, hrest⟩
  · rintro (⟨pre, q, post, rfl, hrest⟩ | hlast)
    · exact ⟨pre, q, post ++ [p], by simp, hrest⟩
    · exact ⟨ma, p, [], rfl, hlast⟩

/-! ## One configuration -/

variable [DecidableEq Name] [DecidableEq Hash]

/-- **One location**: the value of its group is looked up or computed, and kept. -/
theorem compareLoc_eq {c : Config} {e : List Name} {cache : List (Option Bool)}
    {w : Wrong Name Hash} {p : Name × LocEntry Expr} {cacheVal : Option Bool} {b : Bool}
    (hcache : cache[p.2.id]? = some cacheVal)
    (heval : cacheVal = none → (do
      let dat ← p.2.compile v.dom
      dat.tree.interpret v.dom c) = .ok b)
    (hkept : ∀ b', cacheVal = some b' → b' = b) :
    v.compareLoc c e (cache, w) p = .ok (cache.set p.2.id (some b),
      if b = decide (p.1 ∈ e) then w
      else w.note (v.confHash c.hashKey) p.1 p.2.ignored cacheVal.isNone) := by
  rw [compareLoc, vecAt_of_getElem? hcache, ok_bind]
  cases cacheVal with
  | none =>
      dsimp only
      rw [heval rfl, ok_bind]
      by_cases hsame : b = decide (p.1 ∈ e)
      · rw [if_neg (not_not.mpr hsame), if_pos hsame]
      · rw [if_pos hsame, if_neg hsame, Wrong.note]
        cases p.2.ignored <;> rfl
  | some b' =>
      obtain rfl := hkept b' rfl
      dsimp only
      rw [ok_bind]
      by_cases hsame : b' = decide (p.1 ∈ e)
      · rw [if_neg (not_not.mpr hsame), if_pos hsame]
      · rw [if_pos hsame, if_neg hsame, Wrong.note]
        cases p.2.ignored <;> rfl

/-- The values that are kept after some entries. -/
structure Kept (v : Validation Expr Name Hash) (holds : Expr → (ℕ → ℕ) → Prop) (c : Config)
    (done : List (Name × LocEntry Expr)) (cache : List (Option Bool)) : Prop where
  length : cache.length = v.ma.length
  unknown : ∀ i < v.ma.length, (∀ q ∈ done, q.2.id ≠ i) → cache[i]? = some none
  known : ∀ q ∈ done, ∃ b, cache[q.2.id]? = some (some b) ∧ (b = true ↔ q.2.Sat holds c)

/-- **A configuration is compared** with all entries: what is found is recorded. -/
theorem compareLocs_meets (hv : v.Sound holds f) {c : Config} (hc : c.Complete v.dom)
    (hkeyed : c.hashKey = c.values) {F : Hash → Name → Bool → Bool → Prop} {w : Wrong Name Hash}
    (hw : w.Records F) :
    Meets (v.ma.foldlM (v.compareLoc c (f c.values)) (List.replicate v.ma.length none, w))
      (fun r => r.2.Records (fun h name i u => F h name i u ∨ v.FoundAt holds f v.ma c h name i u) ∧
        r.2.missingLocs = w.missingLocs) fun _ => False := by
  refine Meets.imp (meets_foldlM (fun done (r : List (Option Bool) × Wrong Name Hash) =>
    v.Kept holds c done r.1 ∧
      r.2.Records (fun h name i u => F h name i u ∨ v.FoundAt holds f done c h name i u) ∧
      r.2.missingLocs = w.missingLocs) v.ma ?_ ⟨⟨List.length_replicate, ?_, by simp⟩, ?_, rfl⟩)
    fun r hr => hr.2
  · rintro done p rest ⟨cache, w'⟩ hsplit ⟨hkept, hrec, hmissing⟩
    have hp : p ∈ v.ma := by simp [hsplit]
    obtain ⟨d, hcompile, hre, hdecides⟩ := (hv.agrees p hp).compile
    obtain ⟨b, hrun, hb⟩ := hdecides c hc
    rw [hre.sat_iff] at hb
    have hlt : p.2.id < cache.length := by
      rw [hkept.length]
      exact hv.id_lt p hp
    -- what the cache says, and whether it is the first location of its group
    obtain ⟨cacheVal, hcache, hkeptVal, hnone⟩ : ∃ cacheVal, cache[p.2.id]? = some cacheVal ∧
        (∀ b', cacheVal = some b' → b' = b) ∧
        (cacheVal.isNone = true ↔ ∀ q ∈ done, q.2.id ≠ p.2.id) := by
      by_cases hfirst : ∀ q ∈ done, q.2.id ≠ p.2.id
      · exact ⟨none, hkept.unknown _ (hv.id_lt p hp) hfirst, by simp, by simpa using hfirst⟩
      · push Not at hfirst
        obtain ⟨q, hq, hid⟩ := hfirst
        obtain ⟨b', hget, hb'⟩ := hkept.known q hq
        have hqma : q ∈ v.ma := by simp [hsplit, hq]
        have hsat : q.2.Sat holds c ↔ p.2.Sat holds c := hv.shared q hqma p hp hid c hc
        refine ⟨some b', by rw [← hid]; exact hget, ?_, ?_⟩
        · rintro b'' ⟨⟩
          exact Bool.eq_iff_iff.mpr (hb'.trans (hsat.trans hb.symm))
        · simp only [Option.isNone_some, Bool.false_eq_true, false_iff]
          exact fun hall => hall q hq hid
    have heval : cacheVal = none → (do
        let dat ← p.2.compile v.dom
        dat.tree.interpret v.dom c) = .ok b := fun _ => by rw [hcompile, ok_bind, hrun]
    rw [compareLoc_eq hcache heval hkeptVal]
    have hdiffers : b = decide (p.1 ∈ f c.values) ↔ ¬ Differs holds f p c := by
      rw [Differs, not_not, ← hb, Bool.eq_iff_iff, decide_eq_true_iff]
    refine ⟨⟨?_, ?_, ?_⟩, ?_, ?_⟩
    · rw [List.length_set, hkept.length]
    · intro i hi hother
      have hne : p.2.id ≠ i := hother p (by simp)
      rw [List.getElem?_set_ne hne]
      exact hkept.unknown i hi fun q hq => hother q (by simp [hq])
    · intro q hq
      by_cases hid : p.2.id = q.2.id
      · have hqma : q ∈ v.ma := by
          rw [hsplit, List.append_cons]
          exact List.mem_append_left _ hq
        exact ⟨b, by rw [← hid, List.getElem?_set_self hlt],
          hb.trans (hv.shared p hp q hqma hid c hc)⟩
      · rw [List.getElem?_set_ne hid]
        rcases List.mem_append.mp hq with hq | hq
        · exact hkept.known q hq
        · rw [List.mem_singleton.mp hq] at hid
          exact absurd rfl hid
    · split
      next hsame =>
        refine hrec.congr fun h name i u => or_congr_right ?_
        rw [foundAt_concat, or_iff_left fun hlast => hdiffers.mp hsame hlast.1]
      next hother =>
        rw [hdiffers, not_not] at hother
        refine (hrec.note (v.confHash c.hashKey) p.1 p.2.ignored cacheVal.isNone).congr
          fun h name i u => ?_
        rw [foundAt_concat, ← or_assoc, hkeyed]
        refine or_congr_right ⟨fun hlast => ?_, fun hlast => ?_⟩
        · obtain ⟨hh, hname, hi, hu⟩ := hlast
          exact ⟨hother, hh, hname, hi, by rw [hu]; exact hnone⟩
        · obtain ⟨-, hh, hname, hi, hu⟩ := hlast
          exact ⟨hh, hname, hi, Bool.eq_iff_iff.mpr (hu.trans hnone.symm)⟩
    · split
      · exact hmissing
      · rw [← hmissing, Wrong.note]
        cases p.2.ignored <;> rfl
  · intro i hi _
    rw [List.getElem?_replicate_of_lt hi]
  · refine hw.congr fun h name i u => ?_
    simp [FoundAt]

/-! ## The runs -/

/-- What is known of the slots in every run, and of what has been found. -/
structure Sampled (v : Validation Expr Name Hash) (holds : Expr → (ℕ → ℕ) → Prop)
    (f : List ℤ → List Name) (s : Progress Name Hash) : Prop where
  confs : ∀ c ∈ s.batchConfs, c.Complete v.dom ∧ c.hashKey = c.values
  generated : ∀ c ∈ s.generated, c.Complete v.dom ∧ c.hashKey = c.values
  locs : s.filling = none → s.it < s.batchConfs.length →
    s.batchLocs = s.batchConfs.map fun c => f c.values
  compared : ∀ c ∈ s.compared, c.Complete v.dom
  exact : v.Exact holds f s.compared s.wrong

/-- **Comparing the next configuration** keeps the result exact. -/
theorem compare_eq (hv : v.Sound holds f) {s : Progress Name Hash} (h : v.Sampled holds f s)
    (hfill : s.filling = none) {c : Config} (hc : s.batchConfs[s.it]? = some c) :
    ∃ w, v.compare s = .ok { s with
        iter := s.iter + 1, it := s.it + 1, compared := s.compared ++ [c], wrong := w } ∧
      v.Exact holds f (s.compared ++ [c]) w := by
  obtain ⟨hcomplete, hkeyed⟩ := h.confs c (List.mem_of_getElem? hc)
  have he : s.batchLocs[s.it]? = some (f c.values) := by
    rw [h.locs hfill (List.getElem?_eq_some_iff.mp hc).1, List.getElem?_map, hc, Option.map_some]
  obtain ⟨⟨cache, w⟩, hrun, hrec, hmissing⟩ :=
    (compareLocs_meets hv hcomplete hkeyed h.exact.records).exists_ok
  refine ⟨{ w with missingLocs := w.missingLocs ∪
    ((f c.values).filter fun name => name ∉ v.ma.map Prod.fst).toFinset }, ?_, ?_, ?_⟩
  · rw [compare, vecAt_of_getElem? hc, ok_bind, vecAt_of_getElem? he, ok_bind, hrun, ok_bind]
  · refine (hrec.congr fun x name i u => ?_).of_missing _
    simp only [Found, List.mem_append, List.mem_singleton, or_and_right, exists_or, exists_eq_left]
  · intro name
    dsimp only at hmissing ⊢
    rw [hmissing, Finset.mem_union, h.exact.missingLocs, List.mem_toFinset, List.mem_filter,
      decide_eq_true_iff]
    constructor
    · rintro (⟨hno, c', hc', hname⟩ | ⟨hname, hno⟩)
      · exact ⟨hno, c', List.mem_append_left _ hc', hname⟩
      · exact ⟨hno, c, by simp, hname⟩
    · rintro ⟨hno, c', hc', hname⟩
      rcases List.mem_append.mp hc' with hc' | hc'
      · exact .inl ⟨hno, c', hc', hname⟩
      · rw [List.mem_singleton.mp hc'] at hname
        exact .inr ⟨hname, hno⟩

omit [DecidableEq Name] in
/-- Drawn configurations are complete. -/
theorem drawSlot_sampled (hv : v.Sound holds f) {s : Progress Name Hash}
    (h : v.Sampled holds f s) {i : ℕ} (hfill : s.filling = some i) :
    Meets (v.drawSlot i s) (v.Sampled holds f) fun _ => True := by
  rw [drawSlot]
  refine meets_bind_of_eq (fun _ _ => trivial) fun c hc => ?_
  have hmem := List.mem_of_getElem? (vecAt_eq_ok.mp hc)
  obtain ⟨g, hg, hrun⟩ := fillRand_eq v.dom v.draws (h.confs c hmem).1.1 s.rng
  rw [hrun, ok_bind]
  have hvalues : ((List.range v.dom.nVars).map fun var => toShort (g var)) =
      (List.range v.dom.nVars).map fun var => (g var : ℤ) := by
    refine List.map_congr_left fun var hvar => ?_
    have hvar' := List.mem_range.mp hvar
    refine toShort_of_range (by omega) ?_
    have hle : v.dom.nValues var ≤ 32768 := forall_nValues_le.mp hv.range var
    have hlt := (hg var hvar').1
    omega
  have hnew : (Config.rehash { c with
      values := (List.range v.dom.nVars).map fun var => toShort (g var) }).Complete v.dom := by
    rw [hvalues]
    exact mem_space.mp (range_map_mem_space fun var hvar => (hg var hvar).1)
  have hconfs : ∀ c' ∈ s.batchConfs.set i (Config.rehash
        { c with values := (List.range v.dom.nVars).map fun var => toShort (g var) }),
      c'.Complete v.dom ∧ c'.hashKey = c'.values := by
    intro c' hc'
    rcases List.mem_or_eq_of_mem_set hc' with hc' | rfl
    · exact h.confs c' hc'
    · exact ⟨hnew, rfl⟩
  dsimp only
  split
  · refine ⟨hconfs, h.generated, fun hnone => ?_, h.compared, h.exact⟩
    rw [show s.filling = none from hnone] at hfill
    cases hfill
  · exact ⟨hconfs, h.generated, fun hnone => (by cases hnone), h.compared, h.exact⟩

omit [DecidableEq Name] [DecidableEq Hash] in
/-- The program is run on the batch. -/
theorem runBatch_sampled (hv : v.Sound holds f) {s : Progress Name Hash}
    (h : v.Sampled holds f s) : ∃ s', s' = { s with
        batchLocs := s.batchConfs.map fun c => f c.values
        nBatches := s.nBatches + 1, it := 0, filling := none } ∧
      v.runBatch s = .ok s' ∧ v.Sampled holds f s' := by
  have hlocs : (s.batchConfs.map fun c => v.program s.nBatches c.values) =
      s.batchConfs.map fun c => f c.values := by
    simp only [hv.program]
  refine ⟨_, rfl, ?_, ⟨h.confs, h.generated, fun _ _ => rfl, h.compared, h.exact⟩⟩
  rw [runBatch, hlocs, check_pos (List.length_map _).symm, ok_bind]

omit [DecidableEq Name] in
/-- A batch of generated configurations. -/
theorem fillFull_sampled {s : Progress Name Hash} (h : v.Sampled holds f s)
    (hit : s.it = v.nBatch.toNat) : v.Sampled holds f (v.fillFull s) where
  confs c hc := by
    obtain ⟨c', hc', rfl⟩ := List.mem_map.mp hc
    obtain ⟨hcomplete, hkeyed⟩ := h.generated c' (List.mem_of_mem_take hc')
    exact ⟨hcomplete, hkeyed⟩
  generated c hc := h.generated c (List.mem_of_mem_drop hc)
  locs _ hlt := by
    have hle : (v.fillFull s).batchConfs.length ≤ v.nBatch.toNat := by
      rw [fillFull, List.length_map, List.length_take]
      exact Nat.min_le_left ..
    exact absurd (Nat.lt_of_lt_of_le hlt hle) (by rw [← hit]; exact Nat.lt_irrefl _)
  compared := h.compared
  exact := h.exact

/-- **One step**, of either mode. -/
theorem step_sampled (hv : v.Sound holds f) {s : Progress Name Hash} (h : v.Sampled holds f s) :
    Meets (v.step s) (v.Sampled holds f) fun _ => True := by
  unfold step
  cases hfill : s.filling with
  | some i =>
      dsimp only
      split
      · exact drawSlot_sampled hv h hfill
      · obtain ⟨s', -, hrun, hs'⟩ := runBatch_sampled hv h
        rw [hrun]
        exact hs'
  | none =>
      dsimp only
      split
      · split
        · next hit =>
          split
          · obtain ⟨s', -, hrun, hs'⟩ := runBatch_sampled hv (fillFull_sampled h (by omega))
            rw [hrun]
            exact hs'
          · exact ⟨h.confs, h.generated, fun hnone => (by cases hnone), h.compared, h.exact⟩
        · cases hc : s.batchConfs[s.it]? with
          | none =>
              rw [compare, vecAt, hc]
              trivial
          | some c =>
              obtain ⟨w, hrun, hexact⟩ := compare_eq hv h hfill hc
              have hlt := (List.getElem?_eq_some_iff.mp hc).1
              rw [hrun]
              refine ⟨h.confs, h.generated, fun _ _ => h.locs hfill hlt, ?_, hexact⟩
              exact List.forall_mem_append.mpr ⟨h.compared, fun c' hc' => by
                rw [List.mem_singleton.mp hc']
                exact (h.confs c (List.mem_of_getElem? hc)).1⟩
      · exact h

omit [DecidableEq Name] [DecidableEq Hash] in
/-- The beginning of both modes. -/
theorem init_sampled (hv : v.Sound holds f) {s : Progress Name Hash} (hinit : v.init = .ok s) :
    v.Sampled holds f s := by
  obtain ⟨-, -, hrest⟩ := bind_eq_ok.mp hinit
  obtain ⟨-, -, hrest⟩ := bind_eq_ok.mp hrest
  obtain ⟨generated, hgen, hret⟩ := bind_eq_ok.mp hrest
  rw [Except.ok.injEq] at hret
  subst hret
  refine ⟨fun c hc => ?_, fun c hc => ?_, fun _ hlt => ?_, by simp, ?_, ?_⟩
  · rw [List.eq_of_mem_replicate hc]
    refine ⟨⟨List.length_replicate, fun var x hx => ?_⟩, rfl⟩
    have hvar : var < v.dom.nVars := by simpa [Config.new] using (List.getElem?_eq_some_iff.mp hx).1
    obtain rfl : 0 = x := by simpa [Config.new, hvar] using hx
    exact ⟨le_rfl, by exact_mod_cast v.dom.nValues_pos hvar⟩
  · rw [generatedFullConfigs] at hgen
    split at hgen
    · rw [genAllConfigs_eq hv.range, ok_bind] at hgen
      obtain ⟨-, -, hret⟩ := bind_eq_ok.mp hgen
      rw [← Except.ok.inj hret] at hc
      obtain ⟨values, hvalues, rfl⟩ := List.mem_map.mp hc
      exact ⟨complete_iff_mem_allValues.mpr hvalues, rfl⟩
    · rw [← Except.ok.inj hgen] at hc
      cases hc
  · simp at hlt
  · refine Wrong.Records.empty.congr fun x name i u => ?_
    simp [Found]
  · intro name
    simp

/-- **Every run**: what has been found is exact for what has been compared. -/
theorem reach_exact (hv : v.Sound holds f) {s₀ s : Progress Name Hash} (hinit : v.init = .ok s₀)
    (hreach : Reach v.step (fun _ => True) s₀ s) : v.Exact holds f s.compared s.wrong :=
  (hreach.invariant (E := fun _ => True) (v.Sampled holds f) (fun _ hx _ => step_sampled hv hx)
    (init_sampled hv hinit)).exact

/-! ## All configurations -/

/-- The function has been called for all configurations in batches of `b`. -/
structure AtFull (v : Validation Expr Name Hash) (b : ℕ) : Prop where
  rand : v.rand = none
  full : v.full = true
  nBatch : v.nBatch = b
  b_pos : 0 < b

/-- **The invariant of `--full`.**  The configurations compared so far, those of the batch that
are not compared yet and those that are not in a batch yet are all configurations, in order;
only the last batch is short. -/
structure Covering (v : Validation Expr Name Hash) (holds : Expr → (ℕ → ℕ) → Prop)
    (f : List ℤ → List Name) (b : ℕ) (s : Progress Name Hash) : Prop
    extends v.Sampled holds f s where
  filling : s.filling = none
  order : (s.compared ++ s.batchConfs.drop s.it ++ s.generated).map Config.values =
    allValues v.dom.vars
  iter : s.compared.length = s.iter
  it_le : s.it ≤ s.batchConfs.length
  slots : s.batchConfs.length ≤ b
  last : s.batchConfs.length < b → s.generated = []
  nodup : s.allConfigs.Nodup
  mem_allConfigs : ∀ h, h ∈ s.allConfigs ↔
    ∃ c ∈ s.compared ++ s.batchConfs.drop s.it, h = v.confHash c.values

namespace AtFull

variable {b : ℕ} (ha : v.AtFull b)

omit [DecidableEq Name] [DecidableEq Hash]

include ha

theorem runFull : v.runFull = true := by
  rw [Validation.runFull, ha.rand, ha.full]
  rfl

/-- A space that is too large is counted as a negative number. -/
theorem init_tooLarge (hlarge : intMax < v.dom.configSpace) : v.init = .error .iterRange := by
  have hiter : v.nIter = -intMax - 1 := by
    rw [Validation.nIter, ha.rand]
    dsimp only
    rw [if_pos ha.full, intOfDouble, if_neg (by omega)]
  rw [Validation.init, check_neg (by rw [hiter]; decide)]
  rfl

variable (hspace : (v.dom.configSpace : ℤ) ≤ intMax)

include hspace

theorem nIter : v.nIter = (allValues v.dom.vars).length := by
  rw [Validation.nIter, ha.rand]
  dsimp only
  rw [if_pos ha.full, intOfDouble, if_pos hspace, length_allValues, Domain.configSpace]

theorem init_eq (hv : v.Sound holds f) : v.init = .ok {
    it := b, batchConfs := List.replicate b (Config.new v.dom)
    generated := (allValues v.dom.vars).map fun values => { values } } := by
  have hpos : 0 < (allValues v.dom.vars).length := by
    rw [length_allValues]
    refine List.prod_pos fun n hn => ?_
    obtain ⟨x, hx, rfl⟩ := List.mem_map.mp hn
    exact v.dom.labels_pos x hx
  have hb := ha.b_pos
  have hgen : v.generatedFullConfigs =
      .ok ((allValues v.dom.vars).map fun values => { values }) := by
    rw [generatedFullConfigs, if_pos ha.runFull, genAllConfigs_eq hv.range, ok_bind,
      check_pos (by rw [ha.nIter hspace, List.length_map]), ok_bind]
  rw [Validation.init, check_pos (by rw [ha.nIter hspace]; omega), ok_bind,
    check_pos (by rw [ha.nBatch]; omega), ok_bind, hgen, ok_bind, ha.nBatch, Int.toNat_natCast]

theorem init_covering (hv : v.Sound holds f) {s : Progress Name Hash} (hinit : v.init = .ok s) :
    v.Covering holds f b s := by
  refine ⟨init_sampled hv hinit, ?_, ?_, ?_, ?_, ?_, ?_, ?_, ?_⟩ <;>
    (rw [ha.init_eq hspace hv, Except.ok.injEq] at hinit; subst hinit)
  · rfl
  · simp [Function.comp_def]
  · rfl
  · simp
  · simp
  · simp
  · exact .nil
  · simp

end AtFull

namespace Covering

variable {b : ℕ} {s : Progress Name Hash}

omit [DecidableEq Name] [DecidableEq Hash] in
theorem iter_eq (h : v.Covering holds f b s) : s.iter + (s.batchConfs.drop s.it).length +
    s.generated.length = (allValues v.dom.vars).length := by
  have hlen := congrArg List.length h.order
  rw [List.length_map, List.length_append, List.length_append, h.iter] at hlen
  exact hlen

omit [DecidableEq Name] in
/-- **A new batch.** -/
theorem refill (hv : v.Sound holds f) (ha : v.AtFull b) (h : v.Covering holds f b s)
    (hit : s.it = b) : ∃ s', v.runBatch (v.fillFull s) = .ok s' ∧ v.Covering holds f b s' ∧
      s'.iter = s.iter ∧ s'.it = 0 := by
  have hb : v.nBatch.toNat = b := by rw [ha.nBatch, Int.toNat_natCast]
  obtain ⟨s', hs', hrun, hsampled⟩ :=
    runBatch_sampled hv (fillFull_sampled h.toSampled (hit.trans hb.symm))
  have hdone : s.batchConfs.drop s.it = [] :=
    List.drop_eq_nil_of_le (by rw [hit]; exact h.slots)
  have hvalues : ∀ l : List Config, (l.map Config.touchHash).map Config.values =
      l.map Config.values := fun l => by
    rw [List.map_map]
    rfl
  have horder := h.order
  rw [hdone, List.append_nil] at horder
  refine ⟨s', hrun, ⟨hsampled, ?_, ?_, ?_, ?_, ?_, ?_, ?_, ?_⟩, ?_, ?_⟩ <;> subst hs' <;>
    dsimp only [fillFull]
  · rw [hb, List.drop_zero, List.map_append, List.map_append, hvalues, List.append_assoc,
      ← List.map_append, List.take_append_drop, ← List.map_append]
    exact horder
  · exact h.iter
  · exact Nat.zero_le _
  · rw [hb, List.length_map, List.length_take]
    exact Nat.min_le_left ..
  · rw [hb, List.length_map, List.length_take]
    intro hlt
    exact List.drop_eq_nil_of_le (by omega)
  · refine List.nodup_append.mpr ⟨h.nodup, List.nodup_dedup _, fun x hx y hy heq => ?_⟩
    rw [List.mem_dedup, List.mem_filter, decide_eq_true_iff] at hy
    exact hy.2 (heq ▸ hx)
  · intro x
    rw [List.mem_append, List.mem_dedup, List.mem_filter, decide_eq_true_iff, h.mem_allConfigs,
      hdone, List.append_nil, List.drop_zero]
    have hnew : ∀ y : Hash, y ∈ ((s.generated.take v.nBatch.toNat).map Config.touchHash).map
        (fun c => v.confHash c.hashKey) ↔
        ∃ c ∈ (s.generated.take v.nBatch.toNat).map Config.touchHash, y = v.confHash c.values := by
      intro y
      simp only [List.mem_map, exists_exists_and_eq_and]
      refine exists_congr fun c => and_congr_right fun hc => ?_
      have hkeyed := (h.generated c (List.mem_of_mem_take hc)).2
      show v.confHash c.hashKey = y ↔ y = v.confHash c.values
      rw [hkeyed, eq_comm]
    rw [hnew]
    simp only [List.mem_append, or_and_right, exists_or]
    by_cases hold : ∃ c ∈ s.compared, x = v.confHash c.values
    · simp only [hold, true_or]
    · simp only [hold, false_or, not_false_eq_true, and_true]

/-- **One step of `--full`**, as long as there are configurations left. -/
theorem step (hv : v.Sound holds f) (ha : v.AtFull b)
    (hspace : (v.dom.configSpace : ℤ) ≤ intMax) (h : v.Covering holds f b s)
    (hleft : (s.iter : ℤ) < v.nIter) :
    ∃ s', v.step s = .ok s' ∧ v.Covering holds f b s' ∧
      2 * (allValues v.dom.vars).length - 2 * s'.iter + (if s'.it = b then 1 else 0) <
        2 * (allValues v.dom.vars).length - 2 * s.iter + (if s.it = b then 1 else 0) := by
  have hb := ha.b_pos
  have hleft' : s.iter < (allValues v.dom.vars).length := by
    rw [ha.nIter hspace] at hleft
    exact_mod_cast hleft
  have hstep : v.step s =
      if (s.it : ℤ) = v.nBatch then v.runBatch (v.fillFull s) else v.compare s := by
    unfold Validation.step
    rw [h.filling]
    dsimp only
    rw [if_pos hleft, if_pos ha.runFull]
  by_cases hit : s.it = b
  · obtain ⟨s', hrun, hs', hiter, hzero⟩ := h.refill hv ha hit
    refine ⟨s', by rw [hstep, if_pos (by rw [ha.nBatch, hit]), hrun], hs', ?_⟩
    rw [hiter, hzero, if_pos hit, if_neg (Nat.ne_of_lt hb)]
    exact Nat.lt_succ_self _
  · -- the batch is not used up: a short batch is the last one
    have hlt : s.it < s.batchConfs.length := by
      by_contra hge
      have heq := h.iter_eq
      have hslots := h.slots
      have hle := h.it_le
      rw [h.last (by omega), List.drop_eq_nil_of_le (by omega), List.length_nil] at heq
      omega
    have hc : s.batchConfs[s.it]? = some s.batchConfs[s.it] := List.getElem?_eq_getElem hlt
    have hdrop := List.drop_eq_getElem_cons hlt
    obtain ⟨w, hrun, hexact⟩ := compare_eq hv h.toSampled h.filling hc
    have hne : ¬ (s.it : ℤ) = v.nBatch := by
      rw [ha.nBatch]
      exact_mod_cast hit
    have hsampled := (step_sampled hv h.toSampled).of_eq_ok (by rw [hstep, if_neg hne, hrun])
    refine ⟨_, by rw [hstep, if_neg hne, hrun], ⟨hsampled, h.filling, ?_, ?_, hlt, h.slots,
      h.last, h.nodup, fun x => ?_⟩, ?_⟩
    · have horder := h.order
      rw [hdrop] at horder
      simpa using horder
    · rw [List.length_append, h.iter, List.length_singleton]
    · rw [h.mem_allConfigs, hdrop, List.append_assoc, List.singleton_append]
    · dsimp only
      rw [if_neg hit]
      split <;> omega

end Covering

/-- **The file is right** about the program: every location that a configuration covers is
there, and every formula is satisfied by exactly the configurations that cover its
location. -/
def Right (v : Validation Expr Name Hash) (holds : Expr → (ℕ → ℕ) → Prop)
    (f : List ℤ → List Name) : Prop :=
  ∀ c : Config, c.Complete v.dom →
    (∀ name ∈ f c.values, name ∈ v.ma.map Prod.fst) ∧
      ∀ p ∈ v.ma, p.2.Sat holds c ↔ p.1 ∈ f c.values

omit [DecidableEq Name] [DecidableEq Hash] in
/-- The first location of an entry's group is found whenever any of them is. -/
theorem exists_foundAt {c : Config} {p : Name × LocEntry Expr} (hp : p ∈ v.ma)
    (hdiffers : Differs holds f p c) :
    ∃ u, v.FoundAt holds f v.ma c (v.confHash c.values) p.1 p.2.ignored u := by
  obtain ⟨pre, post, hsplit⟩ := List.append_of_mem hp
  exact ⟨decide (∀ q ∈ pre, q.2.id ≠ p.2.id), pre, p, post, hsplit, hdiffers, rfl, rfl, rfl,
    decide_eq_true_iff⟩

namespace Exact

variable {cs : List Config} {w : Wrong Name Hash}

omit [DecidableEq Name] [DecidableEq Hash] in
/-- The wrong locations, once all configurations have been compared. -/
theorem mem_wrongLocs_iff (h : v.Exact holds f cs w)
    (hcs : cs.map Config.values = allValues v.dom.vars) {name : Name} :
    name ∈ w.wrongLocs ↔ ∃ p ∈ v.ma, p.1 = name ∧
      ∃ c : Config, c.Complete v.dom ∧ Differs holds f p c := by
  have hall : ∀ p : Name × LocEntry Expr, (∃ c ∈ cs, Differs holds f p c) ↔
      ∃ c : Config, c.Complete v.dom ∧ Differs holds f p c := fun p =>
    exists_complete_iff hcs fun values => ¬(holds p.2.e (Config.val { values }) ↔ p.1 ∈ f values)
  rw [h.records.wrongLocs]
  simp only [← hall]
  constructor
  · rintro ⟨x, i, u, c, hc, pre, p, post, hsplit, hdiffers, -, rfl, -⟩
    exact ⟨p, by simp [hsplit], rfl, c, hc, hdiffers⟩
  · rintro ⟨p, hp, rfl, c, hc, hdiffers⟩
    obtain ⟨u, hfound⟩ := exists_foundAt hp hdiffers
    exact ⟨_, _, u, c, hc, hfound⟩

omit [DecidableEq Name] [DecidableEq Hash] in
/-- The missing locations, once all configurations have been compared. -/
theorem mem_missingLocs_iff (h : v.Exact holds f cs w)
    (hcs : cs.map Config.values = allValues v.dom.vars) {name : Name} :
    name ∈ w.missingLocs ↔
      name ∉ v.ma.map Prod.fst ∧ ∃ c : Config, c.Complete v.dom ∧ name ∈ f c.values := by
  rw [h.missingLocs, exists_complete_iff hcs fun values => name ∈ f values]

omit [DecidableEq Hash] in
/-- Nothing has been found for all configurations exactly when the file is right. -/
theorem empty_iff (h : v.Exact holds f cs w) (hcs : cs.map Config.values = allValues v.dom.vars) :
    w.wrongLocs = ∅ ∧ w.missingLocs = ∅ ↔ v.Right holds f := by
  rw [Finset.eq_empty_iff_forall_notMem, Finset.eq_empty_iff_forall_notMem]
  simp only [h.mem_wrongLocs_iff hcs, h.mem_missingLocs_iff hcs]
  constructor
  · rintro ⟨hwrong, hmissing⟩ c hc
    refine ⟨fun name hname => ?_, fun p hp => ?_⟩
    · by_contra hno
      exact hmissing name ⟨hno, c, hc, hname⟩
    · by_contra hdiffers
      exact hwrong p.1 ⟨p, hp, rfl, c, hc, hdiffers⟩
  · intro hright
    refine ⟨?_, ?_⟩
    · rintro name ⟨p, hp, rfl, c, hc, hdiffers⟩
      exact hdiffers ((hright c hc).2 p hp)
    · rintro name ⟨hno, c, hc, hname⟩
      exact hno ((hright c hc).1 name hname)

end Exact

/-- **The run of `--full`** comes to its end, and has compared all configurations. -/
theorem AtFull.run {b : ℕ} (hv : v.Sound holds f) (ha : v.AtFull b)
    (hspace : (v.dom.configSpace : ℤ) ≤ intMax) :
    ∃ s₀ s, v.init = .ok s₀ ∧ Reach v.step (fun _ => True) s₀ s ∧ v.step s = .ok s ∧
      s.compared.map Config.values = allValues v.dom.vars ∧ v.Exact holds f s.compared s.wrong ∧
      s.allConfigs.Nodup ∧
      ∀ h, h ∈ s.allConfigs ↔ ∃ c : Config, c.Complete v.dom ∧ h = v.confHash c.values := by
  have hinit := ha.init_eq hspace hv
  obtain ⟨s, hreach, hs, hstop⟩ := @Reach.arrives _ _ v.step ℕ _
    (fun s => ¬ (s.iter : ℤ) < v.nIter) (v.Covering holds f b)
    (fun s => 2 * (allValues v.dom.vars).length - 2 * s.iter + (if s.it = b then 1 else 0))
    (fun x hx hleft => hx.step hv ha hspace (not_not.mp hleft)) _ (ha.init_covering hspace hv hinit)
  have heq := hs.iter_eq
  have hend := hstop
  rw [ha.nIter hspace] at hend
  have hdrop : s.batchConfs.drop s.it = [] := List.eq_nil_of_length_eq_zero (by omega)
  have hgen : s.generated = [] := List.eq_nil_of_length_eq_zero (by omega)
  have horder := hs.order
  have hmem := hs.mem_allConfigs
  rw [hdrop, List.append_nil] at hmem
  rw [hdrop, hgen, List.append_nil, List.append_nil] at horder
  refine ⟨_, s, hinit, hreach, ?_, horder, hs.exact, hs.nodup, fun x => ?_⟩
  · unfold Validation.step
    rw [hs.filling]
    exact if_neg hstop
  · rw [hmem]
    exact exists_complete_iff horder fun values => x = v.confHash values

end Validation

open Validation in
/-- **The validation of all configurations.**  For every batch size `--full` comes to its end:
it has compared all configurations in order, each of them once; the sets are exactly those of
the disagreements; and no location is wrong or missing exactly if the file is right about the
program.

The configurations are counted in an `int`.  From 2^31 configurations on the first check
fires, before any of them has been run. -/
theorem fullValidation_exact [DecidableEq Name] [DecidableEq Hash]
    {v : Validation Expr Name Hash} {holds : Expr → (ℕ → ℕ) → Prop} {f : List ℤ → List Name}
    {b : ℕ} (hv : v.Sound holds f) (ha : v.AtFull b) :
    ((v.dom.configSpace : ℤ) ≤ intMax →
      ∃ s₀ s, v.init = .ok s₀ ∧ Reach v.step (fun _ => True) s₀ s ∧ v.step s = .ok s ∧
        s.compared.map Config.values = allValues v.dom.vars ∧
        (s.allConfigs.Nodup ∧ ∀ h, h ∈ s.allConfigs ↔
          ∃ c : Config, c.Complete v.dom ∧ h = v.confHash c.values) ∧
        (∀ t, Reach v.step (fun _ => True) s₀ t → v.Exact holds f t.compared t.wrong) ∧
        (s.wrong.wrongLocs = ∅ ∧ s.wrong.missingLocs = ∅ ↔ v.Right holds f)) ∧
      (intMax < v.dom.configSpace → v.init = .error .iterRange) := by
  refine ⟨fun hspace => ?_, ha.init_tooLarge⟩
  obtain ⟨s₀, s, hinit, hreach, hend, horder, hexact, hnodup, hmem⟩ := ha.run hv hspace
  exact ⟨s₀, s, hinit, hreach, hend, horder, ⟨hnodup, hmem⟩,
    fun t ht => reach_exact hv hinit ht, hexact.empty_iff horder⟩

/-- One switch in batches of one, and a tree for a location that is covered when it is on. -/
theorem fullValidation_exact_switch :
    ∃ (v : Validation ZExpr Unit (List ℤ)) (s₀ s : Progress Unit (List ℤ)),
      v.dom = .single 2 (by decide) ∧ v.ma ≠ [] ∧ v.init = .ok s₀ ∧
      Reach v.step (fun _ => True) s₀ s ∧ s.compared.map Config.values = [[0], [1]] ∧
      (s.wrong.wrongLocs = ∅ ∧ s.wrong.missingLocs = ∅ ↔
        v.Right ZExpr.Holds fun values => if values = [1] then [()] else []) := by
  obtain ⟨d, hd⟩ := exists_oneValue (n := 2) (by decide) 1
  have hagrees := hd.agrees
  let v : Validation ZExpr Unit (List ℤ) := {
    dom := .single 2 (by decide), ma := [((), { d with id := 0 })], rand := none, full := true
    batchSize := 1, draws := id, confHash := id
    program := fun _ values => if values = [1] then [()] else [] }
  have hsound : v.Sound ZExpr.Holds fun values => if values = [1] then [()] else [] := {
    range := show ∀ x ∈ (Domain.single 2 (by decide)).vars, x.nValues ≤ 32768 by decide
    program := fun _ _ => rfl
    agrees := List.forall_mem_singleton.mpr ⟨hagrees.made, hagrees.agree⟩
    id_lt := List.forall_mem_singleton.mpr Nat.zero_lt_one
    shared := List.forall_mem_singleton.mpr (List.forall_mem_singleton.mpr fun _ _ _ => Iff.rfl) }
  obtain ⟨s₀, s, hinit, hreach, -, horder, -, -, hright⟩ :=
    (@fullValidation_exact _ _ _ _ _ v _ _ 1 hsound ⟨rfl, rfl, rfl, Nat.zero_lt_one⟩).1
      (show ((Domain.single 2 (by decide)).configSpace : ℤ) ≤ intMax by decide)
  exact ⟨v, s₀, s, rfl, List.cons_ne_nil _ _, hinit, hreach, horder, hright⟩

end GenTree

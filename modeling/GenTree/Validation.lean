import GenTree.Iter2
import GenTree.Library.Machine
import GenTree.LocEntry

/-!
# Validation on random configurations

`run_analyze_1` compares the trees of a file with the program.  With `--rand n` it draws `n`
configurations, with `--full` it takes all.  The program is run on whole batches: the loop
counts configurations, and whenever the current batch is used up it refills all of its
slots.  At random a slot is filled by drawing until a configuration comes up whose hash is
new.  That loop can end only if there still is such a configuration.

The function is a machine here, `Validation.step`, so that a run inside that loop is a run
too.  A slot is filled before it is known whether it will be used, so the machine comes to
fill `n` slots, rounded up to whole batches (`roundUp`).  It can get stuck exactly if there
are fewer configurations than that (`randomValidation_iff`).
-/

namespace GenTree

open Outcome Machine

variable {Expr Name Hash : Type} [DecidableEq Name] [DecidableEq Hash]

/-! ## The function -/

/-- What `run_analyze_1` is given: the domain, the entries of the file, the options `rand`,
`full` and `batch-size`, the random numbers, the locations the program gives for a
configuration of a batch, and `Config::hash`. -/
structure Validation (Expr Name Hash : Type) where
  dom : Domain
  ma : List (Name × LocEntry Expr)
  rand : Option ℤ
  full : Bool
  batchSize : ℤ
  draws : ℕ → ℕ
  program : ℕ → List ℤ → List Name
  confHash : List ℤ → Hash

/-- The locations and configurations that were found to be wrong. -/
structure Wrong (Name Hash : Type) where
  wrongConfigs : Finset Hash := ∅
  wrongLocs : Finset Name := ∅
  wrongLocsUniq : Finset Name := ∅
  missingLocs : Finset Name := ∅
  wrongConfigsNig : Finset Hash := ∅
  wrongLocsNig : Finset Name := ∅
  wrongLocsUniqNig : Finset Name := ∅

/-- The variables of `run_analyze_1`.  `iter` counts the configurations that have been
compared, which are kept in `compared`; `filling` is the slot the refilling loop is at, while
it runs; `all_configs` has the hashes in the order they were inserted. -/
structure Progress (Name Hash : Type) where
  iter : ℕ := 0
  it : ℕ
  filling : Option ℕ := none
  batchConfs : List Config
  batchLocs : List (List Name) := []
  nBatches : ℕ := 0
  generated : List Config := []
  allConfigs : List Hash := []
  rng : ℕ := 0
  compared : List Config := []
  wrong : Wrong Name Hash := {}

namespace Validation

/-- `run_full`. -/
def runFull (v : Validation Expr Name Hash) : Bool := v.rand.isNone && v.full

/-- `n_iter`. -/
def nIter (v : Validation Expr Name Hash) : ℤ :=
  match v.rand with
  | some n => n
  | none => if v.full then intOfDouble v.dom.configSpace else 0

/-- `n_batch`. -/
def nBatch (v : Validation Expr Name Hash) : ℤ := if v.batchSize = 0 then 100 else v.batchSize

/-- `generated_full_configs`. -/
def generatedFullConfigs (v : Validation Expr Name Hash) : Except Abort (List Config) :=
  if v.runFull then do
    let configs ← genAllConfigs v.dom
    check (v.nIter = configs.length) .fullSize
    .ok configs
  else .ok []

/-- `run_analyze_1` up to its loop. -/
def init (v : Validation Expr Name Hash) : Except Abort (Progress Name Hash) := do
  check (0 < v.nIter) .iterRange
  check (0 < v.nBatch) .batchRange
  let generated ← v.generatedFullConfigs
  .ok {
    it := v.nBatch.toNat
    batchConfs := List.replicate v.nBatch.toNat (Config.new v.dom)
    generated }

/-! ### A batch -/

/-- One pass of the `do` loop for slot `i`. -/
def drawSlot (v : Validation Expr Name Hash) (i : ℕ) (s : Progress Name Hash) :
    Except Abort (Progress Name Hash) := do
  let c ← vecAt s.batchConfs i
  let (c, rng) ← fillRand v.dom v.draws c s.rng
  let c := c.rehash
  let s := { s with batchConfs := s.batchConfs.set i c, rng }
  if v.confHash c.hashKey ∈ s.allConfigs then .ok s
  else .ok { s with allConfigs := s.allConfigs ++ [v.confHash c.hashKey], filling := some (i + 1) }

/-- The batch is refilled from all configurations, as long as there are some. -/
def fillFull (v : Validation Expr Name Hash) (s : Progress Name Hash) : Progress Name Hash :=
  let confs := (s.generated.take v.nBatch.toNat).map Config.touchHash
  { s with
    batchConfs := confs
    generated := s.generated.drop v.nBatch.toNat
    allConfigs := s.allConfigs ++
      ((confs.map fun c => v.confHash c.hashKey).filter (· ∉ s.allConfigs)).dedup }

/-- The program is run on the batch. -/
def runBatch (v : Validation Expr Name Hash) (s : Progress Name Hash) :
    Except Abort (Progress Name Hash) := do
  let batchLocs := s.batchConfs.map fun c => v.program s.nBatches c.values
  check (s.batchConfs.length = batchLocs.length) .batchLocs
  .ok { s with batchLocs, nBatches := s.nBatches + 1, it := 0, filling := none }

/-! ### The comparison -/

/-- One location: the value of its tree, which is the same for the locations of a group, is
compared with what the program says. -/
def compareLoc (v : Validation Expr Name Hash) (c : Config) (e : List Name)
    (st : List (Option Bool) × Wrong Name Hash) (p : Name × LocEntry Expr) :
    Except Abort (List (Option Bool) × Wrong Name Hash) := do
  let dat := p.2
  let cacheVal ← vecAt st.1 dat.id
  let evalRes ← (match cacheVal with
    | none => do
        let dat ← dat.compile v.dom
        dat.tree.interpret v.dom c
    | some res => .ok res)
  let uniqLoc := cacheVal.isNone
  let evalCache := st.1.set dat.id (some evalRes)
  let w := st.2
  if evalRes ≠ decide (p.1 ∈ e) then
    let w := { w with
      wrongConfigs := insert (v.confHash c.hashKey) w.wrongConfigs
      wrongLocs := insert p.1 w.wrongLocs
      wrongLocsUniq := if uniqLoc then insert p.1 w.wrongLocsUniq else w.wrongLocsUniq }
    if dat.ignored then .ok (evalCache, w)
    else .ok (evalCache, { w with
      wrongConfigsNig := insert (v.confHash c.hashKey) w.wrongConfigsNig
      wrongLocsNig := insert p.1 w.wrongLocsNig
      wrongLocsUniqNig := if uniqLoc then insert p.1 w.wrongLocsUniqNig else w.wrongLocsUniqNig })
  else .ok (evalCache, w)

/-- The next configuration of the batch is compared with the trees. -/
def compare (v : Validation Expr Name Hash) (s : Progress Name Hash) :
    Except Abort (Progress Name Hash) := do
  let c ← vecAt s.batchConfs s.it
  let e ← vecAt s.batchLocs s.it
  let (_, w) ← v.ma.foldlM (v.compareLoc c e) (List.replicate v.ma.length none, s.wrong)
  let missing := e.filter fun name => name ∉ v.ma.map Prod.fst
  .ok { s with
    iter := s.iter + 1
    it := s.it + 1
    compared := s.compared ++ [c]
    wrong := { w with missingLocs := w.missingLocs ∪ missing.toFinset } }

/-- One step: a pass of a loop.  A machine that has compared enough stays where it is. -/
def step (v : Validation Expr Name Hash) (s : Progress Name Hash) :
    Except Abort (Progress Name Hash) :=
  match s.filling with
  | some i => if (i : ℤ) < v.nBatch then v.drawSlot i s else v.runBatch s
  | none =>
      if (s.iter : ℤ) < v.nIter then
        if (s.it : ℤ) = v.nBatch then
          if v.runFull then v.runBatch (v.fillFull s) else .ok { s with filling := some 0 }
        else v.compare s
      else .ok s

end Validation

/-! ## Getting stuck -/

/-- The hashes of the configurations that can be drawn. -/
def drawable (dom : Domain) (confHash : List ℤ → Hash) : Finset Hash :=
  (space dom).image fun values => confHash (values.map toShort)

/-- The `do` loop is entered, or entered again, with every configuration seen. -/
def Progress.Stuck (v : Validation Expr Name Hash) (s : Progress Name Hash) : Prop :=
  ∃ i : ℕ, s.filling = some i ∧ (i : ℤ) < v.nBatch ∧
    ∀ h ∈ drawable v.dom v.confHash, h ∈ s.allConfigs

/-- `n` rounded up to whole batches. -/
def roundUp (b n : ℕ) : ℕ := b * ((n + b - 1) / b)

/-- **The validation makes progress**: no run gets stuck, and when it has ended, `n` distinct
configurations have been compared. -/
def Validation.Progresses (v : Validation Expr Name Hash) (n : ℕ) : Prop :=
  ∀ s₀ s, v.init = .ok s₀ → Reach v.step (fun _ => True) s₀ s →
    ¬s.Stuck v ∧ (s.filling = none → (s.iter : ℤ) = v.nIter →
      s.compared.length = n ∧ (s.compared.map Config.values).Nodup)

/-! ## Random configurations -/

/-- Values of the options are those of a configuration of the space. -/
theorem range_map_mem_space {dom : Domain} {f : ℕ → ℕ}
    (hf : ∀ var < dom.nVars, f var < dom.nValues var) :
    ((List.range dom.nVars).map fun var => (f var : ℤ)) ∈ space dom := by
  rw [mem_space]
  refine ⟨by simp, fun var x hx => ?_⟩
  have hvar : var < dom.nVars := by simpa using (List.getElem?_eq_some_iff.mp hx).1
  rw [List.getElem?_map, List.getElem?_range hvar, Option.map_some, Option.some.injEq] at hx
  have := hf var hvar
  omega

section Random

variable {v : Validation Expr Name Hash} {n b : ℕ}

/-- The function has been called for `n` random configurations in batches of `b`. -/
structure Validation.AtRandom (v : Validation Expr Name Hash) (n b : ℕ) : Prop where
  rand : v.rand = some (n : ℤ)
  nBatch : v.nBatch = b
  n_pos : 0 < n
  b_pos : 0 < b

namespace Validation.AtRandom

variable (hv : v.AtRandom n b)

omit [DecidableEq Name] [DecidableEq Hash]

include hv

theorem nIter : v.nIter = n := by
  rw [Validation.nIter, hv.rand]

theorem runFull : v.runFull = false := by
  rw [Validation.runFull, hv.rand]
  rfl

theorem init : v.init =
    .ok { it := b, batchConfs := List.replicate b (Config.new v.dom) } := by
  have hn := hv.n_pos
  have hb := hv.b_pos
  have hfull : v.generatedFullConfigs = .ok [] := by
    rw [generatedFullConfigs, hv.runFull, if_neg Bool.false_ne_true]
  rw [Validation.init, hv.nIter, hv.nBatch, check_pos (by omega), ok_bind, check_pos (by omega),
    ok_bind, hfull, ok_bind, Int.toNat_natCast]

end Validation.AtRandom

/-- **The invariant.**  The configurations compared so far and those of the slots that are
filled and not compared yet are the ones that have been seen, in this order; a batch begins
when its predecessors have been compared. -/
structure Validation.Valid (v : Validation Expr Name Hash) (n b : ℕ) (s : Progress Name Hash) :
    Prop where
  slots : s.batchConfs.length = b
  lengths : ∀ c ∈ s.batchConfs, c.values.length = v.dom.nVars
  iter_le : s.iter ≤ n
  compared : s.compared.length = s.iter
  nodup : s.allConfigs.Nodup
  drawn : ∀ h ∈ s.allConfigs, h ∈ drawable v.dom v.confHash
  filling : ∀ i, s.filling = some i → i ≤ b ∧ s.iter < n ∧ b ∣ s.iter ∧
    s.allConfigs = (s.compared ++ s.batchConfs.take i).map fun c => v.confHash c.values
  comparing : s.filling = none → s.it ≤ b ∧ b ∣ s.iter + (b - s.it) ∧
    (s.it < b → s.batchLocs.length = b) ∧
    s.allConfigs = (s.compared ++ s.batchConfs.drop s.it).map fun c => v.confHash c.values

omit [DecidableEq Name] in
/-- At the beginning. -/
theorem Validation.valid_init (dom : Domain) (hdom : v.dom = dom) :
    v.Valid n b { it := b, batchConfs := List.replicate b (Config.new dom) } where
  slots := List.length_replicate
  lengths c hc := by
    rw [List.eq_of_mem_replicate hc, hdom]
    exact List.length_replicate
  iter_le := Nat.zero_le _
  compared := rfl
  nodup := .nil
  drawn h hh := by cases hh
  filling i hi := by cases hi
  comparing _ := by simp

omit [DecidableEq Name] in
/-- A pass of the `do` loop: the slot has a new configuration, or the loop goes on. -/
theorem Validation.drawSlot_eq {s : Progress Name Hash} (h : v.Valid n b s) {i : ℕ} (hi : i < b) :
    ∃ (values : List ℤ) (c : Config), values ∈ space v.dom ∧ c.values = values.map toShort ∧
      (∀ var < v.dom.nVars, values[var]? =
        some ((v.draws (s.rng + var) % v.dom.nValues var : ℕ) : ℤ)) ∧
      v.drawSlot i s =
        if v.confHash (values.map toShort) ∈ s.allConfigs then
          .ok { s with batchConfs := s.batchConfs.set i c, rng := s.rng + v.dom.nVars }
        else .ok { s with
          batchConfs := s.batchConfs.set i c, rng := s.rng + v.dom.nVars
          allConfigs := s.allConfigs ++ [v.confHash (values.map toShort)]
          filling := some (i + 1) } := by
  have hi' : i < s.batchConfs.length := by rw [h.slots]; exact hi
  have hget := List.getElem?_eq_getElem hi'
  obtain ⟨f, hf, hrun⟩ := fillRand_eq v.dom v.draws (h.lengths _ (List.getElem_mem hi')) s.rng
  refine ⟨(List.range v.dom.nVars).map fun var => (f var : ℤ),
    { s.batchConfs[i] with
      values := (List.range v.dom.nVars).map fun var => toShort (f var) }.rehash,
    range_map_mem_space fun var hvar => (hf var hvar).1, ?_, ?_, ?_⟩
  · simp only [Config.rehash, List.map_map, Function.comp_def]
  · intro var hvar
    rw [List.getElem?_map, List.getElem?_range hvar, Option.map_some, (hf var hvar).2]
  · rw [drawSlot, vecAt_of_getElem? hget, ok_bind, hrun, ok_bind]
    simp only [Config.rehash, Config.hashKey, Option.getD_some, List.map_map, Function.comp_def]
    rfl

theorem Validation.step_of_filling {s : Progress Name Hash} {i : ℕ} (hfill : s.filling = some i)
    (hi : (i : ℤ) < v.nBatch) : v.step s = v.drawSlot i s := by
  unfold step
  rw [hfill]
  exact if_pos hi

theorem Validation.step_of_filled {s : Progress Name Hash} {i : ℕ} (hfill : s.filling = some i)
    (hi : ¬(i : ℤ) < v.nBatch) : v.step s = v.runBatch s := by
  unfold step
  rw [hfill]
  exact if_neg hi

omit [DecidableEq Name] in
/-- A slot that has been filled keeps the invariant. -/
theorem Validation.drawSlot_valid {s : Progress Name Hash} (h : v.Valid n b s) {i : ℕ}
    (hfill : s.filling = some i) (hi : i < b) :
    Meets (v.drawSlot i s) (v.Valid n b) fun _ => True := by
  obtain ⟨values, c, hvalues, hc, -, hdraw⟩ := drawSlot_eq h hi
  obtain ⟨-, hiter, hdvd, hall⟩ := h.filling i hfill
  have hlengths : ∀ c' ∈ s.batchConfs.set i c, c'.values.length = v.dom.nVars := by
    intro c' hc'
    rcases List.mem_or_eq_of_mem_set hc' with hc' | rfl
    · exact h.lengths c' hc'
    · rw [hc, List.length_map]
      exact (mem_space.mp hvalues).1
  have htake : (s.batchConfs.set i c).take i = s.batchConfs.take i :=
    List.take_set_of_le (Nat.le_refl i)
  rw [hdraw]
  split
  · refine ⟨by rw [List.length_set, h.slots], hlengths, h.iter_le, h.compared, h.nodup, h.drawn,
      ?_, fun hnone => by rw [hfill] at hnone; cases hnone⟩
    intro j hj
    obtain rfl : i = j := Option.some.inj (hfill.symm.trans hj)
    exact ⟨Nat.le_of_lt hi, hiter, hdvd, by rw [htake]; exact hall⟩
  · next hnew =>
      refine ⟨by rw [List.length_set, h.slots], hlengths, h.iter_le, h.compared, ?_, ?_, ?_,
        fun hnone => by cases hnone⟩
      · exact List.nodup_append.mpr ⟨h.nodup, List.nodup_singleton _, fun x hx y hy => by
          rw [List.mem_singleton.mp hy]
          exact ne_of_mem_of_not_mem hx hnew⟩
      · intro hash hhash
        rcases List.mem_append.mp hhash with hhash | hhash
        · exact h.drawn hash hhash
        · rw [List.mem_singleton.mp hhash]
          exact Finset.mem_image_of_mem _ hvalues
      · rintro j ⟨⟩
        refine ⟨hi, hiter, hdvd, ?_⟩
        have hset : (s.batchConfs.set i c)[i]? = some c := by
          rw [List.getElem?_set_self (by rw [h.slots]; exact hi)]
        rw [List.take_add_one, htake, hset, hall, ← hc]
        simp

omit [DecidableEq Name] in
/-- Running the program on a batch keeps the invariant. -/
theorem Validation.runBatch_valid {s : Progress Name Hash} (h : v.Valid n b s)
    (hfill : s.filling = some b) : ∃ s', v.runBatch s = .ok s' ∧ v.Valid n b s' ∧
      s'.filling = none ∧ s'.it = 0 ∧ s'.iter = s.iter ∧ s'.allConfigs = s.allConfigs ∧
      s'.rng = s.rng := by
  obtain ⟨-, hiter, hdvd, hall⟩ := h.filling b hfill
  have htake : s.batchConfs.take b = s.batchConfs := List.take_of_length_le (Nat.le_of_eq h.slots)
  have hrun : v.runBatch s = .ok { s with
      batchLocs := s.batchConfs.map fun c => v.program s.nBatches c.values
      nBatches := s.nBatches + 1, it := 0, filling := none } := by
    rw [runBatch, check_pos (List.length_map _).symm, ok_bind]
  refine ⟨_, hrun, ⟨h.slots, h.lengths, h.iter_le, h.compared, h.nodup, h.drawn,
    fun i hi => (by cases hi), fun _ => ⟨Nat.zero_le b, ?_, fun _ => ?_, ?_⟩⟩,
    rfl, rfl, rfl, rfl, rfl⟩
  · exact (Nat.dvd_add_right hdvd).mpr (by simp)
  · rw [List.length_map, h.slots]
  · rw [List.drop_zero, hall, htake]

/-- Comparing a configuration keeps the invariant. -/
theorem Validation.compare_valid {s : Progress Name Hash} (h : v.Valid n b s)
    (hfill : s.filling = none) (hiter : s.iter < n) (hit : s.it < b) :
    Meets (v.compare s) (fun s' => v.Valid n b s' ∧ s'.filling = none ∧ s'.it = s.it + 1 ∧
      s'.iter = s.iter + 1 ∧ s'.allConfigs = s.allConfigs ∧ s'.rng = s.rng) fun _ => True := by
  obtain ⟨-, hdvd, hlocs, hall⟩ := h.comparing hfill
  have hlt : s.it < s.batchConfs.length := by rw [h.slots]; exact hit
  have hget := List.getElem?_eq_getElem hlt
  rw [compare, vecAt_of_getElem? hget, ok_bind]
  refine meets_bind_of_eq (fun _ _ => trivial) fun e _ => ?_
  refine meets_bind_of_eq (fun _ _ => trivial) fun r _ => ?_
  refine ⟨⟨h.slots, h.lengths, hiter, ?_, h.nodup, h.drawn, ?_, ?_⟩, hfill, rfl, rfl, rfl, rfl⟩
  · rw [List.length_append, h.compared, List.length_singleton]
  · intro i hi
    rw [hfill] at hi
    cases hi
  · intro _
    refine ⟨hit, ?_, fun _ => hlocs hit, ?_⟩
    · rwa [show s.iter + 1 + (b - (s.it + 1)) = s.iter + (b - s.it) by omega]
    · rw [hall, List.drop_eq_getElem_cons hlt, List.append_assoc,
        List.singleton_append]

/-- **One step** keeps the invariant. -/
theorem Validation.step_valid (hv : v.AtRandom n b) {s : Progress Name Hash} (h : v.Valid n b s) :
    Meets (v.step s) (v.Valid n b) fun _ => True := by
  unfold step
  cases hfill : s.filling with
  | some i =>
      dsimp only
      split
      · next hi =>
          rw [hv.nBatch] at hi
          exact drawSlot_valid h hfill (by exact_mod_cast hi)
      · next hi =>
          rw [hv.nBatch] at hi
          have hle := (h.filling i hfill).1
          obtain rfl : i = b := by omega
          obtain ⟨s', hrun, hs', -⟩ := runBatch_valid h hfill
          rw [hrun]
          exact hs'
  | none =>
      obtain ⟨hit, hdvd, -, hall⟩ := h.comparing hfill
      dsimp only
      rw [hv.nIter, hv.nBatch, hv.runFull]
      split
      · next hiter =>
          have hiter' : s.iter < n := by exact_mod_cast hiter
          split
          · next hb =>
              have hb' : s.it = b := by exact_mod_cast hb
              rw [if_neg Bool.false_ne_true]
              refine ⟨h.slots, h.lengths, h.iter_le, h.compared, h.nodup, h.drawn, ?_,
                fun hnone => by cases hnone⟩
              rintro i ⟨⟩
              refine ⟨Nat.zero_le b, hiter', ?_, ?_⟩
              · rwa [hb', Nat.sub_self, Nat.add_zero] at hdvd
              · rw [hall, hb', List.drop_of_length_le (Nat.le_of_eq h.slots), List.take_zero]
          · next hb =>
              exact (compare_valid h hfill hiter' (by omega)).imp fun s' hs' => hs'.1
      · exact h

/-- **Every run** keeps the invariant. -/
theorem Validation.reach_valid (hv : v.AtRandom n b) {s₀ s : Progress Name Hash}
    (hinit : v.init = .ok s₀) (hreach : Reach v.step (fun _ => True) s₀ s) : v.Valid n b s := by
  refine hreach.invariant (E := fun _ => True) (v.Valid n b) (fun x hx _ => step_valid hv hx) ?_
  rw [hv.init] at hinit
  cases hinit
  exact valid_init v.dom rfl

omit [DecidableEq Name] in
/-- The seen configurations of a machine that fills slots. -/
theorem Validation.Valid.length_allConfigs {s : Progress Name Hash} (h : v.Valid n b s) {i : ℕ}
    (hfill : s.filling = some i) : s.allConfigs.length = s.iter + i := by
  obtain ⟨hi, -, -, hall⟩ := h.filling i hfill
  rw [hall, List.length_map, List.length_append, h.compared,
    List.length_take_of_le (by rw [h.slots]; exact hi)]

theorem lt_roundUp (hb : 0 < b) {k i : ℕ} (hk : k < n) (hdvd : b ∣ k) (hi : i < b) :
    k + i < roundUp b n := by
  obtain ⟨m, rfl⟩ := hdvd
  have hm : m < (n + b - 1) / b := by
    rw [Nat.lt_div_iff_mul_lt hb]
    rw [Nat.mul_comm]
    omega
  calc b * m + i < b * m + b := Nat.add_lt_add_left hi _
    _ = b * (m + 1) := (Nat.mul_succ b m).symm
    _ ≤ b * ((n + b - 1) / b) := Nat.mul_le_mul_left b hm

omit [DecidableEq Name] in
/-- With enough configurations the machine does not get stuck. -/
theorem Validation.Valid.not_stuck (hv : v.AtRandom n b)
    (hle : roundUp b n ≤ (drawable v.dom v.confHash).card) {s : Progress Name Hash}
    (h : v.Valid n b s) : ¬s.Stuck v := by
  rintro ⟨i, hfill, hi, hseen⟩
  rw [hv.nBatch] at hi
  obtain ⟨-, hiter, hdvd, -⟩ := h.filling i hfill
  have hlt := lt_roundUp hv.b_pos hiter hdvd (show i < b by exact_mod_cast hi)
  have hcard : (drawable v.dom v.confHash).card ≤ s.allConfigs.length := by
    refine (Finset.card_le_card fun x hx => ?_).trans (List.toFinset_card_le s.allConfigs)
    exact List.mem_toFinset.mpr (hseen x hx)
  rw [h.length_allConfigs hfill] at hcard
  omega

omit [DecidableEq Name] in
/-- When the run has ended, `n` distinct configurations have been compared. -/
theorem Validation.Valid.ended {s : Progress Name Hash} (h : v.Valid n b s)
    (hfill : s.filling = none) (hiter : s.iter = n) :
    s.compared.length = n ∧ (s.compared.map Config.values).Nodup := by
  refine ⟨h.compared.trans hiter, ?_⟩
  obtain ⟨-, -, -, hall⟩ := h.comparing hfill
  have hnodup := h.nodup
  rw [hall, List.map_append] at hnodup
  have hcompared := (List.nodup_append.mp hnodup).1
  rw [List.Nodup, List.pairwise_map] at hcompared ⊢
  exact hcompared.imp fun hne heq => hne (by rw [heq])

/-! ## A run that gets stuck -/

/-- Configurations of the space are equal if they agree on every option. -/
theorem space_ext {dom : Domain} {values values' : List ℤ} (h : values ∈ space dom)
    (h' : values' ∈ space dom) (heq : ∀ var < dom.nVars, values[var]? = values'[var]?) :
    values = values' := by
  have hlen : values.length = dom.nVars := (mem_space.mp h).1
  have hlen' : values'.length = dom.nVars := (mem_space.mp h').1
  apply List.ext_getElem?
  intro var
  by_cases hvar : var < dom.nVars
  · exact heq var hvar
  · rw [List.getElem?_eq_none (by omega), List.getElem?_eq_none (by omega)]

/-- The random numbers that draw the configurations `vs`, one after the other. -/
def drawsOf (nVars : ℕ) (vs : List (List ℤ)) (k : ℕ) : ℕ :=
  (((vs[k / nVars]?).getD [])[k % nVars]?.getD 0).toNat

/-- The comparison of a batch without locations. -/
theorem Validation.reach_compared (hv : v.AtRandom n b) (hma : v.ma = []) {s : Progress Name Hash}
    (h : v.Valid n b s) (hfill : s.filling = none) (hn : s.iter + (b - s.it) ≤ n) :
    ∃ s', Reach v.step (fun _ => True) s s' ∧ v.Valid n b s' ∧ s'.filling = none ∧ s'.it = b ∧
      s'.iter = s.iter + (b - s.it) ∧ s'.allConfigs = s.allConfigs ∧ s'.rng = s.rng := by
  obtain ⟨hle, -, hlocs, -⟩ := h.comparing hfill
  obtain ⟨k, hk⟩ : ∃ k, b - s.it = k := ⟨_, rfl⟩
  induction k generalizing s with
  | zero => exact ⟨s, .refl, h, hfill, by omega, by omega, rfl, rfl⟩
  | succ k ih =>
      have hit : s.it < b := by omega
      have hiter : s.iter < n := by omega
      have hconf : s.it < s.batchConfs.length := by rw [h.slots]; exact hit
      have hloc : s.it < s.batchLocs.length := by rw [hlocs hit]; exact hit
      obtain ⟨s₁, hrun⟩ : ∃ s₁, v.compare s = .ok s₁ := by
        rw [compare, vecAt_of_getElem? (List.getElem?_eq_getElem hconf), ok_bind,
          vecAt_of_getElem? (List.getElem?_eq_getElem hloc), ok_bind, hma]
        exact ⟨_, rfl⟩
      obtain ⟨h₁, hfill₁, hit₁, hiter₁, hall₁, hrng₁⟩ :=
        (compare_valid h hfill hiter hit).of_eq_ok hrun
      have hstep : v.step s = .ok s₁ := by
        unfold step
        rw [hfill]
        dsimp only
        rw [hv.nIter, hv.nBatch, if_pos (by exact_mod_cast hiter), if_neg (by omega), hrun]
      obtain ⟨-, -, hlocs₁, -⟩ := h₁.comparing hfill₁
      obtain ⟨s', hreach, h', hfill', hit', hiter', hall', hrng'⟩ :=
        ih h₁ hfill₁ (by omega) (by omega) hlocs₁ (by omega)
      exact ⟨s', .head trivial hstep hreach, h', hfill', hit', by omega, hall'.trans hall₁,
        hrng'.trans hrng₁⟩

/-- From a finished batch to the next one, if there is one. -/
theorem Validation.reach_refill (hv : v.AtRandom n b) {s : Progress Name Hash}
    (h : v.Valid n b s) (hfill : s.filling = none) (hit : s.it = b) (hiter : s.iter < n) :
    ∃ s', v.step s = .ok s' ∧ v.Valid n b s' ∧ s'.filling = some 0 ∧ s'.iter = s.iter ∧
      s'.allConfigs = s.allConfigs ∧ s'.rng = s.rng := by
  have hstep : v.step s = .ok { s with filling := some 0 } := by
    unfold step
    rw [hfill]
    dsimp only
    rw [hv.nIter, hv.nBatch, hv.runFull, if_pos (by exact_mod_cast hiter),
      if_pos (by exact_mod_cast hit), if_neg Bool.false_ne_true]
  exact ⟨_, hstep, (step_valid hv h).of_eq_ok hstep, rfl, rfl, rfl, rfl⟩

/-- Configurations with different hashes, whatever the program does with two values. -/
structure Distinct (dom : Domain) (confHash : List ℤ → Hash) (vs : List (List ℤ)) : Prop where
  mem : ∀ values ∈ vs, values ∈ space dom
  nodup : (vs.map fun values => confHash (values.map toShort)).Nodup
  all : ∀ h ∈ drawable dom confHash, h ∈ vs.map fun values => confHash (values.map toShort)

theorem exists_distinct (dom : Domain) (confHash : List ℤ → Hash) :
    ∃ vs, Distinct dom confHash vs ∧ vs.length = (drawable dom confHash).card := by
  have hpre : ∀ h : Hash, ∃ values : List ℤ, h ∈ drawable dom confHash →
      values ∈ space dom ∧ confHash (values.map toShort) = h := by
    intro h
    by_cases hmem : h ∈ drawable dom confHash
    · obtain ⟨values, hvalues, heq⟩ := Finset.mem_image.mp hmem
      exact ⟨values, fun _ => ⟨hvalues, heq⟩⟩
    · exact ⟨[], fun h' => absurd h' hmem⟩
  choose pre hpre using hpre
  have hmap : ((drawable dom confHash).toList.map pre).map
      (fun values => confHash (values.map toShort)) = (drawable dom confHash).toList := by
    rw [List.map_map]
    refine (List.map_congr_left fun h hh => ?_).trans (List.map_id _)
    exact (hpre h (Finset.mem_toList.mp hh)).2
  refine ⟨(drawable dom confHash).toList.map pre, ⟨?_, ?_, ?_⟩, ?_⟩
  · intro values hvalues
    obtain ⟨h, hh, rfl⟩ := List.mem_map.mp hvalues
    exact (hpre h (Finset.mem_toList.mp hh)).1
  · rw [hmap]
    exact Finset.nodup_toList _
  · intro h hh
    rw [hmap]
    exact Finset.mem_toList.mpr hh
  · rw [List.length_map, Finset.length_toList]

/-- The random numbers for the `j`-th configuration. -/
theorem drawsOf_mod {dom : Domain} {values : List ℤ} {vs : List (List ℤ)} {j : ℕ}
    (hj : vs[j]? = some values) (hvalues : values ∈ space dom) {var : ℕ} (hvar : var < dom.nVars) :
    values[var]? = some ((drawsOf dom.nVars vs (j * dom.nVars + var) % dom.nValues var : ℕ) : ℤ) := by
  have hpos : 0 < dom.nVars := Nat.zero_lt_of_lt hvar
  have hdiv : (j * dom.nVars + var) / dom.nVars = j := by
    rw [Nat.mul_comm, Nat.mul_add_div hpos, Nat.div_eq_of_lt hvar, Nat.add_zero]
  have hmod : (j * dom.nVars + var) % dom.nVars = var := by
    rw [Nat.mul_comm, Nat.mul_add_mod, Nat.mod_eq_of_lt hvar]
  obtain ⟨hlen, hrange⟩ := mem_space.mp hvalues
  have hlt : var < values.length := by rw [hlen]; exact hvar
  have hget : values[var]? = some values[var] := List.getElem?_eq_getElem hlt
  have hx := hrange var _ hget
  rw [drawsOf, hdiv, hmod, hj, Option.getD_some, hget, Option.getD_some,
    Nat.mod_eq_of_lt (by omega), Option.some.injEq]
  omega

/-- With these random numbers a slot is filled by the next configuration of the list. -/
theorem Validation.drawSlot_drawsOf (hv : v.AtRandom n b) {vs : List (List ℤ)}
    (hvs : Distinct v.dom v.confHash vs) (hdraws : v.draws = drawsOf v.dom.nVars vs) {j : ℕ}
    (hj : j < vs.length) {s : Progress Name Hash} (h : v.Valid n b s) {i : ℕ}
    (hfill : s.filling = some i) (hi : i < b) (hrng : s.rng = j * v.dom.nVars)
    (hall : s.allConfigs = (vs.take j).map fun values => v.confHash (values.map toShort)) :
    ∃ s', v.step s = .ok s' ∧ v.Valid n b s' ∧ s'.filling = some (i + 1) ∧ s'.iter = s.iter ∧
      s'.rng = (j + 1) * v.dom.nVars ∧
      s'.allConfigs = (vs.take (j + 1)).map fun values => v.confHash (values.map toShort) := by
  obtain ⟨values, c, hvalues, -, hdrawn, hrun⟩ := drawSlot_eq h hi
  have hget : vs[j]? = some vs[j] := List.getElem?_eq_getElem hj
  have hmem : vs[j] ∈ space v.dom := hvs.mem _ (List.getElem_mem hj)
  have heq : values = vs[j] := by
    refine space_ext hvalues hmem fun var hvar => ?_
    rw [hdrawn var hvar, hdraws, hrng]
    exact (drawsOf_mod hget hmem hvar).symm
  have htake : (vs.take (j + 1)).map (fun values => v.confHash (values.map toShort)) =
      s.allConfigs ++ [v.confHash (values.map toShort)] := by
    rw [List.take_add_one, hget, Option.toList_some, List.map_append, hall, heq]
    rfl
  have hnew : v.confHash (values.map toShort) ∉ s.allConfigs := by
    have hnodup := hvs.nodup
    rw [← List.take_append_drop (j + 1) vs, List.map_append, htake] at hnodup
    have hnodup := (List.nodup_append.mp hnodup).1
    intro hseen
    exact (List.nodup_append.mp hnodup).2.2 _ hseen _ (List.mem_singleton_self _) rfl
  have hstep : v.step s = v.drawSlot i s :=
    step_of_filling hfill (by rw [hv.nBatch]; exact_mod_cast hi)
  rw [if_neg hnew] at hrun
  refine ⟨_, hstep.trans hrun, (step_valid hv h).of_eq_ok (hstep.trans hrun), rfl, rfl, ?_,
    htake.symm⟩
  rw [hrng, Nat.succ_mul]

/-- A whole number of batches that is less than the batches needed is less than `n`. -/
theorem lt_of_lt_roundUp (hb : 0 < b) {m : ℕ} (h : b * m < roundUp b n) : b * m < n := by
  have hm : m + 1 ≤ (n + b - 1) / b := Nat.lt_of_mul_lt_mul_left h
  have hle : (m + 1) * b ≤ n + b - 1 := (Nat.le_div_iff_mul_le hb).mp hm
  rw [Nat.succ_mul, Nat.mul_comm] at hle
  omega

/-- When a batch has been filled and another one is needed, the machine comes to fill that. -/
theorem Validation.reach_nextBatch (hv : v.AtRandom n b) (hma : v.ma = []) {s : Progress Name Hash}
    (h : v.Valid n b s) (hfill : s.filling = some b) (hn : s.iter + b < n) :
    ∃ s', Reach v.step (fun _ => True) s s' ∧ v.Valid n b s' ∧ s'.filling = some 0 ∧
      s'.iter = s.iter + b ∧ s'.allConfigs = s.allConfigs ∧ s'.rng = s.rng := by
  obtain ⟨s₁, hrun, h₁, hfill₁, hit₁, hiter₁, hall₁, hrng₁⟩ := runBatch_valid h hfill
  have hstep : v.step s = .ok s₁ := by
    rw [step_of_filled hfill (by rw [hv.nBatch]; exact lt_irrefl _), hrun]
  obtain ⟨s₂, hreach, h₂, hfill₂, hit₂, hiter₂, hall₂, hrng₂⟩ :=
    reach_compared hv hma h₁ hfill₁ (by omega)
  obtain ⟨s₃, hstep₃, h₃, hfill₃, hiter₃, hall₃, hrng₃⟩ :=
    reach_refill hv h₂ hfill₂ hit₂ (by omega)
  refine ⟨s₃, .head trivial hstep (hreach.tail trivial hstep₃), h₃, hfill₃, by omega, ?_, ?_⟩
  · rw [hall₃, hall₂, hall₁]
  · rw [hrng₃, hrng₂, hrng₁]

/-- The machine at the slot for the `j`-th configuration of the list, the earlier ones having
been drawn. -/
structure Validation.Drawing (v : Validation Expr Name Hash) (n b : ℕ) (vs : List (List ℤ)) (j : ℕ)
    (s : Progress Name Hash) : Prop where
  valid : v.Valid n b s
  filling : s.filling = some (j % b)
  iter : s.iter = b * (j / b)
  rng : s.rng = j * v.dom.nVars
  allConfigs : s.allConfigs = (vs.take j).map fun values => v.confHash (values.map toShort)

/-- **A run draws the whole list**, as long as slots have to be filled. -/
theorem Validation.reach_drawn (hv : v.AtRandom n b) (hma : v.ma = []) {vs : List (List ℤ)}
    (hvs : Distinct v.dom v.confHash vs) (hdraws : v.draws = drawsOf v.dom.nVars vs)
    {s₀ : Progress Name Hash} (hinit : v.init = .ok s₀) {j : ℕ} (hj : j ≤ vs.length)
    (hlt : j < roundUp b n) :
    ∃ s, Reach v.step (fun _ => True) s₀ s ∧ v.Drawing n b vs j s := by
  have hb := hv.b_pos
  induction j with
  | zero =>
      have hvalid := reach_valid hv hinit .refl
      rw [hv.init, Except.ok.injEq] at hinit
      subst hinit
      obtain ⟨s₁, hstep, h₁, hfill₁, hiter₁, hall₁, hrng₁⟩ :=
        reach_refill hv hvalid rfl rfl hv.n_pos
      refine ⟨s₁, .head trivial hstep .refl, h₁, ?_, ?_, ?_, ?_⟩
      · rw [hfill₁, Nat.zero_mod]
      · rw [hiter₁, Nat.zero_div, Nat.mul_zero]
      · rw [hrng₁, Nat.zero_mul]
      · rw [hall₁, List.take_zero, List.map_nil]
  | succ j ih =>
      obtain ⟨s, hreach, h⟩ := ih (by omega) (by omega)
      have hmod := Nat.mod_lt j hb
      have hsplit := Nat.div_add_mod j b
      obtain ⟨s₁, hstep, h₁, hfill₁, hiter₁, hrng₁, hall₁⟩ :=
        drawSlot_drawsOf hv hvs hdraws hj h.valid h.filling hmod h.rng h.allConfigs
      rw [h.iter] at hiter₁
      by_cases hnext : j % b + 1 = b
      · -- the slot was the last one of its batch
        have hj' : j + 1 = b * (j / b + 1) := by rw [Nat.mul_succ]; omega
        have hdiv : (j + 1) / b = j / b + 1 := by rw [hj', Nat.mul_div_cancel_left _ hb]
        have hmod' : (j + 1) % b = 0 := by rw [hj', Nat.mul_mod_right]
        rw [hnext] at hfill₁
        obtain ⟨s₂, hreach₂, h₂, hfill₂, hiter₂, hall₂, hrng₂⟩ :=
          reach_nextBatch hv hma h₁ hfill₁ (by
            rw [hiter₁, ← Nat.mul_succ]
            exact lt_of_lt_roundUp hb (hj' ▸ hlt))
        refine ⟨s₂, (hreach.tail trivial hstep).trans hreach₂, h₂, ?_, ?_, ?_, ?_⟩
        · rw [hfill₂, hmod']
        · rw [hiter₂, hiter₁, hdiv, Nat.mul_succ]
        · rw [hrng₂, hrng₁]
        · rw [hall₂, hall₁]
      · have hj' : j + 1 = b * (j / b) + (j % b + 1) := by omega
        have hlt' : j % b + 1 < b := by omega
        have hdiv : (j + 1) / b = j / b := by
          rw [hj', Nat.mul_add_div hb, Nat.div_eq_of_lt hlt', Nat.add_zero]
        have hmod' : (j + 1) % b = j % b + 1 := by
          rw [hj', Nat.mul_add_mod, Nat.mod_eq_of_lt hlt']
        exact ⟨s₁, hreach.tail trivial hstep, h₁, by rw [hfill₁, hmod'], by rw [hiter₁, hdiv],
          hrng₁, hall₁⟩

/-- With too few configurations a run gets stuck, for some random numbers. -/
theorem Validation.reach_stuck (hv : v.AtRandom n b) (hma : v.ma = []) {vs : List (List ℤ)}
    (hvs : Distinct v.dom v.confHash vs) (hdraws : v.draws = drawsOf v.dom.nVars vs)
    (hlt : vs.length < roundUp b n) :
    ∃ s₀ s, v.init = .ok s₀ ∧ Reach v.step (fun _ => True) s₀ s ∧ s.Stuck v := by
  obtain ⟨s, hreach, h⟩ := reach_drawn hv hma hvs hdraws hv.init (Nat.le_refl _) hlt
  have hslot : ((vs.length % b : ℕ) : ℤ) < v.nBatch := by
    rw [hv.nBatch]
    exact_mod_cast Nat.mod_lt _ hv.b_pos
  refine ⟨_, s, hv.init, hreach, _, h.filling, hslot, fun hash hhash => ?_⟩
  rw [h.allConfigs, List.take_length]
  exact hvs.all hash hhash

omit [DecidableEq Name] in
/-- With too few configurations no run comes to its end. -/
theorem Validation.Valid.not_ended (hv : v.AtRandom n b)
    (hlt : (drawable v.dom v.confHash).card < roundUp b n) {s : Progress Name Hash}
    (h : v.Valid n b s) : s.iter < n := by
  refine Nat.lt_of_le_of_ne h.iter_le fun hiter => ?_
  have hcard : s.allConfigs.length ≤ (drawable v.dom v.confHash).card := by
    rw [← List.toFinset_card_of_nodup h.nodup]
    exact Finset.card_le_card fun x hx => h.drawn x (List.mem_toFinset.mp hx)
  cases hfill : s.filling with
  | some i => exact absurd hiter (Nat.ne_of_lt (h.filling i hfill).2.1)
  | none =>
      obtain ⟨hit, ⟨m, hm⟩, -, hall⟩ := h.comparing hfill
      have hlen : s.allConfigs.length = b * m := by
        rw [hall, List.length_map, List.length_append, h.compared, List.length_drop, h.slots, hm]
      have := lt_of_lt_roundUp hv.b_pos (show b * m < roundUp b n by omega)
      omega

/-- A machine that is stuck stays so, whatever it draws. -/
theorem Progress.Stuck.step (hv : v.AtRandom n b) {s : Progress Name Hash} (h : v.Valid n b s)
    (hstuck : s.Stuck v) : ∃ s', v.step s = .ok s' ∧ s'.Stuck v := by
  obtain ⟨i, hfill, hi, hseen⟩ := hstuck
  have hi' : i < b := by rw [hv.nBatch] at hi; exact_mod_cast hi
  obtain ⟨values, c, hvalues, -, -, hrun⟩ := Validation.drawSlot_eq h hi'
  rw [if_pos (hseen _ (Finset.mem_image_of_mem _ hvalues))] at hrun
  exact ⟨_, (Validation.step_of_filling hfill hi).trans hrun, i, hfill, hi, hseen⟩

/-- A machine that is not stuck leaves the `do` loop, for some random numbers. -/
theorem Validation.Valid.exists_draws (hv : v.AtRandom n b) {s : Progress Name Hash}
    (h : v.Valid n b s) {i : ℕ} (hfill : s.filling = some i) (hi : i < b) (hfree : ¬s.Stuck v) :
    ∃ draws s', { v with draws }.step s = .ok s' ∧ s'.filling = some (i + 1) := by
  have hi' : (i : ℤ) < v.nBatch := by rw [hv.nBatch]; exact_mod_cast hi
  obtain ⟨values, hvalues, hnew⟩ : ∃ values ∈ space v.dom,
      v.confHash (values.map toShort) ∉ s.allConfigs := by
    by_contra hall
    refine hfree ⟨i, hfill, hi', fun hash hhash => ?_⟩
    obtain ⟨values, hvalues, rfl⟩ := Finset.mem_image.mp hhash
    by_contra hnew
    exact hall ⟨values, hvalues, hnew⟩
  have h' : { v with draws := fun k => drawsOf v.dom.nVars [values] (k - s.rng) }.Valid n b s := {
    slots := h.slots
    lengths := h.lengths
    iter_le := h.iter_le
    compared := h.compared
    nodup := h.nodup
    drawn := h.drawn
    filling := h.filling
    comparing := h.comparing }
  obtain ⟨values', c, hvalues', -, hdrawn, hrun⟩ := Validation.drawSlot_eq h' hi
  have heq : values' = values := by
    refine space_ext hvalues' hvalues fun var hvar => ?_
    have hone : [values][0]? = some values := rfl
    rw [hdrawn var hvar, drawsOf_mod hone hvalues hvar, Nat.zero_mul, Nat.zero_add]
    dsimp only
    rw [Nat.add_sub_cancel_left]
  rw [heq, if_neg hnew] at hrun
  refine ⟨fun k => drawsOf v.dom.nVars [values] (k - s.rng), _, Eq.trans ?_ hrun, rfl⟩
  exact step_of_filling hfill hi'

end Random

/-! ## The condition -/

/-- As many configurations can be drawn as there are, if their values fit into a `short` and
their hashes are different. -/
theorem card_drawable {dom : Domain} {confHash : List ℤ → Hash}
    (hinj : Function.Injective confHash) (hfit : ∀ var < dom.nVars, dom.nValues var ≤ 65536) :
    (drawable dom confHash).card = (space dom).card := by
  refine Finset.card_image_of_injOn fun values hvalues values' hvalues' heq => ?_
  have hmap : values.map toShort = values'.map toShort := hinj heq
  have hvalues := Finset.mem_coe.mp hvalues
  have hvalues' := Finset.mem_coe.mp hvalues'
  refine space_ext hvalues hvalues' fun var hvar => ?_
  obtain ⟨hlen, hrange⟩ := mem_space.mp hvalues
  obtain ⟨hlen', hrange'⟩ := mem_space.mp hvalues'
  have hlt : var < values.length := by rw [hlen]; exact hvar
  have hlt' : var < values'.length := by rw [hlen']; exact hvar
  have hget : values[var]? = some values[var] := List.getElem?_eq_getElem hlt
  have hget' : values'[var]? = some values'[var] := List.getElem?_eq_getElem hlt'
  have hx := hrange var _ hget
  have hx' := hrange' var _ hget'
  have hle := hfit var hvar
  have hshort : toShort values[var] = toShort values'[var] := by
    have hat := congrArg (fun l => l[var]?) hmap
    simpa only [List.getElem?_map, hget, hget', Option.map_some, Option.some.injEq] using hat
  rw [hget, hget', Option.some.injEq]
  unfold toShort at hshort
  rw [Int.bmod_def, Int.bmod_def] at hshort
  omega

/-- **Random validation can always make progress exactly if `n`, rounded up to whole batches,
is at most the number of configurations.**  With fewer of them no run comes to its end, of
whatever program, and a run that is stuck stays so.  A run that is not stuck can leave the
`do` loop: what it needs is the right random numbers. -/
theorem randomValidation_iff (dom : Domain) (confHash : List ℤ → Hash) {n b : ℕ} (hn : 0 < n)
    (hb : 0 < b) :
    ((∀ v : Validation Expr Name Hash, v.dom = dom → v.confHash = confHash →
      v.rand = some (n : ℤ) → v.nBatch = b → v.Progresses n) ↔
      roundUp b n ≤ (drawable dom confHash).card) ∧
    ∀ v : Validation Expr Name Hash, v.dom = dom → v.confHash = confHash →
      v.rand = some (n : ℤ) → v.nBatch = b → ∀ s₀ s, v.init = .ok s₀ →
        Reach v.step (fun _ => True) s₀ s →
          ((drawable dom confHash).card < roundUp b n → s.iter < n) ∧
          (s.Stuck v → ∃ s', v.step s = .ok s' ∧ s'.Stuck v) ∧
          ∀ i, s.filling = some i → i < b → ¬s.Stuck v →
            ∃ draws s', { v with draws }.step s = .ok s' ∧ s'.filling = some (i + 1) := by
  refine ⟨⟨?_, ?_⟩, ?_⟩
  · intro hall
    by_contra hlt
    obtain ⟨vs, hvs, hlen⟩ := exists_distinct dom confHash
    obtain ⟨v, hdom, hhash, hma, hdraws, hv⟩ : ∃ v : Validation Expr Name Hash, v.dom = dom ∧
        v.confHash = confHash ∧ v.ma = [] ∧ v.draws = drawsOf dom.nVars vs ∧ v.AtRandom n b :=
      ⟨⟨dom, [], some n, false, b, drawsOf dom.nVars vs, fun _ _ => [], confHash⟩, rfl, rfl, rfl,
        rfl, rfl, if_neg (Int.natCast_ne_zero.mpr (Nat.ne_of_gt hb)), hn, hb⟩
    subst hdom hhash
    obtain ⟨s₀, s, hinit, hreach, hstuck⟩ :=
      Validation.reach_stuck hv hma hvs hdraws (by omega)
    exact (hall v rfl rfl hv.rand hv.nBatch s₀ s hinit hreach).1 hstuck
  · rintro hle v rfl rfl hrand hbatch s₀ s hinit hreach
    have hv : v.AtRandom n b := ⟨hrand, hbatch, hn, hb⟩
    have h := Validation.reach_valid hv hinit hreach
    refine ⟨h.not_stuck hv hle, fun hfill hiter => h.ended hfill ?_⟩
    rw [hv.nIter] at hiter
    exact_mod_cast hiter
  · rintro v rfl rfl hrand hbatch s₀ s hinit hreach
    have hv : v.AtRandom n b := ⟨hrand, hbatch, hn, hb⟩
    have h := Validation.reach_valid hv hinit hreach
    exact ⟨fun hlt => h.not_ended hv hlt, fun hstuck => hstuck.step hv h,
      fun i hfill hi hfree => h.exists_draws hv hfill hi hfree⟩

/-- Four configurations in batches of two, of the four that there are. -/
theorem randomValidation_iff_four :
    (∀ v : Validation Unit Unit (List ℤ), v.dom = .switches 2 (by decide) → v.confHash = id →
      v.rand = some (4 : ℕ) → v.nBatch = (2 : ℕ) → v.Progresses 4) ∧
      roundUp 2 4 ≤ (drawable (.switches 2 (by decide)) (id : List ℤ → List ℤ)).card := by
  have hle : roundUp 2 4 ≤ (drawable (.switches 2 (by decide)) (id : List ℤ → List ℤ)).card := by
    rw [card_drawable Function.injective_id (by decide)]
    decide
  exact ⟨(randomValidation_iff _ _ (by decide) (by decide)).1.mpr hle, hle⟩

/-- Two configurations of one switch in a batch of three, the random numbers being `0`, `1`,
`2` and so on. -/
def Validation.twoOfOneSwitch : Validation Unit Unit (List ℤ) where
  dom := .switches 1 (by decide)
  ma := []
  rand := some 2
  full := false
  batchSize := 3
  draws := id
  program _ _ := []
  confHash := id

/-- One switch, whose two configurations are asked for in batches of three: the third slot of
the batch gets stuck. -/
theorem randomValidation_batch :
    ¬∀ (v : Validation Unit Unit (List ℤ)) (n b : ℕ), v.rand = some (n : ℤ) →
      v.batchSize = b → v.confHash = id → 1 ≤ n → n ≤ (space v.dom).card → 1 ≤ b →
      v.Progresses n := by
  intro hall
  have hv : Validation.twoOfOneSwitch.AtRandom 2 3 := ⟨rfl, rfl, by decide, by decide⟩
  have hstuck : ∃ s, Reach Validation.twoOfOneSwitch.step (fun _ => True)
      { it := 3, batchConfs := List.replicate 3 (Config.new (.switches 1 (by decide))) } s ∧
      s.Stuck Validation.twoOfOneSwitch :=
    ⟨_, .of_runFor (n := 3) rfl, 2, rfl, by decide, by decide⟩
  obtain ⟨s, hreach, hstuck⟩ := hstuck
  exact (hall _ 2 3 rfl rfl rfl (by decide) (by decide) (by decide) _ s hv.init hreach).1 hstuck

end GenTree

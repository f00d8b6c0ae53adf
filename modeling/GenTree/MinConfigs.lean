import GenTree.Library.GreedyCover
import GenTree.LocEntry

/-!
# Few configurations for all interactions

`run_analyze_cmin` looks for few configurations such that every interaction is satisfied by
one of them.  It goes through the interactions in rounds.  A round passes over those that
are covered already, conjoins the formulas of the others as long as Z3 finds a model, and
ends at the first one that does not fit; then one configuration is generated for the
conjunction.

What is not visible in the loop is that a round never generates a configuration in vain.
The interaction at which a round ends is not covered by the configurations before, and the
configuration of the round does not satisfy it either, since it satisfies a conjunction that
excludes it.  So every round begins at an interaction that is not covered, takes it, and
its configuration is a new one (`cminLoop_rounds`).
-/

namespace GenTree

open Outcome GreedyCover

/-! ## The functions -/

/-- Z3 with `operator&&`. -/
structure Z3And (Expr : Type) extends Z3 Expr where
  and : Expr → Expr → Expr

/-- How many checks Z3 has made, and how many random numbers have been drawn. -/
structure Used where
  nCheck : ℕ := 0
  rng : ℕ := 0

section Functions

variable {Expr Hash Name : Type} [DecidableEq Hash]

/-- The value an option gets from a model: a random one if the model leaves it out. -/
def modelValue (dom : Domain) (draws : ℕ → ℕ) (m : ZModel) (var rng : ℕ) :
    Except Abort (ℕ × ℕ) :=
  match m var with
  | some v => do
      -- `val_id_of(const_interp)`
      check (v < dom.nValues var) .modelValue
      .ok (v, rng)
  | none => randBelow draws rng (dom.nValues var)

/-- `gen_model`. -/
def genModel (dom : Domain) (z : Z3 Expr) (draws : ℕ → ℕ) (e : Expr) (u : Used) :
    Except Abort (Option Config × Used) :=
  match z.check u.nCheck [e] with
  | .sat m => do
      let (c, rng) ← setEach dom (modelValue dom draws m) (Config.new dom) u.rng
      .ok (some c, { nCheck := u.nCheck + 1, rng })
  | _ => .ok (none, { u with nCheck := u.nCheck + 1 })

/-- The inner loop of `run_analyze_cmin`, over the interactions from `R` on.  Returns those
from the last `R` on, and the conjunction. -/
def cminWindow (dom : Domain) (z : Z3And Expr) (draws : ℕ → ℕ) (confs : List Config) :
    List (LocEntry Expr) → Expr → Used → Except Abort (List (LocEntry Expr) × Expr × Used)
  | [], e, u => .ok ([], e, u)
  | d :: vd, e, u => do
      let covered ← d.interpretAny dom confs
      if covered then cminWindow dom z draws confs vd e u
      else do
        let (c, u) ← genModel dom z.toZ3 draws (z.and e d.e) u
        match c with
        | some _ => cminWindow dom z draws confs vd (z.and e d.e) u
        | none => .ok (d :: vd, e, u)

/-- The outer loop, over the interactions from `L` on.  Every round leaves fewer of them. -/
def cminLoop (dom : Domain) (z : Z3And Expr) (draws : ℕ → ℕ) (confHash : List ℤ → Hash) :
    ℕ → List (LocEntry Expr) → List Config → Used → Except Abort (List Config)
  | _, [], confs, _ => .ok confs
  | 0, _ :: _, _, _ => .error .outOfFuel
  | fuel + 1, d :: vd, confs, u => do
      let (rest, e, u) ← cminWindow dom z draws confs (d :: vd) (z.build .ztrue) u
      check (rest.length < (d :: vd).length) .cminWindow
      let (c, u) ← genModel dom z.toZ3 draws e u
      match c with
      | none => .error .cminModel
      | some c => do
          check (confHash c.hashKey ∉ confs.map fun c => confHash c.hashKey) .cminHash
          cminLoop dom z draws confHash fuel rest (confs ++ [c.touchHash]) u

/-- `run_analyze_cmin` on what `read_file` has returned.  The result of the source is the
number of the configurations. -/
def runAnalyzeCmin (dom : Domain) (z : Z3And Expr) (draws : ℕ → ℕ) (confHash : List ℤ → Hash)
    (shuffle : List (LocEntry Expr) → List (LocEntry Expr)) (repeatId : ℤ)
    (ma : List (Name × LocEntry Expr)) : Except Abort (List Config) := do
  let ma ← ma.mapM fun p => p.2.compile dom
  let vd := ma.filter LocEntry.isFirst
  let vd := if 0 < repeatId then shuffle vd else vd
  let confs ← cminLoop dom z draws confHash vd.length vd [] {}
  forM ma fun d => do
    let ok ← d.interpretAny dom confs
    check (ok = true) .cminLoc
  .ok confs

end Functions

/-! ## What is assumed -/

/-- The solver is correct, and `&&` is conjunction. -/
structure Z3And.Correct {Expr : Type} (dom : Domain) (z : Z3And Expr)
    (holds : Expr → (ℕ → ℕ) → Prop) : Prop extends Z3.Correct dom z.toZ3 holds where
  and : ∀ (e f : Expr) (c : Config), c.Complete dom →
    (holds (z.and e f) c.val ↔ holds e c.val ∧ holds f c.val)

/-- **Interactions** as `read_file` returns them: the trees agree with the formulas, and
every group has a first location.  Every formula is satisfiable. -/
structure Interactions {Expr Name : Type} (dom : Domain) (holds : Expr → (ℕ → ℕ) → Prop)
    (ma : List (Name × LocEntry Expr)) : Prop where
  agrees : ∀ p ∈ ma, p.2.Agrees dom holds
  satisfiable : ∀ p ∈ ma, ∃ c : Config, c.Complete dom ∧ p.2.Sat holds c
  first : ∀ p ∈ ma, ∃ q ∈ ma, q.2.isFirst = true ∧ q.2.e = p.2.e

section Cover

variable {Expr Hash Name : Type} [DecidableEq Hash] {dom : Domain} {z : Z3And Expr}
  {draws : ℕ → ℕ} {confHash : List ℤ → Hash} {holds : Expr → (ℕ → ℕ) → Prop}

/-! ## `gen_model` -/

/-- **`gen_model`** finds a configuration exactly if there is one. -/
theorem genModel_spec (draws : ℕ → ℕ) (hrange : ∀ v ∈ dom.vars, v.nValues ≤ 32768)
    (hz : z.toZ3.Correct dom holds) (e : Expr) (u : Used) :
    ∃ r u', genModel dom z.toZ3 draws e u = .ok (r, u') ∧
      (r = none → ∀ c : Config, c.Complete dom → ¬holds e c.val) ∧
      ∀ c ∈ r, c.Complete dom ∧ c.hashed = none ∧ holds e c.val := by
  unfold genModel
  cases hcheck : z.check u.nCheck [e] with
  | unsat =>
      refine ⟨none, _, rfl, fun _ c hc he => ?_, by simp⟩
      exact hz.unsat _ _ hcheck c hc (by simpa using he)
  | unknown => exact absurd hcheck (hz.known _ _)
  | sat m =>
      have hpick : ∀ var < dom.nVars, ∀ rng, True → Meets (modelValue dom draws m var rng)
          (fun r => (r.1 < dom.nValues var ∧ ∀ v, m var = some v → r.1 = v) ∧ True)
          fun _ => False := by
        intro var hvar rng _
        unfold modelValue
        cases hm : m var with
        | some v =>
            dsimp only
            rw [check_pos (hz.inRange _ _ _ hcheck var hvar v hm), ok_bind]
            exact ⟨⟨hz.inRange _ _ _ hcheck var hvar v hm, fun w hw => Option.some.inj hw⟩, trivial⟩
        | none =>
            have hpos := dom.nValues_pos hvar
            dsimp only
            rw [randBelow, if_neg (by omega)]
            exact ⟨⟨Nat.mod_lt _ hpos, by simp⟩, trivial⟩
      obtain ⟨⟨c, rng⟩, hrun, ⟨f, hf, rfl⟩, -⟩ :=
        (setEach_meets (P := fun var v => ∀ w, m var = some w → v = w) (J := fun _ _ => True)
          hpick (show (Config.new dom).values.length = dom.nVars from List.length_replicate)
          u.rng trivial).exists_ok
      obtain ⟨hcomplete, hval⟩ := complete_of_setEach hrange fun var hvar => (hf var hvar).1
      refine ⟨some _, _, by simp only [hrun, ok_bind]; rfl, by simp, ?_⟩
      rintro c ⟨⟩
      refine ⟨hcomplete, rfl, ?_⟩
      have hall := hz.model _ _ _ hcheck _ hcomplete fun var hvar v hv =>
        (hval var hvar).trans ((hf var hvar).2 v hv)
      exact hall e (List.mem_singleton_self e)

/-! ## One round -/

/-- The entries of a list decide their formulas, which are satisfiable. -/
def Usable (dom : Domain) (holds : Expr → (ℕ → ℕ) → Prop) (vd : List (LocEntry Expr)) : Prop :=
  ∀ d ∈ vd, d.Decides dom holds ∧ ∃ c : Config, c.Complete dom ∧ d.Sat holds c

/-- The first of the interactions is not covered. -/
def HeadOpen (holds : Expr → (ℕ → ℕ) → Prop) (vd : List (LocEntry Expr)) (confs : List Config) :
    Prop :=
  ∀ d ∈ vd.head?, ∀ c ∈ confs, ¬d.Sat holds c

/-- What a window has done with the interactions `vd` and the conjunction `e`: it has gone
over `taken`, which leaves `rest`, and has come to the conjunction `e'`. -/
structure Window (dom : Domain) (holds : Expr → (ℕ → ℕ) → Prop) (confs : List Config)
    (vd : List (LocEntry Expr)) (e : Expr) (taken rest : List (LocEntry Expr)) (e' : Expr) :
    Prop where
  split : vd = taken ++ rest
  idle : taken = [] → e' = e
  stronger : ∀ c : Config, c.Complete dom → holds e' c.val → holds e c.val
  satisfiable : (∃ c : Config, c.Complete dom ∧ holds e c.val) →
    ∃ c : Config, c.Complete dom ∧ holds e' c.val
  covered : ∀ d ∈ taken, (∃ c ∈ confs, d.Sat holds c) ∨
    ∀ c : Config, c.Complete dom → holds e' c.val → d.Sat holds c
  stop : ∀ d ∈ rest.head?, (∀ c ∈ confs, ¬d.Sat holds c) ∧
    ∀ c : Config, c.Complete dom → ¬(holds e' c.val ∧ d.Sat holds c)

/-- **The inner loop.** -/
theorem cminWindow_spec (draws : ℕ → ℕ) (hrange : ∀ v ∈ dom.vars, v.nValues ≤ 32768)
    (hz : z.Correct dom holds)
    {confs : List Config} (hconfs : ∀ c ∈ confs, c.Complete dom) {vd : List (LocEntry Expr)}
    (hvd : Usable dom holds vd) (e : Expr) (u : Used) :
    ∃ taken rest e' u', cminWindow dom z draws confs vd e u = .ok (rest, e', u') ∧
      Window dom holds confs vd e taken rest e' := by
  induction vd generalizing e u with
  | nil => exact ⟨[], [], e, u, rfl, rfl, fun _ => rfl, fun _ _ h => h, id, by simp, by simp⟩
  | cons d vd ih =>
      obtain ⟨⟨hd, -⟩, hvd⟩ := List.forall_mem_cons.mp hvd
      obtain ⟨covered, hcovered, hiff⟩ := hd.interpretAny hconfs
      unfold cminWindow
      rw [hcovered, ok_bind]
      cases covered with
      | true =>
          obtain ⟨taken, rest, e', u', hrun, hw⟩ := ih hvd e u
          refine ⟨d :: taken, rest, e', u', by simpa using hrun, by rw [hw.split]; rfl,
            by simp, hw.stronger, hw.satisfiable, ?_, hw.stop⟩
          exact List.forall_mem_cons.mpr ⟨.inl (hiff.mp rfl), hw.covered⟩
      | false =>
          have hopen : ∀ c ∈ confs, ¬d.Sat holds c := by
            intro c hc hsat
            exact Bool.false_ne_true (hiff.mpr ⟨c, hc, hsat⟩)
          obtain ⟨r, u₁, hgen, hnone, hsome⟩ :=
            genModel_spec draws hrange hz.toCorrect (z.and e d.e) u
          rw [if_neg Bool.false_ne_true, hgen, ok_bind]
          cases r with
          | none =>
              refine ⟨[], d :: vd, e, u₁, rfl, rfl, fun _ => rfl, fun _ _ h => h, id, by simp, ?_⟩
              rintro d' ⟨⟩
              refine ⟨hopen, fun c hc hboth => ?_⟩
              exact hnone rfl c hc ((hz.and e d.e c hc).mpr hboth)
          | some c₁ =>
              obtain ⟨hc₁, -, hboth⟩ := hsome c₁ rfl
              obtain ⟨taken, rest, e', u', hrun, hw⟩ := ih hvd (z.and e d.e) u₁
              have hand : ∀ c : Config, c.Complete dom → holds e' c.val →
                  holds e c.val ∧ d.Sat holds c := by
                intro c hc h
                exact (hz.and e d.e c hc).mp (hw.stronger c hc h)
              refine ⟨d :: taken, rest, e', u', hrun, by rw [hw.split]; rfl, by simp,
                fun c hc h => (hand c hc h).1, fun _ => hw.satisfiable ⟨c₁, hc₁, hboth⟩, ?_,
                hw.stop⟩
              exact List.forall_mem_cons.mpr ⟨.inr fun c hc h => (hand c hc h).2, hw.covered⟩

/-- The conjunction of a window without an interaction is the one it began with. -/
theorem Window.taken_ne_nil {confs : List Config} {d : LocEntry Expr}
    {vd taken rest : List (LocEntry Expr)} {e e' : Expr}
    (h : Window dom holds confs (d :: vd) e taken rest e')
    (hd : ∃ c : Config, c.Complete dom ∧ holds e c.val ∧ d.Sat holds c) : taken ≠ [] := by
  intro hnil
  obtain ⟨c, hc, he, hsat⟩ := hd
  have hrest : rest = d :: vd := by rw [h.split, hnil, List.nil_append]
  have hstop := (h.stop d (by rw [hrest]; rfl)).2 c hc
  rw [h.idle hnil] at hstop
  exact hstop ⟨he, hsat⟩

/-! ## The rounds -/

/-- Two complete configurations with the same hash. -/
def ConfHashClash (dom : Domain) (confHash : List ℤ → Hash) : Prop :=
  ∃ c c' : Config, c.Complete dom ∧ c'.Complete dom ∧ c.values ≠ c'.values ∧
    confHash c.values = confHash c'.values

/-- The configurations found so far. -/
def Found (dom : Domain) (confs : List Config) : Prop :=
  ∀ c ∈ confs, c.Complete dom ∧ c.hashKey = c.values

theorem Found.concat {confs : List Config} (h : Found dom confs) {c : Config}
    (hc : c.Complete dom) (hhash : c.hashed = none) : Found dom (confs ++ [c.touchHash]) := by
  intro c' hc'
  rcases List.mem_append.mp hc' with hc' | hc'
  · exact h c' hc'
  · rw [List.mem_singleton.mp hc']
    refine ⟨hc, ?_⟩
    rw [Config.touchHash, Config.hashKey, Config.hashKey, hhash]
    rfl

theorem LocEntry.sat_congr {d : LocEntry Expr} {c c' : Config} (h : c.values = c'.values) :
    d.Sat holds c ↔ d.Sat holds c' := by
  have hval : c.val = c'.val := by
    funext var
    rw [Config.val, Config.val, h]
  rw [Sat, Sat, hval]

/-- What a round does: it takes the first of the interactions and some of the others, and
finds a configuration that is new and after which the next interaction is still open. -/
structure Round (dom : Domain) (holds : Expr → (ℕ → ℕ) → Prop) (confs : List Config)
    (d : LocEntry Expr) (vd taken rest : List (LocEntry Expr)) (c : Config) : Prop where
  split : vd = taken ++ rest
  complete : c.Complete dom
  hashed : c.hashed = none
  chosen : d.Sat holds c
  covered : ∀ d' ∈ taken, ∃ c' ∈ confs ++ [c.touchHash], d'.Sat holds c'
  headOpen : HeadOpen holds rest (confs ++ [c.touchHash])

/-- **One round.** -/
theorem round_spec (draws : ℕ → ℕ) (hrange : ∀ v ∈ dom.vars, v.nValues ≤ 32768)
    (hz : z.Correct dom holds)
    {d : LocEntry Expr} {vd : List (LocEntry Expr)} {confs : List Config}
    (hvd : Usable dom holds (d :: vd)) (hconfs : ∀ c ∈ confs, c.Complete dom)
    (hopen : ∀ c ∈ confs, ¬d.Sat holds c) (u : Used) :
    ∃ taken rest e u₁ c u₂,
      cminWindow dom z draws confs (d :: vd) (z.build .ztrue) u = .ok (rest, e, u₁) ∧
      genModel dom z.toZ3 draws e u₁ = .ok (some c, u₂) ∧
      Round dom holds confs d vd taken rest c := by
  obtain ⟨c₀, hc₀, hsat₀⟩ := (hvd d (List.mem_cons_self ..)).2
  have htrue : ∀ c : Config, c.Complete dom → holds (z.build .ztrue) c.val := by
    intro c hc
    exact (hz.build .ztrue c hc).mpr (ZExpr.sat_ztrue _)
  obtain ⟨taken, rest, e, u₁, hrun, hw⟩ :=
    cminWindow_spec draws hrange hz hconfs hvd (z.build .ztrue) u
  cases taken with
  | nil => exact absurd rfl (hw.taken_ne_nil ⟨c₀, hc₀, htrue c₀ hc₀, hsat₀⟩)
  | cons d' taken =>
      have hsplit := hw.split
      rw [List.cons_append, List.cons.injEq] at hsplit
      obtain ⟨rfl, hsplit⟩ := hsplit
      obtain ⟨r, u₂, hgen, hnone, hsome⟩ :=
        genModel_spec draws hrange hz.toCorrect e u₁
      obtain ⟨c, rfl⟩ : ∃ c, r = some c := by
        obtain ⟨c, hc, he⟩ := hw.satisfiable ⟨c₀, hc₀, htrue c₀ hc₀⟩
        exact Option.ne_none_iff_exists'.mp fun h => hnone h c hc he
      obtain ⟨hc, hhash, he⟩ := hsome c rfl
      obtain ⟨hfirst, htaken⟩ := List.forall_mem_cons.mp hw.covered
      refine ⟨taken, rest, e, u₁, c, u₂, hrun, hgen, hsplit, hc, hhash, ?_, ?_, ?_⟩
      · exact hfirst.resolve_left (fun ⟨c', hc', h⟩ => hopen c' hc' h) c hc he
      · intro d' hd'
        rcases htaken d' hd' with ⟨c', hc', h⟩ | h
        · exact ⟨c', List.mem_append_left _ hc', h⟩
        · exact ⟨c.touchHash, by simp, h c hc he⟩
      · intro d' hd' c' hc'
        obtain ⟨hbefore, hnot⟩ := hw.stop d' hd'
        rcases List.mem_append.mp hc' with hc' | hc'
        · exact hbefore c' hc'
        · rw [List.mem_singleton.mp hc']
          exact fun h => hnot c hc ⟨he, h⟩

/-- **The outer loop** covers the interactions in rounds, unless two configurations have the
same hash. -/
theorem cminLoop_rounds (draws : ℕ → ℕ) (confHash : List ℤ → Hash)
    (hrange : ∀ v ∈ dom.vars, v.nValues ≤ 32768) (hz : z.Correct dom holds)
    {fuel : ℕ} {vd : List (LocEntry Expr)} {confs : List Config} (hfuel : vd.length ≤ fuel)
    (hvd : Usable dom holds vd) (hconfs : Found dom confs) (hopen : HeadOpen holds vd confs)
    (u : Used) :
    (∃ out, cminLoop dom z draws confHash fuel vd confs u = .ok out ∧ Found dom out ∧
      Rounds (LocEntry.Sat holds) vd confs out) ∨
    (cminLoop dom z draws confHash fuel vd confs u = .error .cminHash ∧
      ConfHashClash dom confHash) := by
  induction fuel generalizing vd confs u with
  | zero =>
      obtain rfl : vd = [] := List.length_eq_zero_iff.mp (Nat.le_zero.mp hfuel)
      exact .inl ⟨confs, rfl, hconfs, .done confs⟩
  | succ fuel ih =>
      cases vd with
      | nil => exact .inl ⟨confs, rfl, hconfs, .done confs⟩
      | cons d vd =>
          have hd := hopen d rfl
          obtain ⟨taken, rest, e, u₁, c, u₂, hrun, hgen, hround⟩ :=
            round_spec draws hrange hz hvd (fun c hc => (hconfs c hc).1) hd u
          obtain rfl := hround.split
          rw [List.length_cons, List.length_append] at hfuel
          have hlen : rest.length < (d :: (taken ++ rest)).length := by
            rw [List.length_cons, List.length_append]
            omega
          unfold cminLoop
          rw [hrun, ok_bind]
          dsimp only
          rw [check_pos hlen, ok_bind, hgen, ok_bind]
          dsimp only
          by_cases hnew : confHash c.hashKey ∉ confs.map fun c => confHash c.hashKey
          · rw [check_pos hnew, ok_bind]
            have hrest : Usable dom holds rest := fun d' hd' => hvd d' (by simp [hd'])
            refine (ih (by omega) hrest (hconfs.concat hround.complete hround.hashed)
              hround.headOpen u₂).imp_left ?_
            rintro ⟨out, hout, hfound, hrounds⟩
            have hchosen : d.Sat holds c.touchHash := hround.chosen
            exact ⟨out, hout, hfound, .round hd hchosen hround.covered hrounds⟩
          · rw [check_neg hnew]
            refine .inr ⟨rfl, ?_⟩
            obtain ⟨c', hc', heq⟩ := List.mem_map.mp (not_not.mp hnew)
            obtain ⟨hcomplete', hkey'⟩ := hconfs c' hc'
            have hkey : c.hashKey = c.values := by rw [Config.hashKey, hround.hashed]; rfl
            rw [hkey, hkey'] at heq
            refine ⟨c', c, hcomplete', hround.complete, fun hvalues => ?_, heq⟩
            exact hd c' hc' ((LocEntry.sat_congr hvalues).mpr hround.chosen)

/-! ## `run_analyze_cmin` -/

/-- The entry after its tree has been compiled. -/
def LocEntry.compiled (dom : Domain) (d : LocEntry Expr) : LocEntry Expr :=
  (d.compile dom).toOption.getD d

theorem LocEntry.Agrees.compiled {d : LocEntry Expr} (h : d.Agrees dom holds) :
    d.compile dom = .ok (d.compiled dom) ∧ Recompiled d (d.compiled dom) ∧
      (d.compiled dom).Decides dom holds := by
  obtain ⟨d', hrun, hd'⟩ := h.compile
  unfold LocEntry.compiled
  rw [hrun]
  exact ⟨rfl, hd'⟩

/-- The last loop passes if every location has a configuration. -/
theorem check_covered {d : LocEntry Expr} {confs : List Config} (hd : d.Decides dom holds)
    (hconfs : ∀ c ∈ confs, c.Complete dom) (hcover : ∃ c ∈ confs, d.Sat holds c) :
    (do let ok ← d.interpretAny dom confs
        check (ok = true) Abort.cminLoc) = .ok ⟨⟩ := by
  obtain ⟨b, hrun, hb⟩ := hd.interpretAny hconfs
  rw [hrun, ok_bind, check_pos (hb.mpr hcover)]

section Interactions

variable {ma : List (Name × LocEntry Expr)} {vd : List (LocEntry Expr)} {confs : List Config}

theorem Interactions.sat_iff (hma : Interactions dom holds ma) {p : Name × LocEntry Expr}
    (hp : p ∈ ma) (c : Config) : (p.2.compiled dom).Sat holds c ↔ p.2.Sat holds c :=
  (hma.agrees p hp).compiled.2.1.sat_iff c

/-- The interactions can be covered, in any order. -/
theorem Interactions.usable (hma : Interactions dom holds ma)
    (hperm : vd.Perm ((ma.map fun p => p.2.compiled dom).filter LocEntry.isFirst)) :
    Usable dom holds vd := by
  intro d hd
  obtain ⟨hd, -⟩ := List.mem_filter.mp (hperm.mem_iff.mp hd)
  obtain ⟨p, hp, rfl⟩ := List.mem_map.mp hd
  obtain ⟨c, hc, h⟩ := hma.satisfiable p hp
  exact ⟨(hma.agrees p hp).compiled.2.2, c, hc, (hma.sat_iff hp c).mpr h⟩

/-- A location is covered when the first one of its group is. -/
theorem Interactions.covered (hma : Interactions dom holds ma)
    (hperm : vd.Perm ((ma.map fun p => p.2.compiled dom).filter LocEntry.isFirst))
    (hcover : ∀ d ∈ vd, ∃ c ∈ confs, d.Sat holds c) :
    ∀ p ∈ ma, ∃ c ∈ confs, p.2.Sat holds c := by
  intro p hp
  obtain ⟨q, hq, hfirst, he⟩ := hma.first p hp
  have hqvd : q.2.compiled dom ∈ vd := by
    refine hperm.mem_iff.mpr (List.mem_filter.mpr ⟨List.mem_map_of_mem hq, ?_⟩)
    rw [(hma.agrees q hq).compiled.2.1.isFirst, hfirst]
  obtain ⟨c, hc, h⟩ := hcover _ hqvd
  have hqsat := (hma.sat_iff hq c).mp h
  unfold LocEntry.Sat at hqsat ⊢
  exact ⟨c, hc, he ▸ hqsat⟩

/-- The last loop passes when all locations are covered. -/
theorem Interactions.checked (hma : Interactions dom holds ma)
    (hcomplete : ∀ c ∈ confs, c.Complete dom) (hcover : ∀ p ∈ ma, ∃ c ∈ confs, p.2.Sat holds c) :
    (forM (ma.map fun p => p.2.compiled dom) fun (d : LocEntry Expr) => do
      let ok ← d.interpretAny dom confs
      check (ok = true) Abort.cminLoc) = .ok ⟨⟩ := by
  rw [forM_ok]
  intro d hd
  obtain ⟨p, hp, rfl⟩ := List.mem_map.mp hd
  obtain ⟨c, hc, h⟩ := hcover p hp
  exact check_covered (hma.agrees p hp).compiled.2.2 hcomplete ⟨c, hc, (hma.sat_iff hp c).mpr h⟩

theorem Interactions.length_firsts (hma : Interactions dom holds ma) :
    ((ma.map fun p => p.2.compiled dom).filter LocEntry.isFirst).length =
      (ma.filter fun p => p.2.isFirst).length := by
  rw [List.filter_map, List.length_map]
  congr 1
  exact List.filter_congr fun p hp => (hma.agrees p hp).compiled.2.1.isFirst

/-- Interactions that `read_file` accepts are covered, unless two configurations have the same
hash. -/
theorem Interactions.cover (hma : Interactions dom holds ma) (hrange : ∀ v ∈ dom.vars, v.nValues ≤ 32768)
    (hz : z.Correct dom holds) {shuffle : List (LocEntry Expr) → List (LocEntry Expr)}
    (hshuffle : ∀ l, (shuffle l).Perm l) (repeatId : ℤ) :
    (∃ confs, runAnalyzeCmin dom z draws confHash shuffle repeatId ma = .ok confs ∧
      (∀ c ∈ confs, c.Complete dom) ∧
      (∀ p ∈ ma, ∃ c ∈ confs, p.2.Sat holds c) ∧
      (confs.map Config.values).Nodup ∧
      confs.length ≤ (ma.filter fun p => p.2.isFirst).length) ∨
    (runAnalyzeCmin dom z draws confHash shuffle repeatId ma = .error .cminHash ∧
      ConfHashClash dom confHash) := by
  let ds := ma.map fun p => p.2.compiled dom
  let vd := if 0 < repeatId then shuffle (ds.filter LocEntry.isFirst) else ds.filter LocEntry.isFirst
  have hperm : vd.Perm (ds.filter LocEntry.isFirst) := by
    show List.Perm (if 0 < repeatId then _ else _) _
    split
    · exact hshuffle _
    · exact .refl _
  have hloop := cminLoop_rounds draws confHash hrange hz (Nat.le_refl vd.length)
    (hma.usable hperm) (show Found dom [] by simp [Found]) (by simp [HeadOpen]) {}
  have hrun : runAnalyzeCmin dom z draws confHash shuffle repeatId ma =
      cminLoop dom z draws confHash vd.length vd [] {} >>= fun confs =>
        (forM ds fun d => do
          let ok ← d.interpretAny dom confs
          check (ok = true) Abort.cminLoc) >>= fun _ => .ok confs := by
    unfold runAnalyzeCmin
    rw [mapM_ok fun p hp => (hma.agrees p hp).compiled.1, ok_bind]
  rcases hloop with ⟨confs, hconfs, hfound, hrounds⟩ | ⟨hfault, hclash⟩
  · left
    have hcomplete : ∀ c ∈ confs, c.Complete dom := fun c hc => (hfound c hc).1
    have hcover := hma.covered hperm hrounds.covers
    refine ⟨confs, ?_, hcomplete, hcover, ?_, ?_⟩
    · rw [hrun, hconfs, ok_bind, hma.checked hcomplete hcover, ok_bind]
    · rw [List.Nodup, List.pairwise_map]
      refine (hrounds.pairwise .nil).imp ?_
      rintro c c' ⟨d, h', h⟩ heq
      exact h ((LocEntry.sat_congr heq).mpr h')
    · have hlen := hrounds.length_le
      rwa [List.length_nil, Nat.zero_add, hperm.length_eq, hma.length_firsts] at hlen
  · right
    rw [hrun, hfault]
    exact ⟨rfl, hclash⟩

end Interactions

/-- **A small covering set.**  For options with at most 32768 values, any list of
interactions in any order, and any correct solver whose models are completed in any way: the
configurations that are found cover all interactions, they are complete and distinct, and
there are not more of them than interactions.  No `CHECK` fires, unless two configurations
have the same hash. -/
theorem runAnalyzeCmin_covers (hrange : ∀ v ∈ dom.vars, v.nValues ≤ 32768)
    (hz : z.Correct dom holds) {shuffle : List (LocEntry Expr) → List (LocEntry Expr)}
    (hshuffle : ∀ l, (shuffle l).Perm l) (repeatId : ℤ) {ma : List (Name × LocEntry Expr)}
    (hma : Interactions dom holds ma) :
    (∃ confs, runAnalyzeCmin dom z draws confHash shuffle repeatId ma = .ok confs ∧
      (∀ c ∈ confs, c.Complete dom) ∧
      (∀ p ∈ ma, ∃ c ∈ confs, p.2.Sat holds c) ∧
      (confs.map Config.values).Nodup ∧
      confs.length ≤ (ma.filter fun p => p.2.isFirst).length) ∨
    (runAnalyzeCmin dom z draws confHash shuffle repeatId ma = .error .cminHash ∧
      ConfHashClash dom confHash) :=
  hma.cover hrange hz hshuffle repeatId

end Cover

/-! ## One option -/

/-- The searching solver, with `&&`. -/
def Z3And.searching (dom : Domain) : Z3And ZExpr :=
  { Z3.searching dom with and := .and }

theorem Z3And.searching_correct (dom : Domain) :
    (Z3And.searching dom).Correct dom ZExpr.Holds where
  toCorrect := Z3.searching_correct dom
  and e f c _ := by
    unfold ZExpr.Holds searching
    rw [ZExpr.sat_and, Bool.and_eq_true]

section OneValue

variable {n k : ℕ}

/-- The tree that accepts one of `n` values. -/
def oneValue (n k : ℕ) : DTree ℕ Bool :=
  .node 0 ((List.range n).map fun i => .leaf (decide (i = k)))

/-- `d` is the interaction "the option has the value `k`", with the tree for it. -/
structure OneValue (h : 0 < n) (k : ℕ) (d : LocEntry ZExpr) : Prop where
  e : d.e = .eq 0 k
  isFirst : d.isFirst = true
  root : ∃ root, d.tree.root = some root ∧ root.Wf (.single n h) 0 ∧
    ∀ b, root.shape b = oneValue n k
  code : d.tree.interpreter = []
  made : d.tree.Made (.single n h)

theorem exists_oneValue (h : 0 < n) (k : ℕ) : ∃ d, OneValue h k d := by
  have hsh : (oneValue n k).Shaped (Domain.single n h).nValues := by
    refine .node ?_ ?_ ?_
    · rwa [Domain.nValues_single]
    · rw [Domain.nValues_single, List.length_map, List.length_range]
    · intro t ht
      obtain ⟨i, -, rfl⟩ := List.mem_map.mp ht
      exact .leaf _
  obtain ⟨tree, root, hread, hroot, hwf, hcode, hshape⟩ := CTree.deserialize_shaped hsh
  exact ⟨{ e := .eq 0 k, tree, ignored := false, isFirst := true, id := 0 }, rfl, rfl,
    ⟨root, hroot, hwf, hshape⟩, hcode, .read hread⟩

theorem nVars_single (h : 0 < n) : (Domain.single n h).nVars = 1 := rfl

theorem complete_single (h : 0 < n) {v : ℕ} (hv : v < n) :
    ({ values := [(v : ℤ)] } : Config).Complete (.single n h) := by
  refine ⟨rfl, fun var x hx => ?_⟩
  cases var with
  | zero =>
      rw [List.getElem?_cons_zero, Option.some.injEq] at hx
      rw [Domain.nValues_single]
      omega
  | succ var => simp at hx

theorem holds_eq (k : ℕ) (c : Config) : ZExpr.Holds (.eq 0 k) c.val ↔ c.val 0 = k := by
  unfold ZExpr.Holds
  rw [ZExpr.sat_eq, beq_iff_eq]

/-- The tree decides as the formula does. -/
theorem OneValue.agrees {h : 0 < n} {d : LocEntry ZExpr} (hd : OneValue h k d) :
    d.Agrees (.single n h) ZExpr.Holds := by
  obtain ⟨root, hroot, hwf, hshape⟩ := hd.root
  refine ⟨hd.made, fun c hc => ?_⟩
  obtain ⟨b, m, htest, heval⟩ := hwf.testConfig hc d.tree.defaultHit
  refine ⟨b, m, by rw [CTree.testConfig, CTree.rootNode, hroot, ok_bind, htest], ?_⟩
  have hlt : c.val 0 < n := by
    have := hc.val_lt (nVars_single h ▸ Nat.one_pos)
    rwa [Domain.nValues_single] at this
  rw [hshape, oneValue, DTree.eval_node, List.getElem?_map, List.getElem?_range hlt,
    Option.map_some, Option.bind_some, DTree.eval_leaf, Option.some.injEq] at heval
  rw [LocEntry.Sat, hd.e, holds_eq, ← heval, decide_eq_true_eq]

/-- Interactions about the values of one option are ones that `read_file` accepts. -/
theorem interactions_oneValue {h : 0 < n} {Name : Type} {ma : List (Name × LocEntry ZExpr)}
    (hma : ∀ p ∈ ma, ∃ k < n, OneValue h k p.2) : Interactions (.single n h) ZExpr.Holds ma where
  agrees p hp := by
    obtain ⟨k, -, hd⟩ := hma p hp
    exact hd.agrees
  satisfiable p hp := by
    obtain ⟨k, hk, hd⟩ := hma p hp
    refine ⟨{ values := [(k : ℤ)] }, complete_single h hk, ?_⟩
    rw [LocEntry.Sat, hd.e, holds_eq]
    rfl
  first p hp := by
    obtain ⟨k, -, hd⟩ := hma p hp
    exact ⟨p, hp, hd.isFirst, rfl⟩

theorem not_confHashClash_id (dom : Domain) : ¬ConfHashClash dom (id : List ℤ → List ℤ) := by
  rintro ⟨c, c', -, -, hne, heq⟩
  exact hne heq

/-- An interaction for either value of a switch: no configuration satisfies both. -/
theorem runAnalyzeCmin_covers_two :
    let dom := Domain.single 2 (by decide)
    ∃ off on : LocEntry ZExpr, OneValue (n := 2) (by decide) 0 off ∧
      OneValue (n := 2) (by decide) 1 on ∧
      ∃ confs, runAnalyzeCmin dom (.searching dom) (fun _ => 0) id id 0 [(0, off), (1, on)] =
          .ok confs ∧
        (∀ c ∈ confs, c.Complete dom) ∧
        (∀ p ∈ [(0, off), (1, on)], ∃ c ∈ confs, p.2.Sat ZExpr.Holds c) ∧
        (confs.map Config.values).Nodup ∧
        confs.length ≤ ([(0, off), (1, on)].filter fun p => p.2.isFirst).length := by
  obtain ⟨off, hoff⟩ := exists_oneValue (n := 2) (by decide) 0
  obtain ⟨on, hon⟩ := exists_oneValue (n := 2) (by decide) 1
  have hma : ∀ p ∈ [(0, off), (1, on)], ∃ k < 2, OneValue (n := 2) (by decide) k p.2 := by
    rw [List.forall_mem_cons, List.forall_mem_singleton]
    exact ⟨⟨0, by decide, hoff⟩, ⟨1, by decide, hon⟩⟩
  refine ⟨off, on, hoff, hon, ?_⟩
  exact (runAnalyzeCmin_covers (by decide) (Z3And.searching_correct _) List.Perm.refl 0
    (interactions_oneValue hma)).resolve_right fun h => not_confHashClash_id _ h.2

/-! ### Too many values -/

/-- `gen_model` for the last value, which is stored as a `short`. -/
theorem genModel_last (h : 0 < n) {z : Z3And ZExpr} (hz : z.Correct (.single n h) ZExpr.Holds)
    (draws : ℕ → ℕ) {e : ZExpr}
    (he : ∀ c : Config, c.Complete (.single n h) → (ZExpr.Holds e c.val ↔ c.val 0 = n - 1))
    (u : Used) :
    ∃ u', genModel (.single n h) z.toZ3 draws e u =
      .ok (some { values := [toShort ((n - 1 : ℕ) : ℤ)] }, u') := by
  have hval : ∀ v : ℕ, ({ values := [(v : ℤ)] } : Config).val 0 = v := fun _ => rfl
  unfold genModel
  cases hcheck : z.check u.nCheck [e] with
  | unsat =>
      have hc := complete_single h (show n - 1 < n by omega)
      refine absurd ?_ (hz.unsat _ _ hcheck _ hc)
      rw [List.forall_mem_singleton, he _ hc, hval]
  | unknown => exact absurd hcheck (hz.known _ _)
  | sat m =>
      -- the model must give the option its last value
      have hlast : ∀ v < n, (m 0 = none ∨ m 0 = some v) → v = n - 1 := by
        intro v hv hm
        have hc := complete_single h hv
        have hall := hz.model _ _ _ hcheck _ hc ?_ e (List.mem_singleton_self e)
        · rwa [he _ hc, hval] at hall
        · intro var hvar w hw
          obtain rfl : var = 0 := by rw [nVars_single] at hvar; omega
          rw [hval]
          rcases hm with hm | hm
          · rw [hm] at hw
            cases hw
          · rw [hm] at hw
            exact Option.some.inj hw
      have hpick : ∀ var < (Domain.single n h).nVars, ∀ rng, True →
          Meets (modelValue (.single n h) draws m var rng)
            (fun r => (r.1 < (Domain.single n h).nValues var ∧ r.1 = n - 1) ∧ True)
            fun _ => False := by
        intro var hvar rng _
        obtain rfl : var = 0 := by rw [nVars_single] at hvar; omega
        unfold modelValue
        cases hm : m 0 with
        | some w =>
            have hw := hz.inRange _ _ _ hcheck 0 (nVars_single h ▸ Nat.one_pos) w hm
            dsimp only
            rw [check_pos hw, ok_bind]
            exact ⟨⟨hw, hlast w (by rwa [Domain.nValues_single] at hw) (.inr hm)⟩, trivial⟩
        | none =>
            dsimp only
            rw [Domain.nValues_single, randBelow, if_neg (by omega)]
            have hlt := Nat.mod_lt (draws rng) h
            exact ⟨⟨hlt, hlast _ hlt (.inl hm)⟩, trivial⟩
      obtain ⟨⟨c, rng⟩, hrun, ⟨f, hf, rfl⟩, -⟩ :=
        (setEach_meets (P := fun _ v => v = n - 1) (J := fun _ _ => True) hpick
          (show (Config.new (.single n h)).values.length = (Domain.single n h).nVars from
            List.length_replicate) u.rng trivial).exists_ok
      have hf0 := (hf 0 (nVars_single h ▸ Nat.one_pos)).2
      refine ⟨{ nCheck := u.nCheck + 1, rng }, ?_⟩
      dsimp only
      rw [hrun, ok_bind]
      simp [nVars_single, hf0, Config.new]

/-- The code of the compiled tree tests the option first. -/
theorem OneValue.compile {h : 0 < n} {d : LocEntry ZExpr} (hd : OneValue h k d) :
    ∃ d', d.compile (.single n h) = .ok d' ∧ LocEntry.Recompiled d d' ∧
      ∀ (c : Config) (v : ℤ), c.get 0 = .ok v → v < 0 →
        d'.tree.interpret (.single n h) c = .error .outOfRange := by
  obtain ⟨root, hroot, hwf, hshape⟩ := hd.root
  obtain ⟨code, hbuild, hem⟩ := hwf.buildInterpreter (d := d.tree.defaultHit) []
  refine ⟨{ d with tree := { d.tree with interpreter := code } }, ?_, ⟨rfl, rfl⟩, ?_⟩
  · simp only [LocEntry.compile, CTree.buildInterpreter, hd.code, ne_eq, not_true_eq_false,
      if_false, hroot, hbuild, ok_bind]
  · intro c v hget hneg
    obtain ⟨fuel, hfuel⟩ : ∃ fuel, code.length = fuel + 1 :=
      ⟨code.length - 1, by have := hem.length; omega⟩
    have hsplit := hshape d.tree.defaultHit
    cases hwf with
    | leaf hleaf _ =>
        rw [CNode.shape_leaf hleaf, oneValue] at hsplit
        cases hsplit
    | node hleaf _ hvar _ _ _ =>
        rw [CNode.shape_node hleaf hvar, oneValue] at hsplit
        injection hsplit with hzero
        rw [hzero] at hvar
        rw [CTree.interpret, hfuel]
        exact hem.code.interpretLoop_negative hleaf hvar hget hneg fuel

/-- **More than 32768 values.**  The configuration for the last value has another one, and
the check of the locations dies at it. -/
theorem runAnalyzeCmin_single (hn : 0 < n) (hshort : toShort (n - 1 : ℕ) < 0) {z : Z3And ZExpr}
    (hz : z.Correct (.single n hn) ZExpr.Holds) {d : LocEntry ZExpr} (hd : OneValue hn (n - 1) d)
    {Hash : Type} [DecidableEq Hash] (draws : ℕ → ℕ) (confHash : List ℤ → Hash) :
    runAnalyzeCmin (.single n hn) z draws confHash id 0 [((), d)] = .error .outOfRange := by
  obtain ⟨d', hcompile, hre, hneg⟩ := hd.compile
  have hfirst : [d'].filter LocEntry.isFirst = [d'] := by
    simp [hre.isFirst, hd.isFirst]
  have he : ∀ c : Config, c.Complete (.single n hn) →
      (ZExpr.Holds (z.and (z.build .ztrue) d'.e) c.val ↔ c.val 0 = n - 1) := by
    intro c hc
    have htrue : ZExpr.Holds (z.build .ztrue) c.val :=
      (hz.build .ztrue c hc).mpr (ZExpr.sat_ztrue _)
    rw [hz.and _ _ c hc, hre.e, hd.e, holds_eq, and_iff_right htrue]
  obtain ⟨u₁, hgen₁⟩ := genModel_last hn hz draws he {}
  obtain ⟨u₂, hgen₂⟩ := genModel_last hn hz draws he u₁
  have hwindow : cminWindow (.single n hn) z draws [] [d'] (z.build .ztrue) {} =
      .ok ([], z.and (z.build .ztrue) d'.e, u₁) := by
    simp only [cminWindow, LocEntry.interpretAny, ok_bind, Bool.false_eq_true, if_false, hgen₁]
  have hloop : cminLoop (.single n hn) z draws confHash 1 [d'] [] {} =
      .ok [{ values := [toShort (n - 1 : ℕ)], hashed := some [toShort (n - 1 : ℕ)] }] := by
    rw [cminLoop, hwindow, ok_bind]
    dsimp only
    rw [check_pos (by simp), ok_bind, hgen₂, ok_bind]
    dsimp only
    rw [check_pos (by simp), ok_bind, cminLoop]
    rfl
  have hdie := hneg { values := [toShort (n - 1 : ℕ)], hashed := some [toShort (n - 1 : ℕ)] } _
    rfl hshort
  have hmap : [((), d)].mapM (fun p => p.2.compile (.single n hn)) = .ok [d'] := by
    rw [List.mapM_cons, hcompile]
    rfl
  unfold runAnalyzeCmin
  rw [hmap, ok_bind, hfirst]
  dsimp only
  rw [if_neg (by omega), List.length_singleton, hloop, ok_bind, List.forM_cons,
    LocEntry.interpretAny, hdie]
  rfl

end OneValue

/-- The smallest option that has too many values. -/
theorem runAnalyzeCmin_wide :
    let dom := Domain.single 32769 (by decide)
    (Z3And.searching dom).Correct dom ZExpr.Holds ∧
    ∃ d : LocEntry ZExpr, Interactions dom ZExpr.Holds [((), d)] ∧
      runAnalyzeCmin dom (.searching dom) (fun _ => 0) id id 0 [((), d)] = .error .outOfRange := by
  obtain ⟨d, hd⟩ := exists_oneValue (n := 32769) (by decide) 32768
  have hma : ∀ p ∈ [((), d)], ∃ k < 32769, OneValue (n := 32769) (by decide) k p.2 :=
    List.forall_mem_singleton.mpr ⟨32768, by decide, hd⟩
  exact ⟨Z3And.searching_correct _, d, interactions_oneValue hma,
    runAnalyzeCmin_single (by decide) (by decide) (Z3And.searching_correct _) hd _ _⟩

end GenTree

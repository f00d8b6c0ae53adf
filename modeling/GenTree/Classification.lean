import GenTree.Library.Boxes
import GenTree.MedianLength

/-!
# What the forms of the interactions mean

`is_pure` and `is_igen_compat` look at an expression as it is written.  For the
formulas of the program, built from atoms that compare an option with a value,
the form they find has a meaning: the configurations that satisfy a pure
conjunction are a product of sets of values, one for each option, and so are
those that do not satisfy a pure disjunction.

`ZExpr.toAst` writes a formula down as the solver's library has it.  The forms
are then read off the loops: a clause that `is_pure` lets pass compares one
option with some values (`pureClause_spec`), so it constrains one coordinate.
-/

namespace GenTree

open Outcome Boxes

/-! ## Formulas as expressions -/

namespace Domain

/-- The name of an option. -/
def varName (dom : Domain) (var : ℕ) : String := (dom.vars[var]?.map VarDomain.name).getD ""

/-- A label of an option. -/
def label (dom : Domain) (var val : ℕ) : String :=
  (dom.vars[var]?.bind fun v => v.labels[val]?).getD ""

/-- `VarDomain::zvar`. -/
def zvar (dom : Domain) (var : ℕ) : Z3Ast := .app .uninterpreted (dom.varName var) []

/-- `zvals_[val]`. -/
def zval (dom : Domain) (var val : ℕ) : Z3Ast := .app .other (dom.label var val) []

end Domain

namespace ZExpr

mutual

/-- The expression of a formula. -/
def toAst (dom : Domain) : ZExpr → Z3Ast
  | .ztrue => .app .other "true" []
  | .zfalse => .app .other "false" []
  | .eq var val => .app .eq "=" [dom.zvar var, dom.zval var val]
  | .and a b => .app .and "and" [toAst dom a, toAst dom b]
  | .or a b => .app .or "or" [toAst dom a, toAst dom b]
  | .not a => .app .other "not" [toAst dom a]
  | .mkAnd es => .app .and "and" (toAsts dom es)
  | .mkOr es => .app .or "or" (toAsts dom es)

/-- The expressions of a list of formulas. -/
def toAsts (dom : Domain) : List ZExpr → List Z3Ast
  | [] => []
  | e :: es => toAst dom e :: toAsts dom es

end

mutual

/-- The formulas over a domain: atoms compare an option with a value of its own,
and every connective has an argument. -/
def Over (dom : Domain) : ZExpr → Prop
  | .ztrue => True
  | .zfalse => True
  | .eq var val => val < dom.nValues var
  | .and a b => Over dom a ∧ Over dom b
  | .or a b => Over dom a ∧ Over dom b
  | .not a => Over dom a
  | .mkAnd es => es ≠ [] ∧ OverAll dom es
  | .mkOr es => es ≠ [] ∧ OverAll dom es

/-- All formulas of a list are over the domain. -/
def OverAll (dom : Domain) : List ZExpr → Prop
  | [] => True
  | e :: es => Over dom e ∧ OverAll dom es

end

variable {dom : Domain}

@[simp] theorem toAsts_eq (es : List ZExpr) : toAsts dom es = es.map (toAst dom) := by
  induction es with
  | nil => rfl
  | cons e es ih => rw [toAsts, ih, List.map_cons]

@[simp] theorem overAll_iff (es : List ZExpr) : OverAll dom es ↔ ∀ e ∈ es, Over dom e := by
  induction es with
  | nil => simp [OverAll]
  | cons e es ih => rw [OverAll, ih, List.forall_mem_cons]

/-- The operands of a conjunction or of a disjunction. -/
def operands : DeclKind → ZExpr → Option (List ZExpr)
  | .and, .and a b => some [a, b]
  | .and, .mkAnd es => some es
  | .or, .or a b => some [a, b]
  | .or, .mkOr es => some es
  | _, _ => none

theorem operands_and {e : ZExpr} {es : List ZExpr} :
    e.operands .and = some es ↔ (∃ a b, e = .and a b ∧ es = [a, b]) ∨ e = .mkAnd es := by
  cases e <;> simp [operands, eq_comm]

theorem operands_or {e : ZExpr} {es : List ZExpr} :
    e.operands .or = some es ↔ (∃ a b, e = .or a b ∧ es = [a, b]) ∨ e = .mkOr es := by
  cases e <;> simp [operands, eq_comm]

/-- Every formula is an application, and only an atom one of the equality. -/
theorem toAst_app (e : ZExpr) (dom : Domain) :
    ∃ kind name args, e.toAst dom = .app kind name args ∧
      (kind = .eq → ∃ var val, e = .eq var val) := by
  cases e with
  | eq var val => exact ⟨_, _, _, by rw [toAst], fun _ => ⟨var, val, rfl⟩⟩
  | _ => exact ⟨_, _, _, by rw [toAst], fun h => by cases h⟩

/-- No formula is a variable. -/
theorem toAst_ne_uninterpreted (e : ZExpr) (dom : Domain) (name : String) (args : List Z3Ast) :
    e.toAst dom ≠ .app .uninterpreted name args := by
  cases e <;> simp [toAst]

/-- Operands are written one after the other. -/
theorem operands_of_toAst {e : ZExpr} {kind : DeclKind} {name : String} {args : List Z3Ast}
    (hkind : kind = .and ∨ kind = .or) (h : e.toAst dom = .app kind name args) :
    ∃ es, e.operands kind = some es ∧ args = es.map (toAst dom) := by
  cases e <;> simp only [toAst, toAsts_eq, Z3Ast.app.injEq] at h <;>
    obtain ⟨rfl, -, rfl⟩ := h <;> simp_all [operands]

theorem over_of_operands_and {e : ZExpr} {es : List ZExpr} (he : e.Over dom)
    (h : e.operands .and = some es) : ∀ g ∈ es, g.Over dom := by
  obtain ⟨a, b, rfl, rfl⟩ | rfl := operands_and.mp h
  · simpa [Over] using he
  · rw [Over, overAll_iff] at he
    exact he.2

theorem over_of_operands_or {e : ZExpr} {es : List ZExpr} (he : e.Over dom)
    (h : e.operands .or = some es) : ∀ g ∈ es, g.Over dom := by
  obtain ⟨a, b, rfl, rfl⟩ | rfl := operands_or.mp h
  · simpa [Over] using he
  · rw [Over, overAll_iff] at he
    exact he.2

theorem ne_nil_of_operands_or {e : ZExpr} {es : List ZExpr} (he : e.Over dom)
    (h : e.operands .or = some es) : es ≠ [] := by
  obtain ⟨a, b, rfl, rfl⟩ | rfl := operands_or.mp h
  · exact List.cons_ne_nil a [b]
  · rw [Over] at he
    exact he.1

theorem sat_of_operands_and {e : ZExpr} {es : List ZExpr} (h : e.operands .and = some es)
    (a : ℕ → ℕ) : e.sat a = true ↔ ∀ g ∈ es, g.sat a = true := by
  obtain ⟨f, g, rfl, rfl⟩ | rfl := operands_and.mp h <;> simp

theorem sat_of_operands_or {e : ZExpr} {es : List ZExpr} (h : e.operands .or = some es)
    (a : ℕ → ℕ) : e.sat a = true ↔ ∃ g ∈ es, g.sat a = true := by
  obtain ⟨f, g, rfl, rfl⟩ | rfl := operands_or.mp h <;> simp

end ZExpr

/-! ## What the loops let pass -/

namespace Z3Ast

variable {dom : Domain}

/-- The variable of an option is recognised as that of this option. -/
theorem zvarOf_zvar (hnames : (dom.vars.map VarDomain.name).Nodup) {var : ℕ} (hvar : var < dom.nVars) :
    zvarOf dom (dom.zvar var) = some var := by
  unfold Domain.zvar zvarOf Domain.varName
  have hget : dom.vars[var]? = some (dom.vars.get ⟨var, hvar⟩) := List.getElem?_eq_getElem hvar
  rw [hget, List.findIdx?_eq_some_iff_getElem]
  refine ⟨hvar, beq_self_eq_true _, fun j hj => ?_⟩
  have hlt : j < dom.vars.length := Nat.lt_trans hj hvar
  intro heq
  have hsame : (dom.vars.map VarDomain.name)[j]? = (dom.vars.map VarDomain.name)[var]? := by
    simpa [List.getElem?_map, hget, List.getElem?_eq_getElem hlt] using heq
  have hidx := (List.getElem?_inj (by simpa using hlt) hnames).mp hsame
  exact absurd hidx (Nat.ne_of_lt hj)

/-- **A clause that passes** is about one option: every operand compares it with
a value, and it is the remembered option if there is one. -/
theorem pureClause_spec (hnames : (dom.vars.map VarDomain.name).Nodup) {gs : List ZExpr}
    (hgs : ∀ g ∈ gs, g.Over dom) {lastId : Option ℕ}
    (h : pureClause dom lastId (gs.map (ZExpr.toAst dom)) = .ok true) :
    ∃ id, (∀ last ∈ lastId, id = last) ∧ ∀ g ∈ gs, ∃ val, g = .eq id val := by
  induction gs generalizing lastId with
  | nil => exact ⟨lastId.getD 0, fun last hlast => by rw [hlast]; rfl, by simp⟩
  | cons g gs ih =>
    rw [List.forall_mem_cons] at hgs
    cases g with
    | eq var val =>
      have hvar : var < dom.nVars :=
        Domain.lt_nVars_of_nValues_pos (Nat.zero_lt_of_lt (by simpa [ZExpr.Over] using hgs.1))
      rw [List.map_cons, ZExpr.toAst, pureClause] at h
      obtain ⟨-, -, h⟩ := bind_eq_ok.mp h
      obtain ⟨lhs, hlhs, h⟩ := bind_eq_ok.mp h
      obtain rfl : dom.zvar var = lhs := by simpa [vecAt] using hlhs
      rw [zvarOf_zvar hnames hvar] at h
      cases lastId with
      | none =>
        obtain ⟨id, hid, hall⟩ := ih hgs.2 h
        obtain rfl := hid var rfl
        exact ⟨id, by simp, List.forall_mem_cons.mpr ⟨⟨val, rfl⟩, hall⟩⟩
      | some last =>
        dsimp only at h
        split at h
        · cases h
        · next heq =>
            obtain ⟨id, hid, hall⟩ := ih hgs.2 h
            obtain rfl := hid last rfl
            obtain rfl := not_not.mp heq
            exact ⟨id, by simp, List.forall_mem_cons.mpr ⟨⟨val, rfl⟩, hall⟩⟩
    | _ =>
      simp only [List.map_cons, ZExpr.toAst, pureClause] at h
      cases h

theorem pureClauses_cons {inner kind : DeclKind} {name : String} {args gs : List Z3Ast}
    (h : pureClauses dom inner (.app kind name args :: gs) = .ok true) :
    (kind = .eq ∨ kind = inner ∧ pureClause dom none args = .ok true) ∧
      pureClauses dom inner gs = .ok true := by
  by_cases heq : kind = .eq
  · rw [heq, pureClauses] at h
    exact ⟨.inl heq, h⟩
  · rw [pureClauses] at h
    · split at h
      · next hkind =>
          obtain ⟨ok, hok, h⟩ := bind_eq_ok.mp h
          cases ok with
          | false => cases h
          | true => exact ⟨.inr ⟨hkind, hok⟩, h⟩
      · cases h
    · exact heq

/-- The operands `is_pure` lets pass: atoms, and clauses of the inner kind. -/
theorem pureClauses_spec {inner : DeclKind} {es : List ZExpr}
    (h : pureClauses dom inner (es.map (ZExpr.toAst dom)) = .ok true) :
    ∀ e ∈ es, (∃ var val, e = .eq var val) ∨
      ∃ name args, e.toAst dom = .app inner name args ∧ pureClause dom none args = .ok true := by
  induction es with
  | nil => simp
  | cons e es ih =>
    obtain ⟨kind, name, args, happ, heq⟩ := e.toAst_app dom
    rw [List.map_cons, happ] at h
    obtain ⟨hhead, htail⟩ := pureClauses_cons h
    rw [List.forall_mem_cons]
    refine ⟨?_, ih htail⟩
    obtain hkind | ⟨hkind, hargs⟩ := hhead
    · exact .inl (heq hkind)
    · exact .inr ⟨name, args, by rw [happ, hkind], hargs⟩

/-- The operands `is_igen_compat` lets pass: atoms, and one pure disjunction. -/
theorem igenClauses_spec {es : List ZExpr} {hasOrClause : Bool}
    (h : igenClauses dom hasOrClause (es.map (ZExpr.toAst dom)) = .ok true) :
    (∀ e ∈ es, ∃ var val, e = .eq var val) ∨ hasOrClause = false ∧ ∃ pre g post,
      es = pre ++ g :: post ∧ (∀ e ∈ pre ++ post, ∃ var val, e = .eq var val) ∧
      isPure dom .or .uninterpreted (g.toAst dom) = .ok true := by
  induction es generalizing hasOrClause with
  | nil => exact .inl (by simp)
  | cons e es ih =>
    rw [List.map_cons, igenClauses] at h
    split at h
    · next heq =>
        obtain ⟨kind, name, args, happ, hatom⟩ := e.toAst_app dom
        have hkind : kind = .eq := by
          rw [happ] at heq
          cases kind <;> first | rfl | cases heq
        obtain hall | ⟨hflag, pre, g, post, rfl, hatoms, hpure⟩ := ih h
        · exact .inl (List.forall_mem_cons.mpr ⟨hatom hkind, hall⟩)
        · exact .inr ⟨hflag, e :: pre, g, post, rfl,
            List.forall_mem_cons.mpr ⟨hatom hkind, hatoms⟩, hpure⟩
    · split at h
      · cases h
      · next hcont =>
          obtain ⟨ok, hpure, h⟩ := bind_eq_ok.mp h
          cases ok with
          | false => cases h
          | true =>
            have hflag : hasOrClause = false := by
              cases hasOrClause with
              | false => rfl
              | true => exact absurd rfl hcont
            obtain hall | ⟨habs, -⟩ := ih h
            · exact .inr ⟨hflag, [], e, es, rfl, hall, hpure⟩
            · cases habs

end Z3Ast

/-! ## Products -/

/-- The configurations with the property are a **product** of sets of values, one
for each option. -/
def IsProduct (dom : Domain) (P : Config → Prop) : Prop :=
  ∃ S : ℕ → Set ℕ, ∀ c : Config, c.Complete dom → (P c ↔ ∀ var < dom.nVars, c.val var ∈ S var)

variable {dom : Domain}

/-- The options of a domain. -/
def Domain.options (dom : Domain) : Set ℕ := {var | var < dom.nVars}

/-- A box of assignments is a product of configurations. -/
theorem isProduct_of_isBox {X : Set (ℕ → ℕ)} (h : IsBox dom.options X) {P : Config → Prop}
    (hP : ∀ c : Config, P c ↔ c.val ∈ X) : IsProduct dom P := by
  obtain ⟨S, rfl⟩ := h
  exact ⟨S, fun c _ => hP c⟩

namespace ZExpr

theorem mem_options {var val : ℕ} (h : (eq var val).Over dom) : var ∈ dom.options :=
  Domain.lt_nVars_of_nValues_pos (Nat.zero_lt_of_lt (by simpa [Over] using h))

/-- An atom constrains one option. -/
theorem isBox_eq {var val : ℕ} (h : (eq var val).Over dom) :
    IsBox dom.options {a | (eq var val).sat a = true} := by
  have hset : {a : ℕ → ℕ | (eq var val).sat a = true} = {a | a var ∈ ({val} : Set ℕ)} := by
    ext a
    simp
  rw [hset]
  exact isBox_coord (mem_options h) {val}

/-- An atom that does not hold constrains one option. -/
theorem isBox_not_eq {var val : ℕ} (h : (eq var val).Over dom) :
    IsBox dom.options {a | ¬ (eq var val).sat a = true} := by
  have hset : {a : ℕ → ℕ | ¬ (eq var val).sat a = true} = {a | a var ∈ {x | x ≠ val}} := by
    ext a
    simp
  rw [hset]
  exact isBox_coord (mem_options h) _

/-- A clause that compares one option with some values constrains this option. -/
theorem isBox_clause {gs : List ZExpr} {id : ℕ} (hover : ∀ g ∈ gs, g.Over dom) (hne : gs ≠ [])
    (hgs : ∀ g ∈ gs, ∃ val, g = .eq id val) :
    IsBox dom.options {a | ∃ g ∈ gs, g.sat a = true} := by
  obtain ⟨g, hg⟩ := List.exists_mem_of_ne_nil gs hne
  obtain ⟨val, rfl⟩ := hgs g hg
  have hset : {a : ℕ → ℕ | ∃ g ∈ gs, g.sat a = true} = {a | a id ∈ {x | .eq id x ∈ gs}} := by
    ext a
    refine ⟨?_, fun h => ⟨.eq id (a id), h, by simp⟩⟩
    rintro ⟨g, hg, hsat⟩
    obtain ⟨v, rfl⟩ := hgs g hg
    have hval : a id = v := by simpa using hsat
    show ZExpr.eq id (a id) ∈ gs
    rwa [hval]
  rw [hset]
  exact isBox_coord (mem_options (hover _ hg)) _

section Forms

variable {e : ZExpr} (he : e.Over dom)
include he

/-- What a pure conjunction admits is a box. -/
theorem isBox_of_pure_and (hnames : (dom.vars.map VarDomain.name).Nodup)
    (h : (e.toAst dom).isPure dom .and .or = .ok true) :
    IsBox dom.options {a | e.sat a = true} := by
  obtain ⟨kind, name, args, happ, -⟩ := e.toAst_app dom
  rw [happ, Z3Ast.isPure] at h
  obtain ⟨_, hkind, h⟩ := bind_eq_ok.mp h
  obtain ⟨-, -, h⟩ := bind_eq_ok.mp h
  rw [check_eq_ok.mp hkind] at happ
  obtain ⟨es, hes, rfl⟩ := operands_of_toAst (.inl rfl) happ
  have hover := over_of_operands_and he hes
  have hset : {a : ℕ → ℕ | e.sat a = true} = {a | ∀ g ∈ es, a ∈ {a | g.sat a = true}} := by
    ext a
    exact sat_of_operands_and hes a
  rw [hset]
  apply isBox_forall_mem
  intro g hg
  obtain ⟨var, val, rfl⟩ | ⟨gname, gargs, hgapp, hclause⟩ := Z3Ast.pureClauses_spec h g hg
  · exact isBox_eq (hover _ hg)
  · obtain ⟨gs, hgs, rfl⟩ := operands_of_toAst (.inr rfl) hgapp
    have hgover := over_of_operands_or (hover g hg) hgs
    obtain ⟨id, -, hatoms⟩ := Z3Ast.pureClause_spec hnames hgover hclause
    have hclauseSet : {a : ℕ → ℕ | g.sat a = true} = {a | ∃ x ∈ gs, x.sat a = true} := by
      ext a
      exact sat_of_operands_or hgs a
    rw [hclauseSet]
    exact isBox_clause hgover (ne_nil_of_operands_or (hover g hg) hgs) hatoms

/-- What a pure disjunction rules out is a box. -/
theorem isBox_of_pure_or (h : (e.toAst dom).isPure dom .or .uninterpreted = .ok true) :
    IsBox dom.options {a | ¬ e.sat a = true} := by
  obtain ⟨kind, name, args, happ, -⟩ := e.toAst_app dom
  rw [happ, Z3Ast.isPure] at h
  obtain ⟨_, hkind, h⟩ := bind_eq_ok.mp h
  obtain ⟨-, -, h⟩ := bind_eq_ok.mp h
  rw [check_eq_ok.mp hkind] at happ
  obtain ⟨es, hes, rfl⟩ := operands_of_toAst (.inr rfl) happ
  have hover := over_of_operands_or he hes
  have hset : {a : ℕ → ℕ | ¬ e.sat a = true} = {a | ∀ g ∈ es, a ∈ {a | ¬ g.sat a = true}} := by
    ext a
    show ¬ e.sat a = true ↔ ∀ g ∈ es, ¬ g.sat a = true
    rw [sat_of_operands_or hes a]
    push Not
    rfl
  rw [hset]
  apply isBox_forall_mem
  intro g hg
  obtain ⟨var, val, rfl⟩ | ⟨gname, gargs, hgapp, -⟩ := Z3Ast.pureClauses_spec h g hg
  · exact isBox_not_eq (hover _ hg)
  · exact absurd hgapp (g.toAst_ne_uninterpreted dom gname gargs)

/-- What a compatible conjunction admits is a box without a box. -/
theorem boxes_of_igen_compat (h : (e.toAst dom).isIgenCompat dom = .ok true) :
    ∃ X Y, IsBox dom.options X ∧ IsBox dom.options Y ∧ {a | e.sat a = true} = X \ Y := by
  obtain ⟨kind, name, args, happ, -⟩ := e.toAst_app dom
  rw [happ] at h
  have hkind : kind = .and := by
    by_contra hne
    rw [Z3Ast.isIgenCompat] at h
    · cases h
    · intro name' args' heq
      exact hne (Z3Ast.app.inj heq).1
  rw [hkind] at happ h
  rw [Z3Ast.isIgenCompat] at h
  obtain ⟨es, hes, rfl⟩ := operands_of_toAst (.inl rfl) happ
  obtain ⟨_, hlen, h⟩ := bind_eq_ok.mp h
  have hover := over_of_operands_and he hes
  have hsat := sat_of_operands_and hes
  have hbox : ∀ l : List ZExpr, l ⊆ es → (∀ g ∈ l, ∃ var val, g = .eq var val) →
      IsBox dom.options {a | ∀ g ∈ l, a ∈ {a | g.sat a = true}} := by
    intro l hsub hatoms
    apply isBox_forall_mem
    intro g hg
    obtain ⟨var, val, rfl⟩ := hatoms g hg
    exact isBox_eq (hover _ (hsub hg))
  obtain hall | ⟨-, pre, g, post, rfl, hatoms, hpure⟩ := Z3Ast.igenClauses_spec h
  · -- nothing but atoms: nothing is taken away
    have hne : es ≠ [] := by
      rintro rfl
      simpa using check_eq_ok.mp hlen
    obtain ⟨g, hg⟩ := List.exists_mem_of_ne_nil es hne
    obtain ⟨var, val, rfl⟩ := hall g hg
    refine ⟨_, ∅, hbox es (List.Subset.refl es) hall, isBox_empty (mem_options (hover _ hg)), ?_⟩
    ext a
    simpa using hsat a
  · refine ⟨_, {a | ¬ g.sat a = true}, hbox (pre ++ post) (by simp) hatoms,
      isBox_of_pure_or (hover g (by simp)) hpure, ?_⟩
    ext a
    show e.sat a = true ↔ (∀ x ∈ pre ++ post, x.sat a = true) ∧ ¬ ¬ g.sat a = true
    rw [hsat a, not_not, List.forall_mem_append, List.forall_mem_append, List.forall_mem_cons]
    tauto

end Forms

/-- **The forms of the interactions are sound.**  The configurations that satisfy
a pure conjunction are a product, those that do not satisfy a pure disjunction
are one, and a compatible conjunction is satisfied in a product without a
product. -/
theorem forms_sound (hnames : (dom.vars.map VarDomain.name).Nodup) {e : ZExpr} (he : e.Over dom) :
    ((e.toAst dom).isPure dom .and .or = .ok true →
      IsProduct dom fun c => e.sat c.val = true) ∧
    ((e.toAst dom).isPure dom .or .uninterpreted = .ok true →
      IsProduct dom fun c => ¬ e.sat c.val = true) ∧
    ((e.toAst dom).isIgenCompat dom = .ok true →
      ∃ P Q : Config → Prop, IsProduct dom P ∧ IsProduct dom Q ∧
        ∀ c : Config, e.sat c.val = true ↔ P c ∧ ¬ Q c) := by
  refine ⟨fun h => ?_, fun h => ?_, fun h => ?_⟩
  · exact isProduct_of_isBox (isBox_of_pure_and he hnames h) fun _ => Iff.rfl
  · exact isProduct_of_isBox (isBox_of_pure_or he h) fun _ => Iff.rfl
  · obtain ⟨X, Y, hX, hY, hset⟩ := boxes_of_igen_compat he h
    refine ⟨fun c => c.val ∈ X, fun c => c.val ∈ Y, isProduct_of_isBox hX fun _ => Iff.rfl,
      isProduct_of_isBox hY fun _ => Iff.rfl, fun c => ?_⟩
    show c.val ∈ {a | e.sat a = true} ↔ c.val ∈ X \ Y
    rw [hset]

/-- Over two switches, a conjunction with a clause, a disjunction, and an atom with
a disjunction. -/
theorem forms_sound_switches :
    let dom := Domain.switches 2 (by decide)
    (IsProduct dom fun c => (mkAnd [eq 0 1, or (eq 1 0) (eq 1 1)]).sat c.val = true) ∧
      (IsProduct dom fun c => ¬ (or (eq 0 1) (eq 1 0)).sat c.val = true) ∧
      ∃ P Q : Config → Prop, IsProduct dom P ∧ IsProduct dom Q ∧
        ∀ c : Config, (and (eq 0 0) (or (eq 0 1) (eq 1 0))).sat c.val = true ↔ P c ∧ ¬ Q c := by
  intro dom
  have hnames : (dom.vars.map VarDomain.name).Nodup := by decide
  have hval : ∀ var < 2, dom.nValues var = 2 := by decide
  have h0 := hval 0 (by decide)
  have h1 := hval 1 (by decide)
  refine ⟨(forms_sound hnames ?_).1 rfl, (forms_sound hnames ?_).2.1 rfl,
    (forms_sound hnames ?_).2.2 rfl⟩ <;> simp [Over, OverAll, h0, h1]

end ZExpr

end GenTree

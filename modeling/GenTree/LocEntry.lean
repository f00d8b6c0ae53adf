import GenTree.CountModels
import GenTree.FlatCode

/-!
# What an interaction file says about a location

`LocEntry` is the entry of one location: the formula of its group and the tree it was read
with.  Only one location of each group is the first one.  Before trees are asked, their
interpreters are built.

`LocEntry.Agrees` is what `read_file` has checked of an entry.  A compiled entry then decides
whether a configuration satisfies the formula (`LocEntry.Agrees.compile`).
-/

namespace GenTree

open Outcome

/-- `Analyzer::LocData`. -/
structure LocEntry (Expr : Type) where
  e : Expr
  tree : CTree
  ignored : Bool
  isFirst : Bool
  id : ℕ

namespace LocEntry

variable {Expr : Type} {dom : Domain} {holds : Expr → (ℕ → ℕ) → Prop} {d d' : LocEntry Expr}

/-- The entry with another expression. -/
def withExpr {Expr' : Type} (d : LocEntry Expr) (e : Expr') : LocEntry Expr' where
  e := e
  tree := d.tree
  ignored := d.ignored
  isFirst := d.isFirst
  id := d.id

/-- `d.tree->build_interpreter()`. -/
def compile (dom : Domain) (d : LocEntry Expr) : Except Abort (LocEntry Expr) := do
  let tree ← d.tree.buildInterpreter dom
  .ok { d with tree }

/-- The configuration satisfies the interaction. -/
def Sat (holds : Expr → (ℕ → ℕ) → Prop) (d : LocEntry Expr) (c : Config) : Prop := holds d.e c.val

/-- The tree is one of the program's, and it agrees with the formula. -/
structure Agrees (dom : Domain) (holds : Expr → (ℕ → ℕ) → Prop) (d : LocEntry Expr) : Prop where
  made : d.tree.Made dom
  agree : ∀ c : Config, c.Complete dom → ∃ b n, d.tree.testConfig c = .ok (b, n) ∧
    (b = true ↔ d.Sat holds c)

/-- The interpreter of the tree decides the formula. -/
def Decides (dom : Domain) (holds : Expr → (ℕ → ℕ) → Prop) (d : LocEntry Expr) : Prop :=
  ∀ c : Config, c.Complete dom → ∃ b, d.tree.interpret dom c = .ok b ∧ (b = true ↔ d.Sat holds c)

/-- `d'` is `d` with another state of its tree. -/
structure Recompiled (d d' : LocEntry Expr) : Prop where
  e : d'.e = d.e
  isFirst : d'.isFirst = d.isFirst

theorem Recompiled.sat_iff (h : Recompiled d d') (c : Config) : d'.Sat holds c ↔ d.Sat holds c := by
  unfold Sat
  rw [h.e]

/-- **Compiling an entry**: its interpreter decides the formula. -/
theorem Agrees.compile (h : d.Agrees dom holds) :
    ∃ d', d.compile dom = .ok d' ∧ Recompiled d d' ∧ d'.Decides dom holds := by
  obtain ⟨tree, hbuild, hinterpret⟩ := h.made.compiled
  refine ⟨{ d with tree }, by rw [LocEntry.compile, hbuild, ok_bind], ⟨rfl, rfl⟩, fun c hc => ?_⟩
  obtain ⟨b, n, htest, hagree⟩ := h.agree c hc
  exact ⟨b, hinterpret c b n hc htest, hagree⟩

/-- The loop over the configurations that looks for one the tree accepts. -/
def interpretAny (dom : Domain) (d : LocEntry Expr) : List Config → Except Abort Bool
  | [] => .ok false
  | c :: cs => do
      let ok ← d.tree.interpret dom c
      if ok then .ok true else interpretAny dom d cs

theorem Decides.interpretAny (h : d.Decides dom holds) {cs : List Config}
    (hcs : ∀ c ∈ cs, c.Complete dom) :
    ∃ b, d.interpretAny dom cs = .ok b ∧ (b = true ↔ ∃ c ∈ cs, d.Sat holds c) := by
  induction cs with
  | nil => exact ⟨false, rfl, by simp⟩
  | cons c cs ih =>
      obtain ⟨hc, hcs⟩ := List.forall_mem_cons.mp hcs
      obtain ⟨b, hrun, hb⟩ := h c hc
      obtain ⟨b', hrest, hb'⟩ := ih hcs
      unfold LocEntry.interpretAny
      rw [hrun, ok_bind]
      cases b with
      | true => exact ⟨true, rfl, by simpa using .inl (hb.mp rfl)⟩
      | false =>
          have hno : ¬d.Sat holds c := fun hsat => by simpa using hb.mpr hsat
          refine ⟨b', by simpa using hrest, ?_⟩
          rw [hb', List.exists_mem_cons_iff, or_iff_right hno]

end LocEntry

end GenTree

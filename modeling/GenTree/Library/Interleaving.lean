import Mathlib.Algebra.BigOperators.Fin
import Mathlib.Algebra.Order.BigOperators.Group.Finset

/-!
# Interleavings

A system of threads is a function `step : σ → α → Option σ`: the label names the
thread that moves and every choice that is not its own, and `none` says that the
step cannot be taken.  A run is a list of labels.

* `run_invariant` — the rule for a property of every state reached.
* `run_length_le` — the rule for the length of runs: when every step lowers a
  measure, except for steps that raise it by at most `k`, a run is as long as the
  measure allows, and each exceptional step buys `k` more.
* `tally` — the sum of a number over all threads, and how it changes when one
  thread moves.
-/

namespace Interleaving

universe u v

variable {σ : Type u} {α : Type v}

/-- The state after a list of steps. -/
def run (step : σ → α → Option σ) : σ → List α → Option σ
  | s, [] => some s
  | s, a :: as => (step s a).bind fun t => run step t as

section Rules

variable {step : σ → α → Option σ} {s t : σ} {as bs : List α}

@[simp] theorem run_nil : run step s [] = some s := rfl

theorem run_cons_eq_some {a : α} :
    run step s (a :: as) = some t ↔ ∃ u, step s a = some u ∧ run step u as = some t := by
  simp [run, Option.bind_eq_some_iff]

theorem run_append_eq_some :
    run step s (as ++ bs) = some t ↔ ∃ u, run step s as = some u ∧ run step u bs = some t := by
  induction as generalizing s with
  | nil => simp
  | cons a as ih =>
    rw [List.cons_append, run_cons_eq_some]
    constructor
    · rintro ⟨u, hstep, hrun⟩
      obtain ⟨v, hv, ht⟩ := ih.mp hrun
      exact ⟨v, run_cons_eq_some.mpr ⟨u, hstep, hv⟩, ht⟩
    · rintro ⟨v, hv, ht⟩
      obtain ⟨u, hstep, hrun⟩ := run_cons_eq_some.mp hv
      exact ⟨u, hstep, ih.mpr ⟨v, hrun, ht⟩⟩

/-- A property that every step keeps holds after every run. -/
theorem run_invariant {P : σ → Prop} (hstep : ∀ s a t, P s → step s a = some t → P t)
    (h : run step s as = some t) (hs : P s) : P t := by
  induction as generalizing s with
  | nil =>
    cases h
    exact hs
  | cons a as ih =>
    obtain ⟨u, hu, hrun⟩ := run_cons_eq_some.mp h
    exact ih hrun (hstep s a u hs hu)

/-- **Runs are short.**  Every step lowers the measure, except for those of a kind that
raises it by at most `k`. -/
theorem run_length_le {μ : σ → ℕ} {free : α → Bool} {k : ℕ}
    (hdown : ∀ s a t, step s a = some t → free a = false → μ t < μ s)
    (hfree : ∀ s a t, step s a = some t → free a = true → μ t ≤ μ s + k)
    (h : run step s as = some t) : as.length + μ t ≤ μ s + (k + 1) * as.countP free := by
  induction as generalizing s with
  | nil =>
    cases h
    simp
  | cons a as ih =>
    obtain ⟨u, hu, hrun⟩ := run_cons_eq_some.mp h
    have hrest := ih hrun
    rw [List.length_cons, List.countP_cons]
    cases ha : free a with
    | true =>
      have hup := hfree s a u hu ha
      simp only [if_true, Nat.mul_add]
      omega
    | false =>
      have hlt := hdown s a u hu ha
      simp only [Bool.false_eq_true, if_false, Nat.add_zero]
      omega

end Rules

/-! ## Sums over the threads -/

section Tally

variable {ι : Type u} {β : Type v} [Fintype ι]

/-- The sum of `f` over what the threads are doing. -/
def tally (f : β → ℕ) (w : ι → β) : ℕ := ∑ t, f (w t)

/-- One thread moves, and what is added up for it may depend on the thread. -/
theorem sum_update [DecidableEq ι] (f : ι → β → ℕ) (w : ι → β) (t : ι) (v : β) :
    (∑ x, f x (Function.update w t v x)) + f t (w t) = (∑ x, f x (w x)) + f t v := by
  have hrest : ∀ x ∈ Finset.univ.erase t, f x (Function.update w t v x) = f x (w x) := by
    intro x hx
    rw [Function.update_of_ne (Finset.ne_of_mem_erase hx)]
  rw [← Finset.add_sum_erase _ _ (Finset.mem_univ t), Finset.sum_congr rfl hrest,
    Function.update_self,
    ← Finset.add_sum_erase Finset.univ (fun x => f x (w x)) (Finset.mem_univ t)]
  omega

/-- One thread moves. -/
theorem tally_update [DecidableEq ι] (f : β → ℕ) (w : ι → β) (t : ι) (v : β) :
    tally f (Function.update w t v) + f (w t) = tally f w + f v :=
  sum_update (fun _ => f) w t v

variable {f : β → ℕ} {w : ι → β}

/-- One thread moves, and what is counted does not change. -/
theorem tally_update_of_eq [DecidableEq ι] {t : ι} {v : β} (h : f (w t) = f v) :
    tally f (Function.update w t v) = tally f w := by
  have hmove := tally_update f w t v
  omega

theorem tally_eq_zero_iff : tally f w = 0 ↔ ∀ t, f (w t) = 0 := by
  simp [tally]

theorem le_tally (t : ι) : f (w t) ≤ tally f w :=
  Finset.single_le_sum (f := fun t => f (w t)) (fun _ _ => Nat.zero_le _) (Finset.mem_univ t)

theorem tally_congr {w' : ι → β} (h : ∀ t, f (w' t) = f (w t)) : tally f w' = tally f w :=
  Finset.sum_congr rfl fun t _ => h t

end Tally

end Interleaving

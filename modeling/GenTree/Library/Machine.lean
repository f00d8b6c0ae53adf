import GenTree.Library.Outcome

/-!
# Machines that may stop with a fault

A machine is a function `step : σ → Except ε σ`.  `Reach step guard s t` says
that a run from `s` comes to `t` by successful steps, each taken from a state that
meets `guard`; the guard `fun _ => True` gives all runs, and a stronger one gives
"the runs whose steps all meet a condition".

* `Reach.invariant` — the rule for a property of every state reached.
* `Reach.rel` — the rule for a relation between an earlier and a later state.
* `Halts` — a run comes to a stop label or dies, and `Halts.of_measure`, the rule
  for it: a measure that every step makes smaller.
* `runFor` — the machine run for a number of steps that meet the guard, which
  evaluates, and `Reach.of_runFor`, which turns such an evaluation into a run.
-/

namespace Machine

open Outcome

universe u v

variable {ε : Type u} {σ : Type v} {step : σ → Except ε σ} {guard : σ → Prop}

/-- The states a run from `s` reaches. -/
inductive Reach (step : σ → Except ε σ) (guard : σ → Prop) (s : σ) : σ → Prop
  | refl : Reach step guard s s
  | tail {t t' : σ} (run : Reach step guard s t) (ok : guard t) (next : step t = .ok t') :
      Reach step guard s t'

namespace Reach

variable {s t u : σ}

theorem trans (h : Reach step guard s t) (h' : Reach step guard t u) :
    Reach step guard s u := by
  induction h' with
  | refl => exact h
  | tail _ hok hnext ih => exact ih.tail hok hnext

theorem head (hok : guard s) (hnext : step s = .ok t) (h : Reach step guard t u) :
    Reach step guard s u :=
  (Reach.refl.tail hok hnext).trans h

/-- **Invariants.**  What holds at the start and is kept by every step from a
state that meets the guard holds in every state reached. -/
theorem invariant (I : σ → Prop) {E : ε → Prop}
    (keep : ∀ x, I x → guard x → Meets (step x) I E)
    (h : Reach step guard s t) (init : I s) : I t := by
  induction h with
  | refl => exact init
  | tail _ hok hnext ih => exact (keep _ ih hok).of_eq_ok hnext

/-- **Relations along a run.**  A reflexive and transitive relation that holds
across every step from a state with the invariant `I` holds between the two ends
of a run. -/
theorem rel (R : σ → σ → Prop) (I : σ → Prop) {E : ε → Prop} (refl : ∀ x, R x x)
    (trans : ∀ x y z, R x y → R y z → R x z)
    (keep : ∀ x, I x → guard x → Meets (step x) (fun y => I y ∧ R x y) E)
    (h : Reach step guard s t) (init : I s) : I t ∧ R s t := by
  refine h.invariant (E := E) (fun x => I x ∧ R s x) (fun x hx hok => ?_) ⟨init, refl s⟩
  exact (keep x hx.1 hok).imp fun y hy => ⟨hy.1, trans s x y hx.2 hy.2⟩

end Reach

/-! ## Machines that halt -/

/-- The run from `s` **halts**: after some number of steps the machine is in a state
where it is to stop, or it dies. -/
def Halts (step : σ → Except ε σ) (stop : σ → Prop) (s : σ) : Prop :=
  ∃ t, Reach step (fun x => ¬ stop x) s t ∧ (stop t ∨ ∃ e, step t = .error e)

theorem Halts.head {stop : σ → Prop} {s s' : σ} (hstop : ¬ stop s) (hnext : step s = .ok s')
    (h : Halts step stop s') : Halts step stop s := by
  obtain ⟨t, hreach, hend⟩ := h
  exact ⟨t, .head hstop hnext hreach, hend⟩

/-- **Halting by a measure.**  A machine halts when every step from a state with the
invariant `I` keeps the invariant and makes a measure smaller. -/
theorem Halts.of_measure {μ : Type*} [WellFoundedRelation μ] {stop : σ → Prop} (I : σ → Prop)
    (measure : σ → μ)
    (keep : ∀ x, I x → ¬ stop x → Meets (step x)
      (fun y => I y ∧ WellFoundedRelation.rel (measure y) (measure x)) fun _ => True)
    {s : σ} (init : I s) : Halts step stop s := by
  have hwf : WellFounded fun y x : σ => WellFoundedRelation.rel (measure y) (measure x) :=
    InvImage.wf measure WellFoundedRelation.wf
  induction s using hwf.induction with
  | _ s ih =>
      by_cases hstop : stop s
      · exact ⟨s, .refl, .inl hstop⟩
      · cases hstep : step s with
        | error e => exact ⟨s, .refl, .inr ⟨e, hstep⟩⟩
        | ok s' =>
            obtain ⟨hI, hless⟩ := (keep s init hstop).of_eq_ok hstep
            exact .head hstop hstep (ih s' hless hI)

/-- **Arriving by a measure.**  A machine whose steps succeed and make a measure smaller, as
long as it is not to stop, comes to a state where it is to stop. -/
theorem Reach.arrives {μ : Type*} [WellFoundedRelation μ] {stop : σ → Prop} (I : σ → Prop)
    (m : σ → μ) (next : ∀ x, I x → ¬ stop x →
      ∃ y, step x = .ok y ∧ I y ∧ WellFoundedRelation.rel (m y) (m x))
    {s : σ} (init : I s) : ∃ t, Reach step (fun _ => True) s t ∧ I t ∧ stop t := by
  have hwf : WellFounded fun y x : σ => WellFoundedRelation.rel (m y) (m x) :=
    InvImage.wf m WellFoundedRelation.wf
  induction s using hwf.induction with
  | _ s ih =>
      by_cases hstop : stop s
      · exact ⟨s, .refl, init, hstop⟩
      · obtain ⟨y, hstep, hI, hless⟩ := next s init hstop
        obtain ⟨t, hreach, ht⟩ := ih y hless hI
        exact ⟨t, .head trivial hstep hreach, ht⟩

section Run

variable (step : σ → Except ε σ) (guard : σ → Prop) [DecidablePred guard]

/-- The machine run for `n` steps, as long as it does not stop and the guard is
met. -/
def runFor : ℕ → σ → Option σ
  | 0, s => some s
  | n + 1, s => if guard s then (step s).toOption.bind (runFor n) else none

variable {step guard}

/-- A run that evaluates reaches its last state. -/
theorem Reach.of_runFor {n : ℕ} {s t : σ} (h : runFor step guard n s = some t) :
    Reach step guard s t := by
  induction n generalizing s with
  | zero =>
      cases h
      exact .refl
  | succ n ih =>
      rw [runFor] at h
      split at h
      · next hok =>
          cases hstep : step s with
          | error e =>
              rw [hstep] at h
              cases h
          | ok s' =>
              rw [hstep] at h
              exact .head hok hstep (ih h)
      · cases h

end Run

end Machine

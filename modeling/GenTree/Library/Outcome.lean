import Mathlib.Logic.Basic
import Mathlib.Data.List.Basic

/-!
# Outcomes of fallible computations

A computation in `Except ε` either delivers a value or stops with a fault.  Its
specification therefore has two halves: what holds of a delivered value, and
which faults are permitted.  `Meets x Q E` states both at once, so that "the
assertion never fires" and "the invariant is kept" are proved by one pass over
the code.

* `meets_bind`, `meets_check_bind` — the two rules every straight-line body is
  taken apart with.
* `meets_foldlM` — the loop rule.  Its invariant is indexed by the prefix of the
  list that has been consumed, which is what a loop that builds up a relation
  between "seen so far" and its accumulator needs.
* `bind_eq_ok` and `check_eq_ok` — inversion, for facts about a run that is
  already known to have succeeded.
-/

namespace Outcome

universe u v

variable {ε : Type u} {α β : Type v}

/-- `x` **meets** the postcondition `Q` up to the faults `E`: a delivered value
satisfies `Q`, and a fault that stops `x` is one that `E` permits. -/
def Meets (x : Except ε α) (Q : α → Prop) (E : ε → Prop) : Prop :=
  match x with
  | .ok a => Q a
  | .error e => E e

/-- A run-time assertion: go on when `p` holds, stop with the fault `e` when it
does not. -/
def check (p : Prop) [Decidable p] (e : ε) : Except ε PUnit.{v + 1} :=
  if p then .ok ⟨⟩ else .error e

section Rules

variable {Q R : α → Prop} {E F : ε → Prop}

@[simp] theorem meets_ok {a : α} : Meets (.ok a : Except ε α) Q E ↔ Q a := Iff.rfl

@[simp] theorem meets_error {e : ε} : Meets (.error e : Except ε α) Q E ↔ E e := Iff.rfl

@[simp] theorem meets_pure {a : α} : Meets (pure a : Except ε α) Q E ↔ Q a := Iff.rfl

@[simp] theorem meets_throw {e : ε} : Meets (throw e : Except ε α) Q E ↔ E e := Iff.rfl

theorem Meets.mono {x : Except ε α} (h : Meets x Q E) (hQ : ∀ a, Q a → R a)
    (hE : ∀ e, E e → F e) : Meets x R F := by
  cases x with
  | error e => exact hE e h
  | ok a => exact hQ a h

theorem Meets.imp {x : Except ε α} (h : Meets x Q E) (hQ : ∀ a, Q a → R a) :
    Meets x R E := h.mono hQ fun _ he => he

/-- Two postconditions of one computation hold together. -/
theorem Meets.and {x : Except ε α} (h : Meets x Q E) (h' : Meets x R E) :
    Meets x (fun a => Q a ∧ R a) E := by
  cases x with
  | error e => exact h
  | ok a => exact ⟨h, h'⟩

/-- Reading a specification at a run that delivered `a`. -/
theorem Meets.of_eq_ok {x : Except ε α} (h : Meets x Q E) {a : α} (hx : x = .ok a) :
    Q a := by
  rw [hx] at h
  exact h

/-- Reading a specification at a run that stopped with `e`. -/
theorem Meets.of_eq_error {x : Except ε α} (h : Meets x Q E) {e : ε}
    (hx : x = .error e) : E e := by
  rw [hx] at h
  exact h

/-- A computation without permitted faults delivers a value. -/
theorem Meets.exists_ok {x : Except ε α} (h : Meets x Q fun _ => False) :
    ∃ a, x = .ok a ∧ Q a := by
  cases x with
  | error e => exact absurd h id
  | ok a => exact ⟨a, rfl, h⟩

/-- A postcondition that only speaks of delivered values. -/
theorem meets_iff_forall_ok {x : Except ε α} :
    Meets x Q (fun _ => True) ↔ ∀ a, x = .ok a → Q a := by
  cases x with
  | error e => simp
  | ok a => simp

end Rules

section Bind

variable {Q : α → Prop} {R : β → Prop} {E : ε → Prop}

/-- Sequencing: the postcondition of the first half is the precondition of the
second. -/
theorem meets_bind {x : Except ε α} {f : α → Except ε β} (h : Meets x Q E)
    (hf : ∀ a, Q a → Meets (f a) R E) : Meets (x >>= f) R E := by
  cases x with
  | error e => exact h
  | ok a => exact hf a h

/-- Sequencing after a first half of which nothing is known but its value. -/
theorem meets_bind_of_eq {x : Except ε α} {f : α → Except ε β}
    (hx : ∀ e, x = .error e → E e) (hf : ∀ a, x = .ok a → Meets (f a) R E) :
    Meets (x >>= f) R E := by
  cases x with
  | error e => exact hx e rfl
  | ok a => exact hf a rfl

theorem meets_check_bind {p : Prop} [Decidable p] {e : ε} {f : PUnit → Except ε β}
    (hf : p → Meets (f ⟨⟩) R E) (he : ¬ p → E e) : Meets (check p e >>= f) R E := by
  unfold check
  split
  · exact hf ‹_›
  · exact he ‹_›

/-- An assertion that is known to hold is no step at all. -/
@[simp] theorem check_pos {p : Prop} [Decidable p] (hp : p) (e : ε) :
    (check p e : Except ε PUnit.{v + 1}) = .ok ⟨⟩ := if_pos hp

theorem check_neg {p : Prop} [Decidable p] (hp : ¬ p) (e : ε) :
    (check p e : Except ε PUnit.{v + 1}) = .error e := if_neg hp

@[simp] theorem check_eq_ok {p : Prop} [Decidable p] {e : ε} {a : PUnit.{v + 1}} :
    check p e = .ok a ↔ p := by
  unfold check
  split <;> simp_all

@[simp] theorem ok_bind (a : α) (f : α → Except ε β) : (.ok a >>= f) = f a := rfl

@[simp] theorem error_bind (e : ε) (f : α → Except ε β) :
    ((.error e : Except ε α) >>= f) = .error e := rfl

/-- A sequence that succeeds has a first half that succeeds. -/
theorem bind_eq_ok {x : Except ε α} {f : α → Except ε β} {b : β} :
    (x >>= f) = .ok b ↔ ∃ a, x = .ok a ∧ f a = .ok b := by
  cases x with
  | error e => simp
  | ok a => simp

end Bind

section Loop

variable {σ : Type v} {γ : Type*} {E : ε → Prop}

/-- **The loop rule.**  An invariant `I done s` of the consumed prefix and the
accumulator that every pass of the body extends holds of the whole list when
the loop ends. -/
theorem meets_foldlM {body : σ → γ → Except ε σ} (I : List γ → σ → Prop) (xs : List γ)
    (step : ∀ done x rest s, xs = done ++ x :: rest → I done s →
      Meets (body s x) (I (done ++ [x])) E)
    {s : σ} (init : I [] s) : Meets (xs.foldlM body s) (I xs) E := by
  suffices h : ∀ rest done s, xs = done ++ rest → I done s →
      Meets (rest.foldlM body s) (I xs) E from h xs [] s rfl init
  intro rest
  induction rest with
  | nil =>
      intro done s hxs hI
      rw [List.append_nil] at hxs
      subst hxs
      exact hI
  | cons x rest ih =>
      intro done s hxs hI
      rw [List.foldlM_cons]
      refine meets_bind (step done x rest s hxs hI) fun s' hs' => ?_
      exact ih (done ++ [x]) s' (by simpa using hxs) hs'

/-- The loop rule for an invariant that does not look at the consumed prefix. -/
theorem meets_foldlM_const {body : σ → γ → Except ε σ} (I : σ → Prop) (xs : List γ)
    (step : ∀ x ∈ xs, ∀ s, I s → Meets (body s x) I E) {s : σ} (init : I s) :
    Meets (xs.foldlM body s) I E :=
  meets_foldlM (fun _ => I) xs
    (fun done x rest s hxs hI => step x (by rw [hxs]; simp) s hI) init

/-- A map whose calls all deliver. -/
theorem mapM_ok {α : Type*} {f : α → Except ε β} {g : α → β} {xs : List α}
    (h : ∀ x ∈ xs, f x = .ok (g x)) : xs.mapM f = .ok (xs.map g) := by
  induction xs with
  | nil => rfl
  | cons x xs ih =>
      obtain ⟨hx, hxs⟩ := List.forall_mem_cons.mp h
      rw [List.mapM_cons, hx, ok_bind, ih hxs]
      rfl

/-- A map whose calls all deliver something. -/
theorem mapM_exists {α : Type*} {f : α → Except ε β} {xs : List α}
    (h : ∀ x ∈ xs, ∃ y, f x = .ok y) : ∃ ys, xs.mapM f = .ok ys := by
  induction xs with
  | nil => exact ⟨[], rfl⟩
  | cons x xs ih =>
      obtain ⟨⟨y, hy⟩, hxs⟩ := List.forall_mem_cons.mp h
      obtain ⟨ys, hys⟩ := ih hxs
      refine ⟨y :: ys, ?_⟩
      rw [List.mapM_cons, hy, ok_bind, hys]
      rfl

/-- What a map that delivers has delivered. -/
theorem forall₂_of_mapM {α : Type*} {f : α → Except ε β} {xs : List α} {ys : List β}
    (h : xs.mapM f = .ok ys) : List.Forall₂ (fun x y => f x = .ok y) xs ys := by
  induction xs generalizing ys with
  | nil =>
      obtain rfl := Except.ok.inj h
      exact .nil
  | cons x xs ih =>
      rw [List.mapM_cons] at h
      obtain ⟨y, hy, h⟩ := bind_eq_ok.mp h
      obtain ⟨ys', hys, h⟩ := bind_eq_ok.mp h
      obtain rfl := Except.ok.inj h
      exact .cons hy (ih hys)

/-- A loop whose calls all deliver. -/
theorem forM_ok {α : Type*} {f : α → Except ε PUnit.{v + 1}} {xs : List α}
    (h : ∀ x ∈ xs, f x = .ok ⟨⟩) : forM xs f = .ok ⟨⟩ := by
  induction xs with
  | nil => rfl
  | cons x xs ih =>
      obtain ⟨hx, hxs⟩ := List.forall_mem_cons.mp h
      rw [List.forM_cons, hx, ok_bind]
      exact ih hxs

end Loop

end Outcome

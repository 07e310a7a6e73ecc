import Mathlib.Data.Nat.Notation
import Mathlib.Logic.Function.Basic

/-!
# Runs of a transition system

A step may be refused.  A run is a list of actions that are all accepted, one
after the other.  Restricting a system to the steps that meet a condition gives
the runs in which every step meets it.
-/

namespace Transition

variable {σ α : Type*}

/-- The state after some actions, unless one of them is refused. -/
def run (step : σ → α → Option σ) : σ → List α → Option σ
  | s, [] => some s
  | s, a :: actions => (step s a).bind fun t => run step t actions

theorem run_append (step : σ → α → Option σ) (s : σ) (xs ys : List α) :
    run step s (xs ++ ys) = (run step s xs).bind fun t => run step t ys := by
  induction xs generalizing s with
  | nil => rfl
  | cons a xs ih =>
      rw [List.cons_append, run, run, Option.bind_assoc]
      exact congrArg (step s a).bind (funext fun t => ih t)

/-- The steps that meet a condition. -/
def restrict (step : σ → α → Option σ) (allowed : σ → α → Bool) (s : σ)
    (a : α) : Option σ :=
  if allowed s a then step s a else none

theorem restrict_eq_some {step : σ → α → Option σ} {allowed : σ → α → Bool}
    {s t : σ} {a : α} (h : restrict step allowed s a = some t) :
    allowed s a = true ∧ step s a = some t := by
  unfold restrict at h
  split at h
  · exact ⟨‹_›, h⟩
  · cases h

theorem run_invariant {step : σ → α → Option σ} {Inv : σ → Prop}
    (hstep : ∀ s a t, Inv s → step s a = some t → Inv t) {s t : σ}
    {actions : List α} (hs : Inv s) (hrun : run step s actions = some t) :
    Inv t := by
  induction actions generalizing s with
  | nil =>
      rw [← Option.some.inj hrun]
      exact hs
  | cons a actions ih =>
      obtain ⟨u, hu, hrest⟩ := Option.bind_eq_some_iff.mp hrun
      exact ih (hstep s a u hs hu) hrest

/-- If some steps make a measure smaller and no step makes it larger, a run has
no more of those steps than the measure allows. -/
theorem run_countP_le {step : σ → α → Option σ} {Inv : σ → Prop}
    {measure : σ → ℕ} {counts : α → Bool}
    (hinv : ∀ s a t, Inv s → step s a = some t → Inv t)
    (hstep : ∀ s a t, Inv s → step s a = some t →
      measure t + (if counts a then 1 else 0) ≤ measure s) {s t : σ}
    {actions : List α} (hs : Inv s) (hrun : run step s actions = some t) :
    measure t + actions.countP counts ≤ measure s := by
  induction actions generalizing s with
  | nil =>
      rw [← Option.some.inj hrun]
      exact Nat.le_refl _
  | cons a actions ih =>
      obtain ⟨u, hu, hrest⟩ := Option.bind_eq_some_iff.mp hrun
      have hbound := ih (hinv s a u hs hu) hrest
      have hone := hstep s a u hs hu
      rw [List.countP_cons]
      omega

end Transition

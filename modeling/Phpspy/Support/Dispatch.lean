import Mathlib.Data.List.Nodup
import Mathlib.Logic.Function.Basic

/-!
# Handing out keyed jobs

Jobs wait on a stack and are handed out to workers.  A job is pushed only if
its key is neither waiting nor being worked on.  Each push has a ticket of its
own, and the board remembers which tickets it has handed out.
-/

namespace Dispatch

variable {ω κ : Type*}

structure Job (κ : Type*) where
  key : κ
  ticket : ℕ

structure Board (ω κ : Type*) where
  pending : List (Job κ)
  running : ω → Option κ
  issued : ℕ
  taken : List ℕ

namespace Board

def Holds (b : Board ω κ) (k : κ) : Prop :=
  (∃ j ∈ b.pending, j.key = k) ∨ ∃ w, b.running w = some k

def push (b : Board ω κ) (k : κ) : Board ω κ :=
  { b with
    pending := ⟨k, b.issued⟩ :: b.pending
    issued := b.issued + 1 }

def pop [DecidableEq ω] (b : Board ω κ) (w : ω) : Board ω κ :=
  match b.pending with
  | [] => b
  | j :: pending =>
      { b with
        pending := pending
        running := Function.update b.running w (some j.key)
        taken := j.ticket :: b.taken }

def finish [DecidableEq ω] (b : Board ω κ) (w : ω) : Board ω κ :=
  { b with running := Function.update b.running w none }

/-- No key is held twice, and no ticket is handed out twice. -/
structure Valid (b : Board ω κ) : Prop where
  keys : (b.pending.map Job.key).Nodup
  apart : ∀ j ∈ b.pending, ∀ w, b.running w ≠ some j.key
  workers : ∀ w w' k, b.running w = some k → b.running w' = some k → w = w'
  tickets : (b.pending.map Job.ticket ++ b.taken).Nodup
  issued : ∀ t ∈ b.pending.map Job.ticket ++ b.taken, t < b.issued

theorem Valid.push {b : Board ω κ} (h : b.Valid) {k : κ}
    (hk : ¬ b.Holds k) : (b.push k).Valid where
  keys := by
    refine List.nodup_cons.mpr ⟨fun hmem => ?_, h.keys⟩
    obtain ⟨j, hj, hkey⟩ := List.mem_map.mp hmem
    exact hk (Or.inl ⟨j, hj, hkey⟩)
  apart := by
    intro j hj w hw
    rcases List.mem_cons.mp hj with rfl | hj
    · exact hk (Or.inr ⟨w, hw⟩)
    · exact h.apart j hj w hw
  workers := h.workers
  tickets := by
    refine List.nodup_cons.mpr ⟨fun hmem => ?_, h.tickets⟩
    exact Nat.lt_irrefl _ (h.issued _ hmem)
  issued := by
    intro t ht
    rcases List.mem_cons.mp ht with rfl | ht
    · exact Nat.lt_succ_self _
    · exact Nat.lt_succ_of_lt (h.issued t ht)

variable [DecidableEq ω]

theorem pop_eq {b : Board ω κ} {j : Job κ} {pending : List (Job κ)}
    (h : b.pending = j :: pending) (w : ω) :
    b.pop w =
      { pending := pending
        running := Function.update b.running w (some j.key)
        issued := b.issued
        taken := j.ticket :: b.taken } := by
  simp only [pop, h]

theorem Valid.pop {b : Board ω κ} (h : b.Valid) (w : ω) :
    (b.pop w).Valid := by
  rcases hpending : b.pending with _ | ⟨j, pending⟩
  · rw [Board.pop, hpending]
    exact h
  · have hmem : ∀ j' ∈ pending, j' ∈ b.pending := fun j' hj' => by
      rw [hpending]
      exact List.mem_cons_of_mem j hj'
    have hfree : ∀ w', b.running w' ≠ some j.key :=
      h.apart j (by rw [hpending]; exact List.mem_cons_self)
    have hkeys := h.keys
    rw [hpending, List.map_cons, List.nodup_cons] at hkeys
    have hperm : (pending.map Job.ticket ++ j.ticket :: b.taken).Perm
        (b.pending.map Job.ticket ++ b.taken) := by
      rw [hpending]
      exact List.perm_middle
    rw [pop_eq hpending]
    refine ⟨hkeys.2, fun j' hj' w' hw' => ?_, fun w₁ w₂ k h₁ h₂ => ?_,
      hperm.nodup_iff.mpr h.tickets,
      fun t ht => h.issued t (hperm.mem_iff.mp ht)⟩
    · simp only [Function.update_apply] at hj' hw'
      split at hw'
      · have hkey : j'.key = j.key := (Option.some.inj hw').symm
        exact hkeys.1 (List.mem_map.mpr ⟨j', hj', hkey⟩)
      · exact h.apart j' (hmem j' hj') w' hw'
    · simp only [Function.update_apply] at h₁ h₂
      split at h₁
      · split at h₂
        · exact ‹w₁ = w›.trans ‹w₂ = w›.symm
        · exact absurd (h₂.trans h₁.symm) (hfree w₂)
      · split at h₂
        · exact absurd (h₁.trans h₂.symm) (hfree w₁)
        · exact h.workers w₁ w₂ k h₁ h₂

theorem running_of_finish {b : Board ω κ} {w w' : ω} {k : κ}
    (h : (b.finish w).running w' = some k) : b.running w' = some k := by
  change Function.update b.running w none w' = some k at h
  rw [Function.update_apply] at h
  split at h
  · cases h
  · exact h

theorem Valid.finish {b : Board ω κ} (h : b.Valid) (w : ω) :
    (b.finish w).Valid where
  keys := h.keys
  apart := fun j hj w' hw' => h.apart j hj w' (running_of_finish hw')
  workers := fun w₁ w₂ k h₁ h₂ =>
    h.workers w₁ w₂ k (running_of_finish h₁) (running_of_finish h₂)
  tickets := h.tickets
  issued := h.issued

end Board

end Dispatch

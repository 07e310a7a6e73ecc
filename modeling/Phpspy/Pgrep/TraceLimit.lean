import Mathlib.Algebra.BigOperators.Fin
import Mathlib.Algebra.Order.BigOperators.Group.Finset
import Phpspy.Pgrep.System

/-!
# The trace limit in pgrep mode

A worker that sees the limit reached leaves `main_pid`, and writing to the pipe
makes the signal thread set `done` some time later.  Until then the worker may
take another pid and count another trace.  If no worker takes a pid once the
limit is reached, each worker counts at most one more trace.
-/

namespace Phpspy

namespace Pgrep

open Transition

variable {T : ℕ}

/-- The places from which a worker can come to count a trace without taking
another pid. -/
def WorkerPc.mayCount : WorkerPc → Bool
  | .start => true
  | .checkAuto => true
  | .detect => true
  | .select _ => true
  | .loop => true
  | .trace => true
  | .count => true
  | _ => false

/-- A worker takes a pid only while the limit is not reached. -/
def takesBelowLimit (cfg : Config) (s : State T) : Action T → Bool
  | .worker w _ =>
      (s.workers w).pc ≠ .take || decide (s.traceCount < cfg.traceLimit)
  | _ => true

/-- Once the limit is reached, no plain step leads back to counting. -/
theorem Goes.mayCount {cfg : Config} {s : State T} {pc pc' : WorkerPc}
    (h : Goes cfg s pc pc') (hreached : cfg.traceLimit ≤ s.traceCount)
    (hpc' : pc'.mayCount = true) : pc.mayCount = true := by
  cases h with
  | below hbelow => exact absurd hreached (Nat.not_le.mpr hbelow)
  | _ => first | rfl | cases hpc'

/-! ## Counting at most once more -/

/-- The limit is reached, and each worker has counted what it had counted at
some point in time, or one trace more and no other to come. -/
structure Bounded (cfg : Config) (base : Fin T → ℕ) (s : State T) : Prop where
  reached : cfg.traceLimit ≤ s.traceCount
  once : ∀ w, s.counted w = base w ∨
    s.counted w = base w + 1 ∧ (s.workers w).pc.mayCount = false

theorem Bounded.start {cfg : Config} {s : State T}
    (hreached : cfg.traceLimit ≤ s.traceCount) :
    Bounded cfg s.counted s where
  reached := hreached
  once := fun _ => Or.inl rfl

theorem Bounded.counted_le {cfg : Config} {base : Fin T → ℕ} {s : State T}
    (h : Bounded cfg base s) (w : Fin T) : s.counted w ≤ base w + 1 := by
  rcases h.once w with heq | ⟨heq, -⟩
  · rw [heq]
    exact Nat.le_succ _
  · exact heq.le

theorem Bounded.congr {cfg : Config} {base : Fin T → ℕ} {s t : State T}
    (h : Bounded cfg base s) (hcount : t.traceCount = s.traceCount)
    (hcounted : t.counted = s.counted)
    (hpc : ∀ w, (t.workers w).pc.mayCount = true →
      (s.workers w).pc.mayCount = true) : Bounded cfg base t where
  reached := hcount ▸ h.reached
  once := by
    intro w
    rw [hcounted]
    refine (h.once w).imp_right fun hmore => ⟨hmore.1, ?_⟩
    by_contra hmay
    have hs := hpc w (Bool.eq_true_of_not_eq_false hmay)
    exact Bool.false_ne_true (hmore.2.symm.trans hs)

theorem Bounded.setPc {cfg : Config} {base : Fin T → ℕ} {s t : State T}
    {w : Fin T} {pc : WorkerPc} (h : Bounded cfg base s)
    (hworkers : t.workers = (s.setPc w pc).workers)
    (hcount : t.traceCount = s.traceCount)
    (hcounted : t.counted = s.counted)
    (hpc : pc.mayCount = true → (s.workers w).pc.mayCount = true) :
    Bounded cfg base t := by
  refine h.congr hcount hcounted fun w' hw' => ?_
  rw [hworkers, State.setPc_pc] at hw'
  split at hw'
  · rw [‹w' = w›]
    exact hpc hw'
  · exact hw'

theorem WorkerMove.bounded {cfg : Config} {base : Fin T → ℕ}
    {s t : State T} {w : Fin T} (hmove : WorkerMove cfg s w t)
    (h : Bounded cfg base s) (htake : (s.workers w).pc ≠ .take) :
    Bounded cfg base t := by
  cases hmove with
  | goto hgoes =>
      exact h.setPc rfl rfl rfl (hgoes.mayCount h.reached)
  | acquire hpc hfree => exact h.setPc rfl rfl rfl nofun
  | release hpc =>
      rcases hpc with ⟨-, rfl⟩ | ⟨-, rfl⟩
      · exact h.setPc rfl rfl rfl nofun
      · exact h.setPc rfl rfl rfl nofun
  | take hpc => exact absurd hpc htake
  | detect hpc => exact h.setPc rfl rfl rfl fun _ => by rw [hpc]; rfl
  | select hpc hphpv => exact h.setPc rfl rfl rfl fun _ => by rw [hpc]; rfl
  | trace hpc => exact h.setPc rfl rfl rfl fun _ => by rw [hpc]; rfl
  | leave hpc => exact h.setPc rfl rfl rfl nofun
  | clear hpc => exact h.setPc rfl rfl rfl nofun
  | count hpc =>
      refine ⟨Nat.le_succ_of_le h.reached, fun w' => ?_⟩
      simp only [State.setPc_pc, Function.update_apply]
      split
      · rename_i hw
        subst hw
        have hmay : (s.workers w').pc.mayCount = true := by
          rw [hpc]
          rfl
        rcases h.once w' with heq | ⟨-, hnot⟩
        · exact Or.inr ⟨by rw [heq], rfl⟩
        · exact absurd (hnot.symm.trans hmay) Bool.false_ne_true
      · exact h.once w'

theorem step_bounded {cfg : Config} {base : Fin T → ℕ} (s : State T)
    (a : Action T) (t : State T) (h : Bounded cfg base s)
    (hstep : restrict (step cfg) (takesBelowLimit cfg) s a = some t) :
    Bounded cfg base t := by
  obtain ⟨hallowed, hstep⟩ := restrict_eq_some hstep
  cases step_move hstep with
  | @worker w outcome _ hmove =>
      refine hmove.bounded h fun htake => ?_
      simp only [takesBelowLimit, htake, ne_eq, not_true_eq_false,
        decide_false, Bool.false_or, decide_eq_true_eq] at hallowed
      exact Nat.not_le.mpr hallowed h.reached
  | producer hmove =>
      cases hmove with
      | goto hgoes => exact h.congr rfl rfl fun _ => id
      | acquire hpc hfree => exact h.congr rfl rfl fun _ => id
      | release hpc => exact h.congr rfl rfl fun _ => id
      | insert hpc hline hpid hroom hfresh => exact h.congr rfl rfl fun _ => id
  | signaler hdone => exact h.congr rfl rfl fun _ => id

/-! ## Runs -/

theorem Move.counts {cfg : Config} {s t : State T} {a : Action T}
    (h : Move cfg s a t) :
    t.traceCount = s.traceCount ∧ t.counted = s.counted ∨
      ∃ w, t.traceCount = s.traceCount + 1 ∧
        t.counted = Function.update s.counted w (s.counted w + 1) := by
  cases h with
  | @worker w outcome _ hmove =>
      cases hmove with
      | count hpc => exact Or.inr ⟨w, rfl, rfl⟩
      | _ => exact Or.inl ⟨rfl, rfl⟩
  | producer hmove =>
      cases hmove with
      | _ => exact Or.inl ⟨rfl, rfl⟩
  | signaler hdone => exact Or.inl ⟨rfl, rfl⟩

theorem step_sum_counted {cfg : Config} {s t : State T} {a : Action T}
    (h : s.traceCount = ∑ w, s.counted w) (hstep : step cfg s a = some t) :
    t.traceCount = ∑ w, t.counted w := by
  rcases (step_move hstep).counts with ⟨hcount, hcounted⟩ |
    ⟨w, hcount, hcounted⟩
  · rw [hcount, hcounted, h]
  · have hsum := Finset.sum_update_of_mem (Finset.mem_univ w)
      s.counted (s.counted w + 1)
    have hrest := Finset.sum_eq_add_sum_sdiff_singleton_of_mem
      (Finset.mem_univ w) s.counted
    rw [hcount, hcounted, hsum, h, hrest]
    omega

/-- The limit is not reached yet, or each worker counts at most once more than
when it was. -/
structure Limited (cfg : Config) (s : State T) : Prop where
  sum : s.traceCount = ∑ w, s.counted w
  bounded : s.traceCount < cfg.traceLimit ∨
    ∃ base : Fin T → ℕ, ∑ w, base w = cfg.traceLimit ∧ Bounded cfg base s

theorem Limited.initial (cfg : Config) :
    Limited cfg (initial : State T) := by
  refine ⟨(Finset.sum_const_zero).symm, ?_⟩
  rcases Nat.eq_zero_or_pos cfg.traceLimit with hzero | hpos
  · have hreached : cfg.traceLimit ≤ (Pgrep.initial : State T).traceCount :=
      hzero.le
    refine Or.inr ⟨fun _ => 0, ?_, Bounded.start hreached⟩
    rw [hzero]
    exact Finset.sum_const_zero
  · exact Or.inl hpos

theorem step_limited (cfg : Config) (s : State T) (a : Action T)
    (t : State T) (h : Limited cfg s)
    (hstep : restrict (step cfg) (takesBelowLimit cfg) s a = some t) :
    Limited cfg t := by
  have hsum := step_sum_counted h.sum (restrict_eq_some hstep).2
  refine ⟨hsum, ?_⟩
  rcases h.bounded with hbelow | ⟨base, hbase, hbounded⟩
  · rcases lt_or_ge t.traceCount cfg.traceLimit with hlt | hge
    · exact Or.inl hlt
    · have heq : t.traceCount = cfg.traceLimit := by
        rcases (step_move (restrict_eq_some hstep).2).counts with hsame |
          ⟨w, hmore, -⟩
        · omega
        · omega
      exact Or.inr ⟨t.counted, hsum.symm.trans heq, Bounded.start hge⟩
  · exact Or.inr ⟨base, hbase, step_bounded s a t hbounded hstep⟩

theorem Limited.traceCount_le {cfg : Config} {s : State T}
    (h : Limited cfg s) : s.traceCount ≤ cfg.traceLimit + T := by
  rcases h.bounded with hbelow | ⟨base, hbase, hbounded⟩
  · exact (Nat.le_of_lt hbelow).trans (Nat.le_add_right _ T)
  · calc
      s.traceCount = ∑ w, s.counted w := h.sum
      _ ≤ ∑ w, (base w + 1) :=
        Finset.sum_le_sum fun w _ => hbounded.counted_le w
      _ = cfg.traceLimit + T := by
        rw [Finset.sum_add_distrib, hbase, Finset.sum_const,
          Finset.card_univ, Fintype.card_fin, smul_eq_mul, mul_one]

/-- In every run in which no worker takes a pid once the limit is reached, each
worker counts at most one trace after that, so the total is at most the limit
and one for each worker. -/
theorem run_traceCount_le (cfg : Config) (actions : List (Action T))
    (t : State T)
    (hrun : run (restrict (step cfg) (takesBelowLimit cfg)) initial actions =
      some t) :
    t.traceCount ≤ cfg.traceLimit + T ∧
      ∀ before after s, actions = before ++ after →
        run (restrict (step cfg) (takesBelowLimit cfg)) initial before =
          some s →
        s.traceCount = cfg.traceLimit →
        ∀ w, t.counted w ≤ s.counted w + 1 := by
  constructor
  · exact (run_invariant (step_limited cfg) (Limited.initial cfg)
      hrun).traceCount_le
  · intro before after s hactions hbefore hreached
    have hafter : run (restrict (step cfg) (takesBelowLimit cfg)) s after =
        some t := by
      rw [hactions, run_append, hbefore] at hrun
      exact hrun
    exact (run_invariant step_bounded (Bounded.start hreached.ge)
      hafter).counted_le

/-! ## One worker, one trace too many -/

def limitOne : Config where
  traceLimit := 1
  version := fun _ => .v70

/-- The run meets the condition until the limit is reached. -/
theorem run_traceCount_le_limitOne :
    ∃ t : State 1,
      run (restrict (step limitOne) (takesBelowLimit limitOne)) initial
          (.signaler :: producePid 7 ++ work 15) = some t ∧
        t.traceCount = 1 ∧ t.traceCount ≤ 1 + 1 := by
  have heval : (run (restrict (step limitOne) (takesBelowLimit limitOne))
      initial (.signaler :: producePid 7 ++ work 15)).map
        State.traceCount = some 1 := by
    decide
  obtain ⟨t, hrun, hcount⟩ := Option.map_eq_some_iff.mp heval
  exact ⟨t, hrun, hcount, (run_traceCount_le limitOne _ t hrun).1⟩

/-- With one worker and a limit of one, three traces are counted before the
signal thread has had a chance to run. -/
theorem limitOne_counts_three :
    (run (step limitOne) initial
      (.signaler :: producePid 7 ++ work 15 ++ producePid 8 ++
        work 14 ++ producePid 9 ++ work 14)).map
      (fun s : State 1 => (s.traceCount, s.counted 0)) = some (3, 3) := by
  decide

end Pgrep

end Phpspy

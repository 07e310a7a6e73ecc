import Phpspy.Pgrep.WorkQueue

/-!
# What a turn is good for

`wait_for_turn` returns zero with the mutex.  A worker then finds a pid.  The
producer also gets its turn if there is a pid, so it may find no room for
another one.  Whether it does is decided when it takes the mutex, since nobody
else changes the count while it has the mutex.
-/

namespace Phpspy

namespace Pgrep

open Transition

variable {T : ℕ}

/-- The producer has taken the mutex in `wait_for_turn` and has not returned. -/
def inTurn (s : State T) (_ : Action T) : Bool :=
  match s.producer with
  | .turn => true
  | .passed => true
  | _ => false

theorem critical_of_inTurn {s : State T} {a : Action T}
    (h : inTurn s a = true) : s.producer.critical = true := by
  unfold inTurn at h
  split at h
  next hpc => rw [hpc]; rfl
  next hpc => rw [hpc]; rfl
  next => cases h

theorem WorkerMove.availPidsCount {cfg : Config} {s t : State T} {w : Fin T}
    (hmove : WorkerMove cfg s w t) (h : Consistent s)
    (hproducer : s.producer.critical = true) :
    t.queue.availPidsCount = s.queue.availPidsCount := by
  cases hmove with
  | take hpc =>
      have hworker : (s.workers w).pc.critical = true := by
        rw [hpc]
        rfl
      rw [(h.alone hworker).2] at hproducer
      cases hproducer
  | goto hgoes => rfl
  | acquire hpc hfree => rfl
  | release hpc => rfl
  | detect hpc => rfl
  | select hpc hphpv => rfl
  | trace hpc => rfl
  | count hpc => rfl
  | leave hpc => rfl
  | clear hpc => rfl

theorem ProducerMove.availPidsCount {s t : State T} {line : Line}
    (hmove : ProducerMove s line t) {a : Action T}
    (hturn : inTurn s a = true) :
    t.queue.availPidsCount = s.queue.availPidsCount := by
  cases hmove with
  | insert hpc hline hpid hroom hfresh =>
      rw [inTurn, hpc] at hturn
      cases hturn
  | goto hgoes => rfl
  | acquire hpc hfree => rfl
  | release hpc => rfl

/-- What stays as it is while the producer is in its turn. -/
structure TurnKeeps (count : ℤ) (s : State T) : Prop where
  consistent : Consistent s
  availPidsCount : s.queue.availPidsCount = count

theorem step_turnKeeps {cfg : Config} {count : ℤ} (s : State T)
    (a : Action T) (t : State T) (h : TurnKeeps count s)
    (hstep : restrict (step cfg) inTurn s a = some t) :
    TurnKeeps count t := by
  obtain ⟨hturn, hstep⟩ := restrict_eq_some hstep
  refine ⟨step_consistent cfg s a t h.consistent hstep, ?_⟩
  rw [← h.availPidsCount]
  cases step_move hstep with
  | worker hmove =>
      exact hmove.availPidsCount h.consistent (critical_of_inTurn hturn)
  | producer hmove => exact hmove.availPidsCount hturn
  | signaler hdone => rfl

/-- A worker for which `wait_for_turn` returns zero has the mutex and finds a
pid.  The producer has the mutex, and finds room exactly if there was room when
it took the mutex. -/
theorem run_waitForTurn_progress (cfg : Config) (actions : List (Action T))
    (s : State T) (hrun : run (step cfg) initial actions = some s) :
    (∀ w outcome t, (s.workers w).pc = .passed →
        step cfg s (.worker w outcome) = some t →
        (t.workers w).pc = .take →
        t.mutex = some (.worker w) ∧ 0 < t.queue.availPidsCount) ∧
      (s.producer = .turn →
        ∀ during t, run (restrict (step cfg) inTurn) s during = some t →
          t.producer = .scan 0 →
          (t.mutex = some .producer ∧ t.queue.availPidsCount < T ↔
            s.queue.availPidsCount < T)) := by
  have h := run_consistent hrun
  constructor
  · intro w outcome t _ hstep htake
    have ht := step_consistent cfg s _ t h hstep
    exact ⟨ht.worker_holds w (by rw [htake]; rfl), ht.mayTake w htake⟩
  · intro _ during t hduring hscan
    have ht := run_invariant step_turnKeeps ⟨h, rfl⟩ hduring
    have hmutex : t.mutex = some .producer :=
      ht.consistent.producer_holds (by rw [hscan]; rfl)
    rw [ht.availPidsCount]
    exact and_iff_right hmutex

/-- The first turn of the producer, with an empty queue. -/
theorem run_waitForTurn_progress_first :
    ∃ s t : State 1,
      run (step unlimited) initial
          [.producer .eof, .producer .eof] = some s ∧
        run (restrict (step unlimited) inTurn) s
          [.worker 0 .ok, .producer .eof, .producer .eof] = some t ∧
        t.mutex = some .producer ∧ t.queue.availPidsCount < (1 : ℕ) := by
  have heval : ((run (step unlimited) (initial : State 1)
      [.producer .eof, .producer .eof]).bind fun s =>
        (run (restrict (step unlimited) inTurn) s
          [.worker 0 .ok, .producer .eof, .producer .eof]).map fun t =>
            (s.producer, s.queue.availPidsCount, t.producer)) =
      some (.turn, 0, .scan 0) := by
    decide
  obtain ⟨s, hrun, hs⟩ := Option.bind_eq_some_iff.mp heval
  obtain ⟨t, hduring, ht⟩ := Option.map_eq_some_iff.mp hs
  obtain ⟨hturn, hcount, hscan⟩ : s.producer = .turn ∧
      s.queue.availPidsCount = 0 ∧ t.producer = .scan 0 := by
    simpa only [Prod.mk.injEq] using ht
  have hroom : s.queue.availPidsCount < (1 : ℕ) := by
    rw [hcount]
    decide
  exact ⟨s, t, hrun, hduring,
    ((run_waitForTurn_progress unlimited _ s hrun).2 hturn _ t hduring
      hscan).mpr hroom⟩

/-- With one worker that has not run yet the producer fills the queue and gets
its turn again. -/
theorem fullQueue_turn :
    (run (step unlimited) initial
      (producePid 7 ++ [.producer .eof, .producer .eof, .producer .eof,
        .producer .eof])).map
      (fun s : State 1 => (s.producer, s.mutex, s.queue.availPidsCount)) =
        some (.scan 0, some .producer, 1) := by
  decide

end Pgrep

end Phpspy

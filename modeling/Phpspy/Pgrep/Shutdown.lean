import Mathlib.Algebra.BigOperators.Fin
import Mathlib.Algebra.Order.BigOperators.Group.Finset
import Phpspy.Pgrep.Sound

/-!
# No thread is stuck, and all of them end

A thread of pgrep mode waits only for the mutex, and whoever has the mutex can
go on.  Once `done` is set, every step brings the thread that takes it closer to
its end, so the threads that `main_pgrep` joins do end.  A signal that finds the
pipe is not lost on the way.
-/

namespace Phpspy

namespace Pgrep

open Transition

variable {T : ℕ}

/-! ## No thread is stuck -/

def State.ended (s : State T) : Thread T → Bool
  | .producer => s.producer = .exited
  | .worker w => (s.workers w).pc = .exited
  | .signaler => s.signaler = .exited

def Action.isOf (thread : Thread T) : Action T → Bool
  | .worker w _ => thread = .worker w
  | .producer _ => thread = .producer
  | .signaler => thread = .signaler
  | .signal => false

def CanStep (cfg : Config) (s : State T) (thread : Thread T) : Prop :=
  ∃ a t, a.isOf thread = true ∧ step cfg s a = some t

theorem workerStep_isSome (cfg : Config) {s : State T} {w : Fin T}
    (hfree : (s.workers w).pc = .wait → s.mutex = none)
    (hended : (s.workers w).pc ≠ .exited) :
    ∃ t, workerStep cfg s w .ok = some t := by
  rw [← Option.isSome_iff_exists]
  unfold workerStep
  split
  next hpc => rfl
  next hpc =>
    rw [if_pos (hfree hpc)]
    rfl
  next hpc => split <;> rfl
  next hpc => split <;> rfl
  next hpc => rfl
  next hpc => rfl
  next hpc => rfl
  next hpc => rfl
  next hpc => rfl
  next hpc => split <;> rfl
  next hpc => rfl
  next hpc => rfl
  next hpc => rfl
  next hpc => rfl
  next hpc => rfl
  next hpc => rfl
  next hpc => exact absurd hpc hended

theorem producerStep_isSome {s : State T}
    (hfree : s.producer = .wait ∨ s.producer = .sleep → s.mutex = none)
    (hended : s.producer ≠ .exited) : ∃ t, producerStep s .eof = some t := by
  rw [← Option.isSome_iff_exists]
  unfold producerStep
  split
  next hpc => rfl
  next hpc =>
    rw [if_pos (hfree (Or.inl hpc))]
    rfl
  next hpc => split <;> rfl
  next hpc => split <;> rfl
  next hpc => rfl
  next hpc =>
    rw [if_pos (hfree (Or.inr hpc))]
    rfl
  next hpc => exact absurd hpc hended

theorem signalerStep_isSome {s : State T}
    (hfree : s.signaler = .wake → s.mutex = none)
    (hselect : s.signaler = .select → s.donePipe = some true)
    (hended : s.signaler ≠ .exited) : ∃ t, signalerStep s = some t := by
  rw [← Option.isSome_iff_exists]
  unfold signalerStep
  split
  next hpc => rfl
  next hpc =>
    rw [if_pos (hselect hpc)]
    rfl
  next hpc =>
    rw [if_pos (hfree hpc)]
    rfl
  next hpc => exact absurd hpc hended

theorem canStep_of_critical {cfg : Config} {s : State T} {thread : Thread T}
    (h : s.critical thread = true) : CanStep cfg s thread := by
  rcases thread with _ | w | _
  · have hcritical : s.producer.critical = true := h
    obtain ⟨t, ht⟩ : ∃ t, producerStep s .eof = some t := by
      apply producerStep_isSome
      · rintro (hpc | hpc)
        · simp [hpc, ProducerPc.critical] at hcritical
        · simp [hpc, ProducerPc.critical] at hcritical
      · intro hpc
        simp [hpc, ProducerPc.critical] at hcritical
    exact ⟨.producer .eof, t, by simp [Action.isOf], ht⟩
  · have hcritical : (s.workers w).pc.critical = true := h
    obtain ⟨t, ht⟩ : ∃ t, workerStep cfg s w .ok = some t := by
      apply workerStep_isSome
      · intro hpc
        simp [hpc, WorkerPc.critical] at hcritical
      · intro hpc
        simp [hpc, WorkerPc.critical] at hcritical
    exact ⟨.worker w .ok, t, by simp [Action.isOf], ht⟩
  · cases h

theorem canStep_of_free {cfg : Config} {s : State T} {thread : Thread T}
    (hfree : s.mutex = none) (hended : s.ended thread = false)
    (hselect : thread = .signaler → s.signaler = .select →
      s.donePipe = some true) : CanStep cfg s thread := by
  rcases thread with _ | w | _
  · obtain ⟨t, ht⟩ := producerStep_isSome (fun _ => hfree)
      (of_decide_eq_false hended)
    exact ⟨.producer .eof, t, by simp [Action.isOf], ht⟩
  · obtain ⟨t, ht⟩ := workerStep_isSome cfg (fun _ => hfree)
      (of_decide_eq_false hended)
    exact ⟨.worker w .ok, t, by simp [Action.isOf], ht⟩
  · obtain ⟨t, ht⟩ := signalerStep_isSome (fun _ => hfree) (hselect rfl)
      (of_decide_eq_false hended)
    exact ⟨.signaler, t, by simp [Action.isOf], ht⟩

/-- No thread is stuck.  A thread that has not ended can take a step, or it
waits for another one that has the mutex and can take a step; only the signal
thread also waits for something in the pipe.  Workers and the producer end only
after `done` is set. -/
theorem run_canStep (cfg : Config) (actions : List (Action T)) (s : State T)
    (hrun : run (step cfg) initial actions = some s) (thread : Thread T) :
    (s.ended thread = true → s.done = true) ∧
      (s.ended thread = false →
        CanStep cfg s thread ∨
          (∃ holder, holder ≠ thread ∧ s.mutex = some holder ∧
            CanStep cfg s holder) ∨
          thread = .signaler ∧ s.signaler = .select ∧
            s.donePipe = some false) := by
  have hs := run_sound hrun
  constructor
  · rcases thread with _ | w | _
    · exact fun h => hs.producer_exited (of_decide_eq_true h)
    · exact fun h => hs.worker_exited w (of_decide_eq_true h)
    · intro h
      rw [← hs.past, of_decide_eq_true h]
      rfl
  · intro hended
    cases hmutex : s.mutex with
    | some holder =>
        have hholder : CanStep cfg s holder :=
          canStep_of_critical (hs.holder holder hmutex)
        by_cases hsame : holder = thread
        · rw [hsame] at hholder
          exact Or.inl hholder
        · exact Or.inr (Or.inl ⟨holder, hsame, rfl, hholder⟩)
    | none =>
        by_cases hwaits : thread = .signaler ∧ s.signaler = .select ∧
            s.donePipe = some false
        · exact Or.inr (Or.inr hwaits)
        · refine Or.inl (canStep_of_free hmutex hended fun hthread hpc => ?_)
          have hpipe : s.donePipe ≠ none := by
            apply hs.pipe
            rw [hpc]
            decide
          obtain ⟨b, hb⟩ := Option.ne_none_iff_exists'.mp hpipe
          cases b with
          | false => exact absurd ⟨hthread, hpc, hb⟩ hwaits
          | true => exact hb

/-- A worker that waits while the producer has the mutex. -/
theorem run_canStep_waiting :
    ∃ s : State 1,
      run (step unlimited) initial
          [.worker 0 .ok, .producer .eof, .producer .eof] = some s ∧
        s.ended (.worker 0) = false ∧
        (CanStep unlimited s (.worker 0) ∨
          (∃ holder, holder ≠ .worker 0 ∧ s.mutex = some holder ∧
            CanStep unlimited s holder) ∨
          (.worker 0 : Thread 1) = .signaler ∧ s.signaler = .select ∧
            s.donePipe = some false) := by
  have heval : (run (step unlimited) (initial : State 1)
      [.worker 0 .ok, .producer .eof, .producer .eof]).map
        (fun s => s.ended (.worker 0)) = some false := by
    decide
  obtain ⟨s, hrun, hended⟩ := Option.map_eq_some_iff.mp heval
  exact ⟨s, hrun, hended,
    (run_canStep unlimited _ s hrun (.worker 0)).2 hended⟩

/-! ## All threads end -/

/-- How many steps a worker takes at most until it ends, once `done` is set. -/
def WorkerPc.remaining : WorkerPc → ℕ
  | .exited => 0
  | .top => 1
  | .passed => 1
  | .turn => 2
  | .wait => 3
  | .clear => 2
  | .leave => 3
  | .loop => 4
  | .check => 5
  | .count => 6
  | .trace => 7
  | .select rest => rest.length + 5
  | .detect => PhpVersion.all.length + 6
  | .checkAuto => PhpVersion.all.length + 7
  | .start => PhpVersion.all.length + 8
  | .take => PhpVersion.all.length + 9

theorem afterTrace_remaining (cfg : Config) (outcome : Outcome) :
    (afterTrace cfg outcome).remaining < WorkerPc.trace.remaining := by
  unfold afterTrace
  split
  · decide
  · decide
  · split <;> decide

theorem workerStep_remaining {cfg : Config} {s t : State T} {w : Fin T}
    {outcome : Outcome} (hdone : s.done = true)
    (h : workerStep cfg s w outcome = some t) :
    (t.workers w).pc.remaining < (s.workers w).pc.remaining := by
  have hset (pc : WorkerPc) {t' : State T} (ht : some t' = some t)
      (hworkers : t'.workers = (s.setPc w pc).workers)
      (hlt : pc.remaining < (s.workers w).pc.remaining) :
      (t.workers w).pc.remaining < (s.workers w).pc.remaining := by
    rw [← Option.some.inj ht, hworkers, State.setPc_pc, if_pos rfl]
    exact hlt
  unfold workerStep at h
  split at h
  next hpc =>
    refine hset _ h rfl ?_
    rw [hpc, if_pos hdone]
    decide
  next hpc =>
    split at h
    · refine hset .turn h rfl ?_
      rw [hpc]
      decide
    · cases h
  next hpc =>
    rw [if_pos (Or.inl hdone)] at h
    refine hset _ h rfl ?_
    rw [hpc]
    decide
  next hpc =>
    rw [if_pos hdone] at h
    refine hset .exited h rfl ?_
    rw [hpc]
    decide
  next hpc =>
    rw [← Option.some.inj h, hpc]
    simp only [Function.update_self]
    decide
  next hpc =>
    refine hset _ h rfl ?_
    rw [hpc]
    split <;> decide
  next hpc =>
    refine hset _ h rfl ?_
    rw [hpc]
    split <;> decide
  next hpc =>
    rw [hpc] at hset ⊢
    split at h
    · exact hset (.select PhpVersion.all) h rfl (by decide)
    · exact hset _ h rfl (by decide)
  next hpc =>
    refine hset _ h rfl ?_
    rw [hpc]
    decide
  next v rest hpc =>
    rw [hpc] at hset ⊢
    split at h
    · refine hset .loop h rfl ?_
      simp [WorkerPc.remaining]
    · refine hset _ h rfl ?_
      simp [WorkerPc.remaining]
  next hpc =>
    refine hset _ h rfl ?_
    rw [hpc, if_pos hdone]
    decide
  next hpc =>
    refine hset (afterTrace cfg outcome) h rfl ?_
    rw [hpc]
    exact afterTrace_remaining cfg outcome
  next hpc =>
    refine hset .check h rfl ?_
    rw [hpc]
    decide
  next hpc =>
    refine hset _ h rfl ?_
    rw [hpc]
    split <;> decide
  next hpc =>
    refine hset .clear h rfl ?_
    rw [hpc]
    decide
  next hpc =>
    refine hset .top h rfl ?_
    rw [hpc]
    decide
  next hpc => cases h

/-- How many steps the producer takes at most until it ends, once `done` is
set, apart from the pids that it still reads. -/
def ProducerPc.remaining : ProducerPc → ℕ
  | .exited => 0
  | .top => 1
  | .passed => 1
  | .turn => 2
  | .sleep => 2
  | .wait => 3
  | .scan _ => 3

theorem producerStep_remaining {s t : State T} {line : Line}
    (hdone : s.done = true) (h : producerStep s line = some t) :
    t.producer.remaining + (if line = .eof then 1 else 0) ≤
      s.producer.remaining := by
  have hset (pc : ProducerPc) {t' : State T} (ht : some t' = some t)
      (hproducer : t'.producer = pc)
      (hlt : pc.remaining < s.producer.remaining) :
      t.producer.remaining + (if line = .eof then 1 else 0) ≤
        s.producer.remaining := by
    rw [← Option.some.inj ht, hproducer]
    split
    · exact hlt
    · exact hlt.le
  unfold producerStep at h
  split at h
  next hpc =>
    rw [if_pos hdone] at h
    refine hset .exited h rfl ?_
    rw [hpc]
    decide
  next hpc =>
    split at h
    · refine hset .turn h rfl ?_
      rw [hpc]
      decide
    · cases h
  next hpc =>
    rw [if_pos (Or.inl hdone)] at h
    refine hset .passed h rfl ?_
    rw [hpc]
    decide
  next hpc =>
    rw [if_pos hdone] at h
    refine hset .exited h rfl ?_
    rw [hpc]
    decide
  next found hpc =>
    split at h
    · refine hset _ h rfl ?_
      rw [hpc]
      split <;> simp [ProducerPc.remaining]
    · next pid =>
        rw [if_neg (by simp)]
        split at h
        · split at h
          · rw [← Option.some.inj h]
            exact le_rfl
          · rw [← Option.some.inj h, hpc]
            exact le_rfl
        · cases h
  next hpc =>
    split at h
    · refine hset .top h rfl ?_
      rw [hpc]
      decide
    · cases h
  next hpc => cases h


/-- What is left for the signal thread, once `done` is set. -/
def SignalerPc.remaining : SignalerPc → ℕ
  | .exited => 0
  | _ => 1

/-- How many steps are left at most, once `done` is set. -/
def State.remaining (s : State T) : ℕ :=
  (∑ w, (s.workers w).pc.remaining) + s.producer.remaining +
    s.signaler.remaining

theorem WorkerPc.Selects.remaining_le {pc : WorkerPc} (h : pc.Selects) :
    pc.remaining ≤ PhpVersion.all.length + 9 := by
  cases pc with
  | select rest =>
      have hrest := h rest rfl
      simp only [WorkerPc.remaining]
      omega
  | _ => decide

theorem Sound.remaining_le {s : State T} (hs : Sound s) :
    s.remaining ≤ T * (PhpVersion.all.length + 9) + 4 := by
  have hworker : ∀ w, (s.workers w).pc.remaining ≤
      PhpVersion.all.length + 9 := fun w => (hs.select w).remaining_le
  have hproducer : s.producer.remaining ≤ 3 := by
    unfold ProducerPc.remaining
    split <;> decide
  have hsignaler : s.signaler.remaining ≤ 1 := by
    unfold SignalerPc.remaining
    split <;> decide
  have hsum := Finset.sum_le_card_nsmul Finset.univ
    (fun w => (s.workers w).pc.remaining) _ fun w _ => hworker w
  rw [Finset.card_univ, Fintype.card_fin, smul_eq_mul] at hsum
  unfold State.remaining
  omega

/-- The steps of threads, apart from those in which the producer reads a pid.
The list of pids ends with the output of `pgrep`. -/
def Action.isCounted : Action T → Bool
  | .worker _ _ => true
  | .producer line => line = .eof
  | .signaler => true
  | .signal => false

/-- Once `done` is set, a step of a thread takes it closer to its end. -/
theorem step_remaining {cfg : Config} {s t : State T} {a : Action T}
    (hs : Sound s) (hdone : s.done = true) (hstep : step cfg s a = some t) :
    t.remaining + (if a.isCounted then 1 else 0) ≤ s.remaining := by
  cases a with
  | worker w outcome =>
      have heffect := (workerStep_move hstep).effect
      have hlt : ∑ w, (t.workers w).pc.remaining <
          ∑ w, (s.workers w).pc.remaining := by
        refine Finset.sum_lt_sum (fun w' _ => ?_)
          ⟨w, Finset.mem_univ w, workerStep_remaining hdone hstep⟩
        by_cases hw : w' = w
        · rw [hw]
          exact (workerStep_remaining hdone hstep).le
        · rw [heffect.others w' hw]
      rw [State.remaining, State.remaining, heffect.producer,
        heffect.signaler]
      simp only [Action.isCounted, if_true]
      omega
  | producer line =>
      have heffect := (producerStep_move hstep).effect
      have hle := producerStep_remaining hdone hstep
      rw [State.remaining, State.remaining, heffect.workers,
        heffect.signaler]
      simp only [Action.isCounted, decide_eq_true_eq]
      omega
  | signaler =>
      have hpast := hs.past
      rcases signalerStep_cases hstep with
        ⟨hpc, -⟩ | ⟨hpc, -, -⟩ | ⟨hpc, -, rfl⟩
      · rw [hpc, hdone] at hpast
        cases hpast
      · rw [hpc, hdone] at hpast
        cases hpast
      · simp [State.remaining, hpc, SignalerPc.remaining, Action.isCounted]
  | signal =>
      rw [← Option.some.inj hstep]
      exact le_rfl

theorem step_done {cfg : Config} {s t : State T} {a : Action T}
    (hdone : s.done = true) (hstep : step cfg s a = some t) :
    t.done = true := by
  cases step_move hstep with
  | worker hmove =>
      rw [hmove.effect.done]
      exact hdone
  | producer hmove =>
      rw [hmove.effect.done]
      exact hdone
  | signaler hkeeps => exact hkeeps hdone

/-- All threads end.  After `done` is set, the threads take no more than a fixed
number of steps, besides reading what `pgrep` still prints.  When no thread can
take a step, all have ended, the mutex is free and no worker has a pid. -/
theorem run_ends (cfg : Config) (actions : List (Action T)) (s : State T)
    (hrun : run (step cfg) initial actions = some s) (hdone : s.done = true)
    (more : List (Action T)) (t : State T)
    (hmore : run (step cfg) s more = some t) :
    more.countP Action.isCounted ≤ T * (PhpVersion.all.length + 9) + 4 ∧
      ((∀ thread, ¬ CanStep cfg t thread) →
        (∀ thread, t.ended thread = true) ∧ t.mutex = none ∧
          ∀ w, t.queue.attachedPids w = 0) := by
  have hclosing : ∀ (s : State T) a t, Sound s ∧ s.done = true →
      step cfg s a = some t → Sound t ∧ t.done = true := by
    rintro s a t ⟨hs, hd⟩ hstep
    exact ⟨step_sound cfg s a t hs hstep, step_done hd hstep⟩
  have hs : Sound s ∧ s.done = true := ⟨run_sound hrun, hdone⟩
  obtain ⟨ht, htdone⟩ := run_invariant hclosing hs hmore
  constructor
  · have hcount := run_countP_le hclosing
      (fun s a t hs hstep => step_remaining hs.1 hs.2 hstep) hs hmore
    exact (Nat.le_add_left _ _).trans (hcount.trans hs.1.remaining_le)
  · intro hstuck
    have hfree : t.mutex = none := by
      by_contra hheld
      obtain ⟨holder, hholder⟩ := Option.ne_none_iff_exists'.mp hheld
      exact hstuck holder (canStep_of_critical (ht.holder holder hholder))
    have hended : ∀ thread, t.ended thread = true := by
      intro thread
      by_contra hnot
      apply hstuck thread
      refine canStep_of_free hfree (Bool.eq_false_of_not_eq_true hnot) ?_
      intro _ hselect
      have hpast := ht.past
      rw [hselect, htdone] at hpast
      cases hpast
    refine ⟨hended, hfree, fun w => ht.detached w ?_⟩
    rw [of_decide_eq_true (hended (.worker w))]
    rfl

/-- A signal before anything else has happened. -/
theorem run_ends_signal :
    ∃ s t : State 1,
      run (step unlimited) initial [.signaler, .signal, .signaler] = some s ∧
        s.done = true ∧
        run (step unlimited) s
          [.worker 0 .ok, .producer .eof, .signaler] = some t ∧
        ((∀ thread, ¬ CanStep unlimited t thread) →
          (∀ thread, t.ended thread = true) ∧ t.mutex = none ∧
            ∀ w, t.queue.attachedPids w = 0) := by
  have heval : ((run (step unlimited) (initial : State 1)
      [.signaler, .signal, .signaler]).bind fun s =>
        (run (step unlimited) s
          [.worker 0 .ok, .producer .eof, .signaler]).map fun _ => s.done) =
      some true := by
    decide
  obtain ⟨s, hrun, hs⟩ := Option.bind_eq_some_iff.mp heval
  obtain ⟨t, hmore, hdone⟩ := Option.map_eq_some_iff.mp hs
  exact ⟨s, t, hrun, hdone, hmore,
    (run_ends unlimited _ s hrun hdone _ t hmore).2⟩

/-! ## A signal is not lost -/

/-- `done` is set, or the signal thread is about to set it. -/
def State.stopping (s : State T) : Prop :=
  s.done = true ∨ s.signaler = .select ∧ s.donePipe = some true

theorem step_stopping {cfg : Config} {s t : State T} {a : Action T}
    (h : s.stopping) (hstep : step cfg s a = some t) : t.stopping := by
  rcases h with hdone | ⟨hpc, hpipe⟩
  · exact Or.inl (step_done hdone hstep)
  · cases a with
    | worker w outcome =>
        refine Or.inr ⟨?_, ?_⟩
        · rw [(workerStep_move hstep).effect.signaler]
          exact hpc
        · rcases workerStep_donePipe hstep with hsame | hwritten
          · rw [hsame]
            exact hpipe
          · rw [hwritten, hpipe]
            rfl
    | producer line =>
        have heffect := (producerStep_move hstep).effect
        refine Or.inr ⟨?_, ?_⟩
        · rw [heffect.signaler]
          exact hpc
        · rw [heffect.donePipe]
          exact hpipe
    | signaler =>
        left
        rcases signalerStep_cases hstep with
          ⟨hpc', -⟩ | ⟨-, -, rfl⟩ | ⟨hpc', -, -⟩
        · rw [hpc] at hpc'
          cases hpc'
        · rfl
        · rw [hpc] at hpc'
          cases hpc'
    | signal =>
        rw [← Option.some.inj hstep]
        refine Or.inr ⟨hpc, ?_⟩
        rw [writeDonePipe, hpipe]
        rfl

/-- The steps that write to the pipe: a signal, and a worker that leaves
`main_pid` when the trace limit is reached. -/
def writesDonePipe (cfg : Config) (s : State T) : Action T → Bool
  | .signal => true
  | .worker w _ => (s.workers w).pc = .leave ∧ 0 < cfg.traceLimit ∧
      cfg.traceLimit ≤ s.traceCount
  | _ => false

/-- Once the signal thread has created the pipe, no order to stop is lost: from
then on `done` is set, or the next step of the signal thread sets it. -/
theorem run_signal_kept (cfg : Config) (actions : List (Action T))
    (s t : State T) (hrun : run (step cfg) initial actions = some s)
    (hpipe : s.signaler ≠ .start) (a : Action T)
    (hwrites : writesDonePipe cfg s a = true)
    (hstep : step cfg s a = some t) (more : List (Action T)) (u : State T)
    (hmore : run (step cfg) t more = some u) :
    u.done = true ∨ ∃ v, step cfg u .signaler = some v ∧ v.done = true := by
  have hs := run_sound hrun
  have hafter : t.donePipe = writeDonePipe s.donePipe ∧
      t.signaler = s.signaler ∧ t.done = s.done := by
    cases a with
    | signal =>
        rw [← Option.some.inj hstep]
        exact ⟨rfl, rfl, rfl⟩
    | worker w outcome =>
        obtain ⟨hpc, hlimit⟩ := of_decide_eq_true hwrites
        have heffect := (workerStep_move hstep).effect
        refine ⟨?_, heffect.signaler, heffect.done⟩
        change workerStep cfg s w outcome = some t at hstep
        rw [workerStep, hpc] at hstep
        rw [← Option.some.inj hstep]
        exact if_pos hlimit
    | producer line => cases hwrites
    | signaler => cases hwrites
  obtain ⟨hdata, hsignaler, hdone⟩ := hafter
  have hstopping : t.stopping := by
    by_cases hd : s.done = true
    · left
      rw [hdone]
      exact hd
    · right
      rw [hsignaler, hdata]
      have hpast := hs.past
      rw [Bool.eq_false_of_not_eq_true hd] at hpast
      obtain ⟨b, hb⟩ := Option.ne_none_iff_exists'.mp (hs.pipe hpipe)
      refine ⟨?_, by rw [hb]; rfl⟩
      cases hpc : s.signaler with
      | start => exact absurd hpc hpipe
      | select => rfl
      | wake =>
          rw [hpc] at hpast
          cases hpast
      | exited =>
          rw [hpc] at hpast
          cases hpast
  have hu := run_invariant (fun s a t h hstep => step_stopping h hstep)
    hstopping hmore
  refine hu.imp_right fun hselect => ?_
  obtain ⟨hpc, hfull⟩ := hselect
  obtain ⟨v, hv⟩ := @signalerStep_isSome _ u (by simp [hpc])
    (fun _ => hfull) (by simp [hpc])
  refine ⟨v, hv, ?_⟩
  rcases signalerStep_cases hv with ⟨hpc', -⟩ | ⟨-, -, rfl⟩ | ⟨hpc', -, -⟩
  · rw [hpc] at hpc'
    cases hpc'
  · rfl
  · rw [hpc] at hpc'
    cases hpc'

theorem run_signal_kept_signal :
    ∃ s t u : State 1,
      run (step unlimited) initial [.signaler] = some s ∧
        s.signaler ≠ .start ∧ step unlimited s .signal = some t ∧
        run (step unlimited) t [.worker 0 .ok] = some u ∧
        (u.done = true ∨
          ∃ v, step unlimited u .signaler = some v ∧ v.done = true) := by
  have heval : ((run (step unlimited) (initial : State 1)
      [.signaler]).bind fun s =>
        (step unlimited s .signal).bind fun t =>
          (run (step unlimited) t [.worker 0 .ok]).map fun _ =>
            s.signaler) = some .select := by
    decide
  obtain ⟨s, hrun, hs⟩ := Option.bind_eq_some_iff.mp heval
  obtain ⟨t, hstep, ht⟩ := Option.bind_eq_some_iff.mp hs
  obtain ⟨u, hmore, hpc⟩ := Option.map_eq_some_iff.mp ht
  have hpipe : s.signaler ≠ .start := by
    rw [hpc]
    decide
  exact ⟨s, t, u, hrun, hpipe, hstep, hmore,
    run_signal_kept unlimited _ s t hrun hpipe .signal rfl hstep _ u hmore⟩

end Pgrep

end Phpspy

import Phpspy.Pgrep.System

/-!
# The queue under all interleavings

Only the holder of the mutex can be between the check of the count and its
change.  So a worker that has passed `wait_for_turn` finds a pid, the count
stays within the array, and a pid is never in two places.
-/

namespace Phpspy

namespace Pgrep

open Transition

variable {T : ℕ}

/-- The places of a worker that it reaches with the mutex. -/
def WorkerPc.critical : WorkerPc → Bool
  | .turn => true
  | .passed => true
  | .take => true
  | _ => false

/-- The places of the producer that it reaches with the mutex. -/
def ProducerPc.critical : ProducerPc → Bool
  | .turn => true
  | .passed => true
  | .scan _ => true
  | _ => false

/-- The places of a worker between taking a pid and giving it up. -/
def WorkerPc.attached : WorkerPc → Bool
  | .start => true
  | .checkAuto => true
  | .detect => true
  | .select _ => true
  | .loop => true
  | .trace => true
  | .count => true
  | .check => true
  | .leave => true
  | .clear => true
  | _ => false

structure Consistent (s : State T) : Prop where
  queue : s.queue.Ok
  worker_holds : ∀ w, (s.workers w).pc.critical = true →
    s.mutex = some (.worker w)
  producer_holds : s.producer.critical = true → s.mutex = some .producer
  passed : ∀ w, (s.workers w).pc = .passed →
    s.done = true ∨ 0 < s.queue.availPidsCount
  mayTake : ∀ w, (s.workers w).pc = .take → 0 < s.queue.availPidsCount
  attached : ∀ w, (s.workers w).pc.attached = true →
    s.queue.attachedPids w = (s.workers w).pid ∧ (s.workers w).pid ≠ 0

theorem Consistent.initial : Consistent (initial : State T) where
  queue := Queue.Ok.empty
  worker_holds := fun w h => by cases h
  producer_holds := fun h => by cases h
  passed := fun w h => by cases h
  mayTake := fun w h => by cases h
  attached := fun w h => by cases h

theorem Consistent.congr {s t : State T} (h : Consistent s)
    (hqueue : t.queue = s.queue) (hworkers : t.workers = s.workers)
    (hproducer : t.producer = s.producer) (hmutex : t.mutex = s.mutex)
    (hdone : s.done = true → t.done = true) : Consistent t where
  queue := hqueue ▸ h.queue
  worker_holds := by
    rw [hworkers, hmutex]
    exact h.worker_holds
  producer_holds := by
    rw [hproducer, hmutex]
    exact h.producer_holds
  passed := by
    rw [hworkers, hqueue]
    exact fun w hw => (h.passed w hw).imp_left hdone
  mayTake := by
    rw [hworkers, hqueue]
    exact h.mayTake
  attached := by
    rw [hworkers, hqueue]
    exact h.attached

/-! ## Moves of a worker -/

theorem Consistent.setPc {s : State T} (h : Consistent s) {w : Fin T}
    {pc : WorkerPc}
    (hcritical : pc.critical = true → (s.workers w).pc.critical = true)
    (hpassed : pc = .passed → s.done = true ∨ 0 < s.queue.availPidsCount)
    (htake : pc = .take → 0 < s.queue.availPidsCount)
    (hattached : pc.attached = true → (s.workers w).pc.attached = true) :
    Consistent (s.setPc w pc) where
  queue := h.queue
  worker_holds := by
    intro w' hw'
    rw [State.setPc_pc] at hw'
    split at hw'
    · rw [‹w' = w›]
      exact h.worker_holds w (hcritical hw')
    · exact h.worker_holds w' hw'
  producer_holds := h.producer_holds
  passed := by
    intro w' hw'
    rw [State.setPc_pc] at hw'
    split at hw'
    · exact hpassed hw'
    · exact h.passed w' hw'
  mayTake := by
    intro w' hw'
    rw [State.setPc_pc] at hw'
    split at hw'
    · exact htake hw'
    · exact h.mayTake w' hw'
  attached := by
    intro w' hw'
    rw [State.setPc_pc] at hw'
    rw [State.setPc_pid]
    split at hw'
    · rw [‹w' = w›]
      exact h.attached w (hattached hw')
    · exact h.attached w' hw'

theorem Goes.critical {cfg : Config} {s : State T} {pc pc' : WorkerPc}
    (h : Goes cfg s pc pc') (hpc' : pc'.critical = true) :
    pc.critical = true := by
  cases h <;> first | rfl | cases hpc'

theorem Goes.attached {cfg : Config} {s : State T} {pc pc' : WorkerPc}
    (h : Goes cfg s pc pc') (hpc' : pc'.attached = true) :
    pc.attached = true := by
  cases h <;> first | rfl | cases hpc'

theorem Consistent.goto {cfg : Config} {s : State T} (h : Consistent s)
    {w : Fin T} {pc : WorkerPc} (hgoes : Goes cfg s (s.workers w).pc pc) :
    Consistent (s.setPc w pc) := by
  refine h.setPc hgoes.critical ?_ ?_ hgoes.attached
  · rintro rfl
    generalize (s.workers w).pc = pc at hgoes
    cases hgoes with
    | pass hpass => exact hpass
  · rintro rfl
    generalize hpc : (s.workers w).pc = pc at hgoes
    cases hgoes with
    | mayTake hdone =>
        rcases h.passed w hpc with hd | hcount
        · rw [hdone] at hd
          cases hd
        · exact hcount

/-- While a worker has the mutex, nobody else is where it takes the mutex to
be. -/
theorem Consistent.alone {s : State T} (h : Consistent s) {w : Fin T}
    (hw : (s.workers w).pc.critical = true) :
    (∀ w', w' ≠ w → (s.workers w').pc.critical = false) ∧
      s.producer.critical = false := by
  have hmutex := h.worker_holds w hw
  constructor
  · intro w' hne
    by_contra hcritical
    have hmutex' := h.worker_holds w' (Bool.eq_true_of_not_eq_false hcritical)
    rw [hmutex] at hmutex'
    exact hne (Thread.worker.inj (Option.some.inj hmutex')).symm
  · by_contra hcritical
    have hmutex' := h.producer_holds (Bool.eq_true_of_not_eq_false hcritical)
    rw [hmutex] at hmutex'
    cases hmutex'

theorem Consistent.acquire {s : State T} (h : Consistent s) {w : Fin T}
    (hfree : s.mutex = none) :
    Consistent { s.setPc w .turn with mutex := some (.worker w) } where
  queue := h.queue
  worker_holds := by
    intro w' hw'
    rw [State.setPc_pc] at hw'
    split at hw'
    · rw [‹w' = w›]
    · have hmutex := h.worker_holds w' hw'
      rw [hfree] at hmutex
      cases hmutex
  producer_holds := by
    intro hproducer
    have hmutex := h.producer_holds hproducer
    rw [hfree] at hmutex
    cases hmutex
  passed := by
    intro w' hw'
    rw [State.setPc_pc] at hw'
    split at hw'
    · cases hw'
    · exact h.passed w' hw'
  mayTake := by
    intro w' hw'
    rw [State.setPc_pc] at hw'
    split at hw'
    · cases hw'
    · exact h.mayTake w' hw'
  attached := by
    intro w' hw'
    rw [State.setPc_pc] at hw'
    rw [State.setPc_pid]
    split at hw'
    · cases hw'
    · exact h.attached w' hw'

theorem Consistent.of_idle {s : State T} (hqueue : s.queue.Ok)
    (hworkers : ∀ w, (s.workers w).pc.critical = false)
    (hproducer : s.producer.critical = false)
    (hattached : ∀ w, (s.workers w).pc.attached = true →
      s.queue.attachedPids w = (s.workers w).pid ∧ (s.workers w).pid ≠ 0) :
    Consistent s := by
  have hnot : ∀ (w : Fin T) (pc : WorkerPc), pc.critical = true →
      (s.workers w).pc ≠ pc := by
    rintro w pc hpc rfl
    exact Bool.false_ne_true ((hworkers w).symm.trans hpc)
  refine ⟨hqueue, fun w hw => ?_, fun hp => ?_, fun w hw => ?_,
    fun w hw => ?_, hattached⟩
  · exact absurd rfl (hnot w _ hw)
  · exact absurd (hproducer.symm.trans hp) Bool.false_ne_true
  · exact absurd hw (hnot w .passed rfl)
  · exact absurd hw (hnot w .take rfl)

theorem Consistent.release {s : State T} (h : Consistent s) {w : Fin T}
    {pc : WorkerPc} (hw : (s.workers w).pc.critical = true)
    (hpc : pc.critical = false) (hattached : pc.attached = false) :
    Consistent { s.setPc w pc with mutex := none } := by
  obtain ⟨hworkers, hproducer⟩ := h.alone hw
  refine .of_idle h.queue (fun w' => ?_) hproducer fun w' hw' => ?_
  · rw [State.setPc_pc]
    split
    · exact hpc
    · exact hworkers w' ‹_›
  · rw [State.setPc_pc] at hw'
    rw [State.setPc_pid]
    split at hw'
    · rw [hattached] at hw'
      cases hw'
    · exact h.attached w' hw'

theorem Consistent.take {s : State T} (h : Consistent s) {w : Fin T}
    (hpc : (s.workers w).pc = .take) :
    Consistent
      { s with
        queue := s.queue.take w
        mutex := none
        workers := Function.update s.workers w
          { pc := .start
            pid := (s.queue.take w).attachedPids w } } := by
  have hcount := h.mayTake w hpc
  obtain ⟨hworkers, hproducer⟩ := h.alone (w := w) (by rw [hpc]; rfl)
  refine .of_idle (h.queue.take hcount w) (fun w' => ?_) hproducer
    fun w' hw' => ?_
  · simp only [Function.update_apply]
    split
    · rfl
    · exact hworkers w' ‹_›
  · simp only [Queue.take, Function.update_apply] at hw' ⊢
    split
    · exact ⟨rfl, h.queue.lastPid_ne_zero hcount⟩
    · rw [if_neg ‹_›] at hw'
      exact h.attached w' hw'

theorem Consistent.clear {s : State T} (h : Consistent s) (w : Fin T) :
    Consistent { s.setPc w .top with queue := s.queue.clear w } := by
  have htop : Consistent (s.setPc w .top) :=
    h.setPc (fun hp => by cases hp) (fun hp => by cases hp)
      (fun hp => by cases hp) (fun hp => by cases hp)
  refine ⟨h.queue.clear w, htop.worker_holds, htop.producer_holds,
    htop.passed, htop.mayTake, ?_⟩
  intro w' hw'
  have hattached := htop.attached w' hw'
  rw [State.setPc_pc] at hw'
  split at hw'
  · cases hw'
  · simp only [Queue.clear, Function.update_apply, if_neg ‹_›]
    exact hattached

theorem WorkerMove.consistent {cfg : Config} {s t : State T} {w : Fin T}
    (hmove : WorkerMove cfg s w t) (h : Consistent s) : Consistent t := by
  have hplain {pc : WorkerPc} (hw : (s.workers w).pc.attached = true)
      (hpc : pc.critical = false) : Consistent (s.setPc w pc) := by
    refine h.setPc ?_ ?_ ?_ fun _ => hw
    · intro hp
      rw [hpc] at hp
      cases hp
    · rintro rfl
      cases hpc
    · rintro rfl
      cases hpc
  cases hmove with
  | goto hgoes => exact h.goto hgoes
  | acquire hpc hfree => exact h.acquire hfree
  | release hpc =>
      rcases hpc with ⟨hw, rfl⟩ | ⟨hw, rfl⟩
      · exact h.release (by rw [hw]; rfl) rfl rfl
      · exact h.release (by rw [hw]; rfl) rfl rfl
  | take hpc => exact h.take hpc
  | detect hpc =>
      exact (hplain (by rw [hpc]; rfl) rfl).congr rfl rfl rfl rfl id
  | select hpc hphpv =>
      exact (hplain (by rw [hpc]; rfl) rfl).congr rfl rfl rfl rfl id
  | @trace outcome hpc =>
      have hcritical : (afterTrace cfg outcome).critical = false := by
        unfold afterTrace
        split
        · rfl
        · rfl
        · split
          · rfl
          · rfl
      exact (hplain (by rw [hpc]; rfl) hcritical).congr rfl rfl rfl rfl id
  | count hpc =>
      exact (hplain (by rw [hpc]; rfl) rfl).congr rfl rfl rfl rfl id
  | leave hpc =>
      exact (hplain (by rw [hpc]; rfl) rfl).congr rfl rfl rfl rfl id
  | clear hpc => exact h.clear w

/-! ## Moves of the producer -/

theorem ProducerGoes.critical {s : State T} {pc pc' : ProducerPc}
    (h : ProducerGoes s pc pc') (hpc' : pc'.critical = true) :
    pc.critical = true := by
  cases h <;> first | rfl | cases hpc'

theorem ProducerMove.consistent {s t : State T} {line : Line}
    (hmove : ProducerMove s line t) (h : Consistent s) : Consistent t := by
  cases hmove with
  | goto hgoes =>
      exact ⟨h.queue, h.worker_holds,
        fun hp => h.producer_holds (hgoes.critical hp), h.passed, h.mayTake,
        h.attached⟩
  | acquire hpc hfree =>
      refine ⟨h.queue, fun w hw => ?_, fun _ => rfl, h.passed, h.mayTake,
        h.attached⟩
      have hmutex := h.worker_holds w hw
      rw [hfree] at hmutex
      cases hmutex
  | @release pc hpc =>
      have hcritical : s.producer.critical = true ∧ pc.critical = false := by
        rcases hpc with ⟨hp, rfl⟩ | ⟨hp, rfl⟩ | ⟨found, hp, rfl | rfl⟩
        · exact ⟨by rw [hp]; rfl, rfl⟩
        · exact ⟨by rw [hp]; rfl, rfl⟩
        · exact ⟨by rw [hp]; rfl, rfl⟩
        · exact ⟨by rw [hp]; rfl, rfl⟩
      refine ⟨h.queue, fun w hw => ?_, fun hp => ?_, h.passed, h.mayTake,
        h.attached⟩
      · have hmutex := h.worker_holds w hw
        rw [h.producer_holds hcritical.1] at hmutex
        cases hmutex
      · exact absurd (hcritical.2.symm.trans hp) Bool.false_ne_true
  | insert hpc hline hpid hroom hfresh =>
      have hgrows : 0 < s.queue.availPidsCount + 1 :=
        Int.lt_add_one_of_le h.queue.count_nonneg
      exact ⟨h.queue.insert hpid hroom hfresh, h.worker_holds,
        fun _ => h.producer_holds (by rw [hpc]; rfl),
        fun w _ => Or.inr hgrows, fun w _ => hgrows, h.attached⟩

/-! ## Runs -/

theorem step_consistent (cfg : Config) (s : State T) (a : Action T)
    (t : State T) (h : Consistent s) (hstep : step cfg s a = some t) :
    Consistent t := by
  cases step_move hstep with
  | worker hmove => exact hmove.consistent h
  | producer hmove => exact hmove.consistent h
  | signaler hdone => exact h.congr rfl rfl rfl rfl hdone

theorem run_consistent {cfg : Config} {actions : List (Action T)}
    {s : State T} (hrun : run (step cfg) initial actions = some s) :
    Consistent s :=
  run_invariant (step_consistent cfg) Consistent.initial hrun

/-- In every reachable state the count is within the array and no pid is in
two places.  So no two workers are in `main_pid` with the same pid, no such pid
is in the queue, and each insertion is taken at most once. -/
theorem run_heldPids_nodup (cfg : Config) (actions : List (Action T))
    (s : State T) (hrun : run (step cfg) initial actions = some s) :
    0 ≤ s.queue.availPidsCount ∧
      s.queue.availPidsCount ≤ T ∧
      s.queue.heldPids.Nodup ∧
      (∀ w w', (s.workers w).pc.attached = true →
        (s.workers w').pc.attached = true →
        (s.workers w).pid = (s.workers w').pid → w = w') ∧
      (∀ w (i : ℕ), (s.workers w).pc.attached = true →
        (i : ℤ) < s.queue.availPidsCount →
        s.queue.availPids i ≠ (s.workers w).pid) ∧
      s.queue.taken.Nodup ∧
      ∀ t ∈ s.queue.taken, t < s.queue.issued := by
  have h := run_consistent hrun
  have hrunning : ∀ w, (s.workers w).pc.attached = true →
      s.queue.board.running w = some (s.workers w).pid :=
    fun w hw => Queue.board_running_eq_some.mpr (h.attached w hw)
  refine ⟨h.queue.count_nonneg, h.queue.count_le, h.queue.heldPids_nodup,
    fun w w' hw hw' hpid => ?_, fun w i hw hi hpid => ?_, ?_,
    fun t ht => ?_⟩
  · refine h.queue.valid.workers w w' _ (hrunning w hw) ?_
    rw [hpid]
    exact hrunning w' hw'
  · have hpending := Queue.mem_board_pending.mpr ⟨i, hi, rfl⟩
    apply h.queue.valid.apart _ hpending w
    rw [hrunning w hw, ← hpid]
  · exact (List.nodup_append.mp h.queue.valid.tickets).2.1
  · exact h.queue.valid.issued t (List.mem_append_right _ ht)

def unlimited : Config where
  traceLimit := 0
  version := fun _ => .v83

/-- The producer finds two pids and each worker takes one, then it finds
another pid and one that is attached. -/
def twoWorkers : List (Action 2) :=
  List.replicate 4 (.producer .eof) ++
    [.producer (.pid 7), .producer (.pid 8), .producer .eof] ++
    List.replicate 5 (.worker 0 .ok) ++ List.replicate 5 (.worker 1 .ok) ++
    List.replicate 4 (.producer .eof) ++
    [.producer (.pid 9), .producer (.pid 7), .producer .eof]

theorem run_heldPids_nodup_twoWorkers :
    ∃ s, run (step unlimited) initial twoWorkers = some s ∧
      s.queue.availPidsCount = 1 ∧ s.queue.heldPids = [8, 7, 9] ∧
      s.queue.heldPids.Nodup := by
  have heval : (run (step unlimited) initial twoWorkers).map
      (fun s => (s.queue.availPidsCount, s.queue.heldPids)) =
        some (1, [8, 7, 9]) := by
    decide +kernel
  obtain ⟨s, hrun, hheld⟩ := Option.map_eq_some_iff.mp heval
  obtain ⟨hcount, hpids⟩ := Prod.mk.inj hheld
  exact ⟨s, hrun, hcount, hpids,
    (run_heldPids_nodup unlimited _ s hrun).2.2.1⟩

end Pgrep

end Phpspy

import Phpspy.Pgrep.Queue
import Phpspy.Support.Transition
import Phpspy.Trace.Memory

/-!
# The threads of pgrep mode

`main_pgrep` starts a producer that runs `pgrep`, workers that each call
`main_pid` for one pid after the other, and a thread that waits for a byte in
`done_pipe` and then sets `done`.  A step is one access to the state that the
threads share; the mutex is part of that state.  Threads that wait for a
condition may wake up at any time, since every wait has a timeout.
-/

namespace Phpspy

namespace Pgrep

/-- Options, and what there is to detect. -/
structure Config where
  /-- `opt_trace_limit` -/
  traceLimit : ℕ
  /-- The version that `get_php_version` finds for a pid. -/
  version : ℕ → PhpVersion

inductive Thread (T : ℕ) where
  | producer
  | worker (w : Fin T)
  | signaler
deriving DecidableEq

/-- How a call outside the shared state ends. -/
inductive Outcome where
  | ok
  | truncated
  | err
  | pidDead
deriving DecidableEq

/-- Where a worker is: in `run_work_thread` and `wait_for_turn`, or, from
`start` to `leave`, in `main_pid`. -/
inductive WorkerPc where
  | top
  | wait
  | turn
  | passed
  | take
  | start
  | checkAuto
  | detect
  | select (rest : List PhpVersion)
  | loop
  | trace
  | count
  | check
  | leave
  | clear
  | exited
deriving DecidableEq

/-- A worker and the pid that it has passed to `main_pid`. -/
structure Worker where
  pc : WorkerPc
  pid : ℕ

/-- Where the producer is in `pgrep_for_pids` and `wait_for_turn`. -/
inductive ProducerPc where
  | top
  | wait
  | turn
  | passed
  | scan (found : ℕ)
  | sleep
  | exited
deriving DecidableEq

/-- Where the thread of `run_signal_thread` is. -/
inductive SignalerPc where
  | start
  | select
  | wake
  | exited
deriving DecidableEq

/-- The shared state and the place of every thread.  `donePipe` tells whether
the pipe exists and has data.  `counted` and `traced` record, for no thread to
read, what each worker has counted and which tracer was called for which
pid. -/
structure State (T : ℕ) where
  queue : Queue T
  workers : Fin T → Worker
  producer : ProducerPc
  signaler : SignalerPc
  mutex : Option (Thread T)
  done : Bool
  donePipe : Option Bool
  traceCount : ℕ
  counted : Fin T → ℕ
  optPhpv : Option PhpVersion
  doTracePtr : Option PhpVersion
  traced : List (ℕ × Option PhpVersion)

variable {T : ℕ}

def initial : State T :=
  { queue := Queue.empty
    workers := fun _ =>
      { pc := .top
        pid := 0 }
    producer := .top
    signaler := .start
    mutex := none
    done := false
    donePipe := none
    traceCount := 0
    counted := fun _ => 0
    optPhpv := none
    doTracePtr := none
    traced := [] }

def State.setPc (s : State T) (w : Fin T) (pc : WorkerPc) : State T :=
  { s with
    workers := Function.update s.workers w { s.workers w with pc := pc } }

/-- `write_done_pipe` -/
def writeDonePipe (donePipe : Option Bool) : Option Bool :=
  donePipe.map fun _ => true

/-- Where the sampling loop of `main_pid` goes on after a trace. -/
def afterTrace (cfg : Config) : Outcome → WorkerPc
  | .pidDead => .leave
  | .err => .loop
  | _ => if 0 < cfg.traceLimit then .count else .loop

/-- A step of `run_work_thread`, `wait_for_turn` and `main_pid`. -/
def workerStep (cfg : Config) (s : State T) (w : Fin T) (outcome : Outcome) :
    Option (State T) :=
  match (s.workers w).pc with
  | .top => some (s.setPc w (if s.done then .exited else .wait))
  | .wait =>
      if s.mutex = none then
        some { s.setPc w .turn with mutex := some (.worker w) }
      else none
  | .turn =>
      if s.done ∨ 0 < s.queue.availPidsCount then some (s.setPc w .passed)
      else some { s.setPc w .wait with mutex := none }
  | .passed =>
      if s.done then some { s.setPc w .exited with mutex := none }
      else some (s.setPc w .take)
  | .take =>
      let queue := s.queue.take w
      some
        { s with
          queue := queue
          mutex := none
          workers := Function.update s.workers w
            { pc := .start
              pid := queue.attachedPids w } }
  | .start =>
      some (s.setPc w (if outcome = .ok then .checkAuto else .clear))
  | .checkAuto =>
      some (s.setPc w
        (if s.optPhpv = none then .detect else .select PhpVersion.all))
  | .detect =>
      if outcome = .ok then
        some
          { s.setPc w (.select PhpVersion.all) with
            optPhpv := some (cfg.version (s.workers w).pid) }
      else some (s.setPc w .clear)
  | .select [] => some (s.setPc w .clear)
  | .select (v :: rest) =>
      if s.optPhpv = some v then
        some { s.setPc w .loop with doTracePtr := some v }
      else some (s.setPc w (.select rest))
  | .loop => some (s.setPc w (if s.done then .leave else .trace))
  | .trace =>
      some
        { s.setPc w (afterTrace cfg outcome) with
          traced := ((s.workers w).pid, s.doTracePtr) :: s.traced }
  | .count =>
      some
        { s.setPc w .check with
          traceCount := s.traceCount + 1
          counted := Function.update s.counted w (s.counted w + 1) }
  | .check =>
      some (s.setPc w
        (if cfg.traceLimit ≤ s.traceCount then .leave else .loop))
  | .leave =>
      some
        { s.setPc w .clear with
          donePipe :=
            if 0 < cfg.traceLimit ∧ cfg.traceLimit ≤ s.traceCount then
              writeDonePipe s.donePipe
            else s.donePipe }
  | .clear =>
      some
        { s.setPc w .top with
          queue := s.queue.clear w }
  | .exited => none

/-- What `fgets` delivers from `pgrep`. -/
inductive Line where
  | pid (pid : ℕ)
  | eof
deriving DecidableEq

/-- A step of `pgrep_for_pids` and `wait_for_turn`.  Pids are positive. -/
def producerStep (s : State T) (line : Line) : Option (State T) :=
  match s.producer with
  | .top => some { s with producer := if s.done then .exited else .wait }
  | .wait =>
      if s.mutex = none then
        some { s with producer := .turn, mutex := some .producer }
      else none
  | .turn =>
      if s.done ∨ s.queue.availPidsCount < T ∨
          0 < s.queue.availPidsCount then
        some { s with producer := .passed }
      else some { s with producer := .wait, mutex := none }
  | .passed =>
      if s.done then some { s with producer := .exited, mutex := none }
      else some { s with producer := .scan 0 }
  | .scan found =>
      match line with
      | .eof =>
          some
            { s with
              producer := if 0 < found then .top else .sleep
              mutex := none }
      | .pid pid =>
          if 0 < pid ∧ s.queue.availPidsCount < T then
            if s.queue.isAlreadyAttached pid then some s
            else
              some
                { s with
                  producer := .scan (found + 1)
                  queue := s.queue.insert pid }
          else none
  | .sleep =>
      if s.mutex = none then some { s with producer := .top } else none
  | .exited => none

/-- A step of `run_signal_thread`. -/
def signalerStep (s : State T) : Option (State T) :=
  match s.signaler with
  | .start => some { s with signaler := .select, donePipe := some false }
  | .select =>
      if s.donePipe = some true then
        some
          { s with
            signaler := .wake
            donePipe := some false
            done := true }
      else none
  | .wake =>
      if s.mutex = none then some { s with signaler := .exited } else none
  | .exited => none

/-- Whose turn it is.  A signal may arrive at any time. -/
inductive Action (T : ℕ) where
  | worker (w : Fin T) (outcome : Outcome)
  | producer (line : Line)
  | signaler
  | signal
deriving DecidableEq

def step (cfg : Config) (s : State T) : Action T → Option (State T)
  | .worker w outcome => workerStep cfg s w outcome
  | .producer line => producerStep s line
  | .signaler => signalerStep s
  | .signal => some { s with donePipe := writeDonePipe s.donePipe }

/-! ## What a step can do -/

theorem State.setPc_pc (s : State T) (w : Fin T) (pc : WorkerPc)
    (w' : Fin T) :
    ((s.setPc w pc).workers w').pc =
      if w' = w then pc else (s.workers w').pc := by
  simp only [setPc, Function.update_apply]
  split
  · rfl
  · rfl

theorem State.setPc_pid (s : State T) (w : Fin T) (pc : WorkerPc)
    (w' : Fin T) :
    ((s.setPc w pc).workers w').pid = (s.workers w').pid := by
  simp only [setPc, Function.update_apply]
  split
  · rw [‹w' = w›]
  · rfl

/-- The steps of a worker that only change its place. -/
inductive Goes (cfg : Config) (s : State T) : WorkerPc → WorkerPc → Prop
  | enter (h : s.done = false) : Goes cfg s .top .wait
  | stop (h : s.done = true) : Goes cfg s .top .exited
  | pass (h : s.done = true ∨ 0 < s.queue.availPidsCount) :
      Goes cfg s .turn .passed
  | mayTake (h : s.done = false) : Goes cfg s .passed .take
  | started : Goes cfg s .start .checkAuto
  | notStarted : Goes cfg s .start .clear
  | auto (h : s.optPhpv = none) : Goes cfg s .checkAuto .detect
  | known (h : s.optPhpv ≠ none) :
      Goes cfg s .checkAuto (.select PhpVersion.all)
  | undetected : Goes cfg s .detect .clear
  | unrecognized : Goes cfg s (.select []) .clear
  | differs {v : PhpVersion} {rest : List PhpVersion}
      (h : s.optPhpv ≠ some v) :
      Goes cfg s (.select (v :: rest)) (.select rest)
  | again (h : s.done = false) : Goes cfg s .loop .trace
  | interrupted (h : s.done = true) : Goes cfg s .loop .leave
  | reached (h : cfg.traceLimit ≤ s.traceCount) : Goes cfg s .check .leave
  | below (h : s.traceCount < cfg.traceLimit) : Goes cfg s .check .loop

/-- Everything a worker can do in one step. -/
inductive WorkerMove (cfg : Config) (s : State T) (w : Fin T) :
    State T → Prop
  | goto {pc : WorkerPc} (h : Goes cfg s (s.workers w).pc pc) :
      WorkerMove cfg s w (s.setPc w pc)
  | acquire (hpc : (s.workers w).pc = .wait) (hfree : s.mutex = none) :
      WorkerMove cfg s w
        { s.setPc w .turn with mutex := some (.worker w) }
  | release {pc : WorkerPc}
      (hpc : (s.workers w).pc = .turn ∧ pc = .wait ∨
        (s.workers w).pc = .passed ∧ pc = .exited) :
      WorkerMove cfg s w { s.setPc w pc with mutex := none }
  | take (hpc : (s.workers w).pc = .take) :
      WorkerMove cfg s w
        { s with
          queue := s.queue.take w
          mutex := none
          workers := Function.update s.workers w
            { pc := .start
              pid := (s.queue.take w).attachedPids w } }
  | detect (hpc : (s.workers w).pc = .detect) :
      WorkerMove cfg s w
        { s.setPc w (.select PhpVersion.all) with
          optPhpv := some (cfg.version (s.workers w).pid) }
  | select {v : PhpVersion} {rest : List PhpVersion}
      (hpc : (s.workers w).pc = .select (v :: rest))
      (hphpv : s.optPhpv = some v) :
      WorkerMove cfg s w { s.setPc w .loop with doTracePtr := some v }
  | trace {outcome : Outcome} (hpc : (s.workers w).pc = .trace) :
      WorkerMove cfg s w
        { s.setPc w (afterTrace cfg outcome) with
          traced := ((s.workers w).pid, s.doTracePtr) :: s.traced }
  | count (hpc : (s.workers w).pc = .count) :
      WorkerMove cfg s w
        { s.setPc w .check with
          traceCount := s.traceCount + 1
          counted := Function.update s.counted w (s.counted w + 1) }
  | leave {donePipe : Option Bool} (hpc : (s.workers w).pc = .leave) :
      WorkerMove cfg s w { s.setPc w .clear with donePipe := donePipe }
  | clear (hpc : (s.workers w).pc = .clear) :
      WorkerMove cfg s w { s.setPc w .top with queue := s.queue.clear w }

theorem workerStep_move {cfg : Config} {s t : State T} {w : Fin T}
    {outcome : Outcome} (h : workerStep cfg s w outcome = some t) :
    WorkerMove cfg s w t := by
  have hgoto {pc : WorkerPc} (hg : Goes cfg s (s.workers w).pc pc)
      (ht : some (s.setPc w pc) = some t) : WorkerMove cfg s w t := by
    rw [← Option.some.inj ht]
    exact .goto hg
  unfold workerStep at h
  split at h
  next hpc =>
    refine hgoto ?_ h
    rw [hpc]
    cases hd : s.done
    · exact .enter hd
    · exact .stop hd
  next hpc =>
    split at h
    · rw [← Option.some.inj h]
      exact .acquire hpc ‹_›
    · cases h
  next hpc =>
    split at h
    · refine hgoto ?_ h
      rw [hpc]
      exact .pass ‹_›
    · rw [← Option.some.inj h]
      exact .release (Or.inl ⟨hpc, rfl⟩)
  next hpc =>
    split at h
    · rw [← Option.some.inj h]
      exact .release (Or.inr ⟨hpc, rfl⟩)
    · refine hgoto ?_ h
      rw [hpc]
      exact .mayTake (Bool.eq_false_of_not_eq_true ‹_›)
  next hpc =>
    rw [← Option.some.inj h]
    exact .take hpc
  next hpc =>
    refine hgoto ?_ h
    rw [hpc]
    split
    · exact .started
    · exact .notStarted
  next hpc =>
    refine hgoto ?_ h
    rw [hpc]
    split
    · exact .auto ‹_›
    · exact .known ‹_›
  next hpc =>
    split at h
    · rw [← Option.some.inj h]
      exact .detect hpc
    · refine hgoto ?_ h
      rw [hpc]
      exact .undetected
  next hpc =>
    refine hgoto ?_ h
    rw [hpc]
    exact .unrecognized
  next hpc =>
    split at h
    · rw [← Option.some.inj h]
      exact .select hpc ‹_›
    · refine hgoto ?_ h
      rw [hpc]
      exact .differs ‹_›
  next hpc =>
    refine hgoto ?_ h
    rw [hpc]
    cases hd : s.done
    · exact .again hd
    · exact .interrupted hd
  next hpc =>
    rw [← Option.some.inj h]
    exact .trace hpc
  next hpc =>
    rw [← Option.some.inj h]
    exact .count hpc
  next hpc =>
    refine hgoto ?_ h
    rw [hpc]
    split
    · exact .reached ‹_›
    · exact .below (Nat.not_le.mp ‹_›)
  next hpc =>
    rw [← Option.some.inj h]
    exact .leave hpc
  next hpc =>
    rw [← Option.some.inj h]
    exact .clear hpc
  next hpc => cases h

inductive ProducerGoes (s : State T) : ProducerPc → ProducerPc → Prop
  | enter (h : s.done = false) : ProducerGoes s .top .wait
  | stop (h : s.done = true) : ProducerGoes s .top .exited
  | pass (h : s.done = true ∨ s.queue.availPidsCount < T ∨
      0 < s.queue.availPidsCount) : ProducerGoes s .turn .passed
  | mayScan (h : s.done = false) : ProducerGoes s .passed (.scan 0)
  | skip {found : ℕ} : ProducerGoes s (.scan found) (.scan found)
  | wake (h : s.mutex = none) : ProducerGoes s .sleep .top

/-- Everything the producer can do in one step. -/
inductive ProducerMove (s : State T) (line : Line) : State T → Prop
  | goto {pc : ProducerPc} (h : ProducerGoes s s.producer pc) :
      ProducerMove s line { s with producer := pc }
  | acquire (hpc : s.producer = .wait) (hfree : s.mutex = none) :
      ProducerMove s line
        { s with producer := .turn, mutex := some .producer }
  | release {pc : ProducerPc}
      (hpc : s.producer = .turn ∧ pc = .wait ∨
        s.producer = .passed ∧ pc = .exited ∨
        ∃ found, s.producer = .scan found ∧ (pc = .top ∨ pc = .sleep)) :
      ProducerMove s line { s with producer := pc, mutex := none }
  | insert {found pid : ℕ} (hpc : s.producer = .scan found)
      (hline : line = .pid pid) (hpid : 0 < pid)
      (hroom : s.queue.availPidsCount < T)
      (hfresh : s.queue.isAlreadyAttached pid = false) :
      ProducerMove s line
        { s with
          producer := .scan (found + 1)
          queue := s.queue.insert pid }

theorem producerStep_move {s t : State T} {line : Line}
    (h : producerStep s line = some t) : ProducerMove s line t := by
  have hgoto {pc : ProducerPc} (hg : ProducerGoes s s.producer pc)
      (ht : some { s with producer := pc } = some t) :
      ProducerMove s line t := by
    rw [← Option.some.inj ht]
    exact .goto hg
  unfold producerStep at h
  split at h
  next hpc =>
    refine hgoto ?_ h
    rw [hpc]
    cases hd : s.done
    · exact .enter hd
    · exact .stop hd
  next hpc =>
    split at h
    · rw [← Option.some.inj h]
      exact .acquire hpc ‹_›
    · cases h
  next hpc =>
    split at h
    · refine hgoto ?_ h
      rw [hpc]
      exact .pass ‹_›
    · rw [← Option.some.inj h]
      exact .release (Or.inl ⟨hpc, rfl⟩)
  next hpc =>
    split at h
    · rw [← Option.some.inj h]
      exact .release (Or.inr (Or.inl ⟨hpc, rfl⟩))
    · refine hgoto ?_ h
      rw [hpc]
      exact .mayScan (Bool.eq_false_of_not_eq_true ‹_›)
  next found hpc =>
    split at h
    · rw [← Option.some.inj h]
      refine .release (Or.inr (Or.inr ⟨found, hpc, ?_⟩))
      split
      · exact Or.inl rfl
      · exact Or.inr rfl
    · split at h
      · split at h
        · rw [← Option.some.inj h]
          have hskip : ProducerGoes s s.producer s.producer := by
            rw [hpc]
            exact .skip
          exact .goto hskip
        · rw [← Option.some.inj h]
          exact .insert hpc rfl ‹_ ∧ _›.1 ‹_ ∧ _›.2
            (Bool.eq_false_of_not_eq_true ‹_›)
      · cases h
  next hpc =>
    split at h
    · refine hgoto ?_ h
      rw [hpc]
      exact .wake ‹_›
    · cases h
  next hpc => cases h

/-- Everything a step can do: the signal thread and signals touch only the
pipe, their own place and `done`, which is never taken back. -/
inductive Move (cfg : Config) (s : State T) : Action T → State T → Prop
  | worker {w : Fin T} {outcome : Outcome} {t : State T}
      (h : WorkerMove cfg s w t) : Move cfg s (.worker w outcome) t
  | producer {line : Line} {t : State T} (h : ProducerMove s line t) :
      Move cfg s (.producer line) t
  | signaler {a : Action T} {signaler : SignalerPc}
      {donePipe : Option Bool} {done : Bool}
      (hdone : s.done = true → done = true) :
      Move cfg s a
        { s with
          signaler := signaler
          donePipe := donePipe
          done := done }

theorem step_move {cfg : Config} {s t : State T} {a : Action T}
    (h : step cfg s a = some t) : Move cfg s a t := by
  cases a with
  | worker w outcome => exact .worker (workerStep_move h)
  | producer line => exact .producer (producerStep_move h)
  | signal =>
      rw [← Option.some.inj h]
      exact .signaler id
  | signaler =>
      change signalerStep s = some t at h
      unfold signalerStep at h
      split at h
      · rw [← Option.some.inj h]
        exact .signaler id
      · split at h
        · rw [← Option.some.inj h]
          exact .signaler fun _ => rfl
        · cases h
      · split at h
        · rw [← Option.some.inj h]
          exact .signaler id
        · cases h
      · cases h

/-! ## Parts of runs with one worker -/

def producePid (pid : ℕ) : List (Action 1) :=
  [.producer .eof, .producer .eof, .producer .eof, .producer .eof,
    .producer (.pid pid), .producer .eof]

def work (steps : ℕ) : List (Action 1) :=
  List.replicate steps (.worker 0 .ok)

end Pgrep

end Phpspy

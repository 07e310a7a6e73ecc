import Phpspy.Pgrep.WorkQueue

/-!
# Who has the mutex, and who has ended

Beyond the queue, every reachable state is orderly: whoever has the mutex is
where it needs the mutex, `done` is set exactly if the signal thread is past its
wait, threads end only after that, and a worker outside of `main_pid` has no
pid.
-/

namespace Phpspy

namespace Pgrep

open Transition

variable {T : ℕ}

/-- A thread is at a place that it reaches with the mutex.  The signal thread
gives the mutex back in the step that takes it. -/
def State.critical (s : State T) : Thread T → Bool
  | .producer => s.producer.critical
  | .worker w => (s.workers w).pc.critical
  | .signaler => false

/-- The places of the signal thread after it has set `done`. -/
def SignalerPc.past : SignalerPc → Bool
  | .wake => true
  | .exited => true
  | _ => false

/-- A worker that selects a tracer has no more versions ahead than there are. -/
def WorkerPc.Selects (pc : WorkerPc) : Prop :=
  ∀ rest, pc = .select rest → rest.length ≤ PhpVersion.all.length

structure Sound (s : State T) : Prop where
  consistent : Consistent s
  holder : ∀ thread, s.mutex = some thread → s.critical thread = true
  past : s.signaler.past = s.done
  pipe : s.signaler ≠ .start → s.donePipe ≠ none
  worker_exited : ∀ w, (s.workers w).pc = .exited → s.done = true
  producer_exited : s.producer = .exited → s.done = true
  detached : ∀ w, (s.workers w).pc.attached = false →
    s.queue.attachedPids w = 0
  select : ∀ w, (s.workers w).pc.Selects

theorem Sound.initial : Sound (initial : State T) where
  consistent := Consistent.initial
  holder := fun thread h => by cases h
  past := rfl
  pipe := fun h => absurd rfl h
  worker_exited := fun w h => by cases h
  producer_exited := fun h => by cases h
  detached := fun _ _ => rfl
  select := fun _ _ h => by cases h

/-! ## Steps of a worker -/

/-- What a step of a worker leaves alone, and how it changes its own place, the
mutex and its own pid. -/
structure WorkerEffect (s : State T) (w : Fin T) (t : State T) : Prop where
  others : ∀ w', w' ≠ w → t.workers w' = s.workers w'
  producer : t.producer = s.producer
  signaler : t.signaler = s.signaler
  done : t.done = s.done
  mutex : t.mutex = none ∨
    t.mutex = s.mutex ∧ ((s.workers w).pc.critical = true →
      (t.workers w).pc.critical = true) ∨
    t.mutex = some (.worker w) ∧ (t.workers w).pc.critical = true
  attachedPids : ∀ w', w' ≠ w →
    t.queue.attachedPids w' = s.queue.attachedPids w'
  detached : (t.workers w).pc.attached = false →
    t.queue.attachedPids w = 0 ∨ (s.workers w).pc.attached = false ∧
      t.queue.attachedPids w = s.queue.attachedPids w

theorem Goes.keeps_critical {cfg : Config} {s : State T} {pc pc' : WorkerPc}
    (h : Goes cfg s pc pc') (hpc : pc.critical = true) :
    pc'.critical = true := by
  cases h <;> first | rfl | cases hpc

theorem Goes.keeps_attached {cfg : Config} {s : State T} {pc pc' : WorkerPc}
    (h : Goes cfg s pc pc') (hpc : pc.attached = true) :
    pc'.attached = true := by
  cases h <;> first | rfl | cases hpc

theorem afterTrace_attached (cfg : Config) (outcome : Outcome) :
    (afterTrace cfg outcome).attached = true := by
  unfold afterTrace
  split
  · rfl
  · rfl
  · split <;> rfl

theorem WorkerEffect.of_setPc {s t : State T} {w : Fin T} {pc : WorkerPc}
    (hworkers : t.workers = (s.setPc w pc).workers)
    (hproducer : t.producer = s.producer)
    (hsignaler : t.signaler = s.signaler) (hdone : t.done = s.done)
    (hqueue : t.queue = s.queue)
    (hmutex : t.mutex = none ∨
      t.mutex = s.mutex ∧ ((s.workers w).pc.critical = true →
        pc.critical = true) ∨
      t.mutex = some (.worker w) ∧ pc.critical = true)
    (hattached : (s.workers w).pc.attached = true → pc.attached = true) :
    WorkerEffect s w t := by
  have hpc : (t.workers w).pc = pc := by
    rw [hworkers, State.setPc_pc, if_pos rfl]
  refine ⟨fun w' hne => ?_, hproducer, hsignaler, hdone, ?_, ?_, ?_⟩
  · rw [hworkers]
    exact Function.update_of_ne hne _ _
  · rwa [hpc]
  · intro w' _
    rw [hqueue]
  · intro hdetached
    rw [hpc] at hdetached
    refine Or.inr ⟨?_, by rw [hqueue]⟩
    apply Bool.eq_false_of_not_eq_true
    intro hold
    rw [hattached hold] at hdetached
    cases hdetached

theorem WorkerMove.effect {cfg : Config} {s t : State T} {w : Fin T}
    (hmove : WorkerMove cfg s w t) : WorkerEffect s w t := by
  -- within `main_pid` the worker does not have the mutex and keeps its pid
  have hinside {pc : WorkerPc} {t' : State T}
      (hcritical : (s.workers w).pc.critical = false)
      (hpc : pc.attached = true)
      (hworkers : t'.workers = (s.setPc w pc).workers)
      (hproducer : t'.producer = s.producer)
      (hsignaler : t'.signaler = s.signaler) (hdone : t'.done = s.done)
      (hqueue : t'.queue = s.queue) (hmutex : t'.mutex = s.mutex) :
      WorkerEffect s w t' := by
    refine .of_setPc hworkers hproducer hsignaler hdone hqueue ?_ fun _ => hpc
    refine Or.inr (Or.inl ⟨hmutex, fun hold => ?_⟩)
    rw [hcritical] at hold
    cases hold
  cases hmove with
  | goto hgoes =>
      exact .of_setPc rfl rfl rfl rfl rfl
        (Or.inr (Or.inl ⟨rfl, hgoes.keeps_critical⟩)) hgoes.keeps_attached
  | acquire hpc hfree =>
      refine .of_setPc rfl rfl rfl rfl rfl (Or.inr (Or.inr ⟨rfl, rfl⟩)) ?_
      rw [hpc]
      exact fun h => by cases h
  | release hpc =>
      refine .of_setPc rfl rfl rfl rfl rfl (Or.inl rfl) ?_
      rcases hpc with ⟨hpc, -⟩ | ⟨hpc, -⟩
      · rw [hpc]
        exact fun h => by cases h
      · rw [hpc]
        exact fun h => by cases h
  | take hpc =>
      refine ⟨fun w' hne => ?_, rfl, rfl, rfl, Or.inl rfl, fun w' hne => ?_,
        fun hdetached => ?_⟩
      · exact Function.update_of_ne hne _ _
      · exact Function.update_of_ne hne _ _
      · simp [WorkerPc.attached] at hdetached
  | detect hpc =>
      exact hinside (by rw [hpc]; rfl) rfl rfl rfl rfl rfl rfl rfl
  | select hpc hphpv =>
      exact hinside (by rw [hpc]; rfl) rfl rfl rfl rfl rfl rfl rfl
  | @trace outcome hpc =>
      exact hinside (by rw [hpc]; rfl) (afterTrace_attached cfg outcome)
        rfl rfl rfl rfl rfl rfl
  | count hpc =>
      exact hinside (by rw [hpc]; rfl) rfl rfl rfl rfl rfl rfl rfl
  | leave hpc =>
      exact hinside (by rw [hpc]; rfl) rfl rfl rfl rfl rfl rfl rfl
  | clear hpc =>
      refine ⟨fun w' hne => ?_, rfl, rfl, rfl, ?_, fun w' hne => ?_,
        fun _ => Or.inl ?_⟩
      · exact Function.update_of_ne hne _ _
      · refine Or.inr (Or.inl ⟨rfl, fun hold => ?_⟩)
        rw [hpc] at hold
        cases hold
      · exact Function.update_of_ne hne _ _
      · exact Function.update_self _ _ _

theorem Goes.selects {cfg : Config} {s : State T} {pc pc' : WorkerPc}
    (h : Goes cfg s pc pc') (hpc : pc.Selects) : pc'.Selects := by
  rintro rest rfl
  cases h with
  | known _ => exact le_rfl
  | differs _ => exact (Nat.le_succ _).trans (hpc _ rfl)

theorem afterTrace_selects (cfg : Config) (outcome : Outcome) :
    (afterTrace cfg outcome).Selects := by
  intro rest h
  unfold afterTrace at h
  split at h
  · cases h
  · cases h
  · split at h <;> cases h

theorem WorkerMove.selects {cfg : Config} {s t : State T} {w : Fin T}
    (hmove : WorkerMove cfg s w t) (hpc : (s.workers w).pc.Selects) :
    (t.workers w).pc.Selects := by
  have hset (pc : WorkerPc) {t' : State T}
      (hworkers : t'.workers = (s.setPc w pc).workers) (h : pc.Selects) :
      (t'.workers w).pc.Selects := by
    rw [hworkers, State.setPc_pc, if_pos rfl]
    exact h
  have hplain {pc : WorkerPc} (h : ∀ rest, pc ≠ .select rest) : pc.Selects :=
    fun rest hrest => absurd hrest (h rest)
  cases hmove with
  | goto hgoes => exact hset _ rfl (hgoes.selects hpc)
  | acquire hold hfree => exact hset .turn rfl (hplain (by simp))
  | release hold =>
      refine hset _ rfl (hplain fun rest => ?_)
      rcases hold with ⟨-, rfl⟩ | ⟨-, rfl⟩
      · simp
      · simp
  | take hold =>
      simp only [Function.update_self]
      exact hplain (by simp)
  | detect hold =>
      refine hset (.select PhpVersion.all) rfl fun rest h => ?_
      rw [WorkerPc.select.inj h]
  | select hold hphpv => exact hset .loop rfl (hplain (by simp))
  | trace hold => exact hset _ rfl (afterTrace_selects cfg _)
  | count hold => exact hset .check rfl (hplain (by simp))
  | leave hold => exact hset .clear rfl (hplain (by simp))
  | clear hold => exact hset .top rfl (hplain (by simp))

theorem workerStep_exited {cfg : Config} {s t : State T} {w : Fin T}
    {outcome : Outcome} (h : workerStep cfg s w outcome = some t)
    (hexited : (t.workers w).pc = .exited) : s.done = true := by
  by_contra hdone
  have hmove := workerStep_move h
  cases hmove with
  | @goto pc hgoes =>
      rw [State.setPc_pc, if_pos rfl] at hexited
      subst hexited
      generalize (s.workers w).pc = old at hgoes
      cases hgoes with
      | stop hd => exact hdone hd
  | acquire hpc hfree => simp [State.setPc] at hexited
  | release hpc =>
      rcases hpc with ⟨hpc, rfl⟩ | ⟨hpc, rfl⟩
      · simp [State.setPc] at hexited
      · have htake : workerStep cfg s w outcome = some (s.setPc w .take) := by
          rw [workerStep, hpc]
          exact if_neg hdone
        have hplace := congrArg (fun u => (u.workers w).pc)
          (Option.some.inj (htake.symm.trans h))
        simp [State.setPc] at hplace
  | take hpc => simp at hexited
  | detect hpc => simp [State.setPc] at hexited
  | select hpc hphpv => simp [State.setPc] at hexited
  | @trace outcome hpc =>
      have hattached := afterTrace_attached cfg outcome
      have hplace : afterTrace cfg outcome = .exited := by
        simpa [State.setPc] using hexited
      rw [hplace] at hattached
      cases hattached
  | count hpc => simp [State.setPc] at hexited
  | leave hpc => simp [State.setPc] at hexited
  | clear hpc => simp [State.setPc] at hexited

theorem workerStep_donePipe {cfg : Config} {s t : State T} {w : Fin T}
    {outcome : Outcome} (h : workerStep cfg s w outcome = some t) :
    t.donePipe = s.donePipe ∨ t.donePipe = writeDonePipe s.donePipe := by
  cases workerStep_move h with
  | leave hpc =>
      rw [workerStep, hpc] at h
      rw [← Option.some.inj h]
      dsimp only
      split
      · exact Or.inr rfl
      · exact Or.inl rfl
  | goto hgoes => exact Or.inl rfl
  | acquire hpc hfree => exact Or.inl rfl
  | release hpc => exact Or.inl rfl
  | take hpc => exact Or.inl rfl
  | detect hpc => exact Or.inl rfl
  | select hpc hphpv => exact Or.inl rfl
  | trace hpc => exact Or.inl rfl
  | count hpc => exact Or.inl rfl
  | clear hpc => exact Or.inl rfl

theorem workerStep_sound {cfg : Config} {s t : State T} {w : Fin T}
    {outcome : Outcome} (h : workerStep cfg s w outcome = some t)
    (hs : Sound s) : Sound t := by
  have heffect := (workerStep_move h).effect
  refine ⟨(workerStep_move h).consistent hs.consistent, ?_, ?_, ?_, ?_, ?_, ?_,
    ?_⟩
  · intro thread hthread
    rcases heffect.mutex with hfree | ⟨hsame, hkeeps⟩ | ⟨hown, hcritical⟩
    · rw [hfree] at hthread
      cases hthread
    · rw [hsame] at hthread
      have hold := hs.holder thread hthread
      rcases thread with _ | w' | _
      · rw [State.critical, heffect.producer]
        exact hold
      · by_cases hw : w' = w
        · subst hw
          exact hkeeps hold
        · rw [State.critical, heffect.others w' hw]
          exact hold
      · exact hold
    · rw [hown] at hthread
      rw [← Option.some.inj hthread]
      exact hcritical
  · rw [heffect.signaler, heffect.done]
    exact hs.past
  · intro hstart
    rw [heffect.signaler] at hstart
    have hpipe := hs.pipe hstart
    rcases workerStep_donePipe h with hsame | hwritten
    · rwa [hsame]
    · simpa [hwritten, writeDonePipe] using hpipe
  · intro w' hexited
    rw [heffect.done]
    by_cases hw : w' = w
    · subst hw
      exact workerStep_exited h hexited
    · rw [heffect.others w' hw] at hexited
      exact hs.worker_exited w' hexited
  · rw [heffect.producer, heffect.done]
    exact hs.producer_exited
  · intro w' hdetached
    by_cases hw : w' = w
    · subst hw
      rcases heffect.detached hdetached with hzero | ⟨hold, hsame⟩
      · exact hzero
      · rw [hsame]
        exact hs.detached w' hold
    · rw [heffect.others w' hw] at hdetached
      rw [heffect.attachedPids w' hw]
      exact hs.detached w' hdetached
  · intro w'
    by_cases hw : w' = w
    · rw [hw]
      exact (workerStep_move h).selects (hs.select w)
    · rw [heffect.others w' hw]
      exact hs.select w'

/-! ## Steps of the producer -/

/-- What a step of the producer does to its own place and to the mutex. -/
structure ProducerEffect (s t : State T) : Prop where
  workers : t.workers = s.workers
  signaler : t.signaler = s.signaler
  done : t.done = s.done
  donePipe : t.donePipe = s.donePipe
  mutex : t.mutex = none ∨
    t.mutex = s.mutex ∧ (s.producer.critical = true →
      t.producer.critical = true) ∨
    t.mutex = some .producer ∧ t.producer.critical = true
  attachedPids : t.queue.attachedPids = s.queue.attachedPids

theorem ProducerGoes.keeps_critical {s : State T} {pc pc' : ProducerPc}
    (h : ProducerGoes s pc pc') (hpc : pc.critical = true) :
    pc'.critical = true := by
  cases h <;> first | rfl | cases hpc

theorem ProducerMove.effect {s t : State T} {line : Line}
    (hmove : ProducerMove s line t) : ProducerEffect s t := by
  cases hmove with
  | goto hgoes =>
      exact ⟨rfl, rfl, rfl, rfl, Or.inr (Or.inl ⟨rfl, hgoes.keeps_critical⟩),
        rfl⟩
  | acquire hpc hfree =>
      exact ⟨rfl, rfl, rfl, rfl, Or.inr (Or.inr ⟨rfl, rfl⟩), rfl⟩
  | release hpc => exact ⟨rfl, rfl, rfl, rfl, Or.inl rfl, rfl⟩
  | insert hpc hline hpid hroom hfresh =>
      exact ⟨rfl, rfl, rfl, rfl, Or.inr (Or.inl ⟨rfl, fun _ => rfl⟩), rfl⟩

theorem producerStep_exited {s t : State T} {line : Line}
    (h : producerStep s line = some t) (hexited : t.producer = .exited) :
    s.done = true := by
  by_contra hdone
  cases producerStep_move h with
  | @goto pc hgoes =>
      obtain rfl : pc = .exited := hexited
      generalize s.producer = old at hgoes
      cases hgoes with
      | stop hd => exact hdone hd
  | acquire hpc hfree => cases hexited
  | @release pc hpc =>
      obtain rfl : pc = .exited := hexited
      rcases hpc with ⟨-, hpc⟩ | ⟨hpc, -⟩ | ⟨found, -, hpc | hpc⟩
      · cases hpc
      · have hscan : producerStep s line =
            some { s with producer := .scan 0 } := by
          rw [producerStep, hpc]
          exact if_neg hdone
        have hplace := congrArg State.producer
          (Option.some.inj (hscan.symm.trans h))
        cases hplace
      · cases hpc
      · cases hpc
  | insert hpc hline hpid hroom hfresh => cases hexited

theorem producerStep_sound {s t : State T} {line : Line}
    (h : producerStep s line = some t) (hs : Sound s) : Sound t := by
  have heffect := (producerStep_move h).effect
  refine ⟨(producerStep_move h).consistent hs.consistent, ?_, ?_, ?_, ?_, ?_,
    ?_, ?_⟩
  · intro thread hthread
    rcases heffect.mutex with hfree | ⟨hsame, hkeeps⟩ | ⟨hown, hcritical⟩
    · rw [hfree] at hthread
      cases hthread
    · rw [hsame] at hthread
      have hold := hs.holder thread hthread
      rcases thread with _ | w' | _
      · exact hkeeps hold
      · rw [State.critical, heffect.workers]
        exact hold
      · exact hold
    · rw [hown] at hthread
      rw [← Option.some.inj hthread]
      exact hcritical
  · rw [heffect.signaler, heffect.done]
    exact hs.past
  · rw [heffect.signaler, heffect.donePipe]
    exact hs.pipe
  · rw [heffect.workers, heffect.done]
    exact hs.worker_exited
  · intro hexited
    rw [heffect.done]
    exact producerStep_exited h hexited
  · rw [heffect.workers, heffect.attachedPids]
    exact hs.detached
  · rw [heffect.workers]
    exact hs.select

/-! ## Steps of the signal thread, and signals -/

/-- The signal thread creates the pipe, sets `done` when there is something in
it, and ends. -/
theorem signalerStep_cases {s t : State T} (h : signalerStep s = some t) :
    s.signaler = .start ∧
        t = { s with signaler := .select, donePipe := some false } ∨
      s.signaler = .select ∧ s.donePipe = some true ∧
        t = { s with
              signaler := .wake
              donePipe := some false
              done := true } ∨
      s.signaler = .wake ∧ s.mutex = none ∧
        t = { s with signaler := .exited } := by
  unfold signalerStep at h
  split at h
  next hpc => exact Or.inl ⟨hpc, (Option.some.inj h).symm⟩
  next hpc =>
    split at h
    · exact Or.inr (Or.inl ⟨hpc, ‹_›, (Option.some.inj h).symm⟩)
    · cases h
  next hpc =>
    split at h
    · exact Or.inr (Or.inr ⟨hpc, ‹_›, (Option.some.inj h).symm⟩)
    · cases h
  next hpc => cases h

theorem Sound.of_signal {s : State T} (hs : Sound s) {signaler : SignalerPc}
    {donePipe : Option Bool} {done : Bool}
    (hdone : s.done = true → done = true) (hpast : signaler.past = done)
    (hpipe : signaler ≠ .start → donePipe ≠ none) :
    Sound
      { s with
        signaler := signaler
        donePipe := donePipe
        done := done } where
  consistent := hs.consistent.congr rfl rfl rfl rfl hdone
  holder := by
    rintro (_ | w | _) hthread
    · exact hs.holder _ hthread
    · exact hs.holder _ hthread
    · exact hs.holder _ hthread
  past := hpast
  pipe := hpipe
  worker_exited := fun w hw => hdone (hs.worker_exited w hw)
  producer_exited := fun hp => hdone (hs.producer_exited hp)
  detached := hs.detached
  select := hs.select

theorem signalerStep_sound {s t : State T} (h : signalerStep s = some t)
    (hs : Sound s) : Sound t := by
  have hpast := hs.past
  rcases signalerStep_cases h with ⟨hpc, rfl⟩ | ⟨hpc, -, rfl⟩ | ⟨hpc, -, rfl⟩
  · rw [hpc] at hpast
    exact hs.of_signal id hpast fun _ => by simp
  · exact hs.of_signal (fun _ => rfl) rfl fun _ => by simp
  · rw [hpc] at hpast
    refine hs.of_signal id hpast fun _ => hs.pipe ?_
    rw [hpc]
    decide

theorem step_sound (cfg : Config) (s : State T) (a : Action T) (t : State T)
    (hs : Sound s) (hstep : step cfg s a = some t) : Sound t := by
  cases a with
  | worker w outcome => exact workerStep_sound hstep hs
  | producer line => exact producerStep_sound hstep hs
  | signaler => exact signalerStep_sound hstep hs
  | signal =>
      rw [← Option.some.inj hstep]
      refine hs.of_signal id hs.past fun hstart => ?_
      simpa [writeDonePipe] using hs.pipe hstart

theorem run_sound {cfg : Config} {actions : List (Action T)} {s : State T}
    (hrun : run (step cfg) initial actions = some s) : Sound s :=
  run_invariant (step_sound cfg) Sound.initial hrun

end Pgrep

end Phpspy

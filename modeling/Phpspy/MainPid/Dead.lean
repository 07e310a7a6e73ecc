import Phpspy.MainPid.Limit
import Phpspy.Trace.Depth

/-!
# A target that is gone

A read from a process that is gone sets `PHPSPY_ERR_PID_DEAD`, and `main_pid`
leaves its loop when `do_trace` returns it.  With `-c`, however, `do_trace`
ends the stack all the same, and then returns what the event handler returns.
-/

namespace Phpspy

open ByteText

namespace Readings

/-- A phase that runs finds the process gone. -/
def FindsDead (r : Readings) (opts : TraceOptions) : Prop :=
  r.executorGlobals = Status.ok ∧
    ∃ p ∈ r.ran opts, p.status.pidDead = true

/-- The status that `do_trace` returns, given what the handler returns at the
end of the stack. -/
def doTraceStatus (r : Readings) (opts : TraceOptions) (stackEnd : Status) :
    Status :=
  if r.executorGlobals ≠ Status.ok then r.executorGlobals
  else if (r.gathered opts).2 = Status.ok ∨ opts.continueOnError = true then
    stackEnd
  else (r.gathered opts).2

theorem FindsDead.doTraceStatus_iff {r : Readings} {opts : TraceOptions}
    (h : r.FindsDead opts) (stackEnd : Status) :
    (r.doTraceStatus opts stackEnd).pidDead = true ↔
      opts.continueOnError = false ∨ stackEnd.pidDead = true := by
  obtain ⟨hglobals, hran⟩ := h
  have hdead := (r.gathered_pidDead_iff opts).mpr hran
  have hne : (r.gathered opts).2 ≠ Status.ok := by
    intro hok
    rw [hok] at hdead
    exact absurd hdead (by decide)
  rw [doTraceStatus, if_neg (not_not.mpr hglobals)]
  cases hcontinue : opts.continueOnError with
  | false => simp [hne, hdead]
  | true => simp

end Readings

theorem Fout.stackEnd_pidDead (opts : Fout.Options) (libc : Fout.Libc)
    (nextTraceId : ℕ) (u : Fout.Udata) (traceTs : Bytes) (pid : ℤ) :
    (Fout.eventHandler opts libc nextTraceId u
      (.stackEnd traceTs pid)).2.1.pidDead = false := by
  simp only [Fout.eventHandler]
  split
  · rfl
  · split
    · rfl
    · exact Fout.write_pidDead _ _ _ _

namespace MainPid

theorem doTrace_status (cfg : Config) (s : State) (sample : Sample) :
    (doTrace cfg s sample).2 =
      sample.readings.doTraceStatus cfg.trace
        (Fout.eventHandler cfg.fout cfg.libc (recorded cfg s sample).2
          (recorded cfg s sample).1
          (.stackEnd sample.traceTs cfg.pid)).2.1 := by
  rw [doTrace, Readings.doTraceStatus]
  split
  · rfl
  · dsimp only
    split
    · rfl
    · rfl

/-- A turn reports that the process is gone: `do_trace` does, whatever the
handler returns, and the loop ends with this turn and does not count it. -/
structure ReportsDead (cfg : Config) (s : State) (sample : Sample) :
    Prop where
  status : ∀ stackEnd,
    (sample.readings.doTraceStatus cfg.trace stackEnd).pidDead = true
  loop : sample.done = false → ∀ samples,
    (samplingLoop cfg s (sample :: samples)).2 = some .pidDead ∧
      (samplingLoop cfg s (sample :: samples)).1.traceCount = s.traceCount

theorem samplingLoop_of_pidDead {cfg : Config} {s : State} {sample : Sample}
    (hdead : (doTrace cfg s sample).2.pidDead = true)
    (hdone : sample.done = false) (samples : List Sample) :
    (samplingLoop cfg s (sample :: samples)).2 = some .pidDead ∧
      (samplingLoop cfg s (sample :: samples)).1.traceCount =
        s.traceCount := by
  have hturn : turn cfg s sample =
      ((doTrace cfg s sample).1, some .pidDead) := by
    simp only [turn, hdead, if_true]
  have hrunning : ¬ sample.done = true := Bool.eq_false_iff.mp hdone
  rw [(samplingLoop_stop hrunning samples hturn).1]
  exact ⟨rfl, doTrace_traceCount cfg s sample⟩

theorem turn_ne_pidDead {cfg : Config} {s : State} {sample : Sample}
    (hcontinue : cfg.trace.continueOnError = true)
    (hglobals : sample.readings.executorGlobals = Status.ok) :
    (turn cfg s sample).2 ≠ some .pidDead := by
  have halive : (doTrace cfg s sample).2.pidDead = false := by
    rw [doTrace_status, Readings.doTraceStatus,
      if_neg (not_not.mpr hglobals), if_pos (.inr hcontinue)]
    exact Fout.stackEnd_pidDead _ _ _ _ _ _
  have htimeUp : (if sample.timeUp then some Stop.timeUp else none) ≠
      some .pidDead := by
    split <;> simp
  simp only [turn, halive, Bool.false_eq_true, if_false]
  split
  · split
    · simp
    · exact htimeUp
  · exact htimeUp

/-- A turn that finds the process gone reports it, unless `-c` is given; then
it goes on as if the process were there. -/
theorem turn_reportsDead_iff (cfg : Config) (s : State) (sample : Sample) :
    ((sample.readings.FindsDead cfg.trace → ReportsDead cfg s sample) ↔
      (cfg.trace.continueOnError = true →
        ¬ sample.readings.FindsDead cfg.trace)) ∧
      (cfg.trace.continueOnError = true →
        sample.readings.FindsDead cfg.trace →
          (turn cfg s sample).2 ≠ some .pidDead) := by
  refine ⟨⟨?_, ?_⟩, fun hcontinue hfinds =>
    turn_ne_pidDead hcontinue hfinds.1⟩
  · intro hreports hcontinue hfinds
    have hok := (hfinds.doTraceStatus_iff Status.ok).mp
      ((hreports hfinds).status Status.ok)
    rcases hok with hnot | hdead
    · rw [hcontinue] at hnot
      exact Bool.noConfusion hnot
    · exact absurd hdead (by decide)
  · intro hnever hfinds
    have hcontinue : cfg.trace.continueOnError = false :=
      Bool.eq_false_iff.mpr fun h => hnever h hfinds
    have hstatus : ∀ stackEnd, (sample.readings.doTraceStatus cfg.trace
        stackEnd).pidDead = true :=
      fun stackEnd => (hfinds.doTraceStatus_iff stackEnd).mpr (.inl hcontinue)
    refine ⟨hstatus, fun hdone samples => ?_⟩
    exact samplingLoop_of_pidDead
      (by rw [doTrace_status]; exact hstatus _) hdone samples

/-! ## A process that exits during a sample -/

def exiting : Remote where
  byte a :=
    if a = 512 + 25 then 1
    else if a = 2048 + 489 then 2
    else 0
  fault raddr _ := if raddr = 4096 then some .noProcess else none

def exitingProbe : Probe :=
  { functionlessProbe (-1) with mem := exiting }

/-- `-c -m` and a limit of two traces. -/
def twoTraces : Config :=
  { oneTrace with
    trace := memoryOnError
    traceLimit := 2 }

/-- The read of the memory usage fails because the process is gone.  The turn
is counted, and the loop goes on. -/
theorem exiting_is_counted :
    ∃ u r, Fout.init twoTraces.fout twoTraces.libc = some u ∧
      exitingProbe.readings 0 = some r ∧
      r.memoryInfo.status = Status.error ||| Status.errPidDead ∧
      r.FindsDead twoTraces.trace ∧
      (turn twoTraces (start u 0) ⟨false, r, [], false⟩).2 = none ∧
      (turn twoTraces (start u 0) ⟨false, r, [], false⟩).1.traceCount = 1 := by
  refine ⟨_, _, rfl, rfl, by decide +kernel, ⟨by decide +kernel, ?_⟩,
    by decide +kernel, by decide +kernel⟩
  exact (Readings.gathered_pidDead_iff _ _).mp (by decide +kernel)

end MainPid

end Phpspy

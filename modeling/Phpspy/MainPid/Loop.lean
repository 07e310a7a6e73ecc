import Phpspy.Fout.Traces
import Phpspy.Trace.DoTrace

/-!
# The sampling loop

`main_pid` samples one process until it is told to stop, the process is gone,
the trace limit is reached or the time is up.  Here it runs outside of pgrep
mode and with the fout handler.
-/

namespace Phpspy
namespace MainPid

open ByteText

/-- The options and the environment of the loop.  `-b` accepts no buffer size
below one. -/
structure Config where
  fout : Fout.Options
  bufferSize_pos : 0 < fout.foutBufferSize
  trace : TraceOptions
  libc : Fout.Libc
  pid : ℤ
  /-- `opt_trace_limit` -/
  traceLimit : ℕ

/-- What one turn of the loop finds: whether `done` is set, what there is to
read, the time for the verbose fields, and whether the time limit is over. -/
structure Sample where
  done : Bool
  readings : Readings
  traceTs : Bytes
  timeUp : Bool

/-- The handler's data with the trace id counter, and `trace_count`. -/
structure State where
  udata : Fout.Udata
  nextTraceId : ℕ
  traceCount : ℕ

inductive Stop where
  | done
  | pidDead
  | limit
  | timeUp
deriving DecidableEq, Repr

variable (cfg : Config)

/-- The handler after the start of a stack and the records of a sample. -/
def recorded (s : State) (sample : Sample) : Fout.Udata × ℕ :=
  Fout.runEvents cfg.fout cfg.libc (s.udata, s.nextTraceId)
    (.stackBegin :: (sample.readings.gathered cfg.trace).1)

/-- `do_trace` -/
def doTrace (s : State) (sample : Sample) : State × Status :=
  if sample.readings.executorGlobals ≠ Status.ok then
    (s, sample.readings.executorGlobals)
  else
    let rv := (sample.readings.gathered cfg.trace).2
    let (u, nextTraceId) := recorded cfg s sample
    if rv = Status.ok ∨ cfg.trace.continueOnError = true then
      let (u, rv, nextTraceId) :=
        Fout.eventHandler cfg.fout cfg.libc nextTraceId u
          (.stackEnd sample.traceTs cfg.pid)
      ({ s with udata := u, nextTraceId := nextTraceId }, rv)
    else ({ s with udata := u, nextTraceId := nextTraceId }, rv)

/-- The statuses that count towards the trace limit. -/
def countable (rv : Status) : Bool :=
  rv = Status.ok || rv = Status.errTruncated

/-- The body of the loop, with the reason to leave it. -/
def turn (s : State) (sample : Sample) : State × Option Stop :=
  let (s, rv) := doTrace cfg s sample
  let timeUp := if sample.timeUp then some Stop.timeUp else none
  if rv.pidDead then (s, some .pidDead)
  else if cfg.traceLimit > 0 ∧ countable rv = true then
    let s := { s with traceCount := s.traceCount + 1 }
    if s.traceCount ≥ cfg.traceLimit then (s, some .limit) else (s, timeUp)
  else (s, timeUp)

/-- The loop of `main_pid` over the samples to come.  It is still running if
it uses up the list. -/
def samplingLoop : State → List Sample → State × Option Stop
  | s, [] => (s, none)
  | s, sample :: samples =>
      if sample.done then (s, some .done)
      else
        match turn cfg s sample with
        | (s, some stop) => (s, some stop)
        | (s, none) => samplingLoop s samples

/-- The turns that the loop takes: their samples, with the states they start
in. -/
def turns : State → List Sample → List (State × Sample)
  | _, [] => []
  | s, sample :: samples =>
      if sample.done then []
      else
        (s, sample) ::
          match turn cfg s sample with
          | (_, some _) => []
          | (s, none) => turns s samples

/-- A turn increments `trace_count`. -/
def isCounted (t : State × Sample) : Bool :=
  decide (t.1.traceCount < (turn cfg t.1 t.2).1.traceCount)

/-- A turn writes to the output. -/
def isWritten (t : State × Sample) : Bool :=
  decide (t.1.udata.writes.length <
    (turn cfg t.1 t.2).1.udata.writes.length)

/-- No read of a sample fails. -/
def readsAll (sample : Sample) : Bool :=
  sample.readings.executorGlobals = Status.ok &&
    (sample.readings.gathered cfg.trace).2 = Status.ok

/-- No read of a turn fails, and none of its records, if there are any, gets
into the buffer before `STACK_END`. -/
def endsEmpty (t : State × Sample) : Bool :=
  readsAll cfg t.2 && (recorded cfg t.1 t.2).1.len = 0

def writtenTraces (s : State) (samples : List Sample) : ℕ :=
  (turns cfg s samples).countP (isWritten cfg)

end MainPid
end Phpspy

import Phpspy.Support.Bytes

/-!
# Status codes and trace events

`phpspy` walks the stack of a PHP process and reports what it finds to an
event handler, one event at a time.  This module has the status bits the
functions return and the events a handler receives.
-/

namespace Phpspy

open ByteText

/-- The status bits of `phpspy.h`.  `PHPSPY_OK` is the status with no bit
set. -/
structure Status where
  err : Bool
  pidDead : Bool
  truncated : Bool
  skipped : Bool
deriving DecidableEq, Repr

namespace Status

/-- `PHPSPY_OK` -/
def ok : Status := ⟨false, false, false, false⟩

/-- `PHPSPY_ERR` -/
def error : Status := ⟨true, false, false, false⟩

/-- `PHPSPY_ERR_PID_DEAD` -/
def errPidDead : Status := ⟨false, true, false, false⟩

/-- `PHPSPY_ERR_TRUNCATED` -/
def errTruncated : Status := ⟨false, false, true, false⟩

/-- `PHPSPY_ERR_SKIPPED` -/
def errSkipped : Status := ⟨false, false, false, true⟩

instance : OrOp Status :=
  ⟨fun a b =>
    ⟨a.err || b.err, a.pidDead || b.pidDead, a.truncated || b.truncated,
      a.skipped || b.skipped⟩⟩

@[simp] theorem ok_or (s : Status) : ok ||| s = s := by
  cases s
  rfl

theorem error_ne_ok : error ≠ ok := by
  decide

end Status

/-- `PHPSPY_STR_SIZE` -/
def strSize : ℕ := 256

/-- `trace_loc`: the used parts of its character arrays, and the line. -/
structure TraceLoc where
  func : Bytes
  cls : Bytes
  file : Bytes
  lineno : ℤ
deriving DecidableEq, Repr

/-- `trace_frame` -/
structure TraceFrame where
  loc : TraceLoc
  depth : ℕ
deriving DecidableEq, Repr

/-- `trace_request`: four adjacent character arrays.  `beyond` is the memory
after the last one, which an unterminated field runs into, and `ts` is the
request time as `%f` prints it. -/
structure TraceRequest where
  uri : Bytes
  path : Bytes
  qstring : Bytes
  cookie : Bytes
  beyond : Bytes
  ts : Bytes
deriving DecidableEq, Repr

/-- The events between `PHPSPY_TRACE_EVENT_INIT` and
`PHPSPY_TRACE_EVENT_DEINIT`.  The end of a stack carries what the handler asks
the system for: the time as `%f` prints it and the pid of the target. -/
inductive Event where
  | stackBegin
  | frame (frame : TraceFrame)
  | varpeek (name filenameLineno zvalStr : Bytes)
  | glopeek (key zvalStr : Bytes)
  | request (request : TraceRequest)
  | mem (size peak : ℕ)
  | stackEnd (traceTs : Bytes) (pid : ℤ)
deriving DecidableEq, Repr

/-- The events that describe a stack, as opposed to the two that delimit
it. -/
def Event.isRecord : Event → Bool
  | .stackBegin => false
  | .stackEnd _ _ => false
  | _ => true

/-- The location as both event handlers print it:
`%.*s%s%.*s %.*s:%d`. -/
def TraceLoc.text (loc : TraceLoc) : Bytes :=
  cstr loc.cls ++ (if loc.cls.length > 0 then lit "::" else []) ++
    cstr loc.func ++ lit " " ++ cstr loc.file ++ lit ":" ++
      decimalInt loc.lineno

end Phpspy

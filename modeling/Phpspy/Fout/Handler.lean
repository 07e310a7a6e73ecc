import Phpspy.Fout.Write

/-!
# The fout event handler

`event_handler_fout` turns events into records and writes a trace when its
stack ends.
-/

namespace Phpspy

open ByteText

/-- The formatted bodies of the records that `event_handler_fout` appends for
an event, before delimiters are stripped. -/
def Event.texts : Event → List Bytes
  | .stackBegin => []
  | .frame f => [decimal f.depth ++ lit " " ++ f.loc.text]
  | .varpeek name filenameLineno zvalStr =>
      [lit "# varpeek " ++ cstr name ++ lit "@" ++ cstr filenameLineno ++
        lit " = " ++ cstr zvalStr]
  | .glopeek key zvalStr =>
      [lit "# glopeek " ++ cstr key ++ lit " = " ++ cstr zvalStr]
  | .request r =>
      [lit "# uri = " ++
          cstr (r.uri ++ r.path ++ r.qstring ++ r.cookie ++ r.beyond),
        lit "# path = " ++ cstr (r.path ++ r.qstring ++ r.cookie ++ r.beyond),
        lit "# qstring = " ++ cstr (r.qstring ++ r.cookie ++ r.beyond),
        lit "# cookie = " ++ cstr (r.cookie ++ r.beyond),
        lit "# ts = " ++ r.ts]
  | .mem size peak =>
      [lit "# mem " ++ decimal size ++ lit " " ++ decimal peak]
  | .stackEnd _ _ => []

namespace Fout

/-- The records added at the end of a stack by `-d`. -/
def verboseTexts (opts : Options) (traceTs : Bytes) (pid : ℤ) : List Bytes :=
  (if opts.verboseFieldsTs then [lit "# trace_ts = " ++ traceTs] else []) ++
    if opts.verboseFieldsPid then [lit "# pid = " ++ decimalInt pid] else []

/-- `PHPSPY_TRACE_EVENT_INIT`, once the output is open. -/
def init (opts : Options) (libc : Libc) : Option Udata :=
  let u : Udata :=
    { buf := []
      len := 0
      cap := opts.foutBufferSize
      truncated := false
      truncMarker := []
      traceIdTail := List.replicate tailSize 0
      traceIdTailLen := 0
      reallocs := 0
      prints := 0
      writes := [] }
  let (u, rv) := realloc libc u u.cap
  if rv ≠ Status.ok then none
  else some { u with truncMarker := truncMarkerText opts }

/-- Append the records of an event, one body and one delimiter each. -/
def putRecords (opts : Options) (libc : Libc) (u : Udata)
    (texts : List Bytes) : Udata :=
  texts.foldl (putRecord opts libc) u

def rejects (opts : Options) (text : Bytes) : Bool :=
  match opts.filterRe with
  | none => false
  | some re => if opts.filterNegate then re text else !re text

/-- The filter test of `PHPSPY_TRACE_EVENT_STACK_END`. -/
def filteredOut (opts : Options) (u : Udata) : Bool :=
  rejects opts (cstr u.buf)

/-- `event_handler_fout` for an initialized handler.  The last component is
the shared trace id counter. -/
def eventHandler (opts : Options) (libc : Libc) (nextTraceId : ℕ) (u : Udata)
    (event : Event) : Udata × Status × ℕ :=
  match event with
  | .stackBegin =>
      ({ u with len := 0, buf := u.buf.set 0 0, truncated := false },
        Status.ok, nextTraceId)
  | .stackEnd traceTs pid =>
      if u.len = 0 then (u, Status.ok, nextTraceId)
      else if filteredOut opts u then (u, Status.errSkipped, nextTraceId)
      else
        write opts libc nextTraceId
          (putRecords opts libc u (verboseTexts opts traceTs pid))
  | event =>
      (putRecords opts libc u event.texts, Status.ok, nextTraceId)

/-- A handler after a sequence of events, with the trace id counter. -/
def runEvents (opts : Options) (libc : Libc) :
    Udata × ℕ → List Event → Udata × ℕ
  | st, [] => st
  | (u, nextTraceId), event :: events =>
      let (v, _, nextTraceId) := eventHandler opts libc nextTraceId u event
      runEvents opts libc (v, nextTraceId) events

theorem runEvents_append (opts : Options) (libc : Libc) (st : Udata × ℕ)
    (xs ys : List Event) :
    runEvents opts libc st (xs ++ ys) =
      runEvents opts libc (runEvents opts libc st xs) ys := by
  induction xs generalizing st with
  | nil => rfl
  | cons x xs ih =>
      obtain ⟨u, n⟩ := st
      exact ih _

theorem eventHandler_of_isRecord (opts : Options) (libc : Libc)
    (nextTraceId : ℕ) (u : Udata) {event : Event}
    (hevent : event.isRecord = true) :
    eventHandler opts libc nextTraceId u event =
      (putRecords opts libc u event.texts, Status.ok, nextTraceId) := by
  cases event with
  | stackBegin => simp [Event.isRecord] at hevent
  | stackEnd ts pid => simp [Event.isRecord] at hevent
  | frame f => rfl
  | varpeek n f z => rfl
  | glopeek k z => rfl
  | request r => rfl
  | mem s p => rfl

theorem runEvents_of_isRecord (opts : Options) (libc : Libc) (u : Udata)
    (n : ℕ) {events : List Event} (hevents : ∀ e ∈ events, e.isRecord = true) :
    runEvents opts libc (u, n) events =
      (putRecords opts libc u (events.flatMap Event.texts), n) := by
  induction events generalizing u with
  | nil => rfl
  | cons e events ih =>
      have hrest := ih (putRecords opts libc u e.texts)
        fun x hx => hevents x (List.mem_cons_of_mem e hx)
      rw [runEvents,
        eventHandler_of_isRecord opts libc n u (hevents e List.mem_cons_self)]
      dsimp only
      rw [hrest, List.flatMap_cons, putRecords, putRecords, putRecords,
        List.foldl_append]

end Fout
end Phpspy

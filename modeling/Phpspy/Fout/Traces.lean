import Phpspy.Fout.RecordList
import Phpspy.Support.Reassembly

/-!
# Whole traces through the handler

From the start of a stack to its end the handler turns a trace into a sequence
of payloads.  This module says which ones, and which frames they carry, so
that threads which share the trace id counter become senders of numbered
messages.
-/

namespace Phpspy

open ByteText

/-- The name of a frame: `%.*s%s%.*s`. -/
def TraceLoc.name (loc : TraceLoc) : Bytes :=
  cstr loc.cls ++ (if loc.cls.length > 0 then lit "::" else []) ++
    cstr loc.func

namespace Fout

open GreedyPacking Interleaving Reassembly

/-- The body of a record, and the name of the frame if it describes one. -/
structure Entry where
  text : Bytes
  frame : Option Bytes

def comment (text : Bytes) : Entry :=
  { text := text
    frame := none }

def eventEntries : Event → List Entry
  | .frame f =>
      [{ text := decimal f.depth ++ lit " " ++ f.loc.text
         frame := some f.loc.name }]
  | event => event.texts.map comment

theorem eventEntries_text (event : Event) :
    (eventEntries event).map Entry.text = event.texts := by
  have hcomment : ∀ texts : List Bytes,
      (texts.map comment).map Entry.text = texts := by
    intro texts
    rw [List.map_map]
    exact List.map_id texts
  cases event with
  | frame f => rfl
  | stackBegin => rfl
  | stackEnd ts pid => rfl
  | varpeek name at' value => exact hcomment _
  | glopeek key value => exact hcomment _
  | request r => exact hcomment _
  | mem size peak => exact hcomment _

structure Trace where
  events : List Event
  traceTs : Bytes
  pid : ℤ
  isRecord : ∀ e ∈ events, e.isRecord = true

namespace Trace

variable (opts : Options) (tr : Trace)

def handled : List Event :=
  .stackBegin :: (tr.events ++ [.stackEnd tr.traceTs tr.pid])

def entries : List Entry :=
  tr.events.flatMap eventEntries

def allEntries : List Entry :=
  tr.entries ++ (verboseTexts opts tr.traceTs tr.pid).map comment

end Trace

def Entry.record (opts : Options) (e : Entry) : Bytes :=
  Fout.record opts e.text

def keptEntries (es : List Entry) : List Entry :=
  es.take (fit (fun e => e.text.length + 1) (maxBuffer - 1) es)

theorem kept_map_record (opts : Options) (es : List Entry) :
    kept (es.map (Entry.record opts)) =
      (keptEntries es).map (Entry.record opts) := by
  have hweight : (fun e : Entry => (e.record opts).length) =
      fun e => e.text.length + 1 := by
    funext e
    exact record_length opts e.text
  rw [kept, fit_map, hweight, keptEntries, List.map_take]

def frames (es : List Entry) : List Bytes :=
  es.filterMap Entry.frame

namespace Trace

variable (opts : Options) (tr : Trace)

def records : List Bytes :=
  (tr.allEntries opts).map (Entry.record opts)

theorem records_delimited :
    ∀ r ∈ tr.records opts, Delimited opts.frameDelim r := by
  intro r hr
  obtain ⟨e, -, rfl⟩ := List.mem_map.mp hr
  exact record_delimited opts e.text

theorem records_events :
    Fout.records opts tr.events = tr.entries.map (Entry.record opts) := by
  have htexts : tr.entries.map Entry.text = tr.events.flatMap Event.texts := by
    rw [entries, List.map_flatMap]
    exact List.flatMap_congr fun e _ => eventEntries_text e
  rw [Fout.records, ← htexts, List.map_map]
  rfl

theorem records_eq :
    tr.records opts = Fout.records opts tr.events ++
      (verboseTexts opts tr.traceTs tr.pid).map (record opts) := by
  rw [records, allEntries, List.map_append, records_events, List.map_map]
  rfl

def truncated : Bool :=
  kept (tr.records opts) ≠ tr.records opts

def fits : Bool :=
  (kept (tr.records opts)).flatten.length + 1 +
    (if tr.truncated opts then (truncMarkerText opts).length else 0) ≤
      opts.foutBufferSize

/-- The records of a chunked trace, chunk by chunk, and those dropped. -/
def boxes (traceId : ℕ) : List (List Entry) × List Entry :=
  pack (fun e => e.text.length + 1) (capacity opts traceId) 0
    (keptEntries (tr.allEntries opts))

theorem chunked_eq (traceId : ℕ) :
    chunked opts traceId (kept (tr.records opts)) =
      ((tr.boxes opts traceId).1.map (List.map (Entry.record opts)),
        (tr.boxes opts traceId).2.map (Entry.record opts)) := by
  have hweight : (fun e : Entry => (e.record opts).length) =
      fun e => e.text.length + 1 := by
    funext e
    exact record_length opts e.text
  rw [chunked, records, kept_map_record, pack_map, hweight]
  rfl

/-- Nothing is written: the stack is empty, or the filter rejects it. -/
def skipped : Bool :=
  let text := (kept (Fout.records opts tr.events)).flatten
  text.isEmpty || rejects opts (cstr text)

def written (traceId : ℕ) : List Entry :=
  if tr.skipped opts then []
  else if tr.fits opts then keptEntries (tr.allEntries opts)
  else (tr.boxes opts traceId).1.flatten

def message (traceId : ℕ) : Message Bytes :=
  if tr.skipped opts then .silent
  else if tr.fits opts then .whole (frames (keptEntries (tr.allEntries opts)))
  else
    .parts ((tr.boxes opts traceId).1.map frames ++
      if (tr.boxes opts traceId).2 ≠ [] ∨ tr.truncated opts = true
      then [[]] else [])

def payloads (traceId : ℕ) : List Bytes :=
  if tr.skipped opts then []
  else if tr.fits opts then
    [(kept (tr.records opts)).flatten ++
      (if tr.truncated opts then truncMarkerText opts else []) ++
        [opts.traceDelim]]
  else
    chunkPayloads opts traceId
      (chunkBodies opts traceId (kept (tr.records opts)) (tr.truncated opts))

theorem message_content (traceId : ℕ) :
    (tr.message opts traceId).content = frames (tr.written opts traceId) := by
  have hboxes : ∀ boxes : List (List Entry),
      (boxes.map frames).flatten = frames boxes.flatten := by
    intro boxes
    rw [frames, List.filterMap_flatten]
    rfl
  simp only [message, written]
  split
  · rfl
  · split
    · rfl
    · rw [Message.content, List.flatten_append, hboxes]
      split
      · simp
      · simp

end Trace

/-! ## What appending records leaves alone -/

def Udata.output (u : Udata) : Bytes × Bytes × ℕ × List Bytes :=
  (u.truncMarker, u.traceIdTail, u.traceIdTailLen, u.writes)

theorem realloc_output (libc : Libc) (u : Udata) (neededCap : ℕ) :
    (realloc libc u neededCap).1.output = u.output := by
  simp only [realloc]
  split
  · rfl
  · split
    · rfl
    · rfl

theorem snprintf_output (opts : Options) (libc : Libc) (u : Udata)
    (strip : Bool) (text : Bytes) :
    (snprintf opts libc u strip text).output = u.output := by
  simp only [snprintf]
  split
  · rfl
  · split
    · rfl
    · split
      · have hgrown := realloc_output libc (vsnprintf libc u text).1
          (u.len + (vsnprintf libc u text).2.toNat + 1)
        split
        · exact hgrown
        · exact hgrown
      · rfl

theorem putRecords_output (opts : Options) (libc : Libc) (u : Udata)
    (texts : List Bytes) :
    (putRecords opts libc u texts).output = u.output := by
  induction texts generalizing u with
  | nil => rfl
  | cons text texts ih =>
      have hrest := ih (putRecord opts libc u text)
      rw [putRecords, List.foldl_cons, ← putRecords, hrest, putRecord,
        snprintf_output, snprintf_output]

theorem runEvents_output (opts : Options) (libc : Libc) (u : Udata) (n : ℕ)
    {events : List Event} (hevents : ∀ e ∈ events, e.isRecord = true) :
    (runEvents opts libc (u, n) events).1.output = u.output ∧
      (runEvents opts libc (u, n) events).2 = n := by
  rw [runEvents_of_isRecord opts libc u n hevents]
  exact ⟨putRecords_output opts libc u _, rfl⟩

/-! ## The payloads of a trace -/

structure Udata.Prepared (opts : Options) (u : Udata) : Prop where
  valid : u.Valid
  marker : u.truncMarker = truncMarkerText opts
  tail : u.traceIdTail.length = tailSize

theorem Udata.Prepared.of_output {opts : Options} {u v : Udata}
    (hu : u.Prepared opts) (hv : v.Valid) (houtput : v.output = u.output) :
    v.Prepared opts := by
  simp only [Udata.output, Prod.mk.injEq] at houtput
  obtain ⟨hmarker, htail, -, -⟩ := houtput
  exact ⟨hv, hmarker.trans hu.marker, by rw [htail]; exact hu.tail⟩

theorem Udata.Prepared.ready {opts : Options} {u : Udata}
    (hu : u.Prepared opts) : u.Ready opts := by
  have hsize := hu.valid.size
  have hcap := hu.valid.cap_le
  have hlen := hu.valid.len_lt
  have hmax : maxBuffer < 2 ^ 64 := by decide
  exact ⟨hu.marker, hu.tail, by omega, by omega⟩

theorem write_prepared {opts : Options} {u : Udata} (hu : u.Prepared opts)
    (libc : Libc) (nextTraceId : ℕ) :
    (write opts libc nextTraceId u).1.Prepared opts := by
  have hkeep : (write opts libc nextTraceId u).1.truncMarker =
      truncMarkerText opts ∧
        (write opts libc nextTraceId u).1.traceIdTail.length = tailSize := by
    apply write_induction (motive := fun v =>
      v.truncMarker = truncMarkerText opts ∧ v.traceIdTail.length = tailSize)
    · intro v traceId chunkIdx hv
      exact ⟨hv.1, fillTraceId_tail_length opts hv.2 traceId chunkIdx⟩
    · intro v body sentinel hv
      refine ⟨hv.1, ?_⟩
      simpa [writeChunk, writev] using hv.2
    · intro v iov hv
      exact hv
    · intro v hv
      exact hv
    · exact ⟨hu.marker, hu.tail⟩
  have hvalid := (hu.valid.of_memory (write_memory opts libc nextTraceId u)).1
  exact ⟨hvalid, hkeep.1, hkeep.2⟩

theorem init_prepared {opts : Options} {libc : Libc} {u : Udata}
    (hb : 1 ≤ opts.foutBufferSize) (hinit : init opts libc = some u) :
    u.Prepared opts := by
  have hvalid := init_valid hb hinit
  obtain ⟨-, rfl⟩ := init_eq hinit
  exact ⟨hvalid, rfl, List.length_replicate⟩

section Payloads

variable {opts : Options} {libc : Libc} {u : Udata} {n : ℕ} {tr : Trace}

theorem runEvents_handled (hlibc : libc.Reliable) (hu : u.Prepared opts)
    (n : ℕ) (tr : Trace) :
    ∃ v : Udata, v.Holds (records opts tr.events) ∧ v.Prepared opts ∧
      v.writes = u.writes ∧
      runEvents opts libc (u, n) tr.handled =
        runEvents opts libc (v, n) [.stackEnd tr.traceTs tr.pid] := by
  have hbegin := stackBegin_holds opts libc n hu.valid
  have hholds := runEvents_holds hlibc opts hbegin (by simp) n tr.isRecord
  obtain ⟨houtput, hcounter⟩ := runEvents_output opts libc
    (eventHandler opts libc n u .stackBegin).1 n tr.isRecord
  have hsame : (eventHandler opts libc n u .stackBegin).1.output =
      u.output := rfl
  rw [hsame] at houtput
  refine ⟨(runEvents opts libc
    ((eventHandler opts libc n u .stackBegin).1, n) tr.events).1,
      hholds, hu.of_output hholds.valid houtput, ?_, ?_⟩
  · exact congrArg (fun o => o.2.2.2) houtput
  · have hrun : runEvents opts libc (u, n) tr.handled =
        runEvents opts libc ((eventHandler opts libc n u .stackBegin).1, n)
          (tr.events ++ [.stackEnd tr.traceTs tr.pid]) := rfl
    rw [hrun, runEvents_append, ← Prod.mk.eta (p := runEvents opts libc
      ((eventHandler opts libc n u .stackBegin).1, n) tr.events), hcounter]

/-- The end of a stack writes nothing exactly for a skipped trace. -/
theorem Trace.skipped_eq {v : Udata} (tr : Trace)
    (hv : v.Holds (Fout.records opts tr.events)) :
    tr.skipped opts = (decide (v.len = 0) || filteredOut opts v) := by
  have hempty : (kept (Fout.records opts tr.events)).flatten.isEmpty =
      decide (v.len = 0) := by
    rw [Bool.eq_iff_iff, List.isEmpty_iff, decide_eq_true_iff, hv.len_eq,
      List.length_eq_zero_iff]
  have htext : cstr v.buf =
      cstr (kept (Fout.records opts tr.events)).flatten := by
    have hsplit : v.buf = v.text ++ 0 :: v.buf.drop (v.len + 1) := by
      have hnul : v.buf[v.len]? = some 0 := hv.terminated
      have hlt := (List.getElem?_eq_some_iff.mp hnul).1
      have hget := (List.getElem?_eq_some_iff.mp hnul).2
      rw [Udata.text, ← hget, ← List.drop_eq_getElem_cons hlt,
        List.take_append_drop]
    rw [hsplit, hv.text]
    exact cstr_append_zero _ _
  rw [skipped, hempty, filteredOut, htext]

theorem write_payloads (hu : u.Prepared opts)
    (hholds : u.Holds (tr.records opts)) (hn : n < 2 ^ 64)
    (hsome : tr.skipped opts = false) (libc : Libc) :
    (write opts libc n u).1.writes = u.writes ++ tr.payloads opts n ∧
      (write opts libc n u).2.2 = (tr.message opts n).nextId (2 ^ 64) n := by
  have htrunc : u.truncated = tr.truncated opts := by
    rw [Bool.eq_iff_iff, hholds.truncated, Trace.truncated,
      decide_eq_true_iff]
  have hfits : totalLen u ≤ opts.foutBufferSize ↔ tr.fits opts = true := by
    rw [totalLen, hholds.len_eq, hu.marker, htrunc, Trace.fits,
      decide_eq_true_iff]
  simp only [Trace.payloads, Trace.message, hsome, Bool.false_eq_true,
    if_false]
  by_cases hwhole : totalLen u ≤ opts.foutBufferSize
  · rw [if_pos (hfits.mp hwhole), if_pos (hfits.mp hwhole)]
    simp only [write, hwhole, if_true, writeWhole, writev, Message.nextId]
    refine ⟨?_, trivial⟩
    rw [hholds.text, hu.marker, htrunc]
    cases tr.truncated opts with
    | false => simp
    | true => simp
  · have hchunk : tr.fits opts ≠ true := fun h => hwhole (hfits.mpr h)
    rw [if_neg hchunk, if_neg hchunk]
    have hdelim : ∀ r ∈ kept (tr.records opts),
        Delimited opts.frameDelim r := by
      intro r hr
      exact tr.records_delimited opts r
        ((kept_isPrefix (tr.records opts)).subset hr)
    obtain ⟨hwrites, -⟩ :=
      writeChunked_writes hu.ready libc hn hdelim hholds.text
    simp only [write, hwhole, if_false, Message.nextId]
    rw [hwrites, htrunc]
    exact ⟨rfl, trivial⟩

theorem runEvents_payloads (hlibc : libc.Reliable) (hu : u.Prepared opts)
    (hn : n < 2 ^ 64) (tr : Trace) :
    let st := runEvents opts libc (u, n) tr.handled
    st.1.Prepared opts ∧ st.1.writes = u.writes ++ tr.payloads opts n ∧
      st.2 = (tr.message opts n).nextId (2 ^ 64) n := by
  obtain ⟨v, hholds, hprepared, hwrites, hrun⟩ :=
    runEvents_handled hlibc hu n tr
  have hskipped := tr.skipped_eq hholds
  rw [hrun]
  cases hskip : tr.skipped opts with
  | true =>
      have hend : runEvents opts libc (v, n) [.stackEnd tr.traceTs tr.pid] =
          (v, n) := by
        rw [hskip, eq_comm, Bool.or_eq_true, decide_eq_true_iff] at hskipped
        by_cases hnone : v.len = 0
        · simp [runEvents, eventHandler, hnone]
        · simp [runEvents, eventHandler, hnone,
            hskipped.resolve_left hnone]
      rw [hend, Trace.payloads, if_pos hskip, Trace.message, if_pos hskip,
        List.append_nil]
      exact ⟨hprepared, hwrites, rfl⟩
  | false =>
      rw [hskip, eq_comm, Bool.or_eq_false_iff,
        decide_eq_false_iff_not] at hskipped
      set w := putRecords opts libc v (verboseTexts opts tr.traceTs tr.pid)
        with hw
      have hend : runEvents opts libc (v, n) [.stackEnd tr.traceTs tr.pid] =
          ((write opts libc n w).1, (write opts libc n w).2.2) := by
        simp [runEvents, eventHandler, hskipped.1, hskipped.2, ← hw]
      have hwholds : w.Holds (tr.records opts) := by
        rw [tr.records_eq]
        exact hholds.putRecords hlibc (map_record_delimited opts _) _
      have houtput : w.output = v.output := putRecords_output _ _ _ _
      have hwprepared := hprepared.of_output hwholds.valid houtput
      obtain ⟨hpayloads, hcounter⟩ :=
        write_payloads hwprepared hwholds hn hskip libc
      have hwwrites : w.writes = u.writes :=
        (congrArg (fun o => o.2.2.2) houtput).trans hwrites
      rw [hend]
      rw [hwwrites] at hpayloads
      exact ⟨write_prepared hwprepared libc n, hpayloads, hcounter⟩

end Payloads

/-! ## Threads -/

/-- A thread handles its next trace.  What it is about are the frames whose
records go out. -/
def launchTrace {ι : Type*} (opts : Options) (libc : ι → Libc) (i : ι)
    (u : Udata) (nextTraceId : ℕ) (tr : Trace) : Started Udata Bytes Bytes :=
  let st := runEvents opts (libc i) (u, nextTraceId) tr.handled
  { state := st.1
    payloads := st.1.writes.drop u.writes.length
    counter := st.2
    content := frames (tr.written opts nextTraceId) }

/-- Threads that share the trace id counter and the output. -/
abbrev Threads (ι : Type*) :=
  System ι Udata Trace Bytes Bytes

theorem launchTrace_eq {ι : Type*} {opts : Options} {libc : ι → Libc} {i : ι}
    {u : Udata} {n : ℕ} (hlibc : (libc i).Reliable) (hu : u.Prepared opts)
    (hn : n < 2 ^ 64) (tr : Trace) :
    (launchTrace opts libc i u n tr).state.Prepared opts ∧
      (launchTrace opts libc i u n tr).payloads = tr.payloads opts n ∧
      (launchTrace opts libc i u n tr).counter =
        (tr.message opts n).nextId (2 ^ 64) n ∧
      (launchTrace opts libc i u n tr).content =
        (tr.message opts n).content := by
  obtain ⟨hprepared, hwrites, hcounter⟩ :=
    runEvents_payloads hlibc hu hn tr
  refine ⟨hprepared, ?_, hcounter, (tr.message_content opts n).symm⟩
  rw [launchTrace]
  dsimp only
  rw [hwrites, List.drop_left]

end Fout
end Phpspy

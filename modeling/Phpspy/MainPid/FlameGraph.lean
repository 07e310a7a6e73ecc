import Mathlib.Algebra.Group.Action.Defs
import Mathlib.Algebra.Order.BigOperators.Group.List
import Phpspy.MainPid.Collapse
import Phpspy.Trace.Depth
import Phpspy.Trace.PhpStack
import Phpspy.Trace.Sample

/-!
# From the memory of the target to the counted stacks

All of the pipeline: `main_pid` samples a target whose memory has a stack of
calls each time, the handler writes the traces in chunks if it has to, and the
script counts the stacks.  The stacks it counts are those in memory.
-/

namespace Phpspy
namespace MainPid

open ByteText Fout GreedyPacking Reassembly StackCollapse

/-! ## Records that always fit -/

/-- The most that the record of a call takes: the depth, three names of at most
255 bytes, a line and what is between them. -/
def frameRecordSize : ℕ := 786

theorem decimalInt_length_le {i : ℤ} (hlow : -2 ^ 31 ≤ i) (hhigh : i < 2 ^ 31) :
    (decimalInt i).length ≤ 11 := by
  have hten : 2 ^ 31 < 10 ^ 10 := by decide
  cases i with
  | ofNat n =>
      have hint : (n : ℤ) < 2 ^ 31 := hhigh
      have hn : n < 10 ^ 10 := by omega
      exact (decimal_length_le (by decide) hn).trans (by decide)
  | negSucc n =>
      have hn : n + 1 < 10 ^ 10 := by omega
      exact Nat.succ_le_succ (decimal_length_le (by decide) hn)

theorem cstr_take_length_le (bs : Bytes) :
    (cstr (bs.take (strSize - 1))).length ≤ 255 :=
  (List.takeWhile_sublist _).length_le.trans (List.length_take_le _ _)

theorem shownSource_le (source : Option (Bytes × ℕ)) :
    (cstr (shownSource source).1).length ≤ 255 ∧
      (decimalInt (shownSource source).2).length ≤ 11 := by
  cases source with
  | none => exact ⟨by decide, by decide⟩
  | some source =>
      obtain ⟨file, line⟩ := source
      have hline : (decimalInt (wrap32 line)).length ≤ 11 :=
        decimalInt_length_le (Int.le_bmod (m := 2 ^ 32) (by decide))
          (Int.bmod_lt (m := 2 ^ 32) (by decide))
      simp only [shownSource]
      exact ⟨cstr_take_length_le file, hline⟩

def frameEntry (f : PhpFrame) (depth : ℕ) : Entry :=
  { text := decimal depth ++ lit " " ++ f.loc.text
    frame := some f.loc.name }

theorem frameEntry_le (f : PhpFrame) {depth : ℕ} (hdepth : depth < 1024) :
    (frameEntry f depth).text.length + 1 ≤ frameRecordSize := by
  have hdigits : (decimal depth).length ≤ 4 :=
    decimal_length_le (by decide) (hdepth.trans (by decide))
  have hcls : (cstr f.loc.cls).length ≤ 255 := cstr_take_length_le _
  have hfunc : (cstr f.loc.func).length ≤ 255 := cstr_take_length_le _
  obtain ⟨hfile, hline⟩ := shownSource_le f.source
  change (cstr f.loc.file).length ≤ 255 at hfile
  change (decimalInt f.loc.lineno).length ≤ 11 at hline
  have hsep : (if f.loc.cls.length > 0 then lit "::" else []).length ≤ 2 := by
    split
    · decide
    · decide
  have hblank : (lit " ").length = 1 := rfl
  have hcolon : (lit ":").length = 1 := rfl
  simp only [frameEntry, TraceLoc.text, List.length_append, hblank, hcolon,
    frameRecordSize]
  omega

def frameEntries (frames : List PhpFrame) : List Entry :=
  frames.zipIdx.map fun f => frameEntry f.1 f.2

theorem frameEvents_entries (frames : List PhpFrame) :
    (frameEvents frames 0).flatMap eventEntries = frameEntries frames := by
  rw [frameEvents, frameEntries, List.flatMap_map, List.map_eq_flatMap]
  rfl

theorem frames_frameEntries (frames : List PhpFrame) :
    Fout.frames (frameEntries frames) = frames.map fun f => f.loc.name := by
  have hfst : frames.zipIdx.map Prod.fst = frames := List.zipIdx_map_fst 0 _
  rw [Fout.frames, frameEntries, List.filterMap_map, ← List.filterMap_eq_map]
  conv_rhs => rw [← hfst, List.filterMap_map]
  rfl

theorem frameEntries_le {frames : List PhpFrame} (hlen : frames.length ≤ 1024) :
    ∀ e ∈ frameEntries frames, e.text.length + 1 ≤ frameRecordSize := by
  intro e he
  obtain ⟨⟨f, depth⟩, hf, rfl⟩ := List.mem_map.mp he
  have hdepth := (List.mem_zipIdx' hf).1
  exact frameEntry_le f (hdepth.trans_le hlen)

/-! ## What is kept of a trace -/

section Written

variable {opts : Options} {tr : Trace} {front rest : List Entry} {n : ℕ}

theorem keptEntries_front (rest : List Entry) (hlen : front.length ≤ 1024)
    (hweight : ∀ e ∈ front, e.text.length + 1 ≤ frameRecordSize) :
    ∃ more, more <+: rest ∧ keptEntries (front ++ rest) = front ++ more := by
  have htotal : total (fun e : Entry => e.text.length + 1) front ≤
      maxBuffer - 1 := by
    have hsum := List.sum_le_card_nsmul
      (front.map fun e => e.text.length + 1) frameRecordSize (by
        intro w hw
        obtain ⟨e, he, rfl⟩ := List.mem_map.mp hw
        exact hweight e he)
    rw [List.length_map, smul_eq_mul, frameRecordSize] at hsum
    rw [total, maxBuffer]
    omega
  have hfit := length_le_fit (fun e : Entry => e.text.length + 1)
    (maxBuffer - 1) (List.prefix_append front rest) htotal
  refine ⟨rest.take (fit (fun e : Entry => e.text.length + 1)
    (maxBuffer - 1) (front ++ rest) - front.length),
      List.take_prefix _ _, ?_⟩
  rw [keptEntries, List.take_append, List.take_of_length_le hfit]

theorem frames_eq_nil_of_isPrefix {more : List Entry} (h : more <+: rest)
    (hrest : Fout.frames rest = []) : Fout.frames more = [] := by
  obtain ⟨left, rfl⟩ := h
  rw [Fout.frames, List.filterMap_append, List.append_eq_nil_iff] at hrest
  exact hrest.1

theorem frames_front {more : List Entry} (h : more <+: rest)
    (hrest : Fout.frames rest = []) :
    Fout.frames (front ++ more) = Fout.frames front := by
  have hmore := frames_eq_nil_of_isPrefix h hrest
  rw [Fout.frames] at hmore ⊢
  rw [List.filterMap_append, hmore, List.append_nil]
  rfl

theorem frameRecordSize_le_capacity (hsize : 1024 ≤ opts.foutBufferSize)
    (hn : n < 2 ^ 64) {j : ℕ} (hj : j < 1024) :
    frameRecordSize ≤ capacity opts n (0 + j) := by
  have hid := decimal_length_le_twenty hn
  have hindex : (decimal (0 + j)).length ≤ 4 :=
    decimal_length_le (by decide) (by omega)
  rw [capacity, chunkTail_length, frameRecordSize]
  omega

/-- If the frames come first, their records are short and there is no filter,
all of them are written, in chunks or not. -/
theorem frames_written (hfilter : opts.filterRe = none)
    (hsize : 1024 ≤ opts.foutBufferSize) (hn : n < 2 ^ 64)
    (hentries : tr.entries = front ++ rest)
    (hrest : Fout.frames rest = []) (hlen : front.length ≤ 1024)
    (hweight : ∀ e ∈ front, e.text.length + 1 ≤ frameRecordSize) :
    Fout.frames (tr.written opts n) = Fout.frames front := by
  have hall : tr.allEntries opts = front ++ (rest ++
      (verboseTexts opts tr.traceTs tr.pid).map comment) := by
    rw [Trace.allEntries, hentries, List.append_assoc]
  have hothers : Fout.frames (rest ++
      (verboseTexts opts tr.traceTs tr.pid).map comment) = [] := by
    rw [Fout.frames] at hrest ⊢
    rw [List.filterMap_append, hrest, List.filterMap_map, List.nil_append]
    exact List.filterMap_eq_nil_iff.mpr fun _ _ => rfl
  obtain ⟨more, hmore, hkept⟩ := keptEntries_front (rest ++
    (verboseTexts opts tr.traceTs tr.pid).map comment) hlen hweight
  rw [Trace.written]
  split
  · next hskipped =>
      -- nothing is kept of the trace, so there was nothing in front
      obtain ⟨more, -, hkept⟩ := keptEntries_front rest hlen hweight
      have hrejects : ∀ text, rejects opts text = false := by
        intro text
        rw [rejects, hfilter]
      have hempty : (kept (Fout.records opts tr.events)).flatten = [] := by
        simp only [Trace.skipped, hrejects, Bool.or_false,
          List.isEmpty_iff] at hskipped
        exact hskipped
      rw [tr.records_events, kept_map_record, hentries, hkept] at hempty
      cases front with
      | nil => rfl
      | cons e front =>
          have hlength := congrArg List.length hempty
          rw [List.cons_append, List.map_cons, List.flatten_cons,
            List.length_append, Entry.record, record_length] at hlength
          simp at hlength
  · split
    · rw [hall, hkept]
      exact frames_front hmore hothers
    · obtain ⟨more', hmore', hflatten⟩ := pack_front
        (fun e : Entry => e.text.length + 1) (capacity opts n) more hweight
        fun j hj => frameRecordSize_le_capacity hsize hn (hj.trans_le hlen)
      rw [Trace.boxes, hall, hkept, hflatten]
      exact frames_front (hmore'.trans hmore) hothers

end Written

/-! ## Samples of a target -/

/-- An event that is no frame. -/
def isSide : Event → Bool
  | .frame _ => false
  | _ => true

theorem frames_eventEntries_side {e : Event} (he : isSide e = true) :
    Fout.frames (eventEntries e) = [] := by
  have hcomment (texts : List Bytes) :
      Fout.frames (texts.map comment) = [] := by
    rw [Fout.frames, List.filterMap_map]
    exact List.filterMap_eq_nil_iff.mpr fun _ _ => rfl
  cases e with
  | frame f => cases he
  | _ => exact hcomment _

theorem frames_side {events : List Event}
    (h : ∀ e ∈ events, isSide e = true) :
    Fout.frames (events.flatMap eventEntries) = [] := by
  induction events with
  | nil => rfl
  | cons e events ih =>
      have hhead := frames_eventEntries_side (h e List.mem_cons_self)
      have htail := ih fun e' he' => h e' (List.mem_cons_of_mem e he')
      rw [Fout.frames] at hhead htail ⊢
      rw [List.flatMap_cons, List.filterMap_append, hhead, htail]
      rfl

theorem mem_tracePhases {opts : TraceOptions} {rv : Status}
    {phases : List Phase} {e : Event}
    (he : e ∈ (tracePhases opts rv phases).1) :
    ∃ p ∈ phases, e ∈ p.events := by
  induction phases generalizing rv with
  | nil => cases he
  | cons phase phases ih =>
      simp only [tracePhases] at he
      split at he
      · exact ⟨phase, List.mem_cons_self, he⟩
      · rcases List.mem_append.mp he with he | he
        · exact ⟨phase, List.mem_cons_self, he⟩
        · obtain ⟨p, hp, he⟩ := ih he
          exact ⟨p, List.mem_cons_of_mem phase hp, he⟩

theorem gathered_eq (r : Readings) (opts : TraceOptions) :
    ∃ more, (r.gathered opts).1 = r.stack.events ++ more ∧
      ∀ e ∈ more, ∃ p ∈ r.captured opts, e ∈ p.events := by
  rw [Readings.gathered]
  split
  · exact ⟨[], (List.append_nil _).symm, fun e he => by cases he⟩
  · exact ⟨_, rfl, fun e he => mem_tracePhases he⟩

theorem requestPhase_side {mem : Remote} {arch : Arch} {v : PhpVersion}
    {opts : RequestOptions} {floatText : ℕ → Bytes} {sapiGlobalsAddr : ℕ}
    {request : TraceRequest} :
    ∀ e ∈ (requestPhase mem arch v opts floatText sapiGlobalsAddr
      request).events, isSide e = true := by
  intro e he
  rw [requestPhase] at he
  split at he
  · rw [List.mem_singleton.mp he]
    rfl
  · cases he

theorem memoryPhase_side {mem : Remote} {allocGlobalsAddr : ℕ} :
    ∀ e ∈ (memoryPhase mem allocGlobalsAddr).events, isSide e = true := by
  intro e he
  rw [memoryPhase] at he
  split at he
  · next event h =>
      rw [List.mem_singleton.mp he]
      obtain ⟨allocGlobals, -, h⟩ := bind_eq_ok_iff.mp h
      obtain ⟨mmHeap, -, h⟩ := bind_eq_ok_iff.mp h
      rw [← Except.ok.inj h]
      rfl
  · cases he

theorem globalsPhase_side {mem : Remote} {floatText : ℕ → Bytes}
    {signed : Bool} {fuel executorGlobalsAddr : ℕ}
    {entries : List Glopeek.GlopeekEntry} {buf : BufferPrinting.Buffer}
    {phase : Phase}
    (h : globalsPhase mem floatText signed fuel executorGlobalsAddr entries
      buf = some phase) : ∀ e ∈ phase.events, isSide e = true := by
  have hside : ∀ run : GlobalsRun, ∀ e ∈ run.glopeeks, isSide e = true := by
    intro run e he
    obtain ⟨entry, -, rfl⟩ := List.mem_map.mp he
    rfl
  simp only [globalsPhase] at h
  split at h
  · rw [← Option.some.inj h]
    exact hside _
  · rw [← Option.some.inj h]
    exact hside _
  · cases h

theorem captured_side {p : Probe} {fuel : ℕ} {r : Readings}
    (h : p.readings fuel = some r) (opts : TraceOptions) :
    ∀ phase ∈ r.captured opts, ∀ e ∈ phase.events, isSide e = true := by
  rw [Probe.readings, Option.map_eq_some_iff] at h
  obtain ⟨globals, hglobals, rfl⟩ := h
  intro phase hphase
  simp only [Readings.captured, List.mem_append] at hphase
  rcases hphase with (hphase | hphase) | hphase
  · split at hphase
    · rw [List.mem_singleton.mp hphase]
      exact requestPhase_side
    · cases hphase
  · split at hphase
    · rw [List.mem_singleton.mp hphase]
      exact memoryPhase_side
    · cases hphase
  · split at hphase
    · rw [List.mem_singleton.mp hphase]
      exact globalsPhase_side hglobals
    · cases hphase

/-- A target with a stack of calls in its memory, that is sampled without a
limit from the root and without peeked variables. -/
structure Target where
  probe : Probe
  fuel : ℕ
  calls : List PhpFrame
  holds : HoldsStack probe.mem probe.v probe.currentExecuteData calls
  noRootLimit : probe.stackOptions.maxDepthFromRoot < 0
  noVarpeek : probe.stackOptions.varpeeking = false
  noPdo : probe.stackOptions.peekPdo = false

def Target.shown (t : Target) : List PhpFrame :=
  t.calls.take (shownDepth t.probe.stackOptions.maxDepthFromLeaf)

theorem shownDepth_le (leaf : ℤ) : shownDepth leaf ≤ 1024 := by
  rw [shownDepth]
  split
  · exact le_rfl
  · exact Nat.min_le_right _ _

theorem Target.shown_length_le (t : Target) : t.shown.length ≤ 1024 :=
  (List.length_take_le _ _).trans (shownDepth_le _)

theorem Target.gathered_events {target : Target} {r : Readings}
    (h : target.probe.readings target.fuel = some r) (opts : TraceOptions) :
    ∃ more, (r.gathered opts).1 = frameEvents target.shown 0 ++ more ∧
      ∀ e ∈ more, isSide e = true := by
  have hstack : r.stack.events = frameEvents target.shown 0 := by
    rw [Probe.readings, Option.map_eq_some_iff] at h
    obtain ⟨globals, -, hreadings⟩ := h
    rw [← hreadings]
    have htrace := traceStack_of_holds target.probe.peeks
      target.noRootLimit target.noVarpeek target.noPdo target.holds
    exact congrArg StackTrace.events htrace
  obtain ⟨more, hmore, hside⟩ := gathered_eq r opts
  refine ⟨more, ?_, ?_⟩
  · rw [← hstack]
    exact hmore
  · intro e he
    obtain ⟨phase, hphase, he⟩ := hside e he
    exact captured_side h opts phase hphase e he

section Sampled

variable {cfg : Config} {target : Target} {sample : Sample}

theorem trace_events (cfg : Config)
    (h : target.probe.readings target.fuel = some sample.readings) :
    ∃ more, (sample.trace cfg).events = frameEvents target.shown 0 ++ more ∧
      ∀ e ∈ more, isSide e = true :=
  Target.gathered_events h cfg.trace

theorem turnMessage_content (hfilter : cfg.fout.filterRe = none)
    (hsize : 1024 ≤ cfg.fout.foutBufferSize) {s : State}
    (hid : s.nextTraceId < 2 ^ 64) (hended : ended cfg sample = true)
    (h : target.probe.readings target.fuel = some sample.readings) :
    (turnMessage cfg (s, sample)).content =
      target.shown.map fun f => f.loc.name := by
  obtain ⟨more, hevents, hside⟩ := trace_events cfg h
  have hentries : (sample.trace cfg).entries =
      frameEntries target.shown ++ more.flatMap eventEntries := by
    rw [Trace.entries, hevents, List.flatMap_append, frameEvents_entries]
  have hlen : (frameEntries target.shown).length ≤ 1024 := by
    rw [frameEntries, List.length_map, List.length_zipIdx]
    exact target.shown_length_le
  rw [turnMessage, if_pos hended, Trace.message_content,
    frames_written hfilter hsize hid hentries (frames_side hside) hlen
      (frameEntries_le target.shown_length_le), frames_frameEntries]

/-- Names in printable ASCII. -/
def IsPlainCall (f : PhpFrame) : Prop :=
  (∀ b ∈ f.scope.getD [], isPrintable b = true) ∧
    (∀ b ∈ f.name.getD (lit "<main>"), isPrintable b = true) ∧
      f.name ≠ some []

theorem plainEvent_of_isPlain {f : PhpFrame} (h : IsPlainCall f)
    (depth : ℕ) : PlainEvent (.frame { loc := f.loc, depth := depth }) := by
  obtain ⟨hscope, hname, hne⟩ := h
  refine ⟨fun b hb => hscope b (List.mem_of_mem_take hb),
    fun b hb => hname b (List.mem_of_mem_take hb), ?_⟩
  intro hnil
  have hnil : f.name.getD (lit "<main>") = [] := by
    rcases List.take_eq_nil_iff.mp hnil with hzero | hnil
    · cases hzero
    · exact hnil
  cases hcase : f.name with
  | none =>
      rw [hcase] at hnil
      cases hnil
  | some name =>
      rw [hcase] at hnil hne
      exact hne (congrArg some hnil)

theorem trace_plain
    (h : target.probe.readings target.fuel = some sample.readings)
    (hplain : ∀ f ∈ target.shown, IsPlainCall f) :
    ∀ e ∈ (sample.trace cfg).events, PlainEvent e := by
  obtain ⟨more, hevents, hside⟩ := trace_events cfg h
  rw [hevents]
  intro e he
  rcases List.mem_append.mp he with he | he
  · obtain ⟨⟨f, depth⟩, hf, rfl⟩ := List.mem_map.mp he
    apply plainEvent_of_isPlain
    have hmem := List.mem_zipIdx' hf
    exact hplain f (hmem.2 ▸ List.getElem_mem _)
  · have he' := hside e he
    cases e with
    | frame f => cases he'
    | _ => trivial

end Sampled

/-! ## The counts -/

theorem tally_congr {out out' : List (List Bytes)}
    (h : out.filter (fun frames => !frames.isEmpty) =
      out'.filter fun frames => !frames.isEmpty) (key : Bytes) :
    tally out key = tally out' key := by
  rw [tally, tally, h]

/-- What turns deliver are the stacks of the samples that are not aborted. -/
theorem filter_delivered_turns {cfg : Config}
    (hfilter : cfg.fout.filterRe = none)
    (hsize : 1024 ≤ cfg.fout.foutBufferSize) {samples : List Sample}
    {target : Sample → Target}
    (hsampled : ∀ sample ∈ samples, ended cfg sample = true →
      (target sample).probe.readings (target sample).fuel =
        some sample.readings)
    {ts : List (State × Sample)}
    (hts : ∀ t ∈ ts, t.1.nextTraceId < 2 ^ 64 ∧ t.2 ∈ samples) :
    (ts.flatMap fun t => (turnMessage cfg t).delivered).filter
        (fun frames => !frames.isEmpty) =
      ((ts.filter fun t => ended cfg t.2).map fun t =>
        (target t.2).shown.map fun f => f.loc.name).filter
          fun frames => !frames.isEmpty := by
  induction ts with
  | nil => rfl
  | cons t ts ih =>
      obtain ⟨hid, hsample⟩ := hts t List.mem_cons_self
      have htail := ih fun t' ht' => hts t' (List.mem_cons_of_mem t ht')
      rw [List.flatMap_cons, List.filter_append, htail, filter_delivered]
      cases hended : ended cfg t.2 with
      | true =>
          have hcontent : (turnMessage cfg t).content =
              (target t.2).shown.map fun f => f.loc.name :=
            turnMessage_content hfilter hsize hid hended
              (hsampled t.2 hsample hended)
          have hkeep : (t :: ts).filter (fun t => ended cfg t.2) =
              t :: ts.filter fun t => ended cfg t.2 :=
            List.filter_cons_of_pos hended
          rw [hkeep, List.map_cons, hcontent, ← List.filter_append,
            List.singleton_append]
      | false =>
          have hsilent : turnMessage cfg t = .silent := by
            rw [turnMessage, hended]
            rfl
          have hdrop : (t :: ts).filter (fun t => ended cfg t.2) =
              ts.filter fun t => ended cfg t.2 :=
            List.filter_cons_of_neg (ne_true_of_eq_false hended)
          rw [hdrop, hsilent]
          rfl

/-- The script counts the stacks that were in the memory of the target.  The
samples that are aborted may be anything, each of the others finds a target
with a stack of calls.  However the output is cut into chunks, the script counts
for every sample that `main_pid` takes and does not abort the stack that was in
memory, and nothing else. -/
theorem collapse_counts_calls (cfg : Config) (enc : Encode)
    (hmode : cfg.fout.singleLine = false)
    (hfilter : cfg.fout.filterRe = none)
    (hsize : 1024 ≤ cfg.fout.foutBufferSize) (hlibc : cfg.libc.Reliable)
    (u : Udata) (hinit : init cfg.fout cfg.libc = some u)
    (samples : List Sample) (target : Sample → Target)
    (hsampled : ∀ sample ∈ samples, ended cfg sample = true →
      (target sample).probe.readings (target sample).fuel =
        some sample.readings)
    (hplain : ∀ sample ∈ samples, ∀ f ∈ (target sample).shown,
      IsPlainCall f) :
    Counts
      (collapse enc
        (samplingLoop cfg (start u 0) samples).1.udata.writes.flatten)
      (((turns cfg (start u 0) samples).filter fun t => ended cfg t.2).map
        fun t => (target t.2).shown.map fun f => f.loc.name) := by
  have hcounts := collapse_samplingLoop enc hmode hlibc hinit
    samples fun sample hsample hended =>
      trace_plain (hsampled sample hsample hended) (hplain sample hsample)
  have hstart : (start u 0).Ready cfg :=
    ⟨init_prepared cfg.bufferSize_pos hinit, Nat.two_pow_pos 64⟩
  have hready : ∀ t ∈ turns cfg (start u 0) samples, t.1.Ready cfg := by
    apply turns_invariant _ hstart samples
    intro s sample s' hs hturn
    have hnext := (turn_payloads hlibc hs sample).1
    rwa [hturn] at hnext
  intro key
  rw [hcounts key, tally_congr (filter_delivered_turns hfilter hsize
    hsampled fun t ht => ⟨(hready t ht).id_lt, turns_subset ht⟩) key]

/-! ## A script that calls `strlen` -/

/-- The executor globals are at 2048.  The call of `strlen` is at 8192 and its
function at 12288, the script at 16384 and 20480, with its opcode at 24576.
The two strings are at 28672 and 32768. -/
def strlenMemory : Remote :=
  Remote.ofBlocks
    [(2048 + 488, leBytes 8 8192), (8192 + 24, leBytes 8 12288),
      (8192 + 48, leBytes 8 16384), (12288, [1]),
      (12288 + 8, leBytes 8 28672), (28672, stringImage (lit "strlen")),
      (16384, leBytes 8 24576), (16384 + 24, leBytes 8 20480),
      (24576 + 24, leBytes 4 3), (20480, [2]),
      (20480 + 144, leBytes 8 32768), (32768, stringImage (lit "a.php"))]

def strlenFrame : PhpFrame :=
  { name := some (lit "strlen")
    scope := none
    source := none }

def scriptFrame : PhpFrame :=
  { name := none
    scope := none
    source := some (lit "a.php", 3) }

theorem strlenMemory_copy {addr size : ℕ} (haddr : addr ≠ 0)
    (hsize : size ≤ 1024) :
    copyProcMem strlenMemory addr size = .ok (strlenMemory.bytes addr size) :=
  copyProcMem_eq_ok_iff.mpr ⟨haddr, rfl, hsize.trans (by decide), rfl⟩

theorem strlenMemory_strings :
    HoldsString strlenMemory 28672 (lit "strlen") ∧
      HoldsString strlenMemory 32768 (lit "a.php") := by
  have hread : ∀ raddr size, strlenMemory.fault raddr size = none :=
    fun _ _ => rfl
  constructor
  · exact HoldsString.of_bytes hread (by decide) (by decide) (by decide)
      (by decide +kernel) (by decide +kernel)
  · exact HoldsString.of_bytes hread (by decide) (by decide) (by decide)
      (by decide +kernel) (by decide +kernel)

theorem strlenFrame_holds :
    HoldsFrame strlenMemory .v83 8192 (strlenMemory.bytes 8192 64)
      (strlenMemory.bytes 12288 156) strlenFrame := by
  have hfields : field (strlenMemory.bytes 8192 64) 24 8 = 12288 ∧
      field (strlenMemory.bytes 12288 156) 8 8 = 28672 ∧
      field (strlenMemory.bytes 12288 156) 16 8 = 0 ∧
      field (strlenMemory.bytes 12288 156) 0 1 ≠ 2 := by
    decide +kernel
  obtain ⟨hfunc, hname, hscope, htype⟩ := hfields
  refine ⟨by decide, strlenMemory_copy (by decide) (by decide), ?_, ?_,
    hscope, htype⟩
  · rw [hfunc]
    exact strlenMemory_copy (by decide) (by decide)
  · rw [hname]
    exact ⟨by decide, strlenMemory_strings.1⟩

theorem scriptFrame_holds :
    HoldsFrame strlenMemory .v83 16384 (strlenMemory.bytes 16384 64)
      (strlenMemory.bytes 20480 156) scriptFrame := by
  have hfields : field (strlenMemory.bytes 16384 64) 24 8 = 20480 ∧
      field (strlenMemory.bytes 16384 64) 0 8 = 24576 ∧
      field (strlenMemory.bytes 20480 156) 8 8 = 0 ∧
      field (strlenMemory.bytes 20480 156) 16 8 = 0 ∧
      field (strlenMemory.bytes 20480 156) 0 1 = 2 ∧
      field (strlenMemory.bytes 20480 156) 144 8 = 32768 ∧
      field (strlenMemory.bytes 24576 28) 24 4 = 3 := by
    decide +kernel
  obtain ⟨hfunc, hopline, hname, hscope, htype, hfile, hline⟩ := hfields
  refine ⟨by decide, strlenMemory_copy (by decide) (by decide), ?_, hname,
    hscope, htype, ?_, strlenMemory.bytes 24576 28, ?_, hline⟩
  · rw [hfunc]
    exact strlenMemory_copy (by decide) (by decide)
  · rw [show (PhpVersion.layout .v83).filename = 144 from rfl, hfile]
    exact strlenMemory_strings.2
  · rw [hopline]
    exact strlenMemory_copy (by decide) (by decide)

theorem strlenMemory_holds :
    HoldsStack strlenMemory .v83 8192 [strlenFrame, scriptFrame] := by
  have hlinks : field (strlenMemory.bytes 8192 64) 48 8 = 16384 ∧
      field (strlenMemory.bytes 16384 64) 48 8 = 0 := by
    decide +kernel
  have hscript : HoldsStack strlenMemory .v83 16384 [scriptFrame] :=
    ⟨_, _, scriptFrame_holds, hlinks.2⟩
  refine ⟨_, _, strlenFrame_holds, ?_⟩
  rw [show (PhpVersion.layout .v83).prevExecuteData = 48 from rfl, hlinks.1]
  exact hscript

def strlenProbe : Probe :=
  { functionlessProbe (-1) with mem := strlenMemory }

def strlenTarget : Target where
  probe := strlenProbe
  fuel := 0
  calls := [strlenFrame, scriptFrame]
  holds := by
    have haddr : strlenProbe.currentExecuteData = 8192 := by decide +kernel
    rw [haddr]
    exact strlenMemory_holds
  noRootLimit := by decide
  noVarpeek := rfl
  noPdo := rfl

/-- `-b 1024` and a limit of two traces. -/
def twoWhole : Config :=
  { oneTrace with
    fout := { oneTrace.fout with foutBufferSize := 1024 }
    bufferSize_pos := by decide
    traceLimit := 2 }

/-- Two samples of the script while it is in `strlen`. -/
theorem collapse_counts_calls_strlen :
    ∃ u r, init twoWhole.fout twoWhole.libc = some u ∧
      strlenProbe.readings 0 = some r ∧
      let sample : Sample := ⟨false, r, [], false⟩
      (turns twoWhole (start u 0) [sample, sample]).length = 2 ∧
      Counts
        (collapse latin1 (samplingLoop twoWhole (start u 0)
          [sample, sample]).1.udata.writes.flatten)
        (((turns twoWhole (start u 0) [sample, sample]).filter
          fun t => ended twoWhole t.2).map
            fun _ => [lit "strlen", lit "<main>"]) := by
  have hshown : strlenTarget.shown = [strlenFrame, scriptFrame] :=
    List.take_of_length_le (by decide)
  have hplain : ∀ f ∈ strlenTarget.shown, IsPlainCall f := by
    rw [hshown]
    intro f hf
    rcases List.mem_cons.mp hf with rfl | hf
    · exact ⟨List.all_eq_true.mp rfl, List.all_eq_true.mp rfl, by decide⟩
    · rw [List.mem_singleton.mp hf]
      exact ⟨List.all_eq_true.mp rfl, List.all_eq_true.mp rfl, by decide⟩
  refine ⟨_, _, rfl, rfl, ?_⟩
  intro sample
  have hsampled : ∀ s ∈ [sample, sample], ended twoWhole s = true →
      strlenProbe.readings 0 = some s.readings := by
    intro s hs _
    rcases List.mem_cons.mp hs with rfl | hs
    · rfl
    · rw [List.mem_singleton.mp hs]
      rfl
  have hcounts := collapse_counts_calls twoWhole latin1 rfl rfl (by decide)
    workingLibc_reliable _ rfl [sample, sample] (fun _ => strlenTarget)
    hsampled fun _ _ => hplain
  rw [hshown] at hcounts
  exact ⟨by decide +kernel, hcounts⟩

end MainPid
end Phpspy

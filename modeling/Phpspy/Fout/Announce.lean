import Phpspy.Fout.Traces

/-!
# A trace that loses records

Any allocation and any formatting may fail.  The buffer then rewinds to its
last complete record and takes no more, so it holds the first records of its
trace, and `truncated` says whether some are missing.  The end of a stack writes
a marker for a truncated trace, but only if the buffer is not empty.
-/

namespace Phpspy
namespace Fout

open ByteText GreedyPacking

/-! ## Appending with failures -/

/-- The buffer holds the first records `ps` of the records `rs` of its
trace. -/
structure Udata.HoldsFirst (u : Udata) (rs ps : List Bytes) : Prop where
  valid : u.Valid
  terminated : u.Terminated
  first : ps <+: rs
  text : u.text = ps.flatten
  truncated : u.truncated = true ↔ ps ≠ rs

/-- Formatting does not fail when a text is formatted again for a buffer that
has grown for it. -/
def retriesWork (opts : Options) (libc : Libc) : Udata → List Bytes → Bool
  | _, [] => true
  | u, text :: texts =>
      let v := snprintf opts libc u true text
      (u.truncated || !retryFails libc u text) &&
        (v.truncated || !retryFails libc v [opts.frameDelim]) &&
        retriesWork opts libc (putRecord opts libc u text) texts

section Append

variable {opts : Options} {libc : Libc} {u : Udata} {rs ps : List Bytes}

theorem Udata.HoldsFirst.eq_of_not_truncated (hu : u.HoldsFirst rs ps)
    (htrunc : u.truncated = false) : ps = rs := by
  by_contra hne
  rw [hu.truncated.mpr hne] at htrunc
  exact Bool.noConfusion htrunc

theorem Udata.HoldsFirst.of_truncated {v : Udata} (r : Bytes)
    (hpre : ps <+: rs)
    (hv : v.Valid ∧ v.Terminated ∧ v.truncated = true ∧ v.text = ps.flatten) :
    v.HoldsFirst (rs ++ [r]) ps := by
  obtain ⟨hvalid, hnul, htrunc, htext⟩ := hv
  refine ⟨hvalid, hnul, hpre.trans (List.prefix_append rs [r]), htext, ?_⟩
  refine iff_of_true htrunc fun heq => ?_
  have hlong := congrArg List.length heq
  have hshort := hpre.length_le
  rw [List.length_append, List.length_singleton] at hlong
  omega

theorem Udata.HoldsFirst.putRecord (hu : u.HoldsFirst rs ps)
    (hrs : ∀ r ∈ rs, Delimited opts.frameDelim r) (text : Bytes)
    (hbody : u.truncated = false → retryFails libc u text = false)
    (hdelim : (snprintf opts libc u true text).truncated = false →
      retryFails libc (snprintf opts libc u true text) [opts.frameDelim] =
        false) :
    ∃ qs, (putRecord opts libc u text).HoldsFirst
      (rs ++ [record opts text]) qs := by
  cases htrunc : u.truncated with
  | true =>
      rw [Fout.putRecord, snprintf_of_truncated opts libc htrunc,
        snprintf_of_truncated opts libc htrunc]
      exact ⟨ps, .of_truncated _ hu.first
        ⟨hu.valid, hu.terminated, htrunc, hu.text⟩⟩
  | false =>
      obtain rfl := hu.eq_of_not_truncated htrunc
      obtain ⟨hvalid, hnul, hput, htext⟩ := putRecord_cases hu.valid htrunc
        hu.text hrs text (hbody htrunc) hdelim
      cases htakes : takesRecord opts libc u text with
      | false =>
          rw [htakes] at hput htext
          rw [if_neg (by simp), List.append_nil] at htext
          exact ⟨ps, .of_truncated _ (List.prefix_refl ps)
            ⟨hvalid, hnul, hput, htext⟩⟩
      | true =>
          rw [htakes] at hput htext
          refine ⟨ps ++ [record opts text], hvalid, hnul, List.prefix_refl _,
            ?_, ?_⟩
          · rw [htext]
            simp
          · rw [hput]
            simp

theorem Udata.HoldsFirst.putRecords (hu : u.HoldsFirst rs ps)
    (hrs : ∀ r ∈ rs, Delimited opts.frameDelim r) (texts : List Bytes)
    (hretry : retriesWork opts libc u texts = true) :
    ∃ qs, (putRecords opts libc u texts).HoldsFirst
      (rs ++ texts.map (record opts)) qs := by
  induction texts generalizing u rs ps with
  | nil => exact ⟨ps, by simpa [Fout.putRecords] using hu⟩
  | cons text texts ih =>
      simp only [retriesWork, Bool.and_eq_true, Bool.or_eq_true,
        Bool.not_eq_true'] at hretry
      obtain ⟨⟨hbody, hdelim⟩, hrest⟩ := hretry
      obtain ⟨qs, hstep⟩ := hu.putRecord hrs text
        (fun h => hbody.resolve_left (by simp [h]))
        (fun h => hdelim.resolve_left (by simp [h]))
      have htail := ih hstep (concat_record_delimited hrs text) hrest
      rwa [List.append_assoc, List.singleton_append] at htail

end Append

/-! ## Writing with losses -/

/-- The payloads of a trace have all its records: there are none, or they go
out at once, or in chunks. -/
def WritesAll (opts : Options) (traceId : ℕ) (records payloads : List Bytes) :
    Prop :=
  records = [] ∧ payloads = [] ∨
    payloads = [records.flatten ++ [opts.traceDelim]] ∨
    ∃ boxes : List (List Bytes), boxes.flatten = records ∧
      payloads = chunkPayloads opts traceId (boxes.map List.flatten)

/-- The loss of records is announced: the last payload has the marker behind
complete records, and the status says so. -/
def Announced (opts : Options) (payloads : List Bytes) (rv : Status) : Prop :=
  rv.truncated = true ∧
    ∃ (rs : List Bytes) (back : Bytes),
      (∀ r ∈ rs, Delimited opts.frameDelim r) ∧
      payloads.getLast? = some (rs.flatten ++ truncMarkerText opts ++ back)

theorem not_writesAll_nil {opts : Options} {traceId : ℕ} {records : List Bytes}
    (h : records ≠ []) : ¬ WritesAll opts traceId records [] := by
  rintro (⟨hnil, -⟩ | hone | ⟨boxes, rfl, hchunks⟩)
  · exact h hnil
  · exact absurd hone.symm (List.cons_ne_nil _ _)
  · have hboxes : boxes = [] := by
      simpa [chunkPayloads] using hchunks.symm
    rw [hboxes] at h
    exact h rfl

/-- Writing a buffer that holds the first records of its trace puts all of them
out, or announces that some are missing. -/
theorem Udata.HoldsFirst.write {opts : Options} {libc : Libc}
    (hwritev : ∀ call, libc.writevOk call = true) {u : Udata}
    {rs ps : List Bytes} (hu : u.HoldsFirst rs ps) (hready : u.Prepared opts)
    (hrs : ∀ r ∈ rs, Delimited opts.frameDelim r) {n : ℕ}
    (hn : n < 2 ^ 64) :
    ∃ payloads, (write opts libc n u).1.writes = u.writes ++ payloads ∧
      (WritesAll opts n rs payloads ∨
        Announced opts payloads (write opts libc n u).2.1) := by
  have hps : ∀ r ∈ ps, Delimited opts.frameDelim r :=
    fun r hr => hrs r (hu.first.subset hr)
  have hflag : (Status.ok ||| Status.errTruncated).truncated = true := rfl
  by_cases hwhole : totalLen u ≤ opts.foutBufferSize
  · simp only [Fout.write, hwhole, if_true, writeWhole, writev, hwritev,
      hready.marker, hu.text]
    refine ⟨_, rfl, ?_⟩
    cases htrunc : u.truncated with
    | false =>
        obtain rfl := hu.eq_of_not_truncated htrunc
        exact .inl (.inr (.inl (by simp)))
    | true => exact .inr ⟨hflag, ps, [opts.traceDelim], hps, by simp⟩
  · obtain ⟨hwrites, hmarked⟩ :=
      writeChunked_writes hready.ready libc hn hps hu.text
    have hstatus := writeChunked_status hwritev opts n u
    simp only [Fout.write, hwhole, if_false, hstatus]
    refine ⟨_, hwrites, ?_⟩
    by_cases hmark : (chunked opts n ps).2 ≠ [] ∨ u.truncated = true
    · refine .inr ⟨?_, [], chunkTail opts n (chunked opts n ps).1.length 33,
        by simp, ?_⟩
      · rw [if_pos (hmarked.mpr hmark)]
        exact hflag
      · rw [chunkPayloads_of_marked hmark, List.getLast?_concat]
        rfl
    · obtain ⟨hall, hopen⟩ := not_or.mp hmark
      obtain rfl := hu.eq_of_not_truncated (Bool.eq_false_iff.mpr hopen)
      refine .inl (.inr (.inr ⟨(chunked opts n ps).1, ?_, ?_⟩))
      · have hpack := (pack_isGreedy List.length (capacity opts n) 0
          ps).consecutive
        rwa [← chunked, not_not.mp hall, List.append_nil] at hpack
      · rw [chunkBodies, if_neg hmark, List.append_nil]

/-! ## The end of a trace -/

namespace Trace

variable (opts : Options) (libc : Libc) (u : Udata) (n : ℕ) (tr : Trace)

def atEnd : Udata :=
  (runEvents opts libc (u, n) (.stackBegin :: tr.events)).1

/-- The end of the stack: the handler's data, the status and the counter. -/
def ended : Udata × Status × ℕ :=
  eventHandler opts libc n (tr.atEnd opts libc u n)
    (.stackEnd tr.traceTs tr.pid)

def endPayloads : List Bytes :=
  (tr.ended opts libc u n).1.writes.drop
    (tr.atEnd opts libc u n).writes.length

/-- The records that are produced since the start of the stack.  An empty
buffer gets no verbose fields. -/
def produced : List Bytes :=
  if (tr.atEnd opts libc u n).len = 0 then Fout.records opts tr.events
  else tr.records opts

/-- No formatting of this trace fails when it is repeated. -/
def retriesWork : Bool :=
  Fout.retriesWork opts libc (eventHandler opts libc n u .stackBegin).1
      (tr.events.flatMap Event.texts) &&
    (decide ((tr.atEnd opts libc u n).len = 0) ||
      Fout.retriesWork opts libc (tr.atEnd opts libc u n)
        (verboseTexts opts tr.traceTs tr.pid))

end Trace

section End

variable {opts : Options} {libc : Libc} {u : Udata} {n : ℕ}

theorem stackBegin_holdsFirst (opts : Options) (libc : Libc) (n : ℕ)
    (hu : u.Valid) :
    (eventHandler opts libc n u .stackBegin).1.HoldsFirst [] [] := by
  have hbegin := stackBegin_holds opts libc n hu
  exact ⟨hbegin.valid, hbegin.terminated, List.prefix_refl [], rfl,
    iff_of_false Bool.false_ne_true fun h => h rfl⟩

theorem Trace.atEnd_eq (tr : Trace) :
    tr.atEnd opts libc u n =
      putRecords opts libc (eventHandler opts libc n u .stackBegin).1
        (tr.events.flatMap Event.texts) := by
  have hrun := runEvents_of_isRecord opts libc
    (eventHandler opts libc n u .stackBegin).1 n tr.isRecord
  exact congrArg Prod.fst hrun

theorem Trace.atEnd_holdsFirst {tr : Trace} (hu : u.Prepared opts)
    (hretry : tr.retriesWork opts libc u n = true) :
    (tr.atEnd opts libc u n).Prepared opts ∧
      ∃ ps, (tr.atEnd opts libc u n).HoldsFirst
        (Fout.records opts tr.events) ps := by
  obtain ⟨hevents, -⟩ := Bool.and_eq_true_iff.mp hretry
  obtain ⟨ps, hholds⟩ := (stackBegin_holdsFirst opts libc n hu.valid).putRecords
    (by simp) _ hevents
  rw [List.nil_append, ← tr.atEnd_eq] at hholds
  have hsame : (eventHandler opts libc n u .stackBegin).1.output =
      u.output := rfl
  refine ⟨hu.of_output hholds.valid ?_, ps, hholds⟩
  rw [tr.atEnd_eq, putRecords_output, hsame]

theorem Trace.ended_of_len_ne (hfilter : opts.filterRe = none)
    (hwritev : ∀ call, libc.writevOk call = true) (hu : u.Prepared opts)
    (hn : n < 2 ^ 64) {tr : Trace}
    (hretry : tr.retriesWork opts libc u n = true)
    (hlen : (tr.atEnd opts libc u n).len ≠ 0) :
    WritesAll opts n (tr.records opts) (tr.endPayloads opts libc u n) ∨
      Announced opts (tr.endPayloads opts libc u n)
        (tr.ended opts libc u n).2.1 := by
  obtain ⟨hready, ps, hholds⟩ := Trace.atEnd_holdsFirst hu hretry
  have hverbose := (Bool.or_eq_true_iff.mp
    (Bool.and_eq_true_iff.mp hretry).2).resolve_left (by simp [hlen])
  rw [Trace.endPayloads, Trace.ended]
  generalize tr.atEnd opts libc u n = u' at *
  have hkept : filteredOut opts u' = false := by
    rw [filteredOut, rejects, hfilter]
  simp only [eventHandler, hlen, if_false, hkept, Bool.false_eq_true]
  obtain ⟨qs, hfirst⟩ :=
    hholds.putRecords (map_record_delimited opts _) _ hverbose
  rw [← tr.records_eq] at hfirst
  have houtput := putRecords_output opts libc u'
    (verboseTexts opts tr.traceTs tr.pid)
  obtain ⟨payloads, hwrites, hcases⟩ := hfirst.write hwritev
    (hready.of_output hfirst.valid houtput) (tr.records_delimited opts) hn
  have hsame : (putRecords opts libc u'
      (verboseTexts opts tr.traceTs tr.pid)).writes = u'.writes :=
    congrArg (fun o => o.2.2.2) houtput
  rw [hwrites, hsame, List.drop_left]
  exact hcases

theorem Trace.ended_prepared (hu : u.Prepared opts) {tr : Trace}
    (hretry : tr.retriesWork opts libc u n = true) :
    (tr.ended opts libc u n).1.Prepared opts := by
  obtain ⟨hready, ps, hholds⟩ := Trace.atEnd_holdsFirst hu hretry
  have hverbose := Bool.or_eq_true_iff.mp (Bool.and_eq_true_iff.mp hretry).2
  rw [Trace.ended]
  generalize tr.atEnd opts libc u n = u' at *
  simp only [eventHandler]
  split
  · exact hready
  · next hlen =>
      split
      · exact hready
      · obtain ⟨qs, hfirst⟩ := hholds.putRecords (map_record_delimited opts _) _
          (hverbose.resolve_left (by simp [hlen]))
        exact write_prepared (hready.of_output hfirst.valid
          (putRecords_output opts libc u' _)) libc n

/-- Whatever allocations and formattings fail, a trace that has records is
written whole or its losses are announced, unless its first record is lost.
The same then holds for the next trace. -/
theorem stackEnd_announces_iff (hfilter : opts.filterRe = none)
    (hwritev : ∀ call, libc.writevOk call = true) (hu : u.Prepared opts)
    (hn : n < 2 ^ 64) (tr : Trace)
    (hretry : tr.retriesWork opts libc u n = true) :
    ((¬ WritesAll opts n (tr.produced opts libc u n)
          (tr.endPayloads opts libc u n) →
        Announced opts (tr.endPayloads opts libc u n)
          (tr.ended opts libc u n).2.1) ↔
      (records opts tr.events = [] ∨ (tr.atEnd opts libc u n).len ≠ 0)) ∧
      (tr.ended opts libc u n).1.Prepared opts := by
  refine ⟨?_, Trace.ended_prepared hu hretry⟩
  by_cases hempty : (tr.atEnd opts libc u n).len = 0
  · have hended : tr.ended opts libc u n =
        (tr.atEnd opts libc u n, Status.ok, n) := if_pos hempty
    have hpayloads : tr.endPayloads opts libc u n = [] := by
      rw [Trace.endPayloads, hended, List.drop_length]
    rw [hpayloads, Trace.produced, if_pos hempty,
      or_iff_left (not_not.mpr hempty), hended]
    constructor
    · intro hannounces
      by_contra hne
      exact Bool.noConfusion (hannounces (not_writesAll_nil hne)).1
    · exact fun hnil hnot => absurd (.inl ⟨hnil, rfl⟩) hnot
  · refine iff_of_true (fun hnot => ?_) (.inr hempty)
    rw [Trace.produced, if_neg hempty] at hnot
    exact (Trace.ended_of_len_ne hfilter hwritev hu hn hretry
      hempty).resolve_left hnot

end End

/-! ## The first record and later ones -/

/-- `-b 16` -/
def tinyOptions : Options where
  singleLine := false
  foutBufferSize := 16
  filterRe := none
  filterNegate := false
  verboseFieldsTs := false
  verboseFieldsPid := false

/-- The handler's data after `INIT`. -/
def tinyUdata : Udata where
  buf := List.replicate 16 0
  len := 0
  cap := 16
  truncated := false
  truncMarker := truncMarkerText tinyOptions
  traceIdTail := List.replicate tailSize 0
  traceIdTailLen := 0
  reallocs := 1
  prints := 0
  writes := []

def noGrowth : Libc :=
  { workingLibc with reallocOk := fun call => decide (call = 0) }

def fourthFails : Libc :=
  { workingLibc with vsnprintfOk := fun call => decide (call ≠ 3) }

def longTrace : Trace where
  events := [.mem 1048576 2097152]
  traceTs := []
  pid := 1
  isRecord := by decide

def mixedTrace : Trace where
  events := [.mem 1 2, .mem 1048576 2097152]
  traceTs := []
  pid := 1
  isRecord := by decide

theorem mixedTrace_announced :
    init tinyOptions noGrowth = some tinyUdata ∧
      (¬ WritesAll tinyOptions 0
          (mixedTrace.produced tinyOptions noGrowth tinyUdata 0)
          (mixedTrace.endPayloads tinyOptions noGrowth tinyUdata 0) →
        Announced tinyOptions
          (mixedTrace.endPayloads tinyOptions noGrowth tinyUdata 0)
          (mixedTrace.ended tinyOptions noGrowth tinyUdata 0).2.1) := by
  have hinit : init tinyOptions noGrowth = some tinyUdata := rfl
  refine ⟨hinit, (stackEnd_announces_iff rfl (fun _ => rfl)
    (init_prepared (by decide) hinit) (by decide) mixedTrace ?_).1.mpr
      (.inr ?_)⟩
  · decide +kernel
  · decide +kernel

/-- If the only record is lost, then nothing is written and all is well.  So it
is if the second record is lost because the buffer grows for it and formatting
it fails after that. -/
theorem lostRecords_unannounced :
    init tinyOptions noGrowth = some tinyUdata ∧
      longTrace.endPayloads tinyOptions noGrowth tinyUdata 0 = [] ∧
      (longTrace.ended tinyOptions noGrowth tinyUdata 0).2.1 = Status.ok ∧
      ¬ WritesAll tinyOptions 0
          (longTrace.produced tinyOptions noGrowth tinyUdata 0)
          (longTrace.endPayloads tinyOptions noGrowth tinyUdata 0) ∧
      init tinyOptions fourthFails = some tinyUdata ∧
      mixedTrace.endPayloads tinyOptions fourthFails tinyUdata 0 =
        [lit "# mem 1 2\n\n"] ∧
      (mixedTrace.ended tinyOptions fourthFails tinyUdata 0).2.1 =
        Status.ok := by
  have hpayloads : longTrace.endPayloads tinyOptions noGrowth tinyUdata 0 =
      [] := by
    decide +kernel
  refine ⟨rfl, hpayloads, by decide +kernel, ?_, rfl, by decide +kernel,
    by decide +kernel⟩
  rw [hpayloads]
  exact not_writesAll_nil (by decide +kernel)

end Fout
end Phpspy

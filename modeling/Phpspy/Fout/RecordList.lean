import Phpspy.Fout.BufferSpec
import Phpspy.Fout.Chunks
import Phpspy.Fout.Handler
import Phpspy.Support.Records

/-!
# The buffer refines a list of records

Each record is appended by two formatted writes, either of which may grow the
buffer or rewind it.  Seen from outside, the buffer always holds the longest
prefix of the records of the current trace that stays below four megabytes.
-/

namespace Phpspy
namespace Fout

open ByteText GreedyPacking

def record (opts : Options) (text : Bytes) : Bytes :=
  stripDelims opts text ++ [opts.frameDelim]

theorem record_delimited (opts : Options) (text : Bytes) :
    Delimited opts.frameDelim (record opts text) :=
  ⟨stripDelims opts text, rfl, frameDelim_notMem_stripDelims opts text⟩

@[simp] theorem record_length (opts : Options) (text : Bytes) :
    (record opts text).length = text.length + 1 := by
  simp [record]

/-- The longest prefix of a list of records whose total length, with a
terminator, is at most four megabytes. -/
def kept (rs : List Bytes) : List Bytes :=
  rs.take (fit List.length (maxBuffer - 1) rs)

theorem kept_length_le (rs : List Bytes) :
    (kept rs).flatten.length + 1 ≤ maxBuffer := by
  have h := total_take_fit_le List.length (maxBuffer - 1) rs
  rw [total_length_eq] at h
  have hpos : 0 < maxBuffer := by decide
  rw [kept]
  omega

theorem kept_eq_self_iff (rs : List Bytes) :
    kept rs = rs ↔ rs.flatten.length + 1 ≤ maxBuffer := by
  have hpos : 0 < maxBuffer := by decide
  have hiff := fit_eq_length_iff List.length (maxBuffer - 1) rs
  have hle := fit_le_length List.length (maxBuffer - 1) rs
  rw [total_length_eq] at hiff
  rw [kept, List.take_eq_self_iff]
  constructor
  · intro h
    have := hiff.mp (by omega)
    omega
  · intro h
    have := hiff.mpr (by omega)
    omega

theorem kept_append_singleton (rs : List Bytes) (r : Bytes) :
    kept (rs ++ [r]) =
      if kept rs = rs ∧ rs.flatten.length + r.length + 1 ≤ maxBuffer
      then rs ++ [r] else kept rs := by
  have hpos : 0 < maxBuffer := by decide
  by_cases hall : kept rs = rs
  · have hfits := (kept_eq_self_iff rs).mp hall
    have hroom : total List.length rs ≤ maxBuffer - 1 := by
      rw [total_length_eq]
      omega
    have hstep := fit_append_singleton List.length r hroom
    rw [total_length_eq] at hstep
    by_cases hr : rs.flatten.length + r.length + 1 ≤ maxBuffer
    · rw [if_pos ⟨hall, hr⟩, kept, hstep, if_pos (by omega)]
      exact List.take_of_length_le (by simp)
    · rw [if_neg fun h => hr h.2, kept, hstep, if_neg (by omega), hall,
        List.take_left]
  · have hlt : fit List.length (maxBuffer - 1) rs < rs.length := by
      have hle := fit_le_length List.length (maxBuffer - 1) rs
      by_contra hge
      apply hall
      rw [kept]
      exact List.take_of_length_le (by omega)
    rw [if_neg fun h => hall h.1, kept, kept,
      fit_append_of_lt List.length [r] hlt,
      List.take_append_of_le_length (by omega)]

theorem kept_isPrefix (rs : List Bytes) : kept rs <+: rs :=
  List.take_prefix _ _

theorem prefix_kept {rs ps : List Bytes} (hpre : ps <+: rs)
    (hps : ps.flatten.length + 1 ≤ maxBuffer) : ps <+: kept rs := by
  have hle := length_le_fit List.length (maxBuffer - 1) hpre (by
    rw [total_length_eq]
    omega)
  rw [kept, List.prefix_take_iff]
  exact ⟨hpre, hle⟩

/-- The buffer holds the kept part of the records `rs` of its trace. -/
structure Udata.Holds (u : Udata) (rs : List Bytes) : Prop where
  valid : u.Valid
  terminated : u.Terminated
  text : u.text = (kept rs).flatten
  truncated : u.truncated = true ↔ kept rs ≠ rs

theorem Udata.Holds.len_eq {u : Udata} {rs : List Bytes}
    (h : u.Holds rs) : u.len = (kept rs).flatten.length := by
  rw [← h.text, h.valid.text_length]

theorem Udata.Holds.putRecord_of_truncated {opts : Options} {libc : Libc}
    {u : Udata} {rs : List Bytes} (hu : u.Holds rs)
    (htrunc : u.truncated = true) (text : Bytes) :
    (putRecord opts libc u text).Holds (rs ++ [record opts text]) := by
  have hput : Fout.putRecord opts libc u text = u := by
    rw [Fout.putRecord, snprintf_of_truncated opts libc htrunc,
      snprintf_of_truncated opts libc htrunc]
  have hkeep := kept_append_singleton rs (record opts text)
  rw [if_neg fun h => hu.truncated.mp htrunc h.1] at hkeep
  have hne : kept (rs ++ [record opts text]) ≠ rs ++ [record opts text] := by
    rw [hkeep]
    intro heq
    have hlong := congrArg List.length heq
    have hshort := (kept_isPrefix rs).length_le
    rw [List.length_append, List.length_singleton] at hlong
    omega
  rw [hput]
  refine ⟨hu.valid, hu.terminated, ?_, iff_of_true htrunc hne⟩
  rw [hkeep]
  exact hu.text

theorem Udata.Holds.of_rewound {v : Udata} {rs : List Bytes} {r : Bytes}
    (hv : v.Valid ∧ v.Terminated ∧ v.truncated = true ∧ v.text = rs.flatten)
    (hall : kept rs = rs) (hfull : maxBuffer < rs.flatten.length + r.length + 1) :
    v.Holds (rs ++ [r]) := by
  obtain ⟨hvalid, hnul, htrunc, htext⟩ := hv
  have hkeep := kept_append_singleton rs r
  rw [if_neg fun h => by omega] at hkeep
  refine ⟨hvalid, hnul, ?_, ?_⟩
  · rw [htext, hkeep, hall]
  · rw [htrunc, hkeep, hall]
    simp

/-- There is room for the text of a record, and then for its delimiter. -/
def takesRecord (opts : Options) (libc : Libc) (u : Udata) (text : Bytes) :
    Bool :=
  hasRoom libc u text &&
    hasRoom libc (snprintf opts libc u true text) [opts.frameDelim]

/-- A buffer with whole records takes one more, or drops what it has of it. -/
theorem putRecord_cases {opts : Options} {libc : Libc} {u : Udata}
    {rs : List Bytes} (hu : u.Valid) (hopen : u.truncated = false)
    (hutext : u.text = rs.flatten)
    (hrs : ∀ r ∈ rs, Delimited opts.frameDelim r) (text : Bytes)
    (hbody : retryFails libc u text = false)
    (hdelim : (snprintf opts libc u true text).truncated = false →
      retryFails libc (snprintf opts libc u true text) [opts.frameDelim] =
        false) :
    (putRecord opts libc u text).Valid ∧
      (putRecord opts libc u text).Terminated ∧
      (putRecord opts libc u text).truncated =
        !takesRecord opts libc u text ∧
      (putRecord opts libc u text).text = rs.flatten ++
        if takesRecord opts libc u text then record opts text else [] := by
  rw [Fout.putRecord, takesRecord]
  cases hroom : hasRoom libc u text with
  | false =>
      have hover := snprintf_of_not_hasRoom opts hu hopen true hroom
      have hrewind := rewind_flatten_append hrs
        (by simp : opts.frameDelim ∉ ([] : Bytes))
      rw [List.append_nil] at hrewind
      rw [hutext, hrewind] at hover
      rw [snprintf_of_truncated opts libc hover.2.2.1]
      simpa using hover
  | true =>
      obtain ⟨hv, hnul, hvopen, htext⟩ :=
        snprintf_of_hasRoom opts hu hopen true hroom hbody
      rw [if_pos rfl, hutext] at htext
      set v := snprintf opts libc u true text
      cases hend : hasRoom libc v [opts.frameDelim] with
      | false =>
          have hover := snprintf_of_not_hasRoom opts hv hvopen false hend
          rw [htext, rewind_flatten_append hrs
            (frameDelim_notMem_stripDelims opts text)] at hover
          simpa using hover
      | true =>
          have hfull := snprintf_of_hasRoom opts hv hvopen false hend
            (hdelim hvopen)
          rw [htext] at hfull
          simpa [record] using hfull

theorem takesRecord_iff (opts : Options) {libc : Libc} (hlibc : libc.Reliable)
    {u : Udata} (hu : u.Valid) (hopen : u.truncated = false) (text : Bytes) :
    takesRecord opts libc u text = true ↔
      u.len + (record opts text).length + 1 ≤ maxBuffer := by
  rw [takesRecord, Bool.and_eq_true, hasRoom_iff hlibc hu, record_length]
  by_cases hbody : u.len + text.length + 1 ≤ maxBuffer
  · obtain ⟨hv, -, -, htext⟩ := snprintf_fits hlibc opts hu hopen true text hbody
    have hvlen : (snprintf opts libc u true text).len =
        u.len + text.length := by
      rw [← hv.text_length, htext, if_pos rfl, List.length_append,
        hu.text_length, stripDelims_length]
    rw [hasRoom_iff hlibc hv, hvlen, List.length_singleton]
    omega
  · exact iff_of_false (fun h => hbody h.1) (by omega)

theorem Udata.Holds.putRecord {opts : Options} {libc : Libc}
    (hlibc : libc.Reliable) {u : Udata} {rs : List Bytes} (hu : u.Holds rs)
    (hrs : ∀ r ∈ rs, Delimited opts.frameDelim r) (text : Bytes) :
    (putRecord opts libc u text).Holds (rs ++ [record opts text]) := by
  cases htrunc : u.truncated with
  | true => exact hu.putRecord_of_truncated htrunc text
  | false =>
      have hall : kept rs = rs := by
        by_contra hne
        rw [hu.truncated.mpr hne] at htrunc
        cases htrunc
      have hlen := hu.len_eq
      have hutext := hu.text
      rw [hall] at hlen hutext
      have hfits := takesRecord_iff opts hlibc hu.valid htrunc text
      obtain ⟨hvalid, hnul, hput, htext⟩ := putRecord_cases hu.valid htrunc
        hutext hrs text (retryFails_of_reliable hlibc _ _)
        fun _ => retryFails_of_reliable hlibc _ _
      cases htakes : takesRecord opts libc u text with
      | false =>
          rw [htakes] at hfits hput htext
          rw [if_neg (by simp), List.append_nil] at htext
          simp only [Bool.false_eq_true, false_iff] at hfits
          exact Udata.Holds.of_rewound ⟨hvalid, hnul, hput, htext⟩ hall
            (by omega)
      | true =>
          rw [htakes] at hfits hput htext
          have hkeep := kept_append_singleton rs (record opts text)
          have hroom := hfits.mp rfl
          rw [if_pos ⟨hall, by omega⟩] at hkeep
          refine ⟨hvalid, hnul, ?_, ?_⟩
          · rw [htext, hkeep]
            simp
          · rw [hput, hkeep]
            simp

def records (opts : Options) (events : List Event) : List Bytes :=
  (events.flatMap Event.texts).map (record opts)

theorem map_record_delimited (opts : Options) (texts : List Bytes) :
    ∀ r ∈ texts.map (record opts), Delimited opts.frameDelim r := by
  intro r hr
  obtain ⟨text, -, rfl⟩ := List.mem_map.mp hr
  exact record_delimited opts text

theorem concat_record_delimited {opts : Options} {rs : List Bytes}
    (hrs : ∀ r ∈ rs, Delimited opts.frameDelim r) (text : Bytes) :
    ∀ r ∈ rs ++ [record opts text], Delimited opts.frameDelim r := by
  intro r hr
  rcases List.mem_append.mp hr with h | h
  · exact hrs r h
  · rw [List.mem_singleton.mp h]
    exact record_delimited opts text

theorem Udata.Holds.putRecords {opts : Options} {libc : Libc}
    (hlibc : libc.Reliable) {u : Udata} {rs : List Bytes} (hu : u.Holds rs)
    (hrs : ∀ r ∈ rs, Delimited opts.frameDelim r) (texts : List Bytes) :
    (putRecords opts libc u texts).Holds (rs ++ texts.map (record opts)) := by
  induction texts generalizing u rs with
  | nil => simpa [Fout.putRecords] using hu
  | cons text texts ih =>
      have hstep := hu.putRecord hlibc hrs text
      have htail := ih hstep (concat_record_delimited hrs text)
      rwa [List.append_assoc, List.singleton_append] at htail

theorem stackBegin_holds (opts : Options) (libc : Libc) (n : ℕ) {u : Udata}
    (hu : u.Valid) :
    (eventHandler opts libc n u .stackBegin).1.Holds [] := by
  have hsize := hu.size
  have hlt := hu.len_lt
  have hkept : kept [] = [] := by simp [kept]
  refine ⟨⟨?_, hu.cap_le, ?_⟩, ?_, ?_, ?_⟩
  · simpa [eventHandler] using hsize
  · simp only [eventHandler]
    omega
  · simp only [eventHandler, Udata.Terminated]
    exact List.getElem?_set_self (by omega)
  · simp [eventHandler, Udata.text, hkept]
  · simp [eventHandler, hkept]

theorem runEvents_holds {libc : Libc} (hlibc : libc.Reliable)
    (opts : Options) {u : Udata} {rs : List Bytes} (hu : u.Holds rs)
    (hrs : ∀ r ∈ rs, Delimited opts.frameDelim r) (n : ℕ)
    {events : List Event} (hevents : ∀ e ∈ events, e.isRecord = true) :
    (runEvents opts libc (u, n) events).1.Holds
      (rs ++ records opts events) := by
  rw [runEvents_of_isRecord opts libc u n hevents]
  exact hu.putRecords hlibc hrs _

/-! ## Every event keeps the buffer in bounds -/

theorem snprintf_sound {libc : Libc} (hlibc : libc.Reliable)
    (opts : Options) {u : Udata} (hu : u.Valid) (strip : Bool)
    (text : Bytes) :
    (snprintf opts libc u strip text).Valid ∧
      (u.Terminated → (snprintf opts libc u strip text).Terminated) := by
  cases htrunc : u.truncated with
  | true =>
      rw [snprintf_of_truncated opts libc htrunc]
      exact ⟨hu, id⟩
  | false =>
      by_cases hroom : u.len + text.length + 1 ≤ maxBuffer
      · obtain ⟨hv, hnul, -, -⟩ :=
          snprintf_fits hlibc opts hu htrunc strip text hroom
        exact ⟨hv, fun _ => hnul⟩
      · obtain ⟨hv, hnul, -, -⟩ :=
          snprintf_overflows hlibc opts hu htrunc strip
            text (by omega)
        exact ⟨hv, fun _ => hnul⟩

theorem putRecords_sound {libc : Libc} (hlibc : libc.Reliable)
    (opts : Options) {u : Udata} (hu : u.Valid)
    (texts : List Bytes) :
    (putRecords opts libc u texts).Valid ∧
      (u.Terminated → (putRecords opts libc u texts).Terminated) := by
  induction texts generalizing u with
  | nil => exact ⟨hu, id⟩
  | cons text texts ih =>
      obtain ⟨hbody, hbodyNul⟩ :=
        snprintf_sound hlibc opts hu true text
      obtain ⟨hdelim, hdelimNul⟩ :=
        snprintf_sound hlibc opts hbody false [opts.frameDelim]
      obtain ⟨hrest, hrestNul⟩ := ih hdelim
      exact ⟨hrest, fun h => hrestNul (hdelimNul (hbodyNul h))⟩

theorem Udata.Valid.of_memory {u v : Udata} (hmem : v.memory = u.memory)
    (hu : u.Valid) : v.Valid ∧ (u.Terminated → v.Terminated) := by
  obtain ⟨hbuf, hlen, hcap⟩ : v.buf = u.buf ∧ v.len = u.len ∧ v.cap = u.cap := by
    simpa [Udata.memory] using hmem
  constructor
  · exact ⟨by rw [hbuf, hcap, hu.size], by rw [hcap]; exact hu.cap_le,
      by rw [hlen, hcap]; exact hu.len_lt⟩
  · intro hnul
    rwa [Udata.Terminated, hbuf, hlen]

/-- Any event, in any order, keeps the allocation valid and the text
terminated. -/
theorem eventHandler_sound {libc : Libc} (hlibc : libc.Reliable)
    (opts : Options) (n : ℕ) {u : Udata} (hu : u.Valid)
    (event : Event) :
    (eventHandler opts libc n u event).1.Valid ∧
      (u.Terminated → (eventHandler opts libc n u event).1.Terminated) := by
  cases hrec : event.isRecord with
  | true =>
      rw [eventHandler_of_isRecord opts libc n u hrec]
      exact putRecords_sound hlibc opts hu event.texts
  | false =>
      cases event with
      | stackBegin =>
          have hbegin := stackBegin_holds opts libc n hu
          exact ⟨hbegin.valid, fun _ => hbegin.terminated⟩
      | stackEnd ts pid =>
          simp only [eventHandler]
          split
          · exact ⟨hu, id⟩
          · split
            · exact ⟨hu, id⟩
            · obtain ⟨hput, hputNul⟩ :=
                putRecords_sound hlibc opts hu
                  (verboseTexts opts ts pid)
              obtain ⟨hw, hwNul⟩ := hput.of_memory
                (write_memory opts libc n
                  (putRecords opts libc u (verboseTexts opts ts pid)))
              exact ⟨hw, fun h => hwNul (hputNul h)⟩
      | frame f => simp [Event.isRecord] at hrec
      | varpeek a b c => simp [Event.isRecord] at hrec
      | glopeek a b => simp [Event.isRecord] at hrec
      | request r => simp [Event.isRecord] at hrec
      | mem a b => simp [Event.isRecord] at hrec

theorem runEvents_sound {libc : Libc} (hlibc : libc.Reliable)
    (opts : Options) (st : Udata × ℕ) (hst : st.1.Valid)
    (events : List Event) :
    (runEvents opts libc st events).1.Valid ∧
      (st.1.Terminated → (runEvents opts libc st events).1.Terminated) := by
  induction events generalizing st with
  | nil => exact ⟨hst, id⟩
  | cons e events ih =>
      obtain ⟨u, n⟩ := st
      obtain ⟨hstep, hstepNul⟩ :=
        eventHandler_sound hlibc opts n hst e
      obtain ⟨hrest, hrestNul⟩ := ih
        ((eventHandler opts libc n u e).1, (eventHandler opts libc n u e).2.2)
        hstep
      exact ⟨hrest, fun h => hrestNul (hstepNul h)⟩

/-- `INIT` succeeds only for sizes up to four megabytes, and then the
allocation has the size asked for. -/
theorem init_eq {opts : Options} {libc : Libc} {u : Udata}
    (hinit : init opts libc = some u) :
    opts.foutBufferSize ≤ maxBuffer ∧
      u = { buf := resize libc 0 []
              (grownCap opts.foutBufferSize opts.foutBufferSize)
            len := 0
            cap := grownCap opts.foutBufferSize opts.foutBufferSize
            truncated := false
            truncMarker := truncMarkerText opts
            traceIdTail := List.replicate tailSize 0
            traceIdTailLen := 0
            reallocs := 1
            prints := 0
            writes := [] } := by
  by_cases hmax : opts.foutBufferSize > maxBuffer
  · simp [init, realloc, hmax, Status.error, Status.ok] at hinit
  · by_cases hok : libc.reallocOk 0 = true
    · simp only [init, realloc, hmax, hok, if_false, if_true, ne_eq,
        not_true_eq_false, Option.some.injEq] at hinit
      exact ⟨not_lt.mp hmax, hinit.symm⟩
    · simp [init, realloc, hmax, hok, Status.error, Status.ok] at hinit

theorem init_valid {opts : Options} {libc : Libc} {u : Udata}
    (hb : 1 ≤ opts.foutBufferSize) (hinit : init opts libc = some u) :
    u.Valid := by
  obtain ⟨hmax, rfl⟩ := init_eq hinit
  have hcap := le_grownCap hb hmax
  refine ⟨resize_length _ _ _ _, min_le_right _ _, ?_⟩
  dsimp only
  omega

/-! ## The refinement -/

theorem runEvents_begun {opts : Options} {libc : Libc} (hlibc : libc.Reliable)
    (hb : 1 ≤ opts.foutBufferSize) {u₀ : Udata}
    (hinit : init opts libc = some u₀) (n : ℕ) (before : List Event) :
    (runEvents opts libc (u₀, n) (before ++ [.stackBegin])).1.Holds [] := by
  have hbefore := (runEvents_sound hlibc opts (u₀, n)
    (init_valid hb hinit) before).1
  rw [runEvents_append]
  exact stackBegin_holds opts libc (runEvents opts libc (u₀, n) before).2
    hbefore

theorem runEvents_current {opts : Options} {libc : Libc}
    (hlibc : libc.Reliable) (hb : 1 ≤ opts.foutBufferSize) {u₀ : Udata}
    (hinit : init opts libc = some u₀) (n : ℕ) (before : List Event)
    {current : List Event} (hrec : ∀ e ∈ current, e.isRecord = true) :
    (runEvents opts libc (u₀, n)
      (before ++ .stackBegin :: current)).1.Holds (records opts current) := by
  have hrun := runEvents_holds hlibc opts
    (runEvents_begun hlibc hb hinit n before) (by simp)
    (runEvents opts libc (u₀, n) (before ++ [.stackBegin])).2 hrec
  rw [List.nil_append] at hrun
  rwa [← List.singleton_append, ← List.append_assoc, runEvents_append]

theorem records_congr {opts opts' : Options}
    (h : opts'.singleLine = opts.singleLine) (events : List Event) :
    records opts' events = records opts events := by
  have hrecord : record opts' = record opts := by
    funext text
    simp [record, stripDelims, Options.frameDelim, Options.traceDelim, h]
  rw [records, records, hrecord]

/-- For every size that `INIT` accepts and whatever came before, the buffer
refines the list of records since the last start of a stack.  At the end of
the stack its text is the longest prefix of that list that stays below four
megabytes, `truncated` says whether the prefix is proper, and neither depends
on the initial size, on how the buffer grew or on earlier events.  From the
first start of a stack on, the text is terminated within the allocation after
every event. -/
theorem buffer_refines_records {opts : Options} {libc : Libc}
    (hlibc : libc.Reliable) (hb : 1 ≤ opts.foutBufferSize) {u₀ : Udata}
    (hinit : init opts libc = some u₀) (n : ℕ) :
    (∀ before current : List Event, (∀ e ∈ current, e.isRecord = true) →
      let u := (runEvents opts libc (u₀, n)
        (before ++ .stackBegin :: current)).1
      ∃ ps, ps <+: records opts current ∧
        ps.flatten.length + 1 ≤ maxBuffer ∧
        (∀ qs, qs <+: records opts current →
          qs.flatten.length + 1 ≤ maxBuffer → qs <+: ps) ∧
        u.text = ps.flatten ∧
        (u.truncated = true ↔ ps ≠ records opts current)) ∧
    (∀ before after : List Event,
      let u := (runEvents opts libc (u₀, n)
        (before ++ .stackBegin :: after)).1
      u.len < u.cap ∧ u.cap ≤ maxBuffer ∧ u.buf[u.len]? = some 0) ∧
    (∀ (opts' : Options) (libc' : Libc) (u₀' : Udata) (n' : ℕ)
      (before before' current : List Event),
      opts'.singleLine = opts.singleLine → libc'.Reliable →
      1 ≤ opts'.foutBufferSize → init opts' libc' = some u₀' →
      (∀ e ∈ current, e.isRecord = true) →
        let u := (runEvents opts libc (u₀, n)
          (before ++ .stackBegin :: current)).1
        let u' := (runEvents opts' libc' (u₀', n')
          (before' ++ .stackBegin :: current)).1
        u.text = u'.text ∧ u.truncated = u'.truncated) := by
  refine ⟨?_, ?_, ?_⟩
  · intro before current hrec u
    have hholds := runEvents_current hlibc hb hinit n before hrec
    exact ⟨kept (records opts current), kept_isPrefix _, kept_length_le _,
      fun qs hqs hlen => prefix_kept hqs hlen, hholds.text,
      hholds.truncated⟩
  · intro before after u
    have hbegin := runEvents_begun hlibc hb hinit n before
    have hafter := runEvents_sound hlibc opts
      (runEvents opts libc (u₀, n) (before ++ [.stackBegin])) hbegin.valid
      after
    have hrun : u = (runEvents opts libc
        (runEvents opts libc (u₀, n) (before ++ [.stackBegin])) after).1 := by
      rw [← runEvents_append, List.append_assoc, List.singleton_append]
    rw [hrun]
    exact ⟨hafter.1.len_lt, hafter.1.cap_le, hafter.2 hbegin.terminated⟩
  · intro opts' libc' u₀' n' before before' current hmode hlibc' hb' hinit'
      hrec u u'
    have h := runEvents_current hlibc hb hinit n before hrec
    have h' := runEvents_current hlibc' hb' hinit' n' before' hrec
    rw [records_congr hmode] at h'
    refine ⟨by rw [h.text, h'.text], ?_⟩
    rw [Bool.eq_iff_iff, h.truncated, h'.truncated]

theorem buffer_refines_records_mem :
    ∃ u₀, init usleepOptions workingLibc = some u₀ ∧
      let u := (runEvents usleepOptions workingLibc (u₀, 0)
        [.mem 1 2, .stackBegin, .mem 4096 8192]).1
      u.text = lit "# mem 4096 8192\n" ∧ u.truncated = false ∧
        u.buf[u.len]? = some 0 := by
  refine ⟨_, rfl, ?_⟩
  obtain ⟨hcontents, hterminated, -⟩ :=
    @buffer_refines_records usleepOptions workingLibc workingLibc_reliable
      (by decide) _ rfl 0
  obtain ⟨ps, hpre, -, hlongest, htext, htrunc⟩ :=
    hcontents [.mem 1 2] [.mem 4096 8192] (by decide)
  have hrecords : records usleepOptions [.mem 4096 8192] =
      [lit "# mem 4096 8192\n"] := by
    simp [records, record, Event.texts, lit]
    decide
  have hall : ps = records usleepOptions [.mem 4096 8192] := by
    have hshort : (records usleepOptions [.mem 4096 8192]).flatten.length + 1 ≤
        maxBuffer := by
      rw [hrecords]
      decide
    exact hpre.eq_of_length_le
      (hlongest _ List.prefix_rfl hshort).length_le
  refine ⟨?_, ?_, (hterminated [.mem 1 2] [.mem 4096 8192]).2.2⟩
  · rw [hall, hrecords] at htext
    simpa using htext
  · rw [← Bool.not_eq_true]
    exact fun h => htrunc.mp h hall

end Fout
end Phpspy

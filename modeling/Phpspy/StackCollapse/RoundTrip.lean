import Phpspy.Fout.Traces
import Phpspy.StackCollapse.Packets

/-!
# Decoding undoes encoding

The script reads each payload of the fout handler as the packet it stands
for.  Together with reassembly this gives the round trip: whatever order the
payloads of all threads arrive in and whichever of them are lost, the script
counts the stacks of the traces that arrived as a whole.
-/

namespace Phpspy
namespace StackCollapse

open ByteText Fout Interleaving Reassembly

/-! ## Records -/

/-- A comment that the script skips, whatever comes after it. -/
def Skipped (word : Bytes) : Prop :=
  (10 : UInt8) ∉ word ∧ ∀ enc st rest, step enc st (word ++ rest) = st

/-- The script reads a record as the frame it describes. -/
def Readable (opts : Options) (e : Entry) : Prop :=
  ∀ enc st, step enc st (stripDelims opts e.text) =
    { st with stack := st.stack ++ e.frame.toList }

/-- A frame with names in printable ASCII, or any other event. -/
def PlainEvent : Event → Prop
  | .frame f =>
      (∀ b ∈ f.loc.cls, isPrintable b = true) ∧
        (∀ b ∈ f.loc.func, isPrintable b = true) ∧ f.loc.func ≠ []
  | _ => True

theorem cstr_of_printable {bs : Bytes}
    (hbs : ∀ b ∈ bs, isPrintable b = true) : cstr bs = bs := by
  refine cstr_of_notMem fun hmem => ?_
  exact absurd (hbs 0 hmem) (by decide)

theorem name_printable {f : TraceFrame} (hf : PlainEvent (.frame f)) :
    f.loc.name ≠ [] ∧ ∀ b ∈ f.loc.name, isPrintable b = true := by
  obtain ⟨hcls, hfunc, hne⟩ := hf
  rw [TraceLoc.name, cstr_of_printable hcls, cstr_of_printable hfunc]
  constructor
  · simp [hne]
  · intro b hb
    rcases List.mem_append.mp hb with hb | hb
    · rcases List.mem_append.mp hb with hb | hb
      · exact hcls b hb
      · have hsep : ∀ b ∈ lit "::", isPrintable b = true :=
          List.all_eq_true.mp (by decide)
        split at hb
        · exact hsep b hb
        · simp at hb
    · exact hfunc b hb

section Records

variable {opts : Options} (hmode : opts.singleLine = false)

include hmode

theorem readable_comment {word : Bytes} (hword : Skipped word)
    (rest : Bytes) : Readable opts (comment (word ++ rest)) := by
  intro enc st
  have htext : stripDelims opts (word ++ rest) = word ++ masked 10 rest := by
    rw [stripDelims_of_not_singleLine hmode, masked, List.map_append,
      ← masked, ← masked, masked_of_notMem hword.1]
  have hskip := hword.2 enc st (masked 10 rest)
  simpa [comment, htext] using hskip

theorem readable_verbose (traceTs : Bytes) (pid : ℤ) :
    ∀ e ∈ (verboseTexts opts traceTs pid).map comment, Readable opts e := by
  have hts : Skipped (lit "# trace_ts = ") :=
    ⟨by decide, fun enc st rest => step_comment enc st rfl rfl⟩
  have hpid : Skipped (lit "# pid = ") :=
    ⟨by decide, fun enc st rest => step_comment enc st rfl rfl⟩
  intro e he
  obtain ⟨text, htext, rfl⟩ := List.mem_map.mp he
  rw [verboseTexts, List.mem_append] at htext
  rcases htext with h | h
  · split at h
    · rw [List.mem_singleton.mp h]
      exact readable_comment hmode hts _
    · simp at h
  · split at h
    · rw [List.mem_singleton.mp h]
      exact readable_comment hmode hpid _
    · simp at h

theorem readable_frame {f : TraceFrame} (hf : PlainEvent (.frame f)) :
    ∀ e ∈ eventEntries (.frame f), Readable opts e := by
  intro e he enc st
  obtain ⟨hne, hname⟩ := name_printable hf
  rw [eventEntries, List.mem_singleton] at he
  subst e
  have hclean : ∀ {bs : Bytes}, (∀ b ∈ bs, isSpace b = false) →
      masked 10 bs = bs := by
    intro bs hbs
    apply masked_of_notMem
    intro hmem
    exact absurd (hbs 10 hmem) (by decide)
  have htext : stripDelims opts
      (decimal f.depth ++ lit " " ++ f.loc.text) =
        decimal f.depth ++ 32 :: (f.loc.name ++ 32 ::
          masked 10 (cstr f.loc.file ++ lit ":" ++
            decimalInt f.loc.lineno)) := by
    have hloc : f.loc.text = f.loc.name ++ (32 :: (cstr f.loc.file ++
        lit ":" ++ decimalInt f.loc.lineno)) := by
      simp [TraceLoc.text, TraceLoc.name, lit]
    have hdepth : masked 10 (decimal f.depth) = decimal f.depth :=
      hclean fun b hb => isDigit_notSpace (decimal_isDigit hb)
    have hname' : masked 10 f.loc.name = f.loc.name :=
      hclean fun b hb => isPrintable_notSpace (hname b hb)
    rw [stripDelims_of_not_singleLine hmode, hloc]
    simp only [masked, List.map_append, List.map_cons] at hdepth hname' ⊢
    rw [hdepth, hname']
    simp [lit]
  rw [htext, step_frame enc st f.depth hne hname]
  rfl

theorem readable_event {event : Event} (hevent : PlainEvent event) :
    ∀ e ∈ eventEntries event, Readable opts e := by
  have hskip : ∀ word ∈ [lit "# varpeek ", lit "# glopeek ", lit "# uri = ",
      lit "# path = ", lit "# qstring = ", lit "# cookie = ", lit "# ts = ",
      lit "# mem "], Skipped word := by
    intro word hword
    simp only [List.mem_cons, List.not_mem_nil, or_false] at hword
    rcases hword with rfl | rfl | rfl | rfl | rfl | rfl | rfl | rfl
    all_goals
      exact ⟨by decide, fun enc st rest => step_comment enc st rfl rfl⟩
  cases event with
  | frame f => exact readable_frame hmode hevent
  | stackBegin => simp [eventEntries, Event.texts]
  | stackEnd ts pid => simp [eventEntries, Event.texts]
  | varpeek name filenameLineno value | glopeek key value | mem size peak =>
      intro e he
      simp only [eventEntries, Event.texts, List.map_cons, List.map_nil,
        List.mem_singleton, List.append_assoc] at he
      rw [he]
      exact readable_comment hmode (hskip _ (by simp)) _
  | request r =>
      intro e he
      simp only [eventEntries, Event.texts, List.map_cons, List.map_nil,
        List.mem_cons, List.not_mem_nil, or_false] at he
      rcases he with rfl | rfl | rfl | rfl | rfl
      all_goals exact readable_comment hmode (hskip _ (by simp)) _

theorem readable_allEntries {tr : Trace}
    (htr : ∀ e ∈ tr.events, PlainEvent e) :
    ∀ e ∈ tr.allEntries opts, Readable opts e := by
  intro e he
  rcases List.mem_append.mp he with h | h
  · obtain ⟨event, hevent, hmem⟩ := List.mem_flatMap.mp h
    exact readable_event hmode (htr event hevent) e hmem
  · exact readable_verbose hmode tr.traceTs tr.pid e h

theorem readable_marker :
    Readable opts (comment (lit "# truncated = 1")) ∧
      (comment (lit "# truncated = 1")).record opts =
        truncMarkerText opts := by
  have hskip : Skipped (lit "# truncated = 1") :=
    ⟨by decide, fun enc st rest => step_comment enc st rfl rfl⟩
  constructor
  · have h := readable_comment hmode hskip []
    rwa [List.append_nil] at h
  · rw [Entry.record, record, comment, truncMarkerText,
      stripDelims_of_not_singleLine hmode, masked_of_notMem hskip.1]

end Records

/-! ## Payloads -/

section Payloads

variable {opts : Options} {es : List Entry}

theorem tracks_lines (hes : ∀ e ∈ es, Readable opts e) (enc : Encode)
    {names : List Bytes} {st : State} {r : Receiver Bytes}
    (h : Tracks names st r) :
    Tracks (names ++ frames es)
      ((es.map fun e => stripDelims opts e.text).foldl (step enc) st) r := by
  induction es generalizing names st with
  | nil => simpa [frames] using h
  | cons e es ih =>
      have hstep := h.push e.frame.toList
      rw [← hes e List.mem_cons_self enc st] at hstep
      have hrest := ih (fun x hx => hes x (List.mem_cons_of_mem e hx)) hstep
      have hframes : frames (e :: es) = e.frame.toList ++ frames es := by
        cases hframe : e.frame with
        | none => simp [frames, hframe]
        | some name => simp [frames, hframe]
      rw [List.map_cons, List.foldl_cons, hframes, ← List.append_assoc]
      exact hrest

variable (hmode : opts.singleLine = false)

include hmode

theorem lines_eq (es : List Entry) :
    (es.map (Entry.record opts)).flatten =
        ((es.map fun e => stripDelims opts e.text).map (· ++ [10])).flatten ∧
      ∀ l ∈ es.map fun e => stripDelims opts e.text, (10 : UInt8) ∉ l := by
  have hdelim : opts.frameDelim = 10 := by
    simp [Options.frameDelim, hmode]
  constructor
  · rw [List.map_map]
    congr 2
    funext e
    simp [Entry.record, record, hdelim]
  · intro l hl
    obtain ⟨e, -, rfl⟩ := List.mem_map.mp hl
    rw [← hdelim]
    exact frameDelim_notMem_stripDelims opts e.text

theorem encodes_whole (hes : ∀ e ∈ es, Readable opts e) (enc : Encode) :
    Encodes enc ((es.map (Entry.record opts)).flatten ++ [10])
      (.whole (frames es)) := by
  obtain ⟨hlines, hclean⟩ := lines_eq hmode es
  refine ⟨(es.map fun e => stripDelims opts e.text) ++ [[]], ?_, ?_, ?_⟩
  · rw [hlines]
    simp
  · intro l hl
    rcases List.mem_append.mp hl with hl | hl
    · exact hclean l hl
    · rw [List.mem_singleton.mp hl]
      exact List.not_mem_nil
  · intro st r h
    rw [List.foldl_append]
    have hread := tracks_lines hes enc h
    rw [List.nil_append] at hread
    exact hread.blank enc

theorem encodes_chunk (hes : ∀ e ∈ es, Readable opts e) (enc : Encode)
    (traceId k : ℕ) (mark : UInt8) (hmark : isDigit mark = false)
    (hnewline : mark ≠ 10) :
    Encodes enc
      ((es.map (Entry.record opts)).flatten ++ chunkTail opts traceId k mark)
      (.part traceId k (mark == 33) (frames es)) := by
  obtain ⟨hlines, hclean⟩ := lines_eq hmode es
  have hdelims : opts.frameDelim = 10 ∧ opts.traceDelim = 10 := by
    simp [Options.frameDelim, Options.traceDelim, hmode]
  have hdigits : ∀ n, (10 : UInt8) ∉ decimal n := by
    intro n hmem
    exact absurd (decimal_isDigit hmem) (by decide)
  refine ⟨(es.map fun e => stripDelims opts e.text) ++
    [lit "# trace_id = " ++ (decimal traceId ++ 46 :: (decimal k ++ [mark])),
      []], ?_, ?_, ?_⟩
  · rw [hlines, chunkTail, hdelims.1, hdelims.2]
    simp [lit]
  · intro l hl
    rcases List.mem_append.mp hl with hl | hl
    · exact hclean l hl
    · simp only [List.mem_cons, List.not_mem_nil, or_false] at hl
      rcases hl with rfl | rfl
      · have hword : (10 : UInt8) ∉ lit "# trace_id = " := by decide
        simp [hword, hdigits, hnewline.symm]
      · exact List.not_mem_nil
  · intro st r h
    have hread := tracks_lines hes enc h
    rw [List.nil_append] at hread
    rw [List.foldl_append, List.foldl_cons, List.foldl_cons, List.foldl_nil,
      step_traceId enc _ traceId k hmark]
    exact (hread.chunk traceId k mark).blank_nil enc

theorem encodes_chunks {boxes : List (List Entry)}
    (hboxes : ∀ es ∈ boxes, ∀ e ∈ es, Readable opts e) (enc : Encode)
    (traceId : ℕ) :
    List.Forall₂ (Encodes enc)
      (chunkPayloads opts traceId
        (boxes.map fun es => (es.map (Entry.record opts)).flatten))
      ((Message.parts (boxes.map frames)).packets traceId) := by
  rw [List.forall₂_iff_get]
  constructor
  · simp [chunkPayloads, Message.packets]
  · intro k hk _
    have hlt : k < boxes.length := by
      simpa [chunkPayloads] using hk
    have hbox := hboxes boxes[k] (List.getElem_mem hlt)
    by_cases hlast : k + 1 = boxes.length
    · have h := encodes_chunk hmode hbox enc traceId k 33 (by decide)
        (by decide)
      simpa [chunkPayloads, Message.packets, hlast] using h
    · have h := encodes_chunk hmode hbox enc traceId k 126 (by decide)
        (by decide)
      have hbeq : (k + 1 == boxes.length) = false := by simp [hlast]
      simpa [chunkPayloads, Message.packets, hlast, hbeq] using h

theorem encodes_whole_trace {tr : Trace}
    (hkept : ∀ e ∈ keptEntries (tr.allEntries opts), Readable opts e)
    (enc : Encode) :
    Encodes enc
      ((kept (tr.records opts)).flatten ++
        (if tr.truncated opts then truncMarkerText opts else []) ++
          [opts.traceDelim])
      (.whole (frames (keptEntries (tr.allEntries opts)))) := by
  obtain ⟨hmarker, hmarkerText⟩ := readable_marker hmode
  set extra : List Entry :=
    if tr.truncated opts then [comment (lit "# truncated = 1")] else []
    with hextra
  have hread : ∀ e ∈ keptEntries (tr.allEntries opts) ++ extra,
      Readable opts e := by
    intro e he
    rcases List.mem_append.mp he with h | h
    · exact hkept e h
    · rw [hextra] at h
      split at h
      · rw [List.mem_singleton.mp h]
        exact hmarker
      · simp at h
  have hpayload : (kept (tr.records opts)).flatten ++
      (if tr.truncated opts then truncMarkerText opts else []) ++
        [opts.traceDelim] =
      ((keptEntries (tr.allEntries opts) ++ extra).map
        (Entry.record opts)).flatten ++ [10] := by
    rw [Trace.records, kept_map_record, List.map_append,
      List.flatten_append, hextra]
    split
    · simp [hmarkerText, Options.traceDelim]
    · simp [Options.traceDelim]
  have hframes : frames (keptEntries (tr.allEntries opts)) =
      frames (keptEntries (tr.allEntries opts) ++ extra) := by
    rw [frames, frames, List.filterMap_append, hextra]
    split
    · simp [comment]
    · simp
  rw [hpayload, hframes]
  exact encodes_whole hmode hread enc

theorem encodes_chunked_trace {tr : Trace} {traceId : ℕ}
    (hkept : ∀ e ∈ keptEntries (tr.allEntries opts), Readable opts e)
    (enc : Encode) :
    List.Forall₂ (Encodes enc)
      (chunkPayloads opts traceId
        (chunkBodies opts traceId (kept (tr.records opts))
          (tr.truncated opts)))
      ((Message.parts ((tr.boxes opts traceId).1.map frames ++
        if (tr.boxes opts traceId).2 ≠ [] ∨ tr.truncated opts = true
        then [[]] else [])).packets traceId) := by
  obtain ⟨hmarker, hmarkerText⟩ := readable_marker hmode
  set dropped : List (List Entry) :=
    if (tr.boxes opts traceId).2 ≠ [] ∨ tr.truncated opts = true
    then [[comment (lit "# truncated = 1")]] else [] with hdropped
  have hread : ∀ es ∈ (tr.boxes opts traceId).1 ++ dropped,
      ∀ e ∈ es, Readable opts e := by
    intro es hes e he
    rcases List.mem_append.mp hes with h | h
    · apply hkept
      have hconsecutive := (GreedyPacking.pack_isGreedy
        (fun e : Entry => e.text.length + 1) (capacity opts traceId) 0
          (keptEntries (tr.allEntries opts))).consecutive
      rw [← hconsecutive]
      exact List.mem_append_left _ (List.mem_flatten.mpr ⟨es, h, he⟩)
    · rw [hdropped] at h
      split at h
      · rw [List.mem_singleton.mp h, List.mem_singleton] at he
        rw [he]
        exact hmarker
      · simp at h
  have hbodies : chunkBodies opts traceId (kept (tr.records opts))
      (tr.truncated opts) =
      ((tr.boxes opts traceId).1 ++ dropped).map fun es =>
        (es.map (Entry.record opts)).flatten := by
    rw [chunkBodies, tr.chunked_eq, List.map_append, List.map_map, hdropped]
    congr 1
    simp only [ne_eq, List.map_eq_nil_iff]
    split
    · simp [hmarkerText]
    · rfl
  have hcontents : (tr.boxes opts traceId).1.map frames ++
      (if (tr.boxes opts traceId).2 ≠ [] ∨ tr.truncated opts = true
        then [[]] else []) =
      ((tr.boxes opts traceId).1 ++ dropped).map frames := by
    rw [List.map_append, hdropped]
    congr 1
    split
    · simp [frames, comment]
    · rfl
  rw [hbodies, hcontents]
  exact encodes_chunks hmode hread enc traceId

/-- The payloads of a trace encode the packets of its message. -/
theorem encodes_payloads {tr : Trace} (htr : ∀ e ∈ tr.events, PlainEvent e)
    (enc : Encode) (traceId : ℕ) :
    List.Forall₂ (Encodes enc) (tr.payloads opts traceId)
      ((tr.message opts traceId).packets traceId) := by
  have hall := readable_allEntries hmode htr
  have hkept : ∀ e ∈ keptEntries (tr.allEntries opts), Readable opts e :=
    fun e he => hall e (List.mem_of_mem_take he)
  simp only [Trace.payloads, Trace.message]
  split
  · exact List.Forall₂.nil
  · split
    · exact List.Forall₂.cons (encodes_whole_trace hmode hkept enc)
        List.Forall₂.nil
    · exact encodes_chunked_trace hmode hkept enc

end Payloads

/-! ## The round trip -/

section RoundTrip

variable {ι : Type*} {opts : Options} {libc : ι → Libc}

/-- Threads that handle plain traces are senders of their messages. -/
theorem launchTrace_simulates (enc : Encode)
    (hmode : opts.singleLine = false) (hlibc : ∀ i, (libc i).Reliable) :
    Simulates (2 ^ 64) (fun _ u => u.Prepared opts)
      (fun tr => ∀ e ∈ tr.events, PlainEvent e)
      (fun tr => tr.message opts) (Encodes enc) (launchTrace opts libc)
      (launch (2 ^ 64)) := by
  intro i u _ n tr hu hn hplain
  obtain ⟨hprepared, hpayloads, hcounter, hcontent⟩ :=
    launchTrace_eq (hlibc i) hu hn tr
  refine ⟨hprepared, ?_, hcounter, ?_, hcontent⟩
  · rw [hpayloads]
    exact encodes_payloads hmode hplain enc n
  · rw [hcounter]
    cases tr.message opts n with
    | silent => exact hn
    | whole content => exact hn
    | parts contents => exact Nat.mod_lt _ (by decide)

/-- At any time the script counts what a receiver of the messages would
deliver. -/
theorem collapse_run [DecidableEq ι] (enc : Encode)
    (hmode : opts.singleLine = false) (hb : 1 ≤ opts.foutBufferSize)
    (hlibc : ∀ i, (libc i).Reliable) {udata : ι → Udata}
    (hinit : ∀ i, init opts (libc i) = some (udata i))
    {traces : ι → List Trace}
    (hplain : ∀ i, ∀ tr ∈ traces i, ∀ e ∈ tr.events, PlainEvent e)
    (schedule : List (ι × Bool)) :
    let s := (System.initial udata traces : Threads ι).run
      (launchTrace opts libc) schedule
    let t := (System.initial (fun _ => ())
      (fun i => (traces i).map fun tr => tr.message opts) :
        System ι Unit (ℕ → Message Bytes) (Packet Bytes) Bytes).run
          (launch (2 ^ 64)) schedule
    s.drawn = t.drawn ∧ s.complete = t.complete ∧
      Counts (collapse enc s.output.flatten)
        (t.output.foldl Receiver.receive Receiver.empty).out := by
  intro s t
  have hrelated := System.Related.run
    (launchTrace_simulates enc hmode hlibc)
    (System.Related.initial (by decide) (fun _ => ())
      (fun i => init_prepared hb (hinit i)) hplain) schedule
  exact ⟨hrelated.drawn, hrelated.complete, collapse_counts hrelated.output⟩

/-- Decoding undoes encoding.  Any number of threads handle any traces whose
frame names are printable, their payloads reach the output in any
interleaving, and any of them may be lost.  Unless the trace id counter has
gone round, the script counts exactly the stacks of the traces that are
complete and kept a frame. -/
theorem collapse_counts_complete [DecidableEq ι] (enc : Encode)
    (hmode : opts.singleLine = false) (hb : 1 ≤ opts.foutBufferSize)
    (hlibc : ∀ i, (libc i).Reliable) {udata : ι → Udata}
    (hinit : ∀ i, init opts (libc i) = some (udata i))
    {traces : ι → List Trace}
    (hplain : ∀ i, ∀ tr ∈ traces i, ∀ e ∈ tr.events, PlainEvent e)
    (schedule : List (ι × Bool)) :
    let s := (System.initial udata traces : Threads ι).run
      (launchTrace opts libc) schedule
    s.drawn ≤ 2 ^ 64 → Counts (collapse enc s.output.flatten) s.complete := by
  intro s hdrawn
  obtain ⟨hsame, hcomplete, hcounts⟩ :=
    collapse_run enc hmode hb hlibc hinit hplain schedule
  rw [hsame] at hdrawn
  have hout := receive_run (by decide) _ schedule hdrawn
  rw [hcomplete, ← hout]
  exact hcounts

end RoundTrip

/-! ## When the trace id counter goes round -/

/-- A stand-in for `utf-8` that is right on ASCII. -/
def latin1 : Encode :=
  { decode := fun bs => bs.map UInt8.toNat
    encode := fun cs => cs.map fun c => c.toUInt8
    decode_ascii := fun _ _ => rfl
    encode_ascii := fun bs _ => by
      rw [List.map_map]
      exact (List.map_congr_left fun b _ => UInt8.ofNat_toNat).trans
        (List.map_id bs) }

/-- Records of 50 bytes, two of which never fit into a chunk of `-b 90`. -/
def wrapOptions : Options :=
  { usleepOptions with foutBufferSize := 90 }

def wrapFrame (depth : ℕ) (func : String) : Event :=
  .frame
    { loc :=
        { func := lit func
          cls := []
          file := List.replicate 43 97
          lineno := 1 }
      depth := depth }

def wrapTrace : Trace :=
  { events := [wrapFrame 0 "f", wrapFrame 1 "g"]
    traceTs := []
    pid := 1
    isRecord := by decide }

theorem wrapTrace_plain : ∀ e ∈ wrapTrace.events, PlainEvent e := by
  intro e he
  simp only [wrapTrace, List.mem_cons, List.not_mem_nil, or_false] at he
  rcases he with rfl | rfl
  · exact ⟨List.forall_mem_nil _, List.all_eq_true.mp (by decide),
      by decide⟩
  · exact ⟨List.forall_mem_nil _, List.all_eq_true.mp (by decide),
      by decide⟩

/-- The records of the trace. -/
def wrapEntry (depth : ℕ) (func : String) : Entry :=
  { text := decimal depth ++ lit " " ++ lit func ++ lit " " ++
      List.replicate 43 97 ++ lit ":1"
    frame := some (lit func) }

theorem wrapTrace_entries :
    wrapTrace.allEntries wrapOptions = [wrapEntry 0 "f", wrapEntry 1 "g"] ∧
      wrapTrace.entries = [wrapEntry 0 "f", wrapEntry 1 "g"] :=
  ⟨rfl, rfl⟩

theorem wrapTrace_records :
    kept (wrapTrace.records wrapOptions) = wrapTrace.records wrapOptions ∧
      (wrapTrace.records wrapOptions).flatten.length = 100 := by
  have hlen : (wrapTrace.records wrapOptions).flatten.length = 100 := by
    rw [Trace.records, wrapTrace_entries.1, List.length_flatten]
    simp only [List.map_cons, List.map_nil, Entry.record, record_length]
    decide
  refine ⟨?_, hlen⟩
  rw [kept_eq_self_iff, hlen]
  decide

theorem wrapTrace_boxes {n : ℕ} (hn : n < 2 ^ 64) :
    wrapTrace.boxes wrapOptions n =
      ([[wrapEntry 0 "f"], [wrapEntry 1 "g"]], []) := by
  have hcap : ∀ k < 2, 50 ≤ capacity wrapOptions n k ∧
      capacity wrapOptions n k < 100 := by
    intro k hk
    have hid := decimal_length_le_twenty hn
    have hindex : (decimal k).length = 1 := by
      interval_cases k
      · rfl
      · rfl
    have hb : wrapOptions.foutBufferSize = 90 := rfl
    rw [capacity, chunkTail_length, hb]
    omega
  have hsize : (wrapEntry 0 "f").text.length + 1 = 50 ∧
      (wrapEntry 1 "g").text.length + 1 = 50 := by
    decide
  have hkept : keptEntries [wrapEntry 0 "f", wrapEntry 1 "g"] =
      [wrapEntry 0 "f", wrapEntry 1 "g"] := by
    simp [keptEntries, GreedyPacking.fit, hsize.1, hsize.2, maxBuffer]
  rw [Trace.boxes, wrapTrace_entries.1, hkept]
  apply GreedyPacking.pack_pair
  · rw [hsize.1]
    exact (hcap 0 (by decide)).1
  · rw [hsize.1, hsize.2]
    exact (hcap 0 (by decide)).2
  · rw [hsize.2]
    exact (hcap 1 (by decide)).1

theorem wrapTrace_message {n : ℕ} (hn : n < 2 ^ 64) :
    wrapTrace.message wrapOptions n = .parts [[lit "f"], [lit "g"]] := by
  obtain ⟨hkept, hlen⟩ := wrapTrace_records
  have htrunc : wrapTrace.truncated wrapOptions = false := by
    simp [Trace.truncated, hkept]
  have hskip : wrapTrace.skipped wrapOptions = false := by
    have hevents : Fout.records wrapOptions wrapTrace.events =
        wrapTrace.records wrapOptions := by
      rw [wrapTrace.records_eq]
      exact (List.append_nil _).symm
    have hne : (wrapTrace.records wrapOptions).flatten ≠ [] := by
      intro hnil
      rw [hnil] at hlen
      cases hlen
    have hfilter : wrapOptions.filterRe = none := rfl
    simp only [Trace.skipped, rejects, hevents, hkept, hfilter,
      Bool.or_false, List.isEmpty_eq_false_iff]
    exact hne
  have hfits : wrapTrace.fits wrapOptions = false := by
    rw [Trace.fits, hkept, hlen, htrunc]
    rfl
  rw [Trace.message, hskip, hfits, htrunc, wrapTrace_boxes hn]
  rfl

/-- Two threads write a trace each at the same time, and the last chunk of the
second one is lost. -/
theorem collapse_counts_complete_two_threads :
    ∃ u, init wrapOptions workingLibc = some u ∧
      let s := (System.initial (fun _ => u) (fun _ => [wrapTrace]) :
        Threads Bool).run (launchTrace wrapOptions fun _ => workingLibc)
          [(false, true), (true, true), (true, true), (false, true),
            (false, true), (true, false)]
      s.drawn ≤ 2 ^ 64 ∧
        Counts (collapse latin1 s.output.flatten) s.complete := by
  obtain ⟨u, hinit⟩ : ∃ u, init wrapOptions workingLibc = some u := ⟨_, rfl⟩
  refine ⟨u, hinit, ?_⟩
  intro s
  have hdrawn : s.drawn ≤ 2 ^ 64 := by
    have hle : s.drawn ≤ 0 + 6 := System.run_drawn_le _ _ _
    exact hle.trans (by decide)
  refine ⟨hdrawn, collapse_counts_complete latin1 rfl (by decide)
    (fun _ => workingLibc_reliable) (fun _ => hinit) ?_ _ hdrawn⟩
  intro i tr htr
  rw [List.mem_singleton.mp htr]
  exact wrapTrace_plain

/-- A thread that writes the same trace until the counter has gone round, and
once more.  Only the first chunk of the first and the last chunk of the last
trace arrive, and both carry the same id. -/
theorem collapse_reuse {u : Udata}
    (hinit : init wrapOptions workingLibc = some u) {m : ℕ}
    (hm : m = 2 ^ 64) :
    let s := (System.initial (fun _ => u)
      (fun _ => List.replicate (m + 1) wrapTrace) : Threads Unit).run
        (launchTrace wrapOptions fun _ => workingLibc) (reuseSchedule m)
    s.complete = [] ∧
      (collapse latin1 s.output.flatten).lookup (lit "g;f") = some 1 := by
  have hplain : ∀ i : Unit,
      ∀ tr ∈ (fun _ => List.replicate (m + 1) wrapTrace) i,
        ∀ e ∈ tr.events, PlainEvent e := by
    intro i tr htr
    rw [List.eq_of_mem_replicate htr]
    exact wrapTrace_plain
  have hlimit : 1 < m := by
    rw [hm]
    decide
  obtain ⟨-, hcomplete, hcounts⟩ := collapse_run latin1 rfl (by decide)
    (fun _ => workingLibc_reliable) (fun _ => hinit) hplain
    (reuseSchedule m)
  obtain ⟨hnone, hout⟩ := receive_reuse hlimit
    fun k hk => wrapTrace_message (hk.trans_eq hm)
  rw [← hm] at hcomplete hcounts
  simp only [List.map_replicate] at hcomplete hcounts
  rw [hnone] at hcomplete
  rw [hout] at hcounts
  exact ⟨hcomplete, hcounts (lit "g;f")⟩

/-- Without a bound on the number of ids drawn, the script may count a stack
although no trace is complete. -/
theorem collapse_counts_reused_id :
    ∃ (u : Udata) (traces : Unit → List Trace)
      (schedule : List (Unit × Bool)),
      init wrapOptions workingLibc = some u ∧
        (∀ i, ∀ tr ∈ traces i, ∀ e ∈ tr.events, PlainEvent e) ∧
        let s := (System.initial (fun _ => u) traces : Threads Unit).run
          (launchTrace wrapOptions fun _ => workingLibc) schedule
        s.complete = [] ∧
          (collapse latin1 s.output.flatten).lookup (lit "g;f") = some 1 ∧
          ¬ Counts (collapse latin1 s.output.flatten) s.complete := by
  obtain ⟨u, hinit⟩ : ∃ u, init wrapOptions workingLibc = some u := ⟨_, rfl⟩
  obtain ⟨m, hm⟩ : ∃ m, m = 2 ^ 64 := ⟨_, rfl⟩
  obtain ⟨hcomplete, hlookup⟩ := collapse_reuse hinit hm
  refine ⟨u, fun _ => List.replicate (m + 1) wrapTrace, reuseSchedule m,
    hinit, ?_, hcomplete, hlookup, ?_⟩
  · intro i tr htr
    rw [List.eq_of_mem_replicate htr]
    exact wrapTrace_plain
  · intro hcounts
    have hnone := hcounts (lit "g;f")
    rw [hlookup, hcomplete] at hnone
    cases hnone

end StackCollapse
end Phpspy

import Phpspy.Fout.Frames
import Phpspy.Top.MainLoop
import Phpspy.Varpeek.Denotation

/-!
# From the traces of the child to the counters

Top mode runs another phpspy and reads what its fout handler writes.  Every
frame that the threads of the child write is counted once, at the leaf or above
it, no matter how their payloads interleave, which of them get lost, and how the
stream is cut into reads and intervals.
-/

namespace Phpspy
namespace Top

open ByteText Fout GreedyPacking Interleaving LineSplitting
open Varpeek (isDigit_ne isDigit_not_isSpace splitSign strtoul)

def shownFrame (opts : Options) (f : TraceFrame) : Bool × Bytes :=
  (decide (f.depth = 0), stripDelims opts f.loc.text)

/-- The frames that top mode counts.  It has no room for a longer text. -/
def countedFrames (opts : Options) (frames : List TraceFrame) :
    List (Bool × Bytes) :=
  (frames.map (shownFrame opts)).filter fun f => f.2.length < funcSize

/-! ## Lines -/

theorem strtoull_frameLine (d : ℕ) (rest : Bytes) :
    (strtoul (decimal d ++ 32 :: rest) = 0 ↔ d = 0) ∧
      strtoullEnd (decimal d ++ 32 :: rest) = (decimal d).length := by
  obtain ⟨b, bs, hb⟩ := List.exists_cons_of_ne_nil (decimal_ne_nil d)
  have hdigit : isDigit b = true := by
    apply decimal_isDigit (n := d)
    rw [hb]
    exact List.mem_cons_self
  have hspace : (decimal d ++ 32 :: rest).dropWhile Varpeek.isSpace =
      decimal d ++ 32 :: rest := by
    rw [hb, List.cons_append, List.dropWhile_cons,
      isDigit_not_isSpace hdigit]
    rfl
  have hsign : splitSign (decimal d ++ 32 :: rest) =
      (false, decimal d ++ 32 :: rest) := by
    have hminus : b ≠ 45 := isDigit_ne hdigit (by decide)
    have hplus : b ≠ 43 := isDigit_ne hdigit (by decide)
    rw [hb, List.cons_append, splitSign, if_neg hminus, if_neg hplus]
  have hdigits : (decimal d ++ 32 :: rest).takeWhile isDigit = decimal d := by
    rw [List.takeWhile_append_of_pos fun b hb => decimal_isDigit hb,
      List.takeWhile_cons_of_neg (by decide), List.append_nil]
  constructor
  · rw [strtoul, hspace, hsign]
    dsimp only
    rw [hdigits, numVal_decimal]
    split
    · omega
    · exact Iff.rfl
  · rw [strtoullEnd, hspace, hsign]
    dsimp only
    rw [hdigits, if_neg (decimal_ne_nil d), Nat.sub_self, Nat.zero_add]

theorem accepted_frameLine (d : ℕ) {text : Bytes} (htext : text ≠ []) :
    accepted (decimal d ++ 32 :: text) =
      if text.length < funcSize then some (decide (d = 0), text) else none := by
  have hne := decimal_ne_nil d
  have hlen : 0 < (decimal d).length := List.length_pos_iff.mpr hne
  have htlen : 0 < text.length := List.length_pos_iff.mpr htext
  have hmem : decimal d ++ 32 :: text ++ [10] =
      decimal d ++ 32 :: (text ++ [10]) := by
    simp
  obtain ⟨hzero, hend⟩ := strtoull_frameLine d (text ++ [10])
  have hlength : (decimal d ++ 32 :: text).length =
      (decimal d).length + 1 + text.length := by
    rw [List.length_append, List.length_cons]
    omega
  have hfunc : ((decimal d ++ 32 :: (text ++ [10])).drop
      ((decimal d).length + 1)).take text.length = text := by
    rw [← List.drop_drop, List.drop_left, List.drop_succ_cons, List.drop_zero,
      List.take_left]
  rw [accepted, hmem, hlength]
  split
  · next hshort =>
      have haccepted : acceptedLine (decimal d ++ 32 :: (text ++ [10]))
          ((decimal d).length + 1 + text.length) =
            some (strtoul (decimal d ++ 32 :: (text ++ [10])), text) := by
        rw [acceptedLine_eq_some_iff, hend]
        refine ⟨by omega, ?_, ?_, ?_, by omega, by omega, ?_⟩
        · rw [List.head?_append_of_ne_nil _ hne]
          intro hhead
          have hdigit := decimal_isDigit (List.mem_of_head? hhead)
          exact absurd hdigit (by decide)
        · intro hnumber
          rw [List.head?_append_of_ne_nil _ hne, hzero.mp hnumber]
          rfl
        · rw [List.getElem?_append_right le_rfl, Nat.sub_self]
          rfl
        · rw [Nat.add_sub_cancel_left, hfunc]
      rw [haccepted, Option.map_some]
      simp only [hzero]
  · next hlong =>
      rw [Option.map_eq_none_iff, Option.eq_none_iff_forall_ne_some]
      intro frame hframe
      obtain ⟨-, -, -, -, -, hshort, -⟩ := acceptedLine_eq_some_iff.mp hframe
      rw [hend] at hshort
      omega

theorem accepted_comment (rest : Bytes) : accepted (35 :: rest) = none := by
  rw [accepted, Option.map_eq_none_iff, Option.eq_none_iff_forall_ne_some]
  intro frame hframe
  obtain ⟨-, hcomment, -⟩ := acceptedLine_eq_some_iff.mp hframe
  exact hcomment rfl

theorem accepted_nil : accepted [] = none :=
  rfl

/-! ## Records -/

/-- A record of a frame, or a comment. -/
def IsPlain (item : Item) : Prop :=
  (∃ f, item = frameItem f) ∨ ∃ rest, item = remark (35 :: rest)

theorem isPlain_remark {text : Bytes} (h : text.head? = some 35) :
    IsPlain (remark text) := by
  obtain ⟨rest, rfl⟩ := List.head?_eq_some_iff.mp h
  exact Or.inr ⟨rest, rfl⟩

theorem eventItems_isPlain (event : Event) :
    ∀ item ∈ eventItems event, IsPlain item := by
  intro item hitem
  cases event with
  | frame f =>
      rw [List.mem_singleton.mp hitem]
      exact Or.inl ⟨f, rfl⟩
  | stackBegin => cases hitem
  | stackEnd ts pid => cases hitem
  | varpeek name filenameLineno value | glopeek key value | mem size peak =>
      rw [List.mem_singleton.mp hitem]
      exact isPlain_remark rfl
  | request r =>
      simp only [eventItems, Event.texts, List.map_cons, List.map_nil,
        List.mem_cons, List.not_mem_nil, or_false] at hitem
      rcases hitem with rfl | rfl | rfl | rfl | rfl
      all_goals exact isPlain_remark rfl

theorem items_isPlain (opts : Options) (tr : Trace) :
    ∀ item ∈ tr.items opts, IsPlain item := by
  intro item hitem
  rcases List.mem_append.mp hitem with hitem | hitem
  · obtain ⟨event, -, hmem⟩ := List.mem_flatMap.mp hitem
    exact eventItems_isPlain event item hmem
  · obtain ⟨text, htext, rfl⟩ := List.mem_map.mp hitem
    apply isPlain_remark
    rw [verboseTexts, List.mem_append] at htext
    rcases htext with htext | htext
    · split at htext
      · rw [List.mem_singleton.mp htext]
        rfl
      · cases htext
    · split at htext
      · rw [List.mem_singleton.mp htext]
        rfl
      · cases htext

theorem zero_notMem_decimal (n : ℕ) : (0 : UInt8) ∉ decimal n :=
  fun hmem => absurd (decimal_isDigit hmem) (by decide)

theorem zero_notMem_text (loc : TraceLoc) : (0 : UInt8) ∉ loc.text := by
  have hcls := zero_notMem_cstr loc.cls
  have hfunc := zero_notMem_cstr loc.func
  have hfile := zero_notMem_cstr loc.file
  have hline : (0 : UInt8) ∉ decimalInt loc.lineno :=
    notMem_decimalInt (by decide) (by decide) loc.lineno
  have hsep : (0 : UInt8) ∉
      (if loc.cls.length > 0 then lit "::" else []) := by
    split <;> decide
  have hblank : (0 : UInt8) ∉ lit " " := by decide
  have hcolon : (0 : UInt8) ∉ lit ":" := by decide
  simp only [TraceLoc.text, List.mem_append, not_or]
  exact ⟨⟨⟨⟨⟨⟨hcls, hsep⟩, hfunc⟩, hblank⟩, hfile⟩, hcolon⟩, hline⟩

section Records

variable {opts : Options} (hmode : opts.singleLine = false)

include hmode

theorem frameItem_line (f : TraceFrame) :
    (frameItem f).line opts =
      decimal f.depth ++ 32 :: stripDelims opts f.loc.text := by
  have hclean : masked 10 (decimal f.depth) = decimal f.depth :=
    masked_of_notMem fun hmem => absurd (decimal_isDigit hmem) (by decide)
  have hblank : masked 10 (lit " ") = [32] := rfl
  rw [Item.line, frameItem, stripDelims_of_not_singleLine hmode,
    stripDelims_of_not_singleLine hmode, masked, List.map_append,
    List.map_append, ← masked, ← masked, ← masked, hclean, hblank,
    List.append_assoc]
  rfl

theorem masked_text_ne_nil (f : TraceFrame) :
    stripDelims opts f.loc.text ≠ [] := by
  rw [stripDelims_of_not_singleLine hmode, masked, ne_eq,
    List.map_eq_nil_iff, TraceLoc.text]
  simp [lit]

/-- What top mode accepts of a record is the frame it describes. -/
theorem accepted_line {item : Item} (h : IsPlain item) :
    (accepted (item.line opts)).toList =
        countedFrames opts item.frame.toList ∧
      (accepted (item.line opts) ≠ none →
        (0 : UInt8) ∉ item.line opts) := by
  rcases h with ⟨f, rfl⟩ | ⟨rest, rfl⟩
  · have hline := frameItem_line hmode f
    have haccepted := accepted_frameLine f.depth (masked_text_ne_nil hmode f)
    constructor
    · rw [hline, haccepted, frameItem, countedFrames, Option.toList_some,
        List.map_singleton, shownFrame]
      generalize stripDelims opts f.loc.text = text
      by_cases hshort : text.length < funcSize
      · simp [hshort]
      · simp [hshort]
    · intro _
      rw [hline, stripDelims_of_not_singleLine hmode]
      have htext : (0 : UInt8) ∉ masked 10 f.loc.text := by
        intro hmem
        obtain ⟨b, hb, hzero⟩ := List.mem_map.mp hmem
        split at hzero
        · exact absurd hzero (by decide)
        · rw [hzero] at hb
          exact zero_notMem_text f.loc hb
      have hdepth := zero_notMem_decimal f.depth
      simp [hdepth, htext]
  · have hline : (remark (35 :: rest)).line opts = 35 :: masked 10 rest := by
      rw [Item.line, remark, stripDelims_of_not_singleLine hmode]
      rfl
    rw [hline, accepted_comment]
    exact ⟨rfl, fun hsome => absurd rfl hsome⟩

end Records

/-! ## Payloads -/

/-- A line that is whole when it arrives, and that has no NUL if it counts. -/
structure IsReadable (line : Bytes) : Prop where
  newline : (10 : UInt8) ∉ line
  short : line.length < bufSize
  nul : accepted line ≠ none → (0 : UInt8) ∉ line

/-- A payload is made of lines that show these frames. -/
def Shows (opts : Options) (payload : Bytes) (frames : List TraceFrame) :
    Prop :=
  ∃ lines : List Bytes, payload = linesText lines ∧
    (∀ line ∈ lines, IsReadable line) ∧
    lines.filterMap accepted = countedFrames opts frames

theorem isReadable_comment {rest : Bytes} (hnewline : (10 : UInt8) ∉ rest)
    (hshort : rest.length + 1 < bufSize) : IsReadable (35 :: rest) where
  newline := by simp [hnewline]
  short := hshort
  nul := fun h => absurd (accepted_comment rest) h

theorem isReadable_nil : IsReadable [] where
  newline := List.not_mem_nil
  short := by decide
  nul := fun h => absurd accepted_nil h

theorem chunkItems_length_le (opts : Options) (tr : Trace) (traceId : ℕ) :
    (tr.chunkItems opts traceId).length ≤ maxBuffer := by
  have hboxes : (tr.itemBoxes opts traceId).1.length ≤
      (keptItems (tr.items opts)).length := pack_length_le _ _ 0 _
  have htotal : total (fun item : Item => item.text.length + 1)
      (keptItems (tr.items opts)) ≤ maxBuffer - 1 := total_take_fit_le _ _ _
  have hcount : ∀ items : List Item, items.length ≤
      total (fun item => item.text.length + 1) items := by
    intro items
    induction items with
    | nil => exact Nat.zero_le _
    | cons item items ih =>
        rw [total_cons, List.length_cons]
        omega
  have hkept := hcount (keptItems (tr.items opts))
  have hmarker : (if (tr.itemBoxes opts traceId).2 ≠ [] ∨
      tr.truncated opts = true then [[remark (lit "# truncated = 1")]]
        else []).length ≤ 1 := by
    split <;> decide
  have hmax : 1 ≤ maxBuffer := by decide
  rw [Trace.chunkItems, List.length_append]
  omega

theorem chunkEnd_isReadable {traceId chunkIdx : ℕ} (hid : traceId < 2 ^ 64)
    (hidx : chunkIdx < 2 ^ 64) {sentinel : UInt8} (hsentinel : sentinel ≠ 10) :
    ∀ line ∈ chunkEnd traceId chunkIdx sentinel,
      IsReadable line ∧ accepted line = none := by
  have hdigits : ∀ n, (10 : UInt8) ∉ decimal n := fun n hmem =>
    absurd (decimal_isDigit hmem) (by decide)
  have hid' := decimal_length_le_twenty hid
  have hidx' := decimal_length_le_twenty hidx
  have hlit : lit "# trace_id = " = 35 :: lit " trace_id = " := by decide
  intro line hline
  rw [chunkEnd, hlit] at hline
  simp only [List.cons_append, List.mem_cons, List.not_mem_nil,
    or_false] at hline
  rcases hline with rfl | rfl
  · refine ⟨isReadable_comment ?_ ?_, accepted_comment _⟩
    · have hword : (10 : UInt8) ∉ lit " trace_id = " := by decide
      have hdot : (10 : UInt8) ∉ lit "." := by decide
      simp [hword, hdot, hdigits, hsentinel.symm]
    · have hword : (lit " trace_id = ").length = 12 := by decide
      have hdot : (lit ".").length = 1 := by decide
      have hsize : bufSize = 512 := rfl
      simp only [List.length_append, hword, hdot, List.length_singleton]
      omega
  · exact ⟨isReadable_nil, accepted_nil⟩

theorem wholeEnd_isReadable (truncated : Bool) :
    ∀ line ∈ wholeEnd truncated, IsReadable line ∧ accepted line = none := by
  have hlit : lit "# truncated = 1" = 35 :: lit " truncated = 1" := by decide
  have hmarker : IsReadable (35 :: lit " truncated = 1") :=
    isReadable_comment (by decide) (by decide)
  intro line hline
  rw [wholeEnd, hlit] at hline
  cases truncated with
  | false =>
      rw [List.mem_singleton.mp hline]
      exact ⟨isReadable_nil, accepted_nil⟩
  | true =>
      simp only [if_true, List.cons_append, List.nil_append, List.mem_cons,
        List.not_mem_nil, or_false] at hline
      rcases hline with rfl | rfl
      · exact ⟨hmarker, accepted_comment _⟩
      · exact ⟨isReadable_nil, accepted_nil⟩

theorem payloadItems_end {opts : Options} {tr : Trace} {traceId : ℕ}
    (hid : traceId < 2 ^ 64) {p : List Item × List Bytes}
    (hp : p ∈ tr.payloadItems opts traceId) :
    ∀ line ∈ p.2, IsReadable line ∧ accepted line = none := by
  rw [Trace.payloadItems] at hp
  split at hp
  · cases hp
  · split at hp
    · rw [List.mem_singleton.mp hp]
      exact wholeEnd_isReadable _
    · obtain ⟨k, hk, rfl⟩ := List.mem_mapIdx.mp hp
      have hlen := chunkItems_length_le opts tr traceId
      have hmax : maxBuffer < 2 ^ 64 := by decide
      apply chunkEnd_isReadable hid (by omega)
      split <;> decide

section Payloads

variable {opts : Options} (hmode : opts.singleLine = false)

include hmode

theorem filterMap_accepted_items {items : List Item}
    (h : ∀ item ∈ items, IsPlain item) :
    (items.map (Item.line opts)).filterMap accepted =
      countedFrames opts (items.filterMap Item.frame) := by
  induction items with
  | nil => rfl
  | cons item items ih =>
      obtain ⟨hitem, hitems⟩ := List.forall_mem_cons.mp h
      have hline : (accepted (item.line opts)).toList =
          countedFrames opts item.frame.toList := (accepted_line hmode hitem).1
      have hcons {α β : Type} (f : α → Option β) (a : α) (as : List α) :
          (a :: as).filterMap f = (f a).toList ++ as.filterMap f := by
        cases hf : f a <;> simp [hf]
      rw [List.map_cons, hcons, hcons, hline, ih hitems, countedFrames,
        countedFrames, countedFrames, List.map_append, List.filter_append]

theorem shows_payload {tr : Trace} {traceId : ℕ} (hid : traceId < 2 ^ 64)
    (hshort : ∀ item ∈ tr.items opts, item.text.length < bufSize)
    {p : List Item × List Bytes} (hp : p ∈ tr.payloadItems opts traceId) :
    Shows opts (linesText (p.1.map (Item.line opts) ++ p.2))
      (p.1.filterMap Item.frame) := by
  have hend := payloadItems_end hid hp
  have hitem : ∀ item ∈ p.1, IsPlain item ∧ item.text.length < bufSize := by
    intro item hitem
    rcases tr.mem_payloadItems hp hitem with hmem | rfl
    · exact ⟨items_isPlain opts tr item hmem, hshort item hmem⟩
    · exact ⟨isPlain_remark (by decide), by decide⟩
  refine ⟨_, rfl, ?_, ?_⟩
  · intro line hline
    rcases List.mem_append.mp hline with hline | hline
    · obtain ⟨item, hmem, rfl⟩ := List.mem_map.mp hline
      obtain ⟨hplain, hlen⟩ := hitem item hmem
      refine ⟨?_, ?_, (accepted_line hmode hplain).2⟩
      · rw [Item.line, ← frameDelim_eq hmode]
        exact frameDelim_notMem_stripDelims opts item.text
      · rw [Item.line, stripDelims_length]
        exact hlen
    · exact (hend line hline).1
  · have hnone : p.2.filterMap accepted = [] := by
      rw [List.filterMap_eq_nil_iff]
      exact fun line hline => (hend line hline).2
    rw [List.filterMap_append, hnone, List.append_nil,
      filterMap_accepted_items hmode fun item hi => (hitem item hi).1]

theorem shows_payloads {tr : Trace} {traceId : ℕ} (hid : traceId < 2 ^ 64)
    (hshort : ∀ item ∈ tr.items opts, item.text.length < bufSize) :
    List.Forall₂ (Shows opts) (tr.payloads opts traceId)
      (tr.payloadFrames opts traceId) := by
  rw [payloads_eq hmode, Trace.payloadFrames, List.forall₂_map_left_iff,
    List.forall₂_map_right_iff]
  exact List.forall₂_same.mpr fun p hp => shows_payload hmode hid hshort hp

end Payloads

theorem exists_lines_of_shows {opts : Options} {payloads : List Bytes}
    {frames : List (List TraceFrame)}
    (h : List.Forall₂ (Shows opts) payloads frames) :
    Shows opts payloads.flatten frames.flatten := by
  induction h with
  | nil => exact ⟨[], rfl, fun _ h => absurd h List.not_mem_nil, rfl⟩
  | cons hhead _ ih =>
      obtain ⟨lines, rfl, hlines, hframes⟩ := hhead
      obtain ⟨lines', hrest, hlines', hframes'⟩ := ih
      refine ⟨lines ++ lines', ?_, ?_, ?_⟩
      · rw [List.flatten_cons, hrest, linesText_append]
      · intro line hline
        rcases List.mem_append.mp hline with hline | hline
        · exact hlines line hline
        · exact hlines' line hline
      · rw [List.filterMap_append, hframes, hframes', List.flatten_cons,
          countedFrames, countedFrames, countedFrames, List.map_append,
          List.filter_append]

/-! ## The child as a source of frames -/

/-- A thread that hands out the frames of a trace where the handler writes
payloads. -/
def launchFrames {ι : Type*} (opts : Options) (_ : ι) (_ : Unit)
    (nextTraceId : ℕ) (tr : Trace) : Started Unit (List TraceFrame) Bytes :=
  { state := ()
    payloads := tr.payloadFrames opts nextTraceId
    counter := (tr.message opts nextTraceId).nextId (2 ^ 64) nextTraceId
    content := (tr.message opts nextTraceId).content }

/-- Every record of a trace has room in the buffer of top mode, with its
newline. -/
def HasShortRecords (opts : Options) (tr : Trace) : Prop :=
  ∀ item ∈ tr.items opts, item.text.length < bufSize

theorem launchTrace_shows {ι : Type*} {opts : Options} {libc : ι → Libc}
    (hmode : opts.singleLine = false) (hlibc : ∀ i, (libc i).Reliable) :
    Simulates (2 ^ 64) (fun _ u => u.Prepared opts) (HasShortRecords opts) id
      (Shows opts) (launchTrace opts libc) (launchFrames opts) := by
  intro i u _ n tr hu hn hshort
  obtain ⟨hprepared, hpayloads, hcounter, hcontent⟩ :=
    launchTrace_eq (hlibc i) hu hn tr
  refine ⟨hprepared, ?_, hcounter, ?_, hcontent⟩
  · rw [hpayloads]
    exact shows_payloads hmode hn hshort
  · rw [hcounter]
    cases tr.message opts n with
    | silent => exact hn
    | whole content => exact hn
    | parts contents => exact Nat.mod_lt _ (by decide)

/-- A reader of lines that are short enough handles them one by one. -/
theorem mainLoop_shows (uthash : Uthash) (qsort : Qsort)
    (behind : State → Bytes) {opts : Options} {stream : Bytes}
    {frames : List TraceFrame} (hstream : Shows opts stream frames)
    {rounds : List Round} (hfits : FitsLoop uthash qsort behind .initial rounds)
    (hread : (received uthash qsort behind .initial rounds).flatten <+:
      stream) :
    ∃ seen, seen <+: countedFrames opts frames ∧
      Tallied (mainLoop uthash qsort behind .initial rounds).1.counters seen ∧
      ((received uthash qsort behind .initial rounds).flatten = stream →
        seen = countedFrames opts frames) := by
  obtain ⟨lines, rfl, hlines, hframes⟩ := hstream
  have hcut : cut 10 (linesText lines) = (lines, []) :=
    cut_flatten_map 10 fun line hline => (hlines line hline).newline
  set reads := received uthash qsort behind .initial rounds
  -- what has been read so far completes the first lines of the stream
  have hsome : (cut 10 reads.flatten).1 <+: lines := by
    obtain ⟨rest, hrest⟩ := hread
    have hmore := cut_append_isPrefix 10 reads.flatten rest
    rw [hrest, hcut] at hmore
    exact hmore
  have hnil : State.initial.buffer.pending = [] := rfl
  obtain ⟨hloop, hadmits⟩ := mainLoop_lines uthash qsort behind hfits
  rw [hnil] at hloop hadmits
  rw [receiveAll_eq_splitLines 10 bufSize List.not_mem_nil hadmits,
    (splitLines_eq_cut_iff 10 bufSize (by decide) List.not_mem_nil _).mpr
      fun line hline => (hlines line (hsome.subset hline)).short,
    List.nil_append] at hloop
  refine ⟨(cut 10 reads.flatten).1.filterMap accepted, ?_, ?_, ?_⟩
  · rw [← hframes]
    exact hsome.filterMap accepted
  · have htallied := mainLoop_tallied uthash qsort behind hfits
      (fun line hline => (hlines line (hsome.subset (hloop ▸ hline))).nul)
      Tallied.initial
    rw [hloop, List.nil_append] at htallied
    exact htallied
  · intro hall
    rw [hall, hcut, hframes]

/-- Top mode counts the frames of the child.  Any number of threads handle any
traces whose records are shorter than the buffer of top mode; their payloads
interleave in any order, and any of them may be lost.  Top mode reads the stream
in any pieces, displays at any time, and may stop at any time.  What it has
counted then, over all intervals, are the frames of the payloads that came first:
each counts once for its text, and once more if it is a leaf.  When the whole
stream has been read, these are the frames of all payloads. -/
theorem mainLoop_counts_frames {ι : Type*} [DecidableEq ι] (uthash : Uthash)
    (qsort : Qsort) (behind : State → Bytes) {opts : Options} {libc : ι → Libc}
    (hmode : opts.singleLine = false) (hb : 1 ≤ opts.foutBufferSize)
    (hlibc : ∀ i, (libc i).Reliable) {udata : ι → Udata}
    (hinit : ∀ i, init opts (libc i) = some (udata i))
    {traces : ι → List Trace}
    (hshort : ∀ i, ∀ tr ∈ traces i, HasShortRecords opts tr)
    (schedule : List (ι × Bool)) (rounds : List Round)
    (hfits : FitsLoop uthash qsort behind .initial rounds) :
    let written := ((System.initial udata traces : Threads ι).run
      (launchTrace opts libc) schedule).output.flatten
    let sent := ((System.initial (fun _ => ()) traces :
      System ι Unit Trace (List TraceFrame) Bytes).run
        (launchFrames opts) schedule).output.flatten
    let reads := received uthash qsort behind .initial rounds
    reads.flatten <+: written →
      ∃ seen, seen <+: countedFrames opts sent ∧
        Tallied (mainLoop uthash qsort behind .initial rounds).1.counters
          seen ∧
        (reads.flatten = written → seen = countedFrames opts sent) := by
  intro written sent reads hread
  have hrelated := System.Related.run (launchTrace_shows hmode hlibc)
    (System.Related.initial (by decide) (fun _ => ())
      (fun i => init_prepared hb (hinit i)) hshort) schedule
  simp only [List.map_id_fun, id_eq] at hrelated
  exact mainLoop_shows uthash qsort behind
    (exists_lines_of_shows hrelated.output) hfits hread

def childOptions : Options :=
  { singleLine := false
    foutBufferSize := 64
    filterRe := none
    filterNegate := false
    verboseFieldsTs := false
    verboseFieldsPid := false }

def childFrame (depth : ℕ) (func : String) : Event :=
  .frame
    { loc :=
        { func := lit func
          cls := []
          file := lit "a"
          lineno := 1 }
      depth := depth }

def childTrace : Trace :=
  { events := [childFrame 0 "f", childFrame 1 "g"]
    traceTs := []
    pid := 1
    isRecord := by decide }

/-- A display between two reads that cut the line of a frame. -/
def childRounds : List Round :=
  [⟨true, some (.data (lit "0 f a:1\n1 g")), false, false⟩,
    ⟨true, some (.data (lit " a:1\n\n")), false, true⟩]

/-- A sorting function that leaves its list alone. -/
def keepOrder : Qsort where
  sort := fun _ pointers => pointers
  perm := fun _ _ => List.Perm.refl _

theorem mainLoop_counts_frames_two_reads :
    let sent := ((System.initial (fun _ => ()) (fun _ => [childTrace]) :
      System Unit Unit Trace (List TraceFrame) Bytes).run
        (launchFrames childOptions) [((), true), ((), true)]).output.flatten
    Tallied (mainLoop findFirst keepOrder (fun _ => []) .initial
      childRounds).1.counters (countedFrames childOptions sent) := by
  have heval : (init childOptions workingLibc).map (fun u =>
      ((System.initial (fun _ => u) (fun _ => [childTrace]) :
        Threads Unit).run (launchTrace childOptions fun _ => workingLibc)
          [((), true), ((), true)]).output.flatten) =
      some (received findFirst keepOrder (fun _ => []) .initial
        childRounds).flatten := by
    decide +kernel
  obtain ⟨u, hinit, hwritten⟩ := Option.map_eq_some_iff.mp heval
  have hlengths : (childTrace.items childOptions).all
      (fun item => item.text.length < bufSize) = true := by
    decide +kernel
  have hshort : ∀ _ : Unit, ∀ tr ∈ [childTrace],
      HasShortRecords childOptions tr := by
    intro _ tr htr
    rw [List.mem_singleton.mp htr]
    exact fun item hitem =>
      of_decide_eq_true (List.all_eq_true.mp hlengths item hitem)
  have hfits : FitsLoop findFirst keepOrder (fun _ => []) .initial
      childRounds := by
    refine fun _ => ⟨?_, fun _ => ⟨?_, trivial⟩⟩
    · decide +kernel
    · decide +kernel
  obtain ⟨seen, -, htallied, hall⟩ := mainLoop_counts_frames findFirst
    keepOrder (fun _ => []) rfl (by decide) (fun _ => workingLibc_reliable)
    (fun _ => hinit) hshort [((), true), ((), true)] childRounds hfits
    (by rw [hwritten])
  rw [hall hwritten.symm] at htallied
  exact htallied

end Top
end Phpspy

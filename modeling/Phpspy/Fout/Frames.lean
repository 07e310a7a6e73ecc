import Phpspy.Fout.Traces

/-!
# The payloads of a trace as lines

A reader that looks at lines sees the records of a payload and the lines that
end it.  This module says which lines each payload of a trace has, and which
frames they describe.
-/

namespace Phpspy
namespace Fout

open ByteText GreedyPacking

/-- A record, with the frame if it describes one. -/
structure Item where
  text : Bytes
  frame : Option TraceFrame

namespace Item

def entry (item : Item) : Entry :=
  { text := item.text
    frame := item.frame.map fun f => f.loc.name }

def line (opts : Options) (item : Item) : Bytes :=
  stripDelims opts item.text

end Item

def remark (text : Bytes) : Item :=
  { text := text
    frame := none }

def frameItem (f : TraceFrame) : Item :=
  { text := decimal f.depth ++ lit " " ++ f.loc.text
    frame := some f }

def eventItems : Event → List Item
  | .frame f => [frameItem f]
  | event => event.texts.map remark

theorem eventItems_entry (event : Event) :
    (eventItems event).map Item.entry = eventEntries event := by
  have hremark : ∀ texts : List Bytes,
      (texts.map remark).map Item.entry = texts.map comment := by
    intro texts
    rw [List.map_map]
    rfl
  cases event with
  | frame f => rfl
  | stackBegin => rfl
  | stackEnd ts pid => rfl
  | varpeek name filenameLineno value => exact hremark _
  | glopeek key value => exact hremark _
  | request r => exact hremark _
  | mem size peak => exact hremark _

def keptItems (items : List Item) : List Item :=
  items.take (fit (fun item => item.text.length + 1) (maxBuffer - 1) items)

theorem keptEntries_map (items : List Item) :
    keptEntries (items.map Item.entry) = (keptItems items).map Item.entry := by
  rw [keptEntries, fit_map, keptItems, List.map_take]
  rfl

def wholeEnd (truncated : Bool) : List Bytes :=
  (if truncated then [lit "# truncated = 1"] else []) ++ [[]]

def chunkEnd (traceId chunkIdx : ℕ) (sentinel : UInt8) : List Bytes :=
  [lit "# trace_id = " ++ decimal traceId ++ lit "." ++ decimal chunkIdx ++
    [sentinel], []]

namespace Trace

variable (opts : Options) (tr : Trace)

def items : List Item :=
  tr.events.flatMap eventItems ++
    (verboseTexts opts tr.traceTs tr.pid).map remark

theorem items_entry :
    (tr.items opts).map Item.entry = tr.allEntries opts := by
  rw [items, allEntries, entries, List.map_append, List.map_flatMap,
    List.map_map]
  congr 1
  exact List.flatMap_congr fun e _ => eventItems_entry e

/-- The records of a chunked trace, chunk by chunk, and those dropped. -/
def itemBoxes (traceId : ℕ) : List (List Item) × List Item :=
  pack (fun item => item.text.length + 1) (capacity opts traceId) 0
    (keptItems (tr.items opts))

theorem boxes_eq (traceId : ℕ) :
    tr.boxes opts traceId =
      ((tr.itemBoxes opts traceId).1.map (List.map Item.entry),
        (tr.itemBoxes opts traceId).2.map Item.entry) := by
  rw [boxes, ← items_entry, keptEntries_map, pack_map]
  rfl

/-- The bodies of the chunks.  The last one announces that records are
missing. -/
def chunkItems (traceId : ℕ) : List (List Item) :=
  (tr.itemBoxes opts traceId).1 ++
    if (tr.itemBoxes opts traceId).2 ≠ [] ∨ tr.truncated opts = true
    then [[remark (lit "# truncated = 1")]] else []

/-- The payloads of a trace, each with its records and the lines that end
it. -/
def payloadItems (traceId : ℕ) : List (List Item × List Bytes) :=
  if tr.skipped opts then []
  else if tr.fits opts then
    [(keptItems (tr.items opts), wholeEnd (tr.truncated opts))]
  else
    (tr.chunkItems opts traceId).mapIdx fun k items =>
      (items, chunkEnd traceId k
        (if k + 1 = (tr.chunkItems opts traceId).length then 33 else 126))

def payloadFrames (traceId : ℕ) : List (List TraceFrame) :=
  (tr.payloadItems opts traceId).map fun p => p.1.filterMap Item.frame

end Trace

def linesText (lines : List Bytes) : Bytes :=
  (lines.map (· ++ [10])).flatten

theorem linesText_append (xs ys : List Bytes) :
    linesText (xs ++ ys) = linesText xs ++ linesText ys := by
  rw [linesText, List.map_append, List.flatten_append]
  rfl

section Lines

variable {opts : Options} (hmode : opts.singleLine = false)

include hmode

theorem frameDelim_eq : opts.frameDelim = 10 := by
  rw [Options.frameDelim, hmode]
  rfl

theorem linesText_items (items : List Item) :
    linesText (items.map (Item.line opts)) =
      ((items.map Item.entry).map (Entry.record opts)).flatten := by
  rw [linesText, List.map_map, List.map_map]
  congr 2
  funext item
  have hdelim := frameDelim_eq hmode
  simp [Entry.record, record, hdelim, Item.entry, Item.line]

theorem linesText_wholeEnd (truncated : Bool) :
    linesText (wholeEnd truncated) =
      (if truncated then truncMarkerText opts else []) ++
        [opts.traceDelim] := by
  have hdelim := frameDelim_eq hmode
  cases truncated with
  | false => rfl
  | true => simp [linesText, wholeEnd, truncMarkerText, hdelim,
      Options.traceDelim]

theorem linesText_chunkEnd (traceId chunkIdx : ℕ) (sentinel : UInt8) :
    linesText (chunkEnd traceId chunkIdx sentinel) =
      chunkTail opts traceId chunkIdx sentinel := by
  have hdelim := frameDelim_eq hmode
  simp [linesText, chunkEnd, chunkTail, hdelim, Options.traceDelim]

theorem linesText_marker :
    linesText ([remark (lit "# truncated = 1")].map (Item.line opts)) =
      truncMarkerText opts := by
  have hclean : (10 : UInt8) ∉ lit "# truncated = 1" := by decide
  have hline : (remark (lit "# truncated = 1")).line opts =
      lit "# truncated = 1" := by
    rw [Item.line, remark, stripDelims_of_not_singleLine hmode,
      masked_of_notMem hclean]
  rw [List.map_singleton, hline, truncMarkerText, frameDelim_eq hmode]
  simp [linesText]

theorem chunkBodies_eq (tr : Trace) (traceId : ℕ) :
    chunkBodies opts traceId (kept (tr.records opts)) (tr.truncated opts) =
      (tr.chunkItems opts traceId).map fun items =>
        linesText (items.map (Item.line opts)) := by
  rw [chunkBodies, tr.chunked_eq, tr.boxes_eq, Trace.chunkItems,
    List.map_append]
  congr 1
  · rw [List.map_map, List.map_map]
    refine List.map_congr_left fun items _ => ?_
    exact (linesText_items hmode items).symm
  · simp only [ne_eq, List.map_eq_nil_iff]
    split
    · rw [List.map_singleton, linesText_marker hmode]
    · rfl

theorem payloads_eq (tr : Trace) (traceId : ℕ) :
    tr.payloads opts traceId =
      (tr.payloadItems opts traceId).map fun p =>
        linesText (p.1.map (Item.line opts) ++ p.2) := by
  rw [Trace.payloads, Trace.payloadItems]
  split
  · rfl
  · split
    · rw [List.map_singleton, linesText_append, linesText_items hmode,
        linesText_wholeEnd hmode, Trace.records, kept_map_record,
        ← tr.items_entry, keptEntries_map, List.append_assoc]
    · rw [chunkBodies_eq hmode, chunkPayloads]
      refine List.ext_getElem (by simp) fun k _ _ => ?_
      simp only [List.getElem_mapIdx, List.getElem_map, List.length_map,
        linesText_append, linesText_chunkEnd hmode]

end Lines

theorem Trace.mem_payloadItems {opts : Options} {tr : Trace} {traceId : ℕ}
    {p : List Item × List Bytes} (hp : p ∈ tr.payloadItems opts traceId)
    {item : Item} (hitem : item ∈ p.1) :
    item ∈ tr.items opts ∨ item = remark (lit "# truncated = 1") := by
  have hkept : ∀ item ∈ keptItems (tr.items opts), item ∈ tr.items opts :=
    fun item h => List.mem_of_mem_take h
  rw [payloadItems] at hp
  split at hp
  · cases hp
  · split at hp
    · rw [List.mem_singleton.mp hp] at hitem
      exact Or.inl (hkept item hitem)
    · obtain ⟨k, hk, rfl⟩ := List.mem_mapIdx.mp hp
      rcases List.mem_append.mp (List.getElem_mem hk) with hbox | hmarker
      · left
        apply hkept
        have hconsecutive := (pack_isGreedy
          (fun item : Item => item.text.length + 1) (capacity opts traceId) 0
            (keptItems (tr.items opts))).consecutive
        rw [← hconsecutive]
        exact List.mem_append_left _ (List.mem_flatten.mpr ⟨_, hbox, hitem⟩)
      · right
        split at hmarker
        · rw [List.mem_singleton.mp hmarker] at hitem
          exact List.mem_singleton.mp hitem
        · cases hmarker

end Fout
end Phpspy

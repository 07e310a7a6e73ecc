import Phpspy.StackCollapse.Lines
import Phpspy.Support.Reassembly

/-!
# The script as a receiver

The script's hash of chunks refines the receiver of numbered parts: the keys
are the decimal numerals of message numbers and indices, and each stack that
the receiver delivers is counted under its joined name.
-/

namespace Phpspy
namespace StackCollapse

open ByteText Reassembly

/-! ## Counting stacks -/

/-- How often a joined name occurs among the stacks that have a frame. -/
def tally (out : List (List Bytes)) (key : Bytes) : ℕ :=
  ((out.filter fun frames => !frames.isEmpty).map joinStack).count key

def Counts (table : AList fun _ : Bytes => ℕ) (out : List (List Bytes)) :
    Prop :=
  ∀ key, table.lookup key =
    if tally out key = 0 then none else some (tally out key)

theorem Counts.getD {table : AList fun _ : Bytes => ℕ}
    {out : List (List Bytes)} (h : Counts table out) (key : Bytes) :
    (table.lookup key).getD 0 = tally out key := by
  rw [h key]
  split
  · next hzero => rw [hzero, Option.getD_none]
  · rfl

theorem tally_append (out : List (List Bytes)) (frames : List Bytes)
    (key : Bytes) :
    tally (out ++ [frames]) key =
      tally out key +
        if frames ≠ [] ∧ joinStack frames = key then 1 else 0 := by
  cases frames with
  | nil => simp [tally]
  | cons frame frames =>
      simp [tally, List.count_cons]

theorem Counts.flush {table : AList fun _ : Bytes => ℕ}
    {out : List (List Bytes)} (h : Counts table out) (frames : List Bytes) :
    Counts (flush table frames) (out ++ [frames]) := by
  intro key
  rw [tally_append]
  by_cases hempty : frames = []
  · simpa [StackCollapse.flush, hempty] using h key
  · have hflush : StackCollapse.flush table frames =
        table.insert (joinStack frames) (tally out (joinStack frames) + 1) := by
      simp [StackCollapse.flush, hempty, h.getD]
    rw [hflush]
    by_cases hkey : key = joinStack frames
    · subst key
      simp [hempty]
    · have hother : ¬ (frames ≠ [] ∧ joinStack frames = key) :=
        fun hand => hkey hand.2.symm
      rw [AList.lookup_insert_ne hkey, if_neg hother, Nat.add_zero]
      exact h key

/-! ## Collecting chunks -/

def toEntry (p : ℕ × List Bytes) : Sigma fun _ : Bytes => List Bytes :=
  ⟨decimal p.1, p.2⟩

theorem kerase_map_toEntry {parts : List (ℕ × List Bytes)}
    (hnodup : (parts.map toEntry).NodupKeys) (k : ℕ) :
    (parts.map toEntry).kerase (decimal k) =
      (parts.filter fun p => p.1 ≠ k).map toEntry := by
  induction parts with
  | nil => rfl
  | cons p parts ih =>
      rw [List.map_cons] at hnodup ⊢
      obtain ⟨hnew, htail⟩ := List.nodupKeys_cons.mp hnodup
      by_cases hp : p.1 = k
      · have hkeep : parts.filter (fun p => p.1 ≠ k) = parts := by
          rw [List.filter_eq_self]
          intro q hq
          have hne : q.1 ≠ k := by
            intro hqk
            apply hnew
            rw [List.mem_keys]
            refine ⟨q.2, List.mem_map.mpr ⟨q, hq, ?_⟩⟩
            simp [toEntry, hqk, hp]
          simpa using hne
        rw [List.kerase_cons_eq (by simp [toEntry, hp]),
          List.filter_cons_of_neg (by simp [hp]), hkeep]
      · have hne : decimal k ≠ (toEntry p).1 := by
          intro h
          exact hp (decimal_injective h).symm
        rw [List.kerase_cons_ne hne, ih htail]
        simp [hp]

section Table

variable {table : AList fun _ : Bytes => List Bytes}
  {parts : List (ℕ × List Bytes)}

theorem insert_entries_eq (h : table.entries = parts.map toEntry) (k : ℕ)
    (frames : List Bytes) :
    (table.insert (decimal k) frames).entries =
      (put parts k frames).map toEntry := by
  have hnodup : (parts.map toEntry).NodupKeys := by
    rw [← h]
    exact table.nodupKeys
  rw [AList.entries_insert, h, kerase_map_toEntry hnodup]
  rfl

theorem sortKeys_eq (h : table.entries = parts.map toEntry) :
    sortKeys table.keys =
      (sortParts parts).map fun p => decimal p.1 := by
  have hkeys : table.keys = parts.map fun p => decimal p.1 := by
    rw [AList.keys, List.keys, h, List.map_map]
    rfl
  rw [hkeys, sortKeys, sortParts]
  exact (List.map_insertionSort (fun a b : ℕ × List Bytes => a.1 ≤ b.1)
    (fun a b => numVal a ≤ numVal b) (fun p => decimal p.1) parts
    (by simp)).symm

theorem flatMap_lookup_eq (h : table.entries = parts.map toEntry) :
    ((sortKeys table.keys).flatMap fun key =>
        (table.lookup key).getD []) =
      (sortParts parts).flatMap Prod.snd := by
  rw [sortKeys_eq h, List.flatMap_map]
  apply List.flatMap_congr
  intro p hp
  have hmem : p ∈ parts := (List.mem_insertionSort _).mp hp
  have hlookup : table.lookup (decimal p.1) = some p.2 := by
    rw [← Option.mem_def, AList.mem_lookup_iff, h]
    exact List.mem_map.mpr ⟨p, hmem, rfl⟩
  simp [hlookup]

theorem isComplete_eq (h : table.entries = parts.map toEntry) (k : ℕ) :
    ((sortKeys table.keys).length == numVal (decimal k) + 1 &&
      (sortKeys table.keys).getLast?.map numVal ==
        some (numVal (decimal k))) = isComplete parts k := by
  rw [sortKeys_eq h, isComplete, List.length_map, List.getLast?_map,
    numVal_decimal, Option.map_map]
  congr 3
  funext p
  simp

end Table

/-! ## The refinement -/

/-- The script has read what the receiver received, and then `frames`. -/
structure Tracks (frames : List Bytes) (st : State) (r : Receiver Bytes) :
    Prop where
  stack : st.stack = frames
  counts : Counts st.stackCounts r.out
  chunks : ∀ id, ((st.chunks.lookup (decimal id)).getD ∅).entries =
    (r.parts id).map toEntry

theorem tracks_empty : Tracks [] State.empty Receiver.empty := by
  refine ⟨rfl, ?_, ?_⟩
  · intro key
    rfl
  · intro id
    rfl

variable {frames : List Bytes} {st : State} {r : Receiver Bytes}

theorem Tracks.push (h : Tracks frames st r) (names : List Bytes) :
    Tracks (frames ++ names) { st with stack := st.stack ++ names } r := by
  refine ⟨?_, h.counts, h.chunks⟩
  rw [h.stack]

theorem Tracks.blank (enc : Encode) (h : Tracks frames st r) :
    Tracks [] (step enc st []) (r.receive (.whole frames)) := by
  refine ⟨rfl, ?_, h.chunks⟩
  have hflush := h.counts.flush frames
  rwa [← h.stack] at hflush ⊢

theorem Tracks.blank_nil (enc : Encode) (h : Tracks [] st r) :
    Tracks [] (step enc st []) r := by
  refine ⟨rfl, ?_, h.chunks⟩
  have hflush : flush st.stackCounts st.stack = st.stackCounts := by
    rw [h.stack]
    rfl
  change Counts (flush st.stackCounts st.stack) r.out
  rw [hflush]
  exact h.counts

theorem Tracks.chunk (h : Tracks frames st r) (id k : ℕ) (mark : UInt8) :
    Tracks [] (stepChunk st (decimal id) (decimal k) mark)
      (r.receive (.part id k (mark == 33) frames)) := by
  have hentries := insert_entries_eq (h.chunks id) k frames
  set parts :=
    ((st.chunks.lookup (decimal id)).getD ∅).insert (decimal k) frames
    with hparts
  by_cases hmark : mark = 33
  · subst mark
    have hstep : stepChunk st (decimal id) (decimal k) 33 =
        { stackCounts :=
            if isComplete (put (r.parts id) k frames) k
            then flush st.stackCounts
              ((sortParts (put (r.parts id) k frames)).flatMap Prod.snd)
            else st.stackCounts
          stack := []
          chunks := st.chunks.erase (decimal id) } := by
      simp only [stepChunk, h.stack, ← hparts, isComplete_eq hentries,
        flatMap_lookup_eq hentries, if_true]
    rw [hstep]
    refine ⟨rfl, ?_, ?_⟩
    · simp only [Receiver.receive, beq_self_eq_true, if_true]
      split
      · exact h.counts.flush _
      · exact h.counts
    · intro id'
      rcases eq_or_ne id' id with rfl | hne
      · simp [Receiver.receive]
      · have hkey : decimal id' ≠ decimal id := decimal_injective.ne hne
        simpa [Receiver.receive, AList.lookup_erase_ne hkey, hne] using
          h.chunks id'
  · have hstep : stepChunk st (decimal id) (decimal k) mark =
        { st with
          stack := []
          chunks := st.chunks.insert (decimal id) parts } := by
      simp only [stepChunk, h.stack, ← hparts, hmark, if_false]
    rw [hstep]
    refine ⟨rfl, ?_, ?_⟩
    · simpa [Receiver.receive, hmark] using h.counts
    · intro id'
      rcases eq_or_ne id' id with rfl | hne
      · simpa [Receiver.receive, hmark] using hentries
      · have hkey : decimal id' ≠ decimal id := decimal_injective.ne hne
        simpa [Receiver.receive, hmark, AList.lookup_insert_ne hkey, hne]
          using h.chunks id'

/-! ## Payloads -/

/-- A payload is a number of lines that the script reads as one packet. -/
def Encodes (enc : Encode) (payload : Bytes) (packet : Packet Bytes) :
    Prop :=
  ∃ ls : List Bytes, payload = (ls.map (· ++ [10])).flatten ∧
    (∀ l ∈ ls, (10 : UInt8) ∉ l) ∧
    ∀ st r, Tracks [] st r →
      Tracks [] (ls.foldl (step enc) st) (r.receive packet)

theorem tracks_payloads {enc : Encode} {payloads : List Bytes}
    {packets : List (Packet Bytes)}
    (h : List.Forall₂ (Encodes enc) payloads packets) (hst : Tracks [] st r) :
    Tracks [] ((bodies 10 payloads.flatten).foldl (step enc) st)
      (packets.foldl Receiver.receive r) := by
  have hlines : ∃ ls : List Bytes,
      payloads.flatten = (ls.map (· ++ [10])).flatten ∧
      (∀ l ∈ ls, (10 : UInt8) ∉ l) ∧
      Tracks [] (ls.foldl (step enc) st)
        (packets.foldl Receiver.receive r) := by
    induction h generalizing st r with
    | nil => exact ⟨[], rfl, by simp, hst⟩
    | cons hhead _ ih =>
        obtain ⟨ls, hpayload, hls, hread⟩ := hhead
        obtain ⟨ls', hrest, hls', hread'⟩ := ih (hread _ _ hst)
        refine ⟨ls ++ ls', ?_, ?_, ?_⟩
        · rw [List.flatten_cons, hpayload, hrest, List.map_append,
            List.flatten_append]
        · intro l hl
          rcases List.mem_append.mp hl with hl | hl
          · exact hls l hl
          · exact hls' l hl
        · rw [List.foldl_append]
          exact hread'
  obtain ⟨ls, htext, hls, hread⟩ := hlines
  rwa [htext, bodies_flatten hls]

/-- The script counts what the receiver delivers. -/
theorem collapse_counts {enc : Encode} {payloads : List Bytes}
    {packets : List (Packet Bytes)}
    (h : List.Forall₂ (Encodes enc) payloads packets) :
    Counts (collapse enc payloads.flatten)
      (packets.foldl Receiver.receive Receiver.empty).out := by
  have htracks := tracks_payloads h tracks_empty
  have hflush : collapse enc payloads.flatten =
      ((bodies 10 payloads.flatten).foldl (step enc)
        State.empty).stackCounts := by
    simp [collapse, flush, htracks.stack]
  rw [hflush]
  exact htracks.counts

end StackCollapse
end Phpspy

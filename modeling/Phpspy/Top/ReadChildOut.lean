import Phpspy.Support.LineSplitting
import Phpspy.Top.HandleLine

/-!
# Reading the child in top mode

`read_child_out` collects what the child writes in a buffer, hands each line to
`handle_line` and moves the rest to the front.  What it makes of a stream does
not depend on how the stream is cut into reads.
-/

namespace Phpspy
namespace Top

open ByteText
open LineSplitting

/-- `BUF_SIZE` -/
def bufSize : ℕ := 512

/-- `buf` and `buf_len` -/
structure LineBuffer where
  buf : Bytes
  bufLen : ℕ
  length_buf : buf.length = bufSize
  bufLen_le : bufLen ≤ bufSize

namespace LineBuffer

def empty : LineBuffer where
  buf := List.replicate bufSize 0
  bufLen := 0
  length_buf := List.length_replicate
  bufLen_le := Nat.zero_le _

def pending (b : LineBuffer) : Bytes :=
  b.buf.take b.bufLen

theorem length_pending (b : LineBuffer) : b.pending.length = b.bufLen := by
  rw [pending, List.length_take, b.length_buf, Nat.min_eq_left b.bufLen_le]

/-- A full buffer is forgotten before a read. -/
def makeRoom (b : LineBuffer) : LineBuffer :=
  if bufSize - b.bufLen < 1 then
    { b with bufLen := 0, bufLen_le := Nat.zero_le _ }
  else b

/-- The room that is offered to a read. -/
def rem (b : LineBuffer) : ℕ :=
  bufSize - b.makeRoom.bufLen

/-- A read stores what there is room for behind what is there. -/
def store (b : LineBuffer) (data : Bytes) : LineBuffer where
  buf := writeAt b.buf b.bufLen (data.take (bufSize - b.bufLen))
  bufLen := b.bufLen + (data.take (bufSize - b.bufLen)).length
  length_buf := by
    have hle := b.bufLen_le
    rw [writeAt_length, b.length_buf]
    rw [List.length_take, b.length_buf]
    omega
  bufLen_le := by
    have hle := b.bufLen_le
    rw [List.length_take]
    omega

/-- Take `n` bytes off the front. -/
def shift (b : LineBuffer) (n : ℕ) : LineBuffer where
  buf := writeAt b.buf 0 (b.pending.drop n)
  bufLen := b.bufLen - n
  length_buf := by
    have hle := b.bufLen_le
    rw [writeAt_length, b.length_buf]
    rw [List.length_drop, b.length_pending, b.length_buf]
    omega
  bufLen_le := by
    have hle := b.bufLen_le
    omega

theorem pending_makeRoom (b : LineBuffer) :
    b.makeRoom.pending = kept bufSize b.pending := by
  rw [makeRoom, kept, b.length_pending]
  by_cases hfull : bufSize - b.bufLen < 1
  · rw [if_pos hfull, if_neg (by omega)]
    rfl
  · rw [if_neg hfull, if_pos (by omega)]

theorem rem_eq_room (b : LineBuffer) : b.rem = room bufSize b.pending := by
  rw [rem, room, ← pending_makeRoom, length_pending]

theorem pending_store (b : LineBuffer) {data : Bytes}
    (h : data.length ≤ bufSize - b.bufLen) :
    (b.store data).pending = b.pending ++ data := by
  have hle : b.bufLen ≤ b.buf.length := b.length_buf ▸ b.bufLen_le
  have htake : data.take (bufSize - b.bufLen) = data :=
    List.take_of_length_le h
  rw [pending, store]
  dsimp only
  rw [htake, writeAt_take_add hle le_rfl, List.take_length, pending]

theorem pending_shift (b : LineBuffer) (n : ℕ) :
    (b.shift n).pending = b.pending.drop n := by
  have hlen : b.bufLen - n = 0 + (b.pending.drop n).length := by
    rw [List.length_drop, b.length_pending, Nat.zero_add]
  rw [pending, shift]
  dsimp only
  rw [hlen, writeAt_take_add (Nat.zero_le _) le_rfl, List.take_length]
  rfl

theorem buf_append (b : LineBuffer) {line rest : Bytes}
    (h : b.pending = line ++ 10 :: rest) (behind : Bytes) :
    b.buf ++ behind =
      line ++ 10 :: (rest ++ b.buf.drop b.bufLen ++ behind) := by
  calc
    b.buf ++ behind = b.pending ++ b.buf.drop b.bufLen ++ behind := by
      rw [pending, List.take_append_drop]
    _ = line ++ 10 :: (rest ++ b.buf.drop b.bufLen ++ behind) := by
      rw [h]
      simp

theorem pending_shift_line (b : LineBuffer) {line rest : Bytes}
    (h : b.pending = line ++ 10 :: rest) :
    (b.shift (line.length + 1)).pending = rest := by
  rw [pending_shift, h, ← List.drop_drop, List.drop_left]
  rfl

end LineBuffer

structure State where
  buffer : LineBuffer
  counters : Counters
  done : Bool

def State.initial : State :=
  ⟨.empty, .initial, false⟩

/-- What `read` returns.  No bytes are the end of the file. -/
inductive ReadResult where
  | failed
  | data (bytes : Bytes)

section Reading

/- The lookup of uthash, and the memory behind the buffer. -/
variable (uthash : Uthash) (behind : State → Bytes)

/-- The loop of `read_child_out`, with the lines that it hands to `handle_line`.
A pass takes at least a newline from the buffer. -/
def lineLoop : ℕ → State → State × List Bytes
  | 0, st => (st, [])
  | fuel + 1, st =>
      match memchr 10 st.buffer.pending with
      | none => (st, [])
      | some lineLen =>
          let mem := st.buffer.buf ++ behind st
          let rest := lineLoop fuel
            { st with
              buffer := st.buffer.shift (lineLen + 1)
              counters := handleLine uthash mem lineLen st.counters }
          (rest.1, mem.take lineLen :: rest.2)

/-- `read_child_out` -/
def readChildOut (st : State) : ReadResult → State × List Bytes
  | .failed => ({ st with buffer := st.buffer.makeRoom }, [])
  | .data [] => ({ st with buffer := st.buffer.makeRoom, done := true }, [])
  | .data (b :: bs) =>
      let buffer := st.buffer.makeRoom.store (b :: bs)
      lineLoop uthash behind buffer.bufLen { st with buffer := buffer }

def readAll : State → List Bytes → State × List Bytes
  | st, [] => (st, [])
  | st, data :: reads =>
      let read := readChildOut uthash behind st (.data data)
      let rest := readAll read.1 reads
      (rest.1, read.2 ++ rest.2)

/-- Every read returns something, and not more than the room it is offered. -/
def Fits : State → List Bytes → Prop
  | _, [] => True
  | st, data :: reads =>
      (data ≠ [] ∧ data.length ≤ st.buffer.rem) ∧
        Fits (readChildOut uthash behind st (.data data)).1 reads

def countLines (lines : List Bytes) (c : Counters) : Counters :=
  lines.foldl (fun c line => countLine uthash line c) c

/-- A state that has got a number of lines out of a buffer, and has the rest. -/
structure Handled (st : State) (received : List Bytes × Bytes)
    (result : State × List Bytes) : Prop where
  lines : result.2 = received.1
  pending : result.1.buffer.pending = received.2
  counters : result.1.counters = countLines uthash received.1 st.counters

theorem lineLoop_handled {fuel : ℕ} {st : State}
    (hfuel : st.buffer.bufLen ≤ fuel) :
    Handled uthash st (cut 10 st.buffer.pending)
      (lineLoop uthash behind fuel st) := by
  induction fuel generalizing st with
  | zero =>
      have hnil : st.buffer.pending = [] := by
        rw [← List.length_eq_zero_iff, st.buffer.length_pending]
        omega
      rw [hnil]
      exact ⟨rfl, hnil, rfl⟩
  | succ fuel ih =>
      rw [lineLoop]
      cases hline : memchr 10 st.buffer.pending with
      | none =>
          rw [cut_of_notMem 10 (memchr_eq_none_iff.mp hline)]
          exact ⟨rfl, rfl, rfl⟩
      | some lineLen =>
          obtain ⟨line, rest, hpending, hnot, rfl⟩ :=
            exists_split_of_memchr hline
          have hlen := st.buffer.length_pending
          rw [hpending, List.length_append, List.length_cons] at hlen
          have hrest := @ih { st with
            buffer := st.buffer.shift (line.length + 1)
            counters := countLine uthash line st.counters }
            (show st.buffer.bufLen - (line.length + 1) ≤ fuel by omega)
          rw [LineBuffer.pending_shift_line _ hpending] at hrest
          dsimp only
          rw [LineBuffer.buf_append _ hpending, handleLine_eq_countLine,
            List.take_left, hpending, cut_append_cons 10 hnot]
          exact ⟨congrArg (line :: ·) hrest.lines, hrest.pending,
            hrest.counters⟩

theorem readChildOut_handled {st : State} {data : Bytes} (hne : data ≠ [])
    (hrem : data.length ≤ st.buffer.rem) :
    Handled uthash st (receive 10 bufSize st.buffer.pending data)
      (readChildOut uthash behind st (.data data)) := by
  obtain ⟨b, bs, rfl⟩ := List.exists_cons_of_ne_nil hne
  have hloop := @lineLoop_handled uthash behind _
    { st with buffer := st.buffer.makeRoom.store (b :: bs) } le_rfl
  rw [LineBuffer.pending_store _ hrem, LineBuffer.pending_makeRoom] at hloop
  exact ⟨hloop.lines, hloop.pending, hloop.counters⟩

/-- The reader makes of a list of reads what the line splitter makes of it. -/
theorem readAll_handled {st : State} {reads : List Bytes}
    (h : Fits uthash behind st reads) :
    Admits 10 bufSize st.buffer.pending reads ∧
      Handled uthash st (receiveAll 10 bufSize st.buffer.pending reads)
        (readAll uthash behind st reads) := by
  induction reads generalizing st with
  | nil => exact ⟨trivial, rfl, rfl, rfl⟩
  | cons data reads ih =>
      obtain ⟨⟨hne, hrem⟩, hreads⟩ := h
      have hread := readChildOut_handled uthash behind hne hrem
      obtain ⟨hadmits, hrest⟩ := ih hreads
      rw [hread.pending] at hadmits hrest
      refine ⟨⟨⟨hne, ?_⟩, hadmits⟩, ?_, hrest.pending, ?_⟩
      · rw [← LineBuffer.rem_eq_room]
        exact hrem
      · rw [readAll, receiveAll]
        dsimp only
        rw [hread.lines, hrest.lines]
      · rw [readAll, receiveAll]
        dsimp only
        rw [hrest.counters, hread.counters, countLines, countLines, countLines,
          List.foldl_append]

theorem readAll_splitLines {st : State} (hst : (10 : UInt8) ∉ st.buffer.pending)
    {reads : List Bytes} (h : Fits uthash behind st reads) :
    Handled uthash st
      (splitLines 10 bufSize st.buffer.pending reads.flatten)
      (readAll uthash behind st reads) := by
  obtain ⟨hadmits, hhandled⟩ := readAll_handled uthash behind h
  rw [receiveAll_eq_splitLines 10 bufSize hst hadmits] at hhandled
  exact hhandled

end Reading

/-- Two ways of cutting a stream into reads give the same lines and the same
counters, whatever stands behind the buffer in memory. -/
theorem readAll_eq_of_flatten_eq (uthash : Uthash)
    {behind behind' : State → Bytes} {st : State}
    (hst : (10 : UInt8) ∉ st.buffer.pending) {reads reads' : List Bytes}
    (hreads : Fits uthash behind st reads)
    (hreads' : Fits uthash behind' st reads')
    (hstream : reads.flatten = reads'.flatten) :
    (readAll uthash behind st reads).2 =
        (readAll uthash behind' st reads').2 ∧
      (readAll uthash behind st reads).1.counters =
        (readAll uthash behind' st reads').1.counters := by
  have hhandled := readAll_splitLines uthash behind hst hreads
  have hhandled' := readAll_splitLines uthash behind' hst hreads'
  rw [hstream] at hhandled
  exact ⟨hhandled.lines.trans hhandled'.lines.symm,
    hhandled.counters.trans hhandled'.counters.symm⟩

/-- A lookup that finds the first of several entries. -/
def findFirst : Uthash where
  find keys key := keys.findIdx? (· == key)
  find_some := by
    intro keys key i h
    obtain ⟨hi, hkey, -⟩ := List.findIdx?_eq_some_iff_getElem.mp h
    rw [List.getElem?_eq_getElem hi, eq_of_beq hkey]
  find_none := by
    intro keys key h hmem
    have hne := List.findIdx?_eq_none_iff.mp h key hmem
    exact absurd (beq_self_eq_true key) (by rw [hne]; decide)

/-- A line that is longer than the buffer. -/
theorem longLine_cut_twice :
    (readAll findFirst (fun _ => []) .initial
        [List.replicate 512 120, lit "0 f\n1 g\n"]).2 =
      (readAll findFirst (fun _ => lit "1 x") .initial
        [List.replicate 500 120, List.replicate 12 120, lit "0 f\n1",
          lit " g\n"]).2 ∧
      (readAll findFirst (fun _ => []) .initial
        [List.replicate 512 120, lit "0 f\n1 g\n"]).1.counters =
      (readAll findFirst (fun _ => lit "1 x") .initial
        [List.replicate 500 120, List.replicate 12 120, lit "0 f\n1",
          lit " g\n"]).1.counters := by
  refine readAll_eq_of_flatten_eq findFirst (by decide) ?_ ?_ ?_
  · refine ⟨⟨by decide, by decide +kernel⟩, ⟨by decide, by decide +kernel⟩,
      trivial⟩
  · refine ⟨⟨by decide, by decide +kernel⟩, ⟨by decide, by decide +kernel⟩,
      ⟨by decide, by decide +kernel⟩, ⟨by decide, by decide +kernel⟩, trivial⟩
  · decide +kernel

/-! ## Whole lines -/

/-- The lines that are handed to `handle_line` are complete lines of what the
child wrote exactly if the child wrote no line that fills the buffer. -/
theorem readAll_lines_sublist_iff (uthash : Uthash) (behind : State → Bytes)
    {reads : List Bytes} (h : Fits uthash behind .initial reads) :
    (readAll uthash behind .initial reads).2.Sublist
        (cut 10 reads.flatten).1 ↔
      ∀ line ∈ (cut 10 reads.flatten).1, line.length < bufSize := by
  have hnil : State.initial.buffer.pending = [] := rfl
  have hst : (10 : UInt8) ∉ State.initial.buffer.pending := by
    rw [hnil]
    exact List.not_mem_nil
  have hcap : 0 < bufSize := by decide
  have hlength := splitLines_length 10 bufSize hst reads.flatten
  have hiff := splitLines_eq_cut_iff 10 bufSize hcap hst reads.flatten
  have hlines := (readAll_splitLines uthash behind hst h).lines
  rw [← hlines, hnil, List.nil_append] at hlength hiff
  rw [← hiff]
  constructor
  · intro hsublist
    exact hsublist.eq_of_length hlength
  · intro heq
    rw [heq]

theorem readAll_lines_sublist_two_reads :
    (readAll findFirst (fun _ => []) .initial
        [lit "0 f a.php:1\n1 g", lit " b.php:2\n# - -\n"]).2.Sublist
      [lit "0 f a.php:1", lit "1 g b.php:2", lit "# - -"] := by
  refine (readAll_lines_sublist_iff findFirst (fun _ => []) ?_).mpr ?_
  · exact ⟨⟨by decide, by decide +kernel⟩, ⟨by decide, by decide +kernel⟩,
      trivial⟩
  · decide +kernel

/-- The rest of a long line is counted as a frame. -/
theorem longLine_rest_counted :
    Fits findFirst (fun _ => []) .initial
        [List.replicate 512 120, lit "0 f\n"] ∧
      (readAll findFirst (fun _ => []) .initial
        [List.replicate 512 120, lit "0 f\n"]).2 = [lit "0 f"] ∧
      (readAll findFirst (fun _ => []) .initial
        [List.replicate 512 120, lit "0 f\n"]).1.counters.funcMap =
          [⟨lit "f", 1, 1, 0, 0⟩] ∧
      ¬(readAll findFirst (fun _ => []) .initial
          [List.replicate 512 120, lit "0 f\n"]).2.Sublist
        (cut 10 (List.replicate 512 120 ++ lit "0 f\n")).1 := by
  refine ⟨?_, by decide +kernel, by decide +kernel, by decide +kernel⟩
  exact ⟨⟨by decide, by decide +kernel⟩, ⟨by decide, by decide +kernel⟩,
    trivial⟩

end Top
end Phpspy

import Phpspy.Fout.Write
import Phpspy.Support.Records

/-!
# Chunks are a greedy packing of records

The chunk loop works on bytes: it looks for the last delimiter within the room
that the tail record leaves.  On a buffer made of records this is the greedy
packing of the records, with a capacity that depends on the chunk index through
the number of its digits.
-/

namespace Phpspy
namespace Fout

open ByteText GreedyPacking

/-! ## The tail record -/

theorem chunkTail_eq (opts : Options) (traceId chunkIdx : ℕ)
    (sentinel : UInt8) :
    ∃ front : Bytes,
      chunkTail opts traceId chunkIdx sentinel =
          front ++ [sentinel, opts.frameDelim, opts.traceDelim] ∧
        front = lit "# trace_id = " ++ decimal traceId ++ lit "." ++
          decimal chunkIdx :=
  ⟨_, rfl, rfl⟩

theorem chunkTail_length (opts : Options) (traceId chunkIdx : ℕ)
    (sentinel : UInt8) :
    (chunkTail opts traceId chunkIdx sentinel).length =
      17 + (decimal traceId).length + (decimal chunkIdx).length := by
  have hhead : (lit "# trace_id = ").length = 13 := by decide
  have hdot : (lit ".").length = 1 := by decide
  simp only [chunkTail, List.length_append, hhead, hdot, List.length_cons,
    List.length_nil]
  omega

theorem decimal_length_le_twenty {n : ℕ} (hn : n < 2 ^ 64) :
    (decimal n).length ≤ 20 :=
  decimal_length_le (by decide) (lt_of_lt_of_le hn (by decide))

theorem chunkTail_length_lt {traceId chunkIdx : ℕ}
    (hid : traceId < 2 ^ 64) (hidx : chunkIdx < 2 ^ 64)
    (opts : Options) (sentinel : UInt8) :
    (chunkTail opts traceId chunkIdx sentinel).length < tailSize := by
  have h₁ := decimal_length_le_twenty hid
  have h₂ := decimal_length_le_twenty hidx
  rw [chunkTail_length, tailSize]
  omega

/-- The third byte from the end is the sentinel, and overwriting it is all
that `writeChunk` does to the tail. -/
theorem chunkTail_set (opts : Options) (traceId chunkIdx : ℕ)
    (old sentinel : UInt8) :
    (chunkTail opts traceId chunkIdx old).set
        ((chunkTail opts traceId chunkIdx old).length - 3) sentinel =
      chunkTail opts traceId chunkIdx sentinel := by
  obtain ⟨front, hold, hfront⟩ := chunkTail_eq opts traceId chunkIdx old
  rw [hold, List.length_append, List.length_cons, List.length_cons,
    List.length_singleton, Nat.add_sub_cancel,
    List.set_append_right _ _ (le_refl _), chunkTail, hfront]
  simp

theorem chunkTail_getElem? (opts : Options) (traceId chunkIdx : ℕ)
    (sentinel : UInt8) :
    (chunkTail opts traceId chunkIdx sentinel)[
        (chunkTail opts traceId chunkIdx sentinel).length - 3]? =
      some sentinel := by
  obtain ⟨front, heq, -⟩ := chunkTail_eq opts traceId chunkIdx sentinel
  rw [heq, List.length_append, List.length_cons, List.length_cons,
    List.length_singleton, Nat.add_sub_cancel,
    List.getElem?_append_right (le_refl _)]
  simp

@[simp] theorem fillTraceId_buf (opts : Options) (u : Udata)
    (traceId chunkIdx : ℕ) :
    (fillTraceId opts u traceId chunkIdx).buf = u.buf := rfl

theorem fillTraceId_tail_length (opts : Options) {u : Udata}
    (htail : u.traceIdTail.length = tailSize) (traceId chunkIdx : ℕ) :
    (fillTraceId opts u traceId chunkIdx).traceIdTail.length = tailSize := by
  simp only [fillTraceId]
  rw [writeAt_length, htail]
  rw [htail, List.length_append, List.length_take, List.length_singleton]
  have hsize : tailSize = 64 := rfl
  omega

theorem writeChunk_fillTraceId
    {traceId chunkIdx : ℕ} (hid : traceId < 2 ^ 64)
    (hidx : chunkIdx < 2 ^ 64) (opts : Options) (libc : Libc)
    {u : Udata} (htail : u.traceIdTail.length = tailSize)
    (body : Bytes) (sentinel : UInt8) :
    let v := (writeChunk libc (fillTraceId opts u traceId chunkIdx) body
      sentinel).1
    v.writes = u.writes ++
        [body ++ chunkTail opts traceId chunkIdx sentinel] ∧
      v.buf = u.buf ∧ v.len = u.len ∧ v.cap = u.cap ∧
      v.truncated = u.truncated ∧ v.truncMarker = u.truncMarker ∧
      v.traceIdTail.length = tailSize := by
  have hlt := chunkTail_length_lt hid hidx opts 126
  set text := chunkTail opts traceId chunkIdx 126 with htext
  have htake : text.take (tailSize - 1) = text :=
    List.take_of_length_le (by omega)
  have hroom : 0 + (text ++ [0]).length ≤ u.traceIdTail.length := by
    rw [htail, List.length_append, List.length_singleton]
    omega
  have hstored : (writeAt u.traceIdTail 0 (text ++ [0])).take text.length =
      text := by
    have h := @writeAt_take_add u.traceIdTail (text ++ [0]) 0 text.length
      (by omega) (by simp)
    simpa using h
  have hsent :
      ((writeAt u.traceIdTail 0 (text ++ [0])).set (text.length - 3)
        sentinel).take text.length =
      chunkTail opts traceId chunkIdx sentinel := by
    rw [List.take_set, hstored, htext, chunkTail_set]
  refine ⟨?_, rfl, rfl, rfl, rfl, rfl, ?_⟩
  · simp only [writeChunk, writev, fillTraceId, ← htext, htake, hsent]
    simp
  · simp only [writeChunk, writev, fillTraceId, ← htext, htake]
    rw [List.length_set, writeAt_length hroom, htail]

/-! ## One chunk -/

/-- The bytes of records that chunk `chunkIdx` has room for. -/
def capacity (opts : Options) (traceId chunkIdx : ℕ) : ℕ :=
  opts.foutBufferSize - (chunkTail opts traceId chunkIdx 126).length

/-- On records, the end of a chunk is the end of the records that fit. -/
theorem findChunkEnd_eq (opts : Options) {buf : Bytes} {rs : List Bytes}
    {chunkStart stop : ℕ} (room : ℕ)
    (hrs : ∀ r ∈ rs, Delimited opts.frameDelim r)
    (hrest : (buf.take stop).drop chunkStart = rs.flatten)
    (hstop : stop ≤ buf.length) (hstart : chunkStart < stop) :
    findChunkEnd opts buf chunkStart stop room =
      if fit List.length room rs = 0 then none
      else some (chunkStart +
        (rs.take (fit List.length room rs)).flatten.length) := by
  have hlen : rs.flatten.length = stop - chunkStart := by
    rw [← hrest, List.length_drop, List.length_take]
    omega
  unfold findChunkEnd
  by_cases hall : stop - chunkStart ≤ room
  · have hfit : fit List.length room rs = rs.length := by
      apply fit_eq_length
      rw [total_length_eq]
      omega
    have hne : rs.length ≠ 0 := by
      intro hzero
      rw [List.length_eq_zero_iff.mp hzero] at hlen
      simp at hlen
      omega
    rw [if_pos hall, hfit, if_neg hne, List.take_length, hlen]
    congr 1
    omega
  · have htake : (buf.drop chunkStart).take room = rs.flatten.take room := by
      rw [← hrest, List.drop_take, List.take_take, Nat.min_eq_left (by omega)]
    have hshort : room < rs.flatten.length := by omega
    have hsearch := memrchr_take_flatten hrs hshort
    rw [if_neg hall, htake]
    cases hfind : memrchr opts.frameDelim (rs.flatten.take room) with
    | none =>
        rw [hfind, Option.map_none] at hsearch
        split at hsearch
        · next hfit => simp [hfit]
        · simp at hsearch
    | some i =>
        rw [hfind, Option.map_some] at hsearch
        split at hsearch
        · simp at hsearch
        · next hfit =>
          rw [Option.some.injEq] at hsearch
          rw [if_neg hfit, ← hsearch, Option.map_some]
          rfl

/-! ## The loop -/

/-- The loop stands in front of the records `rs`, with index `k`. -/
structure ChunkLoop.At (opts : Options) (stop k : ℕ) (rs : List Bytes)
    (st : ChunkLoop) : Prop where
  records : ∀ r ∈ rs, Delimited opts.frameDelim r
  rest : (st.u.buf.take stop).drop st.chunkStart = rs.flatten
  stop_le : stop ≤ st.u.buf.length
  start_le : st.chunkStart ≤ stop
  idx : st.chunkIdx = k
  idx_lt : k + rs.length < 2 ^ 64
  tail : st.u.traceIdTail.length = tailSize

theorem ChunkLoop.At.rest_length {opts : Options} {stop k : ℕ}
    {rs : List Bytes} {st : ChunkLoop} (h : st.At opts stop k rs) :
    rs.flatten.length = stop - st.chunkStart := by
  have hstop := h.stop_le
  rw [← h.rest, List.length_drop, List.length_take]
  omega

theorem ChunkLoop.At.lt_stop_iff {opts : Options} {stop k : ℕ}
    {rs : List Bytes} {st : ChunkLoop} (h : st.At opts stop k rs) :
    st.chunkStart < stop ↔ rs ≠ [] := by
  have hlen := h.rest_length
  constructor
  · rintro hlt rfl
    simp at hlen
    omega
  · intro hne
    obtain ⟨r, rs, rfl⟩ := List.exists_cons_of_ne_nil hne
    have hpos := (h.records r (by simp)).length_pos
    rw [List.flatten_cons, List.length_append] at hlen
    omega

theorem ChunkLoop.At.start_eq_stop_iff {opts : Options} {stop k : ℕ}
    {rs : List Bytes} {st : ChunkLoop} (h : st.At opts stop k rs) :
    st.chunkStart = stop ↔ rs = [] := by
  have hle := h.start_le
  constructor
  · intro heq
    by_contra hne
    have hlt := h.lt_stop_iff.mpr hne
    omega
  · intro hnil
    by_contra hne
    have hlt : st.chunkStart < stop := by omega
    exact h.lt_stop_iff.mp hlt hnil

/-- The state after the chunk that takes the records `box`. -/
def ChunkLoop.next (opts : Options) (libc : Libc) (traceId stop : ℕ)
    (box : List Bytes) (st : ChunkLoop) : ChunkLoop :=
  let u := fillTraceId opts st.u traceId st.chunkIdx
  let chunkEnd := st.chunkStart + box.flatten.length
  let sentinel : UInt8 :=
    if chunkEnd = stop ∧ st.u.truncated = false then 33 else 126
  let written := writeChunk libc u box.flatten sentinel
  { u := written.1
    chunkStart := chunkEnd
    chunkIdx := (st.chunkIdx + 1) % 2 ^ 64
    rv := st.rv ||| written.2 }

theorem chunkLoop_step {opts : Options} {stop k : ℕ} {rs : List Bytes}
    {st : ChunkLoop} (h : st.At opts stop k rs) (libc : Libc)
    (traceId fuel : ℕ) (hne : rs ≠ []) :
    chunkLoop opts libc traceId stop (fuel + 1) st =
      if fit List.length (capacity opts traceId k) rs = 0 then
        { st with u := fillTraceId opts st.u traceId st.chunkIdx }
      else
        chunkLoop opts libc traceId stop fuel
          (st.next opts libc traceId stop
            (rs.take (fit List.length (capacity opts traceId k) rs))) := by
  have hstart := h.lt_stop_iff.mpr hne
  have hroom : maxChunkLen opts
      (fillTraceId opts st.u traceId st.chunkIdx) =
        capacity opts traceId k := by
    rw [h.idx, maxChunkLen, capacity, fillTraceId]
    dsimp only
    split
    · rfl
    · omega
  have hend := findChunkEnd_eq opts (capacity opts traceId k) h.records
    h.rest h.stop_le hstart
  simp only [chunkLoop, hstart, if_true, hroom, fillTraceId_buf, hend]
  by_cases hfit : fit List.length (capacity opts traceId k) rs = 0
  · simp only [hfit, if_true]
  · set box := rs.take (fit List.length (capacity opts traceId k) rs)
      with hbox
    have hbody :
        (st.u.buf.drop st.chunkStart).take
          (st.chunkStart + box.flatten.length - st.chunkStart) =
            box.flatten := by
      have hle : box.flatten.length ≤ stop - st.chunkStart := by
        rw [← h.rest_length, ← List.take_append_drop
          (fit List.length (capacity opts traceId k) rs) rs,
          List.flatten_append, List.length_append, ← hbox]
        omega
      have hflat : rs.flatten = box.flatten ++
          (rs.drop (fit List.length (capacity opts traceId k) rs)).flatten := by
        rw [hbox, ← List.flatten_append, List.take_append_drop]
      rw [Nat.add_sub_cancel_left,
        ← Nat.min_eq_left hle, ← List.take_take, ← List.drop_take, h.rest,
        hflat, List.take_left]
    simp only [hfit, if_false, hbody]
    rfl

theorem ChunkLoop.At.next {opts : Options} {stop k : ℕ} {rs : List Bytes}
    {st : ChunkLoop} (h : st.At opts stop k rs) (libc : Libc)
    {traceId n : ℕ} (hid : traceId < 2 ^ 64) (hn : 0 < n)
    (hnle : n ≤ rs.length) :
    (st.next opts libc traceId stop (rs.take n)).At opts stop (k + 1)
      (rs.drop n) := by
  have hk : k < 2 ^ 64 := by
    have := h.idx_lt
    omega
  have hidx : st.chunkIdx < 2 ^ 64 := h.idx ▸ hk
  obtain ⟨-, hbuf, -, -, -, -, htail⟩ :=
    writeChunk_fillTraceId hid hidx opts libc h.tail
      (rs.take n).flatten
      (if st.chunkStart + (rs.take n).flatten.length = stop ∧
        st.u.truncated = false then 33 else 126)
  have hflat : (rs.take n).flatten ++ (rs.drop n).flatten = rs.flatten := by
    rw [← List.flatten_append, List.take_append_drop]
  have hsplit := congrArg List.length hflat
  rw [List.length_append, h.rest_length] at hsplit
  have hstart := h.start_le
  refine ⟨?_, ?_, ?_, ?_, ?_, ?_, htail⟩
  · exact fun r hr => h.records r (List.mem_of_mem_drop hr)
  · change ((writeChunk libc _ _ _).1.buf.take stop).drop
      (st.chunkStart + (rs.take n).flatten.length) = _
    rw [hbuf, ← List.drop_drop, h.rest, ← hflat, List.drop_left]
  · change stop ≤ (writeChunk libc _ _ _).1.buf.length
    rw [hbuf]
    exact h.stop_le
  · change st.chunkStart + (rs.take n).flatten.length ≤ stop
    omega
  · change (st.chunkIdx + 1) % 2 ^ 64 = k + 1
    have := h.idx_lt
    rw [h.idx]
    exact Nat.mod_eq_of_lt (by omega)
  · have := h.idx_lt
    rw [List.length_drop]
    omega

/-- What the loop writes, and where it stops. -/
structure ChunkLoop.Packed (opts : Options) (traceId stop k : ℕ)
    (rs : List Bytes) (st r : ChunkLoop) : Prop where
  writes : r.u.writes = st.u.writes ++
    (pack List.length (capacity opts traceId) k rs).1.mapIdx fun i box =>
      box.flatten ++ chunkTail opts traceId (k + i)
        (if i + 1 = (pack List.length (capacity opts traceId) k rs).1.length ∧
            (pack List.length (capacity opts traceId) k rs).2 = [] ∧
              st.u.truncated = false
          then 33 else 126)
  idx : r.chunkIdx =
    k + (pack List.length (capacity opts traceId) k rs).1.length
  stopped : r.chunkStart < stop ↔
    (pack List.length (capacity opts traceId) k rs).2 ≠ []
  truncated : r.u.truncated = st.u.truncated
  marker : r.u.truncMarker = st.u.truncMarker
  tail : r.u.traceIdTail.length = tailSize

theorem ChunkLoop.At.packed_nil {opts : Options} {stop k : ℕ}
    {st : ChunkLoop} (hst : st.At opts stop k []) (libc : Libc)
    (traceId fuel : ℕ) :
    ChunkLoop.Packed opts traceId stop k [] st
      (chunkLoop opts libc traceId stop fuel st) := by
  have hpack : pack List.length (capacity opts traceId) k ([] : List Bytes) =
      ([], []) := by
    rw [pack, if_neg (by simp [fit])]
  have hstart : ¬ st.chunkStart < stop := by
    rw [hst.lt_stop_iff]
    simp
  have hloop : chunkLoop opts libc traceId stop fuel st = st := by
    cases fuel with
    | zero => rfl
    | succ fuel => simp [chunkLoop, hstart]
  rw [hloop]
  refine ⟨?_, ?_, ?_, rfl, rfl, hst.tail⟩
  · simp [hpack]
  · simp [hpack, hst.idx]
  · simpa [hpack] using hstart

theorem ChunkLoop.At.packed_stuck {opts : Options} {traceId stop k : ℕ}
    {rs : List Bytes} {st : ChunkLoop} (hst : st.At opts stop k rs)
    (hne : rs ≠ [])
    (hfit : ¬ 0 < fit List.length (capacity opts traceId k) rs)
    (libc : Libc) (fuel : ℕ) :
    ChunkLoop.Packed opts traceId stop k rs st
      (chunkLoop opts libc traceId stop (fuel + 1) st) := by
  have hpack : pack List.length (capacity opts traceId) k rs = ([], rs) := by
    rw [pack, if_neg hfit]
  have hstart := hst.lt_stop_iff.mpr hne
  rw [chunkLoop_step hst libc traceId fuel hne, if_pos (by omega)]
  refine ⟨?_, ?_, ?_, rfl, rfl, ?_⟩
  · simp [hpack, fillTraceId]
  · simp [hpack, hst.idx]
  · simpa [hpack, hne] using hstart
  · exact fillTraceId_tail_length opts hst.tail traceId st.chunkIdx

theorem ChunkLoop.Packed.of_next {opts : Options} {traceId stop k : ℕ}
    {rs : List Bytes} {st r : ChunkLoop} (hst : st.At opts stop k rs)
    (hid : traceId < 2 ^ 64) {libc : Libc} {n : ℕ}
    (hn : n = fit List.length (capacity opts traceId k) rs) (hfit : 0 < n)
    (hnext : (st.next opts libc traceId stop (rs.take n)).At opts stop (k + 1)
      (rs.drop n))
    (hrec : ChunkLoop.Packed opts traceId stop (k + 1) (rs.drop n)
      (st.next opts libc traceId stop (rs.take n)) r) :
    ChunkLoop.Packed opts traceId stop k rs st r := by
  set tail := pack List.length (capacity opts traceId) (k + 1) (rs.drop n)
    with htail
  have hpack : pack List.length (capacity opts traceId) k rs =
      (rs.take n :: tail.1, tail.2) := by
    rw [pack, ← hn, if_pos hfit]
  have hidx : st.chunkIdx < 2 ^ 64 := by
    have := hst.idx_lt
    have := hst.idx
    omega
  have hlast : st.chunkStart + (rs.take n).flatten.length = stop ↔
      0 + 1 = tail.1.length + 1 ∧ tail.2 = [] := by
    have hdone : st.chunkStart + (rs.take n).flatten.length = stop ↔
        rs.drop n = [] := hnext.start_eq_stop_iff
    rw [hdone, ← pack_eq_nil_iff List.length (capacity opts traceId) (k + 1),
      ← htail, Nat.zero_add, Nat.right_eq_add, List.length_eq_zero_iff]
  obtain ⟨hwrites, -, -, -, htrunc, hmarker, -⟩ :=
    writeChunk_fillTraceId hid hidx opts libc hst.tail (rs.take n).flatten
      (if st.chunkStart + (rs.take n).flatten.length = stop ∧
        st.u.truncated = false then 33 else 126)
  refine ⟨?_, ?_, ?_, ?_, ?_, hrec.tail⟩
  · rw [hrec.writes, hpack, ← htail]
    change (writeChunk libc _ _ _).1.writes ++ _ = _
    rw [hwrites, List.mapIdx_cons, List.append_assoc,
      List.singleton_append, hst.idx, Nat.add_zero, List.length_cons]
    have htr : (st.next opts libc traceId stop (rs.take n)).u.truncated =
        st.u.truncated := htrunc
    congr 2
    · simp only [hlast, and_assoc, Nat.add_zero]
    · simp only [htr, Nat.add_right_cancel_iff]
      congr 1
      funext i box
      rw [Nat.add_assoc, Nat.add_comm 1 i]
  · rw [hrec.idx, hpack, ← htail, List.length_cons]
    omega
  · rw [hrec.stopped, hpack, ← htail]
  · rw [hrec.truncated]
    exact htrunc
  · rw [hrec.marker]
    exact hmarker

theorem chunkLoop_packed {opts : Options} {traceId : ℕ}
    (hid : traceId < 2 ^ 64) (libc : Libc) (stop k : ℕ) (rs : List Bytes) :
    ∀ (fuel : ℕ) (st : ChunkLoop), st.At opts stop k rs →
      rs.flatten.length ≤ fuel →
        ChunkLoop.Packed opts traceId stop k rs st
          (chunkLoop opts libc traceId stop fuel st) := by
  -- the cases of `pack`: the next record fits, or no chunk is made
  induction k, rs using pack.induct List.length (capacity opts traceId) with
  | case2 k rs hfit =>
      intro fuel st hst hfuel
      by_cases hne : rs = []
      · subst rs
        exact hst.packed_nil libc traceId fuel
      · have hstart := hst.lt_stop_iff.mpr hne
        have hlen := hst.rest_length
        obtain ⟨fuel, rfl⟩ := Nat.exists_eq_succ_of_ne_zero (by omega :
          fuel ≠ 0)
        exact hst.packed_stuck hne hfit libc fuel
  | case1 k rs hfit ih =>
      intro fuel st hst hfuel
      have hnle := fit_le_length List.length (capacity opts traceId k) rs
      have hne : rs ≠ [] := by
        rintro rfl
        simp [fit] at hfit
      have hbox : 0 < (rs.take (fit List.length
          (capacity opts traceId k) rs)).flatten.length := by
        refine flatten_length_pos (d := opts.frameDelim)
          (fun r hr => hst.records r (List.mem_of_mem_take hr)) ?_
        rw [Ne, List.take_eq_nil_iff, not_or]
        exact ⟨hfit.ne', hne⟩
      have hsplit := congrArg List.length (congrArg List.flatten
        (List.take_append_drop
          (fit List.length (capacity opts traceId k) rs) rs))
      rw [List.flatten_append, List.length_append] at hsplit
      obtain ⟨fuel, rfl⟩ := Nat.exists_eq_succ_of_ne_zero (by omega :
        fuel ≠ 0)
      have hnext := hst.next libc hid hfit hnle
      rw [chunkLoop_step hst libc traceId fuel hne, if_neg (by omega)]
      exact ChunkLoop.Packed.of_next hst hid rfl hfit hnext
        (ih fuel _ hnext (by omega))

/-! ## The chunks of a trace -/

/-- The records that go out in chunks, chunk by chunk, and those dropped. -/
def chunked (opts : Options) (traceId : ℕ) (records : List Bytes) :
    List (List Bytes) × List Bytes :=
  pack List.length (capacity opts traceId) 0 records

/-- The bodies of all chunks: the packed records, then a truncation marker if
records were dropped now or earlier. -/
def chunkBodies (opts : Options) (traceId : ℕ) (records : List Bytes)
    (truncated : Bool) : List Bytes :=
  (chunked opts traceId records).1.map List.flatten ++
    if (chunked opts traceId records).2 ≠ [] ∨ truncated = true
    then [truncMarkerText opts] else []

/-- The payloads of all chunks: chunk `k` carries index `k`, and the sentinel
of the last one differs from all others. -/
def chunkPayloads (opts : Options) (traceId : ℕ) (bodies : List Bytes) :
    List Bytes :=
  bodies.mapIdx fun k body =>
    body ++ chunkTail opts traceId k (if k + 1 = bodies.length then 33 else 126)

/-- What `writeChunked` relies on: `INIT` has filled in the marker, the tail
array has its size, and the buffer is an object that `size_t` can measure. -/
structure Udata.Ready (opts : Options) (u : Udata) : Prop where
  marker : u.truncMarker = truncMarkerText opts
  tail : u.traceIdTail.length = tailSize
  len_le : u.len ≤ u.buf.length
  size_lt : u.buf.length < 2 ^ 64

theorem chunkLoop_start {opts : Options} {u : Udata} (hu : u.Ready opts)
    {records : List Bytes}
    (hrs : ∀ r ∈ records, Delimited opts.frameDelim r)
    (htext : u.text = records.flatten) :
    ChunkLoop.At opts u.len 0 records
      { u := u, chunkStart := 0, chunkIdx := 0, rv := Status.ok } := by
  have hcount : records.length ≤ records.flatten.length := by
    clear htext
    induction records with
    | nil => simp
    | cons r rs ih =>
        have hpos := (hrs r (by simp)).length_pos
        have htail := ih fun s hs => hrs s (by simp [hs])
        rw [List.flatten_cons, List.length_append, List.length_cons]
        omega
  have hlen : records.flatten.length ≤ u.buf.length := by
    rw [← htext, Udata.text, List.length_take]
    omega
  have hsize := hu.size_lt
  exact ⟨hrs, htext, hu.len_le, Nat.zero_le _, rfl, by omega, hu.tail⟩

section Payloads

variable {opts : Options} {traceId : ℕ} {records : List Bytes}
  {truncated : Bool}

theorem chunkPayloads_of_marked
    (hmark : (chunked opts traceId records).2 ≠ [] ∨ truncated = true) :
    chunkPayloads opts traceId
        (chunkBodies opts traceId records truncated) =
      ((chunked opts traceId records).1.mapIdx fun i box =>
        box.flatten ++ chunkTail opts traceId (0 + i)
          (if i + 1 = (chunked opts traceId records).1.length ∧
              (chunked opts traceId records).2 = [] ∧ truncated = false
            then 33 else 126)) ++
        [truncMarkerText opts ++ chunkTail opts traceId
          (chunked opts traceId records).1.length 33] := by
  have hnot : ¬ ((chunked opts traceId records).2 = [] ∧
      truncated = false) := by
    rintro ⟨hnil, hfalse⟩
    rcases hmark with h | h
    · exact h hnil
    · simp [hfalse] at h
  rw [chunkPayloads, chunkBodies, if_pos hmark, List.mapIdx_append]
  congr 1
  · apply List.ext_getElem?
    intro i
    rw [List.getElem?_mapIdx, List.getElem?_mapIdx, List.getElem?_map,
      Option.map_map]
    cases hi : (chunked opts traceId records).1[i]? with
    | none => rfl
    | some box =>
        have hlt := (List.getElem?_eq_some_iff.mp hi).1
        simp only [Option.map_some, Function.comp, Nat.zero_add,
          List.length_append, List.length_map, List.length_singleton]
        rw [if_neg (by omega), if_neg fun h => hnot h.2]
  · simp

theorem chunkPayloads_of_not_marked
    (hnil : (chunked opts traceId records).2 = [])
    (hfalse : truncated = false) :
    chunkPayloads opts traceId
        (chunkBodies opts traceId records truncated) =
      (chunked opts traceId records).1.mapIdx fun i box =>
        box.flatten ++ chunkTail opts traceId (0 + i)
          (if i + 1 = (chunked opts traceId records).1.length ∧
              (chunked opts traceId records).2 = [] ∧ truncated = false
            then 33 else 126) := by
  have hmark : ¬ ((chunked opts traceId records).2 ≠ [] ∨
      truncated = true) := by
    simp [hnil, hfalse]
  rw [chunkPayloads, chunkBodies, if_neg hmark, List.append_nil]
  apply List.ext_getElem?
  intro i
  rw [List.getElem?_mapIdx, List.getElem?_mapIdx, List.getElem?_map,
    Option.map_map]
  simp only [hnil, hfalse, Nat.zero_add, List.length_map, and_true]
  rfl

end Payloads

/-- The end of `writeChunked`, if the loop stopped early or the trace was
truncated before: a chunk with the marker. -/
theorem writeChunked_of_marked {opts : Options} {u : Udata} (libc : Libc)
    {traceId : ℕ} (hid : traceId < 2 ^ 64) {r : ChunkLoop}
    (hr : r = chunkLoop opts libc traceId u.len u.len
      { u := u, chunkStart := 0, chunkIdx := 0, rv := Status.ok })
    (hmark : r.chunkStart < u.len ∨ r.u.truncated = true)
    (hidx : r.chunkIdx < 2 ^ 64)
    (htail : r.u.traceIdTail.length = tailSize) :
    (writeChunked opts libc traceId u).1.writes = r.u.writes ++
        [r.u.truncMarker ++ chunkTail opts traceId r.chunkIdx 33] ∧
      (writeChunked opts libc traceId u).1.truncated = true := by
  set v : Udata :=
    if r.chunkStart < u.len then { r.u with truncated := true } else r.u
    with hv
  have hvfields : v.truncated = true ∧ v.writes = r.u.writes ∧
      v.truncMarker = r.u.truncMarker ∧
        v.traceIdTail.length = tailSize := by
    rw [hv]
    split
    · exact ⟨rfl, rfl, rfl, htail⟩
    · next hdone => exact ⟨hmark.resolve_left hdone, rfl, rfl, htail⟩
  obtain ⟨hvtrunc, hvwrites, hvmarker, hvtail⟩ := hvfields
  obtain ⟨hchunk, -, -, -, htrunc, -, -⟩ :=
    writeChunk_fillTraceId hid hidx opts libc hvtail v.truncMarker 33
  have hfinal : writeChunked opts libc traceId u =
      ((writeChunk libc (fillTraceId opts v traceId r.chunkIdx)
          v.truncMarker 33).1,
        r.rv ||| (writeChunk libc (fillTraceId opts v traceId r.chunkIdx)
          v.truncMarker 33).2) := by
    simp only [writeChunked, ← hr, ← hv, hvtrunc]
    rfl
  rw [hfinal]
  exact ⟨by rw [hchunk, hvwrites, hvmarker], htrunc.trans hvtrunc⟩

theorem writeChunked_writes {opts : Options} {u : Udata} (hu : u.Ready opts)
    (libc : Libc) {traceId : ℕ} (hid : traceId < 2 ^ 64)
    {records : List Bytes}
    (hrs : ∀ r ∈ records, Delimited opts.frameDelim r)
    (htext : u.text = records.flatten) :
    (writeChunked opts libc traceId u).1.writes =
        u.writes ++ chunkPayloads opts traceId
          (chunkBodies opts traceId records u.truncated) ∧
      ((writeChunked opts libc traceId u).1.truncated = true ↔
        (chunked opts traceId records).2 ≠ [] ∨ u.truncated = true) := by
  have hstart := chunkLoop_start hu hrs htext
  have hfuel : records.flatten.length ≤ u.len := by
    rw [← htext, Udata.text, List.length_take]
    omega
  have hloop := chunkLoop_packed hid libc u.len 0 records u.len _ hstart hfuel
  set r := chunkLoop opts libc traceId u.len u.len
    { u := u, chunkStart := 0, chunkIdx := 0, rv := Status.ok } with hr
  have hidx : r.chunkIdx = (chunked opts traceId records).1.length := by
    rw [hloop.idx, Nat.zero_add, chunked]
  have hwrites := hloop.writes
  rw [← chunked] at hwrites
  have hstopped : r.chunkStart < u.len ↔
      (chunked opts traceId records).2 ≠ [] := hloop.stopped
  have htruncated : r.u.truncated = u.truncated := hloop.truncated
  have hmarker : r.u.truncMarker = truncMarkerText opts :=
    hloop.marker.trans hu.marker
  by_cases hmark :
      (chunked opts traceId records).2 ≠ [] ∨ u.truncated = true
  · have hlt : r.chunkIdx < 2 ^ 64 := by
      have hle := hstart.idx_lt
      have hcount : (chunked opts traceId records).1.length ≤
          records.length :=
        pack_length_le List.length (capacity opts traceId) 0 records
      omega
    have hearly : r.chunkStart < u.len ∨ r.u.truncated = true := by
      rwa [hstopped, htruncated]
    obtain ⟨hpayloads, hflag⟩ :=
      writeChunked_of_marked libc hid hr hearly hlt hloop.tail
    rw [chunkPayloads_of_marked hmark, hpayloads, hwrites, hmarker, hidx,
      List.append_assoc]
    exact ⟨rfl, iff_of_true hflag hmark⟩
  · have hnil : (chunked opts traceId records).2 = [] := by
      by_contra h
      exact hmark (Or.inl h)
    have hfalse : u.truncated = false := by
      rw [← Bool.not_eq_true]
      exact fun h => hmark (Or.inr h)
    have hdone : ¬ r.chunkStart < u.len := by
      rw [hstopped]
      simp [hnil]
    have hkeep : r.u.truncated = false := htruncated.trans hfalse
    have hfinal : writeChunked opts libc traceId u = (r.u, r.rv) := by
      simp only [writeChunked, ← hr, hdone, if_false, hkeep, if_true]
    rw [hfinal, chunkPayloads_of_not_marked hnil hfalse]
    exact ⟨hwrites, by simp [hkeep, hmark]⟩

theorem chunkBodies_ne_nil {opts : Options} {u : Udata} {traceId : ℕ}
    {records : List Bytes} (hu : u.Ready opts)
    (htext : u.text = records.flatten)
    (hb : 1 ≤ opts.foutBufferSize)
    (hbig : opts.foutBufferSize < totalLen u) :
    chunkBodies opts traceId records u.truncated ≠ [] := by
  intro hnil
  rw [chunkBodies, List.append_eq_nil_iff, List.map_eq_nil_iff] at hnil
  obtain ⟨hboxes, hmarker⟩ := hnil
  by_cases hmark :
      (chunked opts traceId records).2 ≠ [] ∨ u.truncated = true
  · simp [hmark] at hmarker
  · rw [not_or, not_not] at hmark
    obtain ⟨hdropped, htrunc⟩ := hmark
    have hrecords : records = [] :=
      (pack_eq_nil_iff List.length (capacity opts traceId) 0).mp
        ⟨hboxes, hdropped⟩
    have hlen : u.len = 0 := by
      have hzero := congrArg List.length htext
      rw [Udata.text, List.length_take, hrecords, List.flatten_nil,
        List.length_nil] at hzero
      have := hu.len_le
      omega
    rw [totalLen, hlen] at hbig
    simp [htrunc] at hbig
    omega

/-- A trace that exceeds `-b` goes out as the greedy packing of its records.
The payloads are the chunk bodies with their tails: consecutive non-empty runs
of records that keep to `-b` bytes with the tail and could not take one more
record, and then, exactly if records were dropped now or earlier, the
truncation marker.  Records are dropped from the first one on that would not
fit as the only record of the current chunk.  Only the last tail has the
sentinel `!`, written over the `~` that `snprintf` left, and no tail is longer
than its array allows. -/
theorem writeChunked_greedy {opts : Options} {u : Udata} (hu : u.Ready opts)
    (libc : Libc) {traceId : ℕ} (hid : traceId < 2 ^ 64)
    {records : List Bytes}
    (hrs : ∀ r ∈ records, Delimited opts.frameDelim r)
    (htext : u.text = records.flatten)
    (hb : 1 ≤ opts.foutBufferSize)
    (hbig : opts.foutBufferSize < totalLen u) :
    let boxes := (chunked opts traceId records).1
    let dropped := (chunked opts traceId records).2
    let bodies := boxes.map List.flatten ++
      if dropped ≠ [] ∨ u.truncated = true
      then [truncMarkerText opts] else []
    let tailLen := fun k => (chunkTail opts traceId k 126).length
    (writeChunked opts libc traceId u).1.writes = u.writes ++
        bodies.mapIdx (fun k body => body ++ chunkTail opts traceId k
          (if k + 1 = bodies.length then 33 else 126)) ∧
      bodies ≠ [] ∧
      boxes.flatten ++ dropped = records ∧
      (∀ box ∈ boxes, box ≠ []) ∧
      (∀ k box, boxes[k]? = some box →
        box.flatten.length + tailLen k ≤ opts.foutBufferSize) ∧
      (∀ k box y ys, boxes[k]? = some box →
        (boxes.drop (k + 1)).flatten ++ dropped = y :: ys →
          opts.foutBufferSize < box.flatten.length + y.length + tailLen k) ∧
      (∀ y ys, dropped = y :: ys →
        opts.foutBufferSize < y.length + tailLen boxes.length) ∧
      (∀ k, k < bodies.length → tailLen k < tailSize ∧
        (chunkTail opts traceId k 126)[tailLen k - 3]? = some 126) := by
  intro boxes dropped bodies tailLen
  have hgreedy : IsGreedy List.length (capacity opts traceId) 0 records
      boxes dropped := pack_isGreedy _ _ _ _
  refine ⟨(writeChunked_writes hu libc hid hrs htext).1,
    chunkBodies_ne_nil hu htext hb hbig, hgreedy.consecutive,
    hgreedy.nonempty, ?_, ?_, ?_, ?_⟩
  · intro k box hbox
    have hfits := hgreedy.fits k box hbox
    have hmem := List.mem_of_getElem? hbox
    have hpos : 0 < box.flatten.length := by
      refine flatten_length_pos (fun r hr => hrs r ?_)
        (hgreedy.nonempty box hmem)
      rw [← hgreedy.consecutive]
      exact List.mem_append_left _ (List.mem_flatten.mpr ⟨box, hmem, hr⟩)
    rw [total_length_eq, Nat.zero_add, capacity] at hfits
    change box.flatten.length + (chunkTail opts traceId k 126).length ≤ _
    omega
  · intro k box y ys hbox hnext
    have hfull := hgreedy.full k box y ys hbox hnext
    rw [total_length_eq, Nat.zero_add, capacity] at hfull
    change _ < _ + (chunkTail opts traceId k 126).length
    omega
  · intro y ys hdropped
    have hstops := hgreedy.stops y ys hdropped
    rw [Nat.zero_add, capacity] at hstops
    change _ < _ + (chunkTail opts traceId boxes.length 126).length
    omega
  · intro k hk
    have hcount := (chunkLoop_start hu hrs htext).idx_lt
    have hboxes : boxes.length ≤ records.length :=
      pack_length_le List.length (capacity opts traceId) 0 records
    have hbodies : bodies.length ≤ boxes.length + 1 := by
      simp only [bodies, List.length_append, List.length_map]
      split
      · simp
      · simp
    exact ⟨chunkTail_length_lt hid (by omega) opts 126,
      chunkTail_getElem? opts traceId k 126⟩

/-- The stack of `test_buffer_full.sh`, written with `-b 42`. -/
def usleepRecords : List Bytes :=
  [lit "0 usleep <internal>:-1\n", lit "1 <main> <internal>:-1\n"]

def usleepOptions : Options :=
  { singleLine := false
    foutBufferSize := 42
    filterRe := none
    filterNegate := false
    verboseFieldsTs := false
    verboseFieldsPid := false }

def usleepUdata : Udata :=
  { buf := usleepRecords.flatten ++ [0]
    len := 46
    cap := 47
    truncated := false
    truncMarker := truncMarkerText usleepOptions
    traceIdTail := List.replicate tailSize 0
    traceIdTailLen := 0
    reallocs := 1
    prints := 4
    writes := [] }

theorem writeChunked_greedy_usleep :
    usleepOptions.foutBufferSize < totalLen usleepUdata ∧
      (writeChunked usleepOptions workingLibc 7 usleepUdata).1.writes =
        chunkPayloads usleepOptions 7
          (chunkBodies usleepOptions 7 usleepRecords false) := by
  have hready : usleepUdata.Ready usleepOptions :=
    ⟨rfl, by decide, by decide, by decide⟩
  have hrecords : ∀ r ∈ usleepRecords,
      Delimited usleepOptions.frameDelim r := by
    intro r hr
    simp only [usleepRecords, List.mem_cons, List.not_mem_nil, or_false] at hr
    rcases hr with rfl | rfl
    · exact ⟨lit "0 usleep <internal>:-1", by decide, by decide⟩
    · exact ⟨lit "1 <main> <internal>:-1", by decide, by decide⟩
  have hbig : usleepOptions.foutBufferSize < totalLen usleepUdata := by
    decide
  exact ⟨hbig, (writeChunked_greedy hready workingLibc (by decide) hrecords
    (by decide) (by decide) hbig).1⟩

example : (writeChunked usleepOptions workingLibc 0 usleepUdata).1.writes =
    [lit "0 usleep <internal>:-1\n# trace_id = 0.0~\n\n",
      lit "1 <main> <internal>:-1\n# trace_id = 0.1!\n\n"] := by
  decide

end Fout
end Phpspy

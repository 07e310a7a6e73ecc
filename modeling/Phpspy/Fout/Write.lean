import Phpspy.Fout.Buffer

/-!
# Writing a trace

A finished trace goes out with one `writev` if it fits into `-b` bytes, and
otherwise as a sequence of chunks that end at record boundaries.  This module
follows `event_handler_fout_write` and the functions below it.
-/

namespace Phpspy
namespace Fout

open ByteText

/-- `# truncated = 1` and the frame delimiter. -/
def truncMarkerText (opts : Options) : Bytes :=
  lit "# truncated = 1" ++ [opts.frameDelim]

/-- `# trace_id = <id>.<chunk>` with a given sentinel and both delimiters. -/
def chunkTail (opts : Options) (traceId chunkIdx : ℕ) (sentinel : UInt8) :
    Bytes :=
  lit "# trace_id = " ++ decimal traceId ++ lit "." ++ decimal chunkIdx ++
    [sentinel, opts.frameDelim, opts.traceDelim]

/-- The size of `trace_id_tail`. -/
def tailSize : ℕ := 64

/-- `event_handler_fout_fill_trace_id`: `snprintf` stores what fits in front
of a NUL and returns the full length. -/
def fillTraceId (opts : Options) (u : Udata) (traceId chunkIdx : ℕ) :
    Udata :=
  let text := chunkTail opts traceId chunkIdx 126
  { u with
    traceIdTail :=
      writeAt u.traceIdTail 0 (text.take (tailSize - 1) ++ [0])
    traceIdTailLen := text.length }

/-- `event_handler_fout_writev` -/
def writev (libc : Libc) (u : Udata) (iov : List Bytes) : Udata × Status :=
  ({ u with writes := u.writes ++ [iov.flatten] },
    if libc.writevOk u.writes.length then Status.ok else Status.error)

/-- `event_handler_fout_write_chunk` -/
def writeChunk (libc : Libc) (u : Udata) (body : Bytes) (sentinel : UInt8) :
    Udata × Status :=
  let tail := u.traceIdTail.set (u.traceIdTailLen - 3) sentinel
  writev libc { u with traceIdTail := tail } [body, tail.take u.traceIdTailLen]

/-- `event_handler_fout_find_chunk_end`, with offsets into the buffer for
pointers. -/
def findChunkEnd (opts : Options) (buf : Bytes)
    (chunkStart stop maxChunkLen : ℕ) : Option ℕ :=
  if stop - chunkStart ≤ maxChunkLen then some stop
  else
    (memrchr opts.frameDelim ((buf.drop chunkStart).take maxChunkLen)).map
      fun lastDelim => chunkStart + lastDelim + 1

/-- What the tail record leaves of `-b` for the body of a chunk. -/
def maxChunkLen (opts : Options) (u : Udata) : ℕ :=
  if opts.foutBufferSize > u.traceIdTailLen
  then opts.foutBufferSize - u.traceIdTailLen else 0

/-- The variables of the chunk loop. -/
structure ChunkLoop where
  u : Udata
  chunkStart : ℕ
  chunkIdx : ℕ
  rv : Status

/-- The chunk loop of `event_handler_fout_write_chunked`. -/
def chunkLoop (opts : Options) (libc : Libc) (traceId stop : ℕ) :
    ℕ → ChunkLoop → ChunkLoop
  | 0, st => st
  | fuel + 1, st =>
      if st.chunkStart < stop then
        let u := fillTraceId opts st.u traceId st.chunkIdx
        match findChunkEnd opts u.buf st.chunkStart stop
          (maxChunkLen opts u) with
        | none => { st with u := u }
        | some chunkEnd =>
            let sentinel : UInt8 :=
              if chunkEnd = stop ∧ u.truncated = false then 33 else 126
            let body := (u.buf.drop st.chunkStart).take
              (chunkEnd - st.chunkStart)
            let (u, rv) := writeChunk libc u body sentinel
            chunkLoop opts libc traceId stop fuel
              { u := u
                chunkStart := chunkEnd
                chunkIdx := (st.chunkIdx + 1) % 2 ^ 64
                rv := st.rv ||| rv }
      else st

/-- `event_handler_fout_write_chunked` once it has its trace id. -/
def writeChunked (opts : Options) (libc : Libc) (traceId : ℕ) (u : Udata) :
    Udata × Status :=
  let st := chunkLoop opts libc traceId u.len u.len
    { u := u, chunkStart := 0, chunkIdx := 0, rv := Status.ok }
  let v : Udata :=
    if st.chunkStart < u.len then { st.u with truncated := true } else st.u
  if v.truncated = false then (v, st.rv)
  else
    let v := fillTraceId opts v traceId st.chunkIdx
    let (v, rv) := writeChunk libc v v.truncMarker 33
    (v, st.rv ||| rv)

/-- `event_handler_fout_write_whole` -/
def writeWhole (opts : Options) (libc : Libc) (u : Udata) : Udata × Status :=
  writev libc u
    ([u.text] ++ (if u.truncated then [u.truncMarker] else []) ++
      [[opts.traceDelim]])

/-- The length `event_handler_fout_write` compares with `-b`. -/
def totalLen (u : Udata) : ℕ :=
  u.len + 1 + (if u.truncated then u.truncMarker.length else 0)

/-- `event_handler_fout_write`.  The last component is the value of the
shared counter `event_handler_fout_trace_id`, from which a chunked trace draws
its id. -/
def write (opts : Options) (libc : Libc) (nextTraceId : ℕ) (u : Udata) :
    Udata × Status × ℕ :=
  if totalLen u ≤ opts.foutBufferSize then
    let (v, rv) := writeWhole opts libc u
    (v, if v.truncated then rv ||| Status.errTruncated else rv, nextTraceId)
  else
    let (v, rv) := writeChunked opts libc nextTraceId u
    (v, if v.truncated then rv ||| Status.errTruncated else rv,
      (nextTraceId + 1) % 2 ^ 64)

/-! ## What writing leaves alone -/

section Induction

variable {opts : Options} {libc : Libc} {motive : Udata → Prop}
  (fill : ∀ u traceId chunkIdx, motive u →
    motive (fillTraceId opts u traceId chunkIdx))
  (chunk : ∀ u body sentinel, motive u →
    motive (writeChunk libc u body sentinel).1)
  (whole : ∀ u iov, motive u → motive (writev libc u iov).1)
  (truncated : ∀ u : Udata, motive u → motive { u with truncated := true })

include fill chunk

theorem chunkLoop_induction {st : ChunkLoop} (hst : motive st.u)
    (traceId stop fuel : ℕ) :
    motive (chunkLoop opts libc traceId stop fuel st).u := by
  induction fuel generalizing st with
  | zero => exact hst
  | succ fuel ih =>
      have hfill := fill st.u traceId st.chunkIdx hst
      simp only [chunkLoop]
      split
      · split
        · exact hfill
        · exact ih (chunk _ _ _ hfill)
      · exact hst

include truncated

theorem writeChunked_induction {u : Udata} (hu : motive u) (traceId : ℕ) :
    motive (writeChunked opts libc traceId u).1 := by
  have hloop := @chunkLoop_induction opts libc motive fill chunk
    { u := u, chunkStart := 0, chunkIdx := 0, rv := Status.ok } hu traceId
    u.len u.len
  simp only [writeChunked]
  generalize chunkLoop opts libc traceId u.len u.len
    { u := u, chunkStart := 0, chunkIdx := 0, rv := Status.ok } = st at hloop
  by_cases hstop : st.chunkStart < u.len
  · simp only [hstop, if_true, Bool.true_eq_false, if_false]
    exact chunk _ _ _ (fill _ _ _ (truncated _ hloop))
  · simp only [hstop, if_false]
    split
    · exact hloop
    · exact chunk _ _ _ (fill _ _ _ hloop)

include whole

/-- What holds of the handler's data before a trace is written and survives
each elementary step also holds afterwards. -/
theorem write_induction {u : Udata} (hu : motive u) (nextTraceId : ℕ) :
    motive (write opts libc nextTraceId u).1 := by
  simp only [write]
  split
  · exact whole u _ hu
  · exact writeChunked_induction fill chunk truncated hu nextTraceId

end Induction

/-- The part of the handler's data that holds the records. -/
def Udata.memory (u : Udata) : Bytes × ℕ × ℕ :=
  (u.buf, u.len, u.cap)

theorem write_memory (opts : Options) (libc : Libc) (nextTraceId : ℕ)
    (u : Udata) : (write opts libc nextTraceId u).1.memory = u.memory := by
  apply write_induction (motive := fun v => v.memory = u.memory)
  · intro v traceId chunkIdx hv
    exact hv
  · intro v body sentinel hv
    exact hv
  · intro v iov hv
    exact hv
  · intro v hv
    exact hv
  · rfl

/-! ## How often and how well it writes -/

theorem writev_writes (libc : Libc) (u : Udata) (iov : List Bytes) :
    (writev libc u iov).1.writes.length = u.writes.length + 1 := by
  simp only [writev, List.length_append, List.length_singleton]

theorem writeChunk_writes (libc : Libc) (u : Udata) (body : Bytes)
    (sentinel : UInt8) :
    (writeChunk libc u body sentinel).1.writes.length =
      u.writes.length + 1 :=
  writev_writes libc _ _

theorem chunkLoop_writes (opts : Options) (libc : Libc)
    (traceId stop fuel : ℕ) (st : ChunkLoop) :
    let st' := chunkLoop opts libc traceId stop fuel st
    st'.chunkStart = st.chunkStart ∧
        st'.u.writes.length = st.u.writes.length ∨
      st.u.writes.length < st'.u.writes.length := by
  induction fuel generalizing st with
  | zero => exact Or.inl ⟨rfl, rfl⟩
  | succ fuel ih =>
      have hmono : ∀ st' : ChunkLoop, st'.u.writes.length ≤
          (chunkLoop opts libc traceId stop fuel st').u.writes.length :=
        fun st' => (ih st').elim (fun h => h.2.ge) le_of_lt
      simp only [chunkLoop]
      split
      · split
        · exact Or.inl ⟨rfl, rfl⟩
        · refine Or.inr (lt_of_lt_of_le ?_ (hmono _))
          simp only [writeChunk_writes]
          exact Nat.lt_succ_self _
      · exact Or.inl ⟨rfl, rfl⟩

/-- A trace that is too long for one `writev` is not empty, or else its marker
has to be written. -/
theorem truncated_of_totalLen {opts : Options} {u : Udata}
    (hsize : 0 < opts.foutBufferSize)
    (hbig : ¬ totalLen u ≤ opts.foutBufferSize) (hlen : u.len = 0) :
    u.truncated = true := by
  by_contra hfits
  apply hbig
  rw [totalLen, hlen, if_neg hfits]
  exact hsize

theorem write_writes {opts : Options} (hsize : 0 < opts.foutBufferSize)
    (libc : Libc) (nextTraceId : ℕ) (u : Udata) :
    u.writes.length < (write opts libc nextTraceId u).1.writes.length := by
  by_cases hbig : totalLen u ≤ opts.foutBufferSize
  · simp only [write, if_pos hbig]
    exact lt_of_lt_of_eq (Nat.lt_succ_self _) (writev_writes libc u _).symm
  · have hloop := chunkLoop_writes opts libc nextTraceId u.len u.len
      { u := u, chunkStart := 0, chunkIdx := 0, rv := Status.ok }
    have hempty := truncated_of_totalLen hsize hbig
    simp only [write, if_neg hbig, writeChunked]
    generalize hst : chunkLoop opts libc nextTraceId u.len u.len
      { u := u, chunkStart := 0, chunkIdx := 0, rv := Status.ok } = st
      at hloop
    have hmarker : ∀ v : Udata, v.writes = st.u.writes →
        u.writes.length <
          (writeChunk libc (fillTraceId opts v nextTraceId st.chunkIdx)
            v.truncMarker 33).1.writes.length := by
      intro v hv
      rw [writeChunk_writes]
      change u.writes.length < v.writes.length + 1
      rw [hv]
      rcases hloop with ⟨-, hsame⟩ | hmore
      · exact lt_of_eq_of_lt hsame.symm (Nat.lt_succ_self _)
      · exact Nat.lt_succ_of_lt hmore
    by_cases hstop : st.chunkStart < u.len
    · simp only [hstop, if_true, Bool.true_eq_false, if_false]
      exact hmarker { st.u with truncated := true } rfl
    · simp only [hstop, if_false]
      split
      · rename_i huntruncated
        rcases hloop with ⟨hstart, -⟩ | hmore
        · -- the loop did not run, so the buffer is empty
          have hlen : u.len = 0 :=
            Nat.eq_zero_of_not_pos fun hpos =>
              hstop (lt_of_eq_of_lt hstart hpos)
          rw [hlen] at hst
          rw [← hst, chunkLoop, hempty hlen] at huntruncated
          exact absurd huntruncated (Bool.noConfusion)
        · exact hmore
      · exact hmarker st.u rfl

/-! ## The status of writing -/

section Status

variable {libc : Libc} {P : Status → Prop}
  (or : ∀ a b, P a → P b → P (a ||| b))
  (call : ∀ u iov, P (writev libc u iov).2)

include or call

theorem chunkLoop_status_induction (opts : Options) (traceId stop fuel : ℕ)
    {st : ChunkLoop} (hst : P st.rv) :
    P (chunkLoop opts libc traceId stop fuel st).rv := by
  induction fuel generalizing st with
  | zero => exact hst
  | succ fuel ih =>
      simp only [chunkLoop]
      split
      · split
        · exact hst
        · exact ih (or _ _ hst (call _ _))
      · exact hst

/-- What holds of the status of every `writev` call, and of two statuses
together, holds of the status of a chunked trace. -/
theorem writeChunked_status_induction (ok : P Status.ok) (opts : Options)
    (traceId : ℕ) (u : Udata) : P (writeChunked opts libc traceId u).2 := by
  have hloop := @chunkLoop_status_induction libc P or call opts traceId u.len
    u.len { u := u, chunkStart := 0, chunkIdx := 0, rv := Status.ok } ok
  simp only [writeChunked]
  generalize chunkLoop opts libc traceId u.len u.len
    { u := u, chunkStart := 0, chunkIdx := 0, rv := Status.ok } = st at hloop
  split
  · split
    · exact hloop
    · exact or _ _ hloop (call _ _)
  · split
    · exact hloop
    · exact or _ _ hloop (call _ _)

end Status

/-- Writing fails with no other status bits than `PHPSPY_ERR` and
`PHPSPY_ERR_TRUNCATED`. -/
theorem write_pidDead (opts : Options) (libc : Libc) (nextTraceId : ℕ)
    (u : Udata) : (write opts libc nextTraceId u).2.1.pidDead = false := by
  have hor : ∀ a b : Status, a.pidDead = false → b.pidDead = false →
      (a ||| b).pidDead = false := by
    intro a b ha hb
    exact Bool.or_eq_false_iff.mpr ⟨ha, hb⟩
  have hcall : ∀ v iov, (writev libc v iov).2.pidDead = false := by
    intro v iov
    rw [writev]
    split
    · rfl
    · rfl
  have hwhole : (writeWhole opts libc u).2.pidDead = false := hcall _ _
  have hchunked := writeChunked_status_induction hor hcall rfl opts
    nextTraceId u
  simp only [write]
  split
  · split
    · exact hor _ _ hwhole rfl
    · exact hwhole
  · split
    · exact hor _ _ hchunked rfl
    · exact hchunked

section Reliable

variable {libc : Libc} (hwritev : ∀ call, libc.writevOk call = true)

include hwritev

theorem writev_status (u : Udata) (iov : List Bytes) :
    (writev libc u iov).2 = Status.ok :=
  if_pos (hwritev _)

theorem writeChunked_status (opts : Options) (traceId : ℕ) (u : Udata) :
    (writeChunked opts libc traceId u).2 = Status.ok := by
  refine writeChunked_status_induction (P := (· = Status.ok)) ?_
    (writev_status hwritev) rfl opts traceId u
  rintro a b rfl rfl
  rfl

theorem write_status (opts : Options) (nextTraceId : ℕ) (u : Udata) :
    (write opts libc nextTraceId u).2.1 = Status.ok ∨
      (write opts libc nextTraceId u).2.1 = Status.errTruncated := by
  have hflag : ∀ truncated : Bool,
      (if truncated then Status.ok ||| Status.errTruncated else Status.ok) =
          Status.ok ∨
        (if truncated then Status.ok ||| Status.errTruncated
          else Status.ok) = Status.errTruncated := by
    decide
  have hwhole : (writeWhole opts libc u).2 = Status.ok :=
    writev_status hwritev _ _
  have hchunked := writeChunked_status hwritev opts nextTraceId u
  simp only [write]
  split
  · rw [hwhole]
    exact hflag _
  · rw [hchunked]
    exact hflag _

end Reliable

end Fout
end Phpspy

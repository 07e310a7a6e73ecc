import Phpspy.Trace.Event

/-!
# The output buffer of the fout handler

Every thread formats its records into one growable buffer.  This module
follows `event_handler_fout_snprintf`, `event_handler_fout_truncate` and
`event_handler_fout_realloc` on the memory of that buffer.
-/

namespace Phpspy
namespace Fout

open ByteText

/-- `PHPSPY_FOUT_MAX_BUFFER` -/
def maxBuffer : ℕ := 4 * 1024 * 1024

/-- The option globals the handler reads.  `-1` selects tab and newline as
delimiters; otherwise both are newlines.  A compiled filter is the predicate
`regexec` answers. -/
structure Options where
  singleLine : Bool
  foutBufferSize : ℕ
  filterRe : Option (Bytes → Bool)
  filterNegate : Bool
  verboseFieldsTs : Bool
  verboseFieldsPid : Bool

/-- `opt_frame_delim` -/
def Options.frameDelim (opts : Options) : UInt8 :=
  if opts.singleLine then 9 else 10

/-- `opt_trace_delim` -/
def Options.traceDelim (_opts : Options) : UInt8 := 10

/-- What the C library answers, call by call.  `fresh` gives the contents of
bytes that a successful `realloc` adds. -/
structure Libc where
  reallocOk : ℕ → Bool
  fresh : ℕ → ℕ → UInt8
  vsnprintfOk : ℕ → Bool
  writevOk : ℕ → Bool

/-- A C library on which every call succeeds. -/
def workingLibc : Libc :=
  { reallocOk := fun _ => true
    fresh := fun _ _ => 0
    vsnprintfOk := fun _ => true
    writevOk := fun _ => true }

/-- `event_handler_fout_udata_t`.  `buf` is the whole allocation.  The last
four fields are bookkeeping of this model: how often each library function
was called, and the payloads handed to `writev` so far. -/
structure Udata where
  buf : Bytes
  len : ℕ
  cap : ℕ
  truncated : Bool
  truncMarker : Bytes
  traceIdTail : Bytes
  traceIdTailLen : ℕ
  reallocs : ℕ
  prints : ℕ
  writes : List Bytes

/-- The text held by the buffer, `buf[0..len)`. -/
def Udata.text (u : Udata) : Bytes :=
  u.buf.take u.len

/-! ## Growing -/

/-- The doubling loop of `event_handler_fout_realloc`. -/
def doubleCap (neededCap : ℕ) : ℕ → ℕ → ℕ
  | 0, newCap => newCap
  | fuel + 1, newCap =>
      if newCap < neededCap then doubleCap neededCap fuel (2 * newCap)
      else newCap

/-- The new size of the allocation: doubled until it suffices, then cut to
the maximum. -/
def grownCap (cap neededCap : ℕ) : ℕ :=
  min (doubleCap neededCap neededCap cap) maxBuffer

/-- The C library's `realloc`: the old contents, cut or extended. -/
def resize (libc : Libc) (call : ℕ) (buf : Bytes) (newCap : ℕ) : Bytes :=
  buf.take newCap ++
    (List.range (newCap - buf.length)).map
      fun i => libc.fresh call (buf.length + i)

/-- `event_handler_fout_realloc` -/
def realloc (libc : Libc) (u : Udata) (neededCap : ℕ) : Udata × Status :=
  if neededCap > maxBuffer then (u, Status.error)
  else if libc.reallocOk u.reallocs then
    ({ u with
        buf := resize libc u.reallocs u.buf (grownCap u.cap neededCap)
        cap := grownCap u.cap neededCap
        reallocs := u.reallocs + 1 }, Status.ok)
  else ({ u with reallocs := u.reallocs + 1 }, Status.error)

/-! ## Truncating -/

/-- `event_handler_fout_truncate`: rewind to just after the last frame
delimiter. -/
def truncate (opts : Options) (u : Udata) : Udata :=
  let len :=
    match memrchr opts.frameDelim u.text with
    | some lastDelim => lastDelim + 1
    | none => 0
  { u with
    truncated := true
    len := len
    buf := u.buf.set len 0 }

/-! ## Appending formatted text -/

/-- The largest value of a C `int`. -/
def intMax : ℕ := 2 ^ 31 - 1

/-- The value of a C `int` converted to `size_t`. -/
def sizeOfInt (z : ℤ) : ℕ :=
  (z % 2 ^ 64).toNat

/-- `vsnprintf(buf + len, cap - len, ...)` for arguments that format to
`text`: as much of it as fits in front of a NUL, and the full length, or a
negative number when the call fails. -/
def vsnprintf (libc : Libc) (u : Udata) (text : Bytes) : Udata × ℤ :=
  let size := u.cap - u.len
  ({ u with
      buf :=
        if size = 0 then u.buf
        else writeAt u.buf u.len (text.take (size - 1) ++ [0])
      prints := u.prints + 1 },
    if libc.vsnprintfOk u.prints && decide (text.length ≤ intMax)
    then (text.length : ℤ) else -1)

/-- One pass of the delimiter loop: replace every `delim` from `cur` on by a
question mark, and move `cur` behind the last one. -/
def stripPass (delim : UInt8) : ℕ → Bytes × ℕ → Bytes × ℕ
  | 0, st => st
  | fuel + 1, (text, cur) =>
      match memchr delim (text.drop cur) with
      | none => (text, cur)
      | some d => stripPass delim fuel (text.set (cur + d) 63, cur + d + 1)

/-- The two passes over a text just appended, one for each delimiter.  The
second pass goes on where the first one stopped. -/
def stripDelims (opts : Options) (text : Bytes) : Bytes :=
  (stripPass opts.traceDelim text.length
    (stripPass opts.frameDelim text.length (text, 0))).1

/-- The end of `event_handler_fout_snprintf`: strip delimiters from the text
in place and account for its length. -/
def commit (opts : Options) (u : Udata) (strip : Bool) (appendLen : ℤ) :
    Udata :=
  { u with
    buf :=
      if strip then
        writeAt u.buf u.len
          (stripDelims opts ((u.buf.drop u.len).take appendLen.toNat))
      else u.buf
    len := (u.len + sizeOfInt appendLen) % 2 ^ 64 }

/-- `event_handler_fout_snprintf`, for arguments that format to `text`. -/
def snprintf (opts : Options) (libc : Libc) (u : Udata) (strip : Bool)
    (text : Bytes) : Udata :=
  if u.truncated then u
  else
    let (printed, appendLen) := vsnprintf libc u text
    if appendLen < 0 then truncate opts printed
    else if appendLen.toNat ≥ u.cap - u.len then
      let (grown, status) :=
        realloc libc printed (u.len + appendLen.toNat + 1)
      if status ≠ Status.ok then truncate opts grown
      else
        let (reprinted, appendLen) := vsnprintf libc grown text
        commit opts reprinted strip appendLen
    else commit opts printed strip appendLen

/-- One record of a trace: the body with delimiters stripped, then the frame
delimiter. -/
def putRecord (opts : Options) (libc : Libc) (u : Udata) (text : Bytes) :
    Udata :=
  snprintf opts libc (snprintf opts libc u true text) false [opts.frameDelim]

end Fout
end Phpspy

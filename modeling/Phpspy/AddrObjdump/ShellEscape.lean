import Phpspy.Support.BufferPrinting
import Phpspy.Support.ShellWords

/-!
# Escaping the arguments of shell commands

`shell_escape` puts a text into single quotes.  It checks the room in the buffer
at three places.
-/

namespace Phpspy
namespace AddrObjdump

open ByteText
open BufferPrinting
open ShellWords

/-! ## The escaper -/

/-- The loop of `shell_escape`, which may use the bytes up to `bufEnd`: the
position behind what it has written, or the rest of the argument for which there
is no room. -/
def escapeLoop (bufEnd : ℤ) : Bytes → Buffer → ℤ → Buffer × Except Bytes ℤ
  | [], buf, pos => (buf, .ok pos)
  | b :: arg, buf, pos =>
      if b = 39 then
        if bufEnd - pos < 4 then (buf, .error (b :: arg))
        else escapeLoop bufEnd arg (put buf pos [39, 92, 39, 39]) (pos + 4)
      else if bufEnd - pos < 1 then (buf, .error (b :: arg))
      else escapeLoop bufEnd arg (put buf pos [b]) (pos + 1)

/-- What is logged if there is no room for the rest of an argument. -/
def bufferTooSmall (what rest : Bytes) : Bytes :=
  lit "shell_escape: Buffer too small to escape " ++ what ++ lit ": " ++ rest ++
    lit "\n"

/-- `shell_escape`, with the C string at the start of `arg`.  There is no result
if the assertion fails. -/
def shellEscape (arg : Bytes) (buf : Buffer) (bufSize : ℕ) (what : Bytes) :
    Option (Buffer × Except Bytes Unit) :=
  if bufSize < 1 then none
  else
    match escapeLoop bufSize (cstr arg) (put buf 0 [39]) 1 with
    | (buf, .error rest) => some (buf, .error (bufferTooSmall what rest))
    | (buf, .ok pos) =>
        if (bufSize : ℤ) - pos < 2 then
          some (buf, .error (bufferTooSmall what []))
        else some (put buf pos [39, 0], .ok ())

theorem escapeLoop_cons (bufEnd : ℤ) (b : UInt8) (arg : Bytes) (buf : Buffer)
    (pos : ℤ) :
    escapeLoop bufEnd (b :: arg) buf pos =
      if bufEnd - pos < (quoteByte b).length then (buf, .error (b :: arg))
      else escapeLoop bufEnd arg (put buf pos (quoteByte b))
        (pos + (quoteByte b).length) := by
  rw [escapeLoop, quoteByte]
  by_cases hb : b = 39
  · rw [if_pos hb, if_pos hb]
    rfl
  · rw [if_neg hb, if_neg hb]
    rfl

theorem escapeLoop_of_le {bufEnd : ℤ} {arg : Bytes} {buf : Buffer} {pos : ℤ}
    (h : pos + (arg.flatMap quoteByte).length ≤ bufEnd) :
    escapeLoop bufEnd arg buf pos =
      (put buf pos (arg.flatMap quoteByte),
        .ok (pos + (arg.flatMap quoteByte).length)) := by
  induction arg generalizing buf pos with
  | nil => simp [escapeLoop, put_nil]
  | cons b arg ih =>
      rw [List.flatMap_cons, List.length_append, Nat.cast_add] at h
      rw [escapeLoop_cons, if_neg (by omega), ih (by omega), put_put_append,
        List.flatMap_cons, List.length_append, Nat.cast_add, add_assoc]

theorem escapeLoop_of_lt {bufEnd : ℤ} {arg : Bytes} {buf : Buffer} {pos : ℤ}
    (hpos : pos ≤ bufEnd)
    (h : bufEnd < pos + (arg.flatMap quoteByte).length) :
    ∃ rest, (escapeLoop bufEnd arg buf pos).2 = .error rest := by
  induction arg generalizing buf pos with
  | nil =>
      rw [List.flatMap_nil, List.length_nil] at h
      omega
  | cons b arg ih =>
      rw [List.flatMap_cons, List.length_append, Nat.cast_add] at h
      rw [escapeLoop_cons]
      split
      · exact ⟨_, rfl⟩
      · exact ih (by omega) (by omega)

theorem escapeLoop_within {bufEnd : ℕ} (arg : Bytes) (buf : Buffer) {pos : ℤ}
    (hpos : 0 ≤ pos) : Within 0 bufEnd buf (escapeLoop bufEnd arg buf pos).1 := by
  induction arg generalizing buf pos with
  | nil => exact Within.refl _ _ _
  | cons b arg ih =>
      rw [escapeLoop_cons]
      split
      · exact Within.refl _ _ _
      · exact (within_put hpos (by omega)).trans (ih _ (by omega))

/-- With enough room the buffer has the quoted argument and a terminator. -/
theorem shellEscape_of_le (arg : Bytes) {bufSize : ℕ}
    (h : (quote (cstr arg)).length + 1 ≤ bufSize) (buf : Buffer)
    (what : Bytes) :
    shellEscape arg buf bufSize what =
      some (put buf 0 (quote (cstr arg) ++ [0]), .ok ()) := by
  have hlen : (quote (cstr arg)).length =
      ((cstr arg).flatMap quoteByte).length + 2 := by simp [quote]
  have hput : put buf 0 (quote (cstr arg) ++ [0]) =
      put (put (put buf 0 [39]) 1 ((cstr arg).flatMap quoteByte))
        (1 + ((cstr arg).flatMap quoteByte).length) [39, 0] := by
    rw [put_put_append, quote, List.cons_append, List.append_assoc]
    exact (put_put_append buf 0 [39] _).symm
  rw [shellEscape, if_neg (by omega), escapeLoop_of_le (by omega)]
  dsimp only
  rw [if_neg (by omega), hput]

/-- Without enough room the escaper fails, and stays inside of the buffer. -/
theorem shellEscape_of_lt (arg : Bytes) {bufSize : ℕ} (hsize : 1 ≤ bufSize)
    (h : bufSize < (quote (cstr arg)).length + 1) (buf : Buffer)
    (what : Bytes) :
    ∃ buf' rest, Within 0 bufSize buf buf' ∧
      shellEscape arg buf bufSize what =
        some (buf', .error (bufferTooSmall what rest)) := by
  have hlen : (quote (cstr arg)).length =
      ((cstr arg).flatMap quoteByte).length + 2 := by simp [quote]
  have hwithin : Within 0 bufSize buf
      (escapeLoop bufSize (cstr arg) (put buf 0 [39]) 1).1 :=
    (within_put le_rfl (by simpa using hsize)).trans
      (escapeLoop_within _ _ (by decide))
  rw [shellEscape, if_neg (by omega)]
  by_cases hroom : 1 + ((cstr arg).flatMap quoteByte).length ≤ bufSize
  · rw [escapeLoop_of_le (by omega)] at hwithin ⊢
    dsimp only
    rw [if_pos (by omega)]
    exact ⟨_, _, hwithin, rfl⟩
  · obtain ⟨rest, hrest⟩ := @escapeLoop_of_lt bufSize (cstr arg)
      (put buf 0 [39]) 1 (by omega) (by omega)
    generalize escapeLoop bufSize (cstr arg) (put buf 0 [39]) 1 = escaped at *
    obtain ⟨buf', result⟩ := escaped
    dsimp only at hrest
    subst hrest
    exact ⟨_, _, hwithin, rfl⟩

theorem slice_escaped {arg : Bytes} (harg : (0 : UInt8) ∉ arg) {bufSize : ℕ}
    (h : (quote arg).length + 1 ≤ bufSize) (buf : Buffer) :
    (0 : UInt8) ∈ slice (put buf 0 (quote arg ++ [0])) 0 bufSize ∧
      cstr (slice (put buf 0 (quote arg ++ [0])) 0 bufSize) = quote arg := by
  have hlen : (quote arg ++ [0]).length = (quote arg).length + 1 := by
    rw [List.length_append, List.length_singleton]
  obtain ⟨n, rfl⟩ := Nat.exists_eq_add_of_le h
  rw [slice_add, ← hlen, slice_put, List.append_assoc]
  refine ⟨by simp, ?_⟩
  rw [List.singleton_append, cstr_append_zero, cstr_of_notMem]
  exact notMem_quote harg (by decide) (by decide)

end AddrObjdump
end Phpspy

import Phpspy.Render.Text
import Phpspy.Support.SteadyPrinting

/-!
# Values that print the same in every buffer

A key of an array is printed by `%s`, but the position behind it comes from the
length that the target gives.  If the key has a NUL byte, the bytes between are
not stored, and what the buffer held there becomes part of the text.  Apart
from that, what is printed for a value does not depend on the buffer.
-/

namespace Phpspy

open ByteText BufferPrinting

/-! ## Keys without a gap -/

/-- The arrays that printing a value may come to: the value itself, and arrays
in arrays. -/
inductive Reaches (mem : Remote) (lzval : Zval) : ℕ → Prop
  | value (htype : lzval.type = zvalTypeArray) :
      Reaches mem lzval lzval.value
  | element {rzarray : ℕ} {slots : List Slot} {s : Slot}
      (hreach : Reaches mem lzval rzarray)
      (hslots : arraySlots mem rzarray = .ok slots) (hs : s ∈ slots)
      (htype : s.val.type = zvalTypeArray) : Reaches mem lzval s.val.value

/-- No copied key of an array has a NUL byte. -/
def CleanArray (mem : Remote) (rzarray : ℕ) : Prop :=
  ∀ slots, arraySlots mem rzarray = .ok slots → ∀ b, Slot.bucket b ∈ slots →
    ∀ key, sprintZstring mem b.key strSize = .ok key → (0 : UInt8) ∉ key

/-- No key in a value has a NUL byte. -/
def CleanKeys (mem : Remote) (lzval : Zval) : Prop :=
  ∀ rzarray, Reaches mem lzval rzarray → CleanArray mem rzarray

theorem Reaches.type_eq {mem : Remote} {lzval : Zval} {rzarray : ℕ}
    (h : Reaches mem lzval rzarray) : lzval.type = zvalTypeArray := by
  induction h with
  | value htype => exact htype
  | element _ _ _ _ ih => exact ih

theorem CleanKeys.of_type {mem : Remote} {lzval : Zval}
    (h : lzval.type ≠ zvalTypeArray) : CleanKeys mem lzval :=
  fun _ hreach => absurd hreach.type_eq h

/-! ## Steady printing -/

theorem printText_steady (text : Bytes) :
    Steady (printText text : Printer Failure) := by
  have hrun : ∀ (b : Buffer) (off : ℤ) (size : ℕ), 1 ≤ size →
      outcome (printText text : Printer Failure) b off size =
        some (.ok (cstr (text.take (size - 1)))) := by
    intro b off size hsize
    rw [outcome_eq_ok_iff]
    exact ⟨_, rfl, slice_printText hsize b off⟩
  intro buf buf' off size hsize
  rw [hrun buf off size hsize, hrun buf' off size hsize]

theorem sprintZstringAt_steady (mem : Remote) (rzstring : ℕ) :
    Steady (sprintZstringAt mem rzstring) := by
  intro buf buf' off size _
  cases hread : sprintZstring mem rzstring size with
  | error rv =>
      have hrun : ∀ b : Buffer, sprintZstringAt mem rzstring b off size =
          some (put b off [0], .error (.status rv)) := by
        intro b
        rw [sprintZstringAt, hread]
      rw [outcome_of_error (hrun buf), outcome_of_error (hrun buf')]
  | ok bs =>
      rw [outcome_eq_ok_iff.mpr (length_sprintZstringAt mem hread buf off),
        outcome_eq_ok_iff.mpr (length_sprintZstringAt mem hread buf' off)]

theorem keyed_steady {value : Printer Failure} (h : Steady value)
    (hvalue : Bounded .underflow value) {key : Bytes}
    (hkey : (0 : UInt8) ∉ key) : Steady (keyed key value) := by
  have hlabel := length_append_equals key
  intro buf buf' off size hsize
  by_cases hroom : size > key.length + 1 + 1
  · have hrun : ∀ b : Buffer, outcome (keyed key value) b off size =
        outcome (shifted (key ++ lit "=").length value)
          (snprintf b off size (key ++ lit "=")) off size := by
      intro b
      rw [outcome, outcome, keyed, if_pos hroom, cstr_of_notMem hkey, hlabel]
    rw [hrun, hrun]
    exact h.outcome_shifted hvalue (by omega) buf buf' off
  · have hrun : ∀ b : Buffer, outcome (keyed key value) b off size =
        outcome value b off size := by
      intro b
      rw [outcome, outcome, keyed, if_neg hroom]
    rw [hrun, hrun]
    exact h buf buf' off size hsize

section Values

variable (mem : Remote) (floatText : ℕ → Bytes) {arrays : ℕ → Printer Failure}

theorem sprintZvalWith_steady {lzval : Zval}
    (harray : lzval.type = zvalTypeArray → Steady (arrays lzval.value)) :
    Steady (sprintZvalWith mem floatText arrays lzval) := by
  unfold sprintZvalWith
  split_ifs with hlong hdouble hstring htype
  · exact printText_steady _
  · exact printText_steady _
  · exact sprintZstringAt_steady mem _
  · exact harray htype
  · exact Steady.error _

theorem sprintSlotWith_steady (harrays : ∀ r, Bounded .underflow (arrays r))
    {s : Slot} (hvalue : Steady (sprintZvalWith mem floatText arrays s.val))
    (hclean : ∀ b, s = .bucket b → ∀ key,
      sprintZstring mem b.key strSize = .ok key → (0 : UInt8) ∉ key) :
    Steady (sprintSlotWith mem floatText arrays s) := by
  have hnothing : Steady (fun buf _ _ => some (buf, .ok 0) : Printer Failure) :=
    Steady.of_printsText nothing_printsText
  have hbounded := sprintZvalWith_bounded mem floatText harrays s.val
  cases s with
  | packed idx lzval =>
      rw [sprintSlotWith, sprintZarrayPackedWith]
      split
      · exact hnothing
      · exact hvalue.labelled hbounded _
  | bucket lbucket =>
      rw [sprintSlotWith, sprintZarrayBucketWith]
      split
      · exact hnothing
      · split
        · exact hvalue
        · split
          · exact Steady.error _
          · next key hread =>
              exact keyed_steady hvalue hbounded (hclean lbucket rfl key hread)

/-- The arrays of a set that is closed under elements and has clean keys. -/
theorem sprintZarray_steady {R : ℕ → Prop} (hclean : ∀ a, R a → CleanArray mem a)
    (hnext : ∀ a slots s, R a → arraySlots mem a = .ok slots → s ∈ slots →
      s.val.type = zvalTypeArray → R s.val.value)
    (fuel : ℕ) {rzarray : ℕ} (h : R rzarray) :
    Steady (sprintZarray mem floatText fuel rzarray) := by
  induction fuel generalizing rzarray with
  | zero => exact fun _ _ _ _ _ => rfl
  | succ fuel ih =>
      have hbounded := sprintZarray_bounded mem floatText fuel
      rw [sprintZarray, sprintZarrayWith]
      split
      · exact Steady.error _
      · next slots hslots =>
          refine Steady.printList ?_ ?_
          · intro p hp
            obtain ⟨s, -, rfl⟩ := List.mem_map.mp hp
            exact sprintSlotWith_bounded mem floatText hbounded s
          · intro p hp
            obtain ⟨s, hs, rfl⟩ := List.mem_map.mp hp
            refine sprintSlotWith_steady mem floatText hbounded ?_ ?_
            · refine sprintZvalWith_steady mem floatText fun htype => ?_
              exact ih (hnext _ _ _ h hslots hs htype)
            · rintro b rfl
              exact hclean rzarray h slots hslots b hs

/-- What is printed for a value with clean keys does not depend on what the
buffer held. -/
theorem CleanKeys.sprintZval_steady {lzval : Zval} (h : CleanKeys mem lzval)
    (fuel : ℕ) : Steady (sprintZval mem floatText fuel lzval) := by
  refine sprintZvalWith_steady mem floatText fun htype => ?_
  exact sprintZarray_steady mem floatText h
    (fun _ _ _ hreach hslots hs hval => hreach.element hslots hs hval) fuel
    (.value htype)

end Values

end Phpspy

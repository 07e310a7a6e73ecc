import Phpspy.Render.Exact

/-!
# Values that are peeked at

Variables are printed into buffers of `PHPSPY_STR_SIZE` bytes.  Besides strings,
integers and arrays of them, a variable can be a floating point number, which
`snprintf` prints.
-/

namespace Phpspy

open ByteText BufferPrinting

inductive PeekedValue where
  | value (v : PhpValue)
  | double (bits : ℕ)

namespace PeekedValue

/-- The memory has the value in a `zval`. -/
def Holds (mem : Remote) : PeekedValue → Zval → Prop
  | .value v, lzval => v.Holds mem lzval
  | .double bits, lzval =>
      lzval.type = zvalTypeDouble ∧ lzval.value = bits

def text (floatText : ℕ → Bytes) : PeekedValue → Bytes
  | .value v => v.text strSize
  | .double bits => cstr ((floatText bits).take (strSize - 1))

theorem text_eq_render {v : PhpValue} (h : v.Plain)
    (hsize : v.render.length + 2 ≤ strSize) (floatText : ℕ → Bytes) :
    (PeekedValue.value v).text floatText = v.render :=
  PhpValue.text_eq_render h hsize

/-- With enough depth, `sprint_zval` prints the text of a value, whatever is in
the buffer. -/
theorem Holds.sprintZval {mem : Remote} {p : PeekedValue} {lzval : Zval}
    (h : p.Holds mem lzval) (floatText : ℕ → Bytes) :
    ∃ enough, ∀ fuel ≥ enough, ∀ buf, ∃ out,
      sprintZval mem floatText fuel lzval buf 0 strSize =
          some (out, .ok (p.text floatText).length) ∧
        slice out 0 (p.text floatText).length = p.text floatText := by
  have hprints : ∃ enough, ∀ fuel ≥ enough,
      PrintsAt (Phpspy.sprintZval mem floatText fuel lzval) strSize
        (p.text floatText) := by
    cases p with
    | value v =>
        obtain ⟨enough, hprints⟩ := v.printsText floatText h
        exact ⟨enough, fun fuel hfuel =>
          hprints fuel hfuel strSize (by decide)⟩
    | double bits =>
        obtain ⟨htype, rfl⟩ := h
        have hleaf : ∀ size, 1 ≤ size → leafText mem floatText size lzval =
            some (cstr ((floatText lzval.value).take (size - 1))) := by
          intro size _
          have hlong : lzval.type ≠ zvalTypeLong := by
            rw [htype]
            decide
          rw [leafText, if_neg hlong, if_pos htype]
        exact ⟨0, fun fuel _ =>
          PrintsText.of_leaf floatText hleaf fuel strSize (by decide)⟩
  obtain ⟨enough, hprints⟩ := hprints
  refine ⟨enough, fun fuel hfuel buf => ?_⟩
  obtain ⟨out, hrun, hslice, -⟩ := hprints fuel hfuel buf 0
  exact ⟨out, hrun, hslice⟩

end PeekedValue

/-- A value of a type that `sprint_zval` does not print. -/
def IsUnprinted (lzval : Zval) : Prop :=
  lzval.type ≠ zvalTypeLong ∧ lzval.type ≠ zvalTypeDouble ∧
    lzval.type ≠ zvalTypeString ∧ lzval.type ≠ zvalTypeArray

theorem IsUnprinted.sprintZval {mem : Remote} {lzval : Zval}
    (h : IsUnprinted lzval) (floatText : ℕ → Bytes) (fuel : ℕ)
    (buf : Buffer) (off size : ℕ) :
    sprintZval mem floatText fuel lzval buf off size =
      some (buf, .error (.status Status.error)) := by
  obtain ⟨hlong, hdouble, hstring, harray⟩ := h
  rw [Phpspy.sprintZval, sprintZvalWith, if_neg hlong, if_neg hdouble,
    if_neg hstring, if_neg harray]

end Phpspy

import Phpspy.Render.Recursion
import Phpspy.Support.PrintedText

/-!
# Arrays and their texts

The values that are shown: integers, strings, and arrays of such values.  This
module says what it is for the memory of the target to hold one, what is
printed for it at each size, and that the printing functions print that.
-/

namespace Phpspy

open ByteText BufferPrinting

/-! ## Values -/

mutual

inductive PhpValue where
  | long (n : ℤ)
  | string (text : Bytes)
  | array (isPacked : Bool) (elements : PhpElements)

/-- The slots of an array.  A packed array has no keys. -/
inductive PhpElements where
  | nil
  | undef (rest : PhpElements)
  | cons (key : Option Bytes) (value : PhpValue) (rest : PhpElements)

end

/-! ## Values in memory -/

def HoldsLabel (mem : Remote) (isPacked : Bool) (idx : ℕ)
    (key : Option Bytes) : Slot → Prop
  | .packed i _ => isPacked = true ∧ i = idx
  | .bucket lbucket =>
      isPacked = false ∧
        match key with
        | none => lbucket.key = 0
        | some text =>
            lbucket.key ≠ 0 ∧ HoldsString mem lbucket.key text ∧
              (0 : UInt8) ∉ text

mutual

/-- The memory has a value in a `zval`. -/
def PhpValue.Holds (mem : Remote) : PhpValue → Zval → Prop
  | .long n, lzval => lzval.type = zvalTypeLong ∧ wrap64 lzval.value = n
  | .string text, lzval =>
      lzval.type = zvalTypeString ∧ HoldsString mem lzval.value text
  | .array isPacked elements, lzval =>
      lzval.type = zvalTypeArray ∧
        ∃ lzarray slots, copyZendArray mem lzval.value = .ok lzarray ∧
          lzarray.nNumUsed ≤ maxArrayBuckets ∧
          copySlots mem lzarray = .ok slots ∧
          elements.Holds mem isPacked 0 slots

/-- The memory has elements in slots, the first of which has a given index. -/
def PhpElements.Holds (mem : Remote) (isPacked : Bool) :
    PhpElements → ℕ → List Slot → Prop
  | .nil, _, slots => slots = []
  | .undef _, _, [] => False
  | .undef rest, idx, s :: slots =>
      s.val.type = zvalTypeUndef ∧ rest.Holds mem isPacked (idx + 1) slots
  | .cons _ _ _, _, [] => False
  | .cons key value rest, idx, s :: slots =>
      HoldsLabel mem isPacked idx key s ∧ value.Holds mem s.val ∧
        rest.Holds mem isPacked (idx + 1) slots

end

/-! ## Texts -/

/-- A key and the text behind it, or the text alone if the key does not
fit. -/
def keyText (key : Bytes) (t : ℕ → Bytes) : ℕ → Bytes :=
  fun size =>
    if key.length + 2 < size then
      (key ++ lit "=") ++ t (size - (key ++ lit "=").length)
    else t size

theorem length_append_equals (key : Bytes) :
    (key ++ lit "=").length = key.length + 1 := by
  rw [List.length_append]
  rfl

/-- The text of an element, from the text of its value. -/
def elementText (isPacked : Bool) (idx : ℕ) (key : Option Bytes)
    (t : ℕ → Bytes) : ℕ → Bytes :=
  if isPacked then labelText (decimal idx ++ lit "=") t
  else
    match key with
    | none => t
    | some text => keyText (text.take 255) t

mutual

def PhpValue.text : PhpValue → ℕ → Bytes
  | .long n => fun size => (decimalInt n).take (size - 1)
  | .string text => fun size => text.take (size - 1)
  | .array isPacked elements => joinText comma (elements.texts isPacked 0)

def PhpElements.texts (isPacked : Bool) :
    ℕ → PhpElements → List (ℕ → Bytes)
  | _, .nil => []
  | idx, .undef rest => (fun _ => []) :: rest.texts isPacked (idx + 1)
  | idx, .cons key value rest =>
      elementText isPacked idx key value.text ::
        rest.texts isPacked (idx + 1)

end

theorem Fits.keyText {t : ℕ → Bytes} (h : Fits t) (key : Bytes) :
    Fits (keyText key t) := by
  intro size hsize
  have hlabel := length_append_equals key
  rw [Phpspy.keyText]
  split
  · have := h (size - (key ++ lit "=").length) (by omega)
    rw [List.length_append]
    omega
  · exact h size hsize

theorem Fits.elementText {t : ℕ → Bytes} (h : Fits t) (isPacked : Bool)
    (idx : ℕ) (key : Option Bytes) :
    Fits (elementText isPacked idx key t) := by
  unfold Phpspy.elementText
  split
  · exact h.labelText _
  · split
    · exact h
    · exact Fits.keyText h _

mutual

theorem PhpValue.text_fits : ∀ v : PhpValue, Fits v.text
  | .long _ => Fits.take _
  | .string _ => Fits.take _
  | .array isPacked elements =>
      Fits.joinText (elements.texts_fit isPacked 0)

theorem PhpElements.texts_fit (isPacked : Bool) :
    ∀ (idx : ℕ) (es : PhpElements), ∀ t ∈ es.texts isPacked idx, Fits t
  | _, .nil => nofun
  | idx, .undef rest => by
      intro t ht
      rcases List.mem_cons.mp ht with rfl | ht
      · exact fun size hsize => hsize
      · exact rest.texts_fit isPacked (idx + 1) t ht
  | idx, .cons key value rest => by
      intro t ht
      rcases List.mem_cons.mp ht with rfl | ht
      · exact Fits.elementText value.text_fits isPacked idx key
      · exact rest.texts_fit isPacked (idx + 1) t ht

end

/-! ## The printing functions print these texts -/

section Prints

variable {mem : Remote} (floatText : ℕ → Bytes)

theorem decimal_noNul (n : ℕ) : (0 : UInt8) ∉ decimal n := by
  intro h
  exact absurd (decimal_isDigit h) (by decide)

theorem decimalInt_noNul (n : ℤ) : (0 : UInt8) ∉ decimalInt n := by
  cases n with
  | ofNat n => exact decimal_noNul n
  | negSucc n =>
      intro h
      rcases List.mem_cons.mp h with h | h
      · exact absurd h (by decide)
      · exact decimal_noNul _ h

theorem PrintsText.of_leaf {lzval : Zval} {t : ℕ → Bytes}
    (h : ∀ size, 1 ≤ size → leafText mem floatText size lzval = some (t size))
    (fuel : ℕ) : PrintsText (sprintZval mem floatText fuel lzval) t := by
  intro size hsize buf off
  obtain ⟨out, hrun, hslice⟩ :=
    sprintZvalWith_leaf mem floatText hsize (h size hsize) _ buf off
  refine ⟨out, hrun, hslice, fun i hi => ?_⟩
  exact (sprintZvalWith_bounded mem floatText
    (sprintZarray_bounded mem floatText fuel) lzval _ _ _ hsize _ _ hrun).1 i
      (.inl hi)

theorem keyed_printsText {value : Printer Failure} {t : ℕ → Bytes}
    (h : PrintsText value t) {key : Bytes} (hkey : (0 : UInt8) ∉ key) :
    PrintsText (keyed key value) (keyText key t) := by
  have hlabel := length_append_equals key
  intro size hsize buf off
  rw [keyed, keyText, cstr_of_notMem hkey, ← hlabel]
  by_cases hroom : key.length + 2 < size
  · rw [if_pos (by omega), if_pos hroom]
    have htake : (key ++ lit "=").take (size - 1) = key ++ lit "=" :=
      List.take_of_length_le (by omega)
    have hslice : slice (snprintf buf off size (key ++ lit "=")) off
        ((key ++ lit "=").take (size - 1)).length =
          (key ++ lit "=").take (size - 1) := slice_snprintf hsize
    rw [htake] at hslice
    have hlt : (key ++ lit "=").length < size := by omega
    obtain ⟨out, hrun, hout, hframe⟩ := h.shifted hlt hslice
    exact ⟨out, hrun, hout, fun i hi => (hframe i hi).trans
      (within_snprintf buf off size _ i (.inl hi))⟩
  · rw [if_neg (by omega), if_neg hroom]
    exact h size hsize buf off

theorem PhpValue.Holds.type_ne_undef {v : PhpValue} {lzval : Zval}
    (h : v.Holds mem lzval) : lzval.type ≠ zvalTypeUndef := by
  cases v with
  | long n => rw [h.1]; decide
  | string text => rw [h.1]; decide
  | array isPacked elements => rw [h.1]; decide

theorem sprintSlot_printsText {isPacked : Bool} {idx : ℕ}
    {key : Option Bytes} {s : Slot} (hlabel : HoldsLabel mem isPacked idx key s)
    (hundef : s.val.type ≠ zvalTypeUndef) {fuel : ℕ} {t : ℕ → Bytes}
    (h : PrintsText (sprintZval mem floatText fuel s.val) t) :
    PrintsText (sprintSlot mem floatText fuel s)
      (elementText isPacked idx key t) := by
  cases s with
  | packed i lzval =>
      obtain ⟨rfl, rfl⟩ := hlabel
      have htype : lzval.type ≠ zvalTypeUndef := hundef
      rw [sprintSlot, sprintSlotWith, sprintZarrayPackedWith, if_neg htype]
      exact h.labelled _
  | bucket lbucket =>
      obtain ⟨rfl, hkey⟩ := hlabel
      have htype : lbucket.val.type ≠ zvalTypeUndef := hundef
      rw [sprintSlot, sprintSlotWith, sprintZarrayBucketWith, if_neg htype]
      cases key with
      | none =>
          rw [if_pos hkey]
          exact h
      | some text =>
          obtain ⟨hne, hstring, hnul⟩ := hkey
          rw [if_neg hne, hstring.sprintZstring_eq]
          exact keyed_printsText h fun hmem => hnul (List.mem_of_mem_take hmem)

theorem nothing_printsText :
    PrintsText (fun buf _ _ => some (buf, .ok 0) : Printer Failure)
      fun _ => [] :=
  fun _ _ buf _ => ⟨buf, rfl, rfl, fun _ _ => rfl⟩

theorem sprintSlot_undef {s : Slot} (h : s.val.type = zvalTypeUndef)
    (fuel : ℕ) :
    sprintSlot mem floatText fuel s = fun buf _ _ => some (buf, .ok 0) := by
  cases s with
  | packed i lzval =>
      rw [sprintSlot, sprintSlotWith, sprintZarrayPackedWith]
      exact if_pos h
  | bucket lbucket =>
      rw [sprintSlot, sprintSlotWith, sprintZarrayBucketWith]
      exact if_pos h

mutual

/-- With enough depth, a value that the memory holds is printed as its
text. -/
theorem PhpValue.printsText : ∀ (v : PhpValue) {lzval : Zval},
    v.Holds mem lzval → ∃ enough, ∀ fuel ≥ enough,
      PrintsText (sprintZval mem floatText fuel lzval) v.text
  | .long n, lzval, h => by
      refine ⟨0, fun fuel _ => PrintsText.of_leaf floatText ?_ fuel⟩
      intro size _
      rw [leafText, if_pos h.1, h.2]
      refine congrArg some (cstr_of_notMem fun hmem => ?_)
      exact decimalInt_noNul n (List.mem_of_mem_take hmem)
  | .string text, lzval, h => by
      refine ⟨0, fun fuel _ => PrintsText.of_leaf floatText ?_ fuel⟩
      intro size _
      rw [leafText, h.1, h.2.sprintZstring_eq]
      rfl
  | .array isPacked elements, lzval, ⟨htype, lzarray, slots, hcopy, _,
      hslots, helements⟩ => by
      obtain ⟨enough, hprints⟩ := elements.printsTexts helements
      have hread : arraySlots mem lzval.value = .ok slots := by
        rw [arraySlots, hcopy]
        exact hslots
      refine ⟨enough + 1, fun fuel hfuel => ?_⟩
      obtain ⟨fuel, rfl⟩ : ∃ k, fuel = k + 1 := ⟨fuel - 1, by omega⟩
      rw [sprintZval_array mem floatText htype,
        sprintZarray_succ mem floatText hread]
      exact printList_printsText (hprints fuel (by omega))
        (elements.texts_fit isPacked 0)

theorem PhpElements.printsTexts : ∀ (es : PhpElements) {isPacked : Bool}
    {idx : ℕ} {slots : List Slot}, es.Holds mem isPacked idx slots →
      ∃ enough, ∀ fuel ≥ enough, List.Forall₂ PrintsText
        (slots.map (sprintSlot mem floatText fuel)) (es.texts isPacked idx)
  | .nil, _, _, _, h => ⟨0, fun _ _ => by rw [h]; exact .nil⟩
  | .undef rest, _, _, s :: slots, ⟨hundef, hrest⟩ => by
      obtain ⟨enough, hprints⟩ := rest.printsTexts hrest
      refine ⟨enough, fun fuel hfuel => .cons ?_ (hprints fuel hfuel)⟩
      rw [sprintSlot_undef floatText hundef]
      exact nothing_printsText
  | .cons key value rest, isPacked, idx, s :: slots,
      ⟨hlabel, hvalue, hrest⟩ => by
      obtain ⟨first, hfirst⟩ := value.printsText hvalue
      obtain ⟨enough, hprints⟩ := rest.printsTexts hrest
      refine ⟨max first enough, fun fuel hfuel => .cons ?_
        (hprints fuel ((le_max_right _ _).trans hfuel))⟩
      exact sprintSlot_printsText floatText hlabel hvalue.type_ne_undef
        (hfirst fuel ((le_max_left _ _).trans hfuel))

end

end Prints

/-! ## Texts that are not cut -/

/-- What is printed in front of the value of an element, if it fits. -/
def elementLabel (isPacked : Bool) (idx : ℕ) (key : Option Bytes) : Bytes :=
  if isPacked then decimal idx ++ lit "="
  else
    match key with
    | none => []
    | some text => text.take 255 ++ lit "="

mutual

def PhpValue.full : PhpValue → Bytes
  | .long n => decimalInt n
  | .string text => text
  | .array isPacked elements => joinFull comma (elements.fulls isPacked 0)

def PhpElements.fulls (isPacked : Bool) : ℕ → PhpElements → List Bytes
  | _, .nil => []
  | idx, .undef rest => [] :: rest.fulls isPacked (idx + 1)
  | idx, .cons key value rest =>
      (elementLabel isPacked idx key ++ value.full) ::
        rest.fulls isPacked (idx + 1)

end

theorem elementText_complete {t : ℕ → Bytes} {text : Bytes}
    (h : Complete t text) (isPacked : Bool) (idx : ℕ) (key : Option Bytes) :
    Complete (elementText isPacked idx key t)
      (elementLabel isPacked idx key ++ text) := by
  unfold elementText elementLabel
  split
  · exact h.labelText _
  · cases key with
    | none => exact h
    | some k =>
        intro size hlength
        have hlabel := length_append_equals (k.take 255)
        have hsize : (k.take 255 ++ lit "=" ++ text).length + 2 ≤ size :=
          hlength
        rw [List.length_append] at hsize
        simp only [keyText]
        rw [if_pos (by omega), h _ (by omega)]

mutual

theorem PhpValue.text_complete : ∀ v : PhpValue, Complete v.text v.full
  | .long _ => Complete.take _
  | .string _ => Complete.take _
  | .array isPacked elements =>
      joinText_complete (elements.texts_complete isPacked 0)
        (elements.texts_fit isPacked 0)

theorem PhpElements.texts_complete (isPacked : Bool) :
    ∀ (idx : ℕ) (es : PhpElements), List.Forall₂ Complete
      (es.texts isPacked idx) (es.fulls isPacked idx)
  | _, .nil => .nil
  | idx, .undef rest =>
      .cons (fun _ _ => rfl) (rest.texts_complete isPacked (idx + 1))
  | idx, .cons key value rest =>
      .cons (elementText_complete value.text_complete isPacked idx key)
        (rest.texts_complete isPacked (idx + 1))

end

/-! ## Arrays at an address -/

structure ArrayImage (mem : Remote) (rzarray : ℕ) where
  isPacked : Bool
  elements : PhpElements
  holds : (PhpValue.array isPacked elements).Holds mem
    ⟨rzarray, zvalTypeArray, 0⟩

namespace ArrayImage

variable {mem : Remote} {rzarray : ℕ}

def value (a : ArrayImage mem rzarray) : PhpValue :=
  .array a.isPacked a.elements

theorem sprintZarray_printsText (a : ArrayImage mem rzarray)
    (floatText : ℕ → Bytes) :
    ∃ enough, ∀ fuel ≥ enough,
      PrintsText (sprintZarray mem floatText fuel rzarray) a.value.text := by
  obtain ⟨enough, h⟩ := a.value.printsText floatText a.holds
  refine ⟨enough, fun fuel hfuel => ?_⟩
  have hprints := h fuel hfuel
  rwa [sprintZval_array mem floatText rfl] at hprints

/-- At each size, `sprint_zarray` prints the text of the array and no
other. -/
theorem printsAt_iff (a : ArrayImage mem rzarray) (floatText : ℕ → Bytes)
    {size : ℕ} (hsize : 1 ≤ size) {text : Bytes} :
    (∃ enough, ∀ fuel ≥ enough,
        PrintsAt (sprintZarray mem floatText fuel rzarray) size text) ↔
      a.value.text size = text := by
  obtain ⟨enough, hprints⟩ := a.sprintZarray_printsText floatText
  constructor
  · rintro ⟨enough', hprints'⟩
    exact (hprints _ (le_max_left enough enough') size hsize).unique
      (hprints' _ (le_max_right enough enough'))
  · rintro rfl
    exact ⟨enough, fun fuel hfuel => hprints fuel hfuel size hsize⟩

end ArrayImage

end Phpspy

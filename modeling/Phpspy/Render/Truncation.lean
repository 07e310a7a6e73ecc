import Phpspy.Render.Packed

/-!
# Arrays that do not fit

What is printed of an array in a small buffer is not always the beginning of
what is printed in a larger one: a key that does not fit is left out and its
value printed all the same, and behind an array that is cut there may be room
for the next element.  This module says when neither happens.
-/

namespace Phpspy

open ByteText BufferPrinting

/-! ## Orderly arrays -/

/-- There is room for what stands in front of a value, and a byte more behind
a string key. -/
def LabelFits (isPacked : Bool) (idx : ℕ) (key : Option Bytes) (size : ℕ) :
    Prop :=
  (elementLabel isPacked idx key).length < size ∧
    (isPacked = false → key ≠ none →
      (elementLabel isPacked idx key).length + 1 < size)

instance (isPacked : Bool) (idx : ℕ) (key : Option Bytes) (size : ℕ) :
    Decidable (LabelFits isPacked idx key size) :=
  inferInstanceAs (Decidable (_ ∧ (_ → _ → _)))

mutual

/-- At a size, no key is left out in front of a value, and nothing is printed
behind an element that is cut. -/
def PhpValue.Orderly : PhpValue → ℕ → Prop
  | .long _, _ => True
  | .string _, _ => True
  | .array isPacked elements, size => elements.Orderly isPacked 0 size

def PhpElements.Orderly (isPacked : Bool) : PhpElements → ℕ → ℕ → Prop
  | .nil, _, _ => True
  | .undef rest, idx, size => rest.Orderly isPacked (idx + 1) size
  | .cons key value rest, idx, size =>
      let label := elementLabel isPacked idx key
      let text := elementText isPacked idx key value.text
      if (label ++ value.full).length + 2 ≤ size then
        -- the element is printed in full, and the rest has what is left
        rest.Orderly isPacked (idx + 1)
          (if label ++ value.full = [] then size
            else size - (label ++ value.full).length - 1)
      else
        -- nothing more is printed, or a comma that is taken for a separator
        -- and removed
        stripSep comma
          (joinLoop comma (text :: rest.texts isPacked (idx + 1)) size) = [] ∨
        -- the element is cut, and nothing is printed behind it
        (LabelFits isPacked idx key size ∧
          value.Orderly (size - label.length) ∧
          joinBehind comma text (rest.texts isPacked (idx + 1)) size = [])

end

/-! ## Elements -/

theorem elementText_of_labelFits {isPacked : Bool} {idx : ℕ}
    {key : Option Bytes} {size : ℕ} (h : LabelFits isPacked idx key size)
    (t : ℕ → Bytes) :
    elementText isPacked idx key t size =
      elementLabel isPacked idx key ++
        t (size - (elementLabel isPacked idx key).length) := by
  obtain ⟨hroom, hkey⟩ := h
  unfold elementText elementLabel at *
  cases isPacked with
  | true =>
      simp only [if_true, labelText] at hroom ⊢
      exact if_neg (by omega)
  | false =>
      cases key with
      | none => rfl
      | some text =>
          have hlabel := length_append_equals (text.take 255)
          have hspare := hkey rfl (by simp)
          simp only [Bool.false_eq_true, if_false, hlabel] at hspare
          simp only [Bool.false_eq_true, if_false, keyText]
          exact if_pos (by omega)

/-- If there is no room for the label, then nothing is printed for an element
of a packed array, and the value alone for another one. -/
theorem elementText_of_not_labelFits {isPacked : Bool} {idx : ℕ}
    {key : Option Bytes} {size : ℕ}
    (h : ¬ LabelFits isPacked idx key size) (t : ℕ → Bytes) :
    elementText isPacked idx key t size =
      if isPacked then [] else t size := by
  unfold elementText
  cases isPacked with
  | true =>
      simp only [LabelFits, elementLabel, if_true, Bool.true_eq_false,
        IsEmpty.forall_iff, and_true, not_lt] at h
      simp only [if_true, labelText]
      exact if_pos h
  | false =>
      simp only [Bool.false_eq_true, if_false]
      cases key with
      | none => rfl
      | some text =>
          have hlabel := length_append_equals (text.take 255)
          simp only [keyText]
          refine if_neg fun hroom => h ⟨?_, fun _ _ => ?_⟩
          · simp only [elementLabel, Bool.false_eq_true, if_false, hlabel]
            omega
          · simp only [elementLabel, Bool.false_eq_true, if_false, hlabel]
            omega

theorem LabelFits.mono {isPacked : Bool} {idx : ℕ} {key : Option Bytes}
    {size size' : ℕ} (h : LabelFits isPacked idx key size)
    (hle : size ≤ size') : LabelFits isPacked idx key size' :=
  ⟨h.1.trans_le hle, fun hp hk => (h.2 hp hk).trans_le hle⟩

theorem elementLabel_ne_nil {isPacked : Bool} {idx : ℕ} {key : Option Bytes}
    {size : ℕ} (hpos : 1 ≤ size) (h : ¬ LabelFits isPacked idx key size) :
    elementLabel isPacked idx key ≠ [] := by
  intro hnil
  refine h ⟨by rw [hnil]; exact hpos, fun hp hk => ?_⟩
  subst hp
  cases key with
  | none => exact absurd rfl hk
  | some text => simp [elementLabel, lit] at hnil

/-! ## Larger sizes print something where smaller ones do -/

theorem elementText_ne_nil {isPacked : Bool} {idx : ℕ} {key : Option Bytes}
    {t : ℕ → Bytes} {size size' : ℕ} (hpos : 1 ≤ size) (hle : size ≤ size')
    (ht : ∀ m n, 1 ≤ m → m ≤ n → t m ≠ [] → t n ≠ [])
    (h : elementText isPacked idx key t size ≠ []) :
    elementText isPacked idx key t size' ≠ [] := by
  by_cases hfits : LabelFits isPacked idx key size
  · have hroom := hfits.1
    rw [elementText_of_labelFits hfits] at h
    rw [elementText_of_labelFits (hfits.mono hle)]
    by_cases hlabel : elementLabel isPacked idx key = []
    · rw [hlabel, List.nil_append] at h ⊢
      exact ht _ _ (by simpa using hpos) (by simpa using hle) h
    · simp [hlabel]
  · rw [elementText_of_not_labelFits hfits] at h
    by_cases hfits' : LabelFits isPacked idx key size'
    · rw [elementText_of_labelFits hfits']
      simp [elementLabel_ne_nil hpos hfits]
    · rw [elementText_of_not_labelFits hfits']
      cases isPacked with
      | true => exact h
      | false => exact ht _ _ hpos hle h

mutual

theorem PhpValue.text_ne_nil : ∀ (v : PhpValue) (size size' : ℕ),
    1 ≤ size → size ≤ size' → v.text size ≠ [] → v.text size' ≠ []
  | .long _, _, _, _, hle, h => fun hnil =>
      h (List.prefix_nil.mp (hnil ▸
        List.take_prefix_take_left (Nat.sub_le_sub_right hle 1)))
  | .string _, _, _, _, hle, h => fun hnil =>
      h (List.prefix_nil.mp (hnil ▸
        List.take_prefix_take_left (Nat.sub_le_sub_right hle 1)))
  | .array isPacked elements, size, size', hpos, hle, h => by
      intro hnil
      have hfits := (PhpValue.array isPacked elements).text_fits size hpos
      have hlength := List.length_pos_iff.mpr h
      have hloop : joinLoop comma (elements.texts isPacked 0) size ≠ [] :=
        fun hnone => h (stripSep_eq_nil_iff.mpr (.inl hnone))
      rcases stripSep_eq_nil_iff.mp hnil with hnone | hcomma
      · exact elements.joinLoop_ne_nil isPacked 0 hpos hle hloop hnone
      · -- a comma alone is printed with two bytes only
        have htwo := size_le_two_of_joinLoop hcomma
        obtain rfl : size = size' := by omega
        exact h hnil

theorem PhpElements.joinLoop_ne_nil (isPacked : Bool) :
    ∀ (es : PhpElements) (idx : ℕ) {size size' : ℕ},
      1 ≤ size → size ≤ size' →
        joinLoop comma (es.texts isPacked idx) size ≠ [] →
          joinLoop comma (es.texts isPacked idx) size' ≠ []
  | .nil, _, _, _, _, _, h => absurd rfl h
  | .undef rest, idx, _, _, hpos, hle, h => by
      rw [PhpElements.texts, joinLoop, if_pos rfl] at h ⊢
      exact rest.joinLoop_ne_nil isPacked (idx + 1) hpos hle h
  | .cons key value rest, idx, size, size', hpos, hle, h => by
      rw [PhpElements.texts, joinLoop] at h ⊢
      by_cases hnil' : elementText isPacked idx key value.text size' = []
      · have hnil : elementText isPacked idx key value.text size = [] := by
          by_contra hne
          exact elementText_ne_nil hpos hle value.text_ne_nil hne hnil'
        rw [if_pos hnil] at h
        rw [if_pos hnil']
        exact rest.joinLoop_ne_nil isPacked (idx + 1) hpos hle h
      · rw [if_neg hnil']
        split <;> simp [hnil']

end

/-! ## Keys that are left out -/

def PhpElements.first : PhpElements → Option (Option Bytes × PhpValue)
  | .nil => none
  | .undef rest => rest.first
  | .cons key value _ => some (key, value)

theorem head_stripSep {text : Bytes} {b : UInt8} (hb : b ≠ comma)
    (h : text.head? = some b) : (stripSep comma text).head? = some b := by
  obtain ⟨rest, rfl⟩ := List.head?_eq_some_iff.mp h
  by_cases hrest : rest = []
  · rw [hrest, stripSep, if_neg (by simpa using hb)]
    rfl
  · rw [← List.singleton_append, stripSep_append [b] hrest]
    rfl

theorem head_joinLoop_first {key : Option Bytes} {value : PhpValue}
    {b : UInt8} {size : ℕ} :
    ∀ (es : PhpElements) (idx : ℕ), es.first = some (key, value) →
      (∀ idx, (elementText false idx key value.text size).head? = some b) →
      (joinLoop comma (es.texts false idx) size).head? = some b
  | .nil, _, h, _ => nomatch h
  | .undef rest, idx, h, hhead => by
      rw [PhpElements.texts, joinLoop, if_pos rfl]
      exact head_joinLoop_first rest (idx + 1) h hhead
  | .cons _ _ rest, idx, h, hhead => by
      obtain ⟨rfl, rfl⟩ := Prod.mk.inj (Option.some.inj h)
      obtain ⟨more, htext⟩ := List.head?_eq_some_iff.mp (hhead idx)
      rw [PhpElements.texts, joinLoop, htext, if_neg (List.cons_ne_nil _ _)]
      split
      · rfl
      · rfl

theorem PhpValue.IsScalar.text_eq_take {v : PhpValue} (h : v.IsScalar)
    (size : ℕ) : v.text size = v.full.take (size - 1) := by
  cases v with
  | long n => rfl
  | string text => rfl
  | array isPacked elements => exact h.elim

/-- Wherever the first key is too long for the smaller size, and the value
does not begin as the key does, the smaller text is no beginning of the larger
one. -/
theorem not_isPrefix_of_key_left_out {es : PhpElements} {key : Bytes}
    {value : PhpValue} (hfirst : es.first = some (some key, value))
    (hscalar : value.IsScalar) {b c : UInt8}
    (hvalue : value.full.head? = some b) (hkey : key.head? = some c)
    (hne : b ≠ c) (hb : b ≠ comma) (hc : c ≠ comma) {size size' : ℕ}
    (htwo : 2 ≤ size)
    (hsize : size ≤ (key.take 255).length + 2)
    (hsize' : (key.take 255).length + 2 < size') :
    ¬ (PhpValue.array false es).text size <+:
      (PhpValue.array false es).text size' := by
  obtain ⟨bs, hbs⟩ := List.head?_eq_some_iff.mp hvalue
  obtain ⟨cs, rfl⟩ := List.head?_eq_some_iff.mp hkey
  have hsmall : ((PhpValue.array false es).text size).head? = some b := by
    refine head_stripSep hb (head_joinLoop_first es 0 hfirst fun idx => ?_)
    rw [elementText, if_neg (by simp)]
    simp only [keyText]
    rw [if_neg (by omega), hscalar.text_eq_take, hbs]
    obtain ⟨k, rfl⟩ : ∃ k, size = k + 2 := ⟨size - 2, by omega⟩
    rfl
  have hlarge : ((PhpValue.array false es).text size').head? = some c := by
    refine head_stripSep hc (head_joinLoop_first es 0 hfirst fun idx => ?_)
    rw [elementText, if_neg (by simp)]
    simp only [keyText]
    rw [if_pos hsize']
    rfl
  intro hprefix
  obtain ⟨more, hmore⟩ := hprefix
  obtain ⟨rest, hrest⟩ := List.head?_eq_some_iff.mp hsmall
  rw [← hmore, hrest, List.cons_append, List.head?_cons] at hlarge
  exact hne (Option.some.inj hlarge)

end Phpspy

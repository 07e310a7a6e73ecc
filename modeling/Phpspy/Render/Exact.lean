import Phpspy.Render.Text

/-!
# Arrays that just fit

How an array should be rendered, and when `sprint_zarray` does so, given that
the rendering fits the buffer.  With a byte to spare it always does.  Without,
the last element may lose its key, or a comma at the end of a value is taken
for a separator.
-/

namespace Phpspy

open ByteText BufferPrinting

/-! ## Renderings -/

def renderLabel (isPacked : Bool) (idx : ℕ) (key : Option Bytes) : Bytes :=
  if isPacked then decimal idx ++ lit "="
  else
    match key with
    | none => []
    | some text => text ++ lit "="

mutual

def PhpValue.render : PhpValue → Bytes
  | .long n => decimalInt n
  | .string text => text
  | .array isPacked elements =>
      List.intercalate [comma] (elements.renders isPacked 0)

def PhpElements.renders (isPacked : Bool) : ℕ → PhpElements → List Bytes
  | _, .nil => []
  | idx, .undef rest => rest.renders isPacked (idx + 1)
  | idx, .cons key value rest =>
      (renderLabel isPacked idx key ++ value.render) ::
        rest.renders isPacked (idx + 1)

end

mutual

/-- Keys have at most 255 bytes, and all elements have a rendering that is not
empty. -/
def PhpValue.Plain : PhpValue → Prop
  | .long _ => True
  | .string _ => True
  | .array isPacked elements =>
      elements.Plain ∧ [] ∉ elements.renders isPacked 0

def PhpElements.Plain : PhpElements → Prop
  | .nil => True
  | .undef rest => rest.Plain
  | .cons key value rest =>
      (∀ text, key = some text → text.length ≤ 255) ∧ value.Plain ∧
        rest.Plain

end

def PhpElements.IsEmpty : PhpElements → Prop
  | .nil => True
  | .undef rest => rest.IsEmpty
  | .cons _ _ _ => False

mutual

/-- An array whose rendering is not printed if it just fits: it ends with a
comma, or the last element has a string key and an empty value, or the value of
the last element is such an array. -/
def PhpValue.Spoiled : PhpValue → Prop
  | .long _ => False
  | .string _ => False
  | .array isPacked elements =>
      (PhpValue.array isPacked elements).render.getLast? = some comma ∨
        elements.LastSpoiled isPacked

def PhpElements.LastSpoiled (isPacked : Bool) : PhpElements → Prop
  | .nil => False
  | .undef rest => rest.LastSpoiled isPacked
  | .cons key value rest =>
      (¬ rest.IsEmpty ∧ rest.LastSpoiled isPacked) ∨
        (rest.IsEmpty ∧
          ((isPacked = false ∧ key ≠ none ∧ value.render = []) ∨
            value.Spoiled))

end

/-! ## Renderings and complete texts -/

theorem elementLabel_eq {isPacked : Bool} {idx : ℕ} {key : Option Bytes}
    (h : ∀ text, key = some text → text.length ≤ 255) :
    elementLabel isPacked idx key = renderLabel isPacked idx key := by
  unfold elementLabel renderLabel
  cases key with
  | none => rfl
  | some text => simp only [List.take_of_length_le (h text rfl)]

mutual

theorem PhpValue.full_eq_render : ∀ {v : PhpValue}, v.Plain →
    v.full = v.render
  | .long _, _ => rfl
  | .string _, _ => rfl
  | .array isPacked elements, ⟨hplain, hne⟩ => by
      have hfilter : (elements.renders isPacked 0).filter (· ≠ []) =
          elements.renders isPacked 0 := by
        refine List.filter_eq_self.mpr fun text htext => ?_
        have hused : text ≠ [] := fun hnil => hne (hnil ▸ htext)
        simpa using hused
      rw [PhpValue.full, joinFull, elements.filter_fulls isPacked 0 hplain,
        hfilter, PhpValue.render]

theorem PhpElements.filter_fulls (isPacked : Bool) :
    ∀ (idx : ℕ) (es : PhpElements), es.Plain →
      (es.fulls isPacked idx).filter (· ≠ []) =
        (es.renders isPacked idx).filter (· ≠ [])
  | _, .nil, _ => rfl
  | idx, .undef rest, h => by
      rw [PhpElements.fulls, PhpElements.renders,
        ← rest.filter_fulls isPacked (idx + 1) h]
      exact List.filter_cons_of_neg (by simp)
  | idx, .cons key value rest, ⟨hkey, hvalue, hrest⟩ => by
      rw [PhpElements.fulls, PhpElements.renders, elementLabel_eq hkey,
        PhpValue.full_eq_render hvalue, List.filter_cons, List.filter_cons,
        rest.filter_fulls isPacked (idx + 1) hrest]

end

theorem PhpValue.text_eq_render {v : PhpValue} (h : v.Plain) {size : ℕ}
    (hsize : v.render.length + 2 ≤ size) : v.text size = v.render := by
  rw [← PhpValue.full_eq_render h] at hsize ⊢
  exact v.text_complete size hsize

/-! ## Just enough room -/

theorem PhpElements.renders_eq_nil_iff (isPacked : Bool) (idx : ℕ)
    (es : PhpElements) : es.renders isPacked idx = [] ↔ es.IsEmpty := by
  cases es with
  | nil => simp [PhpElements.renders, PhpElements.IsEmpty]
  | undef rest =>
      rw [PhpElements.renders, PhpElements.IsEmpty]
      exact rest.renders_eq_nil_iff isPacked (idx + 1)
  | cons key value rest => simp [PhpElements.renders, PhpElements.IsEmpty]

theorem PhpElements.joinLoop_eq_nil (isPacked : Bool) :
    ∀ (idx : ℕ) (es : PhpElements), es.IsEmpty → ∀ size,
      joinLoop comma (es.texts isPacked idx) size = []
  | _, .nil, _, _ => rfl
  | idx, .undef rest, h, size => by
      rw [PhpElements.texts, joinLoop, if_pos rfl]
      exact rest.joinLoop_eq_nil isPacked (idx + 1) h size

theorem PhpElements.not_lastSpoiled (isPacked : Bool) :
    ∀ es : PhpElements, es.IsEmpty → ¬ es.LastSpoiled isPacked
  | .nil, _ => id
  | .undef rest, h => rest.not_lastSpoiled isPacked h

theorem stripSep_append_le (as bs : Bytes) :
    (stripSep comma (as ++ bs)).length ≤
      as.length + (stripSep comma bs).length := by
  by_cases hnil : bs = []
  · rw [hnil, List.append_nil]
    exact Nat.le_add_right_of_le (length_stripSep_le as)
  · rw [stripSep_append as hnil, List.length_append]

/-- An element that just fits has the label, and the value just fits behind
it, unless the value is empty behind a string key. -/
theorem elementText_exact {isPacked : Bool} {idx : ℕ} {key : Option Bytes}
    (hkey : ∀ text, key = some text → text.length ≤ 255) {value : Bytes}
    (hvalue : ¬ (isPacked = false ∧ key ≠ none ∧ value = []))
    (t : ℕ → Bytes) :
    elementText isPacked idx key t
        ((renderLabel isPacked idx key ++ value).length + 1) =
      renderLabel isPacked idx key ++ t (value.length + 1) := by
  unfold elementText renderLabel
  cases isPacked with
  | true =>
      simp only [if_true, labelText]
      rw [List.length_append, if_neg (by omega)]
      congr 2
      omega
  | false =>
      cases key with
      | none => rfl
      | some text =>
          have hne : value ≠ [] := fun hnil => hvalue ⟨rfl, nofun, hnil⟩
          have hpos := List.length_pos_iff.mpr hne
          have hlabel := length_append_equals text
          have hlength : (text ++ lit "=" ++ value).length =
              text.length + 1 + value.length := by
            rw [List.length_append, hlabel]
          simp only [Bool.false_eq_true, if_false, keyText,
            List.take_of_length_le (hkey text rfl)]
          rw [hlength, if_pos (by omega)]
          congr 2
          omega

/-- With just enough room for a key and an empty value, the key is left
out. -/
theorem elementText_dangling {idx : ℕ} {text : Bytes}
    (hkey : text.length ≤ 255) (t : ℕ → Bytes) :
    elementText false idx (some text) t ((text ++ lit "=").length + 1) =
      t ((text ++ lit "=").length + 1) := by
  have hlabel := length_append_equals text
  simp only [elementText, Bool.false_eq_true, if_false, keyText,
    List.take_of_length_le hkey]
  rw [if_neg (by omega)]

theorem elementText_dangling_lt {isPacked : Bool} {idx : ℕ}
    {key : Option Bytes} (hkey : ∀ text, key = some text → text.length ≤ 255)
    {value : PhpValue} (hvalue : value.Plain)
    (h : isPacked = false ∧ key ≠ none ∧ value.render = []) :
    (elementText isPacked idx key value.text
        ((renderLabel isPacked idx key ++ value.render).length + 1)).length <
      (renderLabel isPacked idx key ++ value.render).length := by
  obtain ⟨rfl, hsome, hnil⟩ := h
  cases key with
  | none => exact absurd rfl hsome
  | some text =>
      have hlabel := length_append_equals text
      have htext : value.text ((text ++ lit "=").length + 1) = [] := by
        rw [PhpValue.text_eq_render hvalue, hnil]
        rw [hnil, List.length_nil]
        omega
      simp only [renderLabel, Bool.false_eq_true, if_false, hnil,
        List.append_nil]
      rw [elementText_dangling (hkey text rfl), htext, List.length_nil]
      omega

theorem joinLoop_cons_exact {isPacked : Bool} {idx : ℕ} {key : Option Bytes}
    (hkey : ∀ text, key = some text → text.length ≤ 255) {value : PhpValue}
    (hvalue : value.Plain)
    (htext : renderLabel isPacked idx key ++ value.render ≠ [])
    (ts : List (ℕ → Bytes)) (tail : Bytes) :
    joinLoop comma (elementText isPacked idx key value.text :: ts)
        ((renderLabel isPacked idx key ++ value.render ++
          comma :: tail).length + 1) =
      renderLabel isPacked idx key ++ value.render ++
        comma :: joinLoop comma ts (tail.length + 1) := by
  have hcomplete := elementText_complete value.text_complete isPacked idx key
  rw [elementLabel_eq hkey, PhpValue.full_eq_render hvalue] at hcomplete
  generalize renderLabel isPacked idx key ++ value.render = text at *
  have hlength : (text ++ comma :: tail).length + 1 =
      text.length + 1 + (tail.length + 1) := by
    rw [List.length_append, List.length_cons]
    omega
  have hrest : text.length + 1 + (tail.length + 1) - text.length - 1 =
      tail.length + 1 := by
    omega
  rw [hlength, joinLoop, hcomplete _ (by omega), if_neg htext,
    if_neg (by omega), hrest]

theorem joinLoop_last {t : ℕ → Bytes} {ts : List (ℕ → Bytes)}
    (hrest : ∀ size, joinLoop comma ts size = []) {text : Bytes}
    (htext : text ≠ []) :
    (t (text.length + 1) = text →
      joinLoop comma (t :: ts) (text.length + 1) = text) ∧
    ((t (text.length + 1)).length < text.length →
      (stripSep comma (joinLoop comma (t :: ts) (text.length + 1))).length <
        text.length) := by
  constructor
  · intro heq
    rw [joinLoop, heq, if_neg htext, if_pos (by omega)]
  · intro hlt
    rw [joinLoop]
    by_cases hnil : t (text.length + 1) = []
    · rw [if_pos hnil, hrest]
      exact List.length_pos_iff.mpr htext
    · rw [if_neg hnil, if_neg (by omega), hrest, stripSep_append_sep]
      exact hlt

mutual

/-- With just enough room, a value is printed as it should, or less is. -/
theorem PhpValue.text_exact : ∀ {v : PhpValue}, v.Plain →
    (¬ v.Spoiled → v.text (v.render.length + 1) = v.render) ∧
      (v.Spoiled → (v.text (v.render.length + 1)).length < v.render.length)
  | .long _, _ =>
      ⟨fun _ => List.take_of_length_le le_rfl, False.elim⟩
  | .string _, _ =>
      ⟨fun _ => List.take_of_length_le le_rfl, False.elim⟩
  | .array isPacked elements, ⟨hplain, hne⟩ => by
      by_cases hempty : elements.IsEmpty
      · have hrenders := (elements.renders_eq_nil_iff isPacked 0).mpr hempty
        have hrender : (PhpValue.array isPacked elements).render = [] := by
          rw [PhpValue.render, hrenders, List.intercalate_nil]
        have htext : (PhpValue.array isPacked elements).text 1 = [] := by
          rw [PhpValue.text, joinText,
            elements.joinLoop_eq_nil isPacked 0 hempty]
          rfl
        rw [hrender]
        refine ⟨fun _ => htext, ?_⟩
        rintro (hlast | hlast)
        · rw [hrender] at hlast
          cases hlast
        · exact absurd hlast (elements.not_lastSpoiled isPacked hempty)
      · obtain ⟨hfine, hless⟩ :=
          elements.joinLoop_exact isPacked 0 hplain hne hempty
        refine ⟨fun hspoiled => ?_, fun hspoiled => ?_⟩
        · obtain ⟨hend, hlast⟩ := not_or.mp hspoiled
          rw [PhpValue.text, PhpValue.render, joinText, hfine hlast]
          exact if_neg hend
        · by_cases hlast : elements.LastSpoiled isPacked
          · exact hless hlast
          · have hend := hspoiled.resolve_right hlast
            rw [PhpValue.render] at hend
            rw [PhpValue.text, PhpValue.render, joinText, hfine hlast,
              stripSep, if_pos hend, List.length_dropLast]
            have hpos : 0 < (List.intercalate [comma]
                (elements.renders isPacked 0)).length := by
              refine List.length_pos_iff.mpr fun hnil => ?_
              rw [hnil] at hend
              cases hend
            omega

theorem PhpElements.joinLoop_exact (isPacked : Bool) :
    ∀ (idx : ℕ) {es : PhpElements}, es.Plain →
      [] ∉ es.renders isPacked idx → ¬ es.IsEmpty →
      (¬ es.LastSpoiled isPacked →
        joinLoop comma (es.texts isPacked idx)
            ((List.intercalate [comma] (es.renders isPacked idx)).length + 1) =
          List.intercalate [comma] (es.renders isPacked idx)) ∧
      (es.LastSpoiled isPacked →
        (stripSep comma (joinLoop comma (es.texts isPacked idx)
            ((List.intercalate [comma]
              (es.renders isPacked idx)).length + 1))).length <
          (List.intercalate [comma] (es.renders isPacked idx)).length)
  | _, .nil, _, _, hused => absurd trivial hused
  | idx, .undef rest, hplain, hne, hused => by
      rw [PhpElements.texts, PhpElements.renders, joinLoop, if_pos rfl]
      exact rest.joinLoop_exact isPacked (idx + 1) hplain hne hused
  | idx, .cons key value rest, ⟨hkey, hvalue, hplain⟩, hne, _ => by
      have htext : renderLabel isPacked idx key ++ value.render ≠ [] :=
        fun hnil => hne (hnil ▸ List.mem_cons_self)
      have hrest : [] ∉ rest.renders isPacked (idx + 1) :=
        fun hmem => hne (List.mem_cons_of_mem _ hmem)
      rw [PhpElements.texts, PhpElements.renders, PhpElements.LastSpoiled]
      by_cases hempty : rest.IsEmpty
      · rw [(rest.renders_eq_nil_iff isPacked (idx + 1)).mpr hempty,
          List.intercalate_singleton]
        obtain ⟨hfine, hless⟩ := joinLoop_last
          (t := elementText isPacked idx key value.text)
          (rest.joinLoop_eq_nil isPacked (idx + 1) hempty) htext
        by_cases hdangling : isPacked = false ∧ key ≠ none ∧ value.render = []
        · refine ⟨fun h => absurd (.inr ⟨hempty, .inl hdangling⟩) h,
            fun _ => hless ?_⟩
          exact elementText_dangling_lt hkey hvalue hdangling
        · obtain ⟨hvfine, hvless⟩ := PhpValue.text_exact hvalue
          have hexact : elementText isPacked idx key value.text
              ((renderLabel isPacked idx key ++ value.render).length + 1) =
                renderLabel isPacked idx key ++
                  value.text (value.render.length + 1) :=
            elementText_exact hkey hdangling value.text
          constructor
          · intro hspoiled
            refine hfine ?_
            rw [hexact, hvfine fun h => hspoiled (.inr ⟨hempty, .inr h⟩)]
          · rintro (⟨hused, -⟩ | ⟨-, h | h⟩)
            · exact absurd hempty hused
            · exact absurd h hdangling
            · refine hless ?_
              rw [hexact, List.length_append, List.length_append]
              exact Nat.add_lt_add_left (hvless h) _
      · have hrenders : rest.renders isPacked (idx + 1) ≠ [] :=
          fun hnil => hempty
            ((rest.renders_eq_nil_iff isPacked (idx + 1)).mp hnil)
        obtain ⟨hfine, hless⟩ :=
          rest.joinLoop_exact isPacked (idx + 1) hplain hrest hempty
        rw [List.intercalate_cons_of_ne_nil hrenders, List.append_assoc,
          List.singleton_append]
        generalize List.intercalate [comma]
          (rest.renders isPacked (idx + 1)) = tail at hfine hless ⊢
        rw [joinLoop_cons_exact hkey hvalue htext]
        constructor
        · intro hspoiled
          rw [hfine fun h => hspoiled (.inl ⟨hempty, h⟩)]
        · rintro (⟨-, h⟩ | ⟨h, -⟩)
          · have hle := stripSep_append_le
              (renderLabel isPacked idx key ++ value.render ++ [comma])
              (joinLoop comma (rest.texts isPacked (idx + 1))
                (tail.length + 1))
            rw [List.append_assoc, List.singleton_append] at hle
            refine hle.trans_lt ?_
            have hlt := hless h
            simp only [List.length_append, List.length_cons,
              List.length_nil] at hlt ⊢
            omega
          · exact absurd h hempty


end

/-! ## The rendering of an array -/

/-- If the rendering of an array fits the buffer, then `sprint_zarray` prints
it, unless it just fits and the array is spoiled. -/
theorem ArrayImage.sprintZarray_renders_iff {mem : Remote} {rzarray : ℕ}
    (a : ArrayImage mem rzarray) (floatText : ℕ → Bytes)
    (hplain : a.value.Plain) {size : ℕ}
    (hsize : a.value.render.length + 1 ≤ size) :
    (∃ enough, ∀ fuel ≥ enough, PrintsAt
        (sprintZarray mem floatText fuel rzarray) size a.value.render) ↔
      ¬ (a.value.render.length + 1 = size ∧ a.value.Spoiled) := by
  rw [a.printsAt_iff floatText (by omega)]
  rcases Nat.eq_or_lt_of_le hsize with rfl | hroom
  · obtain ⟨hfine, hless⟩ := PhpValue.text_exact hplain
    constructor
    · rintro heq ⟨-, hspoiled⟩
      have hlt := hless hspoiled
      rw [heq] at hlt
      exact lt_irrefl _ hlt
    · intro h
      exact hfine fun hspoiled => h ⟨rfl, hspoiled⟩
  · constructor
    · rintro - ⟨heq, -⟩
      omega
    · intro _
      exact PhpValue.text_eq_render hplain hroom

/-- `["k" => ""]` -/
def emptyValueImage : Remote :=
  .ofBlocks [
    (0x1000, ZendArray.image ⟨0, 2 ^ 32 - 8, 0x2000, 1⟩),
    (0x2000, Bucket.image ⟨⟨0x3000, zvalTypeString, 0⟩, 0, 0x3100⟩),
    (0x3000, stringImage []),
    (0x3100, stringImage (lit "k"))]

def emptyValue : ArrayImage emptyValueImage 0x1000 where
  isPacked := false
  elements := .cons (some (lit "k")) (.string []) .nil
  holds := by
    refine ⟨rfl, _, _, rfl, by decide, rfl, ?_, ⟨rfl, ?_⟩, rfl⟩
    · refine ⟨rfl, by decide, ?_, by decide⟩
      exact .of_bytes (fun _ _ => rfl) (by decide) (by decide) (by decide)
        (by decide) (by decide)
    · exact .of_bytes (fun _ _ => rfl) (by decide) (by decide) (by decide)
        (by decide) (by decide)

theorem emptyValue_plain : emptyValue.value.Plain := by
  refine ⟨⟨?_, trivial, trivial⟩, by decide⟩
  rintro _ ⟨⟩
  decide

/-- With a byte to spare, `k=` is printed. -/
theorem emptyValue_renders :
    ∃ enough, ∀ fuel ≥ enough, PrintsAt
      (sprintZarray emptyValueImage (fun _ => []) fuel 0x1000) 4 (lit "k=") :=
  (emptyValue.sprintZarray_renders_iff (fun _ => []) emptyValue_plain
    (by decide)).mpr fun h => absurd h.1 (by decide)

/-- Without, nothing is printed. -/
theorem emptyValue_prints_nothing :
    emptyValue.value.Plain ∧ emptyValue.value.render = lit "k=" ∧
      emptyValue.value.render.length ≤ 3 - 1 ∧
      (sprintZarray emptyValueImage (fun _ => []) 2 0x1000
        (fun _ => 0) 0 3).map Prod.snd = some (.ok 0) :=
  ⟨emptyValue_plain, by decide, by decide, rfl⟩

end Phpspy

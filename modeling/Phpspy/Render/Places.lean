import Phpspy.Render.Truncation

/-!
# The places of the bytes that are printed

Every byte that is printed of an array is a byte of its complete text.  This
module keeps the place that it has there.  An array is orderly at a size
exactly if the places of what is printed are the first ones, so that nothing is
shown in the place of something else.
-/

namespace Phpspy

open ByteText BufferPrinting

/-- A byte that is printed and its place in the complete text. -/
abbrev PlacedByte := UInt8 × ℕ

/-! ## Texts with places -/

def stripPlaced (shown : List PlacedByte) : List PlacedByte :=
  shown.take (stripSep comma (shown.map Prod.fst)).length

/-- What is printed of an element whose complete text begins at a place, from
what is printed of its value. -/
def elementPlaced (isPacked : Bool) (idx : ℕ) (key : Option Bytes)
    (value : ℕ → ℕ → List PlacedByte) (start size : ℕ) : List PlacedByte :=
  let label := elementLabel isPacked idx key
  if LabelFits isPacked idx key size then
    label.zipIdx start ++ value (start + label.length) (size - label.length)
  else if isPacked then []
  else value (start + label.length) size

mutual

/-- What is printed of a value whose complete text begins at a place. -/
def PhpValue.placed : PhpValue → ℕ → ℕ → List PlacedByte
  | .long n => fun start size =>
      ((decimalInt n).zipIdx start).take (size - 1)
  | .string text => fun start size => (text.zipIdx start).take (size - 1)
  | .array isPacked elements => fun start size =>
      stripPlaced (elements.placed isPacked 0 start size)

def PhpElements.placed (isPacked : Bool) :
    PhpElements → ℕ → ℕ → ℕ → List PlacedByte
  | .nil, _, _, _ => []
  | .undef rest, idx, start, size =>
      rest.placed isPacked (idx + 1) start size
  | .cons key value rest, idx, start, size =>
      let text := elementLabel isPacked idx key ++ value.full
      let stop := start + text.length
      let shown := elementPlaced isPacked idx key value.placed start size
      if shown = [] then
        rest.placed isPacked (idx + 1) (if text = [] then start else stop + 1)
          size
      else if size - shown.length < 2 then shown
      else
        shown ++ (comma, stop) ::
          rest.placed isPacked (idx + 1) (stop + 1) (size - shown.length - 1)

end

/-! ## Commas at the end -/

theorem map_stripPlaced (shown : List PlacedByte) :
    (stripPlaced shown).map Prod.fst =
      stripSep comma (shown.map Prod.fst) := by
  rw [stripPlaced, List.map_take]
  exact (List.prefix_iff_eq_take.mp (stripSep_isPrefix _)).symm

theorem stripPlaced_isPrefix (shown : List PlacedByte) :
    stripPlaced shown <+: shown :=
  List.take_prefix _ _

theorem stripPlaced_append (as : List PlacedByte) {bs : List PlacedByte}
    (h : bs ≠ []) : stripPlaced (as ++ bs) = as ++ stripPlaced bs := by
  have hmap : bs.map Prod.fst ≠ [] := by simpa using h
  rw [stripPlaced, List.map_append, stripSep_append _ hmap,
    List.length_append, List.length_map, List.take_append, stripPlaced,
    Nat.add_sub_cancel_left, List.take_of_length_le (Nat.le_add_right _ _)]

theorem stripPlaced_append_comma (as : List PlacedByte) (place : ℕ) :
    stripPlaced (as ++ [(comma, place)]) = as := by
  rw [stripPlaced, List.map_append, List.map_singleton, stripSep_append_sep,
    List.length_map, List.take_left']
  rfl

theorem stripPlaced_comma_isPrefix_iff {as bs cs : List PlacedByte}
    {place : ℕ} :
    stripPlaced (as ++ (comma, place) :: bs) <+: as ++ (comma, place) :: cs ↔
      stripPlaced bs <+: cs := by
  by_cases hnil : bs = []
  · rw [hnil, stripPlaced_append_comma]
    exact iff_of_true (List.prefix_append _ _) List.nil_prefix
  · rw [List.append_cons, List.append_cons as _ cs, stripPlaced_append _ hnil,
      List.prefix_append_right_inj]

theorem stripPlaced_eq_nil_iff {shown : List PlacedByte} :
    stripPlaced shown = [] ↔ stripSep comma (shown.map Prod.fst) = [] := by
  rw [← map_stripPlaced, List.map_eq_nil_iff]

/-! ## The bytes are those that are printed -/

theorem map_elementPlaced {value : ℕ → ℕ → List PlacedByte} {t : ℕ → Bytes}
    (h : ∀ start size, (value start size).map Prod.fst = t size)
    (isPacked : Bool) (idx : ℕ) (key : Option Bytes) (start size : ℕ) :
    (elementPlaced isPacked idx key value start size).map Prod.fst =
      elementText isPacked idx key t size := by
  rw [elementPlaced]
  by_cases hfits : LabelFits isPacked idx key size
  · simp only [if_pos hfits, List.map_append, List.zipIdx_map_fst, h]
    rw [elementText_of_labelFits hfits]
  · simp only [if_neg hfits]
    rw [elementText_of_not_labelFits hfits]
    split
    · rfl
    · exact h _ _

mutual

theorem PhpValue.map_placed : ∀ (v : PhpValue) (start size : ℕ),
    (v.placed start size).map Prod.fst = v.text size
  | .long _, _, _ => by
      rw [PhpValue.placed, List.map_take, List.zipIdx_map_fst]
      rfl
  | .string _, _, _ => by
      rw [PhpValue.placed, List.map_take, List.zipIdx_map_fst]
      rfl
  | .array isPacked elements, start, size => by
      rw [PhpValue.placed, map_stripPlaced,
        elements.map_placed isPacked 0 start size]
      rfl

theorem PhpElements.map_placed (isPacked : Bool) :
    ∀ (es : PhpElements) (idx start size : ℕ),
      (es.placed isPacked idx start size).map Prod.fst =
        joinLoop comma (es.texts isPacked idx) size
  | .nil, _, _, _ => rfl
  | .undef rest, idx, start, size => by
      rw [PhpElements.placed, PhpElements.texts, joinLoop, if_pos rfl]
      exact rest.map_placed isPacked (idx + 1) start size
  | .cons key value rest, idx, start, size => by
      have hshown :=
        map_elementPlaced value.map_placed isPacked idx key start size
      have hlength := congrArg List.length hshown
      rw [List.length_map] at hlength
      have hnil := congrArg (· = []) hshown
      simp only [List.map_eq_nil_iff] at hnil
      rw [PhpElements.placed, PhpElements.texts, joinLoop]
      simp only [hnil, hlength]
      split_ifs
      · exact rest.map_placed isPacked (idx + 1) _ size
      · exact rest.map_placed isPacked (idx + 1) _ size
      · exact hshown
      · rw [List.map_append, List.map_cons, hshown,
          rest.map_placed isPacked (idx + 1)]

end

/-! ## The places are those in the complete text -/

theorem elementPlaced_sublist {value : ℕ → ℕ → List PlacedByte} {full : Bytes}
    (h : ∀ start size, (value start size).Sublist (full.zipIdx start))
    (isPacked : Bool) (idx : ℕ) (key : Option Bytes) (start size : ℕ) :
    (elementPlaced isPacked idx key value start size).Sublist
      ((elementLabel isPacked idx key ++ full).zipIdx start) := by
  rw [elementPlaced, List.zipIdx_append]
  split_ifs
  · exact (h _ _).append_left _
  · exact List.nil_sublist _
  · exact (h _ _).trans (List.sublist_append_right _ _)

theorem stripPlaced_sublist {shown : List PlacedByte} {texts : List Bytes}
    {start : ℕ} (h : shown.Sublist ((joinEnds comma texts).zipIdx start)) :
    (stripPlaced shown).Sublist ((joinFull comma texts).zipIdx start) := by
  have hcases : (joinEnds comma texts = [] ∧ joinFull comma texts = []) ∨
      joinEnds comma texts = joinFull comma texts ++ [comma] :=
    joinEnds_eq texts
  rcases hcases with ⟨hends, hfull⟩ | hends
  · rw [hends] at h
    rw [hfull]
    exact (stripPlaced_isPrefix shown).sublist.trans h
  · rw [hends, List.zipIdx_append] at h
    obtain ⟨as, bs, rfl, has, hbs⟩ := List.sublist_append_iff.mp h
    rcases List.sublist_singleton.mp hbs with rfl | rfl
    · rw [List.append_nil]
      exact (stripPlaced_isPrefix as).sublist.trans has
    · rw [stripPlaced_append_comma]
      exact has

theorem PhpElements.placed_cons_sublist {isPacked : Bool} {key : Option Bytes}
    {value : PhpValue} {rest : PhpElements} {idx start size : ℕ}
    {places : List PlacedByte} {behind : Bytes}
    (htext : elementLabel isPacked idx key ++ value.full ≠ [])
    (hshown : (elementPlaced isPacked idx key value.placed start
      size).Sublist places)
    (hrest : ∀ start size, (rest.placed isPacked (idx + 1) start size).Sublist
      (behind.zipIdx start)) :
    ((PhpElements.cons key value rest).placed isPacked idx start size).Sublist
      (places ++ (comma :: behind).zipIdx
        (start + (elementLabel isPacked idx key ++ value.full).length)) := by
  rw [PhpElements.placed, List.zipIdx_cons]
  simp only [if_neg htext]
  split_ifs
  · exact (hrest _ _).trans
      ((List.sublist_cons_self _ _).trans (List.sublist_append_right _ _))
  · exact hshown.trans (List.sublist_append_left _ _)
  · exact hshown.append ((hrest _ _).cons_cons _)

mutual

theorem PhpValue.placed_sublist : ∀ (v : PhpValue) (start size : ℕ),
    (v.placed start size).Sublist (v.full.zipIdx start)
  | .long _, _, _ => List.take_sublist _ _
  | .string _, _, _ => List.take_sublist _ _
  | .array isPacked elements, start, size =>
      stripPlaced_sublist (elements.placed_sublist isPacked 0 start size)

theorem PhpElements.placed_sublist (isPacked : Bool) :
    ∀ (es : PhpElements) (idx start size : ℕ),
      (es.placed isPacked idx start size).Sublist
        ((joinEnds comma (es.fulls isPacked idx)).zipIdx start)
  | .nil, _, _, _ => List.nil_sublist _
  | .undef rest, idx, start, size => by
      rw [PhpElements.placed, PhpElements.fulls, joinEnds, if_pos rfl]
      exact rest.placed_sublist isPacked (idx + 1) start size
  | .cons key value rest, idx, start, size => by
      have hshown :=
        elementPlaced_sublist value.placed_sublist isPacked idx key start size
      have hrest := rest.placed_sublist isPacked (idx + 1)
      rw [PhpElements.fulls, joinEnds]
      by_cases htext : elementLabel isPacked idx key ++ value.full = []
      · -- nothing is printed for an empty text
        rw [htext] at hshown
        rw [PhpElements.placed, if_pos htext]
        simp only [List.sublist_nil.mp hshown, if_true, if_pos htext]
        exact hrest start size
      · rw [if_neg htext, List.zipIdx_append]
        exact PhpElements.placed_cons_sublist htext hshown hrest

end

theorem PhpValue.placed_complete (v : PhpValue) {start size : ℕ}
    (h : v.full.length + 2 ≤ size) :
    v.placed start size = v.full.zipIdx start := by
  refine (v.placed_sublist start size).eq_of_length ?_
  rw [← List.length_map, v.map_placed, v.text_complete size h,
    List.length_zipIdx]

theorem elementPlaced_complete {isPacked : Bool} {idx : ℕ}
    {key : Option Bytes} {value : PhpValue} {start size : ℕ}
    (h : (elementLabel isPacked idx key ++ value.full).length + 2 ≤ size) :
    elementPlaced isPacked idx key value.placed start size =
      (elementLabel isPacked idx key ++ value.full).zipIdx start := by
  refine (elementPlaced_sublist value.placed_sublist isPacked idx key start
    size).eq_of_length ?_
  rw [← List.length_map, map_elementPlaced value.map_placed,
    elementText_complete value.text_complete isPacked idx key size h,
    List.length_zipIdx]

/-! ## The first places -/

theorem place_eq_of_isPrefix {as more : List PlacedByte} {b : UInt8}
    {place start : ℕ} {text : Bytes}
    (h : as ++ (b, place) :: more <+: text.zipIdx start) :
    place = start + as.length := by
  obtain ⟨rest, hrest⟩ := h
  have hget := congrArg (·[as.length]?) hrest
  simp only [List.append_assoc, List.cons_append, List.getElem?_zipIdx] at hget
  rw [List.getElem?_append_right le_rfl, Nat.sub_self] at hget
  obtain ⟨c, -, hc⟩ := Option.map_eq_some_iff.mp hget.symm
  exact (Prod.mk.inj hc).2.symm

theorem eq_nil_of_isPrefix {shown : List PlacedByte} {start : ℕ} {text : Bytes}
    (hlater : ∀ b ∈ shown, start < b.2) (h : shown <+: text.zipIdx start) :
    shown = [] := by
  cases shown with
  | nil => rfl
  | cons b more =>
      obtain ⟨b, place⟩ := b
      have hplace : place = start + ([] : List PlacedByte).length :=
        place_eq_of_isPrefix h
      have hlt : start < place := hlater _ List.mem_cons_self
      simp at hplace
      omega

theorem isPrefix_zipIdx_append_iff {shown : List PlacedByte} {start : ℕ}
    {text : Bytes} (h : shown.Sublist (text.zipIdx start)) (behind : Bytes) :
    shown <+: (text ++ behind).zipIdx start ↔ shown <+: text.zipIdx start := by
  rw [List.zipIdx_append]
  constructor
  · intro hprefix
    exact List.prefix_of_prefix_length_le hprefix (List.prefix_append _ _)
      h.length_le
  · intro hprefix
    exact hprefix.trans (List.prefix_append _ _)

/-- Behind a place that is left open, nothing is in place. -/
theorem PhpElements.eq_nil_of_placed_isPrefix {isPacked : Bool}
    (es : PhpElements) {idx start start' size : ℕ} {text : Bytes}
    (hlt : start < start')
    (h : stripPlaced (es.placed isPacked idx start' size) <+:
      text.zipIdx start) :
    stripPlaced (es.placed isPacked idx start' size) = [] := by
  refine eq_nil_of_isPrefix (fun b hb => hlt.trans_le ?_) h
  exact List.le_snd_of_mem_zipIdx ((es.placed_sublist isPacked idx _ _).mem
    ((stripPlaced_isPrefix _).subset hb))

theorem PhpValue.placed_length_lt (v : PhpValue) (start : ℕ) {size : ℕ}
    (hpos : 1 ≤ size) : (v.placed start size).length < size := by
  rw [← List.length_map, v.map_placed]
  exact v.text_fits size hpos

theorem stripPlaced_eq_self {shown : List PlacedByte}
    (h : stripSep comma (shown.map Prod.fst) = shown.map Prod.fst) :
    stripPlaced shown = shown := by
  rw [stripPlaced, h, List.length_map, List.take_length]

/-- What is printed of an array does not end with a comma if it fills the
buffer: a comma that was removed leaves a byte. -/
theorem stripSep_text_array {isPacked : Bool} {elements : PhpElements}
    {size : ℕ} (hpos : 1 ≤ size)
    (h : ((PhpValue.array isPacked elements).text size).length + 1 = size) :
    stripSep comma ((PhpValue.array isPacked elements).text size) =
      (PhpValue.array isPacked elements).text size := by
  have hfits : (joinLoop comma (elements.texts isPacked 0) size).length <
      size := Fits.joinLoop (elements.texts_fit isPacked 0) size hpos
  rw [PhpValue.text, joinText] at h ⊢
  generalize joinLoop comma (elements.texts isPacked 0) size = text at *
  by_cases hlast : text.getLast? = some comma
  · have hne : text ≠ [] := by
      rintro rfl
      cases hlast
    have hlength := List.length_pos_iff.mpr hne
    rw [stripSep, if_pos hlast, List.length_dropLast] at h
    omega
  · have hself : stripSep comma text = text := if_neg hlast
    rw [hself, hself]

theorem stripSep_elementLabel (isPacked : Bool) (idx : ℕ)
    (key : Option Bytes) :
    stripSep comma (elementLabel isPacked idx key) =
      elementLabel isPacked idx key := by
  have hequals : ∀ text : Bytes, stripSep comma (text ++ lit "=") =
      text ++ lit "=" := by
    intro text
    rw [stripSep_append text (by decide)]
    rfl
  cases isPacked with
  | true => exact hequals _
  | false =>
      cases key with
      | none => rfl
      | some text => exact hequals _

theorem stripPlaced_array {isPacked packed : Bool} {elements : PhpElements}
    {idx start start' size : ℕ} {key : Option Bytes} (hpos : 1 ≤ size)
    (h : ((PhpValue.array packed elements).placed start' size).length + 1 =
      size) :
    stripPlaced ((elementLabel isPacked idx key).zipIdx start ++
        (PhpValue.array packed elements).placed start' size) =
      (elementLabel isPacked idx key).zipIdx start ++
        (PhpValue.array packed elements).placed start' size := by
  refine stripPlaced_eq_self ?_
  rw [← List.length_map, PhpValue.map_placed] at h
  rw [List.map_append, List.zipIdx_map_fst, PhpValue.map_placed]
  by_cases hnil : (PhpValue.array packed elements).text size = []
  · rw [hnil, List.append_nil, stripSep_elementLabel]
  · rw [stripSep_append _ hnil, stripSep_text_array hpos h]

theorem PhpValue.IsScalar.placed_isPrefix {v : PhpValue} (h : v.IsScalar)
    (start size : ℕ) : v.placed start size <+: v.full.zipIdx start := by
  cases v with
  | long n => exact List.take_prefix _ _
  | string text => exact List.take_prefix _ _
  | array isPacked elements => exact h.elim

/-! ## Elements that are cut -/

section Cut

variable {isPacked : Bool} {key : Option Bytes} {value : PhpValue}
  {rest : PhpElements} {idx start size : ℕ}

/-- If the label does not fit, then all that is printed from here on belongs
behind it. -/
theorem PhpElements.lt_place_of_not_labelFits (hpos : 1 ≤ size)
    (hfits : ¬ LabelFits isPacked idx key size) :
    ∀ b ∈ (PhpElements.cons key value rest).placed isPacked idx start size,
      start < b.2 := by
  have hlabel := List.length_pos_iff.mpr (elementLabel_ne_nil hpos hfits)
  have htext : elementLabel isPacked idx key ++ value.full ≠ [] := by
    simp [elementLabel_ne_nil hpos hfits]
  have hshown :
      (elementPlaced isPacked idx key value.placed start size).Sublist
        (value.full.zipIdx
          (start + (elementLabel isPacked idx key).length)) := by
    rw [elementPlaced]
    simp only [if_neg hfits]
    split
    · exact List.nil_sublist _
    · exact value.placed_sublist _ _
  intro b hb
  have hmem := (PhpElements.placed_cons_sublist htext hshown
    (rest.placed_sublist isPacked (idx + 1))).mem hb
  rcases List.mem_append.mp hmem with hmem | hmem
  · have := List.le_snd_of_mem_zipIdx hmem
    omega
  · have := List.le_snd_of_mem_zipIdx hmem
    rw [List.length_append] at this
    omega

theorem label_placed_isPrefix_iff (behind : Bytes) (size' : ℕ) :
    (elementLabel isPacked idx key).zipIdx start ++
        value.placed (start + (elementLabel isPacked idx key).length) size' <+:
      (elementLabel isPacked idx key ++ value.full ++ behind).zipIdx start ↔
    value.placed (start + (elementLabel isPacked idx key).length) size' <+:
      value.full.zipIdx (start + (elementLabel isPacked idx key).length) := by
  rw [List.append_assoc, List.zipIdx_append, List.prefix_append_right_inj]
  exact isPrefix_zipIdx_append_iff (value.placed_sublist _ _) behind

theorem label_stripPlaced_isPrefix_iff (behind : Bytes) {size' : ℕ}
    (hpos : 1 ≤ size')
    (hfull : (value.placed (start + (elementLabel isPacked idx key).length)
      size').length + 1 = size') :
    stripPlaced ((elementLabel isPacked idx key).zipIdx start ++
        value.placed (start + (elementLabel isPacked idx key).length) size') <+:
      (elementLabel isPacked idx key ++ value.full ++ behind).zipIdx start ↔
    (elementLabel isPacked idx key).zipIdx start ++
        value.placed (start + (elementLabel isPacked idx key).length) size' <+:
      (elementLabel isPacked idx key ++ value.full ++ behind).zipIdx start := by
  by_cases hscalar : value.IsScalar
  · refine ⟨fun _ => ?_, (stripPlaced_isPrefix _).trans⟩
    exact (label_placed_isPrefix_iff behind size').mpr
      (hscalar.placed_isPrefix _ _)
  · cases value with
    | long n => exact absurd trivial hscalar
    | string text => exact absurd trivial hscalar
    | array packed elements => rw [stripPlaced_array hpos hfull]

theorem PhpElements.joinBehind_eq (start : ℕ) :
    joinBehind comma (elementText isPacked idx key value.text)
        (rest.texts isPacked (idx + 1)) size =
      if elementPlaced isPacked idx key value.placed start size = [] then
        joinLoop comma (rest.texts isPacked (idx + 1)) size
      else if size - (elementPlaced isPacked idx key value.placed start
          size).length < 2 then []
      else joinLoop comma (rest.texts isPacked (idx + 1))
        (size - (elementPlaced isPacked idx key value.placed start
          size).length - 1) := by
  rw [joinBehind, ← map_elementPlaced value.map_placed isPacked idx key start,
    List.length_map]
  simp only [List.map_eq_nil_iff]

/-- An element that is cut is in place with those behind it exactly if nothing
is printed, or its label fits, its value is orderly and nothing is printed
behind it. -/
theorem PhpElements.placed_cut_isPrefix_iff (hpos : 1 ≤ size)
    (hvalue : ∀ start size, 1 ≤ size →
      (value.placed start size <+: value.full.zipIdx start ↔
        value.Orderly size))
    (htext : elementLabel isPacked idx key ++ value.full ≠ [])
    (hcut : size < (elementLabel isPacked idx key ++ value.full).length + 2)
    (behind : Bytes) :
    stripPlaced
        ((PhpElements.cons key value rest).placed isPacked idx start size) <+:
      (elementLabel isPacked idx key ++ value.full ++ behind).zipIdx start ↔
    stripSep comma (joinLoop comma
        ((PhpElements.cons key value rest).texts isPacked idx) size) = [] ∨
      (LabelFits isPacked idx key size ∧
        value.Orderly (size - (elementLabel isPacked idx key).length) ∧
        joinBehind comma (elementText isPacked idx key value.text)
          (rest.texts isPacked (idx + 1)) size = []) := by
  rw [← PhpElements.map_placed isPacked _ idx start, ← stripPlaced_eq_nil_iff]
  by_cases hnothing : stripPlaced
      ((PhpElements.cons key value rest).placed isPacked idx start size) = []
  · exact iff_of_true (hnothing ▸ List.nil_prefix) (.inl hnothing)
  rw [or_iff_right hnothing]
  by_cases hfits : LabelFits isPacked idx key size
  swap
  · refine iff_of_false (fun hprefix => hnothing ?_) fun h => hfits h.1
    exact eq_nil_of_isPrefix (fun b hb => lt_place_of_not_labelFits hpos hfits b
      ((stripPlaced_isPrefix _).subset hb)) hprefix
  have hroom := hfits.1
  have hshown : elementPlaced isPacked idx key value.placed start size =
      (elementLabel isPacked idx key).zipIdx start ++
        value.placed (start + (elementLabel isPacked idx key).length)
          (size - (elementLabel isPacked idx key).length) :=
    if_pos hfits
  rw [and_iff_right hfits, ← hvalue
      (start + (elementLabel isPacked idx key).length) _ (by omega),
    ← label_placed_isPrefix_iff behind, ← hshown, joinBehind_eq start]
  rw [PhpElements.placed] at hnothing ⊢
  simp only [if_neg htext] at hnothing ⊢
  by_cases hnil : elementPlaced isPacked idx key value.placed start size = []
  · -- the element prints nothing, but one behind it does
    rw [if_pos hnil] at hnothing
    rw [if_pos hnil, if_pos hnil]
    refine iff_of_false (fun hprefix => hnothing ?_) fun h => hnothing ?_
    · exact rest.eq_nil_of_placed_isPrefix (by omega) hprefix
    · rw [stripPlaced_eq_nil_iff, PhpElements.map_placed, h.2]
      rfl
  rw [if_neg hnil, if_neg hnil]
  by_cases hbreak : size - (elementPlaced isPacked idx key value.placed start
      size).length < 2
  · -- the element fills the buffer
    rw [if_pos hbreak, if_pos hbreak, and_iff_left rfl, hshown]
    rw [hshown, List.length_append, List.length_zipIdx] at hbreak
    have hlength := value.placed_length_lt
      (start + (elementLabel isPacked idx key).length)
      (Nat.sub_pos_of_lt hroom)
    exact label_stripPlaced_isPrefix_iff behind (by omega) (by omega)
  · -- there is room behind the element
    rw [if_neg hbreak, if_neg hbreak,
      ← PhpElements.map_placed isPacked rest (idx + 1)
        (start + (elementLabel isPacked idx key ++ value.full).length + 1),
      List.map_eq_nil_iff]
    by_cases hrest : rest.placed isPacked (idx + 1)
        (start + (elementLabel isPacked idx key ++ value.full).length + 1)
        (size - (elementPlaced isPacked idx key value.placed start
          size).length - 1) = []
    · rw [hrest, stripPlaced_append_comma, and_iff_left rfl]
    · refine iff_of_false (fun hprefix => ?_) fun h => hrest h.2
      rw [List.append_cons, stripPlaced_append _ hrest, List.append_assoc,
        List.singleton_append] at hprefix
      have hplace := place_eq_of_isPrefix hprefix
      omega

end Cut

/-! ## Orderly values are those in place -/

mutual

/-- A value is orderly at a size exactly if the places of what is printed are
the first ones of its complete text. -/
theorem PhpValue.placed_isPrefix_iff : ∀ (v : PhpValue) (start size : ℕ),
    1 ≤ size →
      (v.placed start size <+: v.full.zipIdx start ↔ v.Orderly size)
  | .long _, _, _, _ => iff_of_true (List.take_prefix _ _) trivial
  | .string _, _, _, _ => iff_of_true (List.take_prefix _ _) trivial
  | .array isPacked elements, start, size, hpos => by
      have hplaced := elements.placed_sublist isPacked 0 start size
      have hiff := elements.placed_isPrefix_iff isPacked 0 start size hpos
      rw [PhpValue.placed, PhpValue.full, PhpValue.Orderly, ← hiff]
      have hcases : (joinEnds comma (elements.fulls isPacked 0) = [] ∧
            joinFull comma (elements.fulls isPacked 0) = []) ∨
          joinEnds comma (elements.fulls isPacked 0) =
            joinFull comma (elements.fulls isPacked 0) ++ [comma] :=
        joinEnds_eq _
      rcases hcases with ⟨hends, hfull⟩ | hends
      · rw [hends, hfull]
      · rw [hends, isPrefix_zipIdx_append_iff (stripPlaced_sublist hplaced)]

theorem PhpElements.placed_isPrefix_iff (isPacked : Bool) :
    ∀ (es : PhpElements) (idx start size : ℕ), 1 ≤ size →
      (stripPlaced (es.placed isPacked idx start size) <+:
        (joinEnds comma (es.fulls isPacked idx)).zipIdx start ↔
          es.Orderly isPacked idx size)
  | .nil, _, _, _, _ => iff_of_true List.prefix_rfl trivial
  | .undef rest, idx, start, size, hpos => by
      rw [PhpElements.placed, PhpElements.fulls, PhpElements.Orderly, joinEnds,
        if_pos rfl]
      exact rest.placed_isPrefix_iff isPacked (idx + 1) start size hpos
  | .cons key value rest, idx, start, size, hpos => by
      rw [PhpElements.fulls, PhpElements.Orderly, joinEnds]
      by_cases hfull : (elementLabel isPacked idx key ++
          value.full).length + 2 ≤ size
      · have hrest := rest.placed_isPrefix_iff isPacked (idx + 1)
        rw [PhpElements.placed, elementPlaced_complete hfull]
        simp only [if_pos hfull]
        generalize elementLabel isPacked idx key ++ value.full = text at *
        by_cases htext : text = []
        · simp only [htext, List.zipIdx_nil, if_true]
          exact hrest start size hpos
        · simp only [if_neg htext]
          rw [if_neg (by simpa using htext), List.length_zipIdx,
            if_neg (by omega), List.zipIdx_append, List.zipIdx_cons,
            stripPlaced_comma_isPrefix_iff]
          exact hrest _ _ (by omega)
      · simp only [if_neg hfull]
        by_cases htext : elementLabel isPacked idx key ++ value.full = []
        · -- there is no room for a byte
          have hone : size = 1 := by
            rw [htext] at hfull
            simp only [List.length_nil] at hfull
            omega
          have hloop : joinLoop comma
              ((PhpElements.cons key value rest).texts isPacked idx) size =
                [] := by
            rw [hone]
            exact (Fits.joinLoop (PhpElements.texts_fit isPacked idx _)).eq_nil
          have hplaced := (PhpElements.cons key value rest).map_placed isPacked
            idx start size
          rw [hloop, List.map_eq_nil_iff] at hplaced
          rw [PhpElements.texts] at hloop
          rw [hplaced, hloop]
          exact iff_of_true List.nil_prefix (.inl rfl)
        · rw [if_neg htext]
          exact PhpElements.placed_cut_isPrefix_iff hpos
            value.placed_isPrefix_iff htext (Nat.lt_of_not_le hfull) _

end

/-! ## Larger sizes -/

theorem isPrefix_stripPlaced_append (as bs : List PlacedByte)
    (b : PlacedByte) : as <+: stripPlaced (as ++ b :: bs) := by
  rw [stripPlaced_append as (List.cons_ne_nil b bs)]
  exact List.prefix_append _ _

theorem isPrefix_stripPlaced_of_ne {as bs : List PlacedByte} (h : as <+: bs)
    (hne : as ≠ bs) : as <+: stripPlaced bs := by
  obtain ⟨rest, rfl⟩ := h
  cases rest with
  | nil => exact absurd (List.append_nil as).symm hne
  | cons b rest => exact isPrefix_stripPlaced_append as rest b

theorem stripPlaced_mono {as bs : List PlacedByte} (h : as <+: bs) :
    stripPlaced as <+: stripPlaced bs := by
  by_cases heq : as = bs
  · rw [heq]
  · exact (stripPlaced_isPrefix as).trans (isPrefix_stripPlaced_of_ne h heq)

/-- What the second loop has printed goes on where the first one stopped. -/
def Extends (as bs : List PlacedByte) : Prop :=
  stripPlaced as <+: stripPlaced bs ∧ (as ≠ [] → bs ≠ [])

theorem Extends.nil (bs : List PlacedByte) : Extends [] bs :=
  ⟨List.nil_prefix, absurd rfl⟩

theorem Extends.append {as bs : List PlacedByte} (h : Extends as bs)
    (shown : List PlacedByte) (place : ℕ) :
    Extends (shown ++ (comma, place) :: as)
      (shown ++ (comma, place) :: bs) := by
  refine ⟨?_, fun _ => by simp⟩
  by_cases hnil : as = []
  · rw [hnil, stripPlaced_append_comma]
    exact isPrefix_stripPlaced_append shown bs _
  · have hne := h.2 hnil
    rw [List.append_cons shown _ as, List.append_cons shown _ bs,
      stripPlaced_append _ hnil, stripPlaced_append _ hne,
      List.prefix_append_right_inj]
    exact h.1

/-- If nothing is printed behind an element, then a larger size goes on from
there, as long as the element does. -/
theorem PhpElements.cons_extends {isPacked : Bool} {key : Option Bytes}
    {value : PhpValue} {rest : PhpElements} {idx start size size' : ℕ}
    (hle : size ≤ size')
    (h : elementPlaced isPacked idx key value.placed start size <+:
      elementPlaced isPacked idx key value.placed start size')
    (hbehind : joinBehind comma (elementText isPacked idx key value.text)
      (rest.texts isPacked (idx + 1)) size = []) :
    Extends ((PhpElements.cons key value rest).placed isPacked idx start size)
      ((PhpElements.cons key value rest).placed isPacked idx start size') := by
  have hloop : ∀ start size, joinLoop comma (rest.texts isPacked (idx + 1))
      size = [] → rest.placed isPacked (idx + 1) start size = [] := by
    intro start size hnone
    rwa [← rest.map_placed isPacked (idx + 1) start, List.map_eq_nil_iff]
      at hnone
  rw [joinBehind_eq start] at hbehind
  rw [PhpElements.placed, PhpElements.placed]
  generalize elementPlaced isPacked idx key value.placed start size = shown at *
  generalize elementPlaced isPacked idx key value.placed start size' =
    shown' at *
  by_cases hnil : shown = []
  · rw [if_pos hnil] at hbehind
    rw [if_pos hnil, hloop _ _ hbehind]
    exact Extends.nil _
  have hne' : shown' ≠ [] := fun hnil' =>
    hnil (List.prefix_nil.mp (hnil' ▸ h))
  rw [if_neg hnil] at hbehind
  simp only [if_neg hnil, if_neg hne']
  refine ⟨?_, fun _ => by split <;> simp [hne']⟩
  by_cases hbreak' : size' - shown'.length < 2
  · rw [if_pos hbreak']
    by_cases hbreak : size - shown.length < 2
    · rw [if_pos hbreak]
      exact stripPlaced_mono h
    · rw [if_neg hbreak] at hbehind
      rw [if_neg hbreak, hloop _ _ hbehind, stripPlaced_append_comma]
      refine isPrefix_stripPlaced_of_ne h fun heq => ?_
      rw [← heq] at hbreak'
      omega
  · rw [if_neg hbreak']
    refine List.IsPrefix.trans ?_ (isPrefix_stripPlaced_append _ _ _)
    refine List.IsPrefix.trans ?_ h
    by_cases hbreak : size - shown.length < 2
    · rw [if_pos hbreak]
      exact stripPlaced_isPrefix _
    · rw [if_neg hbreak] at hbehind
      rw [if_neg hbreak, hloop _ _ hbehind, stripPlaced_append_comma]

mutual

/-- What is printed of an orderly value is the beginning of what is printed at
a larger size, place by place. -/
theorem PhpValue.placed_isPrefix_placed : ∀ (v : PhpValue)
    {start size size' : ℕ}, 1 ≤ size → size ≤ size' → v.Orderly size →
      v.placed start size <+: v.placed start size'
  | .long _, _, _, _, _, hle, _ =>
      List.take_prefix_take_left (Nat.sub_le_sub_right hle 1)
  | .string _, _, _, _, _, hle, _ =>
      List.take_prefix_take_left (Nat.sub_le_sub_right hle 1)
  | .array isPacked elements, _, _, _, hpos, hle, h =>
      (elements.placed_extends isPacked 0 hpos hle h).1

theorem PhpElements.placed_extends (isPacked : Bool) :
    ∀ (es : PhpElements) (idx : ℕ) {start size size' : ℕ},
      1 ≤ size → size ≤ size' → es.Orderly isPacked idx size →
      Extends (es.placed isPacked idx start size)
        (es.placed isPacked idx start size')
  | .nil, _, _, _, _, _, _, _ => Extends.nil _
  | .undef rest, idx, _, _, _, hpos, hle, h => by
      rw [PhpElements.placed, PhpElements.placed]
      exact rest.placed_extends isPacked (idx + 1) hpos hle h
  | .cons key value rest, idx, start, size, size', hpos, hle, h => by
      rw [PhpElements.Orderly] at h
      by_cases hfull : (elementLabel isPacked idx key ++
          value.full).length + 2 ≤ size
      · simp only [if_pos hfull] at h
        rw [PhpElements.placed, PhpElements.placed,
          elementPlaced_complete hfull,
          elementPlaced_complete (hfull.trans hle)]
        generalize elementLabel isPacked idx key ++ value.full = text at *
        by_cases htext : text = []
        · simp only [htext, List.zipIdx_nil, if_true] at h ⊢
          exact rest.placed_extends isPacked (idx + 1) hpos hle h
        · have hshown : text.zipIdx start ≠ [] := by simpa using htext
          rw [if_neg htext] at h
          simp only [if_neg hshown, List.length_zipIdx]
          rw [if_neg (by omega), if_neg (by omega)]
          exact (rest.placed_extends isPacked (idx + 1) (by omega) (by omega)
            h).append _ _
      · simp only [if_neg hfull] at h
        rcases h with hnothing | ⟨hlabel, hvalue, hbehind⟩
        · rw [← PhpElements.texts,
            ← PhpElements.map_placed isPacked _ idx start,
            ← stripPlaced_eq_nil_iff] at hnothing
          refine ⟨hnothing ▸ List.nil_prefix, fun hne => ?_⟩
          have hloop := PhpElements.joinLoop_ne_nil isPacked
            (.cons key value rest) idx hpos hle
          rw [← PhpElements.map_placed isPacked _ idx start,
            ← PhpElements.map_placed isPacked _ idx start] at hloop
          exact fun hnil => hloop (by simpa using hne) (by rw [hnil]; rfl)
        · have hroom := hlabel.1
          refine PhpElements.cons_extends hle ?_ hbehind
          rw [elementPlaced, elementPlaced]
          simp only [if_pos hlabel, if_pos (hlabel.mono hle)]
          rw [List.prefix_append_right_inj]
          exact value.placed_isPrefix_placed (by omega) (by omega) hvalue

end

/-- An array is orderly at a size exactly if every larger size prints the same
bytes for the same places in front. -/
theorem PhpValue.orderly_iff (v : PhpValue) {size : ℕ} (hpos : 1 ≤ size) :
    v.Orderly size ↔
      ∀ size' ≥ size, v.placed 0 size <+: v.placed 0 size' := by
  constructor
  · intro h size' hle
    exact v.placed_isPrefix_placed hpos hle h
  · intro h
    have hlarge := h (max size (v.full.length + 2)) (le_max_left _ _)
    rw [v.placed_complete (le_max_right _ _)] at hlarge
    exact (v.placed_isPrefix_iff 0 size hpos).mp hlarge

-- `[["abcdef"], 5]`: the array that is cut fills the buffer
example : (PhpValue.array true (.cons none
    (.array true (.cons none (.string (lit "abcdef")) .nil))
      (.cons none (.long 5) .nil))).Orderly 6 :=
  (PhpValue.placed_isPrefix_iff _ 0 6 (by decide)).mp (by decide)

/-- `sprint_zarray` prints bytes of the complete text in their order.  What it
prints at a size is the beginning of what it prints at every larger one, with
each byte in its place, exactly if the array is orderly at the size. -/
theorem ArrayImage.sprintZarray_isPrefix {mem : Remote} {rzarray : ℕ}
    (a : ArrayImage mem rzarray) (floatText : ℕ → Bytes) :
    (∃ enough, ∀ fuel ≥ enough, ∀ size ≥ 1,
      PrintsAt (sprintZarray mem floatText fuel rzarray) size
        (a.value.text size)) ∧
    ∀ size ≥ 1,
      (a.value.placed 0 size).map Prod.fst = a.value.text size ∧
      (a.value.placed 0 size).Sublist a.value.full.zipIdx ∧
      (a.value.Orderly size ↔
        ∀ size' ≥ size, a.value.placed 0 size <+: a.value.placed 0 size') ∧
      (a.value.Orderly size →
        ∀ size' ≥ size, a.value.text size <+: a.value.text size') := by
  refine ⟨?_, fun size hpos => ⟨a.value.map_placed 0 size,
    a.value.placed_sublist 0 size, a.value.orderly_iff hpos,
    fun h size' hle => ?_⟩⟩
  · obtain ⟨enough, hprints⟩ := a.sprintZarray_printsText floatText
    exact ⟨enough, fun fuel hfuel size hpos => hprints fuel hfuel size hpos⟩
  · have hplaced := (a.value.orderly_iff hpos).mp h size' hle
    rw [← a.value.map_placed 0 size, ← a.value.map_placed 0 size']
    exact hplaced.map Prod.fst

/-- `["key" => 5]` -/
def keyFiveImage : Remote :=
  .ofBlocks [
    (0x1000, ZendArray.image ⟨0, 2 ^ 32 - 8, 0x2000, 1⟩),
    (0x2000, Bucket.image ⟨⟨5, zvalTypeLong, 0⟩, 0, 0x3000⟩),
    (0x3000, stringImage (lit "key"))]

def keyFive : ArrayImage keyFiveImage 0x1000 where
  isPacked := false
  elements := .cons (some (lit "key")) (.long 5) .nil
  holds := by
    refine ⟨rfl, _, _, rfl, by decide, rfl, ?_, ⟨by decide, by decide⟩, rfl⟩
    refine ⟨rfl, by decide, ?_, by decide⟩
    exact .of_bytes (fun _ _ => rfl) (by decide) (by decide) (by decide)
      (by decide) (by decide)

/-- With six bytes there is room for the key. -/
theorem keyFive_isPrefix :
    keyFive.value.Orderly 6 ∧
      ∀ size' ≥ 6, keyFive.value.text 6 <+: keyFive.value.text size' := by
  obtain ⟨-, hsizes⟩ := keyFive.sprintZarray_isPrefix fun _ => []
  obtain ⟨-, -, -, hprefix⟩ := hsizes 6 (by decide)
  have horderly : keyFive.value.Orderly 6 :=
    (PhpValue.placed_isPrefix_iff _ 0 6 (by decide)).mp (by decide)
  exact ⟨horderly, hprefix horderly⟩

/-- With two bytes the value is printed without its key. -/
theorem keyFive_loses_key :
    (∃ enough, ∀ fuel ≥ enough, PrintsAt
      (sprintZarray keyFiveImage (fun _ => []) fuel 0x1000) 2 (lit "5")) ∧
    (∃ enough, ∀ fuel ≥ enough, PrintsAt
      (sprintZarray keyFiveImage (fun _ => []) fuel 0x1000) 10
        (lit "key=5")) ∧
    ¬ (lit "5" <+: lit "key=5") := by
  refine ⟨?_, ?_, by decide⟩
  · exact (keyFive.printsAt_iff _ (by decide)).mpr (by decide)
  · exact (keyFive.printsAt_iff _ (by decide)).mpr (by decide)

end Phpspy

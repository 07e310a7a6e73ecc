import Phpspy.Support.BufferPrinting

/-!
# The text that a printer prints

Many printers print a text that depends on the size only, not on what the
buffer has.  Such texts are combined as the printers are: a label in front of
a text, and a list of texts with separators.
-/

namespace BufferPrinting

open ByteText

/-! ## Texts by size -/

/-- A label and the text behind it, or nothing if there is no room for the
label. -/
def labelText (label : Bytes) (t : ℕ → Bytes) : ℕ → Bytes :=
  fun size =>
    if size ≤ label.length then [] else label ++ t (size - label.length)

variable (sep : UInt8)

/-- Texts with a separator behind each that is not empty, as long as two bytes
are left. -/
def joinLoop : List (ℕ → Bytes) → ℕ → Bytes
  | [], _ => []
  | t :: ts, size =>
      if t size = [] then joinLoop ts size
      else if size - (t size).length < 2 then t size
      else t size ++ sep :: joinLoop ts (size - (t size).length - 1)

def stripSep (text : Bytes) : Bytes :=
  if text.getLast? = some sep then text.dropLast else text

def joinText (ts : List (ℕ → Bytes)) : ℕ → Bytes :=
  fun size => stripSep sep (joinLoop sep ts size)

/-- The text leaves room for a terminator. -/
def Fits (t : ℕ → Bytes) : Prop :=
  ∀ size, 1 ≤ size → (t size).length < size

variable {sep}

theorem Fits.take (text : Bytes) : Fits fun size => text.take (size - 1) := by
  intro size hsize
  rw [List.length_take]
  omega

theorem Fits.eq_nil {t : ℕ → Bytes} (h : Fits t) : t 1 = [] :=
  List.length_eq_zero_iff.mp (Nat.lt_one_iff.mp (h 1 le_rfl))

theorem Fits.labelText {t : ℕ → Bytes} (h : Fits t) (label : Bytes) :
    Fits (labelText label t) := by
  intro size hsize
  rw [BufferPrinting.labelText]
  split
  · exact hsize
  · have := h (size - label.length) (by omega)
    rw [List.length_append]
    omega

theorem Fits.joinLoop {ts : List (ℕ → Bytes)} (h : ∀ t ∈ ts, Fits t) :
    Fits (joinLoop sep ts) := by
  induction ts with
  | nil => exact fun size hsize => hsize
  | cons t ts ih =>
      intro size hsize
      have ht := h t List.mem_cons_self size hsize
      have hrest := ih fun u hu => h u (List.mem_cons_of_mem t hu)
      rw [BufferPrinting.joinLoop]
      split_ifs with hnil hbreak
      · exact hrest size hsize
      · exact ht
      · have := hrest (size - (t size).length - 1) (by omega)
        rw [List.length_append, List.length_cons]
        omega

theorem stripSep_isPrefix (text : Bytes) : stripSep sep text <+: text := by
  rw [stripSep]
  split
  · exact List.dropLast_prefix text
  · exact List.prefix_rfl

theorem length_stripSep_le (text : Bytes) :
    (stripSep sep text).length ≤ text.length :=
  (stripSep_isPrefix text).length_le

theorem stripSep_append_sep (text : Bytes) :
    stripSep sep (text ++ [sep]) = text := by
  rw [stripSep, List.getLast?_concat, if_pos rfl, List.dropLast_concat]

theorem stripSep_append (as : Bytes) {bs : Bytes} (h : bs ≠ []) :
    stripSep sep (as ++ bs) = as ++ stripSep sep bs := by
  rcases List.eq_nil_or_concat bs with rfl | ⟨init, b, rfl⟩
  · exact absurd rfl h
  · rw [List.concat_eq_append, ← List.append_assoc, stripSep, stripSep,
      List.getLast?_concat, List.getLast?_concat, List.dropLast_concat,
      List.dropLast_concat]
    split <;> simp only [List.append_assoc]

theorem Fits.joinText {ts : List (ℕ → Bytes)} (h : ∀ t ∈ ts, Fits t) :
    Fits (joinText sep ts) :=
  fun size hsize =>
    (length_stripSep_le _).trans_lt (Fits.joinLoop h size hsize)

/-! ## Printers of texts -/

section Prints

variable {ε : Type*} {underflow : ε}

/-- The printer prints a text at a size, whatever the buffer has. -/
def PrintsAt (p : Printer ε) (size : ℕ) (text : Bytes) : Prop :=
  ∀ buf off, ∃ out, p buf off size = some (out, .ok text.length) ∧
    slice out off text.length = text ∧ ∀ i < off, out i = buf i

def PrintsText (p : Printer ε) (t : ℕ → Bytes) : Prop :=
  ∀ size, 1 ≤ size → PrintsAt p size (t size)

theorem PrintsAt.unique {p : Printer ε} {size : ℕ} {text text' : Bytes}
    (h : PrintsAt p size text) (h' : PrintsAt p size text') :
    text = text' := by
  obtain ⟨out, hrun, hslice, -⟩ := h (fun _ => 0) 0
  obtain ⟨out', hrun', hslice', -⟩ := h' (fun _ => 0) 0
  rw [hrun] at hrun'
  obtain ⟨rfl, hlen⟩ := Prod.mk.inj (Option.some.inj hrun')
  rw [← hslice, ← hslice', Except.ok.inj hlen]

theorem PrintsText.shifted {p : Printer ε} {t : ℕ → Bytes}
    (h : PrintsText p t) {label : Bytes} {size : ℕ}
    (hroom : label.length < size) {buf : Buffer} {off : ℤ}
    (hlabel : slice buf off label.length = label) :
    ∃ out, shifted label.length p buf off size =
        some (out, .ok (label ++ t (size - label.length)).length) ∧
      slice out off (label ++ t (size - label.length)).length =
        label ++ t (size - label.length) ∧ ∀ i < off, out i = buf i := by
  obtain ⟨out, hrun, hslice, hframe⟩ :=
    h (size - label.length) (by omega) buf (off + label.length)
  refine ⟨out, ?_, ?_, fun i hi => hframe i (by omega)⟩
  · rw [BufferPrinting.shifted, hrun, List.length_append]
    rfl
  · rw [List.length_append, slice_add, hslice,
      slice_congr fun i _ hi => hframe i hi, hlabel]

theorem PrintsText.labelled {p : Printer ε} {t : ℕ → Bytes}
    (h : PrintsText p t) (label : Bytes) :
    PrintsText (labelled label p) (labelText label t) := by
  intro size hsize buf off
  rw [BufferPrinting.labelled, labelText]
  split
  · exact ⟨_, rfl, rfl, fun i hi =>
      within_snprintf buf off size label i (.inl hi)⟩
  · rename_i hroom
    have htake : label.take (size - 1) = label :=
      List.take_of_length_le (by omega)
    have hlabel : slice (snprintf buf off size label) off
        (label.take (size - 1)).length = label.take (size - 1) :=
      slice_snprintf hsize
    rw [htake] at hlabel
    obtain ⟨out, hrun, hslice, hframe⟩ :=
      h.shifted (Nat.lt_of_not_le hroom) hlabel
    exact ⟨out, hrun, hslice, fun i hi => (hframe i hi).trans
      (within_snprintf buf off size label i (.inl hi))⟩

theorem printLoop_prints {ps : List (Printer ε)} {ts : List (ℕ → Bytes)}
    (h : List.Forall₂ PrintsText ps ts) (hfits : ∀ t ∈ ts, Fits t)
    {size : ℕ} (hsize : 1 ≤ size) (buf : Buffer) (pos : ℤ) :
    ∃ out, printLoop sep underflow ps buf pos size =
        some (out, .ok (pos + (joinLoop sep ts size).length)) ∧
      slice out pos (joinLoop sep ts size).length = joinLoop sep ts size ∧
      ∀ i < pos, out i = buf i := by
  induction h generalizing size buf pos with
  | nil => exact ⟨buf, by simp [printLoop, joinLoop], rfl, fun _ _ => rfl⟩
  | @cons p t ps ts hp _ ih =>
      have hrest : ∀ u ∈ ts, Fits u :=
        fun u hu => hfits u (List.mem_cons_of_mem t hu)
      have hlen := hfits t List.mem_cons_self size hsize
      obtain ⟨buf₁, hrun, hslice, hframe⟩ := hp size hsize buf pos
      rw [joinLoop]
      by_cases hnil : t size = []
      · rw [hnil] at hrun
        obtain ⟨out, hout, hslice', hframe'⟩ := ih hrest hsize buf₁ pos
        rw [if_pos hnil, printLoop_cons_zero hrun]
        exact ⟨out, hout, hslice', fun i hi => (hframe' i hi).trans
          (hframe i hi)⟩
      · have hpos : (t size).length ≠ 0 := fun h0 =>
          hnil (List.length_eq_zero_iff.mp h0)
        rw [if_neg hnil]
        by_cases hbreak : size - (t size).length < 2
        · rw [if_pos hbreak, printLoop_cons_last hrun hpos hlen hbreak]
          exact ⟨buf₁, rfl, hslice, hframe⟩
        · rw [if_neg hbreak, printLoop_cons_more hrun hpos hbreak]
          obtain ⟨out, hout, hslice', hframe'⟩ := ih hrest
            (by omega : 1 ≤ size - (t size).length - 1)
            (put buf₁ (pos + (t size).length) [sep])
            (pos + (t size).length + 1)
          -- the text and its separator are in front of what the rest prints
          have hfirst : slice out pos (t size).length = t size := by
            refine Eq.trans (slice_congr fun i _ hi => ?_) hslice
            rw [hframe' i (by omega), put_of_lt hi]
          have hsep : out (pos + (t size).length) = sep := by
            rw [hframe' _ (by omega), put_singleton]
          refine ⟨out, ?_, ?_, fun i hi => ?_⟩
          · rw [hout]
            simp only [List.length_append, List.length_cons, Nat.cast_add,
              Nat.cast_one]
            congr 3
            omega
          · rw [List.length_append, List.length_cons, Nat.add_comm _ 1,
              slice_add, slice_add, hfirst, slice_one, hsep, Nat.cast_one,
              hslice', List.singleton_append]
          · rw [hframe' i (by omega), put_of_lt (by omega), hframe i hi]

theorem stripEnd_eq {out : Buffer} {off : ℤ} {text : Bytes}
    (h : slice out off text.length = text) :
    stripEnd sep out off (off + text.length) =
      (stripSep sep text).length := by
  rcases List.eq_nil_or_concat text with rfl | ⟨init, b, rfl⟩
  · simp [stripEnd, stripSep]
  · rw [List.concat_eq_append] at h ⊢
    have hlast : out (off + init.length) = b := by
      rw [List.length_append, List.length_singleton, slice_add,
        slice_one] at h
      exact List.singleton_inj.mp (List.append_inj_right' h rfl)
    have hindex : off + ((init ++ [b]).length : ℤ) - 1 = off + init.length := by
      rw [List.length_append, List.length_singleton]
      omega
    rw [stripEnd, stripSep, hindex, hlast, List.getLast?_concat,
      List.dropLast_concat]
    by_cases hb : b = sep
    · rw [if_pos ⟨by simp, hb⟩, if_pos (congrArg some hb)]
      omega
    · rw [if_neg fun hand => hb hand.2, if_neg fun hs => hb (Option.some.inj hs)]
      omega

theorem printList_printsText {ps : List (Printer ε)} {ts : List (ℕ → Bytes)}
    (h : List.Forall₂ PrintsText ps ts) (hfits : ∀ t ∈ ts, Fits t) :
    PrintsText (printList sep underflow ps) (joinText sep ts) := by
  intro size hsize buf off
  obtain ⟨out, hrun, hslice, hframe⟩ :
      ∃ out, printLoop sep underflow ps buf off size =
          some (out, .ok (off + (joinLoop sep ts size).length)) ∧
        slice out off (joinLoop sep ts size).length = joinLoop sep ts size ∧
        ∀ i < off, out i = buf i :=
    printLoop_prints h hfits hsize buf off
  refine ⟨out, ?_, ?_, hframe⟩
  · rw [printList, hrun]
    simp only [Option.map_some, Except.map, stripEnd_eq hslice, joinText]
  · rw [joinText, slice_of_le (length_stripSep_le _), hslice]
    exact (List.prefix_iff_eq_take.mp (stripSep_isPrefix _)).symm

end Prints

/-! ## Complete texts -/

/-- The text is this one if there are two bytes to spare. -/
def Complete (t : ℕ → Bytes) (text : Bytes) : Prop :=
  ∀ size, text.length + 2 ≤ size → t size = text

variable (sep) in
/-- The texts that are not empty, with separators between them. -/
def joinFull (texts : List Bytes) : Bytes :=
  List.intercalate [sep] (texts.filter (· ≠ []))

theorem Complete.labelText {t : ℕ → Bytes} {text : Bytes} (h : Complete t text)
    (label : Bytes) : Complete (labelText label t) (label ++ text) := by
  intro size hsize
  rw [List.length_append] at hsize
  rw [BufferPrinting.labelText, if_neg (by omega), h _ (by omega)]

theorem Complete.take (text : Bytes) :
    Complete (fun size => text.take (size - 1)) text :=
  fun size hsize => List.take_of_length_le (by omega)

variable (sep) in
/-- The texts that are not empty, with a separator behind each. -/
def joinEnds : List Bytes → Bytes
  | [] => []
  | text :: texts =>
      if text = [] then joinEnds texts else text ++ sep :: joinEnds texts

theorem joinEnds_filter (texts : List Bytes) :
    joinEnds sep (texts.filter (· ≠ [])) = joinEnds sep texts := by
  induction texts with
  | nil => rfl
  | cons text texts ih =>
      by_cases hnil : text = []
      · rw [joinEnds, if_pos hnil, ← ih]
        simp [hnil]
      · rw [joinEnds, if_neg hnil, ← ih, List.filter_cons_of_pos (by simpa),
          joinEnds, if_neg hnil]

theorem joinEnds_eq_intercalate {texts : List Bytes} (hne : texts ≠ [])
    (h : ∀ text ∈ texts, text ≠ []) :
    joinEnds sep texts = List.intercalate [sep] texts ++ [sep] := by
  induction texts with
  | nil => exact absurd rfl hne
  | cons text texts ih =>
      rw [joinEnds, if_neg (h text List.mem_cons_self)]
      cases texts with
      | nil => rw [joinEnds, List.intercalate_singleton]
      | cons text' texts =>
          rw [List.intercalate_cons_cons, ih (List.cons_ne_nil _ _)
            fun u hu => h u (List.mem_cons_of_mem text hu)]
          simp only [List.append_assoc, List.cons_append, List.nil_append]

/-- All texts are empty, or there is one separator more at the end. -/
theorem joinEnds_eq (texts : List Bytes) :
    (joinEnds sep texts = [] ∧ joinFull sep texts = []) ∨
      joinEnds sep texts = joinFull sep texts ++ [sep] := by
  rw [← joinEnds_filter, joinFull]
  by_cases hnone : texts.filter (· ≠ []) = []
  · rw [hnone]
    exact .inl ⟨rfl, rfl⟩
  · refine .inr (joinEnds_eq_intercalate hnone fun text htext => ?_)
    simpa using (List.mem_filter.mp htext).2

theorem joinLoop_complete {ts : List (ℕ → Bytes)} {texts : List Bytes}
    (h : List.Forall₂ Complete ts texts) (hfits : ∀ t ∈ ts, Fits t) {size : ℕ}
    (hsize : (joinEnds sep texts).length + 1 ≤ size) :
    joinLoop sep ts size = joinEnds sep texts := by
  induction h generalizing size with
  | nil => rfl
  | @cons t text ts texts ht _ ih =>
      have hrest : ∀ u ∈ ts, Fits u :=
        fun u hu => hfits u (List.mem_cons_of_mem t hu)
      by_cases hnil : text = []
      · have htext : t size = [] := by
          by_cases htwo : 2 ≤ size
          · rw [ht size (by simpa [hnil] using htwo), hnil]
          · have hone : size = 1 := by omega
            rw [hone]
            exact (hfits t List.mem_cons_self).eq_nil
        rw [joinEnds, if_pos hnil] at hsize ⊢
        rw [joinLoop, if_pos htext]
        exact ih hrest hsize
      · rw [joinEnds, if_neg hnil, List.length_append,
          List.length_cons] at hsize
        have htext : t size = text := ht size (by omega)
        rw [joinLoop, htext, joinEnds, if_neg hnil, if_neg hnil,
          if_neg (by omega), ih hrest (by omega)]

theorem joinText_complete {ts : List (ℕ → Bytes)} {texts : List Bytes}
    (h : List.Forall₂ Complete ts texts) (hfits : ∀ t ∈ ts, Fits t) :
    Complete (joinText sep ts) (joinFull sep texts) := by
  intro size hsize
  rw [joinText]
  have hcases : (joinEnds sep texts = [] ∧ joinFull sep texts = []) ∨
      joinEnds sep texts = joinFull sep texts ++ [sep] := joinEnds_eq texts
  rcases hcases with ⟨hends, hfull⟩ | hends
  · rw [joinLoop_complete h hfits (by rw [hends, List.length_nil]; omega),
      hends, hfull]
    rfl
  · have hlength := congrArg List.length hends
    rw [List.length_append, List.length_singleton] at hlength
    rw [joinLoop_complete h hfits (by omega), hends, stripSep_append_sep]

/-! ## What is behind the first text -/

variable (sep) in
/-- What a loop prints behind its first text and the separator. -/
def joinBehind (t : ℕ → Bytes) (ts : List (ℕ → Bytes)) (size : ℕ) : Bytes :=
  if t size = [] then joinLoop sep ts size
  else if size - (t size).length < 2 then []
  else joinLoop sep ts (size - (t size).length - 1)

theorem stripSep_eq_nil_iff {text : Bytes} :
    stripSep sep text = [] ↔ text = [] ∨ text = [sep] := by
  rcases List.eq_nil_or_concat text with rfl | ⟨init, b, rfl⟩
  · simp [stripSep]
  · rw [List.concat_eq_append, stripSep, List.getLast?_concat,
      List.dropLast_concat]
    by_cases hb : b = sep
    · rw [if_pos (congrArg some hb), hb]
      simp
    · have hne : init ++ [b] ≠ [sep] := fun heq =>
        hb (by simpa using congrArg List.getLast? heq)
      rw [if_neg fun hs => hb (Option.some.inj hs)]
      simp [hne]

/-- A loop stops behind one byte only if there is no room for more. -/
theorem size_le_two_of_joinLoop {ts : List (ℕ → Bytes)} {size : ℕ} {b : UInt8}
    (h : joinLoop sep ts size = [b]) : size ≤ 2 := by
  induction ts with
  | nil => cases h
  | cons t ts ih =>
      rw [joinLoop] at h
      split_ifs at h with hnil hbreak
      · exact ih h
      · rw [h, List.length_singleton] at hbreak
        omega
      · have hlen := congrArg List.length h
        have hpos := List.length_pos_iff.mpr hnil
        rw [List.length_append, List.length_cons, List.length_singleton] at hlen
        omega

end BufferPrinting

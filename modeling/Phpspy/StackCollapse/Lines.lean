import Phpspy.StackCollapse.Decoder

/-!
# The lines of the text format

What the script makes of each kind of line that the fout handler writes: a
frame adds its name to the stack, a comment changes nothing, and a trace id
closes a chunk.
-/

namespace Phpspy
namespace StackCollapse

open ByteText

/-- Printable ASCII without the blank. -/
def isPrintable (b : UInt8) : Bool :=
  33 ≤ b && b ≤ 126

theorem isPrintable_notSpace {b : UInt8} (h : isPrintable b = true) :
    isSpace b = false := by
  cases hspace : isSpace b with
  | false => rfl
  | true =>
      simp only [isSpace, Bool.or_eq_true, beq_iff_eq, Bool.and_eq_true,
        decide_eq_true_eq] at hspace
      rcases hspace with rfl | ⟨-, hle⟩
      · exact absurd h (by decide)
      · simp only [isPrintable, Bool.and_eq_true, decide_eq_true_eq] at h
        have hlt : (33 : UInt8) ≤ 13 := UInt8.le_trans h.1 hle
        exact absurd hlt (by decide)

theorem isDigit_notSpace {b : UInt8} (h : isDigit b = true) :
    isSpace b = false := by
  apply isPrintable_notSpace
  revert h
  simp only [isPrintable, isDigit, Bool.and_eq_true, decide_eq_true_eq,
    UInt8.le_iff_toNat_le]
  simp
  omega

theorem sanitize_of_printable (enc : Encode) {func : Bytes}
    (hfunc : ∀ b ∈ func, isPrintable b = true) :
    sanitize enc func = func := by
  have hascii : ∀ b ∈ func, b < 128 := by
    intro b hb
    have h := hfunc b hb
    simp only [isPrintable, Bool.and_eq_true, decide_eq_true_eq,
      UInt8.le_iff_toNat_le] at h
    rw [UInt8.lt_iff_toNat_lt]
    simp at h ⊢
    omega
  rw [sanitize, enc.decode_ascii func hascii, List.map_map]
  have hkeep : func.map ((fun c => if breaksXml c then 0x3F else c) ∘
      UInt8.toNat) = func.map UInt8.toNat := by
    apply List.map_congr_left
    intro b hb
    have h := hfunc b hb
    simp only [isPrintable, Bool.and_eq_true, decide_eq_true_eq,
      UInt8.le_iff_toNat_le] at h
    have hno : breaksXml b.toNat = false := by
      simp [breaksXml]
      simp at h
      omega
    simp [hno]
  rw [hkeep, enc.encode_ascii func hascii]

section Split

variable {name : Bytes}

theorem takeWhile_word (hname : ∀ b ∈ name, isSpace b = false)
    (rest : Bytes) :
    (name ++ 32 :: rest).takeWhile (fun b => !isSpace b) = name := by
  rw [List.takeWhile_append_of_pos fun b hb => by simp [hname b hb]]
  simp [isSpace]

theorem dropWhile_word (hname : ∀ b ∈ name, isSpace b = false)
    (rest : Bytes) :
    (name ++ 32 :: rest).dropWhile (fun b => !isSpace b) = 32 :: rest := by
  rw [List.dropWhile_append_of_pos fun b hb => by simp [hname b hb]]
  simp [isSpace]

theorem dropWhile_blank (hne : name ≠ [])
    (hname : ∀ b ∈ name, isSpace b = false) (rest : Bytes) :
    (name ++ rest).dropWhile isSpace = name ++ rest := by
  obtain ⟨b, bs, rfl⟩ := List.exists_cons_of_ne_nil hne
  simp [hname b (by simp)]

theorem splitFields_words {depth : Bytes} (hdepth : depth ≠ [])
    (hdepthWord : ∀ b ∈ depth, isSpace b = false) (hne : name ≠ [])
    (hname : ∀ b ∈ name, isSpace b = false) (rest : Bytes) :
    splitFields (depth ++ 32 :: (name ++ 32 :: rest)) = (depth, name) := by
  have hblank : (32 :: (name ++ 32 :: rest)).dropWhile isSpace =
      name ++ 32 :: rest := by
    rw [List.dropWhile_cons_of_pos (by decide), dropWhile_blank hne hname]
  rw [splitFields, dropWhile_blank hdepth hdepthWord,
    takeWhile_word hdepthWord, dropWhile_word hdepthWord, hblank,
    takeWhile_word hname]

end Split

/-! ## Frames -/

theorem decimal_eq_cons (n : ℕ) :
    ∃ d ds, decimal n = d :: ds ∧ isDigit d = true ∧ d ≠ 35 := by
  obtain ⟨d, ds, h⟩ := List.exists_cons_of_ne_nil (decimal_ne_nil n)
  have hd : isDigit d = true := by
    apply decimal_isDigit (n := n)
    rw [h]
    exact List.mem_cons_self
  refine ⟨d, ds, h, hd, ?_⟩
  rintro rfl
  exact absurd hd (by decide)

theorem step_frame (enc : Encode) (st : State) (depth : ℕ) {name : Bytes}
    (hne : name ≠ []) (hname : ∀ b ∈ name, isPrintable b = true)
    (rest : Bytes) :
    step enc st (decimal depth ++ 32 :: (name ++ 32 :: rest)) =
      { st with stack := st.stack ++ [name] } := by
  have hword : ∀ b ∈ name, isSpace b = false :=
    fun b hb => isPrintable_notSpace (hname b hb)
  have hdigits : ∀ b ∈ decimal depth, isDigit b = true :=
    fun b hb => decimal_isDigit hb
  obtain ⟨d, ds, hd, hdigit, hhash⟩ := decimal_eq_cons depth
  obtain ⟨c, cs, hc⟩ := List.exists_cons_of_ne_nil hne
  have htake : (decimal depth ++ 32 :: (name ++ 32 :: rest)).takeWhile
      isDigit = decimal depth := by
    rw [List.takeWhile_append_of_pos hdigits]
    simp [isDigit]
  have hdrop : (decimal depth ++ 32 :: (name ++ 32 :: rest)).dropWhile
      isDigit = 32 :: (name ++ 32 :: rest) := by
    rw [List.dropWhile_append_of_pos hdigits]
    simp [isDigit]
  have hline : isRecordLine (decimal depth ++ 32 :: (name ++ 32 :: rest)) =
      true := by
    rw [isRecordLine, htake, hdrop, hc, List.cons_append, blankThenWord,
      hword c (by simp [hc])]
    simp [decimal_ne_nil]
  have hid : matchTraceId (decimal depth ++ 32 :: (name ++ 32 :: rest)) =
      none := by
    rw [matchTraceId, hd, if_neg]
    intro hpre
    have hlit : lit "# trace_id = " = 35 :: lit " trace_id = " := rfl
    rw [List.isPrefixOf_iff_prefix, hlit, List.cons_append,
      List.cons_prefix_cons] at hpre
    exact hhash hpre.1.symm
  have hcomment : decimal depth ≠ lit "#" := by
    rw [hd]
    intro h
    exact hhash (List.cons.inj h).1
  rw [step, if_neg (by simp), if_pos hline, hid,
    splitFields_words (decimal_ne_nil depth)
      (fun b hb => isDigit_notSpace (hdigits b hb)) hne hword,
    if_neg hcomment, sanitize_of_printable enc hname]

/-! ## Comments -/

theorem step_comment (enc : Encode) (st : State) {b : UInt8} {rest : Bytes}
    (hb : isSpace b = false)
    (hid : matchTraceId (35 :: 32 :: b :: rest) = none) :
    step enc st (35 :: 32 :: b :: rest) = st := by
  have hline : isRecordLine (35 :: 32 :: b :: rest) = true := by
    simp [isRecordLine, blankThenWord, hb]
  have hfield : (splitFields (35 :: 32 :: b :: rest)).1 = lit "#" := by
    simp [splitFields, isSpace, lit]
  rw [step, if_neg (by simp), if_pos hline, hid]
  simp only [hfield, if_true]

/-! ## Trace ids -/

theorem matchIndexAndMark_decimal (k : ℕ) {mark : UInt8}
    (hmark : isDigit mark = false) :
    matchIndexAndMark (decimal k ++ [mark]) = some (decimal k, mark) := by
  have hdigits : ∀ b ∈ decimal k, isDigit b = true :=
    fun b hb => decimal_isDigit hb
  rw [matchIndexAndMark, List.takeWhile_append_of_pos hdigits,
    List.dropWhile_append_of_pos hdigits]
  simp [hmark, decimal_ne_nil]

theorem matchTraceId_decimal (id k : ℕ) {mark : UInt8}
    (hmark : isDigit mark = false) :
    matchTraceId (lit "# trace_id = " ++
      (decimal id ++ 46 :: (decimal k ++ [mark]))) =
        some (decimal id, decimal k, mark) := by
  have hdigits : ∀ b ∈ decimal id, isDigit b = true :=
    fun b hb => decimal_isDigit hb
  have htake : (decimal id ++ 46 :: (decimal k ++ [mark])).takeWhile
      isDigit = decimal id := by
    rw [List.takeWhile_append_of_pos hdigits]
    simp [isDigit]
  have hdrop : (decimal id ++ 46 :: (decimal k ++ [mark])).dropWhile
      isDigit = 46 :: (decimal k ++ [mark]) := by
    rw [List.dropWhile_append_of_pos hdigits]
    simp [isDigit]
  rw [matchTraceId, if_pos (List.isPrefixOf_iff_prefix.mpr
    (List.prefix_append _ _)), List.drop_left]
  simp only [htake, hdrop, matchIndexAndMark_decimal k hmark]
  simp [decimal_ne_nil]

theorem step_traceId (enc : Encode) (st : State) (id k : ℕ) {mark : UInt8}
    (hmark : isDigit mark = false) :
    step enc st (lit "# trace_id = " ++
      (decimal id ++ 46 :: (decimal k ++ [mark]))) =
        stepChunk st (decimal id) (decimal k) mark := by
  have hline : ∀ rest, isRecordLine (lit "# trace_id = " ++ rest) =
      true := by
    intro rest
    rfl
  have hne : ∀ rest, lit "# trace_id = " ++ rest ≠ [] := by
    intro rest h
    cases h
  rw [step, if_neg (hne _), if_pos (hline _), matchTraceId_decimal id k hmark]

end StackCollapse
end Phpspy

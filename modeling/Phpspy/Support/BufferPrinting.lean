import Mathlib.Data.List.GetD
import Mathlib.Data.List.Range
import Mathlib.Tactic.Linarith
import Phpspy.Support.Bytes

/-!
# Printing into a buffer

A printer writes a text at an offset of a buffer of which it may use a given
number of bytes, and returns the length of the text.  It may fail, and it may
never return.  Printers are combined to print a list with separators.
-/

namespace BufferPrinting

open ByteText

/-! ## Buffers -/

/-- The memory around a buffer, by offset. -/
abbrev Buffer := ℤ → UInt8

/-- Store bytes from an offset on. -/
def put (buf : Buffer) (off : ℤ) (bs : Bytes) : Buffer :=
  fun i =>
    if off ≤ i ∧ i < off + bs.length then bs.getD (i - off).toNat 0 else buf i

/-- The `n` bytes from an offset on. -/
def slice (buf : Buffer) (off : ℤ) (n : ℕ) : Bytes :=
  (List.range n).map fun (k : ℕ) => buf (off + k)

/-- Nothing has changed but `size` bytes from an offset on. -/
def Within (off : ℤ) (size : ℕ) (buf buf' : Buffer) : Prop :=
  ∀ i, i < off ∨ off + size ≤ i → buf' i = buf i

theorem Within.refl (off : ℤ) (size : ℕ) (buf : Buffer) :
    Within off size buf buf :=
  fun _ _ => rfl

theorem Within.trans {off : ℤ} {size : ℕ} {buf buf' buf'' : Buffer}
    (h : Within off size buf buf') (h' : Within off size buf' buf'') :
    Within off size buf buf'' :=
  fun i hi => (h' i hi).trans (h i hi)

theorem Within.mono {off off' : ℤ} {size size' : ℕ} {buf buf' : Buffer}
    (h : Within off' size' buf buf') (hlow : off ≤ off')
    (hhigh : off' + size' ≤ off + size) : Within off size buf buf' :=
  fun i hi => h i (by omega)

theorem within_put {buf : Buffer} {off off' : ℤ} {size : ℕ} {bs : Bytes}
    (hlow : off ≤ off') (hhigh : off' + bs.length ≤ off + size) :
    Within off size buf (put buf off' bs) :=
  fun i hi => if_neg (by omega)

theorem put_of_lt {buf : Buffer} {off i : ℤ} {bs : Bytes} (h : i < off) :
    put buf off bs i = buf i :=
  if_neg (by omega)

theorem put_singleton (buf : Buffer) (off : ℤ) (b : UInt8) :
    put buf off [b] off = b := by
  simp [put]

theorem put_nil (buf : Buffer) (off : ℤ) : put buf off [] = buf := by
  funext i
  exact if_neg (by rw [List.length_nil]; omega)

theorem put_put_append (buf : Buffer) (off : ℤ) (xs ys : Bytes) :
    put (put buf off xs) (off + xs.length) ys = put buf off (xs ++ ys) := by
  funext i
  simp only [put, List.length_append, Nat.cast_add]
  by_cases hys : off + xs.length ≤ i ∧ i < off + xs.length + ys.length
  · rw [if_pos hys, if_pos (by omega),
      List.getD_append_right _ _ _ _ (by omega)]
    congr 1
    omega
  · rw [if_neg hys]
    by_cases hxs : off ≤ i ∧ i < off + xs.length
    · rw [if_pos hxs, if_pos (by omega), List.getD_append _ _ _ _ (by omega)]
    · rw [if_neg hxs, if_neg (by omega)]

theorem put_put_of_le (buf : Buffer) (off : ℤ) {xs ys : Bytes}
    (h : xs.length ≤ ys.length) :
    put (put buf off xs) off ys = put buf off ys := by
  funext i
  simp only [put]
  by_cases hys : off ≤ i ∧ i < off + ys.length
  · rw [if_pos hys, if_pos hys]
  · rw [if_neg hys, if_neg hys, if_neg (by omega)]

theorem slice_congr {buf buf' : Buffer} {off : ℤ} {n : ℕ}
    (h : ∀ i, off ≤ i → i < off + n → buf i = buf' i) :
    slice buf off n = slice buf' off n := by
  refine List.map_congr_left fun k hk => h _ (by omega) ?_
  have := List.mem_range.mp hk
  omega

theorem slice_put (buf : Buffer) (off : ℤ) (bs : Bytes) :
    slice (put buf off bs) off bs.length = bs := by
  apply List.ext_getElem
  · simp [slice]
  · intro k hk hk'
    have hin : off ≤ off + (k : ℤ) ∧ off + (k : ℤ) < off + bs.length := by
      omega
    simp only [slice, List.getElem_map, List.getElem_range, put, if_pos hin,
      add_sub_cancel_left, Int.toNat_natCast]
    exact List.getD_eq_getElem _ _ hk'

theorem slice_add (buf : Buffer) (off : ℤ) (m n : ℕ) :
    slice buf off (m + n) = slice buf off m ++ slice buf (off + m) n := by
  rw [slice, List.range_add, List.map_append, List.map_map]
  congr 1
  refine List.map_congr_left fun k _ => ?_
  simp only [Function.comp_apply, Nat.cast_add, add_assoc]

theorem slice_one (buf : Buffer) (off : ℤ) : slice buf off 1 = [buf off] := by
  simp [slice]

theorem slice_of_le {buf : Buffer} {off : ℤ} {m n : ℕ} (h : m ≤ n) :
    slice buf off m = (slice buf off n).take m := by
  rw [slice, slice, ← List.map_take, List.take_range, Nat.min_eq_left h]

/-- `snprintf` of a text. -/
def snprintf (buf : Buffer) (off : ℤ) (size : ℕ) (text : Bytes) : Buffer :=
  if size = 0 then buf else put buf off (text.take (size - 1) ++ [0])

theorem within_snprintf (buf : Buffer) (off : ℤ) (size : ℕ) (text : Bytes) :
    Within off size buf (snprintf buf off size text) := by
  rw [snprintf]
  split
  · exact Within.refl _ _ _
  · refine within_put le_rfl ?_
    simp only [List.length_append, List.length_take, List.length_singleton]
    omega

theorem slice_snprintf {buf : Buffer} {off : ℤ} {size : ℕ} {text : Bytes}
    (hsize : 1 ≤ size) :
    slice (snprintf buf off size text) off (text.take (size - 1)).length =
      text.take (size - 1) := by
  rw [snprintf, if_neg (by omega), slice_of_le (n := _ + 1) (Nat.le_succ _),
    ← List.length_singleton (a := (0 : UInt8)), ← List.length_append,
    slice_put, List.take_left]

/-! ## Printers -/

/-- From a buffer, an offset and the number of bytes to use: the buffer
afterwards and the length of the text, or an error; `none` if there is no
result yet. -/
abbrev Printer (ε : Type*) :=
  Buffer → ℤ → ℕ → Option (Buffer × Except ε ℕ)

section Combinators

variable {ε : Type*}

/-- Print a text; the length is what `strlen` says of it. -/
def printText (text : Bytes) : Printer ε :=
  fun buf off size =>
    some (snprintf buf off size text,
      .ok (cstr (text.take (size - 1))).length)

/-- Print behind `n` bytes that are there. -/
def shifted (n : ℕ) (p : Printer ε) : Printer ε :=
  fun buf off size =>
    (p buf (off + n) (size - n)).map fun r => (r.1, r.2.map (n + ·))

/-- Print a label and a text behind it, or nothing if there is no room for the
label. -/
def labelled (label : Bytes) (p : Printer ε) : Printer ε :=
  fun buf off size =>
    if size ≤ label.length then
      some (snprintf buf off size label, .ok 0)
    else shifted label.length p (snprintf buf off size label) off size

variable (sep : UInt8) (underflow : ε)

/-- Print one after the other, with a separator behind each that is not empty,
as long as two bytes are left.  The result is the offset behind the last byte.
A text that uses up the buffer would leave a size below one. -/
def printLoop : List (Printer ε) → Buffer → ℤ → ℕ →
    Option (Buffer × Except ε ℤ)
  | [], buf, pos, _ => some (buf, .ok pos)
  | p :: ps, buf, pos, size =>
      match p buf pos size with
      | none => none
      | some (buf, .error e) => some (buf, .error e)
      | some (buf, .ok len) =>
          if len = 0 then printLoop ps buf pos size
          else if size ≤ len then some (buf, .error underflow)
          else if size - len < 2 then some (buf, .ok (pos + len))
          else
            printLoop ps (put buf (pos + len) [sep]) (pos + len + 1)
              (size - len - 1)

section Steps

variable {sep underflow} {p : Printer ε} {ps : List (Printer ε)}
  {buf buf₁ : Buffer} {pos : ℤ} {size len : ℕ}

theorem printLoop_cons_zero (hrun : p buf pos size = some (buf₁, .ok 0)) :
    printLoop sep underflow (p :: ps) buf pos size =
      printLoop sep underflow ps buf₁ pos size := by
  rw [printLoop, hrun]
  rfl

theorem printLoop_cons_last (hrun : p buf pos size = some (buf₁, .ok len))
    (hne : len ≠ 0) (hlt : len < size) (hbreak : size - len < 2) :
    printLoop sep underflow (p :: ps) buf pos size =
      some (buf₁, .ok (pos + len)) := by
  simp only [printLoop, hrun, hne, if_false, Nat.not_le.mpr hlt, hbreak,
    if_true]

theorem printLoop_cons_more (hrun : p buf pos size = some (buf₁, .ok len))
    (hne : len ≠ 0) (hmore : ¬ size - len < 2) :
    printLoop sep underflow (p :: ps) buf pos size =
      printLoop sep underflow ps (put buf₁ (pos + len) [sep]) (pos + len + 1)
        (size - len - 1) := by
  have hfits : ¬ size ≤ len := by omega
  simp only [printLoop, hrun, hne, hfits, hmore, if_false]

end Steps

/-- The length of a text that ends at `pos`, without a separator at its
end. -/
def stripEnd (buf : Buffer) (off pos : ℤ) : ℕ :=
  if off < pos ∧ buf (pos - 1) = sep then (pos - 1 - off).toNat
  else (pos - off).toNat

/-- Print a list, without the separator behind the last. -/
def printList (ps : List (Printer ε)) : Printer ε :=
  fun buf off size =>
    (printLoop sep underflow ps buf off size).map fun r =>
      (r.1, r.2.map (stripEnd sep r.1 off))

end Combinators

/-! ## Bounds -/

section Bounds

variable {ε : Type*}

/-- A printer that writes only where it may, whose text leaves room for a
terminator, and that never comes to a size below one. -/
def Bounded (underflow : ε) (p : Printer ε) : Prop :=
  ∀ buf off size, 1 ≤ size → ∀ buf' r, p buf off size = some (buf', r) →
    Within off size buf buf' ∧ r ≠ .error underflow ∧
      ∀ len, r = .ok len → len ≤ size - 1

variable {underflow : ε}

theorem length_cstr_le (bs : Bytes) : (cstr bs).length ≤ bs.length :=
  (List.takeWhile_sublist _).length_le

theorem printText_bounded (text : Bytes) :
    Bounded underflow (printText text) := by
  intro buf off size hsize buf' r h
  obtain ⟨rfl, rfl⟩ := Prod.mk.inj (Option.some.inj h)
  refine ⟨within_snprintf _ _ _ _, nofun, ?_⟩
  rintro len ⟨⟩
  refine (length_cstr_le _).trans ?_
  rw [List.length_take]
  exact Nat.min_le_left _ _

theorem Bounded.shifted {p : Printer ε} (hp : Bounded underflow p) {n : ℕ}
    {buf : Buffer} {off : ℤ} {size : ℕ} (hn : n + 1 ≤ size) {buf' : Buffer}
    {r : Except ε ℕ} (h : shifted n p buf off size = some (buf', r)) :
    Within off size buf buf' ∧ r ≠ .error underflow ∧
      ∀ len, r = .ok len → len ≤ size - 1 := by
  obtain ⟨⟨buf₁, r₁⟩, hrun, heq⟩ := Option.map_eq_some_iff.mp h
  obtain ⟨rfl, rfl⟩ := Prod.mk.inj heq
  obtain ⟨hwithin, hne, hlen⟩ := hp _ _ _ (by omega) _ _ hrun
  refine ⟨hwithin.mono (by omega) (by omega), ?_, ?_⟩
  · cases r₁ with
    | error e =>
        intro he
        exact hne he
    | ok len => exact nofun
  · cases r₁ with
    | error e => exact nofun
    | ok len =>
        rintro _ ⟨⟩
        have := hlen len rfl
        show n + len ≤ size - 1
        omega

theorem Bounded.labelled {p : Printer ε} (hp : Bounded underflow p)
    (label : Bytes) : Bounded underflow (labelled label p) := by
  intro buf off size hsize buf' r h
  rw [BufferPrinting.labelled] at h
  by_cases hroom : size ≤ label.length
  · rw [if_pos hroom] at h
    obtain ⟨rfl, rfl⟩ := Prod.mk.inj (Option.some.inj h)
    refine ⟨within_snprintf _ _ _ _, nofun, ?_⟩
    rintro _ ⟨⟩
    exact Nat.zero_le _
  · rw [if_neg hroom] at h
    obtain ⟨hwithin, hrest⟩ := hp.shifted (by omega) h
    exact ⟨(within_snprintf _ _ _ _).trans hwithin, hrest⟩

variable {sep : UInt8}

theorem printLoop_bounded {ps : List (Printer ε)}
    (hps : ∀ p ∈ ps, Bounded underflow p) {buf : Buffer} {pos : ℤ} {size : ℕ}
    (hsize : 1 ≤ size) {buf' : Buffer} {r : Except ε ℤ}
    (h : printLoop sep underflow ps buf pos size = some (buf', r)) :
    Within pos size buf buf' ∧ r ≠ .error underflow ∧
      ∀ stop, r = .ok stop → pos ≤ stop ∧ stop < pos + size := by
  induction ps generalizing buf pos size with
  | nil =>
      obtain ⟨rfl, rfl⟩ := Prod.mk.inj (Option.some.inj h)
      refine ⟨Within.refl _ _ _, nofun, ?_⟩
      rintro _ ⟨⟩
      omega
  | cons p ps ih =>
      have hrest : ∀ q ∈ ps, Bounded underflow q :=
        fun q hq => hps q (List.mem_cons_of_mem p hq)
      cases hrun : p buf pos size with
      | none => simp [printLoop, hrun] at h
      | some out =>
          obtain ⟨buf₁, r₁⟩ := out
          obtain ⟨hwithin, hne, hlen⟩ :=
            hps p List.mem_cons_self _ _ _ hsize _ _ hrun
          cases r₁ with
          | error e =>
              simp only [printLoop, hrun] at h
              obtain ⟨rfl, rfl⟩ := Prod.mk.inj (Option.some.inj h)
              refine ⟨hwithin, ?_, nofun⟩
              intro he
              cases he
              exact hne rfl
          | ok len =>
              have hle := hlen len rfl
              by_cases hzero : len = 0
              · subst hzero
                rw [printLoop_cons_zero hrun] at h
                obtain ⟨hwithin', htail⟩ := ih hrest hsize h
                exact ⟨hwithin.trans hwithin', htail⟩
              · by_cases hbreak : size - len < 2
                · rw [printLoop_cons_last hrun hzero (by omega) hbreak] at h
                  obtain ⟨rfl, rfl⟩ := Prod.mk.inj (Option.some.inj h)
                  refine ⟨hwithin, nofun, ?_⟩
                  rintro _ ⟨⟩
                  omega
                · rw [printLoop_cons_more hrun hzero hbreak] at h
                  obtain ⟨hwithin', hne', hstop⟩ := ih hrest (by omega) h
                  refine ⟨(hwithin.trans (within_put (by omega) ?_)).trans
                    (hwithin'.mono (by omega) (by omega)), hne', ?_⟩
                  · simp only [List.length_singleton, Nat.cast_one]
                    omega
                  · intro stop hs
                    have := hstop stop hs
                    omega

theorem printList_bounded {ps : List (Printer ε)}
    (hps : ∀ p ∈ ps, Bounded underflow p) :
    Bounded underflow (printList sep underflow ps) := by
  intro buf off size hsize buf' r h
  obtain ⟨⟨buf₁, r₁⟩, hrun, heq⟩ := Option.map_eq_some_iff.mp h
  obtain ⟨rfl, rfl⟩ := Prod.mk.inj heq
  obtain ⟨hwithin, hne, hstop⟩ := printLoop_bounded hps hsize hrun
  refine ⟨hwithin, ?_, ?_⟩
  · cases r₁ with
    | error e =>
        intro he
        cases he
        exact hne rfl
    | ok stop => exact nofun
  · cases r₁ with
    | error e => exact nofun
    | ok stop =>
        rintro _ ⟨⟩
        obtain ⟨hlow, hhigh⟩ := hstop stop rfl
        rw [stripEnd]
        split <;> omega

end Bounds

end BufferPrinting

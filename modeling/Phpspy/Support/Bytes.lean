import Mathlib.Data.Nat.Digits.Defs
import Mathlib.Data.Nat.Digits.Lemmas
import Mathlib.Data.List.Basic
import Mathlib.Data.List.TakeWhile

/-!
# Byte strings, decimal numerals and C string searches

Texts are lists of bytes.  This module has the part of the C library that text
formatting rests on: decimal conversions, NUL-terminated prefixes, and the
first and last occurrence searches `memchr` and `memrchr`.
-/

namespace ByteText

/-- A text or a piece of memory, byte by byte. -/
abbrev Bytes := List UInt8

/-- The bytes of an ASCII literal. -/
def lit (s : String) : Bytes :=
  s.toList.map fun c => c.toNat.toUInt8

/-- The C string at the start of a piece of memory: everything before the
first NUL. -/
def cstr (bs : Bytes) : Bytes :=
  bs.takeWhile fun b => b != 0

theorem cstr_append_zero (bs rest : Bytes) : cstr (bs ++ 0 :: rest) = cstr bs := by
  induction bs with
  | nil => simp [cstr]
  | cons b bs ih =>
      by_cases hb : b = 0
      · simp [cstr, hb]
      · simpa [cstr, hb] using ih

theorem cstr_of_notMem {bs : Bytes} (h : (0 : UInt8) ∉ bs) : cstr bs = bs := by
  rw [cstr, List.takeWhile_eq_self_iff]
  intro b hb
  rw [bne_iff_ne]
  rintro rfl
  exact h hb

theorem zero_notMem_cstr (bs : Bytes) : (0 : UInt8) ∉ cstr bs := by
  intro hmem
  have hne := List.mem_takeWhile_imp hmem
  simp at hne

/-- Without a terminator of its own an array runs into what follows it. -/
theorem cstr_append_of_notMem {bs : Bytes} (h : (0 : UInt8) ∉ bs)
    (rest : Bytes) : cstr (bs ++ rest) = bs ++ cstr rest := by
  have hself := cstr_of_notMem h
  rw [cstr, List.takeWhile_append, ← cstr, hself, if_pos rfl, ← cstr]

theorem cstr_append_of_mem {bs : Bytes} (h : (0 : UInt8) ∈ bs)
    (rest : Bytes) : cstr (bs ++ rest) = cstr bs := by
  obtain ⟨pre, post, rfl, -⟩ := List.eq_append_cons_of_mem h
  rw [List.append_assoc, List.cons_append, cstr_append_zero,
    cstr_append_zero]

/-- The string in an array stays inside it exactly if the array has a
terminator or one follows it. -/
theorem cstr_append_isPrefix_iff {bs rest : Bytes} :
    cstr (bs ++ rest) <+: cstr bs ↔ (0 : UInt8) ∈ bs ∨ cstr rest = [] := by
  by_cases h : (0 : UInt8) ∈ bs
  · rw [cstr_append_of_mem h]
    exact iff_of_true (List.prefix_refl _) (Or.inl h)
  · rw [cstr_append_of_notMem h, cstr_of_notMem h]
    constructor
    · intro hprefix
      have hlen := hprefix.length_le
      rw [List.length_append] at hlen
      exact Or.inr (List.length_eq_zero_iff.mp (by omega))
    · intro hend
      rw [hend.resolve_left h, List.append_nil]

theorem cstr_cons_eq_nil_iff {b : UInt8} {bs : Bytes} :
    cstr (b :: bs) = [] ↔ b = 0 := by
  by_cases hb : b = 0
  · simp [cstr, hb]
  · simp [cstr, hb]

/-! ## Decimal numerals -/

/-- The digit byte of a number below ten. -/
def digitByte (d : ℕ) : UInt8 :=
  48 + d.toUInt8

/-- The conversion `%u`: no sign, no leading zeros, and `0` for zero. -/
def decimal (n : ℕ) : Bytes :=
  if n = 0 then [digitByte 0] else (Nat.digits 10 n).reverse.map digitByte

/-- The conversion `%d`. -/
def decimalInt : ℤ → Bytes
  | Int.ofNat n => decimal n
  | Int.negSucc n => 45 :: decimal (n + 1)

/-- Decimal digit bytes. -/
def isDigit (b : UInt8) : Bool :=
  48 ≤ b && b ≤ 57

/-- The number a digit byte stands for. -/
def digitVal (b : UInt8) : ℕ :=
  b.toNat - 48

/-- The number a digit string stands for. -/
def numVal (ds : Bytes) : ℕ :=
  ds.foldl (fun acc b => 10 * acc + digitVal b) 0

theorem digitByte_toNat {d : ℕ} (hd : d < 10) :
    (digitByte d).toNat = 48 + d := by
  interval_cases d <;> rfl

theorem isDigit_digitByte {d : ℕ} (hd : d < 10) :
    isDigit (digitByte d) = true := by
  interval_cases d <;> rfl

theorem digitVal_digitByte {d : ℕ} (hd : d < 10) :
    digitVal (digitByte d) = d := by
  rw [digitVal, digitByte_toNat hd]
  omega

theorem decimal_isDigit {n : ℕ} {b : UInt8} (hb : b ∈ decimal n) :
    isDigit b = true := by
  unfold decimal at hb
  split at hb
  · rw [List.mem_singleton] at hb
    subst b
    rfl
  · obtain ⟨d, hd, rfl⟩ := List.mem_map.mp hb
    rw [List.mem_reverse] at hd
    exact isDigit_digitByte (Nat.digits_lt_base (by omega) hd)

theorem decimal_ne_nil (n : ℕ) : decimal n ≠ [] := by
  unfold decimal
  split
  · simp
  · next hn => simp [Nat.digits_ne_nil_iff_ne_zero, hn]

theorem numVal_map_digitByte_reverse
    {ds : List ℕ} (hds : ∀ d ∈ ds, d < 10) :
    numVal (ds.reverse.map digitByte) = Nat.ofDigits 10 ds := by
  induction ds with
  | nil => rfl
  | cons d ds ih =>
      have hd : d < 10 := hds d (by simp)
      have htail := ih fun e he => hds e (by simp [he])
      rw [Nat.ofDigits_cons, ← htail, numVal, numVal, List.reverse_cons,
        List.map_append, List.foldl_append]
      simp only [List.map_cons, List.map_nil, List.foldl_cons, List.foldl_nil,
        digitVal_digitByte hd]
      omega

@[simp] theorem numVal_decimal (n : ℕ) : numVal (decimal n) = n := by
  unfold decimal
  split
  · next hn =>
    subst n
    rfl
  · rw [numVal_map_digitByte_reverse
      fun d hd => Nat.digits_lt_base (by omega) hd]
    exact Nat.ofDigits_digits 10 n

theorem decimal_injective : Function.Injective decimal := by
  intro n m h
  rw [← numVal_decimal n, h, numVal_decimal]

theorem decimal_length_le {n k : ℕ} (hk : 0 < k) (hn : n < 10 ^ k) :
    (decimal n).length ≤ k := by
  unfold decimal
  split
  · exact hk
  · rw [List.length_map, List.length_reverse]
    exact (Nat.digits_length_le_iff (by omega) n).mpr hn

theorem mem_decimalInt {i : ℤ} {b : UInt8} (hb : b ∈ decimalInt i) :
    isDigit b = true ∨ b = 45 := by
  cases i with
  | ofNat n => exact Or.inl (decimal_isDigit hb)
  | negSucc n =>
      rcases List.mem_cons.mp hb with rfl | hb
      · exact Or.inr rfl
      · exact Or.inl (decimal_isDigit hb)

theorem notMem_decimalInt {b : UInt8} (hdigit : isDigit b = false)
    (hsign : b ≠ 45) (i : ℤ) : b ∉ decimalInt i := by
  intro hb
  rcases mem_decimalInt hb with h | h
  · rw [hdigit] at h
    cases h
  · exact hsign h

/-! ## Searching for a byte -/

/-- `memchr`: the first position of `c`. -/
def memchr (c : UInt8) : Bytes → Option ℕ
  | [] => none
  | b :: bs => if b = c then some 0 else (memchr c bs).map (· + 1)

/-- `memrchr`: the last position of `c`. -/
def memrchr (c : UInt8) : Bytes → Option ℕ
  | [] => none
  | b :: bs =>
      match memrchr c bs with
      | some i => some (i + 1)
      | none => if b = c then some 0 else none

theorem memchr_eq_none_iff {c : UInt8} {bs : Bytes} :
    memchr c bs = none ↔ c ∉ bs := by
  induction bs with
  | nil => simp [memchr]
  | cons b bs ih =>
      by_cases hbc : b = c
      · simp [memchr, hbc]
      · simp [memchr, hbc, ih, Ne.symm hbc]

theorem memchr_append_of_notMem {c : UInt8} {as : Bytes} (has : c ∉ as)
    (bs : Bytes) : memchr c (as ++ c :: bs) = some as.length := by
  induction as with
  | nil => simp [memchr]
  | cons a as ih =>
      obtain ⟨hne, hrest⟩ := not_or.mp fun h => has (List.mem_cons.mpr h)
      rw [List.cons_append, memchr, if_neg (Ne.symm hne), ih hrest]
      rfl

theorem exists_split_of_memchr {c : UInt8} {s : Bytes} {i : ℕ}
    (h : memchr c s = some i) :
    ∃ before rest, s = before ++ c :: rest ∧ c ∉ before ∧
      i = before.length := by
  have hmem : c ∈ s := by
    by_contra hnot
    rw [memchr_eq_none_iff.mpr hnot] at h
    cases h
  obtain ⟨before, rest, rfl, hnot⟩ := List.eq_append_cons_of_mem hmem
  refine ⟨before, rest, rfl, hnot, ?_⟩
  rw [memchr_append_of_notMem hnot] at h
  exact (Option.some.inj h).symm

theorem memrchr_eq_none_iff {c : UInt8} {bs : Bytes} :
    memrchr c bs = none ↔ c ∉ bs := by
  induction bs with
  | nil => simp [memrchr]
  | cons b bs ih =>
      cases h : memrchr c bs with
      | none =>
          have hmem : c ∉ bs := ih.mp h
          by_cases hbc : b = c
          · simp [memrchr, h, hbc]
          · simp [memrchr, h, hbc, hmem, Ne.symm hbc]
      | some i =>
          have hmem : c ∈ bs := by
            by_contra hnot
            rw [ih.mpr hnot] at h
            simp at h
          simp [memrchr, h, hmem]

theorem memrchr_append_of_notMem
    {c : UInt8} {as bs : Bytes} (hbs : c ∉ bs) :
    memrchr c (as ++ c :: bs) = some as.length := by
  induction as with
  | nil => simp [memrchr, memrchr_eq_none_iff.mpr hbs]
  | cons a as ih => simp [memrchr, ih]

theorem memrchr_lt {c : UInt8} {bs : Bytes} {i : ℕ}
    (h : memrchr c bs = some i) : i < bs.length := by
  induction bs generalizing i with
  | nil => simp [memrchr] at h
  | cons b bs ih =>
      simp only [memrchr] at h
      split at h
      · next j hj =>
        rw [Option.some.injEq] at h
        have := ih hj
        rw [List.length_cons]
        omega
      · split at h
        · rw [Option.some.injEq] at h
          rw [List.length_cons]
          omega
        · simp at h

theorem eq_append_cons_last {c : UInt8} {bs : Bytes} (hc : c ∈ bs) :
    ∃ as rest, bs = as ++ c :: rest ∧ c ∉ rest := by
  obtain ⟨pre, post, hsplit, hpre⟩ :=
    List.eq_append_cons_of_mem (List.mem_reverse.mpr hc)
  refine ⟨post.reverse, pre.reverse, ?_, by simpa using hpre⟩
  rw [← List.reverse_reverse bs, hsplit]
  simp

/-- The part of a text up to and including its last `c`. -/
def rewind (c : UInt8) (bs : Bytes) : Bytes :=
  match memrchr c bs with
  | some i => bs.take (i + 1)
  | none => []

/-! ## Writing into memory -/

/-- Overwrite the bytes of `mem` from offset `off` on by `bs`. -/
def writeAt (mem : Bytes) (off : ℕ) (bs : Bytes) : Bytes :=
  mem.take off ++ bs ++ mem.drop (off + bs.length)

theorem writeAt_length {mem bs : Bytes} {off : ℕ}
    (h : off + bs.length ≤ mem.length) :
    (writeAt mem off bs).length = mem.length := by
  simp only [writeAt, List.length_append, List.length_take, List.length_drop]
  omega

theorem writeAt_take {mem bs : Bytes} {off n : ℕ}
    (hoff : off ≤ mem.length) (hn : n ≤ off) :
    (writeAt mem off bs).take n = mem.take n := by
  rw [writeAt, List.append_assoc, List.take_append_of_le_length (by
    rw [List.length_take]
    omega), List.take_take, Nat.min_eq_left hn]

theorem writeAt_take_add {mem bs : Bytes} {off n : ℕ}
    (hoff : off ≤ mem.length) (hn : n ≤ bs.length) :
    (writeAt mem off bs).take (off + n) = mem.take off ++ bs.take n := by
  have hlen : (mem.take off).length = off := by
    rw [List.length_take]
    omega
  rw [writeAt, List.append_assoc, List.take_append, hlen,
    List.take_of_length_le (by omega), Nat.add_sub_cancel_left,
    List.take_append_of_le_length hn]

theorem writeAt_drop_take {mem bs : Bytes} {off n : ℕ}
    (hoff : off ≤ mem.length) (hn : n ≤ bs.length) :
    ((writeAt mem off bs).drop off).take n = bs.take n := by
  have hlen : (mem.take off).length = off := by
    rw [List.length_take]
    omega
  rw [writeAt, List.append_assoc, List.drop_left' hlen,
    List.take_append_of_le_length hn]

theorem writeAt_getElem? {mem bs : Bytes} {off i : ℕ}
    (hoff : off ≤ mem.length) (hi : i < bs.length) :
    (writeAt mem off bs)[off + i]? = bs[i]? := by
  have hlen : (mem.take off).length = off := by
    rw [List.length_take]
    omega
  rw [writeAt, List.append_assoc,
    List.getElem?_append_right (by omega), hlen, Nat.add_sub_cancel_left,
    List.getElem?_append_left hi]

theorem writeAt_getElem?_right {mem bs : Bytes} {off i : ℕ}
    (hoff : off ≤ mem.length) (hi : off + bs.length ≤ i) :
    (writeAt mem off bs)[i]? = mem[i]? := by
  have hlen : (mem.take off ++ bs).length = off + bs.length := by
    rw [List.length_append, List.length_take]
    omega
  rw [writeAt, List.getElem?_append_right (by omega), hlen,
    List.getElem?_drop]
  congr 1
  omega

end ByteText

import Phpspy.Support.BufferPrinting
import Phpspy.Zend.Structs

/-!
# Showing values of the target

`sprint_zval` and the functions around it print a value into a buffer: numbers
and strings as they are, arrays as a list of `key=value`.  They call each
other, and what they read may be anything.  This module has the functions and
shows that they stay within the buffer.
-/

namespace Phpspy

open ByteText BufferPrinting

/-! ## Strings and scalars -/

/-- `sprint_zstring` into a buffer.  If the second copy fails, part of it may
have been stored; nobody looks at it. -/
def sprintZstringAt (mem : Remote) (rzstring : ℕ) : Printer Failure :=
  fun buf off size =>
    let buf := put buf off [0]
    match sprintZstring mem rzstring size with
    | .error rv => some (buf, .error (.status rv))
    | .ok bs =>
        some (put (put buf off bs) (off + wrap32 bs.length) [0],
          .ok bs.length)

section Values

-- `floatText` is what `%f` prints for the bits of a double
variable (mem : Remote) (floatText : ℕ → Bytes)

/-- `sprint_zval`, with the function that prints arrays. -/
def sprintZvalWith (arrays : ℕ → Printer Failure) (lzval : Zval) :
    Printer Failure :=
  if lzval.type = zvalTypeLong then
    printText (decimalInt (wrap64 lzval.value))
  else if lzval.type = zvalTypeDouble then
    printText (floatText lzval.value)
  else if lzval.type = zvalTypeString then
    sprintZstringAt mem lzval.value
  else if lzval.type = zvalTypeArray then
    arrays lzval.value
  else fun buf _ _ => some (buf, .error (.status Status.error))

/-! ## Elements -/

/-- `sprint_zarray_packed` -/
def sprintZarrayPackedWith (arrays : ℕ → Printer Failure) (idx : ℕ)
    (lzval : Zval) : Printer Failure :=
  if lzval.type = zvalTypeUndef then fun buf _ _ => some (buf, .ok 0)
  else labelled (decimal idx ++ lit "=")
    (sprintZvalWith mem floatText arrays lzval)

/-- A key and the text behind it, or the text alone if the key does not
fit. -/
def keyed (tmpKey : Bytes) (value : Printer Failure) : Printer Failure :=
  fun buf off size =>
    if size > tmpKey.length + 1 + 1 then
      shifted (tmpKey.length + 1) value
        (snprintf buf off size (cstr tmpKey ++ lit "=")) off size
    else value buf off size

/-- `sprint_zarray_bucket` -/
def sprintZarrayBucketWith (arrays : ℕ → Printer Failure) (lbucket : Bucket) :
    Printer Failure :=
  if lbucket.val.type = zvalTypeUndef then fun buf _ _ => some (buf, .ok 0)
  else if lbucket.key = 0 then sprintZvalWith mem floatText arrays lbucket.val
  else
    match sprintZstring mem lbucket.key strSize with
    | .error rv => fun buf _ _ => some (buf, .error (.status rv))
    | .ok tmpKey => keyed tmpKey (sprintZvalWith mem floatText arrays lbucket.val)

/-! ## Arrays -/

/-- `PHPSPY_MAX_ARRAY_BUCKETS` -/
def maxArrayBuckets : ℕ := 128

/-- `flags & PHPSPY_HASH_FLAG_PACKED` -/
def ZendArray.isPacked (a : ZendArray) : Bool :=
  a.flags.testBit 2

/-- `array_len` -/
def ZendArray.arrayLen (a : ZendArray) : ℕ :=
  min a.nNumUsed maxArrayBuckets

/-- An element of `zvals` or of `buckets`. -/
inductive Slot where
  | packed (idx : ℕ) (lzval : Zval)
  | bucket (lbucket : Bucket)

def Slot.val : Slot → Zval
  | .packed _ lzval => lzval
  | .bucket lbucket => lbucket.val

def structs (size count : ℕ) (bs : Bytes) : List Bytes :=
  (List.range count).map fun i => (bs.drop (size * i)).take size

/-- Copy the elements of an array. -/
def copySlots (lzarray : ZendArray) : Except Status (List Slot) :=
  if lzarray.isPacked then
    (copyProcMem mem lzarray.arData (zvalSize * lzarray.arrayLen)).map
      fun zvals => (structs zvalSize lzarray.arrayLen zvals).mapIdx
        fun i z => .packed i (Zval.ofBytes z)
  else
    (copyProcMem mem lzarray.arData (bucketSize * lzarray.arrayLen)).map
      fun buckets => (structs bucketSize lzarray.arrayLen buckets).map
        fun b => .bucket (Bucket.ofBytes b)

def sprintSlotWith (arrays : ℕ → Printer Failure) : Slot → Printer Failure
  | .packed idx lzval => sprintZarrayPackedWith mem floatText arrays idx lzval
  | .bucket lbucket => sprintZarrayBucketWith mem floatText arrays lbucket

def comma : UInt8 := 44

/-- The elements of an array of which header and elements are copied. -/
def arraySlots (rzarray : ℕ) : Except Status (List Slot) := do
  let lzarray ← copyZendArray mem rzarray
  copySlots mem lzarray

/-- `sprint_zarray`, with the function for arrays in it. -/
def sprintZarrayWith (arrays : ℕ → Printer Failure) (rzarray : ℕ) :
    Printer Failure :=
  match arraySlots mem rzarray with
  | .error rv => fun buf _ _ => some (buf, .error (.status rv))
  | .ok slots =>
      printList comma .underflow
        (slots.map (sprintSlotWith mem floatText arrays))

/-- `sprint_zarray`, with a bound on the depth of the recursion. -/
def sprintZarray : ℕ → ℕ → Printer Failure
  | 0, _ => fun _ _ _ => none
  | fuel + 1, rzarray =>
      sprintZarrayWith mem floatText (sprintZarray fuel) rzarray

/-- `sprint_zval` -/
def sprintZval (fuel : ℕ) (lzval : Zval) : Printer Failure :=
  sprintZvalWith mem floatText (sprintZarray mem floatText fuel) lzval

/-- `sprint_zarray_packed` -/
def sprintZarrayPacked (fuel : ℕ) (idx : ℕ) (lzval : Zval) : Printer Failure :=
  sprintZarrayPackedWith mem floatText (sprintZarray mem floatText fuel) idx
    lzval

/-- `sprint_zarray_bucket` -/
def sprintZarrayBucket (fuel : ℕ) (lbucket : Bucket) : Printer Failure :=
  sprintZarrayBucketWith mem floatText (sprintZarray mem floatText fuel) lbucket

/-! ## Parameters of a statement -/

/-- `sizeof(pdo_bound_param_data)` -/
def pdoBoundParamSize : ℕ := 76

/-- The name of a bound parameter, or its number. -/
def pdoBindName (lbp : Bytes) : Except Status Bytes :=
  if field lbp 40 8 ≠ 0 then sprintZstring mem (field lbp 40 8) strSize
  else .ok (decimalInt (wrap64 (field lbp 32 8)))

/-- The value of a bound parameter; a reference is followed if that works. -/
def pdoBindValue (lbp : Bytes) : Zval :=
  let parameter := Zval.ofBytes lbp
  if parameter.type = zvalTypeReference ∧ parameter.value ≠ 0 then
    match copyProcMem mem (ptrAdd parameter.value 8) zvalSize with
    | .ok lref => Zval.ofBytes lref
    | .error _ => parameter
  else parameter

/-- `sprint_pdo_bind` -/
def sprintPdoBind (fuel : ℕ) (lzval : Zval) : Printer Failure :=
  let nothing : Printer Failure := fun buf _ _ => some (buf, .ok 0)
  if lzval.type = zvalTypeUndef then nothing
  else if lzval.value = 0 then nothing
  else
    match copyProcMem mem lzval.value pdoBoundParamSize with
    | .error _ => nothing
    | .ok lbp =>
        match pdoBindName mem lbp with
        | .error _ => nothing
        | .ok tmpName =>
            labelled (cstr tmpName ++ lit "=")
              (sprintZval mem floatText fuel (pdoBindValue mem lbp))

/-- `sprint_pdo_binds` -/
def sprintPdoBinds (fuel : ℕ) (rht : ℕ) : Printer Failure :=
  if rht = 0 then fun buf _ _ => some (buf, .ok 0)
  else
    match copyZendArray mem rht with
    | .error rv => fun buf _ _ => some (buf, .error (.status rv))
    | .ok lht =>
        if lht.arrayLen = 0 ∨ lht.arData = 0 then
          fun buf _ _ => some (buf, .ok 0)
        else
          match copySlots mem lht with
          | .error rv => fun buf _ _ => some (buf, .error (.status rv))
          | .ok slots =>
              printList comma .underflow
                (slots.map fun s => sprintPdoBind mem floatText fuel s.val)

end Values

/-! ## Bounds -/

theorem Remote.length_bytes (mem : Remote) (addr size : ℕ) :
    (mem.bytes addr size).length = size := by
  rw [Remote.bytes, List.length_map, List.length_range]

/-- `sprint_zstring` leaves room for the terminator, and its length is an
`int`. -/
theorem sprintZstring_length {mem : Remote} {rzstring size : ℕ} {bs : Bytes}
    (h : sprintZstring mem rzstring size = .ok bs) :
    bs.length ≤ max 1 size - 1 ∧ bs.length ≤ maxTransfer := by
  unfold sprintZstring at h
  cases hcopy : copyProcMem mem rzstring 25 with
  | error rv => simp [hcopy, bind, Except.bind] at h
  | ok lzstring =>
      simp only [hcopy, bind, Except.bind] at h
      obtain ⟨-, -, hmax, rfl⟩ := copyProcMem_eq_ok_iff.mp h
      rw [Remote.length_bytes]
      exact ⟨Nat.min_le_right _ _, hmax⟩

theorem const_bounded {r : Except Failure ℕ} (hr : r ≠ .error .underflow)
    (hlen : ∀ len, r = .ok len → len = 0) :
    Bounded Failure.underflow fun buf _ _ => some (buf, r) := by
  intro buf off size hsize buf' r' h
  obtain ⟨rfl, rfl⟩ := Prod.mk.inj (Option.some.inj h)
  refine ⟨Within.refl _ _ _, hr, fun len hr' => ?_⟩
  rw [hlen len hr']
  exact Nat.zero_le _

theorem error_bounded (rv : Status) :
    Bounded Failure.underflow fun buf _ _ =>
      some (buf, .error (.status rv)) :=
  const_bounded (by simp) nofun

theorem nothing_bounded :
    Bounded Failure.underflow fun buf _ _ => some (buf, .ok 0) :=
  const_bounded nofun (by rintro _ ⟨⟩; rfl)

theorem wrap32_length {bs : Bytes} (h : bs.length ≤ maxTransfer) :
    wrap32 bs.length = bs.length := by
  rw [maxTransfer] at h
  exact wrap32_of_le (by omega) (by omega)

theorem sprintZstringAt_bounded (mem : Remote) (rzstring : ℕ) :
    Bounded .underflow (sprintZstringAt mem rzstring) := by
  intro buf off size hsize buf' r h
  have hfirst : Within off size buf (put buf off [0]) :=
    within_put le_rfl (by simpa using hsize)
  rw [sprintZstringAt] at h
  cases hstring : sprintZstring mem rzstring size with
  | error rv =>
      simp only [hstring] at h
      obtain ⟨rfl, rfl⟩ := Prod.mk.inj (Option.some.inj h)
      exact ⟨hfirst, by simp, nofun⟩
  | ok bs =>
      simp only [hstring] at h
      obtain ⟨rfl, rfl⟩ := Prod.mk.inj (Option.some.inj h)
      obtain ⟨hlen, hmax⟩ := sprintZstring_length hstring
      have hint := wrap32_length hmax
      refine ⟨(hfirst.trans (within_put le_rfl ?_)).trans
        (within_put ?_ ?_), nofun, ?_⟩
      · omega
      · omega
      · rw [hint, List.length_singleton]
        omega
      · rintro _ ⟨⟩
        omega

section Values

variable (mem : Remote) (floatText : ℕ → Bytes) {arrays : ℕ → Printer Failure}

theorem sprintZvalWith_bounded
    (harrays : ∀ r, Bounded .underflow (arrays r)) (lzval : Zval) :
    Bounded .underflow (sprintZvalWith mem floatText arrays lzval) := by
  unfold sprintZvalWith
  split
  · exact printText_bounded _
  · split
    · exact printText_bounded _
    · split
      · exact sprintZstringAt_bounded _ _
      · split
        · exact harrays _
        · exact error_bounded _

theorem keyed_bounded {value : Printer Failure}
    (hvalue : Bounded .underflow value) (tmpKey : Bytes) :
    Bounded .underflow (keyed tmpKey value) := by
  intro buf off size hsize buf' r h
  rw [keyed] at h
  by_cases hroom : size > tmpKey.length + 1 + 1
  · rw [if_pos hroom] at h
    obtain ⟨hwithin, hrest⟩ := hvalue.shifted (by omega) h
    exact ⟨(within_snprintf _ _ _ _).trans hwithin, hrest⟩
  · rw [if_neg hroom] at h
    exact hvalue _ _ _ hsize _ _ h

theorem sprintZarrayPackedWith_bounded
    (harrays : ∀ r, Bounded .underflow (arrays r)) (idx : ℕ) (lzval : Zval) :
    Bounded .underflow
      (sprintZarrayPackedWith mem floatText arrays idx lzval) := by
  unfold sprintZarrayPackedWith
  split
  · exact nothing_bounded
  · exact (sprintZvalWith_bounded mem floatText harrays lzval).labelled _

theorem sprintZarrayBucketWith_bounded
    (harrays : ∀ r, Bounded .underflow (arrays r)) (lbucket : Bucket) :
    Bounded .underflow
      (sprintZarrayBucketWith mem floatText arrays lbucket) := by
  have hvalue := sprintZvalWith_bounded mem floatText harrays lbucket.val
  unfold sprintZarrayBucketWith
  split
  · exact nothing_bounded
  · split
    · exact hvalue
    · split
      · exact error_bounded _
      · exact keyed_bounded hvalue _

theorem sprintSlotWith_bounded
    (harrays : ∀ r, Bounded .underflow (arrays r)) (s : Slot) :
    Bounded .underflow (sprintSlotWith mem floatText arrays s) := by
  cases s with
  | packed idx lzval =>
      exact sprintZarrayPackedWith_bounded mem floatText harrays idx lzval
  | bucket lbucket =>
      exact sprintZarrayBucketWith_bounded mem floatText harrays lbucket

theorem sprintZarrayWith_bounded
    (harrays : ∀ r, Bounded .underflow (arrays r)) (rzarray : ℕ) :
    Bounded .underflow (sprintZarrayWith mem floatText arrays rzarray) := by
  unfold sprintZarrayWith
  split
  · exact error_bounded _
  · refine printList_bounded fun p hp => ?_
    obtain ⟨s, -, rfl⟩ := List.mem_map.mp hp
    exact sprintSlotWith_bounded mem floatText harrays s

theorem sprintZarray_bounded (fuel rzarray : ℕ) :
    Bounded .underflow (sprintZarray mem floatText fuel rzarray) := by
  induction fuel generalizing rzarray with
  | zero =>
      intro buf off size _ buf' r h
      cases h
  | succ fuel ih => exact sprintZarrayWith_bounded mem floatText ih rzarray

theorem sprintPdoBind_bounded (fuel : ℕ) (lzval : Zval) :
    Bounded .underflow (sprintPdoBind mem floatText fuel lzval) := by
  unfold sprintPdoBind
  split
  · exact nothing_bounded
  · split
    · exact nothing_bounded
    · split
      · exact nothing_bounded
      · split
        · exact nothing_bounded
        · exact (sprintZvalWith_bounded mem floatText
            (sprintZarray_bounded mem floatText fuel) _).labelled _

theorem sprintPdoBinds_bounded (fuel rht : ℕ) :
    Bounded .underflow (sprintPdoBinds mem floatText fuel rht) := by
  unfold sprintPdoBinds
  split
  · exact nothing_bounded
  · split
    · exact error_bounded _
    · split
      · exact nothing_bounded
      · split
        · exact error_bounded _
        · refine printList_bounded fun p hp => ?_
          obtain ⟨s, -, rfl⟩ := List.mem_map.mp hp
          exact sprintPdoBind_bounded mem floatText fuel s.val

/-- Whatever the memory has, all functions that print values stay within the
buffer. -/
theorem rendering_bounded (fuel : ℕ) :
    (∀ lzval, Bounded .underflow (sprintZval mem floatText fuel lzval)) ∧
      (∀ rzarray,
        Bounded .underflow (sprintZarray mem floatText fuel rzarray)) ∧
      (∀ idx lzval, Bounded .underflow
        (sprintZarrayPacked mem floatText fuel idx lzval)) ∧
      (∀ lbucket, Bounded .underflow
        (sprintZarrayBucket mem floatText fuel lbucket)) ∧
      (∀ rht, Bounded .underflow (sprintPdoBinds mem floatText fuel rht)) ∧
      ∀ lzval, Bounded .underflow (sprintPdoBind mem floatText fuel lzval) := by
  have harrays := sprintZarray_bounded mem floatText fuel
  exact ⟨sprintZvalWith_bounded mem floatText harrays, harrays,
    sprintZarrayPackedWith_bounded mem floatText harrays,
    sprintZarrayBucketWith_bounded mem floatText harrays,
    sprintPdoBinds_bounded mem floatText fuel,
    sprintPdoBind_bounded mem floatText fuel⟩

end Values

end Phpspy

import Phpspy.Trace.Stack

/-!
# Values, buckets and arrays of the Zend engine

The structures that `phpspy` copies to show variables.  Their layout is the
same in all `php_structs` headers.  Also the ways in which a function that
reads them can fail.
-/

namespace Phpspy

open ByteText

/-! ## Copied structures -/

/-- The fields of a `zval` that are used. -/
structure Zval where
  /-- `value`: a number, the bits of a double, or a pointer -/
  value : ℕ
  /-- `u1.v.type` -/
  type : ℕ
  /-- `u2.next` -/
  next : ℕ
deriving DecidableEq, Repr

def Zval.ofBytes (bs : Bytes) : Zval :=
  ⟨field bs 0 8, field bs 8 1, field bs 12 4⟩

/-- `sizeof(zval)` -/
def zvalSize : ℕ := 16

structure Bucket where
  val : Zval
  h : ℕ
  /-- A `zend_string`, or `NULL` for an integer key. -/
  key : ℕ
deriving DecidableEq, Repr

def Bucket.ofBytes (bs : Bytes) : Bucket :=
  ⟨Zval.ofBytes bs, field bs 16 8, field bs 24 8⟩

/-- `sizeof(Bucket)` -/
def bucketSize : ℕ := 32

/-- The fields of a `zend_array` that are used. -/
structure ZendArray where
  flags : ℕ
  nTableMask : ℕ
  arData : ℕ
  nNumUsed : ℕ
deriving DecidableEq, Repr

def ZendArray.ofBytes (bs : Bytes) : ZendArray :=
  ⟨field bs 8 1, field bs 12 4, field bs 16 8, field bs 24 4⟩

/-- `sizeof(zend_array)` -/
def zendArraySize : ℕ := 36

/-- `PHPSPY_ZVAL_TYPE_*` -/
def zvalTypeUndef : ℕ := 0
def zvalTypeLong : ℕ := 4
def zvalTypeDouble : ℕ := 5
def zvalTypeString : ℕ := 6
def zvalTypeArray : ℕ := 7
def zvalTypeReference : ℕ := 10

/-- The value of a 64-bit two's complement `long`. -/
def wrap64 (z : ℤ) : ℤ :=
  z.bmod (2 ^ 64)

theorem leVal_lt (bs : Bytes) : leVal bs < 256 ^ bs.length := by
  induction bs with
  | nil => simp [leVal]
  | cons b bs ih =>
      have hb := b.toNat_lt
      rw [leVal, List.length_cons, Nat.pow_succ]
      omega

theorem field_lt (bs : Bytes) (offset size : ℕ) :
    field bs offset size < 256 ^ size := by
  refine (leVal_lt _).trans_le (Nat.pow_le_pow_right (by decide) ?_)
  exact List.length_take_le _ _

theorem Zval.value_lt (bs : Bytes) : (Zval.ofBytes bs).value < 2 ^ 64 :=
  field_lt bs 0 8

theorem Zval.next_lt (bs : Bytes) : (Zval.ofBytes bs).next < 2 ^ 32 :=
  field_lt bs 12 4

def copyZendArray (mem : Remote) (rzarray : ℕ) : Except Status ZendArray :=
  (copyProcMem mem rzarray zendArraySize).map ZendArray.ofBytes

def copyBucket (mem : Remote) (addr : ℕ) : Except Status Bucket :=
  (copyProcMem mem addr bucketSize).map Bucket.ofBytes

theorem copyBucket_next_lt {mem : Remote} {addr : ℕ} {b : Bucket}
    (h : copyBucket mem addr = .ok b) : b.val.next < 2 ^ 32 := by
  cases hcopy : copyProcMem mem addr bucketSize with
  | error rv => simp [copyBucket, hcopy, Except.map] at h
  | ok bs =>
      simp only [copyBucket, hcopy, Except.map, Except.ok.injEq] at h
      rw [← h]
      exact Zval.next_lt bs

/-! ## Failures -/

/-- How a function that reads arrays can fail: with a status, or by a
computation that has no result in C or that its author rules out. -/
inductive Failure where
  | status (rv : Status)
  /-- `%` by zero -/
  | divideByZero
  /-- A remaining buffer size below one. -/
  | underflow
deriving DecidableEq, Repr

/-! ## Strings -/

/-- The memory has a `zend_string` with this text at an address, and lets it
be read. -/
structure HoldsString (mem : Remote) (addr : ℕ) (text : Bytes) : Prop where
  header : ∃ bs, copyProcMem mem addr 25 = .ok bs ∧
    field bs 16 8 = text.length
  content : ∀ n ≤ text.length,
    copyProcMem mem (ptrAdd addr 24) n = .ok (text.take n)

theorem HoldsString.sprintZstring_eq {mem : Remote} {addr : ℕ} {text : Bytes}
    (h : HoldsString mem addr text) (bufSize : ℕ) :
    sprintZstring mem addr bufSize = .ok (text.take (bufSize - 1)) := by
  obtain ⟨bs, hcopy, hlen⟩ := h.header
  have hmin : min text.length (max 1 bufSize - 1) ≤ text.length :=
    Nat.min_le_left _ _
  have hread := h.content _ hmin
  have htake : text.take (min text.length (max 1 bufSize - 1)) =
      text.take (bufSize - 1) := by
    rw [List.take_eq_take_iff]
    omega
  rw [htake] at hread
  simp only [sprintZstring, hcopy, bind, Except.bind, hlen]
  exact hread

theorem HoldsString.unique {mem : Remote} {addr : ℕ} {text text' : Bytes}
    (h : HoldsString mem addr text) (h' : HoldsString mem addr text') :
    text = text' := by
  obtain ⟨bs, hcopy, hlen⟩ := h.header
  obtain ⟨bs', hcopy', hlen'⟩ := h'.header
  have hbs : bs = bs' := by
    rw [hcopy] at hcopy'
    exact Except.ok.inj hcopy'
  have hlength : text.length = text'.length := by
    rw [← hlen, ← hlen', hbs]
  have hread := h.content _ le_rfl
  rw [hlength, h'.content _ le_rfl, List.take_length, ← hlength,
    List.take_length] at hread
  exact (Except.ok.inj hread).symm

/-- A key that fits a buffer of `PHPSPY_STR_SIZE` bytes as a C string. -/
structure ShortKey where
  text : Bytes
  short : text.length ≤ 255
  noNul : (0 : UInt8) ∉ text

/-! ## Images -/

/-- An image that has some blocks, and zeros elsewhere; all of it can be
read. -/
def Remote.ofBlocks (blocks : List (ℕ × Bytes)) : Remote where
  byte addr :=
    match blocks.find? fun b => b.1 ≤ addr && addr < b.1 + b.2.length with
    | some b => b.2.getD (addr - b.1) 0
    | none => 0
  fault _ _ := none

def leBytes : ℕ → ℕ → Bytes
  | 0, _ => []
  | size + 1, n => (n % 256).toUInt8 :: leBytes size (n / 256)

def Zval.image (z : Zval) : Bytes :=
  leBytes 8 z.value ++ leBytes 4 z.type ++ leBytes 4 z.next

def Bucket.image (b : Bucket) : Bytes :=
  b.val.image ++ leBytes 8 b.h ++ leBytes 8 b.key

def ZendArray.image (a : ZendArray) : Bytes :=
  List.replicate 8 0 ++ leBytes 4 a.flags ++ leBytes 4 a.nTableMask ++
    leBytes 8 a.arData ++ leBytes 4 a.nNumUsed ++ List.replicate 8 0

def stringImage (text : Bytes) : Bytes :=
  List.replicate 16 0 ++ leBytes 8 text.length ++ text

theorem Remote.bytes_take (mem : Remote) (addr : ℕ) {m n : ℕ} (h : m ≤ n) :
    (mem.bytes addr n).take m = mem.bytes addr m := by
  rw [Remote.bytes, Remote.bytes, ← List.map_take, List.take_range,
    Nat.min_eq_left h]

theorem HoldsString.of_bytes {mem : Remote} {addr : ℕ} {text : Bytes}
    (hread : ∀ raddr size, mem.fault raddr size = none)
    (haddr : addr ≠ 0) (hptr : ptrAdd addr 24 ≠ 0)
    (hlength : text.length ≤ maxTransfer)
    (hheader : field (mem.bytes addr 25) 16 8 = text.length)
    (hcontent : mem.bytes (ptrAdd addr 24) text.length = text) :
    HoldsString mem addr text := by
  refine ⟨⟨_, copyProcMem_eq_ok_iff.mpr ⟨haddr, hread _ _, by decide, rfl⟩,
    hheader⟩, fun n hn => ?_⟩
  refine copyProcMem_eq_ok_iff.mpr
    ⟨hptr, hread _ _, hn.trans hlength, ?_⟩
  rw [← hcontent]
  exact Remote.bytes_take mem _ hn

end Phpspy

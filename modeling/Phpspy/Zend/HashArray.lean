import Mathlib.Data.Nat.Bitwise
import Mathlib.Tactic.IntervalCases
import Phpspy.Zend.Lookup

/-!
# What a lookup finds

A hash array as the engine lays it out in memory, and when `copy_zarray_bucket`
finds in it what it should: the bucket of the element with the requested key,
or nothing.
-/

namespace Phpspy

open ByteText Walks

/-! ## Slots -/

/-- The slot of a hash, `(int32_t)(h | nTableMask)`, counted in `uint32_t`s
from `arData`. -/
def zendSlot (h nTableMask : ℕ) : ℤ :=
  wrap32 (h ||| nTableMask : ℕ)

def zendSlotAddr (arData : ℕ) (slot : ℤ) : ℕ :=
  ((arData + 4 * slot) % 2 ^ 64).toNat

theorem or_mask_mod {bits h : ℕ} (hbits : bits ≤ 32) :
    (h ||| (2 ^ 32 - 2 ^ bits)) % 2 ^ 32 =
      2 ^ 32 - 2 ^ bits + h % 2 ^ bits := by
  have hmask : 2 ^ 32 - 2 ^ bits = 2 ^ bits * (2 ^ (32 - bits) - 1) := by
    rw [Nat.mul_sub, Nat.mul_one, ← Nat.pow_add, Nat.add_sub_cancel' hbits]
  rw [hmask, Nat.two_pow_add_eq_or_of_lt (Nat.mod_lt _ (Nat.two_pow_pos _))]
  apply Nat.eq_of_testBit_eq
  intro i
  simp only [Nat.testBit_mod_two_pow, Nat.testBit_or, Nat.testBit_two_pow_mul,
    Nat.testBit_two_pow_sub_one]
  by_cases hi : i < bits
  · simp [hi, hi.trans_le hbits, Nat.not_le.mpr hi]
  · have hge : bits ≤ i := Nat.le_of_not_lt hi
    have hlt : i - bits < 32 - bits ↔ i < 32 := by omega
    by_cases h32 : i < 32 <;> simp [hi, hge, hlt, h32]

/-- With a power of two of slots, the slots of the engine count back from
`arData` by the hash modulo their number. -/
theorem zendSlot_eq {bits h : ℕ} (hbits : bits ≤ 31) :
    zendSlot h (2 ^ 32 - 2 ^ bits) =
      ((h % 2 ^ bits : ℕ) : ℤ) - (2 ^ bits : ℕ) := by
  have hpow : 2 ^ bits ≤ 2 ^ 31 := Nat.pow_le_pow_right (by decide) hbits
  have hlt : h % 2 ^ bits < 2 ^ bits := Nat.mod_lt _ (Nat.two_pow_pos _)
  have hmod := or_mask_mod (h := h) (hbits.trans (by decide))
  rw [zendSlot, wrap32, Int.bmod_def]
  generalize h ||| (2 ^ 32 - 2 ^ bits) = x at hmod ⊢
  generalize h % 2 ^ bits = r at hlt hmod ⊢
  generalize 2 ^ bits = p at hpow hlt hmod ⊢
  push_cast
  rw [if_neg] <;> omega

theorem hashTableSize_mask {bits : ℕ} (hbits : bits ≤ 31) :
    hashTableSize (2 ^ 32 - 2 ^ bits) = 2 ^ bits := by
  have hpow : 2 ^ bits ≤ 2 ^ 31 := Nat.pow_le_pow_right (by decide) hbits
  have hpos : 0 < 2 ^ bits := Nat.two_pow_pos bits
  rw [hashTableSize]
  generalize 2 ^ bits = p at hpow hpos ⊢
  omega

theorem hashSlotAddr_eq {bits : ℕ} (hbits : bits ≤ 31) (arData h : ℕ) :
    hashSlotAddr arData (2 ^ bits) (h % 2 ^ bits) =
      zendSlotAddr arData (zendSlot h (2 ^ 32 - 2 ^ bits)) := by
  have hpow : 2 ^ bits ≤ 2 ^ 31 := Nat.pow_le_pow_right (by decide) hbits
  rw [zendSlot_eq hbits, hashSlotAddr, zendSlotAddr]
  generalize h % 2 ^ bits = r
  generalize 2 ^ bits = p at hpow ⊢
  omega

/-! ## Arrays in memory -/

/-- An element of an array: the index of its bucket, the bucket, and the key
if it is a string. -/
structure Element where
  index : ℕ
  bucket : Bucket
  key : Option Bytes

def headIndex : List Element → ℕ
  | [] => invalidIndex
  | e :: _ => e.index

/-- The memory has a chain: its buckets, each with the index of the next. -/
def Linked (mem : Remote) (arData : ℕ) : List Element → Prop
  | [] => True
  | e :: chain =>
      e.index < invalidIndex ∧
        copyBucket mem (ptrAdd arData (bucketSize * e.index)) =
          .ok e.bucket ∧
        e.bucket.val.next = headIndex chain ∧ Linked mem arData chain

def HoldsKey (signed : Bool) (mem : Remote) (e : Element) : Prop :=
  match e.key with
  | none => e.bucket.key = 0
  | some text =>
      e.bucket.key ≠ 0 ∧ HoldsString mem e.bucket.key text ∧
        e.bucket.h = (djbx33a signed text).toNat

/-- A hash array in memory, laid out as the engine does. -/
structure HashArray (signed : Bool) (mem : Remote) (rzarray : ℕ) where
  header : ZendArray
  copied : copyZendArray mem rzarray = .ok header
  /-- There are `2 ^ bits` slots. -/
  bits : ℕ
  bits_le : bits ≤ 31
  mask_eq : header.nTableMask = 2 ^ 32 - 2 ^ bits
  elements : List Element
  /-- The elements on the chain of a slot. -/
  chain : ℤ → List Element
  mem_chain : ∀ slot, -2 ^ bits ≤ slot → slot < 0 → ∀ e,
    e ∈ chain slot ↔
      e ∈ elements ∧ zendSlot e.bucket.h header.nTableMask = slot
  slots : ∀ slot, -2 ^ bits ≤ slot → slot < 0 →
    ∃ bs, copyProcMem mem (zendSlotAddr header.arData slot) 4 = .ok bs ∧
      leVal bs = headIndex (chain slot)
  linked : ∀ slot, -2 ^ bits ≤ slot → slot < 0 →
    Linked mem header.arData (chain slot)
  keys : ∀ e ∈ elements, HoldsKey signed mem e
  distinct : ∀ e ∈ elements, ∀ e' ∈ elements, e.key ≠ none →
    e.key = e'.key → e = e'

namespace HashArray

variable {signed : Bool} {mem : Remote} {rzarray : ℕ}

/-- What a lookup should return: the bucket of the element with the key, or an
error if there is no such element. -/
def Finds (a : HashArray signed mem rzarray) (key : ShortKey)
    (result : Except Failure Bucket) : Prop :=
  (∀ e ∈ a.elements, e.key = some key.text → result = .ok e.bucket) ∧
    ((∀ e ∈ a.elements, e.key ≠ some key.text) →
      result = .error (.status Status.error))

/-- The chain that has the element with a key, if there is one. -/
def chainOf (a : HashArray signed mem rzarray) (key : ShortKey) :
    List Element :=
  a.chain (zendSlot (djbx33a signed key.text).toNat a.header.nTableMask)

/-- On the way to the element with the key, or to the end of the chain, there
are only elements with string keys that differ from it as C strings of at most
255 bytes. -/
def Undisturbed (a : HashArray signed mem rzarray) (key : ShortKey) : Prop :=
  ∀ e ∈ (a.chainOf key).takeWhile (fun e => e.key ≠ some key.text),
    ∃ text, e.key = some text ∧ cstr (text.take 255) ≠ key.text

end HashArray

/-! ## Walking a chain -/

/-- The loop of `copy_zarray_bucket` takes an element. -/
def takes (key : Bytes) (e : Element) : Bool :=
  match e.key with
  | none => true
  | some text => key = cstr (text.take 255)

theorem chainStep_element {signed : Bool} {mem : Remote} {arData : ℕ}
    {key : Bytes} {e : Element} (hindex : e.index < invalidIndex)
    (hcopy : copyBucket mem (ptrAdd arData (bucketSize * e.index)) =
      .ok e.bucket)
    (hkey : HoldsKey signed mem e) :
    chainStep mem arData key e.index =
      if takes key e then .inl (.ok e.bucket)
      else .inr e.bucket.val.next := by
  rcases e with ⟨index, bucket, _ | text⟩
  · exact chainStep_of_null hindex.ne hcopy hkey
  · obtain ⟨hne, hstring, -⟩ := hkey
    rw [chainStep_of_string hindex.ne hcopy hne
      (hstring.sprintZstring_eq strSize)]
    simp only [takes, decide_eq_true_eq]
    rfl

/-- The walk along a chain ends at the first element that the loop takes. -/
theorem walk_chain {signed : Bool} {mem : Remote} {arData : ℕ} (key : Bytes)
    {chain : List Element} (hlinked : Linked mem arData chain)
    (hkeys : ∀ e ∈ chain, HoldsKey signed mem e) :
    walk (chainStep mem arData key) (chain.length + 1) (headIndex chain) =
      some (match chain.find? (takes key) with
        | some e => .ok e.bucket
        | none => .error (.status Status.error)) := by
  induction chain with
  | nil => exact walk_of_inl chainStep_invalid 0
  | cons e chain ih =>
      obtain ⟨hindex, hcopy, hnext, hlinked⟩ := hlinked
      have hstep : chainStep mem arData key e.index =
          if takes key e then .inl (.ok e.bucket)
          else .inr e.bucket.val.next :=
        chainStep_element hindex hcopy (hkeys e List.mem_cons_self)
      rw [List.length_cons, List.find?_cons]
      cases htakes : takes key e with
      | true =>
          rw [htakes] at hstep
          exact walk_of_inl hstep _
      | false =>
          rw [htakes, hnext] at hstep
          refine (walk_of_goes hstep _).trans (ih hlinked ?_)
          exact fun e' he' => hkeys e' (List.mem_cons_of_mem e he')

section Find

variable {α : Type*} {p q : α → Bool}

theorem find?_eq_of_takeWhile (hpq : ∀ a, p a = true → q a = true)
    {l : List α} (h : ∀ a ∈ l.takeWhile (fun a => !p a), q a = false) :
    l.find? q = l.find? p := by
  induction l with
  | nil => rfl
  | cons a l ih =>
      cases hp : p a with
      | true => rw [List.find?_cons, List.find?_cons, hp, hpq a hp]
      | false =>
          rw [List.takeWhile_cons, hp] at h
          have hq := h a List.mem_cons_self
          rw [List.find?_cons, List.find?_cons, hp, hq]
          exact ih fun b hb => h b (List.mem_cons_of_mem a hb)

theorem find?_of_mem_takeWhile {l : List α} {a : α}
    (ha : a ∈ l.takeWhile (fun a => !p a)) (hq : q a = true) :
    ∃ b, l.find? q = some b ∧ p b = false := by
  induction l with
  | nil => cases ha
  | cons b l ih =>
      cases hp : p b with
      | true => simp [hp] at ha
      | false =>
          rw [List.takeWhile_cons, hp] at ha
          cases hqb : q b with
          | true => exact ⟨b, by rw [List.find?_cons, hqb], hp⟩
          | false =>
              rcases List.mem_cons.mp ha with rfl | hmem
              · rw [hq] at hqb
                cases hqb
              · obtain ⟨c, hfind, hc⟩ := ih hmem
                exact ⟨c, by rw [List.find?_cons, hqb, hfind], hc⟩

end Find

/-! ## The result of a lookup -/

namespace HashArray

variable {signed : Bool} {mem : Remote} {rzarray : ℕ}

theorem zendSlot_mem (a : HashArray signed mem rzarray) (h : ℕ) :
    -2 ^ a.bits ≤ zendSlot h a.header.nTableMask ∧
      zendSlot h a.header.nTableMask < 0 := by
  have hlt : h % 2 ^ a.bits < 2 ^ a.bits := Nat.mod_lt _ (Nat.two_pow_pos _)
  rw [a.mask_eq, zendSlot_eq a.bits_le]
  constructor
  · push_cast
    omega
  · omega

theorem mem_chainOf (a : HashArray signed mem rzarray) {key : ShortKey}
    {e : Element} :
    e ∈ a.chainOf key ↔ e ∈ a.elements ∧
      zendSlot e.bucket.h a.header.nTableMask =
        zendSlot (djbx33a signed key.text).toNat a.header.nTableMask :=
  a.mem_chain _ (a.zendSlot_mem _).1 (a.zendSlot_mem _).2 e

theorem mem_chainOf_of_key (a : HashArray signed mem rzarray)
    {key : ShortKey} {e : Element} (he : e ∈ a.elements)
    (hkey : e.key = some key.text) : e ∈ a.chainOf key := by
  have hholds := a.keys e he
  rw [HoldsKey, hkey] at hholds
  exact a.mem_chainOf.mpr ⟨he, by rw [hholds.2.2]⟩

/-- What the lookup returns: the first element on the chain that the loop
takes. -/
def firstTaken (a : HashArray signed mem rzarray) (key : ShortKey) :
    Except Failure Bucket :=
  match (a.chainOf key).find? (takes key.text) with
  | some e => .ok e.bucket
  | none => .error (.status Status.error)

/-- With enough fuel, `copy_zarray_bucket` returns that element. -/
theorem copyZarrayBucket_eq (a : HashArray signed mem rzarray)
    (key : ShortKey) {fuel : ℕ} (hfuel : (a.chainOf key).length < fuel) :
    copyZarrayBucket mem key.text signed fuel rzarray =
      some (a.firstTaken key) := by
  have hrange := a.zendSlot_mem (djbx33a signed key.text).toNat
  obtain ⟨bs, hread, hhead⟩ := a.slots _ hrange.1 hrange.2
  have hsize : hashTableSize a.header.nTableMask = 2 ^ a.bits := by
    rw [a.mask_eq, hashTableSize_mask a.bits_le]
  rw [a.mask_eq, ← hashSlotAddr_eq a.bits_le] at hread
  have hwalk := walk_chain key.text (a.linked _ hrange.1 hrange.2)
    fun e he => a.keys e (a.mem_chainOf.mp he).1
  have hhash := hashFunc_eq_djbx33a signed key.text []
  rw [List.append_nil] at hhash
  rw [copyZarrayBucket, a.copied]
  simp only [hsize, (Nat.two_pow_pos a.bits).ne', if_false, hhash, hread,
    hhead]
  exact walk_mono hwalk hfuel

theorem takes_of_key {key : ShortKey} {e : Element}
    (hkey : e.key = some key.text) : takes key.text e = true := by
  rw [takes, hkey]
  refine decide_eq_true ?_
  rw [List.take_of_length_le key.short, cstr_of_notMem key.noNul]

theorem takes_eq_false_iff {key : Bytes} {e : Element} :
    takes key e = false ↔
      ∃ text, e.key = some text ∧ cstr (text.take 255) ≠ key := by
  rcases e with ⟨index, bucket, _ | text⟩
  · simp [takes]
  · simp [takes, eq_comm]

theorem key_eq_of_bucket_eq (a : HashArray signed mem rzarray)
    {e e' : Element} {text : Bytes} (he : e ∈ a.elements)
    (he' : e' ∈ a.elements) (hkey : e.key = some text)
    (hbucket : e'.bucket = e.bucket) : e'.key = some text := by
  have hholds := a.keys e he
  have hholds' := a.keys e' he'
  rw [HoldsKey, hkey] at hholds
  rw [HoldsKey, hbucket] at hholds'
  cases hkey' : e'.key with
  | none =>
      rw [hkey'] at hholds'
      exact absurd hholds' hholds.1
  | some text' =>
      rw [hkey'] at hholds'
      rw [hholds'.2.1.unique hholds.2.1]

theorem finds_of_undisturbed (a : HashArray signed mem rzarray)
    {key : ShortKey} (h : a.Undisturbed key) :
    a.Finds key (a.firstTaken key) := by
  have hfind : (a.chainOf key).find? (takes key.text) =
      (a.chainOf key).find? (fun e => e.key = some key.text) := by
    refine find?_eq_of_takeWhile (fun e he => ?_) fun e he => ?_
    · exact takes_of_key (of_decide_eq_true he)
    · refine takes_eq_false_iff.mpr (h e ?_)
      simpa only [decide_not] using he
  rw [firstTaken, hfind]
  refine ⟨fun e he hkey => ?_, fun hnone => ?_⟩
  · cases hfound : (a.chainOf key).find? (fun e => e.key = some key.text) with
    | none =>
        have hall := List.find?_eq_none.mp hfound e
          (a.mem_chainOf_of_key he hkey)
        simp [hkey] at hall
    | some e' =>
        have hkey' : e'.key = some key.text := by
          simpa using List.find?_some hfound
        have hmem := (a.mem_chainOf.mp (List.mem_of_find?_eq_some hfound)).1
        have heq : e' = e := a.distinct e' hmem e he (by simp [hkey'])
          (by rw [hkey, hkey'])
        rw [heq]
  · have hfound : (a.chainOf key).find? (fun e => e.key = some key.text) =
        none := by
      refine List.find?_eq_none.mpr fun e he => ?_
      simpa using hnone e (a.mem_chainOf.mp he).1
    rw [hfound]

theorem undisturbed_of_finds (a : HashArray signed mem rzarray)
    {key : ShortKey} (h : a.Finds key (a.firstTaken key)) :
    a.Undisturbed key := by
  intro e he
  by_contra hnot
  have htakes : takes key.text e = true := by
    by_contra hfalse
    exact hnot (takes_eq_false_iff.mp (by simpa using hfalse))
  obtain ⟨e', hfind, hne⟩ := find?_of_mem_takeWhile
    (p := fun e => e.key = some key.text) (by simpa only [decide_not] using he)
    htakes
  have hmem := (a.mem_chainOf.mp (List.mem_of_find?_eq_some hfind)).1
  have hresult : a.firstTaken key = .ok e'.bucket := by
    rw [firstTaken, hfind]
  rw [hresult] at h
  by_cases hexists : ∃ e ∈ a.elements, e.key = some key.text
  · obtain ⟨target, htarget, hkey⟩ := hexists
    have hbucket := Except.ok.inj (h.1 target htarget hkey)
    have hkey' := a.key_eq_of_bucket_eq htarget hmem hkey hbucket
    simp [hkey'] at hne
  · push Not at hexists
    exact absurd (h.2 hexists) (by simp)

/-- A lookup finds what it should if and only if it is not disturbed. -/
theorem copyZarrayBucket_finds_iff (a : HashArray signed mem rzarray)
    (key : ShortKey) :
    (∃ result, a.Finds key result ∧ ∃ enough, ∀ fuel ≥ enough,
        copyZarrayBucket mem key.text signed fuel rzarray = some result) ↔
      a.Undisturbed key := by
  constructor
  · rintro ⟨result, hfinds, enough, hresult⟩
    have heq := hresult (max enough ((a.chainOf key).length + 1))
      (le_max_left _ _)
    rw [a.copyZarrayBucket_eq key (Nat.lt_of_succ_le (le_max_right _ _))]
      at heq
    rw [← Option.some.inj heq] at hfinds
    exact a.undisturbed_of_finds hfinds
  · intro h
    exact ⟨_, a.finds_of_undisturbed h, _, fun fuel hfuel =>
      a.copyZarrayBucket_eq key hfuel⟩

end HashArray

/-! ## An integer key in the way -/

/-- The bucket of `[6 => 7]`. -/
def sixBucket : Bucket :=
  ⟨⟨7, zvalTypeLong, invalidIndex⟩, 6, 0⟩

/-- `[6 => 7]` in an array of eight slots. -/
def sixImage : Remote :=
  .ofBlocks [
    (0x1000, ZendArray.image ⟨0, 2 ^ 32 - 2 ^ 3, 0x2020, 1⟩),
    (0x2000, List.replicate 24 255 ++ leBytes 4 0 ++ List.replicate 4 255),
    (0x2020, sixBucket.image)]

def sixArray : HashArray true sixImage 0x1000 where
  header := ⟨0, 2 ^ 32 - 2 ^ 3, 0x2020, 1⟩
  copied := by rfl
  bits := 3
  bits_le := by decide
  mask_eq := rfl
  elements := [⟨0, sixBucket, none⟩]
  chain slot := if slot = -2 then [⟨0, sixBucket, none⟩] else []
  mem_chain slot hlow hhigh e := by
    have hslot : zendSlot sixBucket.h (2 ^ 32 - 2 ^ 3) = -2 := by decide
    by_cases h : slot = -2
    · subst h
      simp only [if_true, List.mem_singleton]
      constructor
      · rintro rfl
        exact ⟨rfl, hslot⟩
      · exact fun h => h.1
    · simp only [h, if_false, List.not_mem_nil, List.mem_singleton,
        false_iff, not_and]
      rintro rfl hsix
      exact h (hsix.symm.trans hslot)
  slots slot hlow hhigh := by
    interval_cases slot <;> exact ⟨_, rfl, rfl⟩
  linked slot hlow hhigh := by
    by_cases h : slot = -2
    · rw [if_pos h]
      exact ⟨by decide, rfl, rfl, trivial⟩
    · rw [if_neg h]
      trivial
  keys e he := by
    rw [List.mem_singleton.mp he]
    rfl
  distinct e he e' he' _ _ :=
    (List.mem_singleton.mp he).trans (List.mem_singleton.mp he').symm

/-- The key `a`, which has the slot of 6. -/
def letterA : ShortKey :=
  ⟨lit "a", by decide, by decide⟩

/-- Looking for `a` in `[6 => 7]` succeeds, with the bucket of 6. -/
theorem sixArray_has_a :
    (∀ e ∈ sixArray.elements, e.key ≠ some letterA.text) ∧
      copyZarrayBucket sixImage letterA.text true 2 0x1000 =
        some (.ok sixBucket) := by
  constructor
  · intro e he
    rw [List.mem_singleton.mp he]
    exact nofun
  · rfl

end Phpspy

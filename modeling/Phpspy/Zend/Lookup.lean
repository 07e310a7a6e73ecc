import Mathlib.Logic.Function.Iterate
import Mathlib.Order.Interval.Finset.Nat
import Mathlib.Tactic.IntervalCases
import Phpspy.Support.Walk
import Phpspy.Zend.Structs

/-!
# Looking up a key in an array of the target

`copy_zarray_bucket` hashes a key as the engine does, reads the head of the
chain of its slot and follows the chain.  The links come from memory that the
target is changing, and nothing bounds their number.
-/

namespace Phpspy

open ByteText Walks

/-! ## The hash -/

section Hash

-- whether `char` is signed on the platform
variable (signed : Bool)

/-- A `char` as an operand of `+` with an `uint64_t`. -/
def charVal (c : UInt8) : UInt64 :=
  if signed && 128 ≤ c.toNat then c.toUInt64 - 256 else c.toUInt64

/-- `hash = ((hash << 5) + hash) + *str++` on `hash` and what `str` points
at. -/
def hashStep : UInt64 × Bytes → UInt64 × Bytes
  | (hash, c :: str) => (((hash <<< 5) + hash) + charVal signed c, str)
  | (hash, []) => (hash, [])

/-- `for (; len >= 8; len -= 8)`, with the `len` that is left. -/
def hashLoop : ℕ → UInt64 × Bytes → ℕ × UInt64 × Bytes
  | len + 8, s =>
      let s := hashStep signed s
      let s := hashStep signed s
      let s := hashStep signed s
      let s := hashStep signed s
      let s := hashStep signed s
      let s := hashStep signed s
      let s := hashStep signed s
      let s := hashStep signed s
      hashLoop len s
  | len, s => (len, s)

/-- `switch (len)`, where a case falls through to the one below it. -/
def hashSwitch (len : ℕ) (s : UInt64 × Bytes) : UInt64 × Bytes :=
  let case1 := fun s => hashStep signed s
  let case2 := fun s => case1 (hashStep signed s)
  let case3 := fun s => case2 (hashStep signed s)
  let case4 := fun s => case3 (hashStep signed s)
  let case5 := fun s => case4 (hashStep signed s)
  let case6 := fun s => case5 (hashStep signed s)
  let case7 := fun s => case6 (hashStep signed s)
  match len with
  | 7 => case7 s
  | 6 => case6 s
  | 5 => case5 s
  | 4 => case4 s
  | 3 => case3 s
  | 2 => case2 s
  | 1 => case1 s
  | 0 => s
  -- the source has no other case
  | _ => s

/-- The hash in front of the last line, and what `str` then points at. -/
def hashRun (str : Bytes) (len : ℕ) : UInt64 × Bytes :=
  let (len, s) := hashLoop signed len (5381, str)
  hashSwitch signed len s

/-- `phpspy_zend_inline_hash_func` -/
def phpspyZendInlineHashFunc (str : Bytes) (len : ℕ) : UInt64 :=
  (hashRun signed str len).1 ||| 0x8000000000000000

/-- DJBX33A, the hash of the engine for string keys. -/
def djbx33a (str : Bytes) : UInt64 :=
  str.foldl (fun hash c => 33 * hash + charVal signed c) 5381 |||
    0x8000000000000000

/-- The loop takes eight at a time, and makes a step for each that it takes
away. -/
theorem hashLoop_spec (len : ℕ) (s : UInt64 × Bytes) :
    (hashLoop signed len s).1 = len % 8 ∧
      (hashLoop signed len s).2 = (hashStep signed)^[len - len % 8] s := by
  fun_induction hashLoop signed len s with
  | case1 len s s₁ s₂ s₃ s₄ s₅ s₆ s₇ s₈ ih =>
      obtain ⟨hleft, hrun⟩ := ih
      have htaken : len + 8 - (len + 8) % 8 = len - len % 8 + 8 := by omega
      refine ⟨by omega, ?_⟩
      rw [hrun, htaken, Function.iterate_add_apply]
      rfl
  | case2 len s hsmall =>
      have hlt : len < 8 :=
        Nat.lt_of_not_le fun hle => hsmall (len - 8) (by omega)
      rw [Nat.mod_eq_of_lt hlt, Nat.sub_self]
      exact ⟨rfl, rfl⟩

/-- The cases of the switch make a step for each that is left. -/
theorem hashSwitch_eq_iterate {len : ℕ} (hlen : len < 8)
    (s : UInt64 × Bytes) :
    hashSwitch signed len s = (hashStep signed)^[len] s := by
  interval_cases len <;> rfl

theorem hashRun_eq_iterate (str : Bytes) (len : ℕ) :
    hashRun signed str len = (hashStep signed)^[len] (5381, str) := by
  obtain ⟨hleft, hrun⟩ := hashLoop_spec signed len (5381, str)
  rw [hashRun]
  dsimp only
  rw [hleft, hashSwitch_eq_iterate signed (Nat.mod_lt _ (by decide)), hrun,
    ← Function.iterate_add_apply, Nat.add_sub_cancel' (Nat.mod_le _ _)]

theorem hashStep_cons (hash : UInt64) (c : UInt8) (str : Bytes) :
    hashStep signed (hash, c :: str) =
      (33 * hash + charVal signed c, str) := by
  have hshift : hash <<< 5 = 32 * hash := by
    apply UInt64.toNat.inj
    rw [UInt64.toNat_shiftLeft, UInt64.toNat_mul, Nat.shiftLeft_eq,
      Nat.mul_comm]
    rfl
  have hsum : 32 * hash + hash = 33 * hash := by grind
  rw [hashStep, hshift, hsum]

theorem hashStep_iterate_length (hash : UInt64) (str behind : Bytes) :
    (hashStep signed)^[str.length] (hash, str ++ behind) =
      (str.foldl (fun hash c => 33 * hash + charVal signed c) hash,
        behind) := by
  induction str generalizing hash with
  | nil => rfl
  | cons c str ih =>
      rw [List.length_cons, Function.iterate_succ_apply, List.cons_append,
        hashStep_cons, ih, List.foldl_cons]

theorem hashFunc_eq_djbx33a (str behind : Bytes) :
    phpspyZendInlineHashFunc signed (str ++ behind) str.length =
      djbx33a signed str := by
  rw [phpspyZendInlineHashFunc, hashRun_eq_iterate, hashStep_iterate_length,
    djbx33a]

/-- A `char` as a number. -/
def charInt (c : UInt8) : ℤ :=
  if signed && 128 ≤ c.toNat then c.toNat - 256 else c.toNat

theorem charVal_toNat (c : UInt8) :
    ((charVal signed c).toNat : ℤ) = charInt signed c % 2 ^ 64 := by
  have hc : c.toNat < 256 := c.toNat_lt
  rw [charVal, charInt]
  split
  · next h =>
      have hneg : 128 ≤ c.toNat := by simpa using (Bool.and_eq_true_iff.mp h).2
      rw [UInt64.toNat_sub, UInt8.toNat_toUInt64]
      change (((2 ^ 64 - 256 + c.toNat) % 2 ^ 64 : ℕ) : ℤ) = _
      omega
  · rw [UInt8.toNat_toUInt64]
    omega

/-- A step of the hash with numbers modulo `2 ^ 64`. -/
def hashMod (hash : ℤ) (c : UInt8) : ℤ :=
  (33 * hash + charInt signed c) % 2 ^ 64

theorem hashMod_toNat (hash : UInt64) (c : UInt8) :
    hashMod signed hash.toNat c = (33 * hash + charVal signed c).toNat := by
  have hchar := charVal_toNat signed c
  have h33 : (33 : UInt64).toNat = 33 := rfl
  rw [UInt64.toNat_add, UInt64.toNat_mul, h33, hashMod]
  omega

theorem foldl_hashMod_toNat (hash : UInt64) (str : Bytes) :
    str.foldl (hashMod signed) hash.toNat =
      (str.foldl (fun hash c => 33 * hash + charVal signed c) hash).toNat := by
  induction str generalizing hash with
  | nil => rfl
  | cons c str ih =>
      rw [List.foldl_cons, List.foldl_cons, hashMod_toNat, ih]

/-- The loop leaves a case of the switch, and the two read every byte once and
in order: they end behind the key, whatever comes there, and the value is the
fold over the key with bit 63 set. -/
theorem phpspyZendInlineHashFunc_toNat (str behind : Bytes) :
    (hashLoop signed str.length (5381, str ++ behind)).1 = str.length % 8 ∧
      (hashRun signed (str ++ behind) str.length).2 = behind ∧
      (phpspyZendInlineHashFunc signed (str ++ behind) str.length).toNat =
        (str.foldl (hashMod signed) 5381).toNat ||| 2 ^ 63 := by
  have hfold := foldl_hashMod_toNat signed 5381 str
  have hinit : ((5381 : UInt64).toNat : ℤ) = 5381 := rfl
  rw [hinit] at hfold
  refine ⟨?_, ?_, ?_⟩
  · exact (hashLoop_spec signed str.length (5381, str ++ behind)).1
  · rw [hashRun_eq_iterate, hashStep_iterate_length]
  · rw [hashFunc_eq_djbx33a, djbx33a, UInt64.toNat_or, hfold, Int.toNat_natCast]
    rfl

end Hash

/-! ## The lookup -/

section Lookup

variable (mem : Remote) (arData : ℕ) (key : Bytes)

/-- The index that ends a chain, `(uint32_t)-1`. -/
def invalidIndex : ℕ := 2 ^ 32 - 1

/-- The loop of `copy_zarray_bucket` at a bucket index: a result, or the index
of the next bucket. -/
def chainStep (hashBucket : ℕ) : Except Failure Bucket ⊕ ℕ :=
  if hashBucket = invalidIndex then .inl (.error (.status Status.error))
  else
    match copyBucket mem (ptrAdd arData (bucketSize * hashBucket)) with
    | .error rv => .inl (.error (.status rv))
    | .ok lbucket =>
        if lbucket.key = 0 then .inl (.ok lbucket)
        else
          match sprintZstring mem lbucket.key strSize with
          | .error rv => .inl (.error (.status rv))
          | .ok tmpKey =>
              if key = cstr tmpKey then .inl (.ok lbucket)
              else .inr lbucket.val.next

/-- `(uint32_t)(-1 * (int32_t)nTableMask)` -/
def hashTableSize (nTableMask : ℕ) : ℕ :=
  (2 ^ 32 - nTableMask % 2 ^ 32) % 2 ^ 32

/-- `((uint32_t*)arData) - hash_table_size + hash_index` -/
def hashSlotAddr (arData size index : ℕ) : ℕ :=
  (arData + 2 ^ 64 - 4 * size + 4 * index) % 2 ^ 64

/-- `copy_zarray_bucket` for a key, a C string. -/
def copyZarrayBucket (signed : Bool) (fuel : ℕ) (rzarray : ℕ) :
    Option (Except Failure Bucket) :=
  match copyZendArray mem rzarray with
  | .error rv => some (.error (.status rv))
  | .ok lzarray =>
      let hashVal := (phpspyZendInlineHashFunc signed key key.length).toNat
      let size := hashTableSize lzarray.nTableMask
      if size = 0 then some (.error .divideByZero)
      else
        match copyProcMem mem
          (hashSlotAddr lzarray.arData size (hashVal % size)) 4 with
        | .error rv => some (.error (.status rv))
        | .ok hashTableVal =>
            walk (chainStep mem lzarray.arData key) fuel (leVal hashTableVal)

/-! ## What a step of the loop does -/

variable {mem arData key}

theorem chainStep_invalid :
    chainStep mem arData key invalidIndex =
      .inl (.error (.status Status.error)) := by
  rw [chainStep, if_pos rfl]

theorem chainStep_of_null {i : ℕ} {b : Bucket} (hi : i ≠ invalidIndex)
    (hcopy : copyBucket mem (ptrAdd arData (bucketSize * i)) = .ok b)
    (hkey : b.key = 0) : chainStep mem arData key i = .inl (.ok b) := by
  rw [chainStep, if_neg hi, hcopy]
  exact if_pos hkey

theorem chainStep_of_string {i : ℕ} {b : Bucket} {text : Bytes}
    (hi : i ≠ invalidIndex)
    (hcopy : copyBucket mem (ptrAdd arData (bucketSize * i)) = .ok b)
    (hkey : b.key ≠ 0) (htext : sprintZstring mem b.key strSize = .ok text) :
    chainStep mem arData key i =
      if key = cstr text then .inl (.ok b) else .inr b.val.next := by
  rw [chainStep, if_neg hi, hcopy]
  simp only [if_neg hkey, htext]

theorem goes_chainStep_iff {i j : ℕ} :
    Goes (chainStep mem arData key) i j ↔
      i ≠ invalidIndex ∧ ∃ b text,
        copyBucket mem (ptrAdd arData (bucketSize * i)) = .ok b ∧
          b.key ≠ 0 ∧ sprintZstring mem b.key strSize = .ok text ∧
          key ≠ cstr text ∧ b.val.next = j := by
  constructor
  · intro hgoes
    have hi : i ≠ invalidIndex := by
      rintro rfl
      rw [Goes, chainStep_invalid] at hgoes
      cases hgoes
    refine ⟨hi, ?_⟩
    rw [Goes, chainStep, if_neg hi] at hgoes
    cases hcopy : copyBucket mem (ptrAdd arData (bucketSize * i)) with
    | error rv => simp [hcopy] at hgoes
    | ok b =>
        by_cases hkey : b.key = 0
        · simp [hcopy, hkey] at hgoes
        · cases htext : sprintZstring mem b.key strSize with
          | error rv => simp [hcopy, hkey, htext] at hgoes
          | ok text =>
              by_cases heq : key = cstr text
              · simp [hcopy, hkey, htext, ← heq] at hgoes
              · simp only [hcopy, hkey, htext, heq, if_false,
                  Sum.inr.injEq] at hgoes
                exact ⟨b, text, rfl, hkey, htext, heq, hgoes⟩
  · rintro ⟨hi, b, text, hcopy, hkey, htext, hne, rfl⟩
    rw [Goes, chainStep_of_string hi hcopy hkey htext, if_neg hne]

theorem goes_chainStep_lt {i j : ℕ} (h : Goes (chainStep mem arData key) i j) :
    j < 2 ^ 32 := by
  obtain ⟨-, b, _, hcopy, -, -, -, rfl⟩ := goes_chainStep_iff.mp h
  exact copyBucket_next_lt hcopy

end Lookup

/-! ## Whether the loop ends -/

/-- The memory has an array at `rzarray` with this data, and this index in the
slot of the key. -/
def HasChain (mem : Remote) (key : Bytes) (signed : Bool)
    (rzarray arData head : ℕ) : Prop :=
  ∃ lzarray slot, copyZendArray mem rzarray = .ok lzarray ∧
    hashTableSize lzarray.nTableMask ≠ 0 ∧
    copyProcMem mem (hashSlotAddr lzarray.arData
      (hashTableSize lzarray.nTableMask)
      ((phpspyZendInlineHashFunc signed key key.length).toNat %
        hashTableSize lzarray.nTableMask)) 4 = .ok slot ∧
    lzarray.arData = arData ∧ leVal slot = head

/-- The lookup is the walk along the chain, or there is no chain and it is
over before the loop. -/
theorem copyZarrayBucket_cases (mem : Remote) (key : Bytes) (signed : Bool)
    (rzarray : ℕ) :
    (∃ arData head, HasChain mem key signed rzarray arData head ∧
      ∀ fuel, copyZarrayBucket mem key signed fuel rzarray =
        walk (chainStep mem arData key) fuel head) ∨
    ((∀ arData head, ¬ HasChain mem key signed rzarray arData head) ∧
      ∃ e, ∀ fuel, copyZarrayBucket mem key signed fuel rzarray =
        some (.error e)) := by
  unfold copyZarrayBucket HasChain
  cases hcopy : copyZendArray mem rzarray with
  | error rv => exact .inr ⟨by simp, _, fun _ => rfl⟩
  | ok lzarray =>
      by_cases hsize : hashTableSize lzarray.nTableMask = 0
      · refine .inr ⟨by simp [hsize], .divideByZero, fun _ => ?_⟩
        simp only [hsize, if_true]
      · simp only [hsize, if_false]
        cases hslot : copyProcMem mem (hashSlotAddr lzarray.arData
            (hashTableSize lzarray.nTableMask)
            ((phpspyZendInlineHashFunc signed key key.length).toNat %
              hashTableSize lzarray.nTableMask)) 4 with
        | error rv => exact .inr ⟨by simp [hslot], _, fun _ => rfl⟩
        | ok slot =>
            exact .inl ⟨_, _, ⟨lzarray, slot, rfl, hsize, hslot, rfl, rfl⟩,
              fun _ => rfl⟩

theorem HasChain.unique {mem : Remote} {key : Bytes} {signed : Bool}
    {rzarray arData head arData' head' : ℕ}
    (h : HasChain mem key signed rzarray arData head)
    (h' : HasChain mem key signed rzarray arData' head') :
    arData = arData' ∧ head = head' := by
  obtain ⟨lzarray, slot, hcopy, -, hslot, rfl, rfl⟩ := h
  obtain ⟨lzarray', slot', hcopy', -, hslot', rfl, rfl⟩ := h'
  rw [hcopy] at hcopy'
  cases hcopy'
  rw [hslot] at hslot'
  cases hslot'
  exact ⟨rfl, rfl⟩

theorem chain_finite (mem : Remote) (arData : ℕ) (key : Bytes) (head : ℕ) :
    {i | Relation.ReflTransGen (Goes (chainStep mem arData key))
      head i}.Finite := by
  refine ((Set.finite_Iio (2 ^ 32)).insert head).subset ?_
  intro i hi
  rcases Relation.ReflTransGen.cases_tail hi with rfl | ⟨j, -, hgoes⟩
  · exact Set.mem_insert _ _
  · exact Set.mem_insert_of_mem _ (goes_chainStep_lt hgoes)

/-- A bucket that the loop passes: it can be read and has a string key that
can be read, but another one. -/
def Follows (mem : Remote) (arData : ℕ) (key : Bytes) (i j : ℕ) : Prop :=
  i ≠ invalidIndex ∧ ∃ b text,
    copyBucket mem (ptrAdd arData (bucketSize * i)) = .ok b ∧
      b.key ≠ 0 ∧ sprintZstring mem b.key strSize = .ok text ∧
      key ≠ cstr text ∧ b.val.next = j

/-- The lookup ends if and only if the chain of the key does not come to a
cycle of buckets that all have another string key. -/
theorem copyZarrayBucket_ends_iff (mem : Remote) (key : Bytes)
    (signed : Bool) (rzarray : ℕ) :
    (∃ fuel, copyZarrayBucket mem key signed fuel rzarray ≠ none) ↔
      ∀ arData head, HasChain mem key signed rzarray arData head →
        ∀ i, Relation.ReflTransGen (Follows mem arData key) head i →
          ¬ Relation.TransGen (Follows mem arData key) i i := by
  have hfollows : ∀ arData,
      Follows mem arData key = Goes (chainStep mem arData key) := by
    intro arData
    funext i j
    exact propext goes_chainStep_iff.symm
  rcases copyZarrayBucket_cases mem key signed rzarray with
    ⟨arData, head, hchain, hwalk⟩ | ⟨hnone, e, herror⟩
  · simp only [hwalk, hfollows]
    rw [walk_ends_iff (chain_finite mem arData key head)]
    constructor
    · intro hends arData' head' hchain'
      obtain ⟨rfl, rfl⟩ := hchain.unique hchain'
      exact hends
    · intro hends
      exact hends arData head hchain
  · constructor
    · intro _ arData head hchain
      exact absurd hchain (hnone arData head)
    · intro _
      exact ⟨0, by simp [herror]⟩

/-- An array whose only bucket has the key `a` and is its own successor. -/
def selfLinked : Remote :=
  .ofBlocks [
    (0x1000, ZendArray.image ⟨0, 2 ^ 32 - 1, 0x2000, 1⟩),
    (0x2000, Bucket.image ⟨⟨7, zvalTypeLong, 0⟩, 0, 0x3000⟩),
    (0x3000, stringImage (lit "a"))]

/-- Looking for `b` there never ends. -/
theorem selfLinked_never_ends :
    ¬ ∃ fuel,
      copyZarrayBucket selfLinked (lit "b") true fuel 0x1000 ≠ none := by
  rintro ⟨fuel, hends⟩
  have hstep : Goes (chainStep selfLinked 0x2000 (lit "b")) 0 0 := by
    rfl
  have hstays : ∀ x ∈ ({0} : Set ℕ), ∃ y ∈ ({0} : Set ℕ),
      Goes (chainStep selfLinked 0x2000 (lit "b")) x y := by
    intro x hx
    rw [Set.mem_singleton_iff.mp hx]
    exact ⟨0, rfl, hstep⟩
  exact hends (walk_eq_none_of_invariant hstays rfl fuel)

end Phpspy

import Mathlib.Tactic.IntervalCases
import Phpspy.Render.Exact

/-!
# Packed arrays of the PHP versions

Up to PHP 8.1 a packed array stores buckets, from 8.2 on only the values.
`sprint_zarray` reads values in both cases.
-/

namespace Phpspy

open ByteText BufferPrinting

/-- Whether the packed arrays of a version are arrays of `zval`s. -/
def PhpVersion.packsZvals : PhpVersion → Bool
  | .v70 | .v71 | .v72 | .v73 | .v74 | .v80 | .v81 => false
  | .v82 | .v83 | .v84 | .v85 | .v86 => true

/-- An integer or a string. -/
def PhpValue.IsScalar : PhpValue → Prop
  | .long _ => True
  | .string _ => True
  | .array _ _ => False

def packedElements : List PhpValue → PhpElements
  | [] => .nil
  | v :: vs => .cons none v (packedElements vs)

/-- The storage of a packed array has a value at an index, in the layout of a
version. -/
def HoldsPacked (v : PhpVersion) (mem : Remote) (data : Bytes) (i : ℕ)
    (value : PhpValue) : Prop :=
  if v.packsZvals then
    value.Holds mem
      (Zval.ofBytes ((data.drop (zvalSize * i)).take zvalSize))
  else
    let b := Bucket.ofBytes ((data.drop (bucketSize * i)).take bucketSize)
    value.Holds mem b.val ∧ b.h = i ∧ b.key = 0

/-- A packed array of integers and strings, as a version has it in memory. -/
structure PackedImage (v : PhpVersion) (mem : Remote) (rzarray : ℕ) where
  values : List PhpValue
  scalar : ∀ value ∈ values, value.IsScalar
  length_le : values.length ≤ maxArrayBuckets
  header : ZendArray
  copied : copyZendArray mem rzarray = .ok header
  packed : header.isPacked = true
  used : header.nNumUsed = values.length
  data : Bytes
  length_data : data.length =
    (if v.packsZvals then zvalSize else bucketSize) * values.length
  read : ∀ n ≤ data.length,
    copyProcMem mem header.arData n = .ok (data.take n)
  holds : ∀ i (h : i < values.length), HoldsPacked v mem data i values[i]

/-- `0=v0,1=v1,...` -/
def PackedImage.render {v : PhpVersion} {mem : Remote} {rzarray : ℕ}
    (a : PackedImage v mem rzarray) : Bytes :=
  (PhpValue.array true (packedElements a.values)).render

/-! ## Reading the storage -/

theorem field_take {bs : Bytes} {offset size n : ℕ} (h : offset + size ≤ n) :
    field (bs.take n) offset size = field bs offset size := by
  rw [field, field, List.drop_take, List.take_take, Nat.min_eq_left (by omega)]

theorem zval_ofBytes_take (bs : Bytes) {n : ℕ} (h : zvalSize ≤ n) :
    Zval.ofBytes (bs.take n) = Zval.ofBytes bs := by
  rw [zvalSize] at h
  simp only [Zval.ofBytes, field_take (show 0 + 8 ≤ n by omega),
    field_take (show 8 + 1 ≤ n by omega), field_take (show 12 + 4 ≤ n by omega)]

theorem leVal_take_eq_zero {bs : Bytes} (h : leVal bs = 0) (n : ℕ) :
    leVal (bs.take n) = 0 := by
  induction bs generalizing n with
  | nil => rw [List.take_nil, leVal]
  | cons b bs ih =>
      rw [leVal] at h
      cases n with
      | zero => rfl
      | succ n =>
          rw [List.take_succ_cons, leVal, ih (by omega)]
          omega

namespace PackedImage

variable {v : PhpVersion} {mem : Remote} {rzarray : ℕ}

/-- The element that `sprint_zarray` reads at an index. -/
def slot (a : PackedImage v mem rzarray) (i : ℕ) : Slot :=
  .packed i (Zval.ofBytes (a.data.drop (zvalSize * i)))

/-- `sprint_zarray` reads as many `zval`s as there are elements. -/
theorem copySlots_eq (a : PackedImage v mem rzarray) :
    copySlots mem a.header =
      .ok ((List.range' 0 a.values.length).map a.slot) := by
  have hlen : a.header.arrayLen = a.values.length := by
    rw [ZendArray.arrayLen, a.used, Nat.min_eq_left a.length_le]
  have hle : zvalSize * a.values.length ≤ a.data.length := by
    rw [a.length_data]
    refine Nat.mul_le_mul_right _ ?_
    split <;> decide
  rw [copySlots, if_pos a.packed, hlen, a.read _ hle]
  refine congrArg Except.ok (List.ext_getElem ?_ fun i hi hi' => ?_)
  · simp [structs]
  · have hlt : i < a.values.length := by
      simpa using hi'
    simp only [structs, List.getElem_mapIdx, List.getElem_map,
      List.getElem_range, List.getElem_range', Nat.zero_add, Nat.one_mul, slot]
    rw [zval_ofBytes_take _ le_rfl, List.drop_take,
      zval_ofBytes_take _ (by
        rw [← Nat.mul_sub]
        exact Nat.le_mul_of_pos_right _ (by omega))]

theorem packedElements_holds (f : ℕ → Zval) :
    ∀ (values : List PhpValue) (idx : ℕ),
      (∀ i (h : i < values.length), values[i].Holds mem (f (idx + i))) →
      (packedElements values).Holds mem true idx
        ((List.range' idx values.length).map fun i => .packed i (f i))
  | [], _, _ => rfl
  | value :: values, idx, h => by
      refine ⟨⟨rfl, rfl⟩, h 0 (Nat.succ_pos _), ?_⟩
      refine packedElements_holds f values (idx + 1) fun i hi => ?_
      have hnext := h (i + 1) (Nat.succ_lt_succ hi)
      rwa [show idx + (i + 1) = idx + 1 + i by omega] at hnext

/-- What an array of buckets is if it is read as an array of `zval`s: the
values with gaps between them, as many slots as there are values. -/
def gapped : ℕ → List PhpValue → PhpElements
  | n + 2, value :: values => .cons none value (.undef (gapped n values))
  | 1, value :: _ => .cons none value .nil
  | _, _ => .nil

theorem gapped_holds (f : ℕ → Zval) :
    ∀ (n : ℕ) (values : List PhpValue) (idx : ℕ), n ≤ 2 * values.length →
      (∀ i (h : i < values.length), 2 * i < n →
        values[i].Holds mem (f (idx + 2 * i))) →
      (∀ i, 2 * i + 1 < n → (f (idx + 2 * i + 1)).type = zvalTypeUndef) →
      (gapped n values).Holds mem true idx
        ((List.range' idx n).map fun i => .packed i (f i))
  | 0, _, _, _, _, _ => rfl
  | 1, value :: values, idx, _, hvalue, _ =>
      ⟨⟨rfl, rfl⟩, hvalue 0 (Nat.succ_pos _) Nat.one_pos, rfl⟩
  | n + 2, value :: values, idx, hle, hvalue, hgap => by
      refine ⟨⟨rfl, rfl⟩, hvalue 0 (Nat.succ_pos _) (by omega),
        hgap 0 (by omega), ?_⟩
      refine gapped_holds f n values (idx + 1 + 1)
        (by rw [List.length_cons] at hle; omega) (fun i hi hlt => ?_)
        fun i hlt => ?_
      · have hnext := hvalue (i + 1) (Nat.succ_lt_succ hi) (by omega)
        rwa [show idx + 2 * (i + 1) = idx + 1 + 1 + 2 * i by omega] at hnext
      · have hnext := hgap (i + 1) (by omega)
        rwa [show idx + 2 * (i + 1) + 1 = idx + 1 + 1 + 2 * i + 1 by omega]
          at hnext

/-- The elements that `sprint_zarray` sees. -/
def seen (a : PackedImage v mem rzarray) : PhpElements :=
  if v.packsZvals then packedElements a.values
  else gapped a.values.length a.values

theorem seen_holds (a : PackedImage v mem rzarray) :
    a.seen.Holds mem true 0
      ((List.range' 0 a.values.length).map a.slot) := by
  rw [seen]
  by_cases hv : v.packsZvals = true
  · rw [if_pos hv]
    refine packedElements_holds
      (fun i => Zval.ofBytes (a.data.drop (zvalSize * i))) _ 0 fun i hi => ?_
    have hholds := a.holds i hi
    rw [HoldsPacked, if_pos hv, zval_ofBytes_take _ le_rfl] at hholds
    rwa [Nat.zero_add]
  · rw [if_neg hv]
    refine gapped_holds (fun i => Zval.ofBytes (a.data.drop (zvalSize * i)))
      _ _ 0 (by omega) (fun i hi _ => ?_) fun i hi => ?_
    · have hholds := a.holds i hi
      rw [HoldsPacked, if_neg hv] at hholds
      have hval := hholds.1
      rw [Bucket.ofBytes] at hval
      rw [zval_ofBytes_take _ (by decide)] at hval
      rwa [Nat.zero_add, ← Nat.mul_assoc]
    · -- the second half of a bucket begins with its hash and has the key
      -- where a value has its type
      have hholds := a.holds i (by omega)
      rw [HoldsPacked, if_neg hv] at hholds
      have hkey : field ((a.data.drop (bucketSize * i)).take bucketSize) 24 8 =
          0 := hholds.2.2
      rw [bucketSize, field_take (by decide), field] at hkey
      have hlow := leVal_take_eq_zero hkey 1
      rw [List.take_take, List.drop_drop] at hlow
      simp only [Zval.ofBytes, field, List.drop_drop, zvalSize, zvalTypeUndef]
      rwa [show 16 * (0 + 2 * i + 1) + 8 = 32 * i + 24 by omega]

/-- The array as `sprint_zarray` sees it. -/
def image (a : PackedImage v mem rzarray) : ArrayImage mem rzarray where
  isPacked := true
  elements := a.seen
  holds := ⟨rfl, a.header, _, a.copied, a.used.trans_le a.length_le,
    a.copySlots_eq, a.seen_holds⟩

end PackedImage

/-! ## What is printed -/

theorem PhpValue.IsScalar.plain {v : PhpValue} (h : v.IsScalar) :
    v.Plain := by
  cases v with
  | long n => trivial
  | string text => trivial
  | array isPacked elements => exact h.elim

theorem packedElements_plain :
    ∀ {values : List PhpValue}, (∀ value ∈ values, value.IsScalar) →
      (packedElements values).Plain
  | [], _ => trivial
  | value :: _, h =>
      ⟨nofun, (h value List.mem_cons_self).plain,
        packedElements_plain fun u hu => h u (List.mem_cons_of_mem value hu)⟩

theorem nil_notMem_renders_packed :
    ∀ (idx : ℕ) (values : List PhpValue),
      [] ∉ (packedElements values).renders true idx
  | _, [] => List.not_mem_nil
  | idx, _ :: values => by
      intro hmem
      rcases List.mem_cons.mp hmem with hnil | hmem
      · simp [renderLabel, decimal_ne_nil] at hnil
      · exact nil_notMem_renders_packed (idx + 1) values hmem

theorem packedElements_array_plain {values : List PhpValue}
    (h : ∀ value ∈ values, value.IsScalar) :
    (PhpValue.array true (packedElements values)).Plain :=
  ⟨packedElements_plain h, nil_notMem_renders_packed 0 values⟩

theorem joinLoop_gapped_head {n : ℕ} {values : List PhpValue} {size : ℕ}
    (hsize : 3 ≤ size) (rest : Bytes) :
    ¬ (decimal 1 ++ rest <+:
      joinLoop comma ((PackedImage.gapped n values).texts true 2) size) := by
  have hone : decimal 1 = [49] := by decide
  -- the first text has the label `2=`
  have hfirst : ∀ (value : PhpValue) (ts : List (ℕ → Bytes)),
      ¬ (decimal 1 ++ rest <+: joinLoop comma
        (elementText true 2 none value.text :: ts) size) := by
    intro value ts hprefix
    have htext : elementText true 2 none value.text size =
        [50, 61] ++ value.text (size - 2) := by
      have hlabel : decimal 2 ++ lit "=" = [50, 61] := by decide
      simp only [elementText, if_true, labelText, hlabel]
      exact if_neg (by simp; omega)
    rw [hone, joinLoop, htext, if_neg (by simp)] at hprefix
    split at hprefix
    · exact absurd (List.cons_prefix_cons.mp hprefix).1 (by decide)
    · exact absurd (List.cons_prefix_cons.mp hprefix).1 (by decide)
  unfold PackedImage.gapped
  split
  · exact hfirst _ _
  · exact hfirst _ _
  · rw [PhpElements.texts, joinLoop, hone]
    exact fun hprefix => by simpa using List.prefix_nil.mp hprefix

theorem exists_render_eq (v₀ v₁ : PhpValue) (values : List PhpValue) :
    ∃ rest,
      (PhpValue.array true (packedElements (v₀ :: v₁ :: values))).render =
        renderLabel true 0 none ++ v₀.render ++
          comma :: (decimal 1 ++ rest) := by
  rw [PhpValue.render, packedElements, packedElements, PhpElements.renders,
    PhpElements.renders, List.intercalate_cons_cons]
  by_cases hnil : (packedElements values).renders true (0 + 1 + 1) = []
  · refine ⟨lit "=" ++ v₁.render, ?_⟩
    rw [hnil, List.intercalate_singleton]
    simp [renderLabel]
  · refine ⟨lit "=" ++ v₁.render ++ [comma] ++ List.intercalate [comma]
      ((packedElements values).renders true (0 + 1 + 1)), ?_⟩
    rw [List.intercalate_cons_of_ne_nil hnil]
    simp [renderLabel]

/-- With more than one value, an array of buckets is not printed as it
should. -/
theorem gapped_text_ne {v₀ v₁ : PhpValue} {values : List PhpValue}
    (hscalar : v₀.IsScalar) {n size : ℕ}
    (hsize : (PhpValue.array true
      (packedElements (v₀ :: v₁ :: values))).render.length + 2 ≤ size) :
    (PhpValue.array true
        (PackedImage.gapped (n + 2) (v₀ :: v₁ :: values))).text size ≠
      (PhpValue.array true (packedElements (v₀ :: v₁ :: values))).render := by
  intro heq
  have hcomplete : Complete (elementText true 0 none v₀.text)
      (renderLabel true 0 none ++ v₀.render) := by
    rw [← PhpValue.full_eq_render hscalar.plain]
    exact elementText_complete v₀.text_complete true 0 none
  have hne : renderLabel true 0 none ++ v₀.render ≠ [] := by
    simp [renderLabel, decimal_ne_nil]
  obtain ⟨rest, hrender⟩ := exists_render_eq v₀ v₁ values
  have hprefix : (PhpValue.array true (PackedImage.gapped (n + 2)
      (v₀ :: v₁ :: values))).text size <+: _ := stripSep_isPrefix _
  rw [heq, hrender] at hprefix
  rw [hrender] at hsize
  generalize renderLabel true 0 none ++ v₀.render = first at *
  have hlength : first.length + 1 + (1 + rest.length) + 2 ≤ size := by
    have hone : (decimal 1).length = 1 := by decide
    simp only [List.length_append, List.length_cons, hone] at hsize
    omega
  rw [PackedImage.gapped, PhpElements.texts, PhpElements.texts, joinLoop,
    hcomplete size (by omega), if_neg hne, if_neg (by omega), joinLoop,
    if_pos rfl, List.prefix_append_right_inj, List.cons_prefix_cons] at hprefix
  exact joinLoop_gapped_head (by omega) rest hprefix.2

/-- If the rendering of a packed array leaves two bytes, then `sprint_zarray`
prints it if and only if the version has packed arrays of values, or there is
one value at most. -/
theorem PackedImage.sprintZarray_renders_packed_iff {v : PhpVersion}
    {mem : Remote} {rzarray : ℕ} (a : PackedImage v mem rzarray)
    (floatText : ℕ → Bytes) {size : ℕ} (hsize : a.render.length + 2 ≤ size) :
    (∃ enough, ∀ fuel ≥ enough, PrintsAt
        (sprintZarray mem floatText fuel rzarray) size a.render) ↔
      (v.packsZvals = true ∨ a.values.length ≤ 1) := by
  rw [a.image.printsAt_iff floatText (by omega)]
  have hplain := packedElements_array_plain a.scalar
  have hvalue : a.image.value = .array true a.seen := rfl
  by_cases hv : v.packsZvals = true
  · refine iff_of_true ?_ (.inl hv)
    rw [hvalue, seen, if_pos hv]
    exact PhpValue.text_eq_render hplain hsize
  · rw [hvalue, seen, if_neg hv, or_iff_right hv]
    rw [render] at hsize ⊢
    match hvalues : a.values with
    | [] =>
        refine iff_of_true ?_ (Nat.zero_le _)
        rw [hvalues] at hplain hsize
        exact PhpValue.text_eq_render hplain hsize
    | [value] =>
        refine iff_of_true ?_ le_rfl
        rw [hvalues] at hplain hsize
        exact PhpValue.text_eq_render hplain hsize
    | v₀ :: v₁ :: values =>
        rw [hvalues] at hsize
        have hscalar : v₀.IsScalar :=
          a.scalar v₀ (by rw [hvalues]; exact List.mem_cons_self)
        exact iff_of_false (gapped_text_ne hscalar hsize) (by simp)

/-- `[1, 2, ...]` with buckets. -/
def bucketsImage (count : ℕ) : Remote :=
  .ofBlocks [
    (0x1000, ZendArray.image ⟨4, 2 ^ 32 - 2, 0x2000, count⟩),
    (0x2000, (List.range count).flatMap fun i =>
      Bucket.image ⟨⟨i + 1, zvalTypeLong, 0⟩, i, 0⟩)]

theorem bucketsImage_read {count size : ℕ} (hsize : size ≤ maxTransfer) :
    ∀ n ≤ ((bucketsImage count).bytes 0x2000 size).length,
      copyProcMem (bucketsImage count) 0x2000 n =
        .ok (((bucketsImage count).bytes 0x2000 size).take n) := by
  intro n hn
  rw [Remote.length_bytes] at hn
  exact copyProcMem_eq_ok_iff.mpr ⟨by decide, rfl, hn.trans hsize,
    Remote.bytes_take _ _ hn⟩

/-- `[1]` in PHP 7.4 -/
def oneBucket : PackedImage .v74 (bucketsImage 1) 0x1000 where
  values := [.long 1]
  scalar := by
    intro value hvalue
    rw [List.mem_singleton.mp hvalue]
    trivial
  length_le := by decide
  header := ⟨4, 2 ^ 32 - 2, 0x2000, 1⟩
  copied := rfl
  packed := rfl
  used := rfl
  data := (bucketsImage 1).bytes 0x2000 32
  length_data := rfl
  read := bucketsImage_read (by decide)
  holds i hi := by
    have hzero : i = 0 := by simpa using hi
    subst hzero
    exact ⟨⟨by decide, by decide⟩, by decide, by decide⟩

/-- `[1]` is printed as it should. -/
theorem oneBucket_renders :
    ∃ enough, ∀ fuel ≥ enough, PrintsAt
      (sprintZarray (bucketsImage 1) (fun _ => []) fuel 0x1000) 256
      oneBucket.render :=
  (oneBucket.sprintZarray_renders_packed_iff (fun _ => []) (by decide)).mpr
    (.inr (by decide))

/-- `[1, 2]` in PHP 7.4 -/
def twoBuckets : PackedImage .v74 (bucketsImage 2) 0x1000 where
  values := [.long 1, .long 2]
  scalar := by
    intro value hvalue
    simp only [List.mem_cons, List.not_mem_nil, or_false] at hvalue
    rcases hvalue with rfl | rfl <;> trivial
  length_le := by decide
  header := ⟨4, 2 ^ 32 - 2, 0x2000, 2⟩
  copied := rfl
  packed := rfl
  used := rfl
  data := (bucketsImage 2).bytes 0x2000 64
  length_data := rfl
  read := bucketsImage_read (by decide)
  holds i hi := by
    have hlt : i < 2 := hi
    interval_cases i
    · exact ⟨⟨by decide, by decide⟩, by decide, by decide⟩
    · exact ⟨⟨by decide, by decide⟩, by decide, by decide⟩

/-- Of `[1, 2]` only `0=1` is printed. -/
theorem twoBuckets_prints_one :
    twoBuckets.render = lit "0=1,1=2" ∧
      (sprintZarray (bucketsImage 2) (fun _ => []) 2 0x1000
        (fun _ => 0) 0 256).map Prod.snd = some (.ok 3) :=
  ⟨by decide, rfl⟩

end Phpspy

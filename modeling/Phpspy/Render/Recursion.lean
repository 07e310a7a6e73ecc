import Mathlib.Order.Interval.Finset.Nat
import Phpspy.Render.Print
import Phpspy.Support.PrinterLimits
import Phpspy.Support.Walk

/-!
# When the printing of a value ends

Nothing bounds the depth of the recursion between `sprint_zval` and
`sprint_zarray` but the size of the buffer.  An element that is printed without
a key gets the size that its array has, so that arrays which contain each other
through such elements are printed for ever.
-/

namespace Phpspy

open ByteText BufferPrinting

section Recursion

variable (mem : Remote) (floatText : ℕ → Bytes)

/-! ## Elements -/

/-- An element that is not printed: it is undefined, or its index does not
fit. -/
def Slot.Skipped (size : ℕ) : Slot → Prop
  | .packed idx lzval =>
      lzval.type = zvalTypeUndef ∨ size ≤ (decimal idx ++ lit "=").length
  | .bucket lbucket => lbucket.val.type = zvalTypeUndef

/-- An element whose value is printed alone: it has no key, or the key does
not fit. -/
def Slot.Open (size : ℕ) : Slot → Prop
  | .packed _ _ => False
  | .bucket lbucket =>
      lbucket.val.type ≠ zvalTypeUndef ∧
        (lbucket.key = 0 ∨ ∃ tmpKey,
          sprintZstring mem lbucket.key strSize = .ok tmpKey ∧
            size ≤ tmpKey.length + 2)

theorem Slot.Skipped.not_open {size : ℕ} {s : Slot} (h : s.Skipped size) :
    ¬ s.Open mem size := by
  cases s with
  | packed idx lzval => exact id
  | bucket lbucket => exact fun hopen => hopen.1 h

theorem Slot.Skipped.sprintSlotWith_eq {size : ℕ} {s : Slot}
    (h : s.Skipped size) :
    ∃ left : Buffer → ℤ → Buffer, ∀ arrays buf off,
      sprintSlotWith mem floatText arrays s buf off size =
        some (left buf off, .ok 0) := by
  cases s with
  | packed idx lzval =>
      by_cases hundef : lzval.type = zvalTypeUndef
      · refine ⟨fun buf _ => buf, fun arrays buf off => ?_⟩
        simp only [sprintSlotWith, sprintZarrayPackedWith, if_pos hundef]
      · refine ⟨fun buf off => snprintf buf off size (decimal idx ++ lit "="),
          fun arrays buf off => ?_⟩
        simp only [sprintSlotWith, sprintZarrayPackedWith, if_neg hundef,
          labelled, if_pos (h.resolve_left hundef)]
  | bucket lbucket =>
      have hundef : lbucket.val.type = zvalTypeUndef := h
      refine ⟨fun buf _ => buf, fun arrays buf off => ?_⟩
      simp only [sprintSlotWith, sprintZarrayBucketWith, if_pos hundef]

theorem Slot.Open.sprintSlotWith_eq {size : ℕ} {s : Slot}
    (h : s.Open mem size) (arrays : ℕ → Printer Failure) (buf : Buffer)
    (off : ℤ) :
    sprintSlotWith mem floatText arrays s buf off size =
      sprintZvalWith mem floatText arrays s.val buf off size := by
  cases s with
  | packed idx lzval => exact h.elim
  | bucket lbucket =>
      obtain ⟨hundef, hkey⟩ := h
      by_cases hnull : lbucket.key = 0
      · simp only [sprintSlotWith, sprintZarrayBucketWith, if_neg hundef,
          if_pos hnull, Slot.val]
      · obtain ⟨tmpKey, htmp, hroom⟩ := hkey.resolve_left hnull
        have hnot : ¬ size > tmpKey.length + 1 + 1 := by omega
        simp only [sprintSlotWith, sprintZarrayBucketWith, if_neg hundef,
          if_neg hnull, htmp, keyed, if_neg hnot, Slot.val]

/-- An element that is neither skipped nor open cannot be read, or its value
comes behind a label. -/
theorem sprintSlotWith_cases (size : ℕ) (s : Slot) :
    s.Skipped size ∨ s.Open mem size ∨
    (∃ rv, ∀ arrays buf off,
      sprintSlotWith mem floatText arrays s buf off size =
        some (buf, .error (.status rv))) ∨
    (3 ≤ size ∧ ∃ n label, 0 < n ∧ n < size ∧ ∀ arrays buf off,
      sprintSlotWith mem floatText arrays s buf off size =
        shifted n (sprintZvalWith mem floatText arrays s.val)
          (snprintf buf off size label) off size) := by
  cases s with
  | packed idx lzval =>
      by_cases hskip : (Slot.packed idx lzval).Skipped size
      · exact .inl hskip
      obtain ⟨hundef, hroom⟩ := not_or.mp hskip
      have hlabel : 2 ≤ (decimal idx ++ lit "=").length := by
        have hpos := List.length_pos_iff.mpr (decimal_ne_nil idx)
        have hone : (lit "=").length = 1 := rfl
        rw [List.length_append]
        omega
      refine .inr (.inr (.inr ⟨by omega, (decimal idx ++ lit "=").length,
        decimal idx ++ lit "=", by omega, by omega, fun arrays buf off => ?_⟩))
      simp only [sprintSlotWith, sprintZarrayPackedWith, if_neg hundef,
        labelled, if_neg hroom, Slot.val]
  | bucket lbucket =>
      by_cases hundef : lbucket.val.type = zvalTypeUndef
      · exact .inl hundef
      by_cases hkey : lbucket.key = 0
      · exact .inr (.inl ⟨hundef, .inl hkey⟩)
      cases htmp : sprintZstring mem lbucket.key strSize with
      | error rv =>
          refine .inr (.inr (.inl ⟨rv, fun arrays buf off => ?_⟩))
          simp only [sprintSlotWith, sprintZarrayBucketWith, if_neg hundef,
            if_neg hkey, htmp]
      | ok tmpKey =>
          by_cases hroom : size > tmpKey.length + 1 + 1
          · refine .inr (.inr (.inr ⟨by omega, tmpKey.length + 1,
              cstr tmpKey ++ lit "=", by omega, by omega,
              fun arrays buf off => ?_⟩))
            simp only [sprintSlotWith, sprintZarrayBucketWith, if_neg hundef,
              if_neg hkey, htmp, keyed, if_pos hroom, Slot.val]
          · exact .inr (.inl ⟨hundef, .inr ⟨tmpKey, htmp, by omega⟩⟩)

/-! ## More depth -/

section Agrees

variable {arrays arrays' : ℕ → Printer Failure}
  (h : ∀ r, Agrees (arrays r) (arrays' r))

include h

theorem sprintZvalWith_agrees (lzval : Zval) :
    Agrees (sprintZvalWith mem floatText arrays lzval)
      (sprintZvalWith mem floatText arrays' lzval) := by
  unfold sprintZvalWith
  split
  · exact Agrees.refl _
  · split
    · exact Agrees.refl _
    · split
      · exact Agrees.refl _
      · split
        · exact h _
        · exact Agrees.refl _

theorem sprintSlotWith_agrees (s : Slot) :
    Agrees (sprintSlotWith mem floatText arrays s)
      (sprintSlotWith mem floatText arrays' s) := by
  intro buf off size hne
  rcases sprintSlotWith_cases mem floatText size s with
    hskip | hopen | ⟨rv, herror⟩ | ⟨-, n, label, -, -, hshifted⟩
  · obtain ⟨left, hleft⟩ := hskip.sprintSlotWith_eq mem floatText
    rw [hleft, hleft]
  · rw [hopen.sprintSlotWith_eq] at hne ⊢
    rw [hopen.sprintSlotWith_eq,
      sprintZvalWith_agrees mem floatText h s.val _ _ _ hne]
  · rw [herror, herror]
  · rw [hshifted] at hne ⊢
    rw [hshifted]
    exact (sprintZvalWith_agrees mem floatText h s.val).shifted n _ _ _ hne

theorem sprintZarrayWith_agrees (rzarray : ℕ) :
    Agrees (sprintZarrayWith mem floatText arrays rzarray)
      (sprintZarrayWith mem floatText arrays' rzarray) := by
  unfold sprintZarrayWith
  split
  · exact Agrees.refl _
  · exact printList_agrees (sprintSlotWith_agrees mem floatText h) _

end Agrees

theorem sprintZarray_agrees_succ (fuel rzarray : ℕ) :
    Agrees (sprintZarray mem floatText fuel rzarray)
      (sprintZarray mem floatText (fuel + 1) rzarray) := by
  induction fuel generalizing rzarray with
  | zero =>
      intro buf off size hne
      exact absurd rfl hne
  | succ fuel ih => exact sprintZarrayWith_agrees mem floatText ih rzarray

theorem sprintZarray_agrees {m n : ℕ} (h : m ≤ n) (rzarray : ℕ) :
    Agrees (sprintZarray mem floatText m rzarray)
      (sprintZarray mem floatText n rzarray) :=
  agrees_of_le (fun k => sprintZarray_agrees_succ mem floatText k rzarray) h

/-- An element of an array, with a bound on the depth of arrays in it. -/
def sprintSlot (fuel : ℕ) (s : Slot) : Printer Failure :=
  sprintSlotWith mem floatText (sprintZarray mem floatText fuel) s

theorem sprintSlot_agrees {m n : ℕ} (h : m ≤ n) (s : Slot) :
    Agrees (sprintSlot mem floatText m s) (sprintSlot mem floatText n s) :=
  sprintSlotWith_agrees mem floatText (sprintZarray_agrees mem floatText h) s

theorem sprintSlot_bounded (fuel : ℕ) (s : Slot) :
    Bounded .underflow (sprintSlot mem floatText fuel s) :=
  sprintSlotWith_bounded mem floatText
    (sprintZarray_bounded mem floatText fuel) s

/-! ## Values that print nothing -/

/-- What is printed at a size for a value that is not an array. -/
def leafText (size : ℕ) (lzval : Zval) : Option Bytes :=
  if lzval.type = zvalTypeLong then
    some (cstr ((decimalInt (wrap64 lzval.value)).take (size - 1)))
  else if lzval.type = zvalTypeDouble then
    some (cstr ((floatText lzval.value).take (size - 1)))
  else if lzval.type = zvalTypeString then
    (sprintZstring mem lzval.value size).toOption
  else none

/-- A value that can be read and of which nothing is printed at a size: an
empty text, or an array of elements that are not printed and of such values.
At size two also an array in which a comma fills the buffer and is then taken
for a separator. -/
inductive Blank (size : ℕ) : Zval → Prop
  | leaf {lzval : Zval} (htext : leafText mem floatText size lzval = some []) :
      Blank size lzval
  | array {lzval : Zval} {slots : List Slot}
      (htype : lzval.type = zvalTypeArray)
      (hslots : arraySlots mem lzval.value = .ok slots)
      (hopen : ∀ s ∈ slots, s.Skipped size ∨ s.Open mem size)
      (hblank : ∀ s ∈ slots, s.Open mem size → Blank size s.val) :
      Blank size lzval
  | comma {lzval : Zval} {before after : List Slot} {last : Slot}
      (hsize : size = 2) (htype : lzval.type = zvalTypeArray)
      (hslots : arraySlots mem lzval.value = .ok (before ++ last :: after))
      (hopen : ∀ s ∈ before, s.Skipped size ∨ s.Open mem size)
      (hblank : ∀ s ∈ before, s.Open mem size → Blank size s.val)
      (hlast : last.Open mem size)
      (htext : leafText mem floatText size last.val = some [Phpspy.comma]) :
      Blank size lzval

theorem length_sprintZstringAt {rzstring size : ℕ} {bs : Bytes}
    (h : sprintZstring mem rzstring size = .ok bs) (buf : Buffer) (off : ℤ) :
    ∃ out, sprintZstringAt mem rzstring buf off size =
      some (out, .ok bs.length) ∧ slice out off bs.length = bs := by
  obtain ⟨-, hmax⟩ := sprintZstring_length h
  refine ⟨_, by rw [sprintZstringAt, h], ?_⟩
  rw [wrap32_length hmax]
  refine Eq.trans ?_ (slice_put (put buf off [0]) off bs)
  exact slice_congr fun i _ hi => put_of_lt hi

theorem slice_printText {text : Bytes} {size : ℕ} (hsize : 1 ≤ size)
    (buf : Buffer) (off : ℤ) :
    slice (snprintf buf off size text) off
      (cstr (text.take (size - 1))).length = cstr (text.take (size - 1)) := by
  rw [slice_of_le (length_cstr_le _), slice_snprintf hsize]
  exact List.prefix_iff_eq_take.mp (List.takeWhile_prefix _) |>.symm

theorem sprintZvalWith_leaf {size : ℕ} (hsize : 1 ≤ size) {lzval : Zval}
    {text : Bytes} (h : leafText mem floatText size lzval = some text)
    (arrays : ℕ → Printer Failure) (buf : Buffer) (off : ℤ) :
    ∃ out, sprintZvalWith mem floatText arrays lzval buf off size =
      some (out, .ok text.length) ∧ slice out off text.length = text := by
  unfold leafText at h
  unfold sprintZvalWith
  split_ifs at h ⊢ with hlong hdouble hstring
  · cases h
    exact ⟨_, rfl, slice_printText hsize buf off⟩
  · cases h
    exact ⟨_, rfl, slice_printText hsize buf off⟩
  · cases hread : sprintZstring mem lzval.value size with
    | error rv => simp [hread, Except.toOption] at h
    | ok bs =>
        rw [hread] at h
        cases h
        exact length_sprintZstringAt mem hread buf off

theorem sprintZvalWith_eq_ok {size : ℕ} (hsize : 1 ≤ size) {lzval : Zval}
    {arrays : ℕ → Printer Failure} {buf out : Buffer} {off : ℤ} {len : ℕ}
    (h : sprintZvalWith mem floatText arrays lzval buf off size =
      some (out, .ok len)) :
    leafText mem floatText size lzval = some (slice out off len) ∨
      (lzval.type = zvalTypeArray ∧
        arrays lzval.value buf off size = some (out, .ok len)) := by
  cases htext : leafText mem floatText size lzval with
  | some text =>
      obtain ⟨out', hrun, hslice⟩ :=
        sprintZvalWith_leaf mem floatText hsize htext arrays buf off
      rw [h] at hrun
      obtain ⟨rfl, hlen⟩ := Prod.mk.inj (Option.some.inj hrun)
      rw [Except.ok.inj hlen, hslice]
      exact .inl rfl
  | none =>
      unfold leafText at htext
      unfold sprintZvalWith at h
      split_ifs at h htext with hlong hdouble hstring harray
      · rw [sprintZstringAt] at h
        cases hread : sprintZstring mem lzval.value size with
        | error rv => simp [hread] at h
        | ok bs => simp [hread, Except.toOption] at htext
      · exact .inr ⟨harray, h⟩
      · cases h

theorem sprintZarray_succ {rzarray : ℕ} {slots : List Slot}
    (h : arraySlots mem rzarray = .ok slots) (fuel : ℕ) :
    sprintZarray mem floatText (fuel + 1) rzarray =
      printList comma .underflow
        (slots.map (sprintSlot mem floatText fuel)) := by
  rw [sprintZarray, sprintZarrayWith, h]
  rfl

theorem sprintZval_array {lzval : Zval} (h : lzval.type = zvalTypeArray)
    (fuel : ℕ) :
    sprintZval mem floatText fuel lzval =
      sprintZarray mem floatText fuel lzval.value := by
  simp only [sprintZval, sprintZvalWith, h]
  rfl

theorem Slot.Skipped.silent {size : ℕ} {s : Slot} (h : s.Skipped size)
    (fuel : ℕ) : Silent (sprintSlot mem floatText fuel s) size := by
  intro buf off
  obtain ⟨left, hleft⟩ := h.sprintSlotWith_eq mem floatText
  exact ⟨_, hleft _ _ _⟩

theorem Slot.Open.silent {size : ℕ} {s : Slot} (h : s.Open mem size)
    {fuel : ℕ} (hval : Silent (sprintZval mem floatText fuel s.val) size) :
    Silent (sprintSlot mem floatText fuel s) size := by
  intro buf off
  obtain ⟨out, hout⟩ := hval buf off
  exact ⟨out, (h.sprintSlotWith_eq mem floatText _ _ _).trans hout⟩

theorem exists_silent_of_forall {size : ℕ} {slots : List Slot}
    (hopen : ∀ s ∈ slots, s.Skipped size ∨ s.Open mem size)
    (hsilent : ∀ s ∈ slots, s.Open mem size →
      ∃ fuel, Silent (sprintZval mem floatText fuel s.val) size) :
    ∃ fuel, ∀ s ∈ slots, Silent (sprintSlot mem floatText fuel s) size := by
  refine Walks.exists_common_bound
    (P := fun fuel s => Silent (sprintSlot mem floatText fuel s) size)
    (fun m n s hmn h => h.of_agrees (sprintSlot_agrees mem floatText hmn s))
    fun s hs => ?_
  rcases hopen s hs with hskip | hs'
  · exact ⟨0, hskip.silent mem floatText 0⟩
  · obtain ⟨fuel, hfuel⟩ := hsilent s hs hs'
    exact ⟨fuel, hs'.silent mem floatText hfuel⟩

theorem Blank.exists_silent {size : ℕ} (hsize : 1 ≤ size) {lzval : Zval}
    (h : Blank mem floatText size lzval) :
    ∃ fuel, Silent (sprintZval mem floatText fuel lzval) size := by
  induction h with
  | leaf htext =>
      refine ⟨0, fun buf off => ?_⟩
      obtain ⟨out, hout, -⟩ :=
        sprintZvalWith_leaf mem floatText hsize htext _ buf off
      exact ⟨out, hout⟩
  | @array lzval slots htype hslots hopen _ ih =>
      obtain ⟨fuel, hfuel⟩ := exists_silent_of_forall mem floatText hopen ih
      refine ⟨fuel + 1, ?_⟩
      rw [sprintZval_array mem floatText htype,
        sprintZarray_succ mem floatText hslots]
      refine printList_silent fun p hp => ?_
      obtain ⟨s, hs, rfl⟩ := List.mem_map.mp hp
      exact hfuel s hs
  | @comma lzval before after last htwo htype hslots hopen _ hlast htext ih =>
      obtain ⟨fuel, hfuel⟩ := exists_silent_of_forall mem floatText hopen ih
      refine ⟨fuel + 1, ?_⟩
      rw [sprintZval_array mem floatText htype,
        sprintZarray_succ mem floatText hslots, List.map_append, List.map_cons]
      rw [htwo] at hfuel hlast htext ⊢
      refine printList_silent_of_sep (fun p hp => ?_) fun buf off => ?_
      · obtain ⟨s, hs, rfl⟩ := List.mem_map.mp hp
        exact hfuel s hs
      · obtain ⟨out, hout, hslice⟩ :=
          sprintZvalWith_leaf mem floatText (by omega) htext _ buf off
        refine ⟨out, (hlast.sprintSlotWith_eq mem floatText _ _ _).trans hout,
          ?_⟩
        rw [List.length_singleton, slice_one] at hslice
        exact List.singleton_inj.mp hslice

/-- If nothing is printed for an element, then it is skipped, or it is open and
nothing is printed for its value. -/
theorem sprintSlot_eq_zero {size fuel : ℕ} {s : Slot} {buf out : Buffer}
    {off : ℤ}
    (h : sprintSlot mem floatText fuel s buf off size = some (out, .ok 0)) :
    s.Skipped size ∨ (s.Open mem size ∧
      sprintZval mem floatText fuel s.val buf off size =
        some (out, .ok 0)) := by
  rw [sprintSlot] at h
  rcases sprintSlotWith_cases mem floatText size s with
    hskip | hopen | ⟨rv, herror⟩ | ⟨-, n, label, hpos, -, hshifted⟩
  · exact .inl hskip
  · rw [hopen.sprintSlotWith_eq] at h
    exact .inr ⟨hopen, h⟩
  · rw [herror] at h
    cases h
  · rw [hshifted, shifted, Option.map_eq_some_iff] at h
    obtain ⟨⟨buf', r⟩, -, heq⟩ := h
    cases r with
    | error e => cases heq
    | ok len =>
        have hlen : n + len = 0 := Except.ok.inj (Prod.mk.inj heq).2
        omega

/-- At size two there is no room for a label. -/
theorem sprintSlot_eq_one {fuel : ℕ} {s : Slot} {buf out : Buffer} {off : ℤ}
    (h : sprintSlot mem floatText fuel s buf off 2 = some (out, .ok 1)) :
    s.Open mem 2 ∧
      sprintZval mem floatText fuel s.val buf off 2 = some (out, .ok 1) := by
  rw [sprintSlot] at h
  rcases sprintSlotWith_cases mem floatText 2 s with
    hskip | hopen | ⟨rv, herror⟩ | ⟨hthree, -⟩
  · obtain ⟨left, hleft⟩ := hskip.sprintSlotWith_eq mem floatText
    rw [hleft] at h
    cases h
  · rw [hopen.sprintSlotWith_eq] at h
    exact ⟨hopen, h⟩
  · rw [herror] at h
    cases h
  · omega

theorem sprintZarray_ne_comma {fuel rzarray : ℕ} {buf out : Buffer} {off : ℤ}
    (h : sprintZarray mem floatText fuel rzarray buf off 2 =
      some (out, .ok 1)) : out off ≠ comma := by
  cases fuel with
  | zero => cases h
  | succ fuel =>
      cases hslots : arraySlots mem rzarray with
      | error rv =>
          rw [sprintZarray, sprintZarrayWith, hslots] at h
          cases h
      | ok slots =>
          rw [sprintZarray_succ mem floatText hslots] at h
          have hne := printList_last_ne_sep (fun p hp => ?_) Nat.one_pos h
          · simpa using hne
          · obtain ⟨s, -, rfl⟩ := List.mem_map.mp hp
            exact sprintSlot_bounded mem floatText fuel s

theorem blank_of_sprintZval {size fuel : ℕ} (hsize : 1 ≤ size) {lzval : Zval}
    {buf out : Buffer} {off : ℤ}
    (h : sprintZval mem floatText fuel lzval buf off size =
      some (out, .ok 0)) : Blank mem floatText size lzval := by
  induction fuel generalizing lzval buf out with
  | zero =>
      rcases sprintZvalWith_eq_ok mem floatText hsize h with htext | ⟨-, hrun⟩
      · exact .leaf htext
      · cases hrun
  | succ fuel ih =>
      rcases sprintZvalWith_eq_ok mem floatText hsize h with
        htext | ⟨htype, hrun⟩
      · exact .leaf htext
      · cases hslots : arraySlots mem lzval.value with
        | error rv =>
            rw [sprintZarray, sprintZarrayWith, hslots] at hrun
            cases hrun
        | ok slots =>
            rw [sprintZarray_succ mem floatText hslots] at hrun
            -- an element with an empty text, and then some of them
            have hpassed : ∀ s,
                (∃ buf' out', sprintSlot mem floatText fuel s buf' off size =
                  some (out', .ok 0)) →
                s.Skipped size ∨
                  (s.Open mem size ∧ Blank mem floatText size s.val) := by
              rintro s ⟨buf', out', hs⟩
              exact (sprintSlot_eq_zero mem floatText hs).imp_right
                fun hval => ⟨hval.1, ih hval.2⟩
            have hblank : ∀ s,
                (∃ buf' out', sprintSlot mem floatText fuel s buf' off size =
                  some (out', .ok 0)) →
                s.Open mem size → Blank mem floatText size s.val := by
              intro s hs hopen
              rcases hpassed s hs with hskip | hval
              · exact absurd hopen (hskip.not_open mem)
              · exact hval.2
            rcases printList_eq_zero (sprintSlot_bounded mem floatText fuel)
              hsize hrun with hall | ⟨htwo, before, last, after, rfl, hbefore,
                buf', out', hlast, hcomma⟩
            · exact .array htype hslots
                (fun s hs => (hpassed s (hall s hs)).imp_right And.left)
                fun s hs => hblank s (hall s hs)
            · subst htwo
              obtain ⟨hopen, hval⟩ := sprintSlot_eq_one mem floatText hlast
              refine .comma rfl htype hslots
                (fun s hs => (hpassed s (hbefore s hs)).imp_right And.left)
                (fun s hs => hblank s (hbefore s hs)) hopen ?_
              rcases sprintZvalWith_eq_ok mem floatText hsize hval with
                htext | ⟨-, harray⟩
              · rw [htext, slice_one, hcomma]
              · exact absurd hcomma (sprintZarray_ne_comma mem floatText harray)

/-! ## Arrays that are printed for ever -/

/-- At some size, an array leads to another one with all of the size: through
an open element, behind elements of which nothing is printed. -/
def Stalls (size : ℕ) (a b : ℕ) : Prop :=
  ∃ before s after, arraySlots mem a = .ok (before ++ s :: after) ∧
    (∀ t ∈ before, t.Skipped size ∨
      (t.Open mem size ∧ Blank mem floatText size t.val)) ∧
    s.Open mem size ∧ s.val.type = zvalTypeArray ∧ s.val.value = b

/-- If an array stalls on one that is not printed with some depth, then it is
not printed with one more. -/
theorem Stalls.sprintZarray_eq_none {size : ℕ} (hsize : 1 ≤ size) {a b : ℕ}
    (h : Stalls mem floatText size a b) {fuel : ℕ}
    (hb : ∀ buf off, sprintZarray mem floatText fuel b buf off size = none)
    (buf : Buffer) (off : ℤ) :
    sprintZarray mem floatText (fuel + 1) a buf off size = none := by
  obtain ⟨before, s, after, hslots, hbefore, hopen, htype, rfl⟩ := h
  rw [sprintZarray_succ mem floatText hslots, List.map_append, List.map_cons,
    printList, Option.map_eq_none_iff]
  refine printLoop_eq_none (fun p hp => ?_) (fun buf off => ?_) buf off
  · obtain ⟨t, ht, rfl⟩ := List.mem_map.mp hp
    rcases hbefore t ht with hskip | ⟨htopen, hblank⟩
    · exact (hskip.silent mem floatText fuel).quiet_of_agrees (Agrees.refl _)
    · obtain ⟨depth, hsilent⟩ := hblank.exists_silent mem floatText hsize
      have hslot := htopen.silent mem floatText hsilent
      exact (hslot.of_agrees (sprintSlot_agrees mem floatText
        (le_max_right fuel depth) t)).quiet_of_agrees
          (sprintSlot_agrees mem floatText (le_max_left fuel depth) t)
  · rw [sprintSlot, hopen.sprintSlotWith_eq]
    exact (congrFun (congrFun (congrFun
      (sprintZval_array mem floatText htype fuel) buf) off) size).trans
        (hb buf off)

theorem sprintZarray_eq_none_of_cycle {size : ℕ} (hsize : 1 ≤ size) {r : ℕ}
    (hcycle : Relation.TransGen (Stalls mem floatText size) r r) (fuel : ℕ)
    {a : ℕ} (ha : Relation.TransGen (Stalls mem floatText size) a r)
    (buf : Buffer) (off : ℤ) :
    sprintZarray mem floatText fuel a buf off size = none := by
  induction fuel generalizing a buf off with
  | zero => rfl
  | succ fuel ih =>
      obtain ⟨b, hstalls, hreach⟩ := Relation.TransGen.head'_iff.mp ha
      exact hstalls.sprintZarray_eq_none mem floatText hsize
        (fun buf off => ih (Relation.TransGen.trans_right hreach hcycle) _ _)
        buf off

theorem arraySlots_value_lt {rzarray : ℕ} {slots : List Slot}
    (h : arraySlots mem rzarray = .ok slots) {s : Slot} (hs : s ∈ slots) :
    s.val.value < 2 ^ 64 := by
  unfold arraySlots at h
  cases hcopy : copyZendArray mem rzarray with
  | error rv => simp [hcopy, bind, Except.bind] at h
  | ok lzarray =>
      simp only [hcopy, bind, Except.bind] at h
      unfold copySlots at h
      split at h
      · cases hread : copyProcMem mem lzarray.arData
            (zvalSize * lzarray.arrayLen) with
        | error rv => simp [hread, Except.map] at h
        | ok bs =>
            simp only [hread, Except.map, Except.ok.injEq] at h
            rw [← h] at hs
            obtain ⟨i, hi, rfl⟩ := List.mem_mapIdx.mp hs
            exact Zval.value_lt _
      · cases hread : copyProcMem mem lzarray.arData
            (bucketSize * lzarray.arrayLen) with
        | error rv => simp [hread, Except.map] at h
        | ok bs =>
            simp only [hread, Except.map, Except.ok.injEq] at h
            rw [← h] at hs
            obtain ⟨b, -, rfl⟩ := List.mem_map.mp hs
            exact Zval.value_lt _

/-- An array that is never printed, at some size and into some buffer. -/
def Endless (size a : ℕ) : Prop :=
  ∃ buf off, ∀ fuel, sprintZarray mem floatText fuel a buf off size = none

theorem endless_of_sprintZval {size : ℕ} {lzval : Zval} {buf : Buffer}
    {off : ℤ}
    (h : ∀ fuel, sprintZval mem floatText fuel lzval buf off size = none) :
    lzval.type = zvalTypeArray ∧
      Endless mem floatText size lzval.value := by
  have htype : lzval.type = zvalTypeArray := by
    by_contra hnot
    have hzero := h 0
    simp only [sprintZval, sprintZvalWith, hnot, if_false] at hzero
    split_ifs at hzero
    · cases hzero
    · cases hzero
    · rw [sprintZstringAt] at hzero
      cases hread : sprintZstring mem lzval.value size with
      | error rv => simp [hread] at hzero
      | ok bs => simp [hread] at hzero
  refine ⟨htype, buf, off, fun fuel => ?_⟩
  rw [← sprintZval_array mem floatText htype]
  exact h fuel

/-- An array that is never printed leads to one that is never printed, at a
smaller size or by stalling. -/
theorem Endless.next {size a : ℕ} (hsize : 1 ≤ size)
    (h : Endless mem floatText size a) :
    ∃ b, b < 2 ^ 64 ∧
      ((∃ size', 1 ≤ size' ∧ size' < size ∧ Endless mem floatText size' b) ∨
        (Stalls mem floatText size a b ∧ Endless mem floatText size b)) := by
  obtain ⟨buf, off, hnone⟩ := h
  cases hslots : arraySlots mem a with
  | error rv =>
      have hone := hnone 1
      rw [sprintZarray, sprintZarrayWith, hslots] at hone
      cases hone
  | ok slots =>
      have hloop : ∀ fuel, printLoop comma Failure.underflow
          (slots.map (sprintSlot mem floatText fuel)) buf off size = none := by
        intro fuel
        have hsucc := hnone (fuel + 1)
        rw [sprintZarray_succ mem floatText hslots, printList,
          Option.map_eq_none_iff] at hsucc
        exact hsucc
      obtain ⟨before, s, after, buf', off', size', rfl, hpos, hle, hslot,
        hquiet⟩ := printLoop_never
          (fun n t => sprintSlot_agrees mem floatText (Nat.le_succ n) t)
          (sprintSlot_bounded mem floatText) hsize hloop
      have hlt : s.val.value < 2 ^ 64 :=
        arraySlots_value_lt mem hslots (by simp)
      refine ⟨s.val.value, hlt, ?_⟩
      -- how the element is printed says what its value gets of the size
      rcases sprintSlotWith_cases mem floatText size' s with
        hskip | hopen | ⟨rv, herror⟩ | ⟨-, n, label, hn, hlt', hshifted⟩
      · obtain ⟨out, hout⟩ := hskip.silent mem floatText 0 buf' off'
        rw [hslot 0] at hout
        cases hout
      · obtain ⟨htype, hend⟩ := endless_of_sprintZval mem floatText
          fun fuel => by
            have hs := hslot fuel
            rw [sprintSlot, hopen.sprintSlotWith_eq] at hs
            exact hs
        rcases Nat.lt_or_eq_of_le hle with hsmaller | rfl
        · exact .inl ⟨size', hpos, hsmaller, hend⟩
        · refine .inr ⟨⟨before, s, after, hslots, fun t ht => ?_, hopen, htype,
            rfl⟩, hend⟩
          obtain ⟨fuel, buf₁, off₁, out, hzero⟩ := hquiet rfl t ht
          exact (sprintSlot_eq_zero mem floatText hzero).imp_right fun hval =>
            ⟨hval.1, blank_of_sprintZval mem floatText hpos hval.2⟩
      · have hs := hslot 0
        rw [sprintSlot, herror] at hs
        cases hs
      · obtain ⟨-, hend⟩ := endless_of_sprintZval mem floatText
          fun fuel => by
            have hs := hslot fuel
            rw [sprintSlot, hshifted, shifted, Option.map_eq_none_iff] at hs
            exact hs
        exact .inl ⟨size' - n, by omega, by omega, hend⟩

/-- If some array is never printed, then at some size there is a cycle. -/
theorem Endless.exists_cycle {size a : ℕ} (hsize : 1 ≤ size)
    (h : Endless mem floatText size a) :
    ∃ size' ≥ 1, ∃ r,
      Relation.TransGen (Stalls mem floatText size') r r := by
  induction size using Nat.strong_induction_on generalizing a with
  | _ size ih =>
      by_cases hsmaller : ∃ size' b, 1 ≤ size' ∧ size' < size ∧
          Endless mem floatText size' b
      · obtain ⟨size', b, hpos, hlt, hend⟩ := hsmaller
        exact ih size' hlt hpos hend
      · -- all sizes below end, so each endless array stalls on another
        have hstalls : ∀ c, Endless mem floatText size c →
            ∃ b, (b < 2 ^ 64 ∧ Endless mem floatText size b) ∧
              Stalls mem floatText size c b := by
          intro c hc
          obtain ⟨b, hlt, ⟨size', hpos, hless, hend⟩ | ⟨hstall, hend⟩⟩ :=
            hc.next mem floatText hsize
          · exact absurd ⟨size', b, hpos, hless, hend⟩ hsmaller
          · exact ⟨b, ⟨hlt, hend⟩, hstall⟩
        obtain ⟨b, hb, -⟩ := hstalls a h
        have hfinite : {c | c < 2 ^ 64 ∧
            Endless mem floatText size c}.Finite :=
          (Set.finite_Iio (2 ^ 64)).subset fun c hc => hc.1
        obtain ⟨r, -, hcycle⟩ := Walks.exists_cycle_of_finite hfinite ⟨b, hb⟩
          fun c hc => hstalls c hc.2
        exact ⟨size, hsize, r, hcycle⟩

/-- All values of a memory image are printed, at all sizes, if and only if at
no size there is a cycle of arrays that stall on each other. -/
theorem sprintZval_ends_iff :
    (∀ lzval buf off size, 1 ≤ size →
        ∃ fuel, sprintZval mem floatText fuel lzval buf off size ≠ none) ↔
      ∀ size, 1 ≤ size →
        ∀ r, ¬ Relation.TransGen (Stalls mem floatText size) r r := by
  constructor
  · intro hends size hsize r hcycle
    obtain ⟨fuel, hne⟩ := hends ⟨r, zvalTypeArray, 0⟩ (fun _ => 0) 0 size hsize
    refine hne ?_
    rw [sprintZval_array mem floatText rfl]
    exact sprintZarray_eq_none_of_cycle mem floatText hsize hcycle fuel hcycle
      _ _
  · intro hacyclic lzval buf off size hsize
    by_contra hnever
    push Not at hnever
    obtain ⟨-, hend⟩ := endless_of_sprintZval mem floatText hnever
    obtain ⟨size', hpos, r, hcycle⟩ := hend.exists_cycle mem floatText hsize
    exact hacyclic size' hpos r hcycle

end Recursion

/-- An array whose only element has no key and is the array. -/
def selfContained : Remote :=
  .ofBlocks [
    (0x1000, ZendArray.image ⟨0, 2 ^ 32 - 2, 0x2000, 1⟩),
    (0x2000, Bucket.image ⟨⟨0x1000, zvalTypeArray, 0⟩, 0, 0⟩)]

/-- It is printed for ever. -/
theorem selfContained_never_ends :
    ¬ ∃ fuel, sprintZval selfContained (fun _ => []) fuel
      ⟨0x1000, zvalTypeArray, 0⟩ (fun _ => 0) 0 256 ≠ none := by
  rintro ⟨fuel, hends⟩
  have hstalls : Stalls selfContained (fun _ => []) 256 0x1000 0x1000 :=
    ⟨[], .bucket ⟨⟨0x1000, zvalTypeArray, 0⟩, 0, 0⟩, [], rfl, nofun,
      ⟨by decide, .inl rfl⟩, rfl, rfl⟩
  exact hends (sprintZarray_eq_none_of_cycle _ _ (by decide)
    (.single hstalls) fuel (.single hstalls) _ _)

end Phpspy

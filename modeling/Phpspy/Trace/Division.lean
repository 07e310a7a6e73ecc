import Phpspy.Trace.Globals

/-!
# Dividing by the size of a hash table

`copy_zarray_bucket` divides by the size that it computes from the mask of the
array.  The mask comes from memory that `trace_globals` takes for an array,
whatever the type of the value under the name of the superglobal.  The division
is by zero exactly if the mask is zero.
-/

namespace Phpspy

open ByteText BufferPrinting Glopeek

/-! ## One lookup -/

/-- If the header of an array can be read, then its mask is not zero. -/
def HasMask (mem : Remote) (rzarray : ℕ) : Prop :=
  ∀ lzarray, copyZendArray mem rzarray = .ok lzarray → lzarray.nTableMask ≠ 0

theorem hashTableSize_eq_zero_iff {nTableMask : ℕ} (h : nTableMask < 2 ^ 32) :
    hashTableSize nTableMask = 0 ↔ nTableMask = 0 := by
  rw [hashTableSize]
  omega

theorem copyZendArray_mask_lt {mem : Remote} {rzarray : ℕ}
    {lzarray : ZendArray} (h : copyZendArray mem rzarray = .ok lzarray) :
    lzarray.nTableMask < 2 ^ 32 := by
  rw [copyZendArray] at h
  cases hcopy : copyProcMem mem rzarray zendArraySize with
  | error rv =>
      rw [hcopy] at h
      cases h
  | ok bs =>
      rw [hcopy] at h
      cases h
      exact field_lt bs 12 4

theorem chainStep_ne_divideByZero {mem : Remote} {arData : ℕ} {key : Bytes}
    (i : ℕ) : chainStep mem arData key i ≠ .inl (.error .divideByZero) := by
  unfold chainStep
  split
  · simp
  · split
    · simp
    · split
      · simp
      · split
        · simp
        · split <;> simp

theorem copyZarrayBucket_divides_iff {mem : Remote} {key : Bytes}
    {signed : Bool} {fuel rzarray : ℕ} :
    copyZarrayBucket mem key signed fuel rzarray =
        some (.error .divideByZero) ↔ ¬ HasMask mem rzarray := by
  unfold copyZarrayBucket HasMask
  cases hcopy : copyZendArray mem rzarray with
  | error rv => simp
  | ok lzarray =>
      have hsize := hashTableSize_eq_zero_iff (copyZendArray_mask_lt hcopy)
      by_cases hmask : lzarray.nTableMask = 0
      · simp only [hsize.mpr hmask, if_true, true_iff]
        exact fun h => h lzarray rfl hmask
      · simp only [hsize, hmask, if_false, Except.ok.injEq, forall_eq', ne_eq,
          not_false_eq_true, not_true_eq_false, iff_false]
        split
        · simp
        · intro hwalk
          obtain ⟨i, hi⟩ := Walks.exists_inl_of_walk hwalk
          exact chainStep_ne_divideByZero i hi

/-! ## Printing does not divide -/

/-- A printer fails with a status only. -/
def FailsByStatus (p : Printer Failure) : Prop :=
  ∀ buf off size out e, 1 ≤ size → p buf off size = some (out, .error e) →
    ∃ rv, e = .status rv

theorem sprintZvalWith_failsByStatus {mem : Remote} {floatText : ℕ → Bytes}
    {arrays : ℕ → Printer Failure} {lzval : Zval}
    (harray : FailsByStatus (arrays lzval.value)) :
    FailsByStatus (sprintZvalWith mem floatText arrays lzval) := by
  intro buf off size out e hsize h
  unfold sprintZvalWith at h
  split_ifs at h
  · cases h
  · cases h
  · unfold sprintZstringAt at h
    split at h
    · next rv _ =>
        cases h
        exact ⟨rv, rfl⟩
    · cases h
  · exact harray buf off size out e hsize h
  · cases h
    exact ⟨Status.error, rfl⟩

theorem sprintSlotWith_failsByStatus {mem : Remote} {floatText : ℕ → Bytes}
    {arrays : ℕ → Printer Failure}
    (harrays : ∀ r, FailsByStatus (arrays r)) (s : Slot) :
    FailsByStatus (sprintSlotWith mem floatText arrays s) := by
  have hvalue : FailsByStatus (sprintZvalWith mem floatText arrays s.val) :=
    sprintZvalWith_failsByStatus (harrays _)
  intro buf off size out e hsize h
  rcases sprintSlotWith_cases mem floatText size s with
    hskip | hopen | ⟨rv, herror⟩ | ⟨-, n, label, -, hn, hshifted⟩
  · obtain ⟨left, hleft⟩ := hskip.sprintSlotWith_eq mem floatText
    rw [hleft] at h
    cases h
  · rw [hopen.sprintSlotWith_eq] at h
    exact hvalue _ _ _ _ _ hsize h
  · rw [herror] at h
    cases h
    exact ⟨rv, rfl⟩
  · rw [hshifted, shifted] at h
    obtain ⟨⟨out', r⟩, hrun, heq⟩ := Option.map_eq_some_iff.mp h
    obtain ⟨-, hr⟩ := Prod.mk.inj heq
    cases r with
    | ok len => cases hr
    | error e' =>
        cases hr
        exact hvalue _ _ _ _ _ (by omega) hrun

theorem sprintZarray_failsByStatus (mem : Remote) (floatText : ℕ → Bytes)
    (fuel rzarray : ℕ) :
    FailsByStatus (sprintZarray mem floatText fuel rzarray) := by
  induction fuel generalizing rzarray with
  | zero =>
      intro buf off size out e _ h
      cases h
  | succ fuel ih =>
      intro buf off size out e hsize h
      cases hslots : arraySlots mem rzarray with
      | error rv =>
          rw [sprintZarray, sprintZarrayWith, hslots] at h
          cases h
          exact ⟨rv, rfl⟩
      | ok slots =>
          rw [sprintZarray_succ mem floatText hslots] at h
          obtain ⟨⟨out', r⟩, hrun, heq⟩ := Option.map_eq_some_iff.mp h
          obtain ⟨-, hr⟩ := Prod.mk.inj heq
          cases r with
          | ok stop => cases hr
          | error e' =>
              cases hr
              obtain ⟨p, hp, buf', pos', size', hpos, hfails⟩ :=
                printLoop_error (fun p hp => by
                  obtain ⟨s, -, rfl⟩ := List.mem_map.mp hp
                  exact sprintSlotWith_bounded mem floatText
                    (sprintZarray_bounded mem floatText fuel) s) hsize hrun
              obtain ⟨s, -, rfl⟩ := List.mem_map.mp hp
              exact sprintSlotWith_failsByStatus ih s _ _ _ _ _ hpos hfails

/-! ## One entry -/

section Entry

variable {mem : Remote} {floatText : ℕ → Bytes} {signed : Bool}
  {symtable : ℕ}

/-- The arrays whose headers are read for an entry: the symbol table and what
is under the name of the superglobal. -/
def ReadsHeader (mem : Remote) (signed : Bool) (symtable : ℕ)
    (gentry : GlopeekEntry) (rzarray : ℕ) : Prop :=
  rzarray = symtable ∨ gentry.gloname ≠ [] ∧ ∃ fuel lbucket,
    copyZarrayBucket mem gentry.gloname signed fuel symtable =
      some (.ok lbucket) ∧ rzarray = lbucket.val.value

theorem sprintZarrayVal_divides_iff {fuel rzarray : ℕ} {key : Bytes}
    {buf : Buffer} :
    (∃ out, sprintZarrayVal mem floatText signed fuel rzarray key buf 0
      strSize = some (out, .error .divideByZero)) ↔ ¬ HasMask mem rzarray := by
  have hdivides : copyZarrayBucket mem key signed fuel rzarray =
      some (.error .divideByZero) ↔ ¬ HasMask mem rzarray :=
    copyZarrayBucket_divides_iff
  rw [← hdivides]
  unfold sprintZarrayVal
  cases hlookup : copyZarrayBucket mem key signed fuel rzarray with
  | none => simp
  | some r =>
      cases r with
      | error e => simp
      | ok bucket =>
          simp only [Option.some.injEq, reduceCtorEq, iff_false, not_exists]
          intro out hrun
          obtain ⟨rv, hrv⟩ := sprintZvalWith_failsByStatus
            (sprintZarray_failsByStatus mem floatText fuel _) _ _ _ _ _
            (by decide) hrun
          cases hrv

theorem copyZarrayBucket_of_globalArray {fuel : ℕ} {gentry : GlopeekEntry}
    {e : Failure}
    (h : globalArray mem signed fuel symtable gentry = some (.error e)) :
    copyZarrayBucket mem gentry.gloname signed fuel symtable =
      some (.error e) := by
  unfold globalArray at h
  split at h
  · cases h
  · obtain ⟨r, hlookup, hr⟩ := Option.map_eq_some_iff.mp h
    cases r with
    | ok b => cases hr
    | error e =>
        cases hr
        exact hlookup

theorem not_hasMask_of_globalTurn {fuel : ℕ} {gentry : GlopeekEntry}
    {buf : Buffer}
    (h : globalTurn mem floatText signed fuel symtable gentry buf =
      .leaves (some .divideByZero)) :
    ∃ rzarray, ReadsHeader mem signed symtable gentry rzarray ∧
      ¬ HasMask mem rzarray := by
  unfold globalTurn at h
  cases harray : globalArray mem signed fuel symtable gentry with
  | none => simp [harray] at h
  | some r =>
      rw [harray] at h
      cases r with
      | error e =>
          cases h
          exact ⟨symtable, .inl rfl, copyZarrayBucket_divides_iff.mp
            (copyZarrayBucket_of_globalArray harray)⟩
      | ok garray =>
          refine ⟨garray, ?_, ?_⟩
          · unfold globalArray at harray
            split at harray
            · cases harray
              exact .inl rfl
            · next hnamed =>
                obtain ⟨r, hlookup, hr⟩ := Option.map_eq_some_iff.mp harray
                cases r with
                | error e => cases hr
                | ok b =>
                    cases hr
                    exact .inr ⟨hnamed, fuel, b, hlookup, rfl⟩
          · dsimp only at h
            split at h
            · cases h
            · cases h
            · cases h
            · next out e _ hrun =>
                cases h
                exact sprintZarrayVal_divides_iff.mp ⟨out, hrun⟩

theorem globalTurn_divides (floatText : ℕ → Bytes) {gentry : GlopeekEntry}
    {rzarray : ℕ}
    (hreads : ReadsHeader mem signed symtable gentry rzarray)
    (hmask : ¬ HasMask mem rzarray) :
    ∃ enough, ∀ fuel ≥ enough, ∀ buf,
      globalTurn mem floatText signed fuel symtable gentry buf =
        .leaves (some .divideByZero) := by
  -- the lookup of the element divides, once its array is known
  have helement : ∀ fuel garray buf, ¬ HasMask mem garray →
      globalArray mem signed fuel symtable gentry = some (.ok garray) →
        globalTurn mem floatText signed fuel symtable gentry buf =
          .leaves (some .divideByZero) := by
    intro fuel garray buf hmask harray
    obtain ⟨out, hrun⟩ := sprintZarrayVal_divides_iff.mpr hmask
    rw [globalTurn, harray]
    dsimp only
    rw [hrun]
  rcases hreads with rfl | ⟨hnamed, enough, lbucket, hlookup, rfl⟩
  · refine ⟨0, fun fuel _ buf => ?_⟩
    by_cases hempty : gentry.gloname = []
    · exact helement fuel _ buf hmask (if_pos hempty)
    · have harray : globalArray mem signed fuel rzarray gentry =
          some (.error .divideByZero) := by
        rw [globalArray, if_neg hempty,
          copyZarrayBucket_divides_iff.mpr hmask]
        rfl
      rw [globalTurn, harray]
  · refine ⟨enough, fun fuel hfuel buf => ?_⟩
    refine helement fuel _ buf hmask ?_
    rw [globalArray, if_neg hnamed, copyZarrayBucket_mono hfuel hlookup]
    rfl

end Entry

/-! ## The run -/

section Run

variable {mem : Remote} {floatText : ℕ → Bytes} {signed : Bool}
  {symtable : ℕ}

theorem globalsLoop_mono {m n : ℕ} (hmn : m ≤ n)
    {entries : List GlopeekEntry} {buf : Buffer}
    (h : (globalsLoop mem floatText signed m symtable entries buf).ended ≠
      none) :
    globalsLoop mem floatText signed n symtable entries buf =
      globalsLoop mem floatText signed m symtable entries buf := by
  induction entries generalizing buf with
  | nil => rfl
  | cons e rest ih =>
      rw [globalsLoop] at h
      have hturn : globalTurn mem floatText signed m symtable e buf ≠
          .leaves none := by
        intro hnone
        rw [hnone] at h
        exact h rfl
      rw [globalsLoop, globalsLoop, globalTurn_mono hmn hturn]
      cases hcase : globalTurn mem floatText signed m symtable e buf with
      | leaves ended => rfl
      | passes out =>
          rw [hcase] at h
          exact ih h
      | finds out text =>
          rw [hcase] at h
          dsimp only
          rw [ih h]

theorem globalsLoop_append_ended {fuel : ℕ} {before : List GlopeekEntry}
    {buf : Buffer}
    (h : (globalsLoop mem floatText signed fuel symtable before buf).ended =
      some (.ok ())) (rest : List GlopeekEntry) :
    (globalsLoop mem floatText signed fuel symtable (before ++ rest)
        buf).ended =
      (globalsLoop mem floatText signed fuel symtable rest
        (globalsLoop mem floatText signed fuel symtable before
          buf).buf).ended := by
  induction before generalizing buf with
  | nil => rfl
  | cons e before ih =>
      rw [globalsLoop] at h
      rw [List.cons_append, globalsLoop, globalsLoop]
      cases hturn : globalTurn mem floatText signed fuel symtable e buf with
      | leaves failure =>
          rw [hturn] at h
          cases failure <;> cases h
      | passes out =>
          rw [hturn] at h
          exact ih h
      | finds out text =>
          rw [hturn] at h
          exact ih h

theorem exists_leaves_of_globalsLoop {fuel : ℕ} {entries : List GlopeekEntry}
    {buf : Buffer} {e : Failure}
    (h : (globalsLoop mem floatText signed fuel symtable entries buf).ended =
      some (.error e)) :
    ∃ before gentry after, entries = before ++ gentry :: after ∧
      (globalsLoop mem floatText signed fuel symtable before buf).ended =
        some (.ok ()) ∧
      globalTurn mem floatText signed fuel symtable gentry
        (globalsLoop mem floatText signed fuel symtable before buf).buf =
          .leaves (some e) := by
  induction entries generalizing buf with
  | nil => cases h
  | cons first rest ih =>
      rw [globalsLoop] at h
      cases hturn : globalTurn mem floatText signed fuel symtable first
          buf with
      | leaves failure =>
          rw [hturn] at h
          cases failure with
          | none => cases h
          | some e' =>
              cases h
              exact ⟨[], first, rest, rfl, rfl, hturn⟩
      | passes out | finds out text =>
          rw [hturn] at h
          obtain ⟨before, gentry, after, rfl, hbefore, hleaves⟩ := ih h
          refine ⟨first :: before, gentry, after, rfl, ?_, ?_⟩
          · rw [globalsLoop, hturn]
            exact hbefore
          · rw [globalsLoop, hturn]
            exact hleaves

end Run

/-- `trace_globals` gets past these entries, given enough fuel and some
contents of the buffer. -/
def GetsPast (mem : Remote) (floatText : ℕ → Bytes) (signed : Bool)
    (executorGlobalsAddr : ℕ) (before : List GlopeekEntry) : Prop :=
  ∃ fuel buf, (traceGlobals mem floatText signed fuel executorGlobalsAddr
    before buf).ended = some (.ok ())

/-- `trace_globals` never divides by zero exactly if, for every entry that it
gets to, the headers of the symbol table and of what is under the name of the
superglobal have a mask. -/
theorem traceGlobals_divides_iff (mem : Remote) (floatText : ℕ → Bytes)
    (signed : Bool) (executorGlobalsAddr : ℕ) (entries : List GlopeekEntry) :
    (∀ fuel buf, (traceGlobals mem floatText signed fuel executorGlobalsAddr
        entries buf).ended ≠ some (.error .divideByZero)) ↔
      ∀ before gentry after, entries = before ++ gentry :: after →
        GetsPast mem floatText signed executorGlobalsAddr before →
          ∀ rzarray, ReadsHeader mem signed
            (ptrAdd executorGlobalsAddr symbolTableOffset) gentry rzarray →
              HasMask mem rzarray := by
  constructor
  · rintro hsafe before gentry after rfl ⟨fuel, buf, hbefore⟩ rzarray hreads
    by_contra hmask
    obtain ⟨enough, hdivides⟩ := globalTurn_divides floatText hreads hmask
    -- enough fuel for the entries in front and for this one
    let n := max fuel enough
    have hlonger := globalsLoop_mono (le_max_left fuel enough)
      (by rw [traceGlobals] at hbefore; rw [hbefore]; simp)
    refine hsafe n buf ?_
    rw [traceGlobals] at hbefore ⊢
    rw [← hlonger] at hbefore
    rw [globalsLoop_append_ended hbefore, globalsLoop,
      hdivides n (le_max_right fuel enough)]
    rfl
  · intro hmasks fuel buf hdivides
    obtain ⟨before, gentry, after, hsplit, hbefore, hleaves⟩ :=
      exists_leaves_of_globalsLoop hdivides
    obtain ⟨rzarray, hreads, hmask⟩ := not_hasMask_of_globalTurn hleaves
    exact hmask (hmasks before gentry after hsplit ⟨fuel, buf, hbefore⟩
      rzarray hreads)

/-- The symbol table has `_GET` only, and that is a string, of which the hash
has not been computed. -/
def stringGet : Remote :=
  .ofBlocks [
    (0x1130, ZendArray.image ⟨0, 2 ^ 32 - 1, 0x2000, 1⟩),
    (0x2000, Bucket.image ⟨⟨0x4000, zvalTypeString, invalidIndex⟩, 0, 0x3000⟩),
    (0x3000, stringImage (lit "_GET")),
    (0x4000, stringImage (lit "text"))]

/-- The hash of the string is where an array has its mask. -/
theorem stringGet_divides :
    (traceGlobals stringGet (fun _ => []) true 2 0x1000 [getX]
      (fun _ => 0)).ended = some (.error .divideByZero) := by
  decide +kernel

end Phpspy

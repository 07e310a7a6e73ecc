import Phpspy.Render.Peeked
import Phpspy.Trace.Locals
import Phpspy.Varpeek.Denotation

/-!
# The values of local variables

A varspec names a variable at lines of a file.  From the command line to the
events: in a frame that is at such a line, `trace_locals` shows the values of
the variables that are named there, and of no others.
-/

namespace Phpspy

open ByteText BufferPrinting Varpeek

instance (spec : Spec) (file : Bytes) (lineno : ℕ) (var : Bytes) :
    Decidable (spec.Names file lineno var) :=
  inferInstanceAs (Decidable (_ ∧ _ ∧ _ ∧ _))

def isNamed (specs : List Spec) (file : Bytes) (lineno : ℕ) (l : Local) :
    Bool :=
  specs.any fun spec => spec.Names file lineno l.name

theorem isNamed_iff {specs : List Spec} {file : Bytes} {lineno : ℕ}
    {l : Local} :
    isNamed specs file lineno l = true ↔
      ∃ spec ∈ specs, spec.Names file lineno l.name := by
  simp [isNamed]

section Loop

variable {mem : Remote} {v : PhpVersion} {floatText : ℕ → Bytes} {fuel : ℕ}
  {remote : ℕ} {opArray : Bytes} {varmap : List Bytes}
  {locals : List Local} {value : Local → PeekedValue}

/-- `sprint_zval` prints the text of the variable, whatever is in the buffer. -/
def PrintsLocal (mem : Remote) (floatText : ℕ → Bytes) (fuel : ℕ) (l : Local)
    (text : Bytes) : Prop :=
  ∀ buf, ∃ out, sprintZval mem floatText fuel l.value buf 0 strSize =
      some (out, .ok text.length) ∧ slice out 0 text.length = text

theorem exists_printsLocal (floatText : ℕ → Bytes) {ls : List Local}
    (h : ∀ l ∈ ls, (value l).Holds mem l.value) :
    ∃ enough, ∀ fuel ≥ enough, ∀ l ∈ ls,
      PrintsLocal mem floatText fuel l ((value l).text floatText) := by
  induction ls with
  | nil => exact ⟨0, fun _ _ _ hl => absurd hl List.not_mem_nil⟩
  | cons l ls ih =>
      obtain ⟨hl, hls⟩ := List.forall_mem_cons.mp h
      obtain ⟨first, hfirst⟩ := hl.sprintZval floatText
      obtain ⟨enough, hrest⟩ := ih hls
      refine ⟨max first enough, fun fuel hfuel => List.forall_mem_cons.mpr
        ⟨hfirst fuel ((le_max_left _ _).trans hfuel),
          hrest fuel ((le_max_right _ _).trans hfuel)⟩⟩

theorem HoldsLocals.localTurn_prints
    (h : HoldsLocals mem v remote opArray locals) {i : ℕ} {l : Local}
    (hl : locals[i]? = some l) (hname : l.name ∈ varmap) {text : Bytes}
    (hprints : PrintsLocal mem floatText fuel l text) (tmp : Buffer) :
    ∃ out, localTurn mem v floatText fuel remote opArray varmap i tmp =
      .finds out l.name text := by
  obtain ⟨out, hprint, htext⟩ := hprints (nameOver tmp l)
  refine ⟨out, ?_⟩
  rw [h.localTurn_eq hl, if_pos hname, hprint]
  dsimp only
  rw [htext]

/-- The loop has an event for each peeked variable, in the order of the
variables.  It ends when as many are found as there are specs, and then no
other one is peeked. -/
theorem HoldsLocals.localsLoop_prints
    (h : HoldsLocals mem v remote opArray locals)
    (hprints : ∀ l ∈ locals, l.name ∈ varmap →
      PrintsLocal mem floatText fuel l ((value l).text floatText))
    {rest : List Local} {i : ℕ} (hrest : locals.drop i = rest)
    {found : List Bytes} (hnodup : found.Nodup) (hsub : found ⊆ varmap)
    (hnew : ∀ l ∈ rest, l.name ∉ found) (key : Bytes) (tmp : Buffer) :
    localsLoop mem v floatText fuel remote opArray key varmap rest.length i
        found.length tmp =
      ⟨(rest.filter fun l => varmap.contains l.name).map fun l =>
        ⟨l.name, key, (value l).text floatText⟩, some (.ok ())⟩ := by
  induction rest generalizing i found tmp with
  | nil => rfl
  | cons l rest ih =>
      have hl : locals[i]? = some l := by
        have hget := congrArg (fun r => r[0]?) hrest
        simpa using hget
      have hdrop : locals.drop (i + 1) = rest := by
        rw [← List.tail_drop, hrest, List.tail_cons]
      have hlater : ∀ l' ∈ rest, l'.name ∉ found :=
        fun l' hl' => hnew l' (List.mem_cons_of_mem l hl')
      rw [List.length_cons, localsLoop]
      by_cases hname : l.name ∈ varmap
      · obtain ⟨out, hturn⟩ := h.localTurn_prints hl hname
          (hprints l (List.mem_of_getElem? hl) hname) tmp
        have hnodup' : (l.name :: found).Nodup :=
          List.nodup_cons.mpr ⟨hnew l List.mem_cons_self, hnodup⟩
        have hsub' : l.name :: found ⊆ varmap :=
          List.cons_subset.mpr ⟨hname, hsub⟩
        have hnew' : ∀ l' ∈ rest, l'.name ∉ l.name :: found :=
          fun l' hl' => List.not_mem_cons_of_ne_of_not_mem
            (h.name_ne_of_drop hrest l' hl') (hlater l' hl')
        have hkeep : (l :: rest).filter
            (fun l => varmap.contains l.name) =
              l :: rest.filter fun l => varmap.contains l.name :=
          List.filter_cons_of_pos (List.contains_iff_mem.mpr hname)
        rw [hturn, hkeep, List.map_cons]
        dsimp only
        split
        · next hlast =>
            have hnone : rest.filter (fun l => varmap.contains l.name) =
                [] := by
              refine List.filter_eq_nil_iff.mpr fun l' hl' hin => ?_
              exact hnew' l' hl' (mem_of_length_le hnodup' hsub' hlast
                (List.contains_iff_mem.mp hin))
            rw [hnone, List.map_nil]
        · have hih := ih hdrop hnodup' hsub' hnew' out
          rw [List.length_cons] at hih
          rw [hih]
      · have hpass : (l :: rest).filter
            (fun l => varmap.contains l.name) =
              rest.filter fun l => varmap.contains l.name :=
          List.filter_cons_of_neg fun hin =>
            hname (List.contains_iff_mem.mp hin)
        rw [h.localTurn_eq hl, if_neg hname, hpass]
        exact ih hdrop hnodup hsub hlater _

end Loop

section Names

variable {specs : List Spec} {map : VarpeekMap} {file : Bytes} {lineno : ℕ}
  {l : Local}

theorem varpeekAddAll_holds (specs : List Spec) :
    ∃ map, varpeekAddAll (2 ^ 32) ∅ (specs.map Spec.text) = .ok map ∧
      Varpeek.Holds map specs := by
  obtain ⟨map, hadd, hnames⟩ := varpeekAddAll_spec le_rfl ∅ specs
  refine ⟨map, hadd, fun key name => ?_⟩
  rw [hnames, namesAt, AList.lookup_empty]
  simp

theorem Varpeek.Holds.looksUp_eq_isNamed (h : Varpeek.Holds map specs)
    (hfits : ∀ spec ∈ specs, spec.Fits specs) (hnul : (0 : UInt8) ∉ file)
    (hline : lineno < 2 ^ 32) (hshort : l.name.length ≤ 255) :
    looksUp map file lineno l.name = isNamed specs file lineno l := by
  rw [Bool.eq_iff_iff, isNamed_iff]
  exact ⟨h.names_of_looksUp hfits hnul hline, h.looksUp_of_names hnul hshort⟩

theorem varpeekKey_of_isNamed (hfits : ∀ spec ∈ specs, spec.Fits specs)
    (hnamed : isNamed specs file lineno l = true) :
    varpeekKey file.length file lineno = fullKey file lineno := by
  obtain ⟨spec, hspec, -, rfl, hfirst, hlast⟩ := isNamed_iff.mp hnamed
  rw [varpeekKey_eq spec.path_nul]
  exact List.take_of_length_le (hfits spec hspec lineno hfirst hlast).1.le

end Names

/-- `-e` shows the values of the variables.  If a frame at a line of a file has
compiled variables, and those that are named there have values that are printed,
then `trace_locals` comes to an end and emits an event for each of them, in the
order of the variables of the function, with the file, the line and the text of
the value. -/
theorem traceLocals_shows_values (mem : Remote) (v : PhpVersion)
    (floatText : ℕ → Bytes) (remote : ℕ) (opArray : Bytes)
    (locals : List Local) (hlocals : HoldsLocals mem v remote opArray locals)
    (specs : List Spec) (hfits : ∀ spec ∈ specs, spec.Fits specs)
    (file : Bytes) (hnul : (0 : UInt8) ∉ file) (lineno : ℕ)
    (hline : lineno < 2 ^ 32) (value : Local → PeekedValue)
    (hvalue : ∀ l ∈ locals, isNamed specs file lineno l = true →
      (value l).Holds mem l.value) :
    ∃ map, varpeekAddAll (2 ^ 32) ∅ (specs.map Spec.text) = .ok map ∧
      ∃ enough, ∀ fuel ≥ enough, ∀ tmp,
        traceLocals mem v floatText fuel map lineno remote opArray file tmp =
          ⟨(locals.filter (isNamed specs file lineno)).map fun l =>
            ⟨l.name, fullKey file lineno, (value l).text floatText⟩,
            some (.ok ())⟩ := by
  obtain ⟨map, hadd, hholds⟩ := varpeekAddAll_holds specs
  have hlooks : ∀ l ∈ locals,
      looksUp map file lineno l.name = isNamed specs file lineno l :=
    fun l hl => hholds.looksUp_eq_isNamed hfits hnul hline
      (hlocals.short l hl)
  obtain ⟨enough, hprints⟩ := @exists_printsLocal mem value floatText
    (locals.filter (isNamed specs file lineno)) fun l hl =>
      hvalue l (List.mem_filter.mp hl).1 (List.mem_filter.mp hl).2
  refine ⟨map, hadd, enough, fun fuel hfuel tmp => ?_⟩
  rw [traceLocals]
  cases hentry : varpeekEntry map file lineno with
  | none =>
      have hnone : locals.filter (isNamed specs file lineno) = [] := by
        refine List.filter_eq_nil_iff.mpr fun l hl hnamed => ?_
        rw [← hlooks l hl, looksUp, hentry] at hnamed
        cases hnamed
      rw [hnone]
      rfl
  | some varmap =>
      have hcontains : ∀ l ∈ locals,
          varmap.contains l.name = isNamed specs file lineno l := by
        intro l hl
        rw [← hlooks l hl, looksUp, hentry]
      have hloop := hlocals.localsLoop_prints (fun l hl hname =>
        hprints fuel hfuel l (List.mem_filter.mpr ⟨hl,
          (hcontains l hl).symm.trans (List.contains_iff_mem.mpr hname)⟩))
        List.drop_zero List.nodup_nil (List.nil_subset _)
        (fun _ _ => List.not_mem_nil)
        (varpeekKey file.length file lineno) tmp
      rw [hlocals.count, List.filter_congr hcontains] at hloop
      refine hloop.trans (congrArg (LocalsRun.mk · _) ?_)
      refine List.map_congr_left fun l hl => ?_
      rw [varpeekKey_of_isNamed hfits (List.mem_filter.mp hl).2]

/-- `b@f:2-5` -/
def secondSpec : Spec where
  varname := lit "b"
  path := lit "f"
  startDigits := lit "2"
  endDigits := some (lit "5")
  varname_at := by decide
  varname_nul := by decide
  path_nul := by decide
  startDigits_ne := by decide
  startDigits_digit := List.all_eq_true.mp (by decide)
  endDigits_ne := by decide
  endDigits_digit := by
    rintro _ ⟨⟩
    exact List.all_eq_true.mp (by decide)
  ordered := by decide
  bounded := by decide
  short := by decide

/-- The frame with `a`, which is null, and `b`, which is 7, at line 3. -/
theorem traceLocals_shows_values_second :
    ∃ map, varpeekAddAll (2 ^ 32) ∅ [lit "b@f:2-5"] = .ok map ∧
      ∃ enough, ∀ fuel ≥ enough, ∀ tmp,
        traceLocals (twoLocals nullType) .v74 (fun _ => []) fuel map 3 0x10000
            twoLocalsOpArray (lit "f") tmp =
          ⟨[⟨lit "b", lit "f:3", lit "7"⟩], some (.ok ())⟩ := by
  have hfits : ∀ spec ∈ [secondSpec], spec.Fits [secondSpec] := by
    intro spec hspec n hfirst hlast
    rw [List.mem_singleton.mp hspec] at hfirst hlast ⊢
    have hstart : 2 ≤ n := hfirst
    have hend : n ≤ 5 := hlast
    refine ⟨?_, Or.inl (by decide)⟩
    interval_cases n
    all_goals decide
  have hvalue : ∀ l ∈ ([⟨lit "a", ⟨0, nullType, 0⟩⟩,
      ⟨lit "b", ⟨7, zvalTypeLong, 0⟩⟩] : List Local),
      isNamed [secondSpec] (lit "f") 3 l = true →
        (PeekedValue.value (.long 7)).Holds (twoLocals nullType) l.value := by
    intro l hl hnamed
    rcases List.mem_cons.mp hl with rfl | hl
    · exact absurd hnamed (by decide)
    · rw [List.mem_singleton.mp hl]
      exact ⟨rfl, by decide⟩
  obtain ⟨map, hadd, enough, hrun⟩ := traceLocals_shows_values
    (twoLocals nullType) .v74 (fun _ => []) 0x10000 twoLocalsOpArray _
    (twoLocals_holds (.inl rfl)) [secondSpec] hfits (lit "f") (by decide) 3
    (by decide) (fun _ => .value (.long 7)) hvalue
  refine ⟨map, hadd, enough, fun fuel hfuel tmp => ?_⟩
  rw [hrun fuel hfuel tmp]
  rfl

end Phpspy

import Phpspy.Callgrind.Profile
import Phpspy.MainPid.AnyHandler
import Phpspy.MainPid.FlameGraph

/-!
# The profile of a target

`main_pid` with the callgrind handler adds up the samples and writes the dump
when it is done.  The costs in the dump are those of the stacks that were in the
memory of the target.
-/

namespace Phpspy
namespace Callgrind

open ByteText MainPid

/-! ## The run -/

/-- `do_trace` with the callgrind handler, which takes every event. -/
def doTrace (opts : TraceOptions) (pid : ℤ) (u : Udata)
    (sample : MainPid.Sample) : Udata × Status :=
  if sample.readings.executorGlobals ≠ Status.ok then
    (u, sample.readings.executorGlobals)
  else
    let rv := (sample.readings.gathered opts).2
    let u := runEvents u (.stackBegin :: (sample.readings.gathered opts).1)
    if rv = Status.ok ∨ opts.continueOnError = true then
      (eventHandler u (.stackEnd sample.traceTs pid), Status.ok)
    else (u, rv)

section Run

variable (opts : TraceOptions) (pid : ℤ) (traceLimit : ℕ)

/-- The samples that `main_pid` takes. -/
def taken (samples : List MainPid.Sample) : List MainPid.Sample :=
  takenWith traceLimit (doTrace opts pid) (init, 0) samples

/-- What `main_pid` writes, if it ends.  The dump is written at the end. -/
def mainPid (samples : List MainPid.Sample) : Option Bytes :=
  match loopWith traceLimit (doTrace opts pid) (init, 0) samples with
  | (s, some _) => some (dump s.1.callers)
  | (_, none) => none

def reachesEnd (sample : MainPid.Sample) : Bool :=
  sample.readings.executorGlobals = Status.ok &&
    ((sample.readings.gathered opts).2 = Status.ok || opts.continueOnError)

/-- What the handler sees of a sample, if it sees anything. -/
def seen (sample : MainPid.Sample) : Option Sample :=
  if sample.readings.executorGlobals = Status.ok then
    some
      { events := (sample.readings.gathered opts).1
        ended :=
          if reachesEnd opts sample then some (sample.traceTs, pid) else none
        isRecord := (sample.readings.gathered_isPhase opts).1 }
  else none

end Run

variable {opts : TraceOptions} {pid : ℤ} {traceLimit : ℕ}

theorem reachesEnd_of_seen_none {sample : MainPid.Sample}
    (h : seen opts pid sample = none) : reachesEnd opts sample = false := by
  rw [seen] at h
  split at h
  · cases h
  · next hread => simp [reachesEnd, hread]

theorem seen_completed {sample : MainPid.Sample} {s : Sample}
    (h : seen opts pid sample = some s) :
    s.completed = reachesEnd opts sample := by
  rw [seen] at h
  split at h
  · rw [← Option.some.inj h, Sample.completed]
    cases reachesEnd opts sample with
    | true => rfl
    | false => rfl
  · cases h

theorem doTrace_fst (u : Udata) (sample : MainPid.Sample) :
    (doTrace opts pid u sample).1 =
      runEvents u ((seen opts pid sample).toList.flatMap Sample.handled) := by
  by_cases hread : sample.readings.executorGlobals = Status.ok
  · rw [doTrace, if_neg (not_not.mpr hread), seen, if_pos hread,
      Option.toList_some, List.flatMap_singleton, Sample.handled]
    dsimp only
    have hend : reachesEnd opts sample = true ↔
        (sample.readings.gathered opts).2 = Status.ok ∨
          opts.continueOnError = true := by
      simp [reachesEnd, hread]
    split
    · next hok =>
        rw [if_pos (hend.mpr hok), Option.toList_some, List.map_singleton,
          ← List.cons_append]
        unfold runEvents
        rw [List.foldl_concat]
    · next hok =>
        rw [if_neg fun h => hok (hend.mp h), Option.toList_none, List.map_nil,
          List.append_nil]
  · rw [doTrace, if_pos hread, seen, if_neg hread]
    rfl

theorem loopWith_callers (samples : List MainPid.Sample) :
    (loopWith traceLimit (doTrace opts pid) (init, 0) samples).1.1.callers =
      tableAfter ((taken opts pid traceLimit samples).filterMap
        (seen opts pid)) := by
  have hrun : ∀ (ts : List MainPid.Sample) (u : Udata),
      ts.foldl (fun u sample => (doTrace opts pid u sample).1) u =
        runEvents u ((ts.filterMap (seen opts pid)).flatMap
          Sample.handled) := by
    intro ts
    induction ts with
    | nil => exact fun _ => rfl
    | cons sample ts ih =>
        intro u
        rw [List.foldl_cons, ih, doTrace_fst]
        cases hseen : seen opts pid sample with
        | none =>
            rw [List.filterMap_cons_none hseen]
            rfl
        | some s =>
            rw [List.filterMap_cons_some hseen, List.flatMap_cons,
              Option.toList_some, List.flatMap_singleton]
            exact (List.foldl_append ..).symm
  rw [loopWith_fst, hrun, tableAfter, taken]

theorem tableAfter_filter_completed (samples : List Sample) :
    tableAfter (samples.filter Sample.completed) = tableAfter samples := by
  rw [tableAfter_eq, tableAfter_eq, List.foldl_filter]
  congr 2
  funext state s
  rw [Sample.digest]
  split
  · rfl
  · rfl

/-! ## Samples of targets -/

theorem filterMap_frameLoc_frameEvents (frames : List PhpFrame) (depth : ℕ) :
    (frameEvents frames depth).filterMap frameLoc =
      frames.map PhpFrame.loc := by
  have hfst := List.zipIdx_map_fst depth frames
  rw [frameEvents, List.filterMap_map]
  nth_rewrite 2 [← hfst]
  rw [List.map_map, ← List.filterMap_eq_map]
  rfl

theorem filterMap_frameLoc_side {events : List Event}
    (h : ∀ e ∈ events, isSide e = true) :
    events.filterMap frameLoc = [] := by
  refine List.filterMap_eq_nil_iff.mpr fun e he => ?_
  have hside := h e he
  cases e with
  | frame f => cases hside
  | _ => rfl

def stackOf (target : Target) : List Place :=
  (target.shown.take maxStackDepth).map fun f => place f.loc

theorem seen_locs {sample : MainPid.Sample} {s : Sample} {target : Target}
    (hseen : seen opts pid sample = some s)
    (h : target.probe.readings target.fuel = some sample.readings) :
    s.locs = (target.shown.take maxStackDepth).map PhpFrame.loc := by
  obtain ⟨more, hevents, hside⟩ := target.gathered_events h opts
  rw [seen] at hseen
  split at hseen
  · rw [← Option.some.inj hseen, Sample.locs]
    dsimp only
    rw [hevents, List.filterMap_append, filterMap_frameLoc_frameEvents,
      filterMap_frameLoc_side hside, List.append_nil, List.map_take]
  · cases hseen

theorem completed_locs {ts : List MainPid.Sample}
    {target : MainPid.Sample → Target}
    (h : ∀ sample ∈ ts, reachesEnd opts sample = true →
      (target sample).probe.readings (target sample).fuel =
        some sample.readings) :
    ((ts.filterMap (seen opts pid)).filter Sample.completed).map
        Sample.locs =
      (ts.filter (reachesEnd opts)).map fun sample =>
        ((target sample).shown.take maxStackDepth).map PhpFrame.loc := by
  induction ts with
  | nil => rfl
  | cons sample ts ih =>
      obtain ⟨hsample, hts⟩ := List.forall_mem_cons.mp h
      cases hseen : seen opts pid sample with
      | none =>
          have hend := reachesEnd_of_seen_none hseen
          rw [List.filterMap_cons_none hseen,
            List.filter_cons_of_neg (ne_true_of_eq_false hend)]
          exact ih hts
      | some s =>
          have hcompleted := seen_completed hseen
          rw [List.filterMap_cons_some hseen]
          by_cases hend : reachesEnd opts sample = true
          · rw [List.filter_cons_of_pos (hcompleted.trans hend),
              List.filter_cons_of_pos hend, List.map_cons, List.map_cons,
              seen_locs hseen (hsample hend), ih hts]
          · rw [List.filter_cons_of_neg (hcompleted ▸ hend),
              List.filter_cons_of_neg hend]
            exact ih hts

/-- The dump of a run describes the stacks that were in the memory of the
target.  The samples that are aborted may be anything, each of the others finds
a target with a stack of calls.  For every sample that `main_pid` takes and does
not abort, the stack in memory is in the profile once, up to the depth that the
handler has room for. -/
theorem readProfile_mainPid (opts : TraceOptions) (pid : ℤ)
    (traceLimit : ℕ) (samples : List MainPid.Sample)
    (target : MainPid.Sample → Target)
    (hsampled : ∀ sample ∈ samples, reachesEnd opts sample = true →
      (target sample).probe.readings (target sample).fuel =
        some sample.readings)
    (hreadable : ∀ sample ∈ samples, ∀ f ∈ (target sample).shown,
      IsReadable f.loc)
    (hfew : samples.length < 2 ^ 56) (out : Bytes)
    (hout : mainPid opts pid traceLimit samples = some out) :
    ∃ p, readProfile out = some p ∧
      p.IsOf (((taken opts pid traceLimit samples).filter
        (reachesEnd opts)).map fun sample => stackOf (target sample)) := by
  have htaken : taken opts pid traceLimit samples <+: samples :=
    takenWith_isPrefix _ _
  have hdump : out = dump (tableAfter ((taken opts pid traceLimit
      samples).filterMap (seen opts pid))) := by
    rw [← loopWith_callers]
    rw [mainPid] at hout
    cases hloop : loopWith traceLimit (doTrace opts pid) (init, 0)
        samples with
    | mk s stop =>
        rw [hloop] at hout
        cases stop with
        | none => cases hout
        | some stop => exact (Option.some.inj hout).symm
  generalize taken opts pid traceLimit samples = ts at htaken hdump ⊢
  have hlocs := @completed_locs opts pid ts target fun sample hsample =>
    hsampled sample (htaken.subset hsample)
  rw [← tableAfter_filter_completed] at hdump
  set ss := (ts.filterMap (seen opts pid)).filter Sample.completed with hss
  have hcompleted : ss.filter Sample.completed = ss := by
    rw [hss, List.filter_filter]
    exact List.filter_congr fun s _ => Bool.and_self _
  have hread : ∀ s ∈ ss, ∀ loc ∈ s.locs, IsReadable loc := by
    intro s hs loc hloc
    have hmem : s.locs ∈ ss.map Sample.locs := List.mem_map_of_mem hs
    rw [hlocs] at hmem
    obtain ⟨sample, hsample, heq⟩ := List.mem_map.mp hmem
    rw [← heq] at hloc
    obtain ⟨f, hf, rfl⟩ := List.mem_map.mp hloc
    exact hreadable sample (htaken.subset (List.mem_filter.mp hsample).1) f
      (List.mem_of_mem_take hf)
  have hplaces : ss.map Sample.places =
      (ts.filter (reachesEnd opts)).map
        fun sample => stackOf (target sample) := by
    have hmap := congrArg (List.map (List.map place)) hlocs
    rw [List.map_map, List.map_map] at hmap
    refine hmap.trans (List.map_congr_left fun sample _ => ?_)
    rw [Function.comp_apply, List.map_map, stackOf]
    rfl
  have hlength : ss.length ≤ samples.length :=
    (List.length_filter_le _ _).trans
      ((List.length_filterMap_le _ _).trans htaken.length_le)
  have hisOf := profile_isOf hread
  rw [hcompleted, hplaces] at hisOf
  refine ⟨profile (tableAfter ss), ?_, hisOf⟩
  rw [hdump]
  exact readProfile_dump (tableAfter_isPrintable hread (by omega))

/-- Two samples of the script while it is in `strlen`, and the end. -/
theorem readProfile_mainPid_strlen :
    ∃ r, strlenProbe.readings 0 = some r ∧
      let sample : MainPid.Sample := ⟨false, r, [], false⟩
      let last : MainPid.Sample := ⟨true, r, [], false⟩
      (taken twoWhole.trace 1 0 [sample, sample, last]).length = 2 ∧
        ∃ out p, mainPid twoWhole.trace 1 0 [sample, sample, last] =
          some out ∧ readProfile out = some p ∧
            p.selfCost (place strlenFrame.loc) = 2 ∧
              p.callSum CallCost.inclusive (place scriptFrame.loc)
                (place strlenFrame.loc) = 2 := by
  have hshown : strlenTarget.shown = [strlenFrame, scriptFrame] :=
    List.take_of_length_le (by decide)
  have hreadable : ∀ f ∈ strlenTarget.shown, IsReadable f.loc := by
    rw [hshown]
    intro f hf
    rcases List.mem_cons.mp hf with rfl | hf
    · exact ⟨⟨by decide, by decide, by decide⟩, by decide, by decide⟩
    · rw [List.mem_singleton.mp hf]
      exact ⟨⟨by decide, by decide, by decide⟩, by decide, by decide⟩
  have hstack : stackOf strlenTarget =
      [place strlenFrame.loc, place scriptFrame.loc] := by
    rw [stackOf, hshown]
    rfl
  refine ⟨_, rfl, ?_⟩
  intro sample last
  have hsampled : ∀ s ∈ [sample, sample, last],
      reachesEnd twoWhole.trace s = true →
        strlenProbe.readings 0 = some s.readings := by
    intro s hs _
    simp only [List.mem_cons, List.not_mem_nil, or_false] at hs
    rcases hs with rfl | rfl | rfl
    · rfl
    · rfl
    · rfl
  have hends : (mainPid twoWhole.trace 1 0 [sample, sample, last]).isSome =
        true ∧
      (taken twoWhole.trace 1 0 [sample, sample, last]).length = 2 ∧
      ((taken twoWhole.trace 1 0 [sample, sample, last]).filter
        (reachesEnd twoWhole.trace)).length = 2 := by
    decide +kernel
  obtain ⟨hout, htaken, hended⟩ := hends
  obtain ⟨out, hout⟩ := Option.isSome_iff_exists.mp hout
  obtain ⟨p, hread, hisOf⟩ := readProfile_mainPid twoWhole.trace 1 0
    [sample, sample, last] (fun _ => strlenTarget) hsampled
    (fun _ _ => hreadable) (by decide) out hout
  rw [hstack, List.map_const', hended] at hisOf
  refine ⟨htaken, out, p, hout, hread, ?_, ?_⟩
  · rw [hisOf.self]
    decide
  · rw [hisOf.inclusive]
    decide

end Callgrind
end Phpspy

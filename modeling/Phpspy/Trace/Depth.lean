import Phpspy.Trace.Sample

/-!
# What the depth of a stack tells

`do_trace` goes on after the stack only if `trace_stack` has left a depth of
one or more.  Without a root depth limit the depth counts the frames as they
are emitted.  With one it is set at the end, so a stack that breaks off has
depth zero, whatever has been emitted by then.
-/

namespace Phpspy

open ByteText

/-- Some event is a frame. -/
def EmitsFrame (events : List Event) : Prop :=
  ∃ f, Event.frame f ∈ events

theorem emitsFrame_iff {events : List Event} :
    EmitsFrame events ↔ 1 ≤ (frameDepths events).length := by
  rw [Nat.one_le_iff_ne_zero, Ne, List.length_eq_zero_iff, frameDepths,
    List.filterMap_eq_nil_iff, not_forall]
  constructor
  · rintro ⟨f, hf⟩
    exact ⟨.frame f, fun h => Option.some_ne_none _ (h hf)⟩
  · rintro ⟨e, he⟩
    obtain ⟨hmem, hdepth⟩ := Classical.not_imp.mp he
    cases e with
    | frame f => exact ⟨f, hmem⟩
    | _ => exact absurd rfl hdepth

theorem emitsFrame_append {xs ys : List Event} :
    EmitsFrame (xs ++ ys) ↔ EmitsFrame xs ∨ EmitsFrame ys := by
  simp only [EmitsFrame, List.mem_append, exists_or]

theorem not_emitsFrame_nil : ¬ EmitsFrame [] :=
  fun ⟨_, h⟩ => List.not_mem_nil h

section Loops

variable {emit : ℕ → ℕ → Except Status (List Event × ℕ)}
  (hgroup : ∀ remote depth group next,
    emit remote depth = .ok (group, next) → frameDepths group = [depth])

def Readable (emit : ℕ → ℕ → Except Status (List Event × ℕ))
    (remote i : ℕ) : Prop :=
  ∃ r, emit remote i = .ok r

section

include hgroup

theorem walkLoop_depth (leaf : ℤ) (budget remote depth : ℕ) :
    (walkLoop emit leaf budget remote depth).depth = depth +
      (frameDepths (walkLoop emit leaf budget remote depth).events).length := by
  induction budget generalizing remote depth with
  | zero => rfl
  | succ budget ih =>
      rw [walkLoop]
      split
      · rfl
      · split
        · rfl
        · next group next hemit =>
            simp only [ih, frameDepths_append, hgroup _ _ _ _ hemit,
              List.length_append, List.length_singleton]
            omega

/-- The loop over collected pointers begins with the marker or with the frame
of the leaf. -/
theorem emitLoop_emitsFrame_iff {keepInner keepOuterFrom numElided : ℤ}
    (remote : ℕ) (rest : List ℕ)
    (hskip : keepInner ≤ (0 : ℕ) ∧ ((0 : ℕ) : ℤ) < keepOuterFrom →
      ((0 : ℕ) : ℤ) = keepInner ∧ numElided > 0) :
    EmitsFrame
        (emitLoop emit keepInner keepOuterFrom numElided (remote :: rest) 0).1 ↔
      (((0 : ℕ) : ℤ) = keepInner ∧ numElided > 0) ∨ Readable emit remote 0 := by
  rw [emitLoop]
  by_cases hmarker : ((0 : ℕ) : ℤ) = keepInner ∧ numElided > 0
  · have hfirst : EmitsFrame [elidedFrame numElided 0] :=
      ⟨_, List.mem_singleton_self _⟩
    simp only [if_pos hmarker]
    refine iff_of_true ?_ (.inl hmarker)
    split
    · exact emitsFrame_append.mpr (.inl hfirst)
    · split
      · exact hfirst
      · rw [List.append_assoc]
        exact emitsFrame_append.mpr (.inl hfirst)
  · rw [or_iff_right hmarker]
    simp only [if_neg hmarker, if_neg (mt hskip hmarker), List.nil_append]
    split
    · next rv hemit => simp [not_emitsFrame_nil, Readable, hemit]
    · next group next hemit =>
        refine iff_of_true (emitsFrame_append.mpr (.inl ?_)) ⟨_, hemit⟩
        rw [emitsFrame_iff, hgroup _ _ _ _ hemit]
        exact le_rfl

end

theorem emitLoop_ok_iff
    (hfails : ∀ remote i, FailsWith (· ≠ Status.ok) (emit remote i))
    {keepInner keepOuterFrom numElided : ℤ} (ptrs : List ℕ) (i : ℕ) :
    (emitLoop emit keepInner keepOuterFrom numElided ptrs i).2 = Status.ok ↔
      ∀ j remote, ptrs[j]? = some remote →
        ¬ (keepInner ≤ (i + j : ℕ) ∧ ((i + j : ℕ) : ℤ) < keepOuterFrom) →
          Readable emit remote (i + j) := by
  induction ptrs generalizing i with
  | nil => simp [emitLoop]
  | cons first rest ih =>
      have hrest := ih (i + 1)
      simp only [Nat.add_right_comm i 1] at hrest
      rw [← Nat.and_forall_add_one]
      simp only [List.getElem?_cons_zero, List.getElem?_cons_succ,
        Option.some.injEq, forall_eq', ← Nat.add_assoc, Nat.add_zero]
      rw [← hrest, emitLoop]
      by_cases hskip : keepInner ≤ (i : ℕ) ∧ (i : ℤ) < keepOuterFrom
      · rw [if_pos hskip]
        exact (and_iff_right fun h => absurd hskip h).symm
      · rw [if_neg hskip]
        rcases hemit : emit first i with rv | ⟨group, next⟩
        · refine iff_of_false (hfails first i rv hemit) fun h => ?_
          obtain ⟨r, hr⟩ := h.1 hskip
          rw [hemit] at hr
          cases hr
        · exact (and_iff_right fun _ => ⟨_, hemit⟩).symm

end Loops

/-! ## With a root depth limit -/

theorem stackCollect_length_le {mem : Remote} {v : PhpVersion}
    {budget remote : ℕ} {stackPtrs : List ℕ}
    (h : stackCollect mem v budget remote = .ok stackPtrs) :
    stackPtrs.length ≤ budget := by
  induction budget generalizing remote stackPtrs with
  | zero =>
      rw [← Except.ok.inj h]
      exact le_rfl
  | succ budget ih =>
      rw [stackCollect] at h
      split at h
      · rw [← Except.ok.inj h]
        exact Nat.zero_le _
      · obtain ⟨next, -, h⟩ := bind_eq_ok_iff.mp h
        obtain ⟨rest, hrest, h⟩ := bind_eq_ok_iff.mp h
        rw [← Except.ok.inj h]
        exact Nat.succ_le_succ (ih hrest)

/-- The limits keep the frame at an index. -/
def StackOptions.Keeps (opts : StackOptions) (total i : ℕ) : Prop :=
  i < opts.maxDepthFromLeaf.toNat ∨ total ≤ i + opts.maxDepthFromRoot.toNat

section Collected

variable {opts : StackOptions} {mem : Remote} {v : PhpVersion} {peeks : Peeks}
  {remote : ℕ} {stackPtrs : List ℕ}

def KeptReadable (opts : StackOptions) (mem : Remote) (v : PhpVersion)
    (peeks : Peeks) (stackPtrs : List ℕ) : Prop :=
  ∀ i ptr, stackPtrs[i]? = some ptr → opts.Keeps stackPtrs.length i →
    Readable (stackEmitFrame opts mem v peeks) ptr i

/-- The frame of the leaf is kept and cannot be read. -/
def LeafUnreadable (opts : StackOptions) (mem : Remote) (v : PhpVersion)
    (peeks : Peeks) (stackPtrs : List ℕ) : Prop :=
  opts.Keeps stackPtrs.length 0 ∧ ∃ ptr, stackPtrs.head? = some ptr ∧
    ¬ Readable (stackEmitFrame opts mem v peeks) ptr 0

theorem stackEmitFrame_fails (remote depth : ℕ) :
    FailsWith (· ≠ Status.ok)
      (stackEmitFrame opts mem v peeks remote depth) := by
  refine stackEmitFrame_failsWith opts v peeks ?_ remote depth
  intro raddr size rv h
  rcases copyProcMem_error h with rfl | rfl
  · decide
  · decide

theorem KeptReadable.not_leafUnreadable
    (h : KeptReadable opts mem v peeks stackPtrs) :
    ¬ LeafUnreadable opts mem v peeks stackPtrs := by
  rintro ⟨hkeeps, ptr, hhead, hnot⟩
  rw [List.head?_eq_getElem?] at hhead
  exact hnot (h 0 ptr hhead hkeeps)

theorem traceStack_of_collect (peeks : Peeks)
    (hleafMax : opts.maxDepthFromLeaf < 2 ^ 31)
    (hroot : 0 ≤ opts.maxDepthFromRoot)
    (hrootMax : opts.maxDepthFromRoot < 2 ^ 31)
    (hcollect : stackCollect mem v maxStackWalk remote = .ok stackPtrs) :
    let trace := traceStack opts mem v peeks remote
    (trace.depth = if trace.status = Status.ok then stackPtrs.length else 0) ∧
      (trace.status = Status.ok ↔ KeptReadable opts mem v peeks stackPtrs) ∧
      (EmitsFrame trace.events ↔ stackPtrs ≠ [] ∧
        ¬ LeafUnreadable opts mem v peeks stackPtrs) := by
  have hinner := keepInner_eq opts.maxDepthFromLeaf
  have houter := (Int.toNat_of_nonneg hroot).symm
  have hlength : stackPtrs.length ≤ 1024 := stackCollect_length_le hcollect
  have hwindow := window_iff
    (m := opts.maxDepthFromLeaf.toNat) (n := opts.maxDepthFromRoot.toNat)
    (by omega) (by omega) hlength
  simp only [← houter] at hwindow
  simp only [traceStack, ge_iff_le, if_pos hroot, hcollect] at hinner ⊢
  simp only [hinner]
  refine ⟨trivial, ?_, ?_⟩
  · rw [emitLoop_ok_iff stackEmitFrame_fails]
    refine forall₃_congr fun i ptr hptr => ?_
    have hi := (hwindow i (List.getElem?_eq_some_iff.mp hptr).1).1
    rw [Nat.zero_add, hi, StackOptions.Keeps]
    exact imp_congr_left (by omega)
  · cases stackPtrs with
    | nil => exact iff_of_false not_emitsFrame_nil fun h => h.1 rfl
    | cons first rest =>
        obtain ⟨hskip, hmark⟩ := hwindow 0 (Nat.zero_lt_succ _)
        rw [emitLoop_emitsFrame_iff
          (fun _ _ _ _ hemit => (stackEmitFrame_eq_ok hemit).1) first rest
          fun h => hmark.mpr ⟨by omega, (hskip.mp h).2⟩, hmark]
        simp only [LeafUnreadable, StackOptions.Keeps, List.head?_cons,
          Option.some.injEq, exists_eq_left', ne_eq, reduceCtorEq,
          not_false_eq_true, true_and, not_and_or, not_not]
        exact or_congr_left (by omega)

end Collected

/-- With `-c` and a living target, the depth decides whether the trace goes
on. -/
theorem Readings.goesOn_iff (r : Readings) {opts : TraceOptions}
    (hcontinue : opts.continueOnError = true)
    (halive : r.stack.status.pidDead = false) :
    r.goesOn opts = true ↔ 1 ≤ r.depth := by
  have hgo : shouldStopTrace opts r.stack.status = false := by
    simp only [shouldStopTrace, halive, r.stack.isPhase.2.1, hcontinue,
      Bool.not_true, Bool.and_false, Bool.or_self]
  rw [Readings.goesOn, hgo, Bool.false_or, Bool.not_eq_true',
    decide_eq_false_iff_not, Nat.not_lt]

/-- The depth tells whether a frame has been emitted, and with `-c` the rest of
a sample is captured accordingly, unless a stack that is read from its root
breaks off behind its first frame or marker. -/
theorem traceStack_depth_iff (opts : StackOptions) (mem : Remote)
    (v : PhpVersion) (peeks : Peeks) (remote : ℕ)
    (hleafMax : opts.maxDepthFromLeaf < 2 ^ 31)
    (hrootMax : opts.maxDepthFromRoot < 2 ^ 31) :
    let trace := traceStack opts mem v peeks remote
    ((1 ≤ trace.depth ↔ EmitsFrame trace.events) ∧
      ∀ (r : Readings) (traceOpts : TraceOptions),
        r.stack.status = trace.status → r.depth = trace.depth →
          traceOpts.continueOnError = true → trace.status.pidDead = false →
            (r.goesOn traceOpts = true ↔ EmitsFrame trace.events)) ↔
      opts.maxDepthFromRoot < 0 ∨
        ∀ stackPtrs, stackCollect mem v maxStackWalk remote = .ok stackPtrs →
          KeptReadable opts mem v peeks stackPtrs ∨
            LeafUnreadable opts mem v peeks stackPtrs := by
  intro trace
  have hrest : (1 ≤ trace.depth ↔ EmitsFrame trace.events) →
      ∀ (r : Readings) (traceOpts : TraceOptions),
        r.stack.status = trace.status → r.depth = trace.depth →
          traceOpts.continueOnError = true → trace.status.pidDead = false →
            (r.goesOn traceOpts = true ↔ EmitsFrame trace.events) := by
    intro hdepth r traceOpts hstatus hr hcontinue halive
    rw [← hdepth, ← hr]
    exact r.goesOn_iff hcontinue (hstatus ▸ halive)
  rw [and_iff_left_of_imp hrest]
  by_cases hroot : opts.maxDepthFromRoot < 0
  · have hwalk : trace = walkLoop (stackEmitFrame opts mem v peeks)
        opts.maxDepthFromLeaf maxStackWalk remote 0 :=
      if_neg (not_le.mpr hroot)
    refine iff_of_true ?_ (.inl hroot)
    rw [hwalk, emitsFrame_iff, walkLoop_depth
      fun _ _ _ _ hemit => (stackEmitFrame_eq_ok hemit).1, Nat.zero_add]
  rw [or_iff_right hroot]
  cases hcollect : stackCollect mem v maxStackWalk remote with
  | error rv =>
      have htrace : trace = ⟨[], 0, rv⟩ := by
        simp only [trace, traceStack, ge_iff_le, not_lt.mp hroot, if_true,
          hcollect]
      rw [htrace]
      exact iff_of_true
        (iff_of_false (Nat.not_succ_le_zero 0) not_emitsFrame_nil) (by simp)
  | ok stackPtrs =>
      obtain ⟨hdepth, hstatus, hframe⟩ := traceStack_of_collect peeks hleafMax
        (not_lt.mp hroot) hrootMax hcollect
      rw [show trace.depth = _ from hdepth, hframe]
      simp only [Except.ok.injEq, forall_eq', ← hstatus]
      by_cases hok : trace.status = Status.ok
      · have hleaf := (hstatus.mp hok).not_leafUnreadable
        refine iff_of_true ?_ (.inl hok)
        rw [if_pos hok, and_iff_left hleaf, Nat.one_le_iff_ne_zero, Ne,
          List.length_eq_zero_iff]
      · have hne : stackPtrs ≠ [] := by
          rintro rfl
          exact hok (hstatus.mpr (by simp [KeptReadable]))
        rw [if_neg hok, or_iff_right hok, and_iff_right hne,
          iff_false_left (Nat.not_succ_le_zero 0), not_not]

/-- The stack of `threeFrames`, read from both ends. -/
theorem threeFrames_depth_tells :
    1 ≤ (traceStack oneFromEachEnd threeFrames .v83 noPeeks 512).depth ↔
      EmitsFrame
        (traceStack oneFromEachEnd threeFrames .v83 noPeeks 512).events := by
  refine ((traceStack_depth_iff oneFromEachEnd threeFrames .v83 noPeeks 512
    (by decide) (by decide)).mpr (.inr fun stackPtrs hcollect => .inl ?_)).1
  have hptrs : stackCollect threeFrames .v83 maxStackWalk 512 =
      .ok [512, 1024, 1536] := rfl
  obtain rfl := Except.ok.inj (hptrs.symm.trans hcollect)
  rintro (_ | _ | _ | i) ptr hptr -
  · cases hptr
    exact ⟨_, rfl⟩
  · cases hptr
    exact ⟨_, rfl⟩
  · cases hptr
    exact ⟨_, rfl⟩
  · cases hptr

/-! ## A frame without a function -/

/-- A frame at 512 that runs the function at 256, called from a frame at 1024
without a function.  The executor globals are at 2048, the allocator's globals
at 4096 and the heap at 4352. -/
def functionless : Remote where
  byte a :=
    if a = 512 + 25 then 1
    else if a = 512 + 49 then 4
    else if a = 2048 + 489 then 2
    else if a = 4096 + 1 then 17
    else if a = 4352 + 16 then 5
    else if a = 4352 + 24 then 7
    else 0
  fault _ _ := none

/-- A look at this process with a root depth limit. -/
def functionlessProbe (maxDepthFromRoot : ℤ) : Probe where
  mem := functionless
  arch := .x86_64
  v := .v83
  executorGlobalsAddr := 2048
  sapiGlobalsAddr := 0
  allocGlobalsAddr := 4096
  stackOptions :=
    { maxDepthFromLeaf := -1
      maxDepthFromRoot := maxDepthFromRoot
      varpeeking := false
      peekPdo := false }
  requestOptions := ⟨false, false, false, false⟩
  glopeekMap := []
  peeks := noPeeks
  floatText _ := []
  signed := true
  request := ⟨[], [], [], [], [], []⟩
  buf _ := 0

/-- `-c -m` -/
def memoryOnError : TraceOptions where
  captureReq := false
  captureMem := true
  glopeeking := false
  continueOnError := true

/-- Both ways of walking emit the first frame and fail at the second one, but
only without a root depth limit the memory usage is captured. -/
theorem functionless_depth_zero :
    (functionlessProbe 5).stack.events = [mainFrame 0] ∧
      (functionlessProbe 5).stack.depth = 0 ∧
      (functionlessProbe (-1)).stack.events = [mainFrame 0] ∧
      (functionlessProbe (-1)).stack.depth = 1 ∧
      ((functionlessProbe 5).readings 0).map
          (fun r => (r.gathered memoryOnError).1) = some [mainFrame 0] ∧
      ((functionlessProbe (-1)).readings 0).map
          (fun r => (r.gathered memoryOnError).1) =
        some [mainFrame 0, .mem 5 7] := by
  decide +kernel

end Phpspy

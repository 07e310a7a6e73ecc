import Phpspy.Trace.Elision

/-!
# What one sample reads

`do_trace` walks the stack and then captures the request, the memory usage and
the peeked globals, as far as it is asked to and as long as reading works.
Reading fails with no other status bits than `PHPSPY_ERR` and
`PHPSPY_ERR_PID_DEAD`.
-/

namespace Phpspy

open ByteText

/-- The statuses that a failed read can lead to. -/
def Status.FromRead (rv : Status) : Prop :=
  rv.truncated = false ∧ rv.skipped = false

namespace Status

theorem FromRead.or {a b : Status} (ha : a.FromRead) (hb : b.FromRead) :
    (a ||| b).FromRead := by
  constructor
  · change (a.truncated || b.truncated) = false
    rw [ha.1, hb.1]
    rfl
  · change (a.skipped || b.skipped) = false
    rw [ha.2, hb.2]
    rfl

theorem FromRead.ok : Status.ok.FromRead :=
  ⟨rfl, rfl⟩

end Status

/-- Records, and a status that comes from reading. -/
def IsPhase (events : List Event) (rv : Status) : Prop :=
  (∀ e ∈ events, e.isRecord = true) ∧ rv.FromRead

theorem IsPhase.nil {rv : Status} (h : rv.FromRead) : IsPhase [] rv :=
  ⟨fun _ he => absurd he List.not_mem_nil, h⟩

theorem IsPhase.prepend {front events : List Event} {rv : Status}
    (hfront : ∀ e ∈ front, e.isRecord = true) (h : IsPhase events rv) :
    IsPhase (front ++ events) rv := by
  refine ⟨fun e he => ?_, h.2⟩
  rcases List.mem_append.mp he with hmem | hmem
  · exact hfront e hmem
  · exact h.1 e hmem

/-- The part of a sample that one function reads: the events that it emits and
its status. -/
structure Phase where
  events : List Event
  status : Status
  isPhase : IsPhase events status

/-! ## The options and the phases -/

/-- The options that `do_trace` reads. -/
structure TraceOptions where
  /-- `opt_capture_req` -/
  captureReq : Bool
  /-- `opt_capture_mem` -/
  captureMem : Bool
  /-- `HASH_CNT(hh, glopeek_map) > 0` -/
  glopeeking : Bool
  /-- `opt_continue_on_error` -/
  continueOnError : Bool

/-- `should_stop_trace` -/
def shouldStopTrace (opts : TraceOptions) (rv : Status) : Bool :=
  rv.pidDead || rv.truncated ||
    (rv != Status.ok && !opts.continueOnError)

/-- What the functions that `do_trace` calls would read: the status of
`copy_executor_globals`, `trace_stack` with its depth, `trace_request_info`,
`trace_memory_info` and `trace_globals`. -/
structure Readings where
  executorGlobals : Status
  globalsFromRead : executorGlobals.FromRead
  stack : Phase
  depth : ℕ
  requestInfo : Phase
  memoryInfo : Phase
  globals : Phase

namespace Readings

/-- The phases after the stack that the options ask for. -/
def captured (r : Readings) (opts : TraceOptions) : List Phase :=
  (if opts.captureReq then [r.requestInfo] else []) ++
    (if opts.captureMem then [r.memoryInfo] else []) ++
    if opts.glopeeking then [r.globals] else []

end Readings

/-- The phases one after the other, until one of them makes the trace stop. -/
def tracePhases (opts : TraceOptions) :
    Status → List Phase → List Event × Status
  | rv, [] => ([], rv)
  | rv, phase :: phases =>
      let rv := rv ||| phase.status
      if shouldStopTrace opts rv then (phase.events, rv)
      else
        let (events, rv) := tracePhases opts rv phases
        (phase.events ++ events, rv)

/-- The events between the two ends of the stack, and the status at
`do_trace_end`. -/
def Readings.gathered (r : Readings) (opts : TraceOptions) :
    List Event × Status :=
  if shouldStopTrace opts r.stack.status || decide (r.depth < 1) then
    (r.stack.events, r.stack.status)
  else
    let (events, rv) := tracePhases opts r.stack.status (r.captured opts)
    (r.stack.events ++ events, rv)

theorem tracePhases_isPhase (opts : TraceOptions) {rv : Status}
    (hrv : rv.FromRead) (phases : List Phase) :
    IsPhase (tracePhases opts rv phases).1 (tracePhases opts rv phases).2 := by
  induction phases generalizing rv with
  | nil => exact IsPhase.nil hrv
  | cons phase phases ih =>
      have hor := hrv.or phase.isPhase.2
      simp only [tracePhases]
      split
      · exact ⟨phase.isPhase.1, hor⟩
      · exact (ih hor).prepend phase.isPhase.1

theorem Readings.gathered_isPhase (r : Readings) (opts : TraceOptions) :
    IsPhase (r.gathered opts).1 (r.gathered opts).2 := by
  obtain ⟨hrecord, hread⟩ := r.stack.isPhase
  unfold Readings.gathered
  split
  · exact ⟨hrecord, hread⟩
  · exact (tracePhases_isPhase opts hread (r.captured opts)).prepend hrecord

/-! ## The phases that run -/

/-- The phases up to the one that makes the trace stop. -/
def ranPhases (opts : TraceOptions) : Status → List Phase → List Phase
  | _, [] => []
  | rv, phase :: phases =>
      let rv := rv ||| phase.status
      phase :: if shouldStopTrace opts rv then [] else ranPhases opts rv phases

/-- The trace goes on after the stack. -/
def Readings.goesOn (r : Readings) (opts : TraceOptions) : Bool :=
  !(shouldStopTrace opts r.stack.status || decide (r.depth < 1))

/-- The phases of a sample that run. -/
def Readings.ran (r : Readings) (opts : TraceOptions) : List Phase :=
  r.stack ::
    if r.goesOn opts then ranPhases opts r.stack.status (r.captured opts)
    else []

/-- The status has a bit exactly if a phase has returned it. -/
theorem tracePhases_pidDead_iff (opts : TraceOptions) (rv : Status)
    (phases : List Phase) :
    (tracePhases opts rv phases).2.pidDead = true ↔
      rv.pidDead = true ∨
        ∃ p ∈ ranPhases opts rv phases, p.status.pidDead = true := by
  induction phases generalizing rv with
  | nil => simp [tracePhases, ranPhases]
  | cons phase phases ih =>
      have hor : (rv ||| phase.status).pidDead = true ↔
          rv.pidDead = true ∨ phase.status.pidDead = true :=
        Bool.or_eq_true_iff
      simp only [tracePhases, ranPhases]
      split
      · simp only [hor, List.mem_singleton, exists_eq_left]
      · simp only [ih, hor, List.mem_cons, exists_eq_or_imp, or_assoc]

theorem Readings.gathered_pidDead_iff (r : Readings) (opts : TraceOptions) :
    (r.gathered opts).2.pidDead = true ↔
      ∃ p ∈ r.ran opts, p.status.pidDead = true := by
  rw [Readings.gathered, Readings.ran, Readings.goesOn]
  by_cases hstop :
      (shouldStopTrace opts r.stack.status || decide (r.depth < 1)) = true
  · simp only [hstop, if_true, Bool.not_true, Bool.false_eq_true, if_false,
      List.mem_singleton, exists_eq_left]
  · simp only [hstop, Bool.false_eq_true, if_false, Bool.not_false, if_true,
      tracePhases_pidDead_iff, List.mem_cons, exists_eq_or_imp]

/-! ## The stack as a phase -/

/-- The status of every failure is of some kind. -/
def FailsWith {α : Type} (P : Status → Prop) (x : Except Status α) : Prop :=
  ∀ rv, x = .error rv → P rv

theorem FailsWith.ok {α : Type} {P : Status → Prop} (a : α) :
    FailsWith P (.ok a : Except Status α) :=
  fun rv h => by cases h

theorem FailsWith.bind {α β : Type} {P : Status → Prop} {x : Except Status α}
    {f : α → Except Status β} (hx : FailsWith P x)
    (hf : ∀ a, x = .ok a → FailsWith P (f a)) : FailsWith P (x >>= f) := by
  intro rv h
  cases x with
  | error e =>
      have he : e = rv := Except.error.inj h
      exact hx rv (congrArg Except.error he)
  | ok a => exact hf a rfl rv h

theorem copyProcMem_error {mem : Remote} {raddr size : ℕ} {rv : Status}
    (h : copyProcMem mem raddr size = .error rv) :
    rv = Status.error ∨ rv = Status.error ||| Status.errPidDead := by
  unfold copyProcMem at h
  split at h
  · exact .inl (Except.error.inj h).symm
  · split at h
    · exact .inr (Except.error.inj h).symm
    · exact .inl (Except.error.inj h).symm
    · split at h
      · cases h
      · exact .inl (Except.error.inj h).symm

theorem copyProcMem_fromRead (mem : Remote) (raddr size : ℕ) :
    FailsWith Status.FromRead (copyProcMem mem raddr size) := by
  intro rv h
  rcases copyProcMem_error h with rfl | rfl
  · exact ⟨rfl, rfl⟩
  · exact ⟨rfl, rfl⟩

section Frame

variable (opts : StackOptions) {mem : Remote} (v : PhpVersion) (peeks : Peeks)
  {P : Status → Prop}
  (hcopy : ∀ raddr size, FailsWith P (copyProcMem mem raddr size))

include hcopy

theorem sprintZstring_failsWith (rzstring bufSize : ℕ) :
    FailsWith P (sprintZstring mem rzstring bufSize) :=
  (hcopy _ _).bind fun _ _ => hcopy _ _

theorem frameSource_failsWith (remote : ℕ) (executeData zfunc : Bytes) :
    FailsWith P (frameSource opts mem v peeks remote executeData zfunc) := by
  unfold frameSource
  split
  · refine (sprintZstring_failsWith hcopy _ _).bind fun file _ => ?_
    split
    · exact FailsWith.ok _
    · exact FailsWith.ok _
  · exact FailsWith.ok _

theorem stackEmitFrame_failsWith (remote depth : ℕ) :
    FailsWith P (stackEmitFrame opts mem v peeks remote depth) := by
  have hfunc : ∀ zfunc, FailsWith P (frameFunc mem zfunc) := by
    intro zfunc
    unfold frameFunc
    split
    · exact sprintZstring_failsWith hcopy _ _
    · exact FailsWith.ok _
  have hclass : ∀ zfunc, FailsWith P (frameClass mem zfunc) := by
    intro zfunc
    unfold frameClass
    split
    · exact (hcopy _ _).bind fun _ _ => sprintZstring_failsWith hcopy _ _
    · exact FailsWith.ok _
  unfold stackEmitFrame
  refine (hcopy _ _).bind fun executeData _ => ?_
  refine (hcopy _ _).bind fun zfunc _ => ?_
  refine (hfunc zfunc).bind fun func _ => ?_
  refine (hclass zfunc).bind fun cls _ => ?_
  refine (frameSource_failsWith _ _ _ hcopy _ _ _).bind fun source _ => ?_
  exact FailsWith.ok _

end Frame

section Phases

variable (opts : StackOptions) (mem : Remote) (v : PhpVersion) (peeks : Peeks)

theorem stackEmitFrame_fromRead (remote depth : ℕ) :
    FailsWith Status.FromRead (stackEmitFrame opts mem v peeks remote depth) :=
  stackEmitFrame_failsWith opts v peeks (copyProcMem_fromRead mem)
    remote depth

theorem stackEmitFrame_isRecord {remote depth next : ℕ}
    {group : List Event}
    (h : stackEmitFrame opts mem v peeks remote depth = .ok (group, next)) :
    ∀ e ∈ group, e.isRecord = true := by
  unfold stackEmitFrame at h
  obtain ⟨executeData, -, h⟩ := bind_eq_ok_iff.mp h
  obtain ⟨zfunc, -, h⟩ := bind_eq_ok_iff.mp h
  obtain ⟨func, -, h⟩ := bind_eq_ok_iff.mp h
  obtain ⟨cls, -, h⟩ := bind_eq_ok_iff.mp h
  obtain ⟨⟨file, lineno, locals⟩, -, h⟩ := bind_eq_ok_iff.mp h
  obtain ⟨rfl, -⟩ := Prod.mk.inj (Except.ok.inj h)
  intro e he
  rcases List.mem_append.mp he with hlocal | hrest
  · obtain ⟨p, -, rfl⟩ := List.mem_map.mp hlocal
    rfl
  · rcases List.mem_cons.mp hrest with rfl | hpdo
    · rfl
    · obtain ⟨p, -, rfl⟩ := List.mem_map.mp hpdo
      rfl

theorem stackCollect_fromRead (budget remote : ℕ) :
    FailsWith Status.FromRead (stackCollect mem v budget remote) := by
  induction budget generalizing remote with
  | zero => exact FailsWith.ok _
  | succ budget ih =>
      rw [stackCollect]
      split
      · exact FailsWith.ok _
      · refine (copyProcMem_fromRead _ _ _).bind fun next _ => ?_
        exact (ih _).bind fun rest _ => FailsWith.ok _

end Phases

section Loops

variable {emit : ℕ → ℕ → Except Status (List Event × ℕ)}
  (hreads : ∀ remote depth, FailsWith Status.FromRead (emit remote depth))
  (hrecords : ∀ remote depth group next,
    emit remote depth = .ok (group, next) → ∀ e ∈ group, e.isRecord = true)

include hreads hrecords

theorem emitLoop_isPhase (keepInner keepOuterFrom numElided : ℤ)
    (ptrs : List ℕ) (i : ℕ) :
    IsPhase (emitLoop emit keepInner keepOuterFrom numElided ptrs i).1
      (emitLoop emit keepInner keepOuterFrom numElided ptrs i).2 := by
  have hmarker : ∀ i : ℕ, ∀ e ∈
      (if (i : ℤ) = keepInner ∧ numElided > 0 then [elidedFrame numElided i]
        else []), e.isRecord = true := by
    intro i e he
    split at he
    · rw [List.mem_singleton.mp he]
      rfl
    · exact absurd he List.not_mem_nil
  induction ptrs generalizing i with
  | nil => exact IsPhase.nil Status.FromRead.ok
  | cons remote rest ih =>
      rw [emitLoop]
      split
      · exact (ih (i + 1)).prepend (hmarker i)
      · split
        · next rv hemit => exact ⟨hmarker i, hreads remote i rv hemit⟩
        · next group next hemit =>
            simp only [List.append_assoc]
            exact ((ih (i + 1)).prepend
              (hrecords remote i group next hemit)).prepend (hmarker i)

theorem walkLoop_isPhase (leaf : ℤ) (budget remote depth : ℕ) :
    IsPhase (walkLoop emit leaf budget remote depth).events
      (walkLoop emit leaf budget remote depth).status := by
  induction budget generalizing remote depth with
  | zero => exact IsPhase.nil Status.FromRead.ok
  | succ budget ih =>
      rw [walkLoop]
      split
      · exact IsPhase.nil Status.FromRead.ok
      · split
        · next rv hemit => exact IsPhase.nil (hreads remote depth rv hemit)
        · next group next hemit =>
            exact (ih next (depth + 1)).prepend
              (hrecords remote depth group next hemit)

end Loops

/-- Whatever the memory of the target holds and whichever reads fail. -/
theorem traceStack_isPhase (opts : StackOptions) (mem : Remote)
    (v : PhpVersion) (peeks : Peeks) (remote : ℕ) :
    IsPhase (traceStack opts mem v peeks remote).events
      (traceStack opts mem v peeks remote).status := by
  have hreads := stackEmitFrame_fromRead opts mem v peeks
  have hrecords : ∀ remote depth group next,
      stackEmitFrame opts mem v peeks remote depth = .ok (group, next) →
        ∀ e ∈ group, e.isRecord = true :=
    fun _ _ _ _ h => stackEmitFrame_isRecord opts mem v peeks h
  unfold traceStack
  split
  · split
    · next rv hcollect =>
        exact IsPhase.nil (stackCollect_fromRead mem v _ _ rv hcollect)
    · exact emitLoop_isPhase hreads hrecords _ _ _ _ _
  · exact walkLoop_isPhase hreads hrecords _ _ _ _

/-- `trace_stack` as the first phase of a sample. -/
def stackPhase (opts : StackOptions) (mem : Remote) (v : PhpVersion)
    (peeks : Peeks) (remote : ℕ) : Phase where
  events := (traceStack opts mem v peeks remote).events
  status := (traceStack opts mem v peeks remote).status
  isPhase := traceStack_isPhase opts mem v peeks remote

end Phpspy

import Phpspy.Trace.Division
import Phpspy.Trace.Request

/-!
# A sample of a target

`do_trace` starts from three addresses in the target: those of the executor
globals, of the SAPI globals and of the allocator's globals.  This module has
the two short reads among its phases, and puts all phases together.
-/

namespace Phpspy

open ByteText BufferPrinting Walks Glopeek

/-! ## The executor globals and the memory usage -/

/-- `offsetof(zend_executor_globals, current_execute_data)`, the last field. -/
def PhpVersion.currentExecuteData : PhpVersion → ℕ
  | .v70 => 480
  | .v71 => 480
  | .v72 => 480
  | .v85 => 512
  | .v86 => 512
  | _ => 488

/-- `copy_executor_globals`: the field that is used, `current_execute_data`. -/
def copyExecutorGlobals (mem : Remote) (v : PhpVersion)
    (executorGlobalsAddr : ℕ) : Except Status ℕ := do
  let executorGlobals ← copyProcMem mem executorGlobalsAddr
    (v.currentExecuteData + 8)
  .ok (field executorGlobals v.currentExecuteData 8)

/-- `trace_memory_info`, up to the event: `size` and `peak` of the
`zend_mm_heap` that the `zend_alloc_globals` point to. -/
def traceMemoryInfo (mem : Remote) (allocGlobalsAddr : ℕ) :
    Except Status Event := do
  let allocGlobals ← copyProcMem mem allocGlobalsAddr 8
  let mmHeap ← copyProcMem mem (leVal allocGlobals) 32
  .ok (.mem (field mmHeap 16 8) (field mmHeap 24 8))

theorem copyExecutorGlobals_fromRead (mem : Remote) (v : PhpVersion)
    (executorGlobalsAddr : ℕ) :
    FailsWith Status.FromRead (copyExecutorGlobals mem v executorGlobalsAddr) :=
  (copyProcMem_fromRead _ _ _).bind fun _ _ => FailsWith.ok _

theorem traceMemoryInfo_fromRead (mem : Remote) (allocGlobalsAddr : ℕ) :
    FailsWith Status.FromRead (traceMemoryInfo mem allocGlobalsAddr) := by
  have hread := copyProcMem_fromRead mem
  refine (hread _ _).bind fun allocGlobals _ => ?_
  exact (hread _ _).bind fun mmHeap _ => FailsWith.ok _

theorem traceMemoryInfo_isRecord {mem : Remote} {allocGlobalsAddr : ℕ}
    {event : Event} (h : traceMemoryInfo mem allocGlobalsAddr = .ok event) :
    event.isRecord = true := by
  obtain ⟨allocGlobals, -, h⟩ := bind_eq_ok_iff.mp h
  obtain ⟨mmHeap, -, h⟩ := bind_eq_ok_iff.mp h
  rw [← Except.ok.inj h]
  rfl

/-- `trace_memory_info` as a phase of a sample. -/
def memoryPhase (mem : Remote) (allocGlobalsAddr : ℕ) : Phase :=
  match h : traceMemoryInfo mem allocGlobalsAddr with
  | .ok event =>
      { events := [event]
        status := Status.ok
        isPhase := (IsPhase.nil Status.FromRead.ok).prepend fun _ he =>
          List.mem_singleton.mp he ▸ traceMemoryInfo_isRecord h }
  | .error rv =>
      { events := []
        status := rv
        isPhase := IsPhase.nil (traceMemoryInfo_fromRead _ _ rv h) }

/-! ## The peeked globals as a phase -/

theorem FailsWith.map {α β : Type} {P : Status → Prop} {x : Except Status α}
    (hx : FailsWith P x) (f : α → β) : FailsWith P (x.map f) := by
  intro rv h
  cases x with
  | error e => exact hx rv (congrArg Except.error (Except.error.inj h))
  | ok a => cases h

section Lookup

variable {mem : Remote} {rv : Status}

theorem chainStep_fromRead {arData i : ℕ} {key : Bytes}
    (h : chainStep mem arData key i = .inl (.error (.status rv))) :
    rv.FromRead := by
  have hcopy : FailsWith Status.FromRead
      (copyBucket mem (ptrAdd arData (bucketSize * i))) :=
    FailsWith.map (copyProcMem_fromRead _ _ _) _
  unfold chainStep at h
  split at h
  · cases h
    exact ⟨rfl, rfl⟩
  · split at h
    · next e he =>
        cases h
        exact hcopy rv he
    · split at h
      · cases h
      · split at h
        · next e he =>
            cases h
            exact sprintZstring_failsWith (copyProcMem_fromRead mem) _ _ rv he
        · split at h <;> cases h

theorem copyZarrayBucket_fromRead {key : Bytes} {signed : Bool}
    {fuel rzarray : ℕ}
    (h : copyZarrayBucket mem key signed fuel rzarray =
      some (.error (.status rv))) : rv.FromRead := by
  have harray : FailsWith Status.FromRead (copyZendArray mem rzarray) :=
    FailsWith.map (copyProcMem_fromRead _ _ _) _
  unfold copyZarrayBucket at h
  split at h
  · next e he =>
      cases h
      exact harray rv he
  · dsimp only at h
    split at h
    · cases h
    · split at h
      · next e he =>
          cases h
          exact copyProcMem_fromRead _ _ _ rv he
      · obtain ⟨i, hstep⟩ := exists_inl_of_walk h
        exact chainStep_fromRead hstep

end Lookup

/-- `trace_globals` returns early only if it cannot find a superglobal. -/
theorem traceGlobals_fromRead {mem : Remote} {floatText : ℕ → Bytes}
    {signed : Bool} {fuel executorGlobalsAddr : ℕ}
    {entries : List GlopeekEntry} {buf : Buffer} {rv : Status}
    (h : (traceGlobals mem floatText signed fuel executorGlobalsAddr entries
      buf).ended = some (.error (.status rv))) : rv.FromRead := by
  obtain ⟨before, gentry, after, -, -, hturn⟩ :=
    exists_leaves_of_globalsLoop h
  unfold globalTurn at hturn
  cases harray : globalArray mem signed fuel
      (ptrAdd executorGlobalsAddr symbolTableOffset) gentry with
  | none => simp [harray] at hturn
  | some r =>
      rw [harray] at hturn
      cases r with
      | error e =>
          cases hturn
          exact copyZarrayBucket_fromRead
            (copyZarrayBucket_of_globalArray harray)
      | ok garray =>
          dsimp only at hturn
          split at hturn
          · cases hturn
          · cases hturn
          · cases hturn
          · next out e hstatus _ =>
              cases hturn
              exact absurd rfl (hstatus rv)

theorem GlobalsRun.glopeeks_isRecord (run : GlobalsRun) :
    ∀ e ∈ run.glopeeks, e.isRecord = true := by
  intro e he
  obtain ⟨entry, -, rfl⟩ := List.mem_map.mp he
  rfl

/-- `trace_globals` as a phase of a sample, if it returns. -/
def globalsPhase (mem : Remote) (floatText : ℕ → Bytes) (signed : Bool)
    (fuel executorGlobalsAddr : ℕ) (entries : List GlopeekEntry)
    (buf : Buffer) : Option Phase :=
  let run := traceGlobals mem floatText signed fuel executorGlobalsAddr
    entries buf
  match h : run.ended with
  | some (.ok ()) =>
      some
        { events := run.glopeeks
          status := Status.ok
          isPhase := ⟨run.glopeeks_isRecord, Status.FromRead.ok⟩ }
  | some (.error (.status rv)) =>
      some
        { events := run.glopeeks
          status := rv
          isPhase := ⟨run.glopeeks_isRecord, traceGlobals_fromRead h⟩ }
  | _ => none

/-! ## All phases -/

/-- What `do_trace` works with: the memory of the target and where its globals
are, the options of each phase, and what the trace context holds before. -/
structure Probe where
  mem : Remote
  arch : Arch
  v : PhpVersion
  executorGlobalsAddr : ℕ
  sapiGlobalsAddr : ℕ
  allocGlobalsAddr : ℕ
  stackOptions : StackOptions
  requestOptions : RequestOptions
  glopeekMap : List GlopeekEntry
  peeks : Peeks
  floatText : ℕ → Bytes
  signed : Bool
  request : TraceRequest
  buf : Buffer

namespace Probe

variable (p : Probe)

/-- `current_execute_data`, which is null unless it can be read. -/
def currentExecuteData : ℕ :=
  (copyExecutorGlobals p.mem p.v p.executorGlobalsAddr).toOption.getD 0

/-- `trace_stack` from the current frame on. -/
def stack : StackTrace :=
  traceStack p.stackOptions p.mem p.v p.peeks p.currentExecuteData

/-- What the phases of a sample read, if `trace_globals` returns. -/
def readings (fuel : ℕ) : Option Readings :=
  (globalsPhase p.mem p.floatText p.signed fuel p.executorGlobalsAddr
      p.glopeekMap p.buf).map fun globals =>
    { executorGlobals :=
        match copyExecutorGlobals p.mem p.v p.executorGlobalsAddr with
        | .ok _ => Status.ok
        | .error rv => rv
      globalsFromRead := by
        split
        · exact Status.FromRead.ok
        · next rv h => exact copyExecutorGlobals_fromRead _ _ _ rv h
      stack := stackPhase p.stackOptions p.mem p.v p.peeks
        p.currentExecuteData
      depth := p.stack.depth
      requestInfo := requestPhase p.mem p.arch p.v p.requestOptions
        p.floatText p.sapiGlobalsAddr p.request
      memoryInfo := memoryPhase p.mem p.allocGlobalsAddr
      globals := globals }

end Probe

end Phpspy

import Phpspy.MainPid.Loop

/-!
# The sampling loop with any handler

`main_pid` and `do_trace` know the event handler only as a function.  The loop is
the same for all of them: it hands one sample after the other to the handler,
and what the handler returns decides when to stop.
-/

namespace Phpspy
namespace MainPid

section Loop

variable {σ : Type} (traceLimit : ℕ) (trace : σ → Sample → σ × Status)

/-- The body of the loop, for what the handler keeps and `trace_count`. -/
def turnWith (s : σ × ℕ) (sample : Sample) : (σ × ℕ) × Option Stop :=
  let (u, rv) := trace s.1 sample
  let timeUp := if sample.timeUp then some Stop.timeUp else none
  if rv.pidDead then ((u, s.2), some .pidDead)
  else if traceLimit > 0 ∧ countable rv = true then
    if s.2 + 1 ≥ traceLimit then ((u, s.2 + 1), some .limit)
    else ((u, s.2 + 1), timeUp)
  else ((u, s.2), timeUp)

def loopWith : σ × ℕ → List Sample → (σ × ℕ) × Option Stop
  | s, [] => (s, none)
  | s, sample :: samples =>
      if sample.done then (s, some .done)
      else
        match turnWith traceLimit trace s sample with
        | (s, some stop) => (s, some stop)
        | (s, none) => loopWith s samples

def takenWith : σ × ℕ → List Sample → List Sample
  | _, [] => []
  | s, sample :: samples =>
      if sample.done then []
      else
        sample ::
          match turnWith traceLimit trace s sample with
          | (_, some _) => []
          | (s, none) => takenWith s samples

variable {traceLimit trace}

theorem turnWith_fst (s : σ × ℕ) (sample : Sample) :
    (turnWith traceLimit trace s sample).1.1 = (trace s.1 sample).1 := by
  simp only [turnWith]
  split
  · rfl
  · split
    · split
      · rfl
      · rfl
    · rfl

theorem loopWith_fst (s : σ × ℕ) (samples : List Sample) :
    (loopWith traceLimit trace s samples).1.1 =
      (takenWith traceLimit trace s samples).foldl
        (fun u sample => (trace u sample).1) s.1 := by
  induction samples generalizing s with
  | nil => rfl
  | cons sample samples ih =>
      rw [loopWith, takenWith]
      split
      · rfl
      · have hfst := @turnWith_fst σ traceLimit trace s sample
        rw [List.foldl_cons, ← hfst]
        cases turnWith traceLimit trace s sample with
        | mk s' stop =>
            cases stop with
            | some stop => rfl
            | none => exact ih s'

theorem takenWith_isPrefix (s : σ × ℕ) (samples : List Sample) :
    takenWith traceLimit trace s samples <+: samples := by
  induction samples generalizing s with
  | nil => exact List.prefix_rfl
  | cons sample samples ih =>
      rw [takenWith]
      split
      · exact List.nil_prefix
      · rw [List.prefix_cons_inj]
        cases turnWith traceLimit trace s sample with
        | mk s' stop =>
            cases stop with
            | some stop => exact List.nil_prefix
            | none => exact ih s'

end Loop

/-! ## The fout handler -/

/-- `do_trace` with the fout handler. -/
def foutTrace (cfg : Config) (u : Fout.Udata × ℕ) (sample : Sample) :
    (Fout.Udata × ℕ) × Status :=
  let (s, rv) := doTrace cfg ⟨u.1, u.2, 0⟩ sample
  ((s.udata, s.nextTraceId), rv)

/-- The state of the loop with the fout handler. -/
def foutState (s : (Fout.Udata × ℕ) × ℕ) : State :=
  ⟨s.1.1, s.1.2, s.2⟩

theorem doTrace_foutState (cfg : Config) (s : (Fout.Udata × ℕ) × ℕ)
    (sample : Sample) :
    doTrace cfg (foutState s) sample =
      (foutState ((foutTrace cfg s.1 sample).1, s.2),
        (foutTrace cfg s.1 sample).2) := by
  simp only [foutTrace, foutState, doTrace, recorded]
  split
  · rfl
  · split
    · rfl
    · rfl

theorem turn_foutState (cfg : Config) (s : (Fout.Udata × ℕ) × ℕ)
    (sample : Sample) :
    turn cfg (foutState s) sample =
      (turnWith cfg.traceLimit (foutTrace cfg) s sample).map foutState id := by
  simp only [turn, turnWith, doTrace_foutState,
    apply_ite (Prod.map foutState id)]
  rfl

theorem samplingLoop_eq_loopWith (cfg : Config) (s : (Fout.Udata × ℕ) × ℕ)
    (samples : List Sample) :
    samplingLoop cfg (foutState s) samples =
      (loopWith cfg.traceLimit (foutTrace cfg) s samples).map
        foutState id := by
  induction samples generalizing s with
  | nil => rfl
  | cons sample samples ih =>
      rw [samplingLoop, loopWith]
      split
      · rfl
      · rw [turn_foutState]
        cases turnWith cfg.traceLimit (foutTrace cfg) s sample with
        | mk s' stop =>
            cases stop with
            | some stop => rfl
            | none => exact ih s'

end MainPid
end Phpspy

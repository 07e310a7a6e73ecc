import Phpspy.MainPid.Limit
import Phpspy.StackCollapse.RoundTrip

/-!
# What the script makes of a run of `main_pid`

A sample that is not aborted is a trace of the handler, an aborted one leaves
nothing in the output.  So the output of the loop is the output of one thread
that handles the traces of its complete samples, and the script counts their
stacks.
-/

namespace Phpspy
namespace MainPid

open ByteText Fout Reassembly StackCollapse

variable (cfg : Config)

def ended (sample : Sample) : Bool :=
  sample.readings.executorGlobals = Status.ok &&
    ((sample.readings.gathered cfg.trace).2 = Status.ok ||
      cfg.trace.continueOnError)

def Sample.trace (sample : Sample) : Fout.Trace :=
  { events := (sample.readings.gathered cfg.trace).1
    traceTs := sample.traceTs
    pid := cfg.pid
    isRecord := (sample.readings.gathered_isPhase cfg.trace).1 }

/-- What a turn sends to the output, as a message made of frame names. -/
def turnMessage (t : State × Sample) : Message Bytes :=
  if ended cfg t.2 then
    (t.2.trace cfg).message cfg.fout t.1.nextTraceId
  else .silent

def turnPayloads (t : State × Sample) : List Bytes :=
  if ended cfg t.2 then
    (t.2.trace cfg).payloads cfg.fout t.1.nextTraceId
  else []

/-! ## One turn -/

structure State.Ready (s : State) : Prop where
  prepared : s.udata.Prepared cfg.fout
  id_lt : s.nextTraceId < 2 ^ 64

section Turn

variable {cfg} {s : State} {sample : Sample}

theorem turn_nextTraceId :
    (turn cfg s sample).1.nextTraceId =
      (doTrace cfg s sample).1.nextTraceId := by
  simp only [turn]
  split
  · rfl
  · split
    · split
      · rfl
      · rfl
    · rfl

theorem doTrace_of_ended (h : ended cfg sample = true) :
    ((doTrace cfg s sample).1.udata, (doTrace cfg s sample).1.nextTraceId) =
      runEvents cfg.fout cfg.libc (s.udata, s.nextTraceId)
        (sample.trace cfg).handled := by
  obtain ⟨hglobals, hends⟩ := (Bool.and_eq_true _ _).mp h
  have hread : ¬ sample.readings.executorGlobals ≠ Status.ok :=
    not_not.mpr (of_decide_eq_true hglobals)
  have hend : (sample.readings.gathered cfg.trace).2 = Status.ok ∨
      cfg.trace.continueOnError = true :=
    ((Bool.or_eq_true _ _).mp hends).imp_left of_decide_eq_true
  have happend : (sample.trace cfg).handled =
      (.stackBegin :: (sample.readings.gathered cfg.trace).1) ++
        [.stackEnd sample.traceTs cfg.pid] :=
    rfl
  rw [happend, runEvents_append, doTrace, if_neg hread]
  simp only [if_pos hend]
  rfl

/-- An aborted sample leaves nothing behind that the next one could find. -/
theorem doTrace_of_aborted (hlibc : cfg.libc.Reliable) (hs : s.Ready cfg)
    (h : ended cfg sample = false) :
    (doTrace cfg s sample).1.udata.Prepared cfg.fout ∧
      (doTrace cfg s sample).1.udata.writes = s.udata.writes ∧
      (doTrace cfg s sample).1.nextTraceId = s.nextTraceId := by
  by_cases hglobals : sample.readings.executorGlobals = Status.ok
  · have hstop : ¬ ((sample.readings.gathered cfg.trace).2 = Status.ok ∨
        cfg.trace.continueOnError = true) := by
      intro hend
      rw [ended, decide_eq_true hglobals, Bool.true_and] at h
      rcases hend with hrv | hcontinue
      · rw [decide_eq_true hrv, Bool.true_or] at h
        cases h
      · rw [hcontinue, Bool.or_true] at h
        cases h
    have hrecord := (sample.readings.gathered_isPhase cfg.trace).1
    have hbegin := stackBegin_holds cfg.fout cfg.libc s.nextTraceId
      hs.prepared.valid
    have hholds := runEvents_holds hlibc cfg.fout hbegin (by simp)
      s.nextTraceId hrecord
    obtain ⟨houtput, hcounter⟩ := runEvents_output cfg.fout cfg.libc
      (Fout.eventHandler cfg.fout cfg.libc s.nextTraceId s.udata
        .stackBegin).1 s.nextTraceId hrecord
    have hdo : doTrace cfg s sample =
        ({ s with
            udata := (recorded cfg s sample).1
            nextTraceId := (recorded cfg s sample).2 },
          (sample.readings.gathered cfg.trace).2) := by
      rw [doTrace, if_neg (not_not.mpr hglobals)]
      simp only [if_neg hstop]
    rw [hdo]
    exact ⟨hs.prepared.of_output hholds.valid houtput,
      congrArg (fun o => o.2.2.2) houtput, hcounter⟩
  · rw [doTrace_of_globals_failed hglobals]
    exact ⟨hs.prepared, rfl, rfl⟩

theorem turn_payloads (hlibc : cfg.libc.Reliable) (hs : s.Ready cfg)
    (sample : Sample) :
    (turn cfg s sample).1.Ready cfg ∧
      (turn cfg s sample).1.udata.writes =
        s.udata.writes ++ turnPayloads cfg (s, sample) := by
  have hready : (doTrace cfg s sample).1.udata.Prepared cfg.fout ∧
      (doTrace cfg s sample).1.nextTraceId < 2 ^ 64 ∧
      (doTrace cfg s sample).1.udata.writes =
        s.udata.writes ++ turnPayloads cfg (s, sample) := by
    cases h : ended cfg sample with
    | true =>
        have hrun := doTrace_of_ended (s := s) h
        obtain ⟨hprepared, hwrites, hcounter⟩ :=
          runEvents_payloads hlibc hs.prepared hs.id_lt (sample.trace cfg)
        rw [← hrun] at hprepared hwrites hcounter
        refine ⟨hprepared, ?_, ?_⟩
        · change (doTrace cfg s sample).1.nextTraceId = _ at hcounter
          rw [hcounter]
          cases (sample.trace cfg).message cfg.fout s.nextTraceId with
          | silent => exact hs.id_lt
          | whole content => exact hs.id_lt
          | parts contents => exact Nat.mod_lt _ (by decide)
        · rw [turnPayloads, if_pos h]
          exact hwrites
    | false =>
        obtain ⟨hprepared, hwrites, hcounter⟩ :=
          doTrace_of_aborted hlibc hs h
        refine ⟨hprepared, hcounter ▸ hs.id_lt, ?_⟩
        rw [turnPayloads, h, hwrites]
        exact (List.append_nil _).symm
  obtain ⟨hprepared, hid, hwrites⟩ := hready
  refine ⟨⟨?_, ?_⟩, ?_⟩
  · rw [turn_udata]
    exact hprepared
  · rw [turn_nextTraceId]
    exact hid
  · rw [turn_udata]
    exact hwrites

end Turn

/-! ## The loop -/

section Loop

variable {cfg}

theorem samplingLoop_payloads (hlibc : cfg.libc.Reliable) {s : State}
    (hs : s.Ready cfg) (samples : List Sample) :
    (samplingLoop cfg s samples).1.udata.writes =
      s.udata.writes ++ (turns cfg s samples).flatMap (turnPayloads cfg) := by
  induction samples generalizing s with
  | nil => exact (List.append_nil _).symm
  | cons sample samples ih =>
      by_cases hdone : sample.done = true
      · rw [samplingLoop, turns, if_pos hdone, if_pos hdone]
        exact (List.append_nil _).symm
      · obtain ⟨hready, hwrites⟩ := turn_payloads hlibc hs sample
        cases hturn : turn cfg s sample with
        | mk s' stop =>
            rw [hturn] at hready hwrites
            cases stop with
            | some stop =>
                obtain ⟨hloop, hturns⟩ :=
                  samplingLoop_stop hdone samples hturn
                rw [hloop, hturns, List.flatMap_singleton]
                exact hwrites
            | none =>
                obtain ⟨hloop, hturns⟩ :=
                  samplingLoop_continue hdone samples hturn
                rw [hloop, hturns, ih hready, hwrites, List.flatMap_cons,
                  List.append_assoc]

theorem turns_subset {s : State} {samples : List Sample} {t : State × Sample}
    (ht : t ∈ turns cfg s samples) : t.2 ∈ samples := by
  induction samples generalizing s with
  | nil => cases ht
  | cons sample samples ih =>
      rw [turns] at ht
      split at ht
      · cases ht
      · rcases List.mem_cons.mp ht with rfl | ht
        · exact List.mem_cons_self
        · split at ht
          · cases ht
          · exact List.mem_cons_of_mem sample (ih ht)

theorem encodes_turns (enc : Encode) (hmode : cfg.fout.singleLine = false)
    (ts : List (State × Sample))
    (hplain : ∀ t ∈ ts, ended cfg t.2 = true →
      ∀ e ∈ (t.2.trace cfg).events, PlainEvent e) :
    List.Forall₂ (Encodes enc) (ts.flatMap (turnPayloads cfg))
      (ts.flatMap fun t => (turnMessage cfg t).packets t.1.nextTraceId) := by
  induction ts with
  | nil => exact List.Forall₂.nil
  | cons t ts ih =>
      have hhead : List.Forall₂ (Encodes enc) (turnPayloads cfg t)
          ((turnMessage cfg t).packets t.1.nextTraceId) := by
        rw [turnPayloads, turnMessage]
        split
        · next h =>
            exact encodes_payloads hmode (hplain t List.mem_cons_self h) enc _
        · exact List.Forall₂.nil
      rw [List.flatMap_cons, List.flatMap_cons]
      exact List.rel_append hhead
        (ih fun t' ht' => hplain t' (List.mem_cons_of_mem t ht'))

theorem receive_turns (ts : List (State × Sample)) {r : Receiver Bytes}
    (hr : ∀ id, r.parts id = []) :
    ((ts.flatMap fun t =>
      (turnMessage cfg t).packets t.1.nextTraceId).foldl
        Receiver.receive r).out =
      r.out ++ ts.flatMap fun t => (turnMessage cfg t).delivered := by
  induction ts generalizing r with
  | nil => exact (List.append_nil _).symm
  | cons t ts ih =>
      obtain ⟨hout, hparts⟩ :=
        receive_packets (turnMessage cfg t) t.1.nextTraceId hr
      rw [List.flatMap_cons, List.foldl_append, ih hparts, hout,
        List.flatMap_cons, List.append_assoc]

/-- The script counts what the turns of the loop deliver. -/
theorem collapse_samplingLoop (enc : Encode)
    (hmode : cfg.fout.singleLine = false) (hlibc : cfg.libc.Reliable)
    {u : Udata} (hinit : init cfg.fout cfg.libc = some u)
    (samples : List Sample)
    (hplain : ∀ sample ∈ samples, ended cfg sample = true →
      ∀ e ∈ (sample.trace cfg).events, PlainEvent e) :
    Counts
      (collapse enc
        (samplingLoop cfg (start u 0) samples).1.udata.writes.flatten)
      ((turns cfg (start u 0) samples).flatMap fun t =>
        (turnMessage cfg t).delivered) := by
  have hstart : (start u 0).Ready cfg :=
    ⟨init_prepared cfg.bufferSize_pos hinit, Nat.two_pow_pos 64⟩
  have hnone : u.writes = [] := by
    obtain ⟨-, rfl⟩ := init_eq hinit
    rfl
  have hcounts := collapse_counts (encodes_turns enc hmode
    (turns cfg (start u 0) samples)
    fun t ht => hplain t.2 (turns_subset ht))
  rw [receive_turns _ fun _ => rfl] at hcounts
  rw [samplingLoop_payloads hlibc hstart, start, hnone, List.nil_append]
  exact hcounts

end Loop

end MainPid
end Phpspy

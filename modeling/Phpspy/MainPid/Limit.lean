import Phpspy.MainPid.Loop

/-!
# What the trace limit counts

`main_pid` counts a turn by the status that `do_trace` returns.  A turn that
writes a trace has a status that counts.  So has a turn that ends an empty
stack: it writes nothing and returns `PHPSPY_OK`.
-/

namespace Phpspy
namespace MainPid

open ByteText

/-! ## One turn -/

/-- The three ways in which a turn can end, by the handler's data and the
status that `do_trace` leaves. -/
inductive TurnResult (cfg : Config) (s : State) (sample : Sample) : Prop
  | failed (same : (doTrace cfg s sample).1.udata.writes = s.udata.writes)
      (status : countable (doTrace cfg s sample).2 = false)
      (full : endsEmpty cfg (s, sample) = false)
  | empty (same : (doTrace cfg s sample).1.udata.writes = s.udata.writes)
      (status : (doTrace cfg s sample).2 = Status.ok)
      (empty : endsEmpty cfg (s, sample) = true)
  | written (more : s.udata.writes.length <
        (doTrace cfg s sample).1.udata.writes.length)
      (status : (doTrace cfg s sample).2 = Status.ok ∨
        (doTrace cfg s sample).2 = Status.errTruncated)
      (full : endsEmpty cfg (s, sample) = false)

theorem countable_of_fromRead {rv : Status} (hread : rv.FromRead)
    (hne : rv ≠ Status.ok) : countable rv = false := by
  have htruncated : rv ≠ Status.errTruncated := by
    intro h
    rw [h] at hread
    exact absurd hread.1 Bool.noConfusion
  simp only [countable, hne, htruncated, decide_false, Bool.or_self]

theorem countable_pidDead {rv : Status} (h : countable rv = true) :
    rv.pidDead = false := by
  rcases (Bool.or_eq_true _ _).mp h with hok | htruncated
  · rw [of_decide_eq_true hok]
    rfl
  · rw [of_decide_eq_true htruncated]
    rfl

theorem recorded_writes (cfg : Config) (s : State) (sample : Sample) :
    (recorded cfg s sample).1.writes = s.udata.writes := by
  have hrun := Fout.runEvents_output cfg.fout cfg.libc
    (Fout.eventHandler cfg.fout cfg.libc s.nextTraceId s.udata
      .stackBegin).1 s.nextTraceId
    (sample.readings.gathered_isPhase cfg.trace).1
  exact congrArg (fun o => o.2.2.2) hrun.1

theorem stackEnd_writes (cfg : Config) (u : Fout.Udata) (n : ℕ)
    (traceTs : Bytes) (hwritev : ∀ call, cfg.libc.writevOk call = true)
    (hlen : u.len ≠ 0) (hkept : Fout.filteredOut cfg.fout u = false) :
    let ended := Fout.eventHandler cfg.fout cfg.libc n u
      (.stackEnd traceTs cfg.pid)
    u.writes.length < ended.1.writes.length ∧
      (ended.2.1 = Status.ok ∨ ended.2.1 = Status.errTruncated) := by
  simp only [Fout.eventHandler, hlen, if_false, hkept]
  have hput := Fout.putRecords_output cfg.fout cfg.libc u
    (Fout.verboseTexts cfg.fout traceTs cfg.pid)
  generalize Fout.putRecords cfg.fout cfg.libc u
    (Fout.verboseTexts cfg.fout traceTs cfg.pid) = v at hput
  have hsame : v.writes = u.writes := congrArg (fun o => o.2.2.2) hput
  have hmore := Fout.write_writes cfg.bufferSize_pos cfg.libc n v
  rw [hsame] at hmore
  exact ⟨hmore, Fout.write_status hwritev cfg.fout n v⟩

section DoTrace

variable {cfg : Config} {s : State} {sample : Sample}

theorem doTrace_of_globals_failed
    (hglobals : sample.readings.executorGlobals ≠ Status.ok) :
    doTrace cfg s sample = (s, sample.readings.executorGlobals) := by
  rw [doTrace, if_pos hglobals]

theorem doTrace_of_read_failed
    (hcontinue : cfg.trace.continueOnError = false)
    (hglobals : sample.readings.executorGlobals = Status.ok)
    (hrv : (sample.readings.gathered cfg.trace).2 ≠ Status.ok) :
    doTrace cfg s sample =
      ({ s with
          udata := (recorded cfg s sample).1
          nextTraceId := (recorded cfg s sample).2 },
        (sample.readings.gathered cfg.trace).2) := by
  simp only [doTrace, hglobals, ne_eq, not_true, if_false, hrv, hcontinue,
    Bool.false_eq_true, or_self]

theorem doTrace_of_read
    (hglobals : sample.readings.executorGlobals = Status.ok)
    (hrv : (sample.readings.gathered cfg.trace).2 = Status.ok)
    {ended : Fout.Udata × Status × ℕ}
    (hended : Fout.eventHandler cfg.fout cfg.libc (recorded cfg s sample).2
      (recorded cfg s sample).1 (.stackEnd sample.traceTs cfg.pid) = ended) :
    doTrace cfg s sample =
      ({ s with udata := ended.1, nextTraceId := ended.2.2 }, ended.2.1) := by
  rw [← hended]
  simp only [doTrace, hglobals, ne_eq, not_true, if_false, hrv, true_or,
    if_true]

end DoTrace

/-- Without `-c`, a turn fails, ends an empty stack or writes its trace. -/
theorem doTrace_result (cfg : Config)
    (hcontinue : cfg.trace.continueOnError = false)
    (hwritev : ∀ call, cfg.libc.writevOk call = true)
    (s : State) (sample : Sample) : TurnResult cfg s sample := by
  have hphase := sample.readings.gathered_isPhase cfg.trace
  have hrecorded := recorded_writes cfg s sample
  by_cases hglobals : sample.readings.executorGlobals = Status.ok
  case neg =>
    have hdo := @doTrace_of_globals_failed cfg s sample hglobals
    refine .failed (by rw [hdo]) ?_ ?_
    · rw [hdo]
      exact countable_of_fromRead sample.readings.globalsFromRead hglobals
    · simp only [endsEmpty, readsAll, hglobals, decide_false,
        Bool.false_and]
  by_cases hrv : (sample.readings.gathered cfg.trace).2 = Status.ok
  case neg =>
    have hdo := @doTrace_of_read_failed cfg s sample hcontinue hglobals hrv
    refine .failed (by rw [hdo]; exact hrecorded) ?_ ?_
    · rw [hdo]
      exact countable_of_fromRead hphase.2 hrv
    · simp only [endsEmpty, readsAll, hrv, decide_false, Bool.and_false,
        Bool.false_and]
  have hends : endsEmpty cfg (s, sample) =
      decide ((recorded cfg s sample).1.len = 0) := by
    simp only [endsEmpty, readsAll, hglobals, hrv, decide_true,
      Bool.true_and]
  by_cases hlen : (recorded cfg s sample).1.len = 0
  · have hended := doTrace_of_read hglobals hrv (if_pos hlen)
    refine .empty (by rw [hended]; exact hrecorded) (by rw [hended]) ?_
    rw [hends, decide_eq_true hlen]
  · have hfull : endsEmpty cfg (s, sample) = false := by
      rw [hends, decide_eq_false hlen]
    by_cases hfilter :
        Fout.filteredOut cfg.fout (recorded cfg s sample).1 = true
    · have hended := doTrace_of_read hglobals hrv
        ((if_neg hlen).trans (if_pos hfilter))
      refine .failed (by rw [hended]; exact hrecorded) ?_ hfull
      rw [hended]
      rfl
    · have hwrites := stackEnd_writes cfg _ (recorded cfg s sample).2
        sample.traceTs hwritev hlen (Bool.eq_false_of_not_eq_true hfilter)
      have hended := @doTrace_of_read cfg s sample hglobals hrv _ rfl
      refine .written ?_ ?_ hfull
      · rw [hended, ← hrecorded]
        exact hwrites.1
      · rw [hended]
        exact hwrites.2

theorem turn_udata (cfg : Config) (s : State) (sample : Sample) :
    (turn cfg s sample).1.udata = (doTrace cfg s sample).1.udata := by
  simp only [turn]
  split
  · rfl
  · split
    · split
      · rfl
      · rfl
    · rfl

theorem doTrace_traceCount (cfg : Config) (s : State) (sample : Sample) :
    (doTrace cfg s sample).1.traceCount = s.traceCount := by
  simp only [doTrace]
  split
  · rfl
  · split
    · rfl
    · rfl

theorem turn_counts (cfg : Config) (hlimit : 0 < cfg.traceLimit) {s : State}
    (hs : s.traceCount < cfg.traceLimit) (sample : Sample) :
    (turn cfg s sample).1.traceCount =
        s.traceCount +
          (if countable (doTrace cfg s sample).2 = true then 1 else 0) ∧
      (turn cfg s sample).1.traceCount ≤ cfg.traceLimit ∧
      ((turn cfg s sample).2 = some .limit ↔
        (turn cfg s sample).1.traceCount = cfg.traceLimit) := by
  have hcount := doTrace_traceCount cfg s sample
  have htimeUp : (if sample.timeUp then some Stop.timeUp else none) ≠
      some .limit := by
    split
    · exact fun h => absurd (Option.some.inj h) Stop.noConfusion
    · exact fun h => absurd h.symm (Option.some_ne_none _)
  by_cases hcountable : countable (doTrace cfg s sample).2 = true
  · have halive := countable_pidDead hcountable
    by_cases hreached : s.traceCount + 1 ≥ cfg.traceLimit
    · have heq : s.traceCount + 1 = cfg.traceLimit := le_antisymm hs hreached
      simp only [turn, halive, Bool.false_eq_true, if_false, hlimit,
        hcountable, and_self, if_true, hcount, hreached]
      exact ⟨trivial, heq.le, iff_of_true trivial heq⟩
    · simp only [turn, halive, Bool.false_eq_true, if_false, hlimit,
        hcountable, and_self, if_true, hcount, hreached]
      exact ⟨trivial, hs, iff_of_false htimeUp fun h => hreached h.ge⟩
  · have hnot := Bool.eq_false_of_not_eq_true hcountable
    by_cases hdead : (doTrace cfg s sample).2.pidDead = true
    · simp only [turn, hdead, if_true, hcount, hnot, Bool.false_eq_true,
        if_false, Nat.add_zero]
      exact ⟨trivial, hs.le,
        iff_of_false (fun h => absurd (Option.some.inj h) Stop.noConfusion)
          hs.ne⟩
    · simp only [turn, hdead, Bool.false_eq_true, if_false, hnot, and_false,
        hcount, Nat.add_zero]
      exact ⟨trivial, hs.le, iff_of_false htimeUp hs.ne⟩

theorem isCounted_eq (cfg : Config) (hlimit : 0 < cfg.traceLimit) {s : State}
    (hs : s.traceCount < cfg.traceLimit) (sample : Sample) :
    isCounted cfg (s, sample) = countable (doTrace cfg s sample).2 := by
  simp only [isCounted, (turn_counts cfg hlimit hs sample).1]
  cases countable (doTrace cfg s sample).2 with
  | false => exact decide_eq_false (lt_irrefl _)
  | true => exact decide_eq_true (Nat.lt_succ_self _)

/-- A turn is counted as it should be, unless it ends an empty stack. -/
theorem isCounted_eq_isWritten_iff (cfg : Config)
    (hlimit : 0 < cfg.traceLimit)
    (hcontinue : cfg.trace.continueOnError = false)
    (hwritev : ∀ call, cfg.libc.writevOk call = true) {s : State}
    (hs : s.traceCount < cfg.traceLimit) (sample : Sample) :
    isCounted cfg (s, sample) = isWritten cfg (s, sample) ↔
      endsEmpty cfg (s, sample) = false := by
  rw [isCounted_eq cfg hlimit hs, isWritten, turn_udata]
  rcases doTrace_result cfg hcontinue hwritev s sample with
    ⟨hsame, hstatus, hfull⟩ | ⟨hsame, hstatus, hempty⟩ |
      ⟨hmore, hstatus, hfull⟩
  · rw [hsame, hstatus, hfull]
    exact iff_of_true (decide_eq_false (lt_irrefl _)).symm rfl
  · rw [hsame, hstatus, hempty, decide_eq_false (lt_irrefl _)]
    decide
  · have hcountable : countable (doTrace cfg s sample).2 = true := by
      rcases hstatus with hok | htruncated
      · rw [hok]
        rfl
      · rw [htruncated]
        rfl
    rw [hcountable, hfull, decide_eq_true hmore]
    decide

/-! ## The loop -/

/-- What holds at the start of a run, and again after each turn that does not
end it, holds at the start of every turn. -/
theorem turns_invariant {cfg : Config} {inv : State → Prop}
    (hstep : ∀ s sample s', inv s → turn cfg s sample = (s', none) → inv s')
    {s : State} (hs : inv s) (samples : List Sample) :
    ∀ t ∈ turns cfg s samples, inv t.1 := by
  induction samples generalizing s with
  | nil => exact fun t ht => absurd ht List.not_mem_nil
  | cons sample samples ih =>
      intro t ht
      rw [turns] at ht
      split at ht
      · exact absurd ht List.not_mem_nil
      · rcases List.mem_cons.mp ht with rfl | hrest
        · exact hs
        · split at hrest
          · exact absurd hrest List.not_mem_nil
          · next s' hturn => exact ih (hstep s sample s' hs hturn) t hrest

theorem turn_below {cfg : Config} (hlimit : 0 < cfg.traceLimit)
    {s s' : State} {sample : Sample} (hs : s.traceCount < cfg.traceLimit)
    (hturn : turn cfg s sample = (s', none)) :
    s'.traceCount < cfg.traceLimit := by
  obtain ⟨-, hle, hstop⟩ := turn_counts cfg hlimit hs sample
  rw [hturn] at hle hstop
  exact lt_of_le_of_ne hle fun h =>
    absurd (hstop.mpr h).symm (Option.some_ne_none _)

theorem turns_below (cfg : Config) (hlimit : 0 < cfg.traceLimit) {s : State}
    (hs : s.traceCount < cfg.traceLimit) (samples : List Sample) :
    ∀ t ∈ turns cfg s samples, t.1.traceCount < cfg.traceLimit := by
  have hstep : ∀ s sample s', s.traceCount < cfg.traceLimit →
      turn cfg s sample = (s', none) → s'.traceCount < cfg.traceLimit :=
    fun _ _ _ h hturn => turn_below hlimit h hturn
  exact turns_invariant hstep hs samples

/-- The trace limit counts the traces that are written, and ends the loop with
the last of them. -/
structure CountsWritten (cfg : Config) (s : State) (samples : List Sample) :
    Prop where
  isCounted_iff : ∀ t ∈ turns cfg s samples,
    isCounted cfg t = isWritten cfg t
  traceCount_eq : (samplingLoop cfg s samples).1.traceCount =
    s.traceCount + writtenTraces cfg s samples
  traceCount_le : (samplingLoop cfg s samples).1.traceCount ≤ cfg.traceLimit
  stop_iff : (samplingLoop cfg s samples).2 = some .limit ↔
    (samplingLoop cfg s samples).1.traceCount = cfg.traceLimit
  last_isWritten : (samplingLoop cfg s samples).2 = some .limit →
    ∃ t, (turns cfg s samples).getLast? = some t ∧ isWritten cfg t = true

section Cons

variable {cfg : Config} {s s' : State} {sample : Sample}
  (hdone : ¬ sample.done = true) (samples : List Sample)

include hdone

theorem samplingLoop_stop {stop : Stop}
    (hturn : turn cfg s sample = (s', some stop)) :
    samplingLoop cfg s (sample :: samples) = (s', some stop) ∧
      turns cfg s (sample :: samples) = [(s, sample)] := by
  simp only [samplingLoop, turns, hdone, hturn]
  exact ⟨rfl, rfl⟩

theorem samplingLoop_continue (hturn : turn cfg s sample = (s', none)) :
    samplingLoop cfg s (sample :: samples) = samplingLoop cfg s' samples ∧
      turns cfg s (sample :: samples) =
        (s, sample) :: turns cfg s' samples := by
  simp only [samplingLoop, turns, hdone, hturn]
  exact ⟨rfl, rfl⟩

end Cons

namespace CountsWritten

variable {cfg : Config} {s s' : State} {sample : Sample}
  {samples : List Sample}

theorem of_done (hs : s.traceCount < cfg.traceLimit)
    (hdone : sample.done = true) : CountsWritten cfg s (sample :: samples) := by
  have hloop : samplingLoop cfg s (sample :: samples) = (s, some .done) :=
    if_pos hdone
  have hturns : turns cfg s (sample :: samples) = [] := if_pos hdone
  refine ⟨?_, ?_, ?_, ?_, ?_⟩
  · rw [hturns]
    exact fun t ht => absurd ht List.not_mem_nil
  · rw [hloop, writtenTraces, hturns]
    rfl
  · rw [hloop]
    exact hs.le
  · rw [hloop]
    exact iff_of_false (fun h => nomatch h) hs.ne
  · rw [hloop]
    exact fun h => nomatch h

theorem of_stop (hlimit : 0 < cfg.traceLimit)
    (hs : s.traceCount < cfg.traceLimit) (hdone : ¬ sample.done = true)
    {stop : Stop} (hturn : turn cfg s sample = (s', some stop))
    (hfirst : isCounted cfg (s, sample) = isWritten cfg (s, sample)) :
    CountsWritten cfg s (sample :: samples) := by
  obtain ⟨hloop, hlist⟩ := samplingLoop_stop hdone samples hturn
  obtain ⟨hcount, hle, hstop⟩ := turn_counts cfg hlimit hs sample
  rw [← isCounted_eq cfg hlimit hs sample, hfirst] at hcount
  rw [hturn] at hcount hle hstop
  refine ⟨?_, ?_, ?_, ?_, ?_⟩
  · rw [hlist]
    exact fun t ht => List.mem_singleton.mp ht ▸ hfirst
  · rw [hloop, hcount, writtenTraces, hlist, List.countP_cons,
      List.countP_nil, Nat.zero_add]
  · rw [hloop]
    exact hle
  · rw [hloop]
    exact hstop
  · rw [hloop, hlist]
    intro hlimited
    refine ⟨(s, sample), rfl, ?_⟩
    by_contra hnot
    rw [hstop.mp hlimited, Bool.eq_false_of_not_eq_true hnot] at hcount
    exact hs.ne hcount.symm

theorem of_continue (hlimit : 0 < cfg.traceLimit)
    (hs : s.traceCount < cfg.traceLimit) (hdone : ¬ sample.done = true)
    (hturn : turn cfg s sample = (s', none))
    (hfirst : isCounted cfg (s, sample) = isWritten cfg (s, sample))
    (hrun : CountsWritten cfg s' samples) :
    CountsWritten cfg s (sample :: samples) := by
  obtain ⟨hloop, hlist⟩ := samplingLoop_continue hdone samples hturn
  have hcount := (turn_counts cfg hlimit hs sample).1
  rw [← isCounted_eq cfg hlimit hs sample, hfirst, hturn] at hcount
  refine ⟨?_, ?_, ?_, ?_, ?_⟩
  · rw [hlist]
    exact List.forall_mem_cons.mpr ⟨hfirst, hrun.isCounted_iff⟩
  · rw [hloop, hrun.traceCount_eq, hcount, writtenTraces, writtenTraces,
      hlist, List.countP_cons, Nat.add_assoc, Nat.add_comm (ite _ _ _)]
  · rw [hloop]
    exact hrun.traceCount_le
  · rw [hloop]
    exact hrun.stop_iff
  · rw [hloop, hlist]
    intro hlimited
    obtain ⟨t, hlast, ht⟩ := hrun.last_isWritten hlimited
    exact ⟨t, by rw [List.getLast?_cons, hlast]; rfl, ht⟩

end CountsWritten

theorem CountsWritten.of_turns (cfg : Config) (hlimit : 0 < cfg.traceLimit)
    {s : State} (hs : s.traceCount < cfg.traceLimit) {samples : List Sample}
    (hturns : ∀ t ∈ turns cfg s samples,
      isCounted cfg t = isWritten cfg t) :
    CountsWritten cfg s samples := by
  induction samples generalizing s with
  | nil =>
      exact ⟨hturns, rfl, hs.le, iff_of_false (fun h => nomatch h) hs.ne,
        fun h => nomatch h⟩
  | cons sample samples ih =>
      by_cases hdone : sample.done = true
      · exact .of_done hs hdone
      rcases hturn : turn cfg s sample with ⟨s', _ | stop⟩
      · obtain ⟨-, hlist⟩ := samplingLoop_continue hdone samples hturn
        rw [hlist] at hturns
        obtain ⟨hfirst, hrest⟩ := List.forall_mem_cons.mp hturns
        exact .of_continue hlimit hs hdone hturn hfirst
          (ih (turn_below hlimit hs hturn) hrest)
      · obtain ⟨-, hlist⟩ := samplingLoop_stop hdone samples hturn
        have hfirst := hturns (s, sample) (by
          rw [hlist]
          exact List.mem_singleton_self _)
        exact .of_stop hlimit hs hdone hturn hfirst

/-! ## Turns without a record -/

section Reliable

variable {cfg : Config} (hlibc : cfg.libc.Reliable)

include hlibc

theorem doTrace_valid {s : State} (hs : s.udata.Valid) (sample : Sample) :
    (doTrace cfg s sample).1.udata.Valid := by
  have hrecorded := (Fout.runEvents_sound hlibc cfg.fout
    (s.udata, s.nextTraceId) hs
    (.stackBegin :: (sample.readings.gathered cfg.trace).1)).1
  simp only [doTrace]
  split
  · exact hs
  · split
    · exact (Fout.eventHandler_sound hlibc cfg.fout _ hrecorded _).1
    · exact hrecorded

theorem turns_valid {s : State} (hs : s.udata.Valid)
    (samples : List Sample) :
    ∀ t ∈ turns cfg s samples, t.1.udata.Valid := by
  have hstep : ∀ s sample s', s.udata.Valid →
      turn cfg s sample = (s', none) → s'.udata.Valid := by
    intro s sample s' h hturn
    have hnext := doTrace_valid hlibc h sample
    rwa [← turn_udata, hturn] at hnext
  exact turns_invariant hstep hs samples

/-- If formatting and allocating work, a turn ends empty exactly if its sample
has no record, or a first one that is too long for the buffer. -/
theorem endsEmpty_iff_kept {t : State × Sample} (ht : t.1.udata.Valid) :
    endsEmpty cfg t = true ↔
      readsAll cfg t.2 = true ∧
        Fout.kept (Fout.records cfg.fout
          (t.2.readings.gathered cfg.trace).1) = [] := by
  have hbegin := Fout.stackBegin_holds cfg.fout cfg.libc t.1.nextTraceId ht
  have hholds : (recorded cfg t.1 t.2).1.Holds (Fout.records cfg.fout
      (t.2.readings.gathered cfg.trace).1) :=
    Fout.runEvents_holds hlibc cfg.fout hbegin (by simp) t.1.nextTraceId
      (t.2.readings.gathered_isPhase cfg.trace).1
  rw [endsEmpty, Bool.and_eq_true, decide_eq_true_iff, hholds.len_eq]
  refine and_congr_right fun _ => ⟨fun hlen => ?_, fun hkept => ?_⟩
  · by_contra hne
    have hdelimited : ∀ r ∈ Fout.kept (Fout.records cfg.fout
        (t.2.readings.gathered cfg.trace).1),
        Delimited cfg.fout.frameDelim r :=
      fun r hr => Fout.map_record_delimited cfg.fout _ r
        (List.mem_of_mem_take hr)
    obtain ⟨front, hfront⟩ := flatten_eq_append_delim hdelimited hne
    rw [hfront, List.length_append] at hlen
    exact absurd hlen (Nat.succ_ne_zero _)
  · rw [hkept]
    rfl

end Reliable

/-! ## Settling the count -/

def start (u : Fout.Udata) (nextTraceId : ℕ) : State where
  udata := u
  nextTraceId := nextTraceId
  traceCount := 0

/-- Without `-c` and with a working output, the trace limit counts the traces
that are written, unless some turn ends empty.  If formatting and allocating
work as well, those are the turns with no record for the buffer to hold. -/
theorem samplingLoop_countsWritten_iff (cfg : Config)
    (hlimit : 0 < cfg.traceLimit)
    (hcontinue : cfg.trace.continueOnError = false)
    (hwritev : ∀ call, cfg.libc.writevOk call = true)
    (u : Fout.Udata) (nextTraceId : ℕ) (samples : List Sample) :
    (CountsWritten cfg (start u nextTraceId) samples ↔
      ∀ t ∈ turns cfg (start u nextTraceId) samples,
        endsEmpty cfg t = false) ∧
      (cfg.libc.Reliable → u.Valid →
        ∀ t ∈ turns cfg (start u nextTraceId) samples,
          (endsEmpty cfg t = true ↔
            readsAll cfg t.2 = true ∧
              Fout.kept (Fout.records cfg.fout
                (t.2.readings.gathered cfg.trace).1) = [])) := by
  have hbelow : ∀ t ∈ turns cfg (start u nextTraceId) samples,
      t.1.traceCount < cfg.traceLimit :=
    turns_below cfg hlimit hlimit samples
  have hturn : ∀ t ∈ turns cfg (start u nextTraceId) samples,
      (isCounted cfg t = isWritten cfg t ↔ endsEmpty cfg t = false) :=
    fun t ht => isCounted_eq_isWritten_iff cfg hlimit hcontinue hwritev
      (hbelow t ht) t.2
  refine ⟨⟨fun hcounts t ht => ?_, fun hfull => ?_⟩, fun hlibc hu t ht => ?_⟩
  · exact (hturn t ht).mp (hcounts.isCounted_iff t ht)
  · exact CountsWritten.of_turns cfg hlimit hlimit fun t ht =>
      (hturn t ht).mpr (hfull t ht)
  · exact endsEmpty_iff_kept hlibc (turns_valid hlibc hu samples t ht)

/-! ## An idle process -/

def oneTrace : Config where
  fout :=
    { singleLine := false
      foutBufferSize := 64
      filterRe := none
      filterNegate := false
      verboseFieldsTs := false
      verboseFieldsPid := false }
  bufferSize_pos := by decide
  trace :=
    { captureReq := false
      captureMem := false
      glopeeking := false
      continueOnError := false }
  libc := Fout.workingLibc
  pid := 7
  traceLimit := 1

def nothing : Phase where
  events := []
  status := Status.ok
  isPhase := IsPhase.nil Status.FromRead.ok

/-- A sample of a process whose `current_execute_data` is given. -/
def sampleOf (currentExecuteData : ℕ) : Sample where
  done := false
  readings :=
    { executorGlobals := Status.ok
      globalsFromRead := Status.FromRead.ok
      stack := stackPhase oneFromEachEnd threeFrames .v83 noPeeks
        currentExecuteData
      depth := (traceStack oneFromEachEnd threeFrames .v83 noPeeks
        currentExecuteData).depth
      requestInfo := nothing
      memoryInfo := nothing
      globals := nothing }
  traceTs := []
  timeUp := false

def idle : Sample := sampleOf 0

def busy : Sample := sampleOf 1536

theorem samplingLoop_countsWritten_busy :
    ∃ u, Fout.init oneTrace.fout oneTrace.libc = some u ∧
      (turns oneTrace (start u 0) [busy]).length = 1 ∧
      CountsWritten oneTrace (start u 0) [busy] := by
  refine ⟨_, rfl, by decide, ?_⟩
  refine (samplingLoop_countsWritten_iff oneTrace (by decide) rfl
    (fun _ => rfl) _ 0 [busy]).1.mpr fun t ht => ?_
  rw [List.mem_singleton.mp ht]
  decide

/-- The limit of one trace ends the loop in the first turn, before a trace is
written. -/
theorem idle_uses_up_limit :
    ∃ u, Fout.init oneTrace.fout oneTrace.libc = some u ∧
      (samplingLoop oneTrace (start u 0) [idle, busy]).2 = some .limit ∧
      (samplingLoop oneTrace (start u 0) [idle, busy]).1.traceCount = 1 ∧
      (samplingLoop oneTrace (start u 0) [idle, busy]).1.udata.writes = [] ∧
      ¬ CountsWritten oneTrace (start u 0) [idle, busy] := by
  refine ⟨_, rfl, by decide, by decide, by decide, fun h => ?_⟩
  exact absurd h.traceCount_eq (by decide)

end MainPid
end Phpspy

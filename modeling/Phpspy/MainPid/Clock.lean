import Mathlib.Data.List.Chain
import Phpspy.MainPid.Limit

/-!
# Sampling at a rate, up to a time

`main_pid` reads the clock before and after each trace, sleeps for the rest of
the interval, and leaves the loop at the first turn that starts after the time
limit.  Times are pairs of seconds and nanoseconds.  Their arithmetic is that of
nanoseconds, and from it follow the distance of turns and the number of turns
within the limit.
-/

namespace Phpspy
namespace MainPid

open ByteText

/-! ## Times -/

/-- `struct timespec` -/
structure Timespec where
  sec : ℤ
  nsec : ℤ
deriving DecidableEq, Repr

namespace Timespec

def ns (t : Timespec) : ℤ :=
  t.sec * 1000000000 + t.nsec

/-- What a clock shows: less than a second of nanoseconds, and no more
nanoseconds in all than a `long` has room for. -/
structure IsNormal (t : Timespec) : Prop where
  sec_nonneg : 0 ≤ t.sec
  nsec_nonneg : 0 ≤ t.nsec
  nsec_lt : t.nsec < 1000000000
  ns_lt : t.ns < 2 ^ 63

end Timespec

/-- `clock_get`, with the result of `clock_gettime` if it succeeds. -/
def clockGet (reading : Option Timespec) : Timespec :=
  reading.getD ⟨0, 0⟩

/-- `clock_add` -/
def clockAdd (a b : Timespec) : Timespec :=
  let sec := a.sec + b.sec
  let nsec := a.nsec + b.nsec
  if nsec ≥ 1000000000 then
    ⟨sec + nsec / 1000000000, nsec % 1000000000⟩
  else ⟨sec, nsec⟩

/-- `clock_diff` -/
def clockDiff (a b : Timespec) : ℤ :=
  if a.sec = b.sec then
    if a.nsec = b.nsec then 0
    else if a.nsec > b.nsec then 1 else -1
  else if a.sec > b.sec then 1 else -1

/-- The nanoseconds of a time as they are computed: in `unsigned long`, and then
converted to `long`. -/
def unsignedNs (t : Timespec) : ℤ :=
  ((t.sec * 1000000000) % 2 ^ 64 + t.nsec) % 2 ^ 64 |>.bmod (2 ^ 64)

/-- `calc_sleep_time`, for an interval of `optSleepNs`. -/
def calcSleepTime (optSleepNs : ℤ) (finish start : Timespec) : Timespec :=
  let sleepNs :=
    if finish.sec = start.sec then optSleepNs - (finish.nsec - start.nsec)
    else optSleepNs - (unsignedNs finish - unsignedNs start)
  let sleepNs := if sleepNs < 0 then 0 else sleepNs
  if sleepNs < 1000000000 then ⟨0, sleepNs⟩
  else
    let sec := sleepNs / 1000000000
    ⟨sec, sleepNs - sec * 1000000000⟩

theorem clockAdd_ns (a b : Timespec) : (clockAdd a b).ns = a.ns + b.ns := by
  unfold clockAdd Timespec.ns
  dsimp only
  split
  · dsimp only
    omega
  · dsimp only
    omega

theorem one_le_clockDiff_iff {a b : Timespec} (ha : a.IsNormal)
    (hb : b.IsNormal) : 1 ≤ clockDiff a b ↔ b.ns < a.ns := by
  obtain ⟨-, ha₀, ha₁, -⟩ := ha
  obtain ⟨-, hb₀, hb₁, -⟩ := hb
  unfold clockDiff Timespec.ns
  split
  · split
    · omega
    · split
      · omega
      · omega
  · split
    · omega
    · omega

/-- As long as a `long` has room for it, the detour does no harm. -/
theorem unsignedNs_eq {t : Timespec} (h : t.IsNormal) :
    unsignedNs t = t.ns := by
  obtain ⟨hsec, hnsec, -, hlt⟩ := h
  have hns : 0 ≤ t.ns := by
    unfold Timespec.ns
    omega
  have hmod : ((t.sec * 1000000000) % 2 ^ 64 + t.nsec) % 2 ^ 64 = t.ns := by
    rw [Int.emod_add_emod, ← Timespec.ns]
    exact Int.emod_eq_of_lt hns (by omega)
  rw [unsignedNs, hmod]
  exact Int.bmod_eq_of_le (by omega) (by omega)

theorem calcSleepTime_ns (optSleepNs : ℤ) {finish start : Timespec}
    (hfinish : finish.IsNormal) (hstart : start.IsNormal) :
    (calcSleepTime optSleepNs finish start).ns =
      max 0 (optSleepNs - (finish.ns - start.ns)) := by
  have hleft : (if finish.sec = start.sec then
      optSleepNs - (finish.nsec - start.nsec)
        else optSleepNs - (unsignedNs finish - unsignedNs start)) =
      optSleepNs - (finish.ns - start.ns) := by
    rw [unsignedNs_eq hfinish, unsignedNs_eq hstart]
    unfold Timespec.ns
    split
    · omega
    · rfl
  have hsplit : ∀ n : ℤ, 0 ≤ n →
      Timespec.ns (if n < 1000000000 then ⟨0, n⟩
        else ⟨n / 1000000000, n - n / 1000000000 * 1000000000⟩) = n := by
    intro n _
    unfold Timespec.ns
    split
    · dsimp only
      omega
    · dsimp only
      omega
  unfold calcSleepTime
  rw [hleft]
  dsimp only
  rw [hsplit _ (by split <;> omega)]
  split
  · omega
  · omega

/-! ## The loop with a clock -/

/-- What one turn finds, with what the clock shows at its beginning and at its
end. -/
structure Reading where
  done : Bool
  readings : Readings
  traceTs : Bytes
  startClock : Option Timespec
  endClock : Option Timespec

/-- `start_time` -/
def Reading.startTime (r : Reading) : Timespec :=
  clockGet r.startClock

/-- `end_time` -/
def Reading.endTime (r : Reading) : Timespec :=
  clockGet r.endClock

/-- `stop_time`, when the loop is entered at some time. -/
def stopTime (timeLimitMs : ℤ) (now : Timespec) : Option Timespec :=
  if timeLimitMs > 0 then
    some (clockAdd now
      ⟨timeLimitMs / 1000, timeLimitMs % 1000 * 1000000⟩)
  else none

/-- The time limit is applied to the beginning of the turn. -/
def Reading.sample (stop : Option Timespec) (r : Reading) : Sample :=
  { done := r.done
    readings := r.readings
    traceTs := r.traceTs
    timeUp :=
      match stop with
      | none => false
      | some stop => clockDiff r.startTime stop ≥ 1 }

/-- The loop of `main_pid`, entered at some time. -/
def timedLoop (cfg : Config) (timeLimitMs : ℤ) (now : Timespec) (s : State)
    (readings : List Reading) : State × Option Stop :=
  samplingLoop cfg s
    (readings.map (Reading.sample (stopTime timeLimitMs now)))

def turnCount (cfg : Config) (timeLimitMs : ℤ) (now : Timespec) (s : State)
    (readings : List Reading) : ℕ :=
  (turns cfg s
    (readings.map (Reading.sample (stopTime timeLimitMs now)))).length

/-- The clock works and does not go back, and `nanosleep` is not interrupted. -/
structure Paced (optSleepNs : ℤ) (now : Timespec) (readings : List Reading) :
    Prop where
  normal : ∀ r ∈ readings, r.startTime.IsNormal ∧ r.endTime.IsNormal
  enters : ∀ r ∈ readings.head?, now.ns ≤ r.startTime.ns
  sleeps : readings.IsChain fun r r' =>
    r.endTime.ns + (calcSleepTime optSleepNs r.endTime r.startTime).ns ≤
      r'.startTime.ns

theorem isChain_add_span {d : ℤ} {times : List ℤ}
    (h : times.IsChain fun t t' => t + d ≤ t') {i j : ℕ} (hij : i ≤ j)
    (hj : j < times.length) :
    times[i] + (j - i : ℤ) * d ≤ times[j] := by
  induction j, hij using Nat.le_induction with
  | base => simp
  | succ j hij ih =>
      have hnext := List.isChain_iff_getElem.mp h j hj
      have hsofar := ih (by omega)
      push_cast
      linarith

theorem Paced.isChain {optSleepNs : ℤ} {now : Timespec}
    {readings : List Reading} (h : Paced optSleepNs now readings) :
    (readings.map fun r => r.startTime.ns).IsChain
      fun t t' => t + optSleepNs ≤ t' := by
  rw [List.isChain_map, List.isChain_iff_getElem]
  intro i hi
  have hsleeps := List.isChain_iff_getElem.mp h.sleeps i hi
  obtain ⟨hstart, hfinish⟩ := h.normal readings[i] (List.getElem_mem _)
  rw [calcSleepTime_ns optSleepNs hfinish hstart] at hsleeps
  omega

/-! ## The turns of the loop -/

theorem turn_stop_of_timeUp {cfg : Config} {s : State} {sample : Sample}
    (h : sample.timeUp = true) : (turn cfg s sample).2 ≠ none := by
  unfold turn
  rw [h]
  dsimp only
  split
  · simp
  · split
    · split <;> simp
    · simp

theorem turns_length_le (cfg : Config) (s : State) (samples : List Sample) :
    (turns cfg s samples).length ≤ samples.length := by
  induction samples generalizing s with
  | nil => exact le_rfl
  | cons sample samples ih =>
      rw [turns]
      split
      · exact Nat.zero_le _
      · split
        · simp
        · simpa using ih _

/-- Only the last turn can be one after which the time is up. -/
theorem timeUp_of_succ_lt_turns {cfg : Config} {s : State}
    {samples : List Sample} {i : ℕ}
    (hi : i + 1 < (turns cfg s samples).length) {sample : Sample}
    (hsample : samples[i]? = some sample) : sample.timeUp = false := by
  induction samples generalizing s i with
  | nil => cases hsample
  | cons first samples ih =>
      rw [turns] at hi
      split at hi
      · cases hi
      · split at hi
        · rw [List.length_singleton] at hi
          omega
        · next s' hturn =>
            cases i with
            | zero =>
                obtain rfl : first = sample := Option.some.inj hsample
                apply Bool.eq_false_of_not_eq_true
                intro hup
                exact turn_stop_of_timeUp hup (by rw [hturn])
            | succ i =>
                refine @ih s' i ?_ hsample
                rw [List.length_cons] at hi
                omega

theorem turns_of_samplingLoop_none {cfg : Config} {s : State}
    {samples : List Sample} (h : (samplingLoop cfg s samples).2 = none) :
    (turns cfg s samples).length = samples.length ∧
      ∀ sample ∈ samples, sample.timeUp = false := by
  induction samples generalizing s with
  | nil => exact ⟨rfl, fun _ h => absurd h List.not_mem_nil⟩
  | cons sample samples ih =>
      rw [samplingLoop] at h
      rw [turns]
      split at h
      · cases h
      · next hdone =>
          rw [if_neg hdone]
          split at h
          · cases h
          · next s' hturn =>
              obtain ⟨hlength, hup⟩ := ih h
              refine ⟨congrArg (· + 1) hlength, ?_⟩
              rw [List.forall_mem_cons]
              refine ⟨?_, hup⟩
              apply Bool.eq_false_of_not_eq_true
              intro hsample
              exact turn_stop_of_timeUp hsample (by rw [hturn])

/-! ## The time limit -/

section Limit

variable {timeLimitMs : ℤ} {now : Timespec}

theorem stopTime_eq (hlimit : 0 < timeLimitMs) (hnow : now.IsNormal)
    (hroom : now.ns + timeLimitMs * 1000000 < 2 ^ 63) :
    ∃ stop, stopTime timeLimitMs now = some stop ∧ stop.IsNormal ∧
      stop.ns = now.ns + timeLimitMs * 1000000 := by
  obtain ⟨hsec, hnsec, hlt, -⟩ := hnow
  have hns : (clockAdd now
      ⟨timeLimitMs / 1000, timeLimitMs % 1000 * 1000000⟩).ns =
        now.ns + timeLimitMs * 1000000 := by
    rw [clockAdd_ns]
    simp only [Timespec.ns]
    omega
  refine ⟨_, if_pos hlimit, ⟨?_, ?_, ?_, ?_⟩, hns⟩
  · unfold clockAdd
    dsimp only
    split
    · dsimp only
      omega
    · dsimp only
      omega
  · unfold clockAdd
    dsimp only
    split
    · dsimp only
      omega
    · dsimp only
      omega
  · unfold clockAdd
    dsimp only
    split
    · dsimp only
      omega
    · dsimp only
      omega
  · rw [hns]
    exact hroom

theorem startTime_le_of_timeUp (hlimit : 0 < timeLimitMs)
    (hnow : now.IsNormal) (hroom : now.ns + timeLimitMs * 1000000 < 2 ^ 63)
    {r : Reading} (hr : r.startTime.IsNormal)
    (h : (r.sample (stopTime timeLimitMs now)).timeUp = false) :
    r.startTime.ns ≤ now.ns + timeLimitMs * 1000000 := by
  obtain ⟨stop, hstop, hnormal, hns⟩ := stopTime_eq hlimit hnow hroom
  rw [hstop] at h
  have hnot : ¬ 1 ≤ clockDiff r.startTime stop := of_decide_eq_false h
  rw [one_le_clockDiff_iff hr hnormal, hns] at hnot
  exact Int.not_lt.mp hnot

/-- A loop with a time limit samples at most once in an interval and ends in
time.  Any two turns start as many intervals apart as there are turns between
them, all turns but the last start within the limit, so there are at most two
more than there are intervals in it, and a loop that has as many turns ahead
does end. -/
theorem timedLoop_ends (cfg : Config) (s : State) {optSleepNs : ℤ}
    (hsleep : 0 < optSleepNs) (hlimit : 0 < timeLimitMs)
    (hnow : now.IsNormal) (hroom : now.ns + timeLimitMs * 1000000 < 2 ^ 63)
    {readings : List Reading} (h : Paced optSleepNs now readings) :
    (∀ (i j : ℕ) (r r' : Reading), i ≤ j → readings[i]? = some r →
        readings[j]? = some r' →
        r.startTime.ns + (j - i : ℤ) * optSleepNs ≤ r'.startTime.ns) ∧
      (∀ (i : ℕ) (r : Reading),
        i + 1 < turnCount cfg timeLimitMs now s readings →
        readings[i]? = some r →
        r.startTime.ns ≤ now.ns + timeLimitMs * 1000000) ∧
      turnCount cfg timeLimitMs now s readings ≤
        timeLimitMs * 1000000 / optSleepNs + 2 ∧
      (timeLimitMs * 1000000 / optSleepNs + 2 ≤ readings.length →
        (timedLoop cfg timeLimitMs now s readings).2 ≠ none) := by
  have hspan : ∀ (i j : ℕ) (r r' : Reading), i ≤ j →
      readings[i]? = some r → readings[j]? = some r' →
      r.startTime.ns + (j - i : ℤ) * optSleepNs ≤ r'.startTime.ns := by
    intro i j r r' hij hr hr'
    obtain ⟨hi, rfl⟩ := List.getElem?_eq_some_iff.mp hr
    obtain ⟨hj, rfl⟩ := List.getElem?_eq_some_iff.mp hr'
    have hapart := isChain_add_span h.isChain hij (by simpa using hj)
    simpa using hapart
  -- so many intervals have passed when a turn starts
  have helapsed : ∀ (j : ℕ) (r : Reading), readings[j]? = some r →
      now.ns + j * optSleepNs ≤ r.startTime.ns := by
    intro j r hr
    have hlen : 0 < readings.length :=
      (Nat.zero_le j).trans_lt (List.getElem?_eq_some_iff.mp hr).1
    have hfirst : readings[0]? = some readings[0] :=
      List.getElem?_eq_getElem hlen
    have henter := h.enters readings[0] (by
      rw [List.head?_eq_getElem?, hfirst]
      rfl)
    have hapart := hspan 0 j _ r (Nat.zero_le j) hfirst hr
    push_cast at hapart
    linarith
  have hintervals : ∀ (j : ℕ) (r : Reading), readings[j]? = some r →
      (r.sample (stopTime timeLimitMs now)).timeUp = false →
      r.startTime.ns ≤ now.ns + timeLimitMs * 1000000 ∧
        (j : ℤ) ≤ timeLimitMs * 1000000 / optSleepNs := by
    intro j r hr hup
    have hnormal := (h.normal r (List.mem_of_getElem? hr)).1
    have hle := startTime_le_of_timeUp hlimit hnow hroom hnormal hup
    have hpassed := helapsed j r hr
    refine ⟨hle, Int.le_ediv_of_mul_le hsleep ?_⟩
    linarith
  have hwithin : ∀ (i : ℕ) (r : Reading),
      i + 1 < turnCount cfg timeLimitMs now s readings →
      readings[i]? = some r →
      r.startTime.ns ≤ now.ns + timeLimitMs * 1000000 ∧
        (i : ℤ) ≤ timeLimitMs * 1000000 / optSleepNs := by
    intro i r hi hr
    refine hintervals i r hr (timeUp_of_succ_lt_turns hi ?_)
    rw [List.getElem?_map, hr]
    rfl
  refine ⟨hspan, fun i r hi hr => (hwithin i r hi hr).1, ?_, ?_⟩
  · by_contra hmany
    have hpos : 0 ≤ timeLimitMs * 1000000 / optSleepNs :=
      Int.ediv_nonneg (by omega) hsleep.le
    have hle : turnCount cfg timeLimitMs now s readings ≤
        readings.length := by
      have hturns := turns_length_le cfg s
        (readings.map (Reading.sample (stopTime timeLimitMs now)))
      rwa [List.length_map] at hturns
    obtain ⟨k, hk⟩ : ∃ k, turnCount cfg timeLimitMs now s readings = k + 2 :=
      ⟨turnCount cfg timeLimitMs now s readings - 2, by omega⟩
    have hlast := (hwithin k readings[k] (by omega)
      (List.getElem?_eq_getElem (by omega))).2
    omega
  · intro hlong hnone
    have hpos : 0 ≤ timeLimitMs * 1000000 / optSleepNs :=
      Int.ediv_nonneg (by omega) hsleep.le
    obtain ⟨-, hup⟩ := turns_of_samplingLoop_none hnone
    obtain ⟨k, hk⟩ : ∃ k, readings.length = k + 1 :=
      ⟨readings.length - 1, by omega⟩
    have hlast := (hintervals k readings[k]
      (List.getElem?_eq_getElem (by omega))
      (hup _ (List.mem_map_of_mem (List.getElem_mem _)))).2
    omega

end Limit

def idleAt (sec : ℤ) : Reading where
  done := false
  readings := idle.readings
  traceTs := []
  startClock := some ⟨sec, 0⟩
  endClock := some ⟨sec, 0⟩

theorem idleAt_paced :
    Paced 1000000000 ⟨0, 0⟩ [idleAt 0, idleAt 1, idleAt 2] where
  normal := by
    intro r hr
    simp only [List.mem_cons, List.not_mem_nil, or_false] at hr
    rcases hr with rfl | rfl | rfl
    all_goals exact ⟨⟨by decide, by decide, by decide, by decide⟩,
      ⟨by decide, by decide, by decide, by decide⟩⟩
  enters := by
    intro r hr
    rw [← Option.some.inj hr]
    decide
  sleeps := by decide

/-- With a turn in every second and one second of time, the third turn is the
last. -/
theorem timedLoop_ends_third_turn :
    ∃ u, Fout.init oneTrace.fout oneTrace.libc = some u ∧
      (timedLoop { oneTrace with traceLimit := 0 } 1000 ⟨0, 0⟩ (start u 0)
        [idleAt 0, idleAt 1, idleAt 2]).2 ≠ none := by
  obtain ⟨u, hinit⟩ : ∃ u, Fout.init oneTrace.fout oneTrace.libc = some u :=
    ⟨_, rfl⟩
  refine ⟨u, hinit, ?_⟩
  exact (timedLoop_ends { oneTrace with traceLimit := 0 } (start u 0)
    (by decide) (by decide)
    ⟨by decide, by decide, by decide, by decide⟩ (by decide)
    idleAt_paced).2.2.2 (by decide)

end MainPid
end Phpspy

import Mathlib.Logic.Relation
import Phpspy.Options.Values
import Phpspy.Support.GetoptLong

/-!
# The loop of `parse_opts`

`getopt_long` returns one option after the other and the switch sets its value,
until an argument does not start with a hyphen.  The usage divides by the
interval between two traces, which two of the options set.
-/

namespace Phpspy
namespace Options

open ByteText GetoptLong

/-! ## The tables -/

def optstring : Bytes :=
  lit "hp:P:T:te:s:H:V:l:i:n:N:r:" ++ lit "mo:O:E:1b:f:F:d:cq#:@v" ++
    lit "Se:g:Dt"

def Opt.ofChar (c : UInt8) : Option Opt :=
  match Char.ofNat c.toNat with
  | 'h' => some .help
  | 'p' => some .pid
  | 'P' => some .pgrep
  | 'T' => some .threads
  | 's' => some .sleepNs
  | 'H' => some .rateHz
  | 'V' => some .phpVersion
  | 'l' => some .limit
  | 'i' => some .timeLimitMs
  | 'n' => some .maxDepth
  | 'N' => some .maxDepthOuter
  | 'r' => some .requestInfo
  | 'm' => some .memoryUsage
  | 'o' => some .output
  | 'O' => some .childStdout
  | 'E' => some .childStderr
  | '1' => some .singleLine
  | 'b' => some .bufferSize
  | 'f' => some .filter
  | 'F' => some .filterNegate
  | 'd' => some .verboseFields
  | 'c' => some .continueOnError
  | 'q' => some .quiet
  | '#' => some .comment
  | '@' => some .nothing
  | 'v' => some .version
  | 'S' => some .pauseProcess
  | 'e' => some .peekVar
  | 'g' => some .peekGlobal
  | 'D' => some .peekPdo
  | 't' => some .top
  | _ => none

/-- The long options, and whether they take an argument. -/
def longOpts : List (LongOption Opt) :=
  [⟨lit "help", false, .help⟩,
    ⟨lit "pid", true, .pid⟩,
    ⟨lit "pgrep", true, .pgrep⟩,
    ⟨lit "threads", true, .threads⟩,
    ⟨lit "sleep-ns", true, .sleepNs⟩,
    ⟨lit "rate-hz", true, .rateHz⟩,
    ⟨lit "php-version", true, .phpVersion⟩,
    ⟨lit "limit", true, .limit⟩,
    ⟨lit "time-limit-ms", true, .timeLimitMs⟩,
    ⟨lit "max-depth", true, .maxDepth⟩,
    ⟨lit "max-depth-outer", true, .maxDepthOuter⟩,
    ⟨lit "request-info", true, .requestInfo⟩,
    ⟨lit "memory-usage", false, .memoryUsage⟩,
    ⟨lit "output", true, .output⟩,
    ⟨lit "child-stdout", true, .childStdout⟩,
    ⟨lit "child-stderr", true, .childStderr⟩,
    ⟨lit "addr-executor-globals", true, .addrExecutorGlobals⟩,
    ⟨lit "addr-sapi-globals", true, .addrSapiGlobals⟩,
    ⟨lit "single-line", false, .singleLine⟩,
    ⟨lit "buffer-size", true, .bufferSize⟩,
    ⟨lit "filter", true, .filter⟩,
    ⟨lit "filter-negate", true, .filterNegate⟩,
    ⟨lit "verbose-fields", true, .verboseFields⟩,
    ⟨lit "continue-on-error", false, .continueOnError⟩,
    ⟨lit "quiet", false, .quiet⟩,
    ⟨lit "event-handler", true, .eventHandler⟩,
    ⟨lit "event-handler-opts", true, .eventHandlerOpts⟩,
    ⟨lit "comment", true, .comment⟩,
    ⟨lit "nothing", false, .nothing⟩,
    ⟨lit "version", false, .version⟩,
    ⟨lit "pause-process", false, .pauseProcess⟩,
    ⟨lit "peek-var", true, .peekVar⟩,
    ⟨lit "peek-global", true, .peekGlobal⟩,
    ⟨lit "peek-pdo", false, .peekPdo⟩,
    ⟨lit "top", false, .top⟩,
    ⟨lit "libname-awk-patt", true, .libnameAwkPatt⟩]

def table : Table Opt where
  short c := (lookupShort optstring c).bind fun hasArg =>
    (Opt.ofChar c).map (·, hasArg)
  long := longOpts

/-! ## The loop -/

/-- What the loop does with what `getopt_long` returned.  There is no case for a
question mark. -/
def handle (env : Environment) (o : Values) (call : Call Opt) :
    Except Ended Values :=
  match call.val with
  | none => .ok o
  | some c => setOption env o c (call.arg.optarg.getD [])

section Loop

variable (env : Environment) (ordering : GetoptLong.Ordering)

/-- The loop of `parse_opts`, for a number of turns. -/
def parseLoop : ℕ → Values → Scanner → Except Ended (Values × Scanner)
  | 0, _, _ => .error .running
  | fuel + 1, o, s =>
      if s.atHyphen then
        match s.next table ordering with
        | (none, t) => .ok (o, t)
        | (some call, t) => (handle env o call).bind fun o => parseLoop fuel o t
      else .ok (o, s)

/-- The values after `parse_opts`, and what `getopt_long` left. -/
def parseOpts (argv : List Bytes) : Except Ended (Values × Scanner) :=
  parseLoop env ordering ((Scanner.start argv).size + 1) .initial
    (.start argv)

/-- A turn of the loop in which an option is accepted. -/
inductive Turn : Values × Scanner → Values × Scanner → Prop
  | accepted {o o' : Values} {s t : Scanner} {call : Call Opt}
      (hhyphen : s.atHyphen = true)
      (hnext : s.next table ordering = (some call, t))
      (hhandle : handle env o call = .ok o') : Turn (o, s) (o', t)

/-- `parse_opts` gets to this point of its loop. -/
def Reached (argv : List Bytes) (o : Values) (s : Scanner) : Prop :=
  Relation.ReflTransGen (Turn env ordering) (.initial, .start argv) (o, s)

end Loop

variable {env : Environment} {ordering : GetoptLong.Ordering}

/-- The loop is a scan of the arguments, and then the switch for each option. -/
theorem parseLoop_eq {fuel : ℕ} {o : Values} {s : Scanner}
    (hfuel : s.size < fuel) :
    parseLoop env ordering fuel o s =
      ((scan table ordering fuel s).1.foldlM (handle env) o).map
        (·, (scan table ordering fuel s).2) := by
  induction fuel generalizing o s with
  | zero => exact absurd hfuel (Nat.not_lt_zero _)
  | succ fuel ih =>
      rw [parseLoop, scan]
      cases hhyphen : s.atHyphen with
      | false => rfl
      | true =>
          rw [if_pos rfl, if_pos rfl]
          generalize hnext : s.next table ordering = r
          obtain ⟨call, t⟩ := r
          cases call with
          | none => rfl
          | some call =>
              have hlt := next_size_lt hnext
              dsimp only
              rw [List.foldlM_cons]
              cases handle env o call with
              | error e => rfl
              | ok o' => exact ih (by omega)

/-- The options that `getopt_long` returns to `parse_opts`. -/
def optionCalls (ordering : GetoptLong.Ordering) (argv : List Bytes) : List (Call Opt) :=
  (scan table ordering (Scanner.start argv).size (.start argv)).1

/-- What `getopt_long` leaves. -/
def scannerLeft (ordering : GetoptLong.Ordering) (argv : List Bytes) : Scanner :=
  (scan table ordering (Scanner.start argv).size (.start argv)).2

theorem parseOpts_eq (argv : List Bytes) :
    parseOpts env ordering argv =
      ((optionCalls ordering argv).foldlM (handle env) .initial).map
        (·, scannerLeft ordering argv) := by
  have hfuel := @scan_eq_of_size_le Opt _ table ordering _ _ (.start argv)
    (Nat.le_succ _) le_rfl
  rw [parseOpts, parseLoop_eq (Nat.lt_succ_self _), optionCalls, scannerLeft,
    ← hfuel]

theorem parseOpts_eq_ok_iff {argv : List Bytes} {o : Values} {s : Scanner} :
    parseOpts env ordering argv = .ok (o, s) ↔
      (optionCalls ordering argv).foldlM (handle env) .initial = .ok o ∧
        s = scannerLeft ordering argv := by
  rw [parseOpts_eq]
  cases (optionCalls ordering argv).foldlM (handle env) .initial with
  | error e => simp [Except.map]
  | ok o' => simp [Except.map, eq_comm]

theorem exists_of_parseLoop_error {fuel : ℕ} {argv : List Bytes}
    {o : Values} {s : Scanner} {e : Ended} (hfuel : s.size < fuel)
    (hreached : Reached env ordering argv o s)
    (h : parseLoop env ordering fuel o s = .error e) :
    ∃ o s call, Reached env ordering argv o s ∧
      handle env o call = .error e := by
  induction fuel generalizing o s with
  | zero => exact absurd hfuel (Nat.not_lt_zero _)
  | succ fuel ih =>
      rw [parseLoop] at h
      split at h
      · next hhyphen =>
          split at h
          · exact absurd h (by simp)
          · next call t hnext =>
              have hlt := next_size_lt hnext
              cases hhandle : handle env o call with
              | error e' =>
                  rw [hhandle] at h
                  obtain rfl : e' = e := Except.error.inj h
                  exact ⟨o, s, call, hreached, hhandle⟩
              | ok o' =>
                  rw [hhandle] at h
                  exact ih (by omega)
                    (hreached.tail (.accepted hhyphen hnext hhandle)) h
      · exact absurd h (by simp)

/-! ## The interval between two traces -/

theorem orUsage_map_eq_ok {α : Type} {o o' : Values} {value : Option α}
    {set : α → Values} (h : (orUsage o value).map set = .ok o') :
    ∃ n, value = some n ∧ set n = o' := by
  cases value with
  | none => exact absurd h (by simp [orUsage, Except.map])
  | some n => exact ⟨n, rfl, Except.ok.inj h⟩

/-- What an option does to the interval. -/
inductive SetsSleep (o o' : Values) : Opt → Bytes → Prop
  | kept {c : Opt} {optarg : Bytes} (h : o'.sleepNs = o.sleepNs) :
      SetsSleep o o' c optarg
  | sleepNs {optarg : Bytes} (h : strtolWithMin optarg 1 = some o'.sleepNs) :
      SetsSleep o o' .sleepNs optarg
  | rateHz {optarg : Bytes} {hz : ℤ} (h : strtolWithMin optarg 1 = some hz)
      (hdiv : o'.sleepNs = 1000000000 / hz) : SetsSleep o o' .rateHz optarg

theorem requestFlag_sleepNs (o : Values) (b : UInt8) :
    (requestFlag o b).sleepNs = o.sleepNs := by
  rw [requestFlag]
  split <;> rfl

theorem verboseFlag_sleepNs (o : Values) (b : UInt8) :
    (verboseFlag o b).sleepNs = o.sleepNs := by
  rw [verboseFlag]
  split <;> rfl

theorem foldl_sleepNs {set : Values → UInt8 → Values}
    (hset : ∀ o b, (set o b).sleepNs = o.sleepNs) (o : Values)
    (optarg : Bytes) : (optarg.foldl set o).sleepNs = o.sleepNs := by
  induction optarg generalizing o with
  | nil => rfl
  | cons b optarg ih => rw [List.foldl_cons, ih, hset]

theorem setFilter_eq_ok {o o' : Values} {optarg : Bytes} {negate : Bool}
    (h : setFilter env o optarg negate = .ok o') :
    o' = { o with filterRe := some optarg, filterNegate := negate } := by
  rw [setFilter] at h
  split at h
  · exact (Except.ok.inj h).symm
  · exact absurd h (by simp)

theorem setEventHandler_eq_ok {o o' : Values} {optarg : Bytes}
    (h : setEventHandler o optarg = .ok o') :
    ∃ handler, o' = { o with eventHandler := handler } := by
  rw [setEventHandler] at h
  split at h
  · exact ⟨_, (Except.ok.inj h).symm⟩
  · split at h
    · exact ⟨_, (Except.ok.inj h).symm⟩
    · exact absurd h (by simp)

theorem peekVar_eq_ok {o o' : Values} {optarg : Bytes}
    (h : peekVar env o optarg = .ok o') :
    ∃ map, o' = { o with varpeekMap := map } := by
  rw [peekVar] at h
  split at h
  · exact ⟨_, (Except.ok.inj h).symm⟩
  · exact absurd h (by simp)
  · exact absurd h (by simp)

theorem setOption_setsSleep {o o' : Values} {c : Opt} {optarg : Bytes}
    (h : setOption env o c optarg = .ok o') : SetsSleep o o' c optarg := by
  cases c with
  | sleepNs =>
      obtain ⟨n, hn, rfl⟩ := orUsage_map_eq_ok h
      exact .sleepNs hn
  | rateHz =>
      obtain ⟨hz, hhz, rfl⟩ := orUsage_map_eq_ok h
      exact .rateHz hhz rfl
  | help => exact absurd h (by simp [setOption])
  | version => exact absurd h (by simp [setOption])
  | requestInfo =>
      obtain rfl := Except.ok.inj h
      exact .kept (foldl_sleepNs requestFlag_sleepNs o optarg)
  | verboseFields =>
      obtain rfl := Except.ok.inj h
      exact .kept (foldl_sleepNs verboseFlag_sleepNs o optarg)
  | filter =>
      obtain rfl := setFilter_eq_ok h
      exact .kept rfl
  | filterNegate =>
      obtain rfl := setFilter_eq_ok h
      exact .kept rfl
  | eventHandler =>
      obtain ⟨handler, rfl⟩ := setEventHandler_eq_ok h
      exact .kept rfl
  | peekVar =>
      obtain ⟨map, rfl⟩ := peekVar_eq_ok h
      exact .kept rfl
  | pid | threads | timeLimitMs | maxDepth | maxDepthOuter | bufferSize
    | peekGlobal =>
      obtain ⟨n, -, rfl⟩ := orUsage_map_eq_ok h
      exact .kept rfl
  | _ =>
      obtain rfl := Except.ok.inj h
      exact .kept rfl

theorem setOption_error {o : Values} {c : Opt} {optarg : Bytes} {e : Ended}
    (h : setOption env o c optarg = .error e) :
    e = .running ∨ e = .exited 0 ∨ ∃ fp exitCode, e = usage o fp exitCode := by
  have hUsage {α : Type} {value : Option α} {set : α → Values}
      (h : (orUsage o value).map set = .error e) :
      ∃ fp exitCode, e = usage o fp exitCode := by
    cases value with
    | none => exact ⟨_, _, (Except.error.inj h).symm⟩
    | some n => exact absurd h (by simp [orUsage, Except.map])
  cases c with
  | help => exact .inr (.inr ⟨_, _, (Except.error.inj h).symm⟩)
  | version => exact .inr (.inl (Except.error.inj h).symm)
  | filter | filterNegate =>
      rw [setOption, setFilter] at h
      split at h
      · exact absurd h (by simp)
      · exact .inr (.inr ⟨_, _, (Except.error.inj h).symm⟩)
  | eventHandler =>
      rw [setOption, setEventHandler] at h
      split at h
      · exact absurd h (by simp)
      · split at h
        · exact absurd h (by simp)
        · exact .inr (.inr ⟨_, _, (Except.error.inj h).symm⟩)
  | peekVar =>
      rw [setOption, peekVar] at h
      split at h
      · exact absurd h (by simp)
      · exact .inr (.inr ⟨_, _, (Except.error.inj h).symm⟩)
      · exact .inl (Except.error.inj h).symm
  | pid | threads | sleepNs | rateHz | timeLimitMs | maxDepth | maxDepthOuter
    | bufferSize | peekGlobal => exact .inr (.inr (hUsage h))
  | _ => exact absurd h (by simp [setOption])

theorem usage_ne_divideByZero {o : Values} (h : 1 ≤ o.sleepNs) (fp : Stream)
    (exitCode : ℕ) : usage o fp exitCode ≠ .divideByZero := by
  have hne : o.sleepNs ≠ 0 := by omega
  rw [usage, if_neg hne]
  split <;> exact Ended.noConfusion

theorem handle_ne_divideByZero {o : Values} (h : 1 ≤ o.sleepNs)
    (call : Call Opt) : handle env o call ≠ .error .divideByZero := by
  intro herror
  rw [handle] at herror
  split at herror
  · exact absurd herror (by simp)
  · rcases setOption_error herror with hrun | hexit | ⟨fp, code, husage⟩
    · exact absurd hrun (by simp)
    · exact absurd hexit (by simp)
    · exact usage_ne_divideByZero h fp code husage.symm

theorem le_of_strtolWithMin_eq_some {str : Bytes} {min n : ℤ}
    (h : strtolWithMin str min = some n) : min ≤ n := by
  rw [strtolWithMin, Option.filter_eq_some_iff] at h
  exact of_decide_eq_true h.2

theorem one_le_div_iff {n : ℤ} (h : 1 ≤ n) :
    1 ≤ 1000000000 / n ↔ n ≤ 1000000000 := by
  rw [Int.le_ediv_iff_mul_le (by omega), one_mul]

/-- A rate whose interval is rounded down to nothing. -/
def TooFast (call : Call Opt) : Prop :=
  call.val = some .rateHz ∧
    ∃ hz, strtolWithMin (call.arg.optarg.getD []) 1 = some hz ∧
      1000000000 < hz

theorem handle_sleepNs_pos {o o' : Values} {call : Call Opt}
    (hpos : 1 ≤ o.sleepNs) (hcall : ¬ TooFast call)
    (h : handle env o call = .ok o') : 1 ≤ o'.sleepNs := by
  rw [handle] at h
  split at h
  · obtain rfl := Except.ok.inj h
    exact hpos
  · next c hval =>
      cases setOption_setsSleep h with
      | kept hkept => rwa [hkept]
      | sleepNs hns => exact le_of_strtolWithMin_eq_some hns
      | rateHz hhz hdiv =>
          have hle := le_of_strtolWithMin_eq_some hhz
          rw [hdiv, one_le_div_iff hle]
          exact not_lt.mp fun hlt => hcall ⟨hval, _, hhz, hlt⟩

theorem handle_tooFast {call : Call Opt} (h : TooFast call) (o : Values) :
    ∃ o', handle env o call = .ok o' ∧ o'.sleepNs < 1 := by
  obtain ⟨hval, hz, hhz, hlt⟩ := h
  refine ⟨{ o with sleepNs := 1000000000 / hz }, ?_, ?_⟩
  · rw [handle, hval]
    dsimp only
    rw [setOption, hhz]
    rfl
  · have hle := le_of_strtolWithMin_eq_some hhz
    exact not_le.mp fun hone => absurd ((one_le_div_iff hle).mp hone)
      (not_le.mpr hlt)

/-- `parse_opts` is asked for a rate that is too fast. -/
def AsksTooFast (env : Environment) (ordering : GetoptLong.Ordering)
    (argv : List Bytes) : Prop :=
  ∃ o s call t, Reached env ordering argv o s ∧ s.atHyphen = true ∧
    s.next table ordering = (some call, t) ∧ TooFast call

theorem Reached.sleepNs_pos {argv : List Bytes}
    (hargv : ¬ AsksTooFast env ordering argv) {o : Values} {s : Scanner}
    (h : Reached env ordering argv o s) : 1 ≤ o.sleepNs := by
  rw [Reached] at h
  generalize hstate : (o, s) = state at h
  induction h generalizing o s with
  | refl =>
      obtain ⟨rfl, -⟩ := Prod.mk.inj hstate
      decide
  | tail hbefore hturn ih =>
      cases hturn with
      | accepted hhyphen hnext hhandle =>
          obtain ⟨rfl, rfl⟩ := Prod.mk.inj hstate
          have hcall := fun hfast =>
            hargv ⟨_, _, _, _, hbefore, hhyphen, hnext, hfast⟩
          exact handle_sleepNs_pos (ih rfl) hcall hhandle

/-- The interval stays positive, and the usage never divides by zero, exactly
if no rate above `1000000000` is accepted. -/
theorem reached_sleepNs_pos_iff (env : Environment)
    (ordering : GetoptLong.Ordering) (argv : List Bytes) :
    ((∀ o s, Reached env ordering argv o s →
        1 ≤ o.sleepNs ∧ ∀ fp exitCode,
          usage o fp exitCode ≠ .divideByZero) ∧
      parseOpts env ordering argv ≠ .error .divideByZero) ↔
      ¬ AsksTooFast env ordering argv := by
  constructor
  · rintro ⟨hpos, -⟩ ⟨o, s, call, t, hreached, hhyphen, hnext, hfast⟩
    obtain ⟨o', hhandle, hlt⟩ := handle_tooFast hfast o
    have hone := hpos o' t (hreached.tail (.accepted hhyphen hnext hhandle))
    exact absurd hone.1 (not_le.mpr hlt)
  · intro hargv
    refine ⟨fun o s hreached => ?_, fun herror => ?_⟩
    · have hone := hreached.sleepNs_pos hargv
      exact ⟨hone, usage_ne_divideByZero hone⟩
    · obtain ⟨o, s, call, hreached, hhandle⟩ :=
        exists_of_parseLoop_error (Nat.lt_succ_self _) .refl herror
      exact handle_ne_divideByZero (hreached.sleepNs_pos hargv) call hhandle

/-- `phpspy -H 1000000001 -h` -/
theorem rateThenHelp_divides_by_zero :
    ¬ ∃ env, parseOpts env .permute
      [lit "phpspy", lit "-H", lit "1000000001", lit "-h"] ≠
        .error .divideByZero := by
  rintro ⟨env, hne⟩
  exact hne rfl

end Options
end Phpspy

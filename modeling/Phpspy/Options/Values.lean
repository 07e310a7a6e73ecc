import Phpspy.Glopeek.Add
import Phpspy.Varpeek.Add

/-!
# Options and their values

What the switch of `parse_opts` does with an option.  A value that is not
accepted ends the process with the usage, which shows the defaults: the values
that the options have at that moment.
-/

namespace Phpspy
namespace Options

open ByteText
open Varpeek (isSpace splitSign strtoul)

/-! ## The options -/

/-- The options of `long_opts`, by their names. -/
inductive Opt where
  | help
  | pid
  | pgrep
  | threads
  | sleepNs
  | rateHz
  | phpVersion
  | limit
  | timeLimitMs
  | maxDepth
  | maxDepthOuter
  | requestInfo
  | memoryUsage
  | output
  | childStdout
  | childStderr
  | addrExecutorGlobals
  | addrSapiGlobals
  | singleLine
  | bufferSize
  | filter
  | filterNegate
  | verboseFields
  | continueOnError
  | quiet
  | eventHandler
  | eventHandlerOpts
  | comment
  | nothing
  | version
  | pauseProcess
  | peekVar
  | peekGlobal
  | peekPdo
  | top
  | libnameAwkPatt
deriving DecidableEq, Repr

inductive EventHandler where
  | fout
  | callgrind
deriving DecidableEq, Repr

/-- The variables that `parse_opts` sets. -/
structure Values where
  pid : ℤ
  pgrepArgs : Option Bytes
  numWorkers : ℤ
  frameDelim : UInt8
  traceDelim : UInt8
  timeLimitMs : ℤ
  pathOutput : Bytes
  /-- the regular expression that was compiled last -/
  filterRe : Option Bytes
  filterNegate : Bool
  verboseFieldsPid : Bool
  verboseFieldsTs : Bool
  foutBufferSize : ℤ
  libnameAwkPatt : Bytes
  quiet : Bool
  peekPdo : Bool
  topMode : Bool
  sleepNs : ℤ
  executorGlobalsAddr : ℕ
  sapiGlobalsAddr : ℕ
  captureReq : Bool
  captureReqQstring : Bool
  captureReqCookie : Bool
  captureReqUri : Bool
  captureReqPath : Bool
  captureMem : Bool
  maxStackDepthFromLeaf : ℤ
  maxStackDepthFromRoot : ℤ
  traceLimit : ℕ
  pathChildOut : Bytes
  pathChildErr : Bytes
  phpv : Bytes
  pause : Bool
  eventHandler : EventHandler
  eventHandlerOpts : Option Bytes
  continueOnError : Bool
  varpeekMap : Varpeek.VarpeekMap
  glopeekMap : List Glopeek.GlopeekEntry

def Values.initial : Values where
  pid := -1
  pgrepArgs := none
  numWorkers := 16
  frameDelim := 10
  traceDelim := 10
  timeLimitMs := 0
  pathOutput := lit "-"
  filterRe := none
  filterNegate := false
  verboseFieldsPid := false
  verboseFieldsTs := false
  foutBufferSize := 4096
  libnameAwkPatt := lit "libphp[78]?"
  quiet := false
  peekPdo := false
  topMode := false
  sleepNs := 10101010
  executorGlobalsAddr := 0
  sapiGlobalsAddr := 0
  captureReq := false
  captureReqQstring := false
  captureReqCookie := false
  captureReqUri := false
  captureReqPath := false
  captureMem := false
  maxStackDepthFromLeaf := -1
  maxStackDepthFromRoot := -1
  traceLimit := 0
  pathChildOut := lit "phpspy.%d.out"
  pathChildErr := lit "phpspy.%d.err"
  phpv := lit "auto"
  pause := false
  eventHandler := .fout
  eventHandlerOpts := none
  continueOnError := false
  varpeekMap := ∅
  glopeekMap := []

/-! ## Numbers -/

/-- `strtol` in base 10 on a text that is a number up to its end. -/
def strtol (str : Bytes) : Option ℤ :=
  let signed := splitSign (str.dropWhile isSpace)
  let digits := signed.2.takeWhile isDigit
  if digits = [] ∨ digits ≠ signed.2 then none
  else if signed.1 then some (max (-2 ^ 63) (-numVal digits))
  else some (min (2 ^ 63 - 1) (numVal digits))

/-- `strtol_with_min_or_exit`; nothing if it calls `usage`. -/
def strtolWithMin (str : Bytes) (min : ℤ) : Option ℤ :=
  (strtol str).filter (min ≤ ·)

/-- `atoi_with_min_or_exit` -/
def atoiWithMin (str : Bytes) (min : ℤ) : Option ℤ :=
  (strtolWithMin str min).filter (· ≤ 2 ^ 31 - 1)

def isHexDigit (b : UInt8) : Bool :=
  isDigit b || (97 ≤ b && b ≤ 102) || (65 ≤ b && b ≤ 70)

def hexVal (b : UInt8) : ℕ :=
  if isDigit b then digitVal b
  else if 97 ≤ b then b.toNat - 87 else b.toNat - 55

/-- `strtoull` in base 16 -/
def strtoullHex (str : Bytes) : ℕ :=
  let signed := splitSign (str.dropWhile isSpace)
  let digits :=
    match signed.2 with
    | 48 :: 120 :: digits => digits
    | 48 :: 88 :: digits => digits
    | digits => digits
  let n := (digits.takeWhile isHexDigit).foldl (fun n b => 16 * n + hexVal b) 0
  if 2 ^ 64 ≤ n then 2 ^ 64 - 1
  else if signed.1 then (2 ^ 64 - n) % 2 ^ 64
  else n

/-! ## The usage -/

/-- How the process ends in `parse_opts`, or that it is still in the line loop
of `varpeek_add`. -/
inductive Ended where
  | exited (exitCode : ℕ)
  | divideByZero
  | running
deriving DecidableEq, Repr

inductive Stream where
  | stdout
  | stderr
deriving DecidableEq, Repr

/-- `usage`, which prints `1000000000UL/opt_sleep_ns`. -/
def usage (o : Values) (fp : Stream) (exitCode : ℕ) : Ended :=
  if o.quiet ∧ fp = .stderr then .exited exitCode
  else if o.sleepNs = 0 then .divideByZero
  else .exited exitCode

def orUsage {α : Type} (o : Values) : Option α → Except Ended α
  | some value => .ok value
  | none => .error (usage o .stderr 1)

/-! ## The switch -/

/-- A character of the value of `-r`. -/
def requestFlag (o : Values) (b : UInt8) : Values :=
  match Char.ofNat b.toNat with
  | 'q' => { o with captureReqQstring := true }
  | 'c' => { o with captureReqCookie := true }
  | 'u' => { o with captureReqUri := true }
  | 'p' => { o with captureReqPath := true }
  | 'Q' => { o with captureReqQstring := false }
  | 'C' => { o with captureReqCookie := false }
  | 'U' => { o with captureReqUri := false }
  | 'P' => { o with captureReqPath := false }
  | _ => o

/-- `-r` -/
def setRequestInfo (o : Values) (optarg : Bytes) : Values :=
  let o := optarg.foldl requestFlag o
  { o with
    captureReq := o.captureReqQstring || o.captureReqCookie ||
      o.captureReqUri || o.captureReqPath }

/-- A character of the value of `-d`. -/
def verboseFlag (o : Values) (b : UInt8) : Values :=
  match Char.ofNat b.toNat with
  | 'p' => { o with verboseFieldsPid := true }
  | 't' => { o with verboseFieldsTs := true }
  | 'P' => { o with verboseFieldsPid := false }
  | 'T' => { o with verboseFieldsTs := false }
  | _ => o

/-- What the process meets: which regular expressions `regcomp` accepts, and how
long the line loop of `varpeek_add` is followed. -/
structure Environment where
  regcomp : Bytes → Bool
  fuel : ℕ

/-- `-f` and `-F` -/
def setFilter (env : Environment) (o : Values) (optarg : Bytes)
    (negate : Bool) : Except Ended Values :=
  if env.regcomp optarg then
    .ok { o with filterRe := some optarg, filterNegate := negate }
  else .error (usage o .stderr 1)

/-- `--event-handler` -/
def setEventHandler (o : Values) (optarg : Bytes) : Except Ended Values :=
  if optarg = lit "fout" then .ok { o with eventHandler := .fout }
  else if optarg = lit "callgrind" then
    .ok { o with eventHandler := .callgrind }
  else .error (usage o .stderr 1)

/-- `-e` -/
def peekVar (env : Environment) (o : Values) (optarg : Bytes) :
    Except Ended Values :=
  match Varpeek.varpeekAdd env.fuel o.varpeekMap optarg with
  | .ok map => .ok { o with varpeekMap := map }
  | .error .usage => .error (usage o .stderr 1)
  | .error .running => .error .running

/-- `-g` -/
def peekGlobal (o : Values) (optarg : Bytes) : Except Ended Values :=
  (orUsage o (Glopeek.glopeekAdd o.glopeekMap optarg)).map fun map =>
    { o with glopeekMap := map }

/-- The switch of `parse_opts`. -/
def setOption (env : Environment) (o : Values) (c : Opt) (optarg : Bytes) :
    Except Ended Values :=
  match c with
  | .help => .error (usage o .stdout 0)
  | .pid =>
      (orUsage o (atoiWithMin optarg 1)).map fun n => { o with pid := n }
  | .pgrep => .ok { o with pgrepArgs := some optarg }
  | .threads =>
      (orUsage o (atoiWithMin optarg 1)).map fun n =>
        { o with numWorkers := n }
  | .sleepNs =>
      (orUsage o (strtolWithMin optarg 1)).map fun n =>
        { o with sleepNs := n }
  | .rateHz =>
      (orUsage o (strtolWithMin optarg 1)).map fun n =>
        { o with sleepNs := 1000000000 / n }
  | .phpVersion => .ok { o with phpv := optarg }
  | .limit => .ok { o with traceLimit := strtoul optarg }
  | .timeLimitMs =>
      (orUsage o (strtolWithMin optarg 0)).map fun n =>
        { o with timeLimitMs := n }
  | .maxDepth =>
      (orUsage o (atoiWithMin optarg (-1))).map fun n =>
        { o with maxStackDepthFromLeaf := n }
  | .maxDepthOuter =>
      (orUsage o (atoiWithMin optarg 0)).map fun n =>
        { o with maxStackDepthFromRoot := n }
  | .requestInfo => .ok (setRequestInfo o optarg)
  | .memoryUsage => .ok { o with captureMem := true }
  | .output => .ok { o with pathOutput := optarg }
  | .childStdout => .ok { o with pathChildOut := optarg }
  | .childStderr => .ok { o with pathChildErr := optarg }
  | .addrExecutorGlobals =>
      .ok { o with executorGlobalsAddr := strtoullHex optarg }
  | .addrSapiGlobals => .ok { o with sapiGlobalsAddr := strtoullHex optarg }
  | .singleLine => .ok { o with frameDelim := 9, traceDelim := 10 }
  | .bufferSize =>
      (orUsage o (atoiWithMin optarg 1)).map fun n =>
        { o with foutBufferSize := n }
  | .filter => setFilter env o optarg false
  | .filterNegate => setFilter env o optarg true
  | .verboseFields => .ok (optarg.foldl verboseFlag o)
  | .continueOnError => .ok { o with continueOnError := true }
  | .quiet => .ok { o with quiet := true }
  | .eventHandler => setEventHandler o optarg
  | .eventHandlerOpts => .ok { o with eventHandlerOpts := some optarg }
  | .comment => .ok o
  | .nothing => .ok o
  | .version => .error (.exited 0)
  | .pauseProcess => .ok { o with pause := true }
  | .peekVar => peekVar env o optarg
  | .peekGlobal => peekGlobal o optarg
  | .top => .ok { o with topMode := true }
  | .libnameAwkPatt => .ok { o with libnameAwkPatt := optarg }
  | .peekPdo => .ok { o with peekPdo := true }

end Options
end Phpspy

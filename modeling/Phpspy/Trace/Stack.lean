import Phpspy.Trace.Memory

/-!
# Walking the stack

`trace_stack` follows `prev_execute_data` from the leaf to the root and emits a
frame for each `execute_data`.  With a root depth limit it collects the
pointers first, so that it can leave out frames in the middle.  Each frame may
come with records of peeked variables.
-/

namespace Phpspy

open ByteText

/-- `PHPSPY_MAX_STACK_WALK` -/
def maxStackWalk : ℕ := 1024

/-- `sprint_zstring`: at most `bufSize - 1` bytes of a string. -/
def sprintZstring (mem : Remote) (rzstring bufSize : ℕ) :
    Except Status Bytes := do
  let lzstring ← copyProcMem mem rzstring 25
  let bufLen := min (field lzstring 16 8) (max 1 bufSize - 1)
  copyProcMem mem (ptrAdd rzstring 24) bufLen

structure Varpeek where
  name : Bytes
  filenameLineno : Bytes
  zvalStr : Bytes

def Varpeek.event (p : Varpeek) : Event :=
  .varpeek p.name p.filenameLineno p.zvalStr

/-- The options that `trace_stack` reads. -/
structure StackOptions where
  /-- `opt_max_stack_depth_from_leaf` -/
  maxDepthFromLeaf : ℤ
  /-- `opt_max_stack_depth_from_root` -/
  maxDepthFromRoot : ℤ
  /-- `HASH_CNT(hh, varpeek_map) > 0` -/
  varpeeking : Bool
  /-- `opt_peek_pdo` -/
  peekPdo : Bool

/-- What `trace_locals` and `trace_pdo` emit for a frame.  Their status is
ignored by their caller. -/
structure Peeks where
  /-- From `zop.lineno`, the remote frame, the copied function and its file. -/
  locals : ℕ → ℕ → Bytes → Bytes → List Varpeek
  /-- From the remote and the copied `execute_data`, and the frame. -/
  pdo : ℕ → Bytes → TraceFrame → List Varpeek

section Frame

variable (opts : StackOptions) (mem : Remote) (v : PhpVersion)
  (peeks : Peeks)

def frameFunc (zfunc : Bytes) : Except Status Bytes :=
  if field zfunc 8 8 ≠ 0 then sprintZstring mem (field zfunc 8 8) strSize
  else .ok (lit "<main>")

def frameClass (zfunc : Bytes) : Except Status Bytes :=
  if field zfunc 16 8 ≠ 0 then do
    let zce ← copyProcMem mem (field zfunc 16 8) 16
    sprintZstring mem (field zce 8 8) strSize
  else .ok []

/-- File, line and peeked variables of a frame. -/
def frameSource (remote : ℕ) (executeData zfunc : Bytes) :
    Except Status (Bytes × ℤ × List Varpeek) :=
  if field zfunc 0 1 = 2 then do
    let file ← sprintZstring mem (field zfunc v.layout.filename 8) strSize
    match copyProcMem mem (field executeData 0 8) 28 with
    | .ok zop =>
        let lineno := field zop 24 4
        .ok (file, wrap32 lineno,
          if opts.varpeeking then peeks.locals lineno remote zfunc file
          else [])
    | .error _ => .ok (file, wrap32 (field zfunc v.layout.lineStart 4), [])
  else .ok (lit "<internal>", -1, [])

/-- `stack_emit_frame`: the events of a frame and the next `execute_data`. -/
def stackEmitFrame (remote depth : ℕ) : Except Status (List Event × ℕ) := do
  let executeData ← copyProcMem mem remote v.layout.executeDataSize
  let zfunc ← copyProcMem mem (field executeData 24 8) v.layout.functionSize
  let func ← frameFunc mem zfunc
  let cls ← frameClass mem zfunc
  let (file, lineno, locals) ←
    frameSource opts mem v peeks remote executeData zfunc
  let frame : TraceFrame :=
    { loc :=
        { func := func
          cls := cls
          file := file
          lineno := lineno }
      depth := depth }
  let pdo := if opts.peekPdo then peeks.pdo remote executeData frame else []
  .ok (locals.map Varpeek.event ++ .frame frame :: pdo.map Varpeek.event,
    field executeData v.layout.prevExecuteData 8)

/-- `stack_collect`, with `budget` pointers to go before the limit. -/
def stackCollect : ℕ → ℕ → Except Status (List ℕ)
  | 0, _ => .ok []
  | budget + 1, remote =>
      if remote = 0 then .ok []
      else do
        let next ← copyProcMem mem
          (ptrAdd remote v.layout.prevExecuteData) 8
        let rest ← stackCollect budget (leVal next)
        .ok (remote :: rest)

end Frame

/-! ## The two loops of `trace_stack` -/

/-- What `trace_stack` leaves behind. -/
structure StackTrace where
  events : List Event
  depth : ℕ
  status : Status

/-- The marker in place of left-out frames. -/
def elidedFrame (numElided : ℤ) (depth : ℕ) : Event :=
  .frame
    { loc :=
        { func := lit "<elided:" ++ decimalInt numElided ++ lit ">"
          cls := []
          file := lit "<elided>"
          lineno := -1 }
      depth := depth }

/-- The loop over collected pointers, from index `i` on. -/
def emitLoop (emit : ℕ → ℕ → Except Status (List Event × ℕ))
    (keepInner keepOuterFrom numElided : ℤ) :
    List ℕ → ℕ → List Event × Status
  | [], _ => ([], Status.ok)
  | remote :: rest, i =>
      let marker :=
        if (i : ℤ) = keepInner ∧ numElided > 0 then [elidedFrame numElided i]
        else []
      if keepInner ≤ i ∧ i < keepOuterFrom then
        let (events, rv) :=
          emitLoop emit keepInner keepOuterFrom numElided rest (i + 1)
        (marker ++ events, rv)
      else
        match emit remote i with
        | .error rv => (marker, rv)
        | .ok (group, _) =>
            let (events, rv) :=
              emitLoop emit keepInner keepOuterFrom numElided rest (i + 1)
            (marker ++ group ++ events, rv)

/-- The loop without a root depth limit, with `budget` frames to go before the
limit of the walk. -/
def walkLoop (emit : ℕ → ℕ → Except Status (List Event × ℕ)) (leaf : ℤ) :
    ℕ → ℕ → ℕ → StackTrace
  | 0, _, depth => { events := [], depth := depth, status := Status.ok }
  | budget + 1, remote, depth =>
      if remote = 0 ∨ (depth : ℤ) = leaf then
        { events := [], depth := depth, status := Status.ok }
      else
        match emit remote depth with
        | .error rv => { events := [], depth := depth, status := rv }
        | .ok (group, next) =>
            let rest := walkLoop emit leaf budget next (depth + 1)
            { rest with events := group ++ rest.events }

/-- `trace_stack` -/
def traceStack (opts : StackOptions) (mem : Remote) (v : PhpVersion)
    (peeks : Peeks) (remote : ℕ) : StackTrace :=
  let emit := stackEmitFrame opts mem v peeks
  if opts.maxDepthFromRoot ≥ 0 then
    match stackCollect mem v maxStackWalk remote with
    | .error rv => { events := [], depth := 0, status := rv }
    | .ok stackPtrs =>
        let totalDepth : ℤ := stackPtrs.length
        let keepInner :=
          if opts.maxDepthFromLeaf ≥ 0 then opts.maxDepthFromLeaf else 0
        let tooDeep :=
          wrap32 (keepInner + opts.maxDepthFromRoot) < totalDepth
        let keepOuterFrom :=
          if tooDeep then wrap32 (totalDepth - opts.maxDepthFromRoot)
          else keepInner
        let numElided :=
          if tooDeep then wrap32 (keepOuterFrom - keepInner) else 0
        let (events, rv) :=
          emitLoop emit keepInner keepOuterFrom numElided stackPtrs 0
        { events := events
          depth := if rv = Status.ok then stackPtrs.length else 0
          status := rv }
  else walkLoop emit opts.maxDepthFromLeaf maxStackWalk remote 0

theorem keepInner_eq (leaf : ℤ) :
    (if leaf ≥ 0 then leaf else 0) = (leaf.toNat : ℤ) := by
  omega

end Phpspy

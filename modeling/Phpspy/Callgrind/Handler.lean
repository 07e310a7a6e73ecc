import Phpspy.Support.FindOrAdd
import Phpspy.Trace.Event

/-!
# The `callgrind` event handler

The handler keeps the locations of the stack it is being told about, leaf
first, and those of the stack before.  At the end of a stack it adds the stack
to a table of callers, each with a table of callees.
-/

namespace Phpspy

namespace Callgrind

open ByteText FindOrAdd

/-- `MAX_STACK_DEPTH` -/
def maxStackDepth : ℕ := 128

/-- `callgrind_callee_t`, with natural numbers for its counters. -/
structure Callee where
  loc : TraceLoc
  inclusive : ℕ
  count : ℕ

/-- `callgrind_caller_t`, likewise. -/
structure Caller where
  loc : TraceLoc
  exclusive : ℕ
  callees : Table Bytes Callee

/-- An entry of the arrays `self` and `self_str`, or `prev` and `prev_str`. -/
structure Slot where
  str : Bytes
  loc : TraceLoc

/-- `callgrind_udata_t` -/
structure Udata where
  self : List Slot
  prev : List Slot
  callers : Table Bytes Caller

/-- The zeroed `udata` of `PHPSPY_TRACE_EVENT_INIT`. -/
def init : Udata :=
  { self := []
    prev := []
    callers := ∅ }

/-- `callgrind_sprint_loc` -/
def sprintLoc (loc : TraceLoc) : Bytes :=
  loc.text.take (strSize - 1)

def Slot.ofLoc (loc : TraceLoc) : Slot :=
  { str := sprintLoc loc
    loc := loc }

/-- `callgrind_ingest_frame` -/
def ingestFrame (u : Udata) (loc : TraceLoc) : Udata :=
  if u.self.length ≥ maxStackDepth then u
  else { u with self := u.self ++ [Slot.ofLoc loc] }

/-! ## Digesting a stack -/

def Caller.new (loc : TraceLoc) : Caller :=
  { loc := loc
    exclusive := 0
    callees := ∅ }

def Callee.new (loc : TraceLoc) : Callee :=
  { loc := loc
    inclusive := 0
    count := 0 }

def Caller.addExclusive (c : Caller) : Caller :=
  { c with exclusive := c.exclusive + 1 }

/-- Increment the inclusive cost, and the call count if the frame looks
different. -/
def Callee.addCall (differs : Bool) (c : Callee) : Callee :=
  { c with
    inclusive := c.inclusive + 1
    count := if differs then c.count + 1 else c.count }

def Caller.addCall (slot : Slot) (differs : Bool) (c : Caller) : Caller :=
  { c with
    callees :=
      modify (findOrAdd c.callees slot.str (Callee.new slot.loc)) slot.str
        (Callee.addCall differs) }

/-- `i >= prev_len || strcmp(self_str[i], prev_str[i]) != 0` -/
def looksDifferent (prev : List Slot) (slot : Slot) (i : ℕ) : Bool :=
  match prev[i]? with
  | none => true
  | some p => slot.str != p.str

/-- Find or add the caller of a frame, and increment its exclusive cost if the
frame is the top of the call stack. -/
def enterCaller (callers : Table Bytes Caller) (slot : Slot) (i : ℕ) :
    Table Bytes Caller :=
  let callers := findOrAdd callers slot.str (Caller.new slot.loc)
  if i = 0 then modify callers slot.str Caller.addExclusive else callers

/-- The body of the loop of `callgrind_digest_stack`, for the frame at an
index.  The previous caller is known by its key. -/
def digestFrame (prev : List Slot) (frame : Slot × ℕ)
    (state : Option Bytes × Table Bytes Caller) :
    Option Bytes × Table Bytes Caller :=
  let (slot, i) := frame
  let callers := enterCaller state.2 slot i
  let callers :=
    match state.1 with
    | none => callers
    | some prevCaller =>
        modify callers prevCaller
          (Caller.addCall slot (looksDifferent prev slot i))
  (some slot.str, callers)

/-- The loop from the root, which is the last frame, to the leaf: a fold from
the right over the frames with their indices. -/
def digestLoop (prev : List Slot) (callers : Table Bytes Caller)
    (frames : List (Slot × ℕ)) : Option Bytes × Table Bytes Caller :=
  frames.foldr (digestFrame prev) (none, callers)

/-- `callgrind_digest_stack` -/
def digestStack (u : Udata) : Udata :=
  { u with callers := (digestLoop u.prev u.callers u.self.zipIdx).2 }

/-- `event_handler_callgrind` -/
def eventHandler (u : Udata) : Event → Udata
  | .stackBegin => { u with self := [] }
  | .frame f => ingestFrame u f.loc
  | .stackEnd _ _ =>
      { digestStack u with
        prev := u.self
        self := [] }
  | _ => u

def runEvents (u : Udata) (events : List Event) : Udata :=
  events.foldl eventHandler u

/-! ## The numbers in the table -/

def exclusive (callers : Table Bytes Caller) (x : Bytes) : ℕ :=
  reading Caller.exclusive callers x

def inclusive (callers : Table Bytes Caller) (x y : Bytes) : ℕ :=
  reading (fun c => reading Callee.inclusive c.callees y) callers x

def count (callers : Table Bytes Caller) (x y : Bytes) : ℕ :=
  reading (fun c => reading Callee.count c.callees y) callers x

def calleesOf (callers : Table Bytes Caller) (x : Bytes) : List Bytes :=
  ((callers.lookup x).map fun c => c.callees.keys).getD []

end Callgrind

end Phpspy

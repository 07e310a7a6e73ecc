import Phpspy.Glopeek.Add
import Phpspy.Render.Steady
import Phpspy.Support.Scan
import Phpspy.Zend.Lookup

/-!
# Peeking at global variables

`trace_globals` goes through the glospecs in the order in which they were
given.  It looks the superglobal up in the symbol table and then the element in
the array it takes the superglobal for.  If the first lookup fails, it returns;
if the second one fails, it goes on with the next glospec.
-/

namespace Phpspy

open ByteText BufferPrinting Scans Glopeek

/-! ## The loop -/

/-- `offsetof(zend_executor_globals, symbol_table)`, in all versions. -/
def symbolTableOffset : ℕ := 304

/-- What a turn of the loop does: return, go on with the next entry, or have a
text for an event. -/
inductive GlobalTurn where
  /-- The failure, or nothing if it does not come to an end. -/
  | leaves (failure : Option Failure)
  | passes (buf : Buffer)
  | finds (buf : Buffer) (text : Bytes)

/-- The events that `trace_globals` has emitted, what `context->buf` holds, and
how it ended, if it has. -/
structure GlobalsRun where
  events : List (GlopeekEntry × Bytes)
  buf : Buffer
  ended : Option (Except Failure Unit)

section Loop

-- `floatText` is what `%f` prints for the bits of a double, `signed` whether
-- `char` is signed
variable (mem : Remote) (floatText : ℕ → Bytes) (signed : Bool) (fuel : ℕ)

/-- `sprint_zarray_val` -/
def sprintZarrayVal (rzarray : ℕ) (key : Bytes) : Printer Failure :=
  fun buf off size =>
    match copyZarrayBucket mem key signed fuel rzarray with
    | none => none
    | some (.error e) => some (buf, .error e)
    | some (.ok bucket) => sprintZval mem floatText fuel bucket.val buf off size

/-- `garray`: the array where the variable of an entry resides, whatever the
type of the value under the name of the superglobal. -/
def globalArray (symtable : ℕ) (gentry : GlopeekEntry) :
    Option (Except Failure ℕ) :=
  if gentry.gloname = [] then some (.ok symtable)
  else (copyZarrayBucket mem gentry.gloname signed fuel symtable).map
    (Except.map fun lbucket => lbucket.val.value)

/-- The body of the loop of `trace_globals` up to the event. -/
def globalTurn (symtable : ℕ) (gentry : GlopeekEntry) (buf : Buffer) :
    GlobalTurn :=
  match globalArray mem signed fuel symtable gentry with
  | none => .leaves none
  | some (.error e) => .leaves (some e)
  | some (.ok garray) =>
      match sprintZarrayVal mem floatText signed fuel garray gentry.varname buf
        0 strSize with
      | none => .leaves none
      | some (buf, .ok len) => .finds buf (slice buf 0 len)
      | some (buf, .error (.status _)) => .passes buf
      | some (_, .error e) => .leaves (some e)

/-- The loop of `trace_globals` over the entries to come. -/
def globalsLoop (symtable : ℕ) : List GlopeekEntry → Buffer → GlobalsRun
  | [], buf => ⟨[], buf, some (.ok ())⟩
  | gentry :: rest, buf =>
      match globalTurn mem floatText signed fuel symtable gentry buf with
      | .leaves failure => ⟨[], buf, failure.map .error⟩
      | .passes buf => globalsLoop symtable rest buf
      | .finds buf text =>
          let run := globalsLoop symtable rest buf
          { run with events := (gentry, text) :: run.events }

/-- `trace_globals` -/
def traceGlobals (executorGlobalsAddr : ℕ) (entries : List GlopeekEntry)
    (buf : Buffer) : GlobalsRun :=
  globalsLoop mem floatText signed fuel
    (ptrAdd executorGlobalsAddr symbolTableOffset) entries buf

end Loop

/-- The events of `trace_globals`, as the handler gets them. -/
def GlobalsRun.glopeeks (run : GlobalsRun) : List Event :=
  run.events.map fun e => .glopeek e.1.key e.2

/-! ## More fuel -/

section Fuel

variable {mem : Remote} {floatText : ℕ → Bytes} {signed : Bool}

theorem copyZarrayBucket_mono {key : Bytes} {rzarray m n : ℕ} (hmn : m ≤ n)
    {r : Except Failure Bucket}
    (h : copyZarrayBucket mem key signed m rzarray = some r) :
    copyZarrayBucket mem key signed n rzarray = some r := by
  rcases copyZarrayBucket_cases mem key signed rzarray with
    ⟨arData, head, -, hwalk⟩ | ⟨-, e, herror⟩
  · rw [hwalk] at h ⊢
    exact Walks.walk_mono h hmn
  · rw [herror] at h ⊢
    exact h

theorem globalArray_mono {symtable m n : ℕ} (hmn : m ≤ n)
    {gentry : GlopeekEntry} {r : Except Failure ℕ}
    (h : globalArray mem signed m symtable gentry = some r) :
    globalArray mem signed n symtable gentry = some r := by
  unfold globalArray at h ⊢
  split at h
  · next hempty => rwa [if_pos hempty]
  · next hnamed =>
      obtain ⟨b, hlookup, hr⟩ := Option.map_eq_some_iff.mp h
      rw [if_neg hnamed, copyZarrayBucket_mono hmn hlookup, Option.map_some, hr]

theorem sprintZarrayVal_agrees {rzarray m n : ℕ} (hmn : m ≤ n) (key : Bytes) :
    Agrees (sprintZarrayVal mem floatText signed m rzarray key)
      (sprintZarrayVal mem floatText signed n rzarray key) := by
  intro buf off size hne
  unfold sprintZarrayVal at hne ⊢
  cases hlookup : copyZarrayBucket mem key signed m rzarray with
  | none => simp [hlookup] at hne
  | some r =>
      rw [hlookup] at hne
      rw [copyZarrayBucket_mono hmn hlookup]
      cases r with
      | error e => rfl
      | ok bucket =>
          exact sprintZvalWith_agrees mem floatText
            (sprintZarray_agrees mem floatText hmn) bucket.val _ _ _ hne

end Fuel

/-! ## Entries -/

section Entries

variable (mem : Remote) (floatText : ℕ → Bytes) (signed : Bool)
  (symtable : ℕ)

end Entries

section Turn

variable {mem : Remote} {floatText : ℕ → Bytes} {signed : Bool}
  {symtable : ℕ} {gentry : GlopeekEntry}

theorem globalTurn_mono {m n : ℕ} (hmn : m ≤ n) {buf : Buffer}
    (h : globalTurn mem floatText signed m symtable gentry buf ≠
      .leaves none) :
    globalTurn mem floatText signed n symtable gentry buf =
      globalTurn mem floatText signed m symtable gentry buf := by
  unfold globalTurn at h ⊢
  cases harray : globalArray mem signed m symtable gentry with
  | none => simp [harray] at h
  | some r =>
      rw [harray] at h
      rw [globalArray_mono hmn harray]
      cases r with
      | error e => rfl
      | ok garray =>
          dsimp only at h ⊢
          cases hrun : sprintZarrayVal mem floatText signed m garray
              gentry.varname buf 0 strSize with
          | none => simp [hrun] at h
          | some out => rw [(sprintZarrayVal_agrees hmn _).eq_some hrun]

end Turn

/-! ## Independence -/

section Independence

variable (mem : Remote) (floatText : ℕ → Bytes) (signed : Bool)
  (executorGlobalsAddr : ℕ)

/-- The element of an entry is found and printed as a text, if the buffer has
these contents. -/
def Shows (gentry : GlopeekEntry) (buf : Buffer) (text : Bytes) : Prop :=
  ∃ fuel out, globalTurn mem floatText signed fuel
    (ptrAdd executorGlobalsAddr symbolTableOffset) gentry buf =
      .finds out text

variable {mem floatText signed executorGlobalsAddr}

end Independence

/-! ## A symbol table with one superglobal -/

def getX : GlopeekEntry := ⟨lit "get.x", lit "_GET", lit "x"⟩

end Phpspy

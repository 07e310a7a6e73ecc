import Phpspy.Trace.DoTrace
import Phpspy.Zend.Structs

/-!
# The call stack of PHP in memory

The engine links the `zend_execute_data` of its calls from the innermost one to
the outermost one.  Each of them points to its function, which has names, and
to the opcode it is at, which has a line.  `trace_stack` finds the calls that
are in memory.
-/

namespace Phpspy

open ByteText

/-- A call: the name of the function, which a script does not have, the name of
the class, and for code in a file the file and the line it is at. -/
structure PhpFrame where
  name : Option Bytes
  scope : Option Bytes
  source : Option (Bytes × ℕ)

/-- The file that is shown for a call, and the line. -/
def shownSource : Option (Bytes × ℕ) → Bytes × ℤ
  | none => (lit "<internal>", -1)
  | some (file, line) => (file.take (strSize - 1), wrap32 line)

def PhpFrame.loc (f : PhpFrame) : TraceLoc :=
  { func := (f.name.getD (lit "<main>")).take (strSize - 1)
    cls := (f.scope.getD []).take (strSize - 1)
    file := (shownSource f.source).1
    lineno := (shownSource f.source).2 }

/-! ## In memory -/

section Holds

variable (mem : Remote) (v : PhpVersion)

/-- A pointer to a string, or null. -/
def HoldsName (ptr : ℕ) : Option Bytes → Prop
  | none => ptr = 0
  | some text => ptr ≠ 0 ∧ HoldsString mem ptr text

/-- A pointer to a `zend_class_entry` with a name, or null. -/
def HoldsScope (ptr : ℕ) : Option Bytes → Prop
  | none => ptr = 0
  | some text => ptr ≠ 0 ∧ ∃ zce, copyProcMem mem ptr 16 = .ok zce ∧
      HoldsString mem (field zce 8 8) text

/-- Code in a file (`ZEND_USER_FUNCTION`) with the opcode it is at, or an
internal function. -/
def HoldsSource (executeData zfunc : Bytes) : Option (Bytes × ℕ) → Prop
  | none => field zfunc 0 1 ≠ 2
  | some (file, line) => field zfunc 0 1 = 2 ∧
      HoldsString mem (field zfunc v.layout.filename 8) file ∧
        ∃ zop, copyProcMem mem (field executeData 0 8) 28 = .ok zop ∧
          field zop 24 4 = line

/-- The memory has a call at an address, with its `zend_execute_data` and its
`zend_function`. -/
structure HoldsFrame (addr : ℕ) (executeData zfunc : Bytes) (f : PhpFrame) :
    Prop where
  nonnull : addr ≠ 0
  copied : copyProcMem mem addr v.layout.executeDataSize = .ok executeData
  func : copyProcMem mem (field executeData 24 8) v.layout.functionSize =
    .ok zfunc
  name : HoldsName mem (field zfunc 8 8) f.name
  scope : HoldsScope mem (field zfunc 16 8) f.scope
  source : HoldsSource mem v executeData zfunc f.source

/-- The memory has a stack of calls, innermost first, at an address. -/
def HoldsStack : ℕ → List PhpFrame → Prop
  | addr, [] => addr = 0
  | addr, f :: frames => ∃ executeData zfunc,
      HoldsFrame mem v addr executeData zfunc f ∧
        HoldsStack (field executeData v.layout.prevExecuteData 8) frames

end Holds

/-! ## One call -/

section Frame

variable {mem : Remote} {v : PhpVersion}

theorem frameFunc_of_holds {zfunc : Bytes} {name : Option Bytes}
    (h : HoldsName mem (field zfunc 8 8) name) :
    frameFunc mem zfunc =
      .ok ((name.getD (lit "<main>")).take (strSize - 1)) := by
  cases name with
  | none =>
      have hnull : ¬ field zfunc 8 8 ≠ 0 := not_not.mpr h
      have hmain : (lit "<main>").take (strSize - 1) = lit "<main>" :=
        List.take_of_length_le (by decide)
      rw [frameFunc, if_neg hnull, Option.getD_none, hmain]
  | some text =>
      rw [frameFunc, if_pos h.1]
      exact h.2.sprintZstring_eq strSize

theorem frameClass_of_holds {zfunc : Bytes} {scope : Option Bytes}
    (h : HoldsScope mem (field zfunc 16 8) scope) :
    frameClass mem zfunc = .ok ((scope.getD []).take (strSize - 1)) := by
  cases scope with
  | none =>
      have hnull : ¬ field zfunc 16 8 ≠ 0 := not_not.mpr h
      rw [frameClass, if_neg hnull]
      rfl
  | some text =>
      obtain ⟨hnonnull, zce, hcopy, hstring⟩ := h
      rw [frameClass, if_pos hnonnull, hcopy]
      exact hstring.sprintZstring_eq strSize

variable {opts : StackOptions} {peeks : Peeks}

theorem frameSource_of_holds (hvarpeek : opts.varpeeking = false)
    {executeData zfunc : Bytes} {source : Option (Bytes × ℕ)} (remote : ℕ)
    (h : HoldsSource mem v executeData zfunc source) :
    frameSource opts mem v peeks remote executeData zfunc =
      .ok ((shownSource source).1, (shownSource source).2, []) := by
  cases source with
  | none => rw [frameSource, if_neg h, shownSource]
  | some source =>
      obtain ⟨file, line⟩ := source
      obtain ⟨htype, hfile, zop, hzop, hline⟩ := h
      rw [frameSource, if_pos htype, hfile.sprintZstring_eq strSize,
        shownSource]
      simp only [bind, Except.bind, hzop, hline, hvarpeek,
        Bool.false_eq_true, if_false]

theorem stackEmitFrame_of_holds (hvarpeek : opts.varpeeking = false)
    (hpdo : opts.peekPdo = false) {addr : ℕ} {executeData zfunc : Bytes}
    {f : PhpFrame} (h : HoldsFrame mem v addr executeData zfunc f)
    (depth : ℕ) :
    stackEmitFrame opts mem v peeks addr depth =
      .ok ([.frame { loc := f.loc, depth := depth }],
        field executeData v.layout.prevExecuteData 8) := by
  simp only [stackEmitFrame, h.copied, h.func,
    frameFunc_of_holds h.name, frameClass_of_holds h.scope,
    frameSource_of_holds hvarpeek addr h.source, hpdo, bind, Except.bind]
  rfl

end Frame

/-! ## The walk -/

/-- The events for calls, the first of them at some depth. -/
def frameEvents (frames : List PhpFrame) (depth : ℕ) : List Event :=
  (frames.zipIdx depth).map fun f => .frame { loc := f.1.loc, depth := f.2 }

/-- How many calls are shown: `opt_max_stack_depth_from_leaf`, if it is given,
and no more than the limit of the walk. -/
def shownDepth (leaf : ℤ) : ℕ :=
  if leaf < 0 then maxStackWalk else min leaf.toNat maxStackWalk

section Walk

variable {mem : Remote} {v : PhpVersion} {opts : StackOptions}
  {peeks : Peeks}

/-- The walk over the calls in memory.  `room` is how many of them it may
still show. -/
theorem walkLoop_of_holds (hvarpeek : opts.varpeeking = false)
    (hpdo : opts.peekPdo = false) {leaf : ℤ} {budget addr : ℕ}
    (room depth : ℕ) {frames : List PhpFrame} (hroom : room ≤ budget)
    (hleaf : (leaf < 0 ∧ room = budget) ∨
      (0 ≤ leaf ∧ depth ≤ leaf ∧ room = min (leaf - depth).toNat budget))
    (h : HoldsStack mem v addr frames) :
    walkLoop (stackEmitFrame opts mem v peeks) leaf budget addr depth =
      { events := frameEvents (frames.take room) depth
        depth := depth + (frames.take room).length
        status := Status.ok } := by
  induction budget generalizing room addr depth frames with
  | zero =>
      obtain rfl : room = 0 := Nat.le_zero.mp hroom
      rw [walkLoop, List.take_zero]
      rfl
  | succ budget ih =>
      cases frames with
      | nil =>
          have hnull : addr = 0 := h
          rw [walkLoop, if_pos (Or.inl hnull), List.take_nil]
          rfl
      | cons f frames =>
          obtain ⟨executeData, zfunc, hframe, hrest⟩ := h
          by_cases hlast : (depth : ℤ) = leaf
          · obtain rfl : room = 0 := by omega
            rw [walkLoop, if_pos (Or.inr hlast), List.take_zero]
            rfl
          · obtain ⟨room, rfl⟩ : ∃ n, room = n + 1 := ⟨room - 1, by omega⟩
            have hgo : ¬ (addr = 0 ∨ (depth : ℤ) = leaf) :=
              not_or.mpr ⟨hframe.nonnull, hlast⟩
            have htail := ih room (depth + 1) (by omega) (by omega) hrest
            rw [walkLoop, if_neg hgo,
              stackEmitFrame_of_holds hvarpeek hpdo hframe]
            simp only [htail, List.take_succ_cons, List.length_cons]
            rw [frameEvents, frameEvents, List.zipIdx_cons, List.map_cons,
              List.singleton_append]
            congr 1
            omega

/-- `trace_stack` without a limit from the root and without peeked variables
shows the calls that are in memory. -/
theorem traceStack_of_holds (peeks : Peeks)
    (hroot : opts.maxDepthFromRoot < 0)
    (hvarpeek : opts.varpeeking = false) (hpdo : opts.peekPdo = false)
    {addr : ℕ} {frames : List PhpFrame} (h : HoldsStack mem v addr frames) :
    let shown := frames.take (shownDepth opts.maxDepthFromLeaf)
    traceStack opts mem v peeks addr =
      { events := frameEvents shown 0
        depth := shown.length
        status := Status.ok } := by
  intro shown
  have hwithin : shownDepth opts.maxDepthFromLeaf ≤ maxStackWalk := by
    rw [shownDepth]
    split <;> omega
  rw [traceStack, if_neg (not_le.mpr hroot),
    walkLoop_of_holds hvarpeek hpdo (shownDepth opts.maxDepthFromLeaf) 0
      hwithin (by rw [shownDepth]; split <;> omega) h, Nat.zero_add]

end Walk

end Phpspy

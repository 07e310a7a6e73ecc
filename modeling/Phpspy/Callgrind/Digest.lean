import Phpspy.Callgrind.Handler

/-!
# What a run of samples adds to the table

The loop over a stack adds to the numbers of the table frame by frame.  A
number of a caller that grows by a fixed amount at the leaf and by a fixed
amount with each call is a cost, and one induction over the loop serves all of
them.
-/

namespace Phpspy

namespace Callgrind

open ByteText FindOrAdd

/-! ## Costs -/

/-- A number of a caller that is zero at first, grows by `leaf` when the caller
is the leaf, and by `call` when it calls a location. -/
structure IsCost (g : Caller → ℕ) (leaf : ℕ) (call : Bytes → Bool → ℕ) :
    Prop where
  new : ∀ loc, g (Caller.new loc) = 0
  addExclusive : ∀ c, g (Caller.addExclusive c) = g c + leaf
  addCall : ∀ slot differs c,
    g (Caller.addCall slot differs c) = g c + call slot.str differs

theorem isCost_exclusive : IsCost Caller.exclusive 1 fun _ _ => 0 where
  new _ := rfl
  addExclusive _ := rfl
  addCall _ _ _ := rfl

theorem isCost_callee {h : Callee → ℕ} {amount : Bool → ℕ}
    (hnew : ∀ loc, h (Callee.new loc) = 0)
    (hcall : ∀ differs c, h (Callee.addCall differs c) = h c + amount differs)
    (y : Bytes) :
    IsCost (fun c => reading h c.callees y) 0
      fun s differs => if y = s then amount differs else 0 where
  new _ := reading_empty h y
  addExclusive _ := rfl
  addCall slot differs c := by
    have hmem := mem_findOrAdd_self c.callees slot.str (Callee.new slot.loc)
    have hread := reading_modify (hcall differs) hmem y
    rw [reading_findOrAdd (hnew slot.loc)] at hread
    exact hread

theorem isCost_inclusive (y : Bytes) :
    IsCost (fun c => reading Callee.inclusive c.callees y) 0
      fun s _ => if y = s then 1 else 0 :=
  isCost_callee (fun _ => rfl) (fun _ _ => rfl) y

theorem isCost_count (y : Bytes) :
    IsCost (fun c => reading Callee.count c.callees y) 0
      fun s differs => if y = s then (if differs then 1 else 0) else 0 := by
  refine isCost_callee (fun _ => rfl) (fun differs c => ?_) y
  cases differs
  · rfl
  · rfl

theorem isCost_total_inclusive :
    IsCost (fun c => total Callee.inclusive c.callees) 0 fun _ _ => 1 where
  new _ := rfl
  addExclusive _ := rfl
  addCall slot differs c := by
    have hmem := mem_findOrAdd_self c.callees slot.str (Callee.new slot.loc)
    have hstep : ∀ e : Callee,
        (Callee.addCall differs e).inclusive = e.inclusive + 1 := fun _ => rfl
    have htotal := total_modify hstep hmem
    have hnew : (Callee.new slot.loc).inclusive = 0 := rfl
    rw [total_findOrAdd hnew] at htotal
    exact htotal

/-! ## The loop -/

/-- The previous caller has an entry in the table. -/
def Linked (state : Option Bytes × Table Bytes Caller) : Prop :=
  ∀ p ∈ state.1, p ∈ state.2

theorem mem_enterCaller_self (callers : Table Bytes Caller) (slot : Slot)
    (i : ℕ) : slot.str ∈ enterCaller callers slot i := by
  have hadd := mem_findOrAdd_self callers slot.str (Caller.new slot.loc)
  unfold enterCaller
  split
  · exact mem_modify_of_mem _ _ hadd
  · exact hadd

theorem mem_enterCaller_of_mem {callers : Table Bytes Caller} {p : Bytes}
    (slot : Slot) (i : ℕ) (hp : p ∈ callers) :
    p ∈ enterCaller callers slot i := by
  have hadd := mem_findOrAdd_of_mem slot.str (Caller.new slot.loc) hp
  unfold enterCaller
  split
  · exact mem_modify_of_mem _ _ hadd
  · exact hadd

theorem reading_enterCaller {g : Caller → ℕ} {leaf : ℕ}
    {call : Bytes → Bool → ℕ} (hg : IsCost g leaf call)
    (callers : Table Bytes Caller) (slot : Slot) (i : ℕ) (x : Bytes) :
    reading g (enterCaller callers slot i) x =
      reading g callers x + if i = 0 ∧ x = slot.str then leaf else 0 := by
  have hadd := mem_findOrAdd_self callers slot.str (Caller.new slot.loc)
  have hnew := reading_findOrAdd (hg.new slot.loc) callers slot.str x
  unfold enterCaller
  by_cases hi : i = 0
  · rw [if_pos hi, reading_modify hg.addExclusive hadd, hnew]
    simp only [hi, true_and]
  · rw [if_neg hi, hnew]
    simp only [hi, false_and, if_false, Nat.add_zero]

theorem digestFrame_linked (prev : List Slot) (frame : Slot × ℕ)
    (state : Option Bytes × Table Bytes Caller) :
    Linked (digestFrame prev frame state) := by
  obtain ⟨slot, i⟩ := frame
  intro p hp
  obtain rfl : slot.str = p := Option.some.inj hp
  have henter := mem_enterCaller_self state.2 slot i
  simp only [digestFrame]
  split
  · exact henter
  · exact mem_modify_of_mem _ _ henter

/-- One frame adds to the caller at its own location if it is the leaf, and to
the caller before it. -/
theorem digestFrame_reading {g : Caller → ℕ} {leaf : ℕ}
    {call : Bytes → Bool → ℕ} (hg : IsCost g leaf call) {prev : List Slot}
    {slot : Slot} {i : ℕ} {state : Option Bytes × Table Bytes Caller}
    (hlinked : Linked state) (x : Bytes) :
    reading g (digestFrame prev (slot, i) state).2 x =
      reading g state.2 x +
        (if i = 0 ∧ x = slot.str then leaf else 0) +
        (if state.1 = some x then
          call slot.str (looksDifferent prev slot i) else 0) := by
  obtain ⟨prevCaller, callers⟩ := state
  have henter := reading_enterCaller hg callers slot i x
  rcases prevCaller with _ | p
  · simp only [digestFrame, henter, reduceCtorEq, if_false, Nat.add_zero]
  · have hp := mem_enterCaller_of_mem slot i (hlinked p rfl)
    simp only [digestFrame]
    rw [reading_modify (hg.addCall slot _) hp, henter]
    simp only [Option.some.injEq, eq_comm]

theorem digestLoop_cons (prev : List Slot) (callers : Table Bytes Caller)
    (frame : Slot × ℕ) (frames : List (Slot × ℕ)) :
    digestLoop prev callers (frame :: frames) =
      digestFrame prev frame (digestLoop prev callers frames) :=
  rfl

theorem digestLoop_linked (prev : List Slot) (callers : Table Bytes Caller)
    (frames : List (Slot × ℕ)) : Linked (digestLoop prev callers frames) := by
  cases frames with
  | nil => exact fun p hp => absurd hp (Option.not_mem_none p)
  | cons frame frames => exact digestFrame_linked _ _ _

theorem digestLoop_fst (prev : List Slot) (callers : Table Bytes Caller)
    (frames : List (Slot × ℕ)) :
    (digestLoop prev callers frames).1 = frames.head?.map (·.1.str) := by
  cases frames with
  | nil => rfl
  | cons frame frames => rfl

/-- What the frames of a stack add to the cost of a caller. -/
def charge (prev : List Slot) (leaf : ℕ) (call : Bytes → Bool → ℕ)
    (x : Bytes) : List (Slot × ℕ) → ℕ
  | [] => 0
  | (slot, i) :: frames =>
      charge prev leaf call x frames +
        (if i = 0 ∧ x = slot.str then leaf else 0) +
        (if frames.head?.map (·.1.str) = some x then
          call slot.str (looksDifferent prev slot i) else 0)

theorem digestLoop_reading {g : Caller → ℕ} {leaf : ℕ}
    {call : Bytes → Bool → ℕ} (hg : IsCost g leaf call) (prev : List Slot)
    (callers : Table Bytes Caller) (frames : List (Slot × ℕ)) (x : Bytes) :
    reading g (digestLoop prev callers frames).2 x =
      reading g callers x + charge prev leaf call x frames := by
  induction frames with
  | nil => rfl
  | cons frame frames ih =>
      rw [digestLoop_cons,
        digestFrame_reading hg (digestLoop_linked prev callers frames),
        ih, digestLoop_fst, charge]
      simp only [Nat.add_assoc]

/-! ## Samples -/

def frameLoc : Event → Option TraceLoc
  | .frame f => some f.loc
  | _ => none

/-- One sample of a stack.  A sample that is aborted has no end. -/
structure Sample where
  events : List Event
  ended : Option (Bytes × ℤ)
  isRecord : ∀ e ∈ events, e.isRecord = true

namespace Sample

variable (s : Sample)

def handled : List Event :=
  .stackBegin ::
    (s.events ++ s.ended.toList.map fun e => .stackEnd e.1 e.2)

def completed : Bool :=
  s.ended.isSome

/-- The frames that the handler keeps, leaf first. -/
def slots : List Slot :=
  ((s.events.filterMap frameLoc).map Slot.ofLoc).take maxStackDepth

def stack : List Bytes :=
  s.slots.map Slot.str

def digest (state : List Slot × Table Bytes Caller) :
    List Slot × Table Bytes Caller :=
  if s.completed then
    (s.slots, (digestLoop state.1 state.2 s.slots.zipIdx).2)
  else state

end Sample

/-- Between the two ends of a stack the handler only takes frames in, as long
as there is room. -/
theorem runEvents_records {events : List Event}
    (hrec : ∀ e ∈ events, e.isRecord = true) {u : Udata}
    (hroom : u.self.length ≤ maxStackDepth) :
    runEvents u events =
      { u with
        self := (u.self ++ (events.filterMap frameLoc).map Slot.ofLoc).take
          maxStackDepth } := by
  induction events generalizing u with
  | nil =>
      rw [List.filterMap_nil, List.map_nil, List.append_nil,
        List.take_of_length_le hroom]
      rfl
  | cons e events ih =>
      have hrest := fun e' he' => hrec e' (List.mem_cons_of_mem e he')
      have hskip (hloc : frameLoc e = none) (hstep : eventHandler u e = u) :
          runEvents u (e :: events) =
            { u with
              self := (u.self ++
                ((e :: events).filterMap frameLoc).map Slot.ofLoc).take
                  maxStackDepth } := by
        rw [List.filterMap_cons_none hloc, ← ih hrest hroom, runEvents,
          List.foldl_cons, hstep, runEvents]
      cases e with
      | stackBegin => exact absurd (hrec _ List.mem_cons_self) (by decide)
      | stackEnd ts pid => exact absurd (hrec _ List.mem_cons_self) nofun
      | varpeek name filenameLineno zvalStr => exact hskip rfl rfl
      | glopeek key zvalStr => exact hskip rfl rfl
      | request request => exact hskip rfl rfl
      | mem size peak => exact hskip rfl rfl
      | frame f =>
          have hloc : frameLoc (.frame f) = some f.loc := rfl
          rw [runEvents, List.foldl_cons, eventHandler, ← runEvents,
            List.filterMap_cons_some hloc, List.map_cons]
          by_cases hfull : u.self.length ≥ maxStackDepth
          · rw [ingestFrame, if_pos hfull, ih hrest hroom,
              List.take_append_of_le_length hfull,
              List.take_append_of_le_length hfull]
          · have hroom' : (u.self ++ [Slot.ofLoc f.loc]).length ≤
                maxStackDepth := by
              rw [List.length_append, List.length_singleton]
              exact Nat.not_le.mp hfull
            rw [ingestFrame, if_neg hfull, ih hrest hroom',
              List.append_assoc, List.singleton_append]

theorem runEvents_sample_open (u : Udata) (s : Sample) :
    runEvents u (.stackBegin :: s.events) = { u with self := s.slots } := by
  rw [runEvents, List.foldl_cons, ← runEvents]
  exact runEvents_records s.isRecord (Nat.zero_le maxStackDepth)

theorem runEvents_sample (u : Udata) (s : Sample) :
    let u' := runEvents u s.handled
    (u'.prev, u'.callers) = s.digest (u.prev, u.callers) := by
  have hopen := runEvents_sample_open u s
  have happend : runEvents u s.handled =
      runEvents (runEvents u (.stackBegin :: s.events))
        (s.ended.toList.map fun e => .stackEnd e.1 e.2) := by
    rw [Sample.handled, ← List.cons_append]
    exact List.foldl_append
  rw [happend, hopen]
  unfold Sample.digest Sample.completed
  rcases s.ended with _ | e
  · rfl
  · rfl

/-- A run of samples digests them one by one. -/
theorem runEvents_samples (u : Udata) (samples : List Sample) :
    let u' := runEvents u (samples.flatMap Sample.handled)
    (u'.prev, u'.callers) =
      samples.foldl (fun state s => s.digest state) (u.prev, u.callers) := by
  induction samples generalizing u with
  | nil => rfl
  | cons s samples ih =>
      have happend : runEvents u ((s :: samples).flatMap Sample.handled) =
          runEvents (runEvents u s.handled)
            (samples.flatMap Sample.handled) := by
        rw [List.flatMap_cons]
        exact List.foldl_append
      rw [happend, List.foldl_cons, ← runEvents_sample u s]
      exact ih (runEvents u s.handled)

end Callgrind

end Phpspy

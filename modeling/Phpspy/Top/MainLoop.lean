import Phpspy.Top.Display
import Phpspy.Top.ReadChildOut

/-!
# The loop of top mode

`main_top` displays about once a second and reads what the child has written in
between, until the child closes one of its pipes or the user quits.  Whatever
the order of reads and displays, the counters tally the lines that have been
read.
-/

namespace Phpspy
namespace Top

open ByteText
open LineSplitting

/-! ## The loop -/

/-- What one pass of the loop meets: whether it is time to display, what a read
of the child's output returns if there is one, whether the child's error output
has ended, and whether the user quits. -/
structure Round where
  displays : Bool
  out : Option ReadResult
  errEnded : Bool
  quits : Bool

def Round.data (r : Round) : List Bytes :=
  match r.out with
  | some (.data (b :: bs)) => [b :: bs]
  | _ => []

section Loop

variable (uthash : Uthash) (qsort : Qsort) (behind : State → Bytes)

def showCounters (st : State) (r : Round) : State :=
  if r.displays then { st with counters := display qsort st.counters } else st

/-- Read what the child has written, with the lines that are handled. -/
def readOut (st : State) (r : Round) : State × List Bytes :=
  match r.out with
  | none => (st, [])
  | some result => readChildOut uthash behind st result

/-- The body of the loop of `main_top`. -/
def round (st : State) (r : Round) : State × List Bytes :=
  let read := readOut uthash behind (showCounters qsort st r) r
  (if r.errEnded || r.quits then { read.1 with done := true } else read.1,
    read.2)

/-- The loop of `main_top`, with the lines that are handled. -/
def mainLoop : State → List Round → State × List Bytes
  | st, [] => (st, [])
  | st, r :: rounds =>
      if st.done then (st, [])
      else
        let next := round uthash qsort behind st r
        let rest := mainLoop next.1 rounds
        (rest.1, next.2 ++ rest.2)

def received : State → List Round → List Bytes
  | _, [] => []
  | st, r :: rounds =>
      if st.done then []
      else r.data ++ received (round uthash qsort behind st r).1 rounds

/-- No read returns more than the room it is offered. -/
def FitsLoop : State → List Round → Prop
  | _, [] => True
  | st, r :: rounds =>
      st.done = false →
        (∀ data ∈ r.data, data.length ≤ st.buffer.rem) ∧
          FitsLoop (round uthash qsort behind st r).1 rounds

/-! ## The lines -/

omit qsort in
theorem readOut_cases (st : State) (r : Round) :
    (r.data = [] ∧ (readOut uthash behind st r).2 = [] ∧
        (readOut uthash behind st r).1.counters = st.counters ∧
        ((readOut uthash behind st r).1.buffer.pending = st.buffer.pending ∨
          (readOut uthash behind st r).1.buffer.pending =
            kept bufSize st.buffer.pending)) ∨
      ∃ data, data ≠ [] ∧ r.data = [data] ∧
        readOut uthash behind st r =
          readChildOut uthash behind st (.data data) := by
  have hroom := st.buffer.pending_makeRoom
  unfold Round.data readOut
  cases r.out with
  | none => exact Or.inl ⟨rfl, rfl, rfl, Or.inl rfl⟩
  | some result =>
      cases result with
      | failed => exact Or.inl ⟨rfl, rfl, rfl, Or.inr hroom⟩
      | data bytes =>
          cases bytes with
          | nil => exact Or.inl ⟨rfl, rfl, rfl, Or.inr hroom⟩
          | cons b bs =>
              exact Or.inr ⟨b :: bs, List.cons_ne_nil b bs, rfl, rfl⟩

omit uthash behind in
theorem showCounters_buffer (st : State) (r : Round) :
    (showCounters qsort st r).buffer = st.buffer := by
  unfold showCounters
  split <;> rfl

theorem round_buffer (st : State) (r : Round) :
    (round uthash qsort behind st r).1.buffer =
      (readOut uthash behind (showCounters qsort st r) r).1.buffer := by
  unfold round
  dsimp only
  split <;> rfl

theorem round_counters (st : State) (r : Round) :
    (round uthash qsort behind st r).1.counters =
      (readOut uthash behind (showCounters qsort st r) r).1.counters := by
  unfold round
  dsimp only
  split <;> rfl

/-- A pass makes of the buffer what its read makes of it, and what comes later
does not see the difference. -/
theorem round_lines {st : State} {r : Round}
    (h : ∀ data ∈ r.data, data.length ≤ st.buffer.rem) (reads : List Bytes) :
    ((round uthash qsort behind st r).2 ++
        (receiveAll 10 bufSize
          (round uthash qsort behind st r).1.buffer.pending reads).1 =
      (receiveAll 10 bufSize st.buffer.pending (r.data ++ reads)).1) ∧
    (Admits 10 bufSize
        (round uthash qsort behind st r).1.buffer.pending reads →
      Admits 10 bufSize st.buffer.pending (r.data ++ reads)) := by
  have hbuffer := showCounters_buffer qsort st r
  have hlines : (round uthash qsort behind st r).2 =
      (readOut uthash behind (showCounters qsort st r) r).2 := rfl
  rw [round_buffer, hlines]
  rcases readOut_cases uthash behind (showCounters qsort st r) r with
    ⟨hdata, hnone, -, hpending⟩ | ⟨data, hne, hdata, hread⟩
  · rw [hdata, hnone, List.nil_append, List.nil_append]
    rw [hbuffer] at hpending
    obtain ⟨hkept, hadmits⟩ :=
      receiveAll_kept 10 bufSize (by decide) st.buffer.pending reads
    rcases hpending with hsame | hkeeps
    · rw [hsame]
      exact ⟨rfl, id⟩
    · rw [hkeeps]
      exact ⟨hkept, hadmits.mp⟩
  · have hrem := h data (by rw [hdata]; exact List.mem_singleton_self data)
    have hhandled := @readChildOut_handled uthash behind
      (showCounters qsort st r) data hne (by rw [hbuffer]; exact hrem)
    rw [hread, hhandled.lines, hhandled.pending, hbuffer, hdata]
    refine ⟨rfl, fun hadmits => ⟨⟨hne, ?_⟩, hadmits⟩⟩
    rw [← LineBuffer.rem_eq_room]
    exact hrem

/-- The lines that the loop handles are those that its reads complete. -/
theorem mainLoop_lines {st : State} {rounds : List Round}
    (h : FitsLoop uthash qsort behind st rounds) :
    (mainLoop uthash qsort behind st rounds).2 =
        (receiveAll 10 bufSize st.buffer.pending
          (received uthash qsort behind st rounds)).1 ∧
      Admits 10 bufSize st.buffer.pending
        (received uthash qsort behind st rounds) := by
  induction rounds generalizing st with
  | nil => exact ⟨rfl, trivial⟩
  | cons r rounds ih =>
      rw [mainLoop, received]
      by_cases hdone : st.done = true
      · rw [if_pos hdone, if_pos hdone]
        exact ⟨rfl, trivial⟩
      · rw [if_neg hdone, if_neg hdone]
        obtain ⟨hroom, hrest⟩ := h (Bool.eq_false_of_not_eq_true hdone)
        obtain ⟨hlines, hadmits⟩ := ih hrest
        obtain ⟨hround, hround'⟩ := round_lines uthash qsort behind hroom
          (received uthash qsort behind (round uthash qsort behind st r).1
            rounds)
        dsimp only
        rw [hlines]
        exact ⟨hround, hround' hadmits⟩

end Loop

/-! ## The tally -/

/-- What `handle_line` accepts of a line: whether it is a leaf, and its
function. -/
def accepted (line : Bytes) : Option (Bool × Bytes) :=
  (acceptedLine (line ++ [10]) line.length).map fun frame =>
    (decide (frame.1 = 0), frame.2)

/-- The counters, over all intervals, count the frames that are listed: for each
function all of them and those at the leaf, and all leaves together. -/
structure Tallied (c : Counters) (frames : List (Bool × Bytes)) : Prop where
  accounted : Accounted c (frames.map Prod.snd)
  excl : ∀ e ∈ c.funcMap,
    e.totalCountExcl + e.countExcl = frames.count (true, e.func)
  samples : c.totalSampCount + c.sampCount = frames.countP Prod.fst

theorem Tallied.initial : Tallied .initial [] where
  accounted := .initial
  excl := fun _ he => absurd he List.not_mem_nil
  samples := rfl

theorem Tallied.display {c : Counters} {frames : List (Bool × Bytes)}
    (h : Tallied c frames) (qsort : Qsort) :
    Tallied (display qsort c) frames := by
  obtain ⟨hmap, -, hsamp, htotal⟩ := display_eq qsort h.accounted.funcList_perm
  refine ⟨h.accounted.display qsort, ?_, ?_⟩
  · intro e he
    rw [hmap] at he
    obtain ⟨old, hold, rfl⟩ := List.mem_map.mp he
    exact h.excl old hold
  · rw [hsamp, htotal, Nat.add_zero]
    exact h.samples

theorem Tallied.findOrAdd {c : Counters} {frames : List (Bool × Bytes)}
    (h : Tallied c frames) (uthash : Uthash) {func : Bytes}
    (hnul : (0 : UInt8) ∉ func) (hlen : func.length < funcSize) :
    Tallied (c.findOrAdd uthash func).2 frames := by
  refine ⟨(h.accounted.findOrAdd uthash hnul hlen).1, ?_, ?_⟩
  · rw [Counters.findOrAdd]
    cases hfind : uthash.find (c.funcMap.map (·.func)) func with
    | some i => exact h.excl
    | none =>
        have hnew : func ∉ frames.map Prod.snd := fun hmem =>
          uthash.find_none hfind (h.accounted.func_mem func hmem)
        have hzero : frames.count (true, func) = 0 :=
          List.count_eq_zero.mpr fun hmem =>
            hnew (List.mem_map.mpr ⟨_, hmem, rfl⟩)
        intro e he
        rcases List.mem_append.mp he with he | he
        · exact h.excl e he
        · rw [List.mem_singleton.mp he, cstr_take_of_notMem hnul hlen]
          exact hzero.symm
  · rw [Counters.findOrAdd]
    split
    · exact h.samples
    · exact h.samples

theorem Tallied.hit {c : Counters} {frames : List (Bool × Bytes)}
    (h : Tallied c frames) {i : ℕ} {e : FuncEntry}
    (hentry : c.funcMap[i]? = some e) (frameNum : ℕ) :
    Tallied (c.hit frameNum i)
      (frames ++ [(decide (frameNum = 0), e.func)]) := by
  obtain ⟨before, after, hmap, hhit⟩ := Counters.hit_funcMap hentry frameNum
  have haccounted := h.accounted.hit hentry frameNum
  have hnodup := h.accounted.func_nodup
  rw [hmap, List.map_append, List.map_cons, List.nodup_middle,
    List.nodup_cons, ← List.map_append] at hnodup
  refine ⟨?_, ?_, ?_⟩
  · rw [List.map_append]
    exact haccounted
  · rw [hhit]
    intro o ho
    rw [List.count_append, List.count_singleton]
    rw [List.mem_append, List.mem_cons] at ho
    have hcases : o = e.hit frameNum ∨ o ∈ before ++ after := by
      rw [List.mem_append]
      tauto
    rcases hcases with rfl | hother
    · have hold := h.excl e (by rw [hmap]; exact List.mem_append_cons_self)
      rw [show (e.hit frameNum).func = e.func from rfl, ← hold,
        FuncEntry.hit]
      dsimp only
      by_cases hzero : frameNum = 0
      · simp [hzero, Nat.add_assoc]
      · simp [hzero]
    · have hne : e.func ≠ o.func := fun heq =>
        hnodup.1 (heq ▸ List.mem_map_of_mem hother)
      have hmem : o ∈ c.funcMap := by
        rw [hmap, List.mem_append, List.mem_cons]
        rw [List.mem_append] at hother
        tauto
      rw [h.excl o hmem, if_neg (by simp [hne]), Nat.add_zero]
  · rw [List.countP_append, List.countP_singleton, ← h.samples, Counters.hit]
    dsimp only
    by_cases hzero : frameNum = 0
    · simp [hzero, Nat.add_assoc]
    · simp [hzero]

theorem Tallied.countLine {c : Counters} {frames : List (Bool × Bytes)}
    (h : Tallied c frames) (uthash : Uthash) {line : Bytes}
    (hnul : accepted line ≠ none → (0 : UInt8) ∉ line) :
    Tallied (countLine uthash line c)
      (frames ++ (accepted line).toList) := by
  rw [Top.countLine]
  cases hline : acceptedLine (line ++ [10]) line.length with
  | none =>
      rw [handleLine, hline, accepted, hline, Option.map_none,
        Option.toList_none, List.append_nil]
      exact h
  | some frame =>
      obtain ⟨frameNum, func⟩ := frame
      have haccepted : accepted line = some (decide (frameNum = 0), func) := by
        rw [accepted, hline]
        rfl
      have hclean : (0 : UInt8) ∉ (line ++ [10]).take line.length := by
        rw [List.take_left]
        exact hnul (by rw [haccepted]; simp)
      obtain ⟨hfunc, hlen⟩ := acceptedLine_func hclean hline
      obtain ⟨-, e, hentry, rfl⟩ :=
        h.accounted.findOrAdd uthash hfunc hlen
      rw [handleLine_of_accepted uthash hline, haccepted]
      exact (h.findOrAdd uthash hfunc hlen).hit hentry frameNum

theorem Tallied.countLines {c : Counters} {frames : List (Bool × Bytes)}
    (h : Tallied c frames) (uthash : Uthash) {lines : List Bytes}
    (hnul : ∀ line ∈ lines, accepted line ≠ none → (0 : UInt8) ∉ line) :
    Tallied (countLines uthash lines c)
      (frames ++ lines.filterMap accepted) := by
  induction lines generalizing c frames with
  | nil =>
      rw [List.filterMap_nil, List.append_nil]
      exact h
  | cons line lines ih =>
      obtain ⟨hline, hlines⟩ := List.forall_mem_cons.mp hnul
      have hrest := ih (h.countLine uthash hline) hlines
      have hcons : (line :: lines).filterMap accepted =
          (accepted line).toList ++ lines.filterMap accepted := by
        cases haccepted : accepted line <;> simp [haccepted]
      rw [hcons, ← List.append_assoc]
      exact hrest

theorem mainLoop_tallied (uthash : Uthash) (qsort : Qsort)
    (behind : State → Bytes) {st : State} {rounds : List Round}
    (hfits : FitsLoop uthash qsort behind st rounds)
    (hnul : ∀ line ∈ (mainLoop uthash qsort behind st rounds).2,
      accepted line ≠ none → (0 : UInt8) ∉ line)
    {frames : List (Bool × Bytes)} (h : Tallied st.counters frames) :
    Tallied (mainLoop uthash qsort behind st rounds).1.counters
      (frames ++ (mainLoop uthash qsort behind st rounds).2.filterMap
        accepted) := by
  induction rounds generalizing st frames with
  | nil =>
      rw [mainLoop, List.filterMap_nil, List.append_nil]
      exact h
  | cons r rounds ih =>
      rw [mainLoop] at hnul ⊢
      by_cases hdone : st.done = true
      · rw [if_pos hdone, List.filterMap_nil, List.append_nil]
        exact h
      · rw [if_neg hdone] at hnul ⊢
        dsimp only at hnul ⊢
        obtain ⟨hroom, hrest⟩ := hfits (Bool.eq_false_of_not_eq_true hdone)
        rw [List.filterMap_append, ← List.append_assoc]
        refine ih hrest (fun line hline => hnul line ?_) ?_
        · exact List.mem_append_right _ hline
        · have hshown : Tallied (showCounters qsort st r).counters frames := by
            unfold showCounters
            split
            · exact h.display qsort
            · exact h
          have hbuffer := showCounters_buffer qsort st r
          have hlines : (round uthash qsort behind st r).2 =
              (readOut uthash behind (showCounters qsort st r) r).2 := rfl
          rw [round_counters, hlines]
          rw [hlines] at hnul
          rcases readOut_cases uthash behind (showCounters qsort st r) r with
            ⟨-, hnone, hsame, -⟩ | ⟨data, hne, hdata, hread⟩
          · rw [hsame, hnone, List.filterMap_nil, List.append_nil]
            exact hshown
          · have hrem := hroom data
              (by rw [hdata]; exact List.mem_singleton_self data)
            have hhandled := @readChildOut_handled uthash behind
              (showCounters qsort st r) data hne (by rw [hbuffer]; exact hrem)
            rw [hread, hhandled.counters, hhandled.lines]
            rw [hread, hhandled.lines] at hnul
            exact hshown.countLines uthash fun line hline =>
              hnul line (List.mem_append_left _ hline)

end Top
end Phpspy

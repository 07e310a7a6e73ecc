import Phpspy.Callgrind.Digest

/-!
# Which calls are counted

The comment above the handler counts a call when the frame differs from the
frame of the stack before that is as far from the root.  The code compares
frames that are as far from the leaf.
-/

namespace Phpspy

namespace Callgrind

open ByteText FindOrAdd

/-- The location in the stack before that is as far from the root as the frame
at index `i` of `self`.  Stacks are listed leaf first. -/
def fromRoot (prev self : List Bytes) (i : ℕ) : Option Bytes :=
  prev.reverse[self.length - 1 - i]?

/-- Digesting the frame at index `i` increments the count of a call. -/
def CountsFrame (u : Udata) (i : ℕ) (x y : Bytes) : Prop :=
  count (digestLoop u.prev u.callers (u.self.zipIdx.drop i)).2 x y =
    count (digestLoop u.prev u.callers (u.self.zipIdx.drop (i + 1))).2 x y + 1

/-- The rule of the comment: the call of a frame `y` by `x` is counted if the
stack before has no frame as far from the root, or a different one. -/
def FollowsRule (u : Udata) : Prop :=
  let self := u.self.map Slot.str
  let prev := u.prev.map Slot.str
  ∀ i x y, self[i + 1]? = some x → self[i]? = some y →
    (CountsFrame u i x y ↔ fromRoot prev self i ≠ some y)

/-- For every frame but the root, the stack before has the same frame as far
from the leaf if and only if it has the same frame as far from the root. -/
def AlignedAlike (prev self : List Bytes) : Prop :=
  ∀ i y, i + 1 < self.length → self[i]? = some y →
    (prev[i]? = some y ↔ fromRoot prev self i = some y)

theorem looksDifferent_eq_true_iff (prev : List Slot) (slot : Slot) (i : ℕ) :
    looksDifferent prev slot i = true ↔
      (prev.map Slot.str)[i]? ≠ some slot.str := by
  rw [looksDifferent, List.getElem?_map]
  rcases prev[i]? with _ | p
  · simp
  · rw [Option.map_some, bne_iff_ne, ne_eq, ne_eq, Option.some.injEq,
      eq_comm]

/-- The code counts the call of a frame if the stack before has no frame as
far from the leaf, or a different one. -/
theorem countsFrame_iff {u : Udata} {i : ℕ} {x y : Bytes}
    (hx : (u.self.map Slot.str)[i + 1]? = some x)
    (hy : (u.self.map Slot.str)[i]? = some y) :
    CountsFrame u i x y ↔ (u.prev.map Slot.str)[i]? ≠ some y := by
  rw [List.getElem?_map, Option.map_eq_some_iff] at hx hy
  obtain ⟨caller, hcaller, rfl⟩ := hx
  obtain ⟨slot, hslot, rfl⟩ := hy
  have hzip : u.self.zipIdx[i]? = some (slot, i) := by
    rw [List.getElem?_zipIdx, hslot, Option.map_some, Nat.zero_add]
  have hnext : u.self.zipIdx[i + 1]? = some (caller, i + 1) := by
    rw [List.getElem?_zipIdx, hcaller, Option.map_some, Nat.zero_add]
  have hdrop : u.self.zipIdx.drop i =
      (slot, i) :: u.self.zipIdx.drop (i + 1) :=
    List.drop_eq_getElem?_toList_append.trans (by rw [hzip]; rfl)
  have hprev : (digestLoop u.prev u.callers
      (u.self.zipIdx.drop (i + 1))).1 = some caller.str := by
    rw [digestLoop_fst, List.head?_drop, hnext]
    rfl
  have hlinked :=
    digestLoop_linked u.prev u.callers (u.self.zipIdx.drop (i + 1))
  rw [CountsFrame, hdrop, digestLoop_cons, count,
    digestFrame_reading (isCost_count slot.str) hlinked, hprev, ← count,
    ← looksDifferent_eq_true_iff]
  rcases looksDifferent u.prev slot i with _ | _
  · simp
  · simp

theorem followsRule_iff (u : Udata) :
    FollowsRule u ↔
      AlignedAlike (u.prev.map Slot.str) (u.self.map Slot.str) := by
  constructor
  · intro hrule i y hi hy
    obtain ⟨x, hx⟩ : ∃ x, (u.self.map Slot.str)[i + 1]? = some x :=
      ⟨_, List.getElem?_eq_getElem hi⟩
    have hcounts := hrule i x y hx hy
    rw [countsFrame_iff hx hy] at hcounts
    exact not_iff_not.mp hcounts
  · intro haligned i x y hx hy
    obtain ⟨hi, -⟩ := List.getElem?_eq_some_iff.mp hx
    rw [countsFrame_iff hx hy]
    exact not_congr (haligned i y hi hy)

def lastStack (samples : List Sample) : List Bytes :=
  ((samples.filter Sample.completed).getLast?.map Sample.stack).getD []

theorem foldl_digest_prev (callers : Table Bytes Caller)
    (samples : List Sample) :
    (samples.foldl (fun state s => s.digest state) ([], callers)).1.map
      Slot.str = lastStack samples := by
  induction samples using List.reverseRecOn with
  | nil => rfl
  | append_singleton samples s ih =>
      rw [List.foldl_append, List.foldl_cons, List.foldl_nil, Sample.digest,
        lastStack, List.filter_append]
      by_cases hs : s.completed = true
      · rw [if_pos hs, List.filter_cons_of_pos hs, List.filter_nil,
          List.getLast?_concat]
        rfl
      · rw [if_neg hs, List.filter_cons_of_neg hs, List.filter_nil,
          List.append_nil]
        exact ih

theorem runEvents_prev (samples : List Sample) :
    (runEvents init (samples.flatMap Sample.handled)).prev.map Slot.str =
      lastStack samples := by
  have hrun := congrArg Prod.fst (runEvents_samples init samples)
  exact (congrArg (List.map Slot.str) hrun).trans
    (foldl_digest_prev ∅ samples)

/-- In every run, the stack that is about to be digested is counted by the
rule of the comment if and only if comparing from the leaf and comparing from
the root give the same answers for it. -/
theorem digest_followsRule_iff (before : List Sample) (s : Sample) :
    FollowsRule
        (runEvents init
          (before.flatMap Sample.handled ++ .stackBegin :: s.events)) ↔
      AlignedAlike (lastStack before) s.stack := by
  have happend : runEvents init
      (before.flatMap Sample.handled ++ .stackBegin :: s.events) =
      { runEvents init (before.flatMap Sample.handled) with
        self := s.slots } := by
    rw [← runEvents_sample_open]
    exact List.foldl_append
  rw [happend, followsRule_iff, ← runEvents_prev before]
  rfl

/-! ## One more call on top -/

def plainLoc (func : String) : TraceLoc where
  func := lit func
  cls := []
  file := lit "f"
  lineno := 1

/-- A complete sample of the named functions, leaf first. -/
def sampleOf (funcs : List String) : Sample where
  events := funcs.zipIdx.map fun p =>
    .frame
      { loc := plainLoc p.1
        depth := p.2 }
  ended := some ([], 1)
  isRecord := by
    intro e he
    obtain ⟨p, -, rfl⟩ := List.mem_map.mp he
    rfl

/-- When a stack grows by one call, the calls below it are counted again. -/
theorem grown_stack_breaks_rule :
    let before := [sampleOf ["c", "b", "a", "main"]]
    let s := sampleOf ["d", "c", "b", "a", "main"]
    ¬ FollowsRule
        (runEvents init
          (before.flatMap Sample.handled ++ .stackBegin :: s.events)) ∧
      fromRoot (lastStack before) s.stack 1 = some (lit "c f:1") ∧
      count
        (runEvents init ((before ++ [s]).flatMap Sample.handled)).callers
        (lit "b f:1") (lit "c f:1") = 2 := by
  refine ⟨?_, by decide, by decide⟩
  intro hrule
  have haligned := (followsRule_iff _).mp hrule
  have hcounts := haligned 1 (lit "c f:1") (by decide) (by decide)
  exact absurd hcounts (by decide)

end Callgrind

end Phpspy

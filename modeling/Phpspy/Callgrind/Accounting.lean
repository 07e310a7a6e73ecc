import Phpspy.Callgrind.Digest

/-!
# What the costs in the table are

Over a run, the exclusive cost of a location counts the complete stacks with
that leaf, and the inclusive cost of a call counts the adjacent pairs of frames
in complete stacks.
-/

namespace Phpspy

namespace Callgrind

open ByteText FindOrAdd

/-- The calls in a stack that is listed leaf first: each frame with the frame
that it calls. -/
def calls (stack : List Bytes) : List (Bytes × Bytes) :=
  stack.tail.zip stack

/-! ## The charges of one stack -/

theorem head?_zipIdx_str (slots : List Slot) (n : ℕ) :
    (slots.zipIdx n).head?.map (·.1.str) = (slots.map Slot.str).head? := by
  cases slots with
  | nil => rfl
  | cons slot slots => rfl

theorem charge_of_pos {prev : List Slot} {leaf : ℕ} {x : Bytes}
    (slots : List Slot) {n : ℕ} (hn : 0 < n) :
    charge prev leaf (fun _ _ => 0) x (slots.zipIdx n) = 0 := by
  induction slots generalizing n with
  | nil => rfl
  | cons slot slots ih =>
      rw [List.zipIdx_cons, charge, ih (Nat.succ_pos n)]
      simp [hn.ne']

theorem charge_exclusive (prev : List Slot) (x : Bytes)
    (slots : List Slot) :
    charge prev 1 (fun _ _ => 0) x slots.zipIdx =
      if (slots.map Slot.str).head? = some x then 1 else 0 := by
  cases slots with
  | nil => rfl
  | cons slot slots =>
      rw [List.zipIdx_cons, charge, charge_of_pos slots (Nat.succ_pos 0)]
      simp [eq_comm]

theorem charge_inclusive (prev : List Slot) (x y : Bytes)
    (slots : List Slot) (n : ℕ) :
    charge prev 0 (fun s _ => if y = s then 1 else 0) x (slots.zipIdx n) =
      (calls (slots.map Slot.str)).count (x, y) := by
  induction slots generalizing n with
  | nil => rfl
  | cons slot slots ih =>
      rw [List.zipIdx_cons, charge, ih, head?_zipIdx_str]
      cases slots with
      | nil => simp [calls]
      | cons up slots =>
          simp only [calls, List.map_cons, List.tail_cons, List.zip_cons_cons,
            List.head?_cons, Option.some.injEq, List.count_cons,
            Prod.mk.injEq, ite_self, Nat.add_zero, beq_iff_eq]
          by_cases hx : up.str = x
          · simp [hx, eq_comm]
          · simp [hx]

theorem charge_total (prev : List Slot) (x : Bytes) (slots : List Slot)
    (n : ℕ) :
    charge prev 0 (fun _ _ => 1) x (slots.zipIdx n) =
      (slots.map Slot.str).tail.count x := by
  induction slots generalizing n with
  | nil => rfl
  | cons slot slots ih =>
      rw [List.zipIdx_cons, charge, ih, head?_zipIdx_str]
      cases slots with
      | nil => simp
      | cons up slots => simp [List.count_cons]

theorem charge_count_le (prev : List Slot) (x y : Bytes)
    (frames : List (Slot × ℕ)) :
    charge prev 0
        (fun s differs => if y = s then (if differs then 1 else 0) else 0)
        x frames ≤
      charge prev 0 (fun s _ => if y = s then 1 else 0) x frames := by
  induction frames with
  | nil => exact le_rfl
  | cons frame frames ih =>
      obtain ⟨slot, i⟩ := frame
      rw [charge, charge]
      refine Nat.add_le_add (Nat.add_le_add_right ih _) ?_
      split
      · split
        · split
          · exact le_rfl
          · exact Nat.zero_le 1
        · exact le_rfl
      · exact le_rfl

/-! ## Runs -/

/-- A cost that does not look at the stack before adds up over the complete
samples. -/
theorem foldl_digest_reading {g : Caller → ℕ} {leaf : ℕ}
    {call : Bytes → Bool → ℕ} (hg : IsCost g leaf call) {x : Bytes}
    {cost : Sample → ℕ}
    (hcost : ∀ prev s, charge prev leaf call x s.slots.zipIdx = cost s)
    (samples : List Sample) (state : List Slot × Table Bytes Caller) :
    reading g (samples.foldl (fun state s => s.digest state) state).2 x =
      reading g state.2 x +
        ((samples.filter Sample.completed).map cost).sum := by
  induction samples generalizing state with
  | nil => rfl
  | cons s samples ih =>
      rw [List.foldl_cons, ih, Sample.digest]
      by_cases hs : s.completed = true
      · rw [if_pos hs, List.filter_cons_of_pos hs, List.map_cons,
          List.sum_cons, digestLoop_reading hg, hcost, Nat.add_assoc]
      · rw [if_neg hs, List.filter_cons_of_neg hs]

theorem foldl_digest_count_le (x y : Bytes) (samples : List Sample)
    (state : List Slot × Table Bytes Caller)
    (h : count state.2 x y ≤ inclusive state.2 x y) :
    count (samples.foldl (fun state s => s.digest state) state).2 x y ≤
      inclusive (samples.foldl (fun state s => s.digest state) state).2
        x y := by
  induction samples generalizing state with
  | nil => exact h
  | cons s samples ih =>
      rw [List.foldl_cons]
      apply ih
      rw [Sample.digest]
      by_cases hs : s.completed = true
      · rw [if_pos hs, count, inclusive,
          digestLoop_reading (isCost_count y),
          digestLoop_reading (isCost_inclusive y)]
        exact Nat.add_le_add h (charge_count_le _ x y _)
      · rwa [if_neg hs]

theorem foldl_digest_filter (samples : List Sample)
    (state : List Slot × Table Bytes Caller) :
    samples.foldl (fun state s => s.digest state) state =
      (samples.filter Sample.completed).foldl
        (fun state s => s.digest state) state := by
  induction samples generalizing state with
  | nil => rfl
  | cons s samples ih =>
      by_cases hs : s.completed = true
      · rw [List.filter_cons_of_pos hs, List.foldl_cons, List.foldl_cons, ih]
      · rw [List.filter_cons_of_neg hs, List.foldl_cons, Sample.digest,
          if_neg hs, ih]

def tableAfter (samples : List Sample) : Table Bytes Caller :=
  (runEvents init (samples.flatMap Sample.handled)).callers

theorem tableAfter_eq (samples : List Sample) :
    tableAfter samples =
      (samples.foldl (fun state s => s.digest state) ([], ∅)).2 :=
  congrArg Prod.snd (runEvents_samples init samples)

theorem sum_leaf_eq_countP (samples : List Sample) (x : Bytes) :
    (samples.map fun s => if s.stack.head? = some x then 1 else 0).sum =
      samples.countP fun s => s.stack.head? = some x := by
  induction samples with
  | nil => rfl
  | cons s samples ih =>
      rw [List.map_cons, List.sum_cons, ih, List.countP_cons, Nat.add_comm]
      simp only [decide_eq_true_eq]

theorem exclusive_tableAfter (samples : List Sample) (x : Bytes) :
    exclusive (tableAfter samples) x =
      (samples.filter Sample.completed).countP
        fun s => s.stack.head? = some x := by
  rw [tableAfter_eq, exclusive,
    foldl_digest_reading isCost_exclusive
      (fun prev s => charge_exclusive prev x s.slots),
    reading_empty, Nat.zero_add]
  exact sum_leaf_eq_countP _ x

theorem inclusive_tableAfter (samples : List Sample) (x y : Bytes) :
    inclusive (tableAfter samples) x y =
      ((samples.filter Sample.completed).map
        fun s => (calls s.stack).count (x, y)).sum := by
  rw [tableAfter_eq, inclusive,
    foldl_digest_reading (isCost_inclusive y)
      (fun prev s => charge_inclusive prev x y s.slots 0),
    reading_empty, Nat.zero_add]
  rfl

/-- The inclusive costs of the callees of a location add up to the frames at
that location that are not leaves. -/
theorem sum_inclusive_tableAfter (samples : List Sample) (x : Bytes) :
    ((calleesOf (tableAfter samples) x).map
        (inclusive (tableAfter samples) x)).sum =
      ((samples.filter Sample.completed).map
        fun s => s.stack.tail.count x).sum := by
  have htotal : ((calleesOf (tableAfter samples) x).map
      (inclusive (tableAfter samples) x)).sum =
      reading (fun c => total Callee.inclusive c.callees)
        (tableAfter samples) x := by
    unfold calleesOf inclusive reading
    rcases (tableAfter samples).lookup x with _ | c
    · rfl
    · exact (total_eq_sum_reading Callee.inclusive c.callees).symm
  rw [htotal, tableAfter_eq,
    foldl_digest_reading isCost_total_inclusive
      (fun prev s => charge_total prev x s.slots 0),
    reading_empty, Nat.zero_add]
  rfl

theorem count_eq_head_add_tail (stack : List Bytes) (x : Bytes) :
    stack.count x =
      (if stack.head? = some x then 1 else 0) + stack.tail.count x := by
  cases stack with
  | nil => rfl
  | cons y stack =>
      rw [List.count_cons, Nat.add_comm]
      simp

/-- The costs in the table after any run of samples. -/
theorem tableAfter_costs (samples : List Sample) :
    let complete := samples.filter Sample.completed
    let table := tableAfter samples
    (∀ x, exclusive table x =
      complete.countP fun s => s.stack.head? = some x) ∧
      (∀ x y, inclusive table x y =
        (complete.map fun s => (calls s.stack).count (x, y)).sum) ∧
      (∀ x, exclusive table x +
          ((calleesOf table x).map (inclusive table x)).sum =
        (complete.map fun s => s.stack.count x).sum) ∧
      (∀ x y, count table x y ≤ inclusive table x y) ∧
      table = tableAfter complete ∧
      ∀ reordered : List Sample, reordered.Perm samples → ∀ x y,
        exclusive (tableAfter reordered) x = exclusive table x ∧
          inclusive (tableAfter reordered) x y = inclusive table x y := by
  intro complete table
  refine ⟨exclusive_tableAfter samples, inclusive_tableAfter samples,
    ?_, ?_, ?_, ?_⟩
  · intro x
    rw [exclusive_tableAfter, sum_inclusive_tableAfter,
      ← sum_leaf_eq_countP, ← List.sum_map_add]
    congr 1
    exact List.map_congr_left fun s _ =>
      (count_eq_head_add_tail s.stack x).symm
  · intro x y
    rw [show table = _ from tableAfter_eq samples]
    exact foldl_digest_count_le x y samples ([], ∅)
      (le_of_eq ((reading_empty _ x).trans (reading_empty _ x).symm))
  · rw [show table = _ from tableAfter_eq samples, tableAfter_eq,
      foldl_digest_filter]
  · intro reordered hperm x y
    have hcomplete : (reordered.filter Sample.completed).Perm complete :=
      hperm.filter Sample.completed
    rw [exclusive_tableAfter, exclusive_tableAfter, inclusive_tableAfter,
      inclusive_tableAfter]
    exact ⟨hcomplete.countP_eq _, (hcomplete.map _).sum_eq⟩

end Callgrind

end Phpspy

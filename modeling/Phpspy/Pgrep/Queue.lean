import Mathlib.Data.List.FinRange
import Phpspy.Support.Dispatch

/-!
# The queue of pids

In pgrep mode the producer puts pids into `avail_pids`, and each worker moves
one from there to its own place in `attached_pids`.  The arrays stand for a
board of jobs: every operation on them is an operation on the board.
-/

namespace Phpspy

namespace Pgrep

open Dispatch

/-- The arrays `avail_pids` and `attached_pids`, where zero means no pid.
`ticket`, `issued` and `taken` number the insertions and are read by no
thread. -/
structure Queue (T : ℕ) where
  availPids : ℤ → ℕ
  availPidsCount : ℤ
  attachedPids : Fin T → ℕ
  ticket : ℤ → ℕ
  issued : ℕ
  taken : List ℕ

namespace Queue

variable {T : ℕ}

def empty : Queue T :=
  { availPids := fun _ => 0
    availPidsCount := 0
    attachedPids := fun _ => 0
    ticket := fun _ => 0
    issued := 0
    taken := [] }

/-- `is_already_attached` -/
def isAlreadyAttached (q : Queue T) (pid : ℕ) : Bool :=
  (List.finRange T).any fun i =>
    q.attachedPids i == pid ||
      (decide ((i : ℤ) < q.availPidsCount) && q.availPids i == pid)

/-- `avail_pids[avail_pids_count++] = pid` -/
def insert (q : Queue T) (pid : ℕ) : Queue T :=
  { q with
    availPids := Function.update q.availPids q.availPidsCount pid
    availPidsCount := q.availPidsCount + 1
    ticket := Function.update q.ticket q.availPidsCount q.issued
    issued := q.issued + 1 }

/-- `attached_pids[w] = avail_pids[--avail_pids_count]` -/
def take (q : Queue T) (w : Fin T) : Queue T :=
  { q with
    availPidsCount := q.availPidsCount - 1
    attachedPids :=
      Function.update q.attachedPids w (q.availPids (q.availPidsCount - 1))
    taken := q.ticket (q.availPidsCount - 1) :: q.taken }

/-- `attached_pids[w] = 0` -/
def clear (q : Queue T) (w : Fin T) : Queue T :=
  { q with attachedPids := Function.update q.attachedPids w 0 }

/-! ## The board behind the arrays -/

/-- Zero means no pid. -/
def present (pid : ℕ) : Option ℕ :=
  if pid = 0 then none else some pid

/-- The last pid of `avail_pids` is on top of the stack. -/
def board (q : Queue T) : Board (Fin T) ℕ :=
  { pending :=
      (List.range q.availPidsCount.toNat).reverse.map fun i : ℕ =>
        ⟨q.availPids i, q.ticket i⟩
    running := fun w => present (q.attachedPids w)
    issued := q.issued
    taken := q.taken }

theorem mem_board_pending {q : Queue T} {j : Job ℕ} :
    j ∈ q.board.pending ↔
      ∃ i : ℕ, (i : ℤ) < q.availPidsCount ∧
        j = ⟨q.availPids i, q.ticket i⟩ := by
  simp only [board, List.mem_map, List.mem_reverse, List.mem_range,
    Int.lt_toNat]
  constructor
  · rintro ⟨i, hi, hj⟩
    exact ⟨i, hi, hj.symm⟩
  · rintro ⟨i, hi, hj⟩
    exact ⟨i, hi, hj.symm⟩

theorem board_running_eq_some {q : Queue T} {w : Fin T} {pid : ℕ} :
    q.board.running w = some pid ↔ q.attachedPids w = pid ∧ pid ≠ 0 := by
  change present (q.attachedPids w) = some pid ↔ _
  unfold present
  constructor
  · intro h
    split at h
    · cases h
    · exact ⟨Option.some.inj h, Option.some.inj h ▸ ‹_›⟩
  · rintro ⟨rfl, hne⟩
    exact if_neg hne

theorem board_insert {q : Queue T} (hcount : 0 ≤ q.availPidsCount)
    (pid : ℕ) : (q.insert pid).board = q.board.push pid := by
  obtain ⟨n, hn⟩ := Int.eq_ofNat_of_zero_le hcount
  have hsucc : ((n : ℤ) + 1).toNat = n + 1 := by omega
  have hold : ∀ i ∈ (List.range n).reverse, (i : ℤ) ≠ n := by
    intro i hi
    have := List.mem_range.mp (List.mem_reverse.mp hi)
    omega
  simp only [board, insert, Board.push, hn, hsucc, Int.toNat_natCast,
    List.range_succ, List.reverse_append, List.reverse_singleton,
    List.singleton_append, List.map_cons, Function.update_self]
  congr 2
  refine List.map_congr_left fun i hi => ?_
  rw [Function.update_of_ne (hold i hi), Function.update_of_ne (hold i hi)]

theorem board_take {q : Queue T} (hcount : 0 < q.availPidsCount)
    (hpid : q.availPids (q.availPidsCount - 1) ≠ 0) (w : Fin T) :
    (q.take w).board = q.board.pop w := by
  obtain ⟨n, hn⟩ : ∃ n : ℕ, q.availPidsCount = n + 1 :=
    ⟨(q.availPidsCount - 1).toNat, by omega⟩
  have hsucc : ((n : ℤ) + 1).toNat = n + 1 := by omega
  have hpred : (n : ℤ) + 1 - 1 = n := by omega
  rw [hn, hpred] at hpid
  have hpending : q.board.pending =
      ⟨q.availPids n, q.ticket n⟩ ::
        (List.range n).reverse.map fun i : ℕ =>
          (⟨q.availPids i, q.ticket i⟩ : Job ℕ) := by
    simp only [board, hn, hsucc, List.range_succ, List.reverse_append,
      List.reverse_singleton, List.singleton_append, List.map_cons]
  rw [Board.pop_eq hpending]
  simp only [board, take, hn, hpred, Int.toNat_natCast]
  congr 1
  funext w'
  by_cases hw : w' = w
  · subst hw
    rw [Function.update_self, Function.update_self]
    exact if_neg hpid
  · rw [Function.update_of_ne hw, Function.update_of_ne hw]

theorem board_clear (q : Queue T) (w : Fin T) :
    (q.clear w).board = q.board.finish w := by
  simp only [board, clear, Board.finish]
  congr 1
  funext w'
  by_cases hw : w' = w
  · subst hw
    rw [Function.update_self, Function.update_self]
    rfl
  · rw [Function.update_of_ne hw, Function.update_of_ne hw]

/-- The scan of both arrays finds every pid that the board holds. -/
theorem not_holds_of_not_isAlreadyAttached {q : Queue T}
    (hcount : q.availPidsCount ≤ T) {pid : ℕ}
    (h : q.isAlreadyAttached pid = false) : ¬ q.board.Holds pid := by
  rw [isAlreadyAttached, List.any_eq_false] at h
  rintro (⟨j, hj, hkey⟩ | ⟨w, hw⟩)
  · obtain ⟨i, hi, rfl⟩ := mem_board_pending.mp hj
    have hiT : i < T := by omega
    apply h ⟨i, hiT⟩ (List.mem_finRange _)
    simp only [hi, decide_true, Bool.true_and, Bool.or_eq_true, beq_iff_eq]
    exact Or.inr hkey
  · apply h w (List.mem_finRange w)
    simp only [(board_running_eq_some.mp hw).1, beq_self_eq_true,
      Bool.true_or]

/-! ## Well-formed queues -/

/-- The count is within the array, and the board has each pid once. -/
structure Ok (q : Queue T) : Prop where
  count_nonneg : 0 ≤ q.availPidsCount
  count_le : q.availPidsCount ≤ T
  nonzero : ∀ i : ℕ, (i : ℤ) < q.availPidsCount → q.availPids i ≠ 0
  valid : q.board.Valid

theorem Ok.empty : (Queue.empty : Queue T).Ok where
  count_nonneg := le_rfl
  count_le := Int.natCast_nonneg T
  nonzero := fun i hi => absurd hi (Int.not_lt.mpr (Int.natCast_nonneg i))
  valid :=
    { keys := List.nodup_nil
      apart := fun j hj => absurd hj List.not_mem_nil
      workers := fun w w' k h => by cases h
      tickets := List.nodup_nil
      issued := fun t ht => absurd ht List.not_mem_nil }

theorem Ok.insert {q : Queue T} (h : q.Ok) {pid : ℕ} (hpid : 0 < pid)
    (hroom : q.availPidsCount < T)
    (hfresh : q.isAlreadyAttached pid = false) : (q.insert pid).Ok where
  count_nonneg := Int.le_add_one h.count_nonneg
  count_le := hroom
  nonzero := by
    intro i hi
    simp only [Queue.insert, Function.update_apply] at hi ⊢
    split
    · exact hpid.ne'
    · exact h.nonzero i (by omega)
  valid := by
    rw [board_insert h.count_nonneg]
    exact h.valid.push (not_holds_of_not_isAlreadyAttached h.count_le hfresh)

theorem Ok.lastPid_ne_zero {q : Queue T} (h : q.Ok)
    (hcount : 0 < q.availPidsCount) :
    q.availPids (q.availPidsCount - 1) ≠ 0 := by
  obtain ⟨n, hn⟩ := Int.eq_ofNat_of_zero_le (Int.le_sub_one_of_lt hcount)
  rw [hn]
  exact h.nonzero n (by omega)

theorem Ok.take {q : Queue T} (h : q.Ok) (hcount : 0 < q.availPidsCount)
    (w : Fin T) : (q.take w).Ok where
  count_nonneg := Int.le_sub_one_of_lt hcount
  count_le := (Int.sub_le_self _ (by decide)).trans h.count_le
  nonzero := by
    intro i hi
    simp only [Queue.take] at hi ⊢
    exact h.nonzero i (by omega)
  valid := by
    rw [board_take hcount (h.lastPid_ne_zero hcount)]
    exact h.valid.pop w

theorem Ok.clear {q : Queue T} (h : q.Ok) (w : Fin T) : (q.clear w).Ok where
  count_nonneg := h.count_nonneg
  count_le := h.count_le
  nonzero := h.nonzero
  valid := by
    rw [board_clear]
    exact h.valid.finish w

/-- The pids in `attached_pids`, and those in the used part of `avail_pids`. -/
def heldPids (q : Queue T) : List ℕ :=
  ((List.finRange T).map q.attachedPids).filter (· ≠ 0) ++
    (List.range q.availPidsCount.toNat).map fun i : ℕ => q.availPids i

theorem Ok.heldPids_nodup {q : Queue T} (h : q.Ok) : q.heldPids.Nodup := by
  have hrunning : ∀ w, q.attachedPids w ≠ 0 →
      q.board.running w = some (q.attachedPids w) :=
    fun w hw => board_running_eq_some.mpr ⟨rfl, hw⟩
  refine List.nodup_append.mpr ⟨?_, ?_, ?_⟩
  · rw [List.Nodup, List.pairwise_filter, List.pairwise_map]
    refine (List.nodup_finRange T).imp fun {w w'} hne hw hw' heq => ?_
    simp only [ne_eq, decide_eq_true_eq] at hw hw'
    refine hne (h.valid.workers w w' _ (hrunning w hw) ?_)
    rw [heq]
    exact hrunning w' hw'
  · have hkeys := h.valid.keys
    simp only [board, List.map_map] at hkeys
    rw [← List.nodup_reverse, ← List.map_reverse]
    exact hkeys
  · intro pid hattached pid' havail heq
    obtain ⟨hmap, hne⟩ := List.mem_filter.mp hattached
    obtain ⟨w, -, rfl⟩ := List.mem_map.mp hmap
    obtain ⟨i, hi, rfl⟩ := List.mem_map.mp havail
    have hpending : (⟨q.availPids i, q.ticket i⟩ : Job ℕ) ∈
        q.board.pending :=
      mem_board_pending.mpr ⟨i, Int.lt_toNat.mp (List.mem_range.mp hi), rfl⟩
    apply h.valid.apart _ hpending w
    rw [← heq]
    exact hrunning w (of_decide_eq_true hne)

end Queue

end Pgrep

end Phpspy

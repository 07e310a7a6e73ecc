import Mathlib.Data.List.Range

/-!
# Keeping both ends of a list

A list that is too long is cut down to its first `m` and its last `n` elements.
What is left out in the middle is replaced by one marker that knows how many
elements it stands for.
-/

namespace KeepEnds

variable {α β : Type*}

/-- The first `m` and the last `n` elements, with a marker between them when
something is left out. -/
def keepEnds (m n : ℕ) (marker : ℕ → α) (xs : List α) : List α :=
  if xs.length ≤ m + n then xs
  else
    xs.take m ++ marker (xs.length - (m + n)) :: xs.drop (xs.length - n)

theorem keepEnds_of_le {m n : ℕ} {marker : ℕ → α} {xs : List α}
    (h : xs.length ≤ m + n) : keepEnds m n marker xs = xs :=
  if_pos h

theorem keepEnds_of_lt {m n : ℕ} {marker : ℕ → α} {xs : List α}
    (h : m + n < xs.length) :
    keepEnds m n marker xs =
      xs.take m ++
        marker (xs.length - (m + n)) :: xs.drop (xs.length - n) :=
  if_neg (Nat.not_le.mpr h)

theorem map_keepEnds (f : α → β) (m n : ℕ) (marker : ℕ → α) (xs : List α) :
    (keepEnds m n marker xs).map f =
      keepEnds m n (fun k => f (marker k)) (xs.map f) := by
  unfold keepEnds
  by_cases h : xs.length ≤ m + n
  · rw [if_pos h, if_pos (by rwa [List.length_map])]
  · rw [if_neg h, if_neg (by rwa [List.length_map])]
    simp only [List.map_append, List.map_cons, List.map_take, List.map_drop,
      List.length_map]

theorem length_keepEnds_of_lt {m n : ℕ} {marker : ℕ → α} {xs : List α}
    (h : m + n < xs.length) :
    (keepEnds m n marker xs).length = m + n + 1 := by
  rw [keepEnds_of_lt h]
  simp only [List.length_append, List.length_cons, List.length_take,
    List.length_drop]
  omega

/-- Positions stay in order when the marker has the position of the first
element that it replaces. -/
theorem keepEnds_range_pairwise (m n total : ℕ) :
    (keepEnds m n (fun _ => m) (List.range total)).Pairwise (· < ·) := by
  by_cases h : total ≤ m + n
  · rw [keepEnds_of_le (by rwa [List.length_range])]
    exact List.pairwise_lt_range
  · have hlt : m + n < (List.range total).length := by
      rw [List.length_range]
      exact Nat.not_le.mp h
    rw [keepEnds_of_lt hlt, List.length_range]
    have hafter : ∀ x ∈ (List.range total).drop (total - n), m < x := by
      intro x hx
      obtain ⟨i, hi, rfl⟩ := List.mem_iff_getElem.mp hx
      rw [List.getElem_drop, List.getElem_range]
      omega
    refine List.pairwise_append.mpr ⟨List.pairwise_lt_range.take, ?_, ?_⟩
    · exact List.pairwise_cons.mpr ⟨hafter, List.pairwise_lt_range.drop⟩
    · intro x hx y hy
      have hxm : x < m := by
        rw [List.take_range, List.mem_range] at hx
        exact lt_of_lt_of_le hx (min_le_left m total)
      rcases List.mem_cons.mp hy with rfl | hy
      · exact hxm
      · exact hxm.trans (hafter y hy)

end KeepEnds

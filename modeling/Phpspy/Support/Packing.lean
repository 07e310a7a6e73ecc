import Mathlib.Algebra.BigOperators.Group.List.Basic
import Mathlib.Algebra.Ring.Nat
import Mathlib.Tactic.Common

/-!
# Greedy packing of weighted items

Items are put into numbered boxes in order.  Box `k` holds total weight at
most `cap k`, every box takes as many of the remaining items as fit, and
packing stops at the first item that does not fit into an empty box.  The
capacity may change from box to box.
-/

namespace GreedyPacking

variable {α : Type*} (weight : α → ℕ)

def total (xs : List α) : ℕ :=
  (xs.map weight).sum

@[simp] theorem total_nil : total weight [] = 0 := rfl

@[simp] theorem total_cons (x : α) (xs : List α) :
    total weight (x :: xs) = weight x + total weight xs := by
  simp [total]

/-! ## The longest prefix that fits -/

/-- How many leading items fit into `room`. -/
def fit (room : ℕ) : List α → ℕ
  | [] => 0
  | x :: xs =>
      if weight x ≤ room then fit (room - weight x) xs + 1 else 0

theorem fit_le_length (room : ℕ) (xs : List α) :
    fit weight room xs ≤ xs.length := by
  induction xs generalizing room with
  | nil => simp [fit]
  | cons x xs ih =>
      simp only [fit]
      split
      · simpa using ih (room - weight x)
      · simp

theorem total_take_fit_le (room : ℕ) (xs : List α) :
    total weight (xs.take (fit weight room xs)) ≤ room := by
  induction xs generalizing room with
  | nil => simp [fit]
  | cons x xs ih =>
      simp only [fit]
      split
      · next hx =>
        have htail := ih (room - weight x)
        rw [List.take_succ_cons, total_cons]
        omega
      · simp

theorem lt_total_take_fit_add
    {room : ℕ} {xs rest : List α} {y : α}
    (hdrop : xs.drop (fit weight room xs) = y :: rest) :
    room < total weight (xs.take (fit weight room xs)) + weight y := by
  induction xs generalizing room with
  | nil => simp at hdrop
  | cons x xs ih =>
      by_cases hx : weight x ≤ room
      · simp only [fit, hx, if_true, List.drop_succ_cons] at hdrop
        have htail := ih hdrop
        simp only [fit, hx, if_true, List.take_succ_cons, total_cons]
        omega
      · simp only [fit, hx, if_false, List.drop_zero, List.cons.injEq] at hdrop
        obtain ⟨rfl, -⟩ := hdrop
        simp only [fit, hx, if_false, List.take_zero, total_nil]
        omega

theorem length_le_fit (room : ℕ) {xs ys : List α} (hpre : ys <+: xs)
    (h : total weight ys ≤ room) : ys.length ≤ fit weight room xs := by
  induction xs generalizing room ys with
  | nil =>
      rw [List.prefix_nil.mp hpre]
      simp
  | cons x xs ih =>
      cases ys with
      | nil => simp
      | cons y ys =>
          obtain ⟨rfl, htail⟩ := List.cons_prefix_cons.mp hpre
          rw [total_cons] at h
          have hy : weight y ≤ room := by omega
          have hle := @ih (room - weight y) ys htail (by omega)
          simp only [fit, hy, if_true, List.length_cons]
          omega

theorem fit_eq_length {room : ℕ} {xs : List α}
    (h : total weight xs ≤ room) :
    fit weight room xs = xs.length := by
  induction xs generalizing room with
  | nil => rfl
  | cons x xs ih =>
      rw [total_cons] at h
      have hx : weight x ≤ room := by omega
      simp only [fit, hx, if_true, List.length_cons]
      rw [ih (by omega)]

theorem fit_eq_length_iff (room : ℕ) (xs : List α) :
    fit weight room xs = xs.length ↔ total weight xs ≤ room := by
  constructor
  · intro h
    have hle := total_take_fit_le weight room xs
    rwa [h, List.take_length] at hle
  · exact fit_eq_length weight

/-- A prefix that fits exactly is not changed by what follows it, once one
item has been refused. -/
theorem fit_append_of_lt {room : ℕ} {xs : List α} (ys : List α)
    (h : fit weight room xs < xs.length) :
    fit weight room (xs ++ ys) = fit weight room xs := by
  induction xs generalizing room with
  | nil => simp at h
  | cons x xs ih =>
      by_cases hx : weight x ≤ room
      · simp only [fit, hx, if_true, List.length_cons] at h
        simp only [List.cons_append, fit, hx, if_true]
        rw [ih (by omega)]
      · simp [fit, hx]

theorem fit_append_singleton {room : ℕ} {xs : List α} (y : α)
    (h : total weight xs ≤ room) :
    fit weight room (xs ++ [y]) =
      if total weight xs + weight y ≤ room
      then xs.length + 1 else xs.length := by
  induction xs generalizing room with
  | nil => simp [fit]
  | cons x xs ih =>
      rw [total_cons] at h
      have hx : weight x ≤ room := by omega
      simp only [List.cons_append, fit, hx, if_true, total_cons,
        List.length_cons]
      rw [ih (by omega)]
      by_cases hy : weight x + total weight xs + weight y ≤ room
      · rw [if_pos hy, if_pos (by omega)]
      · rw [if_neg hy, if_neg (by omega)]

theorem fit_map {β : Type*} (f : β → α) (room : ℕ) (xs : List β) :
    fit weight room (xs.map f) = fit (fun x => weight (f x)) room xs := by
  induction xs generalizing room with
  | nil => rfl
  | cons x xs ih => simp only [List.map_cons, fit, ih]

/-! ## Packing box after box -/

section Boxes

variable (cap : ℕ → ℕ)

/-- Fill box `k` and the boxes after it; the second component holds the items
left over when an item does not fit into an empty box. -/
def pack (k : ℕ) (xs : List α) : List (List α) × List α :=
  if 0 < fit weight (cap k) xs then
    let tail := pack (k + 1) (xs.drop (fit weight (cap k) xs))
    (xs.take (fit weight (cap k) xs) :: tail.1, tail.2)
  else ([], xs)
termination_by xs.length
decreasing_by
  have hle := fit_le_length weight (cap k) xs
  rw [List.length_drop]
  omega

/-- The specification of a greedy packing of `xs` into `boxes`, starting at
box number `k` and leaving `rest` out. -/
structure IsGreedy (k : ℕ) (xs : List α)
    (boxes : List (List α)) (rest : List α) : Prop where
  /-- The boxes hold consecutive items, in order, and `rest` is what follows. -/
  consecutive : boxes.flatten ++ rest = xs
  /-- No box is empty. -/
  nonempty : ∀ box ∈ boxes, box ≠ []
  /-- Every box keeps to its own capacity. -/
  fits : ∀ i box, boxes[i]? = some box → total weight box ≤ cap (k + i)
  /-- The first item of the next box would have overfilled the box. -/
  full : ∀ i box y ys, boxes[i]? = some box →
    (boxes.drop (i + 1)).flatten ++ rest = y :: ys →
      cap (k + i) < total weight box + weight y
  /-- Items are left over only when the first of them does not fit into the
  next, still empty, box. -/
  stops : ∀ y ys, rest = y :: ys → cap (k + boxes.length) < weight y

theorem pack_isGreedy (k : ℕ) (xs : List α) :
    IsGreedy weight cap k xs (pack weight cap k xs).1
      (pack weight cap k xs).2 := by
  induction k, xs using pack.induct weight cap with
  | case1 k xs hfit ih =>
      rw [pack, if_pos hfit]
      refine ⟨?_, ?_, ?_, ?_, ?_⟩
      · rw [List.flatten_cons, List.append_assoc, ih.consecutive,
          List.take_append_drop]
      · intro box hbox
        rcases List.mem_cons.mp hbox with rfl | hmem
        · intro hnil
          have hlen := congrArg List.length hnil
          rw [List.length_take, List.length_nil] at hlen
          have hle := fit_le_length weight (cap k) xs
          omega
        · exact ih.nonempty box hmem
      · intro i box hbox
        cases i with
        | zero =>
            rw [List.getElem?_cons_zero, Option.some.injEq] at hbox
            subst box
            exact total_take_fit_le weight (cap k) xs
        | succ i =>
            have h := ih.fits i box (by simpa using hbox)
            rwa [Nat.add_assoc, Nat.add_comm 1 i] at h
      · intro i box y ys hbox hnext
        cases i with
        | zero =>
            rw [List.getElem?_cons_zero, Option.some.injEq] at hbox
            subst box
            rw [List.drop_succ_cons, List.drop_zero, ih.consecutive] at hnext
            exact lt_total_take_fit_add weight hnext
        | succ i =>
            have h := ih.full i box y ys (by simpa using hbox)
              (by simpa using hnext)
            rwa [Nat.add_assoc, Nat.add_comm 1 i] at h
      · intro y ys hrest
        have h := ih.stops y ys hrest
        rw [List.length_cons]
        rwa [Nat.add_assoc, Nat.add_comm 1] at h
  | case2 k xs hfit =>
      rw [pack, if_neg hfit]
      refine ⟨by simp, by simp, by simp, by simp, ?_⟩
      rintro y ys rfl
      by_contra hle
      simp only [List.length_nil, Nat.add_zero] at hle
      simp [fit, hle] at hfit

theorem length_le_length_flatten {boxes : List (List α)}
    (hnonempty : ∀ box ∈ boxes, box ≠ []) :
    boxes.length ≤ boxes.flatten.length := by
  induction boxes with
  | nil => simp
  | cons box boxes ih =>
      have hpos := List.length_pos_of_ne_nil (hnonempty box (by simp))
      have htail := ih fun b hb => hnonempty b (by simp [hb])
      rw [List.flatten_cons, List.length_append, List.length_cons]
      omega

theorem pack_length_le (k : ℕ) (xs : List α) :
    (pack weight cap k xs).1.length ≤ xs.length := by
  have hgreedy := pack_isGreedy weight cap k xs
  have hboxes := length_le_length_flatten hgreedy.nonempty
  have hall := congrArg List.length hgreedy.consecutive
  rw [List.length_append] at hall
  omega

theorem pack_nil (k : ℕ) : pack weight cap k [] = ([], []) := by
  rw [pack]
  simp [fit]

theorem pack_eq_nil_iff (k : ℕ) {xs : List α} :
    (pack weight cap k xs).1 = [] ∧ (pack weight cap k xs).2 = [] ↔
      xs = [] := by
  constructor
  · rintro ⟨hboxes, hrest⟩
    have hall := (pack_isGreedy weight cap k xs).consecutive
    rw [hboxes, hrest] at hall
    simpa using hall.symm
  · rintro rfl
    rw [pack_nil]
    exact ⟨rfl, rfl⟩

theorem pack_pair {k : ℕ} {x y : α} (hx : weight x ≤ cap k)
    (hfull : cap k < weight x + weight y) (hy : weight y ≤ cap (k + 1)) :
    pack weight cap k [x, y] = ([[x], [y]], []) := by
  have hxfit : fit weight (cap k) [x, y] = 1 := by
    have hmore : ¬ weight y ≤ cap k - weight x := by omega
    simp [fit, hx, hmore]
  have hyfit : fit weight (cap (k + 1)) [y] = 1 := by
    simp [fit, hy]
  have hlast : pack weight cap (k + 1) [y] = ([[y]], []) := by
    rw [pack, hyfit]
    simp [pack_nil]
  rw [pack, hxfit]
  simp [hlast]

/-- Items in front that fit into every box they can get into are packed. -/
theorem pack_front {k bound : ℕ} {front : List α} (rest : List α)
    (hweight : ∀ x ∈ front, weight x ≤ bound)
    (hcap : ∀ j < front.length, bound ≤ cap (k + j)) :
    ∃ more, more <+: rest ∧
      (pack weight cap k (front ++ rest)).1.flatten = front ++ more := by
  have hgreedy := pack_isGreedy weight cap k (front ++ rest)
  generalize pack weight cap k (front ++ rest) = packed at hgreedy ⊢
  obtain ⟨boxes, left⟩ := packed
  dsimp only at hgreedy ⊢
  have hsplit : boxes.flatten ++ left = front ++ rest := hgreedy.consecutive
  by_cases hlen : front.length ≤ boxes.flatten.length
  · obtain ⟨more, hmore⟩ : front <+: boxes.flatten :=
      List.prefix_of_prefix_length_le (List.prefix_append front rest)
        (hsplit ▸ List.prefix_append boxes.flatten left) hlen
    refine ⟨more, ⟨left, ?_⟩, hmore.symm⟩
    rw [← hmore, List.append_assoc] at hsplit
    exact List.append_cancel_left hsplit
  · -- the first item left over is one in front
    exfalso
    obtain ⟨tail, htail⟩ : boxes.flatten <+: front :=
      List.prefix_of_prefix_length_le
        (hsplit ▸ List.prefix_append boxes.flatten left)
        (List.prefix_append front rest) (by omega)
    obtain ⟨y, ys, rfl⟩ : ∃ y ys, tail = y :: ys := by
      apply List.exists_cons_of_ne_nil
      rintro rfl
      rw [List.append_nil] at htail
      rw [htail] at hlen
      exact hlen le_rfl
    have hleft : left = y :: (ys ++ rest) := by
      rw [← htail, List.append_assoc] at hsplit
      exact List.append_cancel_left hsplit
    have hy : y ∈ front := by
      rw [← htail]
      exact List.mem_append_right _ List.mem_cons_self
    have hboxes := length_le_length_flatten hgreedy.nonempty
    have hstops := hgreedy.stops y _ hleft
    have hroom := hcap boxes.length (by omega)
    have hfits := hweight y hy
    omega

theorem pack_map {β : Type*} (f : β → α) (k : ℕ) (xs : List β) :
    pack weight cap k (xs.map f) =
      ((pack (fun x => weight (f x)) cap k xs).1.map (List.map f),
        (pack (fun x => weight (f x)) cap k xs).2.map f) := by
  induction k, xs using pack.induct (fun x => weight (f x)) cap with
  | case1 k xs hfit ih =>
      have hright : pack (fun x => weight (f x)) cap k xs =
          (xs.take (fit (fun x => weight (f x)) (cap k) xs) ::
              (pack (fun x => weight (f x)) cap (k + 1)
                (xs.drop (fit (fun x => weight (f x)) (cap k) xs))).1,
            (pack (fun x => weight (f x)) cap (k + 1)
              (xs.drop (fit (fun x => weight (f x)) (cap k) xs))).2) := by
        rw [pack, if_pos hfit]
      rw [hright, pack, fit_map, if_pos hfit, ← List.map_drop, ih,
        ← List.map_take]
      rfl
  | case2 k xs hfit =>
      have hright : pack (fun x => weight (f x)) cap k xs = ([], xs) := by
        rw [pack, if_neg hfit]
      rw [hright, pack, fit_map, if_neg hfit]
      rfl

end Boxes

end GreedyPacking

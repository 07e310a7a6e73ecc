import Mathlib.Algebra.BigOperators.Group.List.Basic
import Mathlib.Algebra.Ring.Nat
import Mathlib.Data.List.AList

/-!
# Tables of counters

Programs that count things keep a hash table, look an entry up, add a fresh one
if there is none, and increment a number in it.  A table here is a finite map.
Reading a number from a table takes zero for a missing entry, so a fresh entry
changes nothing and an increment adds its amount under one key.
-/

namespace FindOrAdd

variable {κ ν : Type*} [DecidableEq κ]

abbrev Table (κ ν : Type*) := AList fun _ : κ => ν

def findOrAdd (t : Table κ ν) (k : κ) (new : ν) : Table κ ν :=
  match t.lookup k with
  | some _ => t
  | none => t.insert k new

def modify (t : Table κ ν) (k : κ) (f : ν → ν) : Table κ ν :=
  match t.lookup k with
  | some v => t.insert k (f v)
  | none => t

def reading (g : ν → ℕ) (t : Table κ ν) (k : κ) : ℕ :=
  ((t.lookup k).map g).getD 0

def total (g : ν → ℕ) (t : Table κ ν) : ℕ :=
  (t.entries.map fun e => g e.2).sum

/-! ## Membership -/

theorem mem_findOrAdd_self (t : Table κ ν) (k : κ) (new : ν) :
    k ∈ findOrAdd t k new := by
  unfold findOrAdd
  cases h : t.lookup k with
  | some v =>
      rw [← AList.lookup_isSome, h]
      rfl
  | none => exact (AList.mem_insert t).mpr (Or.inl rfl)

theorem mem_findOrAdd_of_mem {t : Table κ ν} {k' : κ} (k : κ) (new : ν)
    (h : k' ∈ t) : k' ∈ findOrAdd t k new := by
  unfold findOrAdd
  cases t.lookup k with
  | some v => exact h
  | none => exact (AList.mem_insert t).mpr (Or.inr h)

theorem mem_modify_of_mem {t : Table κ ν} {k' : κ} (k : κ) (f : ν → ν)
    (h : k' ∈ t) : k' ∈ modify t k f := by
  unfold modify
  cases t.lookup k with
  | some v => exact (AList.mem_insert t).mpr (Or.inr h)
  | none => exact h

theorem lookup_modify_findOrAdd (t : Table κ ν) (k : κ) (new : ν)
    (f : ν → ν) (k' : κ) :
    (modify (findOrAdd t k new) k f).lookup k' =
      if k' = k then some (f ((t.lookup k).getD new)) else t.lookup k' := by
  cases h : t.lookup k with
  | some v =>
      simp only [findOrAdd, h, modify]
      by_cases hk : k' = k
      · subst hk
        rw [if_pos rfl, AList.lookup_insert]
        rfl
      · rw [if_neg hk, AList.lookup_insert_ne hk]
  | none =>
      simp only [findOrAdd, h, modify, AList.lookup_insert]
      by_cases hk : k' = k
      · subst hk
        rw [if_pos rfl, AList.lookup_insert]
        rfl
      · rw [if_neg hk, AList.lookup_insert_ne hk, AList.lookup_insert_ne hk]

/-! ## Readings -/

theorem reading_empty (g : ν → ℕ) (k : κ) :
    reading g (∅ : Table κ ν) k = 0 := by
  rw [reading, AList.lookup_empty]
  rfl

theorem reading_findOrAdd {g : ν → ℕ} {new : ν} (hnew : g new = 0)
    (t : Table κ ν) (k k' : κ) :
    reading g (findOrAdd t k new) k' = reading g t k' := by
  unfold findOrAdd
  cases h : t.lookup k with
  | some v => rfl
  | none =>
      by_cases hk : k' = k
      · subst hk
        simp only [reading, AList.lookup_insert, h, Option.map_some,
          Option.map_none, Option.getD_some, Option.getD_none, hnew]
      · simp only [reading, AList.lookup_insert_ne hk]

theorem reading_modify {g : ν → ℕ} {f : ν → ν} {amount : ℕ}
    (hf : ∀ v, g (f v) = g v + amount) {t : Table κ ν} {k : κ}
    (hmem : k ∈ t) (k' : κ) :
    reading g (modify t k f) k' =
      reading g t k' + if k' = k then amount else 0 := by
  obtain ⟨v, hv⟩ := Option.isSome_iff_exists.mp (AList.lookup_isSome.mpr hmem)
  unfold modify
  rw [hv]
  by_cases hk : k' = k
  · subst hk
    simp only [reading, AList.lookup_insert, hv, Option.map_some,
      Option.getD_some, hf, if_true]
  · simp only [reading, AList.lookup_insert_ne hk, if_neg hk, Nat.add_zero]

/-! ## Sums -/

theorem total_findOrAdd {g : ν → ℕ} {new : ν} (hnew : g new = 0)
    (t : Table κ ν) (k : κ) : total g (findOrAdd t k new) = total g t := by
  unfold findOrAdd
  cases h : t.lookup k with
  | some v => rfl
  | none =>
      rw [total, AList.entries_insert_of_notMem (AList.lookup_eq_none.mp h),
        List.map_cons, List.sum_cons, hnew, Nat.zero_add, total]

theorem total_kerase (g : ν → ℕ) {k : κ} {v : ν}
    {entries : List (Sigma fun _ : κ => ν)} (hv : v ∈ entries.dlookup k) :
    (entries.map fun e => g e.2).sum =
      g v + ((entries.kerase k).map fun e => g e.2).sum := by
  induction entries with
  | nil => simp at hv
  | cons e entries ih =>
      obtain ⟨k', v'⟩ := e
      by_cases hk : k = k'
      · subst hk
        rw [List.dlookup_cons_eq, Option.mem_some_iff] at hv
        subst hv
        have herase : (⟨k, v'⟩ :: entries).kerase k = entries :=
          List.kerase_cons_eq rfl
        rw [herase, List.map_cons, List.sum_cons]
      · rw [List.dlookup_cons_ne _ _ hk] at hv
        rw [List.kerase_cons_ne hk, List.map_cons, List.map_cons,
          List.sum_cons, List.sum_cons, ih hv]
        omega

theorem total_modify {g : ν → ℕ} {f : ν → ν} {amount : ℕ}
    (hf : ∀ v, g (f v) = g v + amount) {t : Table κ ν} {k : κ}
    (hmem : k ∈ t) : total g (modify t k f) = total g t + amount := by
  obtain ⟨v, hv⟩ := Option.isSome_iff_exists.mp (AList.lookup_isSome.mpr hmem)
  unfold modify
  rw [hv]
  have herase := total_kerase g (Option.mem_def.mpr hv)
  simp only [total, AList.entries_insert, List.map_cons, List.sum_cons, hf]
  omega

/-- The sum over all entries is the sum of the readings at the keys. -/
theorem total_eq_sum_reading (g : ν → ℕ) (t : Table κ ν) :
    total g t = (t.keys.map (reading g t)).sum := by
  have hread : ∀ e ∈ t.entries, g e.2 = reading g t e.1 := by
    intro e he
    have hlookup : t.lookup e.1 = some e.2 :=
      (List.mem_dlookup_iff t.nodupKeys).mpr he
    rw [reading, hlookup]
    rfl
  rw [total, AList.keys, List.keys, List.map_map]
  exact congrArg List.sum (List.map_congr_left hread)

/-! ## Tables that are visited through a list of pointers -/

section Pointers

variable {α : Type*} (f : α → α)

theorem getElem?_foldl_modify {pointers : List ℕ} (h : pointers.Nodup)
    (entries : List α) (j : ℕ) :
    (pointers.foldl (fun entries i => entries.modify i f) entries)[j]? =
      if j ∈ pointers then entries[j]?.map f else entries[j]? := by
  induction pointers generalizing entries with
  | nil => rfl
  | cons i pointers ih =>
      obtain ⟨hi, hnodup⟩ := List.nodup_cons.mp h
      rw [List.foldl_cons, ih hnodup, List.getElem?_modify]
      by_cases hj : i = j
      · subst hj
        rw [if_neg hi, if_pos List.mem_cons_self]
        simp
      · have hmem : j ∈ i :: pointers ↔ j ∈ pointers :=
          List.mem_cons.trans (or_iff_right (Ne.symm hj))
        simp only [if_neg hj, hmem]
        simp

/-- If there is one pointer to each entry, every entry is changed once. -/
theorem foldl_modify_eq_map {pointers : List ℕ} {entries : List α}
    (h : pointers.Perm (List.range entries.length)) :
    pointers.foldl (fun entries i => entries.modify i f) entries =
      entries.map f := by
  have hnodup : pointers.Nodup := h.nodup_iff.mpr List.nodup_range
  refine List.ext_getElem? fun j => ?_
  have hmem : j ∈ pointers ↔ j < entries.length :=
    h.mem_iff.trans List.mem_range
  rw [getElem?_foldl_modify f hnodup, List.getElem?_map]
  by_cases hj : j < entries.length
  · rw [if_pos (hmem.mpr hj)]
  · rw [if_neg (hmem.not.mpr hj), List.getElem?_eq_none (Nat.le_of_not_lt hj)]
    rfl

end Pointers

end FindOrAdd

import Phpspy.Support.Bytes
import Phpspy.Support.FindOrAdd

/-!
# Tables that are sorted by their keys

A program that prints a hash table sorts it first, so that what it prints does
not depend on the places of the entries in memory.  The rows of a table are its
entries in the order of the keys.
-/

namespace FindOrAdd

variable {κ ν β : Type*} [DecidableEq κ]

/-! ## A property of all entries -/

def Entries (P : κ → ν → Prop) (t : Table κ ν) : Prop :=
  ∀ k v, t.lookup k = some v → P k v

theorem entries_empty (P : κ → ν → Prop) : Entries P (∅ : Table κ ν) := by
  intro k v hv
  rw [AList.lookup_empty] at hv
  cases hv

theorem Entries.findOrAdd {P : κ → ν → Prop} {t : Table κ ν}
    (h : Entries P t) {k : κ} {new : ν} (hnew : P k new) :
    Entries P (findOrAdd t k new) := by
  intro k' v hv
  cases hk : t.lookup k with
  | some w =>
      simp only [FindOrAdd.findOrAdd, hk] at hv
      exact h k' v hv
  | none =>
      simp only [FindOrAdd.findOrAdd, hk] at hv
      by_cases hkey : k' = k
      · subst hkey
        rw [AList.lookup_insert] at hv
        cases hv
        exact hnew
      · rw [AList.lookup_insert_ne hkey] at hv
        exact h k' v hv

theorem Entries.modify {P : κ → ν → Prop} {t : Table κ ν} (h : Entries P t)
    {k : κ} {f : ν → ν} (hf : ∀ v, P k v → P k (f v)) :
    Entries P (modify t k f) := by
  intro k' v hv
  cases hk : t.lookup k with
  | some w =>
      simp only [FindOrAdd.modify, hk] at hv
      by_cases hkey : k' = k
      · subst hkey
        rw [AList.lookup_insert] at hv
        cases hv
        exact hf w (h k' w hk)
      · rw [AList.lookup_insert_ne hkey] at hv
        exact h k' v hv
  | none =>
      simp only [FindOrAdd.modify, hk] at hv
      exact h k' v hv

/-! ## Rows -/

section Rows

variable (le : κ → κ → Bool)

def rows (t : Table κ ν) : List (Sigma fun _ : κ => ν) :=
  t.entries.mergeSort fun a b => le a.1 b.1

theorem mem_rows {t : Table κ ν} {e : Sigma fun _ : κ => ν} :
    e ∈ rows le t ↔ t.lookup e.1 = some e.2 := by
  rw [rows, (List.mergeSort_perm _ _).mem_iff]
  exact AList.mem_lookup_iff.symm

omit [DecidableEq κ] in
theorem nodupKeys_rows (t : Table κ ν) : (rows le t).NodupKeys :=
  (List.perm_nodupKeys (List.mergeSort_perm _ _)).mpr t.nodupKeys

theorem sum_entries_ite (g : ν → ℕ) (k : κ)
    {entries : List (Sigma fun _ : κ => ν)} (hnodup : entries.NodupKeys) :
    (entries.map fun e => if e.1 = k then g e.2 else 0).sum =
      ((entries.dlookup k).map g).getD 0 := by
  induction entries with
  | nil => rfl
  | cons e entries ih =>
      obtain ⟨k', v⟩ := e
      obtain ⟨hnot, hrest⟩ := List.nodupKeys_cons.mp hnodup
      rw [List.map_cons, List.sum_cons, ih hrest]
      by_cases hk : k = k'
      · subst hk
        rw [List.dlookup_eq_none.mpr hnot, List.dlookup_cons_eq, if_pos rfl]
        rfl
      · rw [List.dlookup_cons_ne _ _ hk, if_neg (Ne.symm hk), Nat.zero_add]

/-- A number summed over the rows that meet a condition which only the entry
under one key can meet. -/
theorem sum_rows_ite (g : ν → ℕ) (t : Table κ ν) (k : κ)
    {q : ν → Prop} [DecidablePred q]
    (hq : ∀ k' v, t.lookup k' = some v → (q v ↔ k' = k)) :
    ((rows le t).map fun e => if q e.2 then g e.2 else 0).sum =
      reading g t k := by
  have hperm : (rows le t).Perm t.entries := List.mergeSort_perm _ _
  rw [(hperm.map _).sum_eq, reading, AList.lookup,
    ← sum_entries_ite g k t.nodupKeys]
  refine congrArg List.sum (List.map_congr_left fun e he => ?_)
  simp only [hq e.1 e.2 (AList.mem_lookup_iff.mpr he)]

variable {le}

omit [DecidableEq κ] in
theorem pairwise_rows (htrans : ∀ a b c, le a b → le b c → le a c)
    (htotal : ∀ a b, (le a b || le b a) = true) (t : Table κ ν) :
    (rows le t).Pairwise fun a b => le a.1 b.1 = true :=
  List.pairwise_mergeSort (fun a b c => htrans a.1 b.1 c.1)
    (fun a b => htotal a.1 b.1) t.entries

theorem rows_map_eq (htrans : ∀ a b c, le a b → le b c → le a c)
    (htotal : ∀ a b, (le a b || le b a) = true)
    (hantisymm : ∀ a b, le a b → le b a → a = b) (f : ν → β)
    {t t' : Table κ ν}
    (h : ∀ k, (t.lookup k).map f = (t'.lookup k).map f) :
    (rows le t).map (fun e => f e.2) = (rows le t').map fun e => f e.2 := by
  let pair : (Sigma fun _ : κ => ν) → Sigma fun _ : κ => β :=
    Sigma.map id fun _ => f
  have hsorted (t : Table κ ν) :
      ((rows le t).map pair).Pairwise fun a b => le a.1 b.1 = true :=
    List.pairwise_map.mpr (pairwise_rows htrans htotal t)
  have hentries (t : Table κ ν) :
      ((rows le t).map pair).Perm (t.entries.map pair) :=
    (List.mergeSort_perm _ _).map pair
  have hnodup (t : Table κ ν) : (t.entries.map pair).NodupKeys :=
    List.NodupKeys.map₂ (fun _ => f) t.entries t.nodupKeys
  have hsame : (t.entries.map pair).Perm (t'.entries.map pair) := by
    refine List.lookup_ext (hnodup t) (hnodup t') fun k v => ?_
    have hlookup (t : Table κ ν) :
        (t.entries.map pair).dlookup k = (t.lookup k).map f :=
      List.dlookup_map₂ k
    rw [hlookup, hlookup, h k]
  have hperm : ((rows le t).map pair).Perm ((rows le t').map pair) :=
    (hentries t).trans (hsame.trans (hentries t').symm)
  have heq : (rows le t).map pair = (rows le t').map pair := by
    refine hperm.eq_of_pairwise ?_ (hsorted t) (hsorted t')
    intro a b ha hb hab hba
    have hkey : a.1 = b.1 := hantisymm a.1 b.1 hab hba
    have ha' : a ∈ t.entries.map pair := (hentries t).mem_iff.mp ha
    have hb' : b ∈ t.entries.map pair :=
      hsame.mem_iff.mpr ((hentries t').mem_iff.mp hb)
    exact List.NodupKeys.eq_of_fst_eq (hnodup t) ha' hb' hkey
  have hvalues := congrArg (List.map Sigma.snd) heq
  rw [List.map_map, List.map_map] at hvalues
  exact hvalues

end Rows

end FindOrAdd

namespace ByteText

/-- `strcmp(a, b) <= 0`, for strings without a NUL. -/
def strLe : Bytes → Bytes → Bool
  | [], _ => true
  | _ :: _, [] => false
  | a :: as, b :: bs => a < b || a == b && strLe as bs

theorem strLe_cons {a b : UInt8} {as bs : Bytes} :
    strLe (a :: as) (b :: bs) = true ↔ a < b ∨ a = b ∧ strLe as bs = true := by
  simp [strLe]

theorem strLe_trans (a b c : Bytes) (hab : strLe a b = true)
    (hbc : strLe b c = true) : strLe a c = true := by
  induction a generalizing b c with
  | nil => rfl
  | cons x a ih =>
      cases b with
      | nil => cases hab
      | cons y b =>
          cases c with
          | nil => cases hbc
          | cons z c =>
              rw [strLe_cons] at hab hbc ⊢
              rcases hab with hxy | ⟨rfl, hab⟩
              · rcases hbc with hyz | ⟨rfl, -⟩
                · exact Or.inl (UInt8.lt_trans hxy hyz)
                · exact Or.inl hxy
              · rcases hbc with hyz | ⟨rfl, hbc⟩
                · exact Or.inl hyz
                · exact Or.inr ⟨rfl, ih b c hab hbc⟩

theorem strLe_total (a b : Bytes) : (strLe a b || strLe b a) = true := by
  rw [Bool.or_eq_true]
  induction a generalizing b with
  | nil => exact Or.inl rfl
  | cons x a ih =>
      cases b with
      | nil => exact Or.inr rfl
      | cons y b =>
          rw [strLe_cons, strLe_cons]
          rcases Nat.lt_trichotomy x.toNat y.toNat with hlt | heq | hlt
          · exact Or.inl (Or.inl (UInt8.lt_iff_toNat_lt.mpr hlt))
          · obtain rfl : x = y := UInt8.toNat_inj.mp heq
            exact (ih b).imp (fun h => Or.inr ⟨rfl, h⟩)
              (fun h => Or.inr ⟨rfl, h⟩)
          · exact Or.inr (Or.inl (UInt8.lt_iff_toNat_lt.mpr hlt))

theorem strLe_antisymm (a b : Bytes) (hab : strLe a b = true)
    (hba : strLe b a = true) : a = b := by
  induction a generalizing b with
  | nil =>
      cases b with
      | nil => rfl
      | cons y b => cases hba
  | cons x a ih =>
      cases b with
      | nil => cases hab
      | cons y b =>
          rw [strLe_cons] at hab hba
          rcases hab with hlt | ⟨rfl, hab⟩
          · rcases hba with hgt | ⟨rfl, -⟩
            · exact absurd hgt (UInt8.lt_asymm hlt)
            · exact absurd hlt (UInt8.lt_irrefl _)
          · rcases hba with hgt | ⟨-, hba⟩
            · exact absurd hgt (UInt8.lt_irrefl _)
            · rw [ih b hab hba]

end ByteText

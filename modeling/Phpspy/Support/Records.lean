import Phpspy.Support.Bytes
import Phpspy.Support.Packing

/-!
# Texts made of delimited records

A record is a body without delimiter followed by one delimiter.  In a
concatenation of records the last delimiter of any initial part ends the last
record that lies in that part as a whole, which is what connects byte searches
with packing by weight.
-/

namespace ByteText

open GreedyPacking

/-- A record: one delimiter, at its end. -/
def Delimited (d : UInt8) (r : Bytes) : Prop :=
  ∃ body, r = body ++ [d] ∧ d ∉ body

theorem Delimited.length_pos {d : UInt8} {r : Bytes} (h : Delimited d r) :
    0 < r.length := by
  obtain ⟨body, rfl, -⟩ := h
  simp

theorem flatten_length_pos {d : UInt8} {rs : List Bytes}
    (h : ∀ r ∈ rs, Delimited d r) (hne : rs ≠ []) :
    0 < rs.flatten.length := by
  obtain ⟨r, rs, rfl⟩ := List.exists_cons_of_ne_nil hne
  have hpos := (h r List.mem_cons_self).length_pos
  rw [List.flatten_cons, List.length_append]
  omega

theorem Delimited.notMem_take {d : UInt8} {r : Bytes} (h : Delimited d r)
    {n : ℕ} (hn : n < r.length) : d ∉ r.take n := by
  obtain ⟨body, rfl, hbody⟩ := h
  rw [List.length_append, List.length_singleton] at hn
  rw [List.take_append_of_le_length (by omega)]
  exact fun hmem => hbody (List.mem_of_mem_take hmem)

theorem total_length_eq (rs : List Bytes) :
    total List.length rs = rs.flatten.length := by
  rw [total, List.length_flatten]

theorem flatten_eq_append_delim {d : UInt8} {rs : List Bytes}
    (hrs : ∀ r ∈ rs, Delimited d r) (hne : rs ≠ []) :
    ∃ front, rs.flatten = front ++ [d] := by
  obtain ⟨init, last, rfl⟩ := List.eq_nil_or_concat rs |>.resolve_left hne
  obtain ⟨body, hlast, -⟩ := hrs last (by simp)
  exact ⟨init.flatten ++ body, by simp [hlast]⟩

theorem memrchr_flatten_append {d : UInt8} {rs : List Bytes} {part : Bytes}
    (hrs : ∀ r ∈ rs, Delimited d r) (hpart : d ∉ part) :
    (memrchr d (rs.flatten ++ part)).map (· + 1) =
      if rs = [] then none else some rs.flatten.length := by
  by_cases hne : rs = []
  · subst rs
    simpa using memrchr_eq_none_iff.mpr hpart
  · obtain ⟨front, hfront⟩ := flatten_eq_append_delim hrs hne
    rw [if_neg hne, hfront, List.append_assoc, List.singleton_append,
      memrchr_append_of_notMem hpart]
    simp

theorem rewind_flatten_append {d : UInt8} {rs : List Bytes} {part : Bytes}
    (hrs : ∀ r ∈ rs, Delimited d r) (hpart : d ∉ part) :
    rewind d (rs.flatten ++ part) = rs.flatten := by
  have hsearch := memrchr_flatten_append hrs hpart
  cases hfind : memrchr d (rs.flatten ++ part) with
  | none =>
      rw [hfind, Option.map_none] at hsearch
      split at hsearch
      · next hnil =>
        rw [rewind, hfind, hnil]
        rfl
      · simp at hsearch
  | some i =>
      rw [hfind, Option.map_some] at hsearch
      split at hsearch
      · simp at hsearch
      · rw [Option.some.injEq] at hsearch
        simp [rewind, hfind, hsearch]

/-- The last delimiter within the first `room` bytes ends the records that
fit into `room`. -/
theorem memrchr_take_flatten {d : UInt8} {rs : List Bytes} {room : ℕ}
    (hrs : ∀ r ∈ rs, Delimited d r) (hroom : room < rs.flatten.length) :
    (memrchr d (rs.flatten.take room)).map (· + 1) =
      if fit List.length room rs = 0 then none
      else some (rs.take (fit List.length room rs)).flatten.length := by
  have hlen := fit_le_length List.length room rs
  have hfits := total_take_fit_le List.length room rs
  rw [total_length_eq] at hfits
  cases hdrop : rs.drop (fit List.length room rs) with
  | nil =>
      have hall : rs.take (fit List.length room rs) = rs := by
        have h := List.take_append_drop (fit List.length room rs) rs
        rwa [hdrop, List.append_nil] at h
      rw [hall] at hfits
      omega
  | cons y ys =>
      have hover := lt_total_take_fit_add List.length hdrop
      rw [total_length_eq] at hover
      set inside := rs.take (fit List.length room rs) with hinside
      have hy : Delimited d y :=
        hrs y (List.mem_of_mem_drop (hdrop ▸ List.mem_cons_self))
      have hsplit : rs.flatten = inside.flatten ++ (y ++ ys.flatten) := by
        have h := List.take_append_drop (fit List.length room rs) rs
        rw [hdrop, ← hinside] at h
        rw [← h]
        simp
      have htake : rs.flatten.take room =
          inside.flatten ++ y.take (room - inside.flatten.length) := by
        rw [hsplit, List.take_append, List.take_of_length_le hfits,
          List.take_append_of_le_length (by omega)]
      have hpart : d ∉ y.take (room - inside.flatten.length) :=
        hy.notMem_take (by omega)
      have hrecords : ∀ r ∈ inside, Delimited d r :=
        fun r hr => hrs r (List.mem_of_mem_take hr)
      rw [htake, memrchr_flatten_append hrecords hpart]
      have hnil : inside = [] ↔ fit List.length room rs = 0 := by
        have hrsne : rs ≠ [] := by
          rintro rfl
          simp at hdrop
        rw [hinside, List.take_eq_nil_iff]
        simp [hrsne]
      simp only [hnil]

/-! ## Splitting at delimiters -/

/-- The bodies of a text, after `front` has been read of the first one.  A
last body without delimiter counts if it is not empty. -/
def bodiesFrom (d : UInt8) (front : Bytes) : Bytes → List Bytes
  | [] => if front.isEmpty then [] else [front]
  | b :: bs =>
      if b = d then front :: bodiesFrom d [] bs
      else bodiesFrom d (front ++ [b]) bs

/-- The lines of a text, without the delimiter that ends each of them. -/
def bodies (d : UInt8) (text : Bytes) : List Bytes :=
  bodiesFrom d [] text

theorem bodiesFrom_append {d : UInt8} {body : Bytes} (hbody : d ∉ body)
    (front rest : Bytes) :
    bodiesFrom d front (body ++ d :: rest) =
      (front ++ body) :: bodiesFrom d [] rest := by
  induction body generalizing front with
  | nil => simp [bodiesFrom]
  | cons b body ih =>
      have hb : b ≠ d := by
        rintro rfl
        exact hbody List.mem_cons_self
      have htail : d ∉ body := fun h => hbody (List.mem_cons_of_mem b h)
      rw [List.cons_append, bodiesFrom, if_neg hb, ih htail]
      simp

theorem bodies_flatten {d : UInt8} {ls : List Bytes}
    (hls : ∀ l ∈ ls, d ∉ l) :
    bodies d (ls.map (· ++ [d])).flatten = ls := by
  induction ls with
  | nil => rfl
  | cons l ls ih =>
      have hl : d ∉ l := hls l List.mem_cons_self
      have htail := ih fun m hm => hls m (List.mem_cons_of_mem l hm)
      rw [List.map_cons, List.flatten_cons, List.append_assoc, bodies,
        List.singleton_append, bodiesFrom_append hl, List.nil_append,
        ← bodies, htail]

end ByteText

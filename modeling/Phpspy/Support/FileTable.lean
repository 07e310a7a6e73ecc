import Mathlib.Data.Nat.Notation
import Mathlib.Data.List.Basic
import Mathlib.Logic.Function.Basic

/-!
# Files behind descriptors

A descriptor stands for an open file, which is a file with a position.  A
duplicate of a descriptor shares its open file and so the position.  Opening a
file once more gives an open file with a position of its own.
-/

namespace FileTable

variable {ν β : Type*}

structure OpenFile (ν : Type*) where
  name : ν
  pos : ℕ

/-- One of the open files, or something that is no file, such as a pipe. -/
inductive Target where
  | file (index : ℕ)
  | other

/-- The descriptors of a process, the files it has opened so far, and what is
in the files. -/
structure Table (ν β : Type*) where
  fds : ℕ → Option Target
  opened : List (OpenFile ν)
  content : ν → List β

/-- `text` with `bytes` from `pos` on.  A gap is filled with `zero`. -/
def overwrite (zero : β) (text : List β) (pos : ℕ) (bytes : List β) :
    List β :=
  (text ++ List.replicate (pos - text.length) zero).take pos ++ bytes ++
    text.drop (pos + bytes.length)

theorem overwrite_length (zero : β) (text bytes : List β) :
    overwrite zero text text.length bytes = text ++ bytes := by
  rw [overwrite, Nat.sub_self, List.replicate_zero, List.append_nil,
    List.take_length, List.drop_eq_nil_of_le (Nat.le_add_right _ _),
    List.append_nil]

namespace Table

/-- The descriptor `fd` gets a meaning, unless it is in use. -/
def assign (t : Table ν β) (fd : ℕ) (target : Option Target) :
    Option (Table ν β) :=
  if (t.fds fd).isNone then
    some { t with fds := Function.update t.fds fd target }
  else none

/-- `dup` -/
def dup (t : Table ν β) (old fd : ℕ) : Option (Table ν β) :=
  t.assign fd (t.fds old)

/-- `close` -/
def close (t : Table ν β) (fd : ℕ) : Table ν β :=
  { t with fds := Function.update t.fds fd none }

variable [DecidableEq ν]

/-- `open` for writing, with `O_CREAT` and `O_TRUNC`. -/
def openTrunc (t : Table ν β) (name : ν) (fd : ℕ) : Option (Table ν β) :=
  (t.assign fd (some (.file t.opened.length))).map fun u =>
    { u with
      opened := t.opened ++ [{ name := name, pos := 0 }]
      content := Function.update t.content name [] }

/-- `write`, where it succeeds. -/
def write (zero : β) (t : Table ν β) (fd : ℕ) (bytes : List β) :
    Option (Table ν β) :=
  match t.fds fd with
  | some (.file i) =>
      t.opened[i]?.map fun f =>
        { t with
          opened := t.opened.set i { f with pos := f.pos + bytes.length }
          content := Function.update t.content f.name
            (overwrite zero (t.content f.name) f.pos bytes) }
  | _ => none

/-! ## The descriptors -/

omit [DecidableEq ν] in
theorem assign_eq_some {t u : Table ν β} {fd : ℕ} {target : Option Target}
    (h : t.assign fd target = some u) :
    t.fds fd = none ∧ u.fds = Function.update t.fds fd target ∧
      u.opened = t.opened ∧ u.content = t.content := by
  unfold assign at h
  split at h
  · next hfree =>
      rw [← Option.some.inj h]
      exact ⟨Option.isNone_iff_eq_none.mp hfree, rfl, rfl, rfl⟩
  · cases h

theorem openTrunc_fds {t u : Table ν β} {name : ν} {fd : ℕ}
    (h : t.openTrunc name fd = some u) :
    t.fds fd = none ∧
      u.fds = Function.update t.fds fd (some (.file t.opened.length)) := by
  obtain ⟨v, hv, rfl⟩ := Option.map_eq_some_iff.mp h
  obtain ⟨hfree, hfds, -, -⟩ := assign_eq_some hv
  exact ⟨hfree, hfds⟩

theorem write_fds {zero : β} {t u : Table ν β} {fd : ℕ} {bytes : List β}
    (h : t.write zero fd bytes = some u) : u.fds = t.fds := by
  unfold write at h
  split at h
  · obtain ⟨f, -, rfl⟩ := Option.map_eq_some_iff.mp h
    rfl
  · cases h

theorem openTrunc_content {t u : Table ν β} {name other : ν} {fd : ℕ}
    (h : t.openTrunc name fd = some u) (hne : name ≠ other) :
    u.content other = t.content other := by
  obtain ⟨v, -, rfl⟩ := Option.map_eq_some_iff.mp h
  exact Function.update_of_ne hne.symm ..

theorem write_content {zero : β} {t u : Table ν β} {fd i : ℕ}
    {bytes : List β} {f : OpenFile ν} {other : ν}
    (h : t.write zero fd bytes = some u) (hfd : t.fds fd = some (.file i))
    (hopened : t.opened[i]? = some f) (hne : f.name ≠ other) :
    u.content other = t.content other := by
  rw [write, hfd] at h
  simp only [hopened, Option.map_some, Option.some.injEq] at h
  subst h
  exact Function.update_of_ne hne.symm ..

/-! ## Writing at the end of a file -/

/-- An open file whose position is the end of its file. -/
structure AtEnd (t : Table ν β) (i : ℕ) (name : ν) (text : List β) :
    Prop where
  opened : t.opened[i]? = some { name := name, pos := text.length }
  content : t.content name = text

omit [DecidableEq ν] in
theorem AtEnd.of_eq {t u : Table ν β} {i : ℕ} {name : ν} {text : List β}
    (h : t.AtEnd i name text) (hopened : u.opened = t.opened)
    (hcontent : u.content = t.content) : u.AtEnd i name text :=
  ⟨by rw [hopened, h.opened], by rw [hcontent, h.content]⟩

theorem AtEnd.write {zero : β} {t : Table ν β} {i fd : ℕ} {name : ν}
    {text : List β} (h : t.AtEnd i name text)
    (hfd : t.fds fd = some (.file i)) (bytes : List β) :
    ∃ u, t.write zero fd bytes = some u ∧
      u.AtEnd i name (text ++ bytes) := by
  have hlt : i < t.opened.length :=
    (List.getElem?_eq_some_iff.mp h.opened).1
  have hwrite : t.write zero fd bytes = some
      { t with
        opened := t.opened.set i
          { name := name, pos := text.length + bytes.length }
        content := Function.update t.content name (text ++ bytes) } := by
    rw [Table.write, hfd]
    simp only [h.opened, Option.map_some, h.content, overwrite_length]
  refine ⟨_, hwrite, ?_, ?_⟩
  · rw [List.length_append]
    exact List.getElem?_set_self hlt
  · exact Function.update_self ..

theorem AtEnd.write_other {zero : β} {t u : Table ν β} {i j fd : ℕ}
    {name : ν} {text bytes : List β} {f : OpenFile ν}
    (h : t.AtEnd i name text) (hfd : t.fds fd = some (.file j))
    (hopened : t.opened[j]? = some f) (hne : f.name ≠ name)
    (hwrite : t.write zero fd bytes = some u) : u.AtEnd i name text := by
  have hij : j ≠ i := by
    rintro rfl
    rw [h.opened] at hopened
    exact hne (congrArg OpenFile.name (Option.some.inj hopened)).symm
  refine ⟨?_, (write_content hwrite hfd hopened hne).trans h.content⟩
  rw [Table.write, hfd] at hwrite
  simp only [hopened, Option.map_some, Option.some.injEq] at hwrite
  subst hwrite
  exact (List.getElem?_set_ne hij).trans h.opened

theorem openTrunc_atEnd {t u : Table ν β} {name : ν} {fd : ℕ}
    (h : t.openTrunc name fd = some u) :
    u.AtEnd t.opened.length name [] := by
  obtain ⟨v, -, rfl⟩ := Option.map_eq_some_iff.mp h
  exact ⟨List.getElem?_concat_length, Function.update_self ..⟩

theorem AtEnd.openTrunc_other {t u : Table ν β} {i fd : ℕ} {name other : ν}
    {text : List β} (h : t.AtEnd i name text) (hne : other ≠ name)
    (hopen : t.openTrunc other fd = some u) : u.AtEnd i name text := by
  refine ⟨?_, (openTrunc_content hopen hne).trans h.content⟩
  obtain ⟨v, -, rfl⟩ := Option.map_eq_some_iff.mp hopen
  have hlt : i < t.opened.length :=
    (List.getElem?_eq_some_iff.mp h.opened).1
  exact (List.getElem?_append_left hlt).trans h.opened

end Table
end FileTable

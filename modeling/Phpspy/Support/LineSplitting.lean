import Mathlib.Data.List.Basic

/-!
# Splitting a stream into lines

A reader gets a stream in pieces and keeps what it has of an unfinished line in
a buffer.  If the buffer is full it forgets what is there.  What it makes of a
stream is described byte by byte, so it does not depend on the pieces.
-/

namespace LineSplitting

variable {α : Type*} [DecidableEq α] (sep : α)

/-- The lines of a text, and what is behind the last one. -/
def cut : List α → List (List α) × List α
  | [] => ([], [])
  | b :: bs =>
      if b = sep then ([] :: (cut bs).1, (cut bs).2)
      else
        match cut bs with
        | ([], rest) => ([], b :: rest)
        | (line :: lines, rest) => ((b :: line) :: lines, rest)

theorem cut_of_notMem {text : List α} (h : sep ∉ text) :
    cut sep text = ([], text) := by
  induction text with
  | nil => rfl
  | cons b bs ih =>
      have hb : sep ≠ b := List.ne_of_not_mem_cons h
      have hbs : sep ∉ bs := List.not_mem_of_not_mem_cons h
      rw [cut, if_neg (Ne.symm hb), ih hbs]

theorem cut_append_cons {line : List α} (h : sep ∉ line) (rest : List α) :
    cut sep (line ++ sep :: rest) =
      (line :: (cut sep rest).1, (cut sep rest).2) := by
  induction line with
  | nil => rw [List.nil_append, cut, if_pos rfl]
  | cons b bs ih =>
      have hb : sep ≠ b := List.ne_of_not_mem_cons h
      have hbs : sep ∉ bs := List.not_mem_of_not_mem_cons h
      rw [List.cons_append, cut, if_neg (Ne.symm hb), ih hbs]

theorem notMem_cut (text : List α) : sep ∉ (cut sep text).2 := by
  induction text with
  | nil => exact List.not_mem_nil
  | cons b bs ih =>
      rw [cut]
      split
      · exact ih
      · next hb =>
          split
          · next rest hcut =>
              rw [hcut] at ih
              exact List.not_mem_cons_of_ne_of_not_mem (Ne.symm hb) ih
          · next hcut =>
              rw [hcut] at ih
              exact ih

theorem cut_append_isPrefix (text rest : List α) :
    (cut sep text).1 <+: (cut sep (text ++ rest)).1 := by
  by_cases hmem : sep ∈ text
  · obtain ⟨line, text', htext, hline⟩ := List.eq_append_cons_of_mem hmem
    have hlt : text'.length < text.length := by
      rw [htext, List.length_append, List.length_cons]
      omega
    rw [htext, List.append_assoc, List.cons_append, cut_append_cons sep hline,
      cut_append_cons sep hline, List.cons_prefix_cons]
    exact ⟨rfl, cut_append_isPrefix text' rest⟩
  · rw [cut_of_notMem sep hmem]
    exact List.nil_prefix
termination_by text.length

theorem cut_flatten_map {lines : List (List α)}
    (h : ∀ line ∈ lines, sep ∉ line) :
    cut sep (lines.map (· ++ [sep])).flatten = (lines, []) := by
  induction lines with
  | nil => rfl
  | cons line lines ih =>
      have hrest := ih fun l hl => h l (List.mem_cons_of_mem line hl)
      rw [List.map_cons, List.flatten_cons, List.append_assoc,
        List.singleton_append, cut_append_cons sep (h line List.mem_cons_self),
        hrest]

/-! ## Piece by piece and byte by byte -/

section Buffer

variable (cap : ℕ)

def kept (pending : List α) : List α :=
  if pending.length < cap then pending else []

def room (pending : List α) : ℕ :=
  cap - (kept cap pending).length

/-- A read: the lines it completes, and what is in the buffer afterwards. -/
def receive (pending data : List α) : List (List α) × List α :=
  cut sep (kept cap pending ++ data)

def push (pending : List α) (b : α) : List (List α) × List α :=
  if b = sep then ([kept cap pending], [])
  else ([], kept cap pending ++ [b])

def splitLines : List α → List α → List (List α) × List α
  | pending, [] => ([], pending)
  | pending, b :: bs =>
      let pushed := push sep cap pending b
      (pushed.1 ++ (splitLines pushed.2 bs).1, (splitLines pushed.2 bs).2)

theorem splitLines_append (pending xs ys : List α) :
    splitLines sep cap pending (xs ++ ys) =
      ((splitLines sep cap pending xs).1 ++
          (splitLines sep cap (splitLines sep cap pending xs).2 ys).1,
        (splitLines sep cap (splitLines sep cap pending xs).2 ys).2) := by
  induction xs generalizing pending with
  | nil => rfl
  | cons x xs ih =>
      simp only [List.cons_append, splitLines, ih, List.append_assoc]

/-- As long as the buffer does not run over, nothing is forgotten. -/
theorem splitLines_eq_cut {pending : List α} (hpending : sep ∉ pending)
    {data : List α} (hcap : pending.length + data.length ≤ cap) :
    splitLines sep cap pending data = cut sep (pending ++ data) := by
  induction data generalizing pending with
  | nil =>
      rw [List.append_nil, cut_of_notMem sep hpending]
      rfl
  | cons b bs ih =>
      rw [List.length_cons] at hcap
      have hkept : kept cap pending = pending := if_pos (by omega)
      rw [splitLines, push, hkept]
      by_cases hb : b = sep
      · subst hb
        rw [if_pos rfl, ih List.not_mem_nil (by rw [List.length_nil]; omega),
          cut_append_cons b hpending]
        rfl
      · have hmem : sep ∉ pending ++ [b] := by
          rw [List.mem_append, List.mem_singleton]
          rintro (hmem | rfl)
          · exact hpending hmem
          · exact hb rfl
        have hlen : (pending ++ [b]).length = pending.length + 1 := by
          rw [List.length_append, List.length_singleton]
        rw [if_neg hb, ih hmem (by omega), List.append_assoc]
        rfl

omit [DecidableEq α] in
theorem kept_kept (hcap : 0 < cap) (pending : List α) :
    kept cap (kept cap pending) = kept cap pending := by
  by_cases hlt : pending.length < cap
  · rw [show kept cap pending = pending from if_pos hlt]
    exact if_pos hlt
  · rw [show kept cap pending = [] from if_neg hlt]
    exact if_pos hcap

theorem splitLines_kept (pending : List α) {data : List α} (h : data ≠ [])
    (hcap : 0 < cap) :
    splitLines sep cap (kept cap pending) data =
      splitLines sep cap pending data := by
  cases data with
  | nil => exact absurd rfl h
  | cons b bs =>
      rw [splitLines, splitLines, push, push, kept_kept cap hcap]

theorem receive_eq_splitLines {pending : List α} (hpending : sep ∉ pending)
    {data : List α} (hne : data ≠ []) (hroom : data.length ≤ room cap pending) :
    receive sep cap pending data = splitLines sep cap pending data := by
  have hdata : 0 < data.length := List.length_pos_iff.mpr hne
  have hkept : sep ∉ kept cap pending := by
    rw [kept]
    split
    · exact hpending
    · exact List.not_mem_nil
  rw [room] at hroom
  rw [← splitLines_kept sep cap pending hne (by omega),
    splitLines_eq_cut sep cap hkept (by omega), receive]

def receiveAll : List α → List (List α) → List (List α) × List α
  | pending, [] => ([], pending)
  | pending, data :: reads =>
      let received := receive sep cap pending data
      (received.1 ++ (receiveAll received.2 reads).1,
        (receiveAll received.2 reads).2)

/-- Every read brings something, and not more than there is room for. -/
def Admits : List α → List (List α) → Prop
  | _, [] => True
  | pending, data :: reads =>
      (data ≠ [] ∧ data.length ≤ room cap pending) ∧
        Admits (receive sep cap pending data).2 reads

/-- A buffer that is full may as well be forgotten at once. -/
theorem receiveAll_kept (hcap : 0 < cap) (pending : List α)
    (reads : List (List α)) :
    (receiveAll sep cap (kept cap pending) reads).1 =
        (receiveAll sep cap pending reads).1 ∧
      (Admits sep cap (kept cap pending) reads ↔
        Admits sep cap pending reads) := by
  cases reads with
  | nil => exact ⟨rfl, Iff.rfl⟩
  | cons data reads =>
      have hreceive : receive sep cap (kept cap pending) data =
          receive sep cap pending data := by
        rw [receive, receive, kept_kept cap hcap]
      have hroom : room cap (kept cap pending) = room cap pending := by
        rw [room, room, kept_kept cap hcap]
      rw [receiveAll, receiveAll, Admits, Admits, hreceive, hroom]
      exact ⟨rfl, Iff.rfl⟩

/-- What is made of a stream does not depend on the reads. -/
theorem receiveAll_eq_splitLines {pending : List α} (hpending : sep ∉ pending)
    {reads : List (List α)} (h : Admits sep cap pending reads) :
    receiveAll sep cap pending reads =
      splitLines sep cap pending reads.flatten := by
  induction reads generalizing pending with
  | nil => rfl
  | cons data reads ih =>
      obtain ⟨⟨hne, hroom⟩, hreads⟩ := h
      have hnext : sep ∉ (receive sep cap pending data).2 :=
        notMem_cut sep _
      rw [receiveAll, List.flatten_cons, splitLines_append, ih hnext hreads,
        receive_eq_splitLines sep cap hpending hne hroom]

/-! ## Long lines -/

/-- What is in the buffer after bytes that complete no line. -/
def remember (pending data : List α) : List α :=
  data.foldl (fun pending b => kept cap pending ++ [b]) pending

theorem splitLines_of_notMem (pending : List α) {data : List α}
    (h : sep ∉ data) :
    splitLines sep cap pending data = ([], remember cap pending data) := by
  induction data generalizing pending with
  | nil => rfl
  | cons b bs ih =>
      have hb : sep ≠ b := List.ne_of_not_mem_cons h
      have hbs : sep ∉ bs := List.not_mem_of_not_mem_cons h
      rw [splitLines, push, if_neg (Ne.symm hb), ih _ hbs]
      rfl

theorem splitLines_append_cons (pending : List α) {line : List α}
    (h : sep ∉ line) (rest : List α) :
    splitLines sep cap pending (line ++ sep :: rest) =
      (kept cap (remember cap pending line) ::
          (splitLines sep cap [] rest).1,
        (splitLines sep cap [] rest).2) := by
  rw [splitLines_append, splitLines_of_notMem sep cap pending h, splitLines,
    push, if_pos rfl]
  rfl

omit [DecidableEq α] in
theorem kept_length_lt (hcap : 0 < cap) (pending : List α) :
    (kept cap pending).length < cap := by
  rw [kept]
  split
  · assumption
  · exact hcap

omit [DecidableEq α] in
theorem remember_of_fits {pending line : List α}
    (h : (pending ++ line).length ≤ cap) :
    remember cap pending line = pending ++ line := by
  induction line generalizing pending with
  | nil => exact (List.append_nil pending).symm
  | cons b bs ih =>
      have hkept : kept cap pending = pending := by
        rw [List.length_append, List.length_cons] at h
        exact if_pos (by omega)
      have hassoc : pending ++ b :: bs = (pending ++ [b]) ++ bs := by
        rw [List.append_assoc, List.singleton_append]
      rw [hassoc] at h ⊢
      rw [← ih h, remember, remember, List.foldl_cons, hkept]

omit [DecidableEq α] in
theorem kept_remember_eq_iff (hcap : 0 < cap) (pending line : List α) :
    kept cap (remember cap pending line) = pending ++ line ↔
      (pending ++ line).length < cap := by
  constructor
  · intro h
    rw [← h]
    exact kept_length_lt cap hcap _
  · intro h
    rw [remember_of_fits cap (Nat.le_of_lt h)]
    exact if_pos h

theorem lines_induction {motive : List α → Prop}
    (last : ∀ text, sep ∉ text → motive text)
    (line : ∀ line rest, sep ∉ line → motive rest →
      motive (line ++ sep :: rest))
    (text : List α) : motive text := by
  by_cases hmem : sep ∈ text
  · obtain ⟨before, rest, htext, hbefore⟩ := List.eq_append_cons_of_mem hmem
    have hlt : rest.length < text.length := by
      rw [htext, List.length_append, List.length_cons]
      omega
    rw [htext]
    exact line before rest hbefore (lines_induction last line rest)
  · exact last text hmem
termination_by text.length

theorem splitLines_length {pending : List α} (hpending : sep ∉ pending)
    (data : List α) :
    (splitLines sep cap pending data).1.length =
      (cut sep (pending ++ data)).1.length := by
  induction data using lines_induction sep generalizing pending with
  | last data h =>
      have hmem : sep ∉ pending ++ data :=
        List.mem_append.not.mpr (not_or.mpr ⟨hpending, h⟩)
      rw [splitLines_of_notMem sep cap pending h, cut_of_notMem sep hmem]
  | line line rest h ih =>
      have hmem : sep ∉ pending ++ line :=
        List.mem_append.not.mpr (not_or.mpr ⟨hpending, h⟩)
      rw [splitLines_append_cons sep cap pending h, ← List.append_assoc,
        cut_append_cons sep hmem, List.length_cons, List.length_cons,
        ih List.not_mem_nil, List.nil_append]

/-- The lines are the lines of the text if there is room for each of them. -/
theorem splitLines_eq_cut_iff (hcap : 0 < cap) {pending : List α}
    (hpending : sep ∉ pending) (data : List α) :
    (splitLines sep cap pending data).1 = (cut sep (pending ++ data)).1 ↔
      ∀ line ∈ (cut sep (pending ++ data)).1, line.length < cap := by
  induction data using lines_induction sep generalizing pending with
  | last data h =>
      have hmem : sep ∉ pending ++ data :=
        List.mem_append.not.mpr (not_or.mpr ⟨hpending, h⟩)
      rw [splitLines_of_notMem sep cap pending h, cut_of_notMem sep hmem]
      exact iff_of_true rfl fun line hline => absurd hline List.not_mem_nil
  | line line rest h ih =>
      have hmem : sep ∉ pending ++ line :=
        List.mem_append.not.mpr (not_or.mpr ⟨hpending, h⟩)
      rw [splitLines_append_cons sep cap pending h, ← List.append_assoc,
        cut_append_cons sep hmem, List.cons.injEq,
        kept_remember_eq_iff cap hcap, List.forall_mem_cons]
      have hrest := @ih [] List.not_mem_nil
      rw [List.nil_append] at hrest
      rw [hrest]

end Buffer
end LineSplitting

import Mathlib.Algebra.Order.BigOperators.Group.List
import Phpspy.Top.ReadChildOut

/-!
# Counting the errors of the child

Top mode counts the lines that the child writes to its standard error.
`read_child_err` looks for the newlines of one read after the other.  Behind a
newline it moves on by the offset of that newline in the buffer, which is more
than the length of the line from the third line on.
-/

namespace Phpspy
namespace Top

open ByteText

/-- The static variables that `read_child_err` sets. -/
structure ErrState where
  totalErrCount : ℕ
  done : Bool
deriving DecidableEq, Repr

def ErrState.initial : ErrState :=
  ⟨0, false⟩

/-- The loop of `read_child_err`: how often it finds a newline.  A pass takes at
least one from `read_rv`, which may fall below zero. -/
def errLoop (buf : Bytes) : ℕ → ℕ → ℤ → ℕ
  | 0, _, _ => 0
  | fuel + 1, bufPos, readRv =>
      if 0 < readRv then
        match memchr 10 ((buf.drop bufPos).take readRv.toNat) with
        | none => 0
        | some i =>
            let nl := bufPos + i
            errLoop buf fuel (bufPos + (nl + 1)) (readRv - (nl + 1)) + 1
      else 0

/-- `read_child_err` -/
def readChildErr (st : ErrState) : ReadResult → ErrState
  | .failed => st
  | .data [] => { st with done := true }
  | .data (b :: bs) =>
      let buf := (b :: bs).take bufSize
      { st with
        totalErrCount :=
          st.totalErrCount + errLoop buf buf.length 0 buf.length }

def readAllErr (st : ErrState) (reads : List Bytes) : ErrState :=
  reads.foldl (fun st data => readChildErr st (.data data)) st

/-! ## The newlines that are found -/

def newlines (data : Bytes) : List ℕ :=
  data.findIdxs (· == 10)

/-- How many of the newlines are found from a position on, if the position moves
on by the offset of each of them. -/
def found : ℕ → List ℕ → ℕ
  | _, [] => 0
  | pos, nl :: nls =>
      if pos ≤ nl then found (pos + (nl + 1)) nls + 1 else found pos nls

theorem found_append_of_lt {pos : ℕ} {passed : List ℕ}
    (h : ∀ nl ∈ passed, nl < pos) (nls : List ℕ) :
    found pos (passed ++ nls) = found pos nls := by
  induction passed with
  | nil => rfl
  | cons nl passed ih =>
      have hnl := h nl List.mem_cons_self
      rw [List.cons_append, found, if_neg (by omega)]
      exact ih fun nl hmem => h nl (List.mem_cons_of_mem _ hmem)

theorem found_eq_zero {pos : ℕ} {passed : List ℕ}
    (h : ∀ nl ∈ passed, nl < pos) : found pos passed = 0 := by
  have hfound := found_append_of_lt h []
  rw [List.append_nil] at hfound
  rw [hfound, found]

theorem found_le (pos : ℕ) (nls : List ℕ) : found pos nls ≤ nls.length := by
  induction nls generalizing pos with
  | nil => exact le_rfl
  | cons nl nls ih =>
      rw [found, List.length_cons]
      split
      · exact Nat.succ_le_succ (ih _)
      · exact Nat.le_succ_of_le (ih _)

/-- All are found if each is as far from the start as the sum over those before
it. -/
theorem found_eq_length_iff (pos : ℕ) (nls : List ℕ) :
    found pos nls = nls.length ↔
      ∀ before nl after, nls = before ++ nl :: after →
        pos + (before.map (· + 1)).sum ≤ nl := by
  induction nls generalizing pos with
  | nil =>
      refine iff_of_true rfl fun before nl after h => ?_
      exact absurd h.symm (by simp)
  | cons nl nls ih =>
      rw [found, List.length_cons]
      split
      · next hle =>
          rw [Nat.succ_inj, ih]
          constructor
          · intro h before nl' after heq
            cases before with
            | nil =>
                obtain ⟨rfl, -⟩ := List.cons.inj heq
                exact hle
            | cons nl before =>
                obtain ⟨rfl, rfl⟩ := List.cons.inj heq
                have hsum := h before nl' after rfl
                rw [List.map_cons, List.sum_cons]
                omega
          · rintro h before nl' after rfl
            have hsum := h (nl :: before) nl' after rfl
            rw [List.map_cons, List.sum_cons] at hsum
            omega
      · next hlt =>
          have hle := found_le pos nls
          refine iff_of_false (by omega) fun h => hlt ?_
          exact h [] nl nls rfl

theorem findIdxs_of_notMem {line : Bytes} (h : (10 : UInt8) ∉ line)
    (start : ℕ) : line.findIdxs (· == 10) start = [] := by
  refine List.findIdxs_eq_nil_iff.mpr fun b hb => ?_
  exact beq_eq_false_iff_ne.mpr fun heq => h (heq ▸ hb)

theorem newlines_append_of_notMem {before rest : Bytes}
    (h : (10 : UInt8) ∉ rest) : newlines (before ++ rest) = newlines before := by
  rw [newlines, newlines, List.findIdxs_append,
    findIdxs_of_notMem h, List.append_nil]

theorem newlines_split (before : Bytes) {line : Bytes}
    (h : (10 : UInt8) ∉ line) (rest : Bytes) :
    newlines (before ++ (line ++ 10 :: rest)) =
      newlines before ++ (before.length + line.length) ::
        rest.findIdxs (· == 10) (before.length + line.length + 1) := by
  rw [newlines, newlines, List.findIdxs_append, List.findIdxs_append,
    findIdxs_of_notMem h, List.nil_append, List.findIdxs_cons, if_pos (by decide)]
  simp only [Nat.add_assoc, Nat.zero_add]

theorem newlines_lt {data : Bytes} {nl : ℕ} (h : nl ∈ newlines data) :
    nl < data.length := by
  simpa using List.lt_add_of_mem_findIdxs nl h

theorem errLoop_eq_found (buf : Bytes) {fuel pos : ℕ}
    (hfuel : buf.length ≤ pos + fuel) :
    errLoop buf fuel pos (buf.length - pos) = found pos (newlines buf) := by
  induction fuel generalizing pos with
  | zero =>
      rw [Nat.add_zero] at hfuel
      rw [found_eq_zero fun nl hnl => (newlines_lt hnl).trans_le hfuel]
      rfl
  | succ fuel ih =>
      rw [errLoop]
      by_cases hpos : pos < buf.length
      · have htake : (buf.drop pos).take ((buf.length : ℤ) - pos).toNat =
            buf.drop pos := by
          refine List.take_of_length_le ?_
          rw [List.length_drop]
          omega
        have hbuf := List.take_append_drop pos buf
        have hlength : (buf.take pos).length = pos :=
          List.length_take_of_le hpos.le
        have hpassed : ∀ nl ∈ newlines (buf.take pos), nl < pos :=
          fun nl hnl => hlength ▸ newlines_lt hnl
        rw [if_pos (by omega), htake]
        cases hline : memchr 10 (buf.drop pos) with
        | none =>
            have hnil : newlines buf = newlines (buf.take pos) := by
              rw [← hbuf, newlines_append_of_notMem
                (memchr_eq_none_iff.mp hline), hbuf]
            rw [hnil, found_eq_zero hpassed]
        | some i =>
            obtain ⟨line, rest, hdrop, hnot, rfl⟩ :=
              exists_split_of_memchr hline
            have hsplit := newlines_split (buf.take pos) hnot rest
            rw [← hdrop, hbuf, hlength] at hsplit
            have hnext := @ih (pos + (pos + line.length + 1)) (by omega)
            have hrem : (buf.length : ℤ) - pos -
                ((pos + line.length : ℕ) + 1) =
                  buf.length - (pos + (pos + line.length + 1) : ℕ) := by
              push_cast
              ring
            -- the position is then behind everything up to the newline
            rw [hsplit, List.append_cons, found_append_of_lt] at hnext
            · rw [hsplit, found_append_of_lt hpassed, found,
                if_pos (Nat.le_add_right _ _), ← hnext, ← hrem]
            · intro nl hnl
              rcases List.mem_append.mp hnl with hnl | hnl
              · exact (hpassed nl hnl).trans (by omega)
              · rw [List.mem_singleton.mp hnl]
                omega
      · rw [if_neg (by omega), found_eq_zero]
        intro nl hnl
        exact (newlines_lt hnl).trans_le (Nat.le_of_not_lt hpos)

theorem readChildErr_data (st : ErrState) {data : Bytes} (hne : data ≠ [])
    (hlen : data.length ≤ bufSize) :
    (readChildErr st (.data data)).totalErrCount =
      st.totalErrCount + found 0 (newlines data) := by
  obtain ⟨b, bs, rfl⟩ := List.exists_cons_of_ne_nil hne
  have hfound := @errLoop_eq_found (b :: bs) (b :: bs).length 0
    (Nat.le_add_left _ _)
  rw [Nat.cast_zero, sub_zero] at hfound
  rw [readChildErr, List.take_of_length_le hlen]
  dsimp only
  rw [hfound]

theorem readAllErr_totalErrCount (st : ErrState) {reads : List Bytes}
    (h : ∀ data ∈ reads, data ≠ [] ∧ data.length ≤ bufSize) :
    (readAllErr st reads).totalErrCount =
      st.totalErrCount +
        (reads.map fun data => found 0 (newlines data)).sum := by
  induction reads generalizing st with
  | nil => rfl
  | cons data reads ih =>
      obtain ⟨hdata, hreads⟩ := List.forall_mem_cons.mp h
      have hstep := readChildErr_data st hdata.1 hdata.2
      have hrest := ih (readChildErr st (.data data)) hreads
      rw [hstep] at hrest
      rw [List.map_cons, List.sum_cons, ← Nat.add_assoc, ← hrest]
      rfl

theorem sum_map_eq_iff {α : Type*} {f g : α → ℕ} {l : List α}
    (h : ∀ a ∈ l, f a ≤ g a) :
    (l.map f).sum = (l.map g).sum ↔ ∀ a ∈ l, f a = g a := by
  induction l with
  | nil => simp
  | cons a l ih =>
      obtain ⟨ha, hl⟩ := List.forall_mem_cons.mp h
      have hsum := List.sum_le_sum hl
      rw [List.map_cons, List.map_cons, List.sum_cons, List.sum_cons,
        List.forall_mem_cons, ← ih hl]
      omega

theorem newlines_length (data : Bytes) :
    (newlines data).length = data.count 10 :=
  List.length_findIdxs

theorem count_flatten_eq_sum (reads : List Bytes) :
    reads.flatten.count 10 =
      (reads.map fun data => (newlines data).length).sum := by
  rw [List.count_flatten]
  simp only [newlines_length]

theorem sum_found_eq_count_iff (reads : List Bytes) :
    (reads.map fun data => found 0 (newlines data)).sum =
        reads.flatten.count 10 ↔
      ∀ data ∈ reads, found 0 (newlines data) = (newlines data).length := by
  rw [count_flatten_eq_sum]
  exact sum_map_eq_iff fun data _ => found_le 0 (newlines data)

/-- No more is counted than there is, so `total_err_count`, an `unsigned long`,
does not wrap around before the 2 ^ 64th newline. -/
theorem readAllErr_le {reads : List Bytes}
    (h : ∀ data ∈ reads, data ≠ [] ∧ data.length ≤ bufSize) :
    (readAllErr .initial reads).totalErrCount ≤ reads.flatten.count 10 := by
  rw [readAllErr_totalErrCount .initial h, ErrState.initial, Nat.zero_add,
    count_flatten_eq_sum]
  exact List.sum_le_sum fun data _ => found_le 0 (newlines data)

/-- After all reads `total_err_count` is the number of newlines exactly if each
newline of a read is as far from the start of the read as the sum of the offsets
behind the newlines before it. -/
theorem readAllErr_eq_count_iff {reads : List Bytes}
    (h : ∀ data ∈ reads, data ≠ [] ∧ data.length ≤ bufSize) :
    (readAllErr .initial reads).totalErrCount = reads.flatten.count 10 ↔
      ∀ data ∈ reads, ∀ before nl after,
        newlines data = before ++ nl :: after →
          (before.map (· + 1)).sum ≤ nl := by
  rw [readAllErr_totalErrCount .initial h, ErrState.initial, Nat.zero_add,
    sum_found_eq_count_iff]
  refine forall₂_congr fun data _ => ?_
  rw [found_eq_length_iff]
  simp only [Nat.zero_add]

theorem readAllErr_eq_count_two_reads :
    (readAllErr .initial
      [lit "popen: Out of memory\nfoo\n", lit "bar\n"]).totalErrCount =
        3 := by
  refine (readAllErr_eq_count_iff ?_).mpr ?_
  · decide
  · intro data hdata before nl after hsplit
    have hfound : ∀ data ∈
        [lit "popen: Out of memory\nfoo\n", lit "bar\n"],
        found 0 (newlines data) = (newlines data).length := by decide
    have hsum := (found_eq_length_iff 0 _).mp (hfound data hdata)
      before nl after hsplit
    rw [Nat.zero_add] at hsum
    exact hsum

/-- Of three short lines in one read two are counted. -/
theorem threeErrors_counted_twice :
    (readAllErr .initial [lit "a\nb\nc\n"]).totalErrCount = 2 ∧
      (lit "a\nb\nc\n").count 10 = 3 := by
  decide

end Top
end Phpspy

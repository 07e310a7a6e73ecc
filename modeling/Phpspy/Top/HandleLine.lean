import Phpspy.Varpeek.Add

/-!
# The lines of top mode

Top mode reads what another phpspy writes.  `handle_line` takes a line as it
stands in a buffer, so what follows the line is there too.  A line of a frame
counts for its function.
-/

namespace Phpspy
namespace Top

open ByteText
open Varpeek (isSpace splitSign strtoul)

/-- `FUNC_SIZE` -/
def funcSize : ℕ := 256

/-- `func_entry_t`, with natural numbers for its counters. -/
structure FuncEntry where
  func : Bytes
  countExcl : ℕ
  countIncl : ℕ
  totalCountExcl : ℕ
  totalCountIncl : ℕ
deriving DecidableEq, Repr

/-- The static variables for what has been counted.  The entries of `func_map`
stand in the order in which they were added, and `func_list` points to them. -/
structure Counters where
  funcMap : List FuncEntry
  funcList : List ℕ
  funcListSize : ℕ
  sampCount : ℕ
  totalSampCount : ℕ
deriving DecidableEq, Repr

def Counters.initial : Counters :=
  ⟨[], [], 0, 0, 0⟩

/-- The lookup of uthash among the keys that were added.  Which entry it finds
if a key was added twice depends on the buckets. -/
structure Uthash where
  find : List Bytes → Bytes → Option ℕ
  find_some : ∀ {keys key i}, find keys key = some i → keys[i]? = some key
  find_none : ∀ {keys key}, find keys key = none → key ∉ keys

/-! ## Parsing -/

/-- How far `strtoull` reads, if there is a number. -/
def strtoullEnd (s : Bytes) : ℕ :=
  let behindSign := (splitSign (s.dropWhile isSpace)).2
  let digits := behindSign.takeWhile isDigit
  if digits = [] then 0 else s.length - behindSign.length + digits.length

/-- The frame number and the function of a line that `handle_line` counts.  The
line is at the start of `mem`. -/
def acceptedLine (mem : Bytes) (lineLen : ℕ) : Option (ℕ × Bytes) :=
  if lineLen < 3 then none
  else if mem.head? = some 35 then none
  else
    let frameNum := strtoul mem
    let func := strtoullEnd mem
    if frameNum = 0 ∧ mem.head? ≠ some 48 then none
    else if mem[func]? ≠ some 32 then none
    else
      -- a number behind the line makes `func_len` a huge unsigned number
      let funcLen : ℤ := lineLen - (func + 1)
      if funcLen < 1 ∨ funcSize ≤ funcLen then none
      else some (frameNum, (mem.drop (func + 1)).take funcLen.toNat)

/-! ## Counting -/

/-- The entry of a function, which is added if it is not found.  The entry gets
the function up to its first NUL. -/
def Counters.findOrAdd (uthash : Uthash) (c : Counters) (func : Bytes) :
    ℕ × Counters :=
  match uthash.find (c.funcMap.map (·.func)) func with
  | some i => (i, c)
  | none =>
      (c.funcMap.length,
        { c with
          funcMap := c.funcMap ++
            [⟨(cstr func).take (funcSize - 1), 0, 0, 0, 0⟩]
          funcList := c.funcList ++ [c.funcMap.length]
          funcListSize :=
            if c.funcListSize < c.funcList.length + 1 then
              c.funcListSize + 1024
            else c.funcListSize })

/-- `handle_line` -/
def handleLine (uthash : Uthash) (mem : Bytes) (lineLen : ℕ) (c : Counters) :
    Counters :=
  match acceptedLine mem lineLen with
  | none => c
  | some (frameNum, func) =>
      let (i, c) := c.findOrAdd uthash func
      let c :=
        if frameNum = 0 then
          { c with
            sampCount := c.sampCount + 1
            funcMap := c.funcMap.modify i fun e =>
              { e with countExcl := e.countExcl + 1 } }
        else c
      { c with
        funcMap := c.funcMap.modify i fun e =>
          { e with countIncl := e.countIncl + 1 } }

/-! ## What follows a line does not matter -/

theorem takeWhile_isDigit_append (s rest : Bytes) :
    (s ++ 10 :: rest).takeWhile isDigit = s.takeWhile isDigit := by
  induction s with
  | nil => rfl
  | cons b s ih =>
      rw [List.cons_append, List.takeWhile_cons, List.takeWhile_cons, ih]

theorem strtoul_append {line : Bytes} (h : line.dropWhile isSpace ≠ [])
    (rest : Bytes) :
    strtoul (line ++ 10 :: rest) = strtoul line ∧
      strtoullEnd (line ++ 10 :: rest) = strtoullEnd line := by
  have hdrop : (line ++ 10 :: rest).dropWhile isSpace =
      line.dropWhile isSpace ++ 10 :: rest := by
    rw [List.dropWhile_append, if_neg (by simpa using h)]
  have hsign : splitSign (line.dropWhile isSpace ++ 10 :: rest) =
      ((splitSign (line.dropWhile isSpace)).1,
        (splitSign (line.dropWhile isSpace)).2 ++ 10 :: rest) := by
    obtain ⟨b, bs, hb⟩ := List.exists_cons_of_ne_nil h
    rw [hb, List.cons_append, splitSign, splitSign]
    split
    · rfl
    · split <;> rfl
  constructor
  · rw [strtoul, strtoul, hdrop, hsign]
    dsimp only
    rw [takeWhile_isDigit_append]
  · rw [strtoullEnd, strtoullEnd, hdrop, hsign]
    dsimp only
    rw [takeWhile_isDigit_append, List.length_append, List.length_append,
      Nat.add_sub_add_right]

theorem length_splitSign_le (s : Bytes) : (splitSign s).2.length ≤ s.length := by
  cases s with
  | nil => exact le_rfl
  | cons b bs =>
      rw [splitSign]
      split
      · exact Nat.le_succ _
      · split
        · exact Nat.le_succ _
        · exact le_rfl

theorem strtoullEnd_le (s : Bytes) : strtoullEnd s ≤ s.length := by
  have hdigits := (List.takeWhile_sublist isDigit
    (l := (splitSign (s.dropWhile isSpace)).2)).length_le
  have hsign := length_splitSign_le (s.dropWhile isSpace)
  have hspace := (List.dropWhile_sublist isSpace (l := s)).length_le
  rw [strtoullEnd]
  split
  · exact Nat.zero_le _
  · omega

theorem acceptedLine_eq_some_iff {mem : Bytes} {lineLen : ℕ}
    {frame : ℕ × Bytes} :
    acceptedLine mem lineLen = some frame ↔
      3 ≤ lineLen ∧ mem.head? ≠ some 35 ∧
        (strtoul mem = 0 → mem.head? = some 48) ∧
        mem[strtoullEnd mem]? = some 32 ∧ strtoullEnd mem + 1 < lineLen ∧
        lineLen < strtoullEnd mem + 1 + funcSize ∧
        frame = (strtoul mem, (mem.drop (strtoullEnd mem + 1)).take
          (lineLen - (strtoullEnd mem + 1))) := by
  have hlen : ((lineLen : ℤ) - (strtoullEnd mem + 1)).toNat =
      lineLen - (strtoullEnd mem + 1) := by omega
  simp only [acceptedLine, hlen]
  split_ifs with hshort hcomment hnumber hspace hfunc
  · simp only [false_iff]
    omega
  · simp [hcomment]
  · simp [hnumber.1, hnumber.2]
  · simp [hspace]
  · simp only [false_iff]
    omega
  · have hnumber' : strtoul mem = 0 → mem.head? = some 48 :=
      fun hzero => not_not.mp fun hhead => hnumber ⟨hzero, hhead⟩
    constructor
    · intro h
      exact ⟨by omega, hcomment, hnumber', not_not.mp hspace, by omega,
        by omega, (Option.some.inj h).symm⟩
    · rintro ⟨-, -, -, -, -, -, rfl⟩
      rfl

/-- A line of blanks is not counted, even if `strtoull` finds a number behind
it. -/
theorem acceptedLine_of_blank {line : Bytes}
    (h : line.dropWhile isSpace = []) (rest : Bytes) :
    acceptedLine (line ++ 10 :: rest) line.length = none := by
  rw [Option.eq_none_iff_forall_ne_some]
  intro frame hframe
  obtain ⟨hlen, -, hnumber, -, hend, -⟩ := acceptedLine_eq_some_iff.mp hframe
  have hdrop : (line ++ 10 :: rest).dropWhile isSpace =
      rest.dropWhile isSpace := by
    rw [List.dropWhile_append, if_pos (by simpa using h)]
    rfl
  by_cases hdigits :
      (splitSign (rest.dropWhile isSpace)).2.takeWhile isDigit = []
  · have hzero : strtoul (line ++ 10 :: rest) = 0 := by
      rw [strtoul, hdrop]
      dsimp only
      rw [hdigits]
      cases (splitSign (rest.dropWhile isSpace)).1 <;> rfl
    have hhead := hnumber hzero
    obtain ⟨b, bs, rfl⟩ := List.exists_cons_of_length_pos
      (show 0 < line.length by omega)
    have hb : b = 48 := by simpa using hhead
    subst hb
    exact absurd h (by simp [List.dropWhile, isSpace])
  · have hsign := length_splitSign_le (rest.dropWhile isSpace)
    have hspace := (List.dropWhile_sublist isSpace (l := rest)).length_le
    have hpos := List.length_pos_iff.mpr hdigits
    rw [strtoullEnd, hdrop, if_neg hdigits, List.length_append,
      List.length_cons] at hend
    omega

theorem acceptedLine_append (line rest : Bytes) :
    acceptedLine (line ++ 10 :: rest) line.length =
      acceptedLine (line ++ [10]) line.length := by
  by_cases h : line.dropWhile isSpace = []
  · rw [acceptedLine_of_blank h, acceptedLine_of_blank h]
  · obtain ⟨hnumber, hend⟩ := strtoul_append h rest
    obtain ⟨hnumber', hend'⟩ := strtoul_append h []
    have hle := strtoullEnd_le line
    have hne : line ≠ [] := by
      rintro rfl
      exact h rfl
    have hbyte : (line ++ 10 :: rest)[strtoullEnd line]? =
        (line ++ [10])[strtoullEnd line]? := by
      rw [← List.singleton_append, ← List.append_assoc,
        List.getElem?_append_left]
      rw [List.length_append, List.length_singleton]
      omega
    have hfunc : ∀ behind, ((line ++ behind).drop (strtoullEnd line + 1)).take
        (line.length - (strtoullEnd line + 1)) =
          line.drop (strtoullEnd line + 1) := by
      intro behind
      rw [← List.drop_take, List.take_left]
    ext frame
    rw [acceptedLine_eq_some_iff, acceptedLine_eq_some_iff, hnumber, hend,
      hnumber', hend', List.head?_append_of_ne_nil _ hne,
      List.head?_append_of_ne_nil _ hne, hbyte, hfunc, hfunc]

/-- What `handle_line` does with a line, wherever the line is. -/
def countLine (uthash : Uthash) (line : Bytes) (c : Counters) : Counters :=
  handleLine uthash (line ++ [10]) line.length c

theorem handleLine_eq_countLine (uthash : Uthash) (line rest : Bytes)
    (c : Counters) :
    handleLine uthash (line ++ 10 :: rest) line.length c =
      countLine uthash line c := by
  rw [countLine, handleLine, handleLine, acceptedLine_append]

end Top
end Phpspy

import Phpspy.Support.FindOrAdd
import Phpspy.Trace.Memory

/-!
# Adding varspecs

`varpeek_add` parses `var@path:line` or `var@path:start-end` and enters the
variable under a key `path:line` for every line of the range.  `trace_locals`
builds such a key from the file and the line it finds and looks the variable up
under it.  Both keys are cut to the size of a buffer.
-/

namespace Phpspy
namespace Varpeek

open ByteText FindOrAdd

/-! ## Parts of the C library -/

/-- The bytes for which `isspace` holds. -/
def isSpace (b : UInt8) : Bool :=
  b = 32 || (9 ≤ b && b ≤ 13)

/-- A sign in front of a number, and what follows it. -/
def splitSign : Bytes → Bool × Bytes
  | [] => (false, [])
  | b :: bs =>
      if b = 45 then (true, bs) else if b = 43 then (false, bs)
      else (false, b :: bs)

/-- `strtoul(s, NULL, 10)` -/
def strtoul (s : Bytes) : ℕ :=
  let (negated, s) := splitSign (s.dropWhile isSpace)
  let n := numVal (s.takeWhile isDigit)
  if 2 ^ 64 ≤ n then 2 ^ 64 - 1
  else if negated then (2 ^ 64 - n) % 2 ^ 64
  else n

/-- The conversion `%.*s`.  A negative precision counts as none. -/
def precise (precision : ℤ) (s : Bytes) : Bytes :=
  if precision < 0 then cstr s else cstr (s.take precision.toNat)

/-- What `snprintf` leaves in a buffer of `PHPSPY_STR_SIZE` bytes. -/
def strBuf (text : Bytes) : Bytes :=
  text.take (strSize - 1)

/-! ## The map -/

/-- `varpeek_map`: the names in the `varmap` of each key.  A name that is added
twice is in the `varmap` twice. -/
abbrev VarpeekMap := Table Bytes (List Bytes)

/-- The key of a file and a line, `%.*s:%d`. -/
def varpeekKey (fileLen : ℤ) (file : Bytes) (lineno : ℕ) : Bytes :=
  strBuf (precise fileLen file ++ lit ":" ++ decimalInt (wrap32 lineno))

def addLine (map : VarpeekMap) (key name : Bytes) : VarpeekMap :=
  modify (findOrAdd map key []) key (name :: ·)

/-- Why there is no map: the process has printed its usage and exited, or the
line loop is still running. -/
inductive Halt where
  | usage
  | running
deriving DecidableEq, Repr

/-- The line loop of `varpeek_add`.  Line numbers have 32 bits. -/
def lineLoop (key : ℕ → Bytes) (name : Bytes) (lineEnd : ℕ) :
    ℕ → ℕ → VarpeekMap → Except Halt VarpeekMap
  | 0, _, _ => .error .running
  | fuel + 1, lineno, map =>
      if lineno ≤ lineEnd then
        lineLoop key name lineEnd fuel ((lineno + 1) % 2 ^ 32)
          (addLine map (key lineno) name)
      else .ok map

/-- `line_end`: the number behind the last dash after the colon, if there is
one. -/
def parseLineEnd (varspec : Bytes) (colon lineStart : ℕ) : ℕ :=
  match memrchr 45 (varspec.drop colon) with
  | some dash => strtoul (varspec.drop (colon + dash + 1)) % 2 ^ 32
  | none => lineStart

/-- `varpeek_add` -/
def varpeekAdd (fuel : ℕ) (map : VarpeekMap) (varspec : Bytes) :
    Except Halt VarpeekMap :=
  match memchr 64 varspec, memrchr 58 varspec with
  | some atSign, some colon =>
      let lineStart := strtoul (varspec.drop (colon + 1)) % 2 ^ 32
      let lineEnd := parseLineEnd varspec colon lineStart
      let key := varpeekKey (wrap32 (colon - atSign - 1 : ℤ))
        (varspec.drop (atSign + 1))
      let name := strBuf (precise (wrap32 atSign) varspec)
      lineLoop key name lineEnd fuel lineStart map
  | _, _ => .error .usage

/-- The varspecs of a command line, one after the other. -/
def varpeekAddAll (fuel : ℕ) : VarpeekMap → List Bytes →
    Except Halt VarpeekMap
  | map, [] => .ok map
  | map, varspec :: varspecs => do
      let map ← varpeekAdd fuel map varspec
      varpeekAddAll fuel map varspecs

/-! ## Looking up -/

/-- The `varmap` that `trace_locals` finds for a file and a line. -/
def varpeekEntry (map : VarpeekMap) (file : Bytes) (lineno : ℕ) :
    Option (List Bytes) :=
  map.lookup (varpeekKey file.length file lineno)

/-- `trace_locals` finds an entry for the line, and the variable in it. -/
def looksUp (map : VarpeekMap) (file : Bytes) (lineno : ℕ) (var : Bytes) :
    Bool :=
  match varpeekEntry map file lineno with
  | some varmap => varmap.contains var
  | none => false

def namesAt (map : VarpeekMap) (key : Bytes) : List Bytes :=
  (map.lookup key).getD []

theorem looksUp_iff (map : VarpeekMap) (file : Bytes) (lineno : ℕ)
    (var : Bytes) :
    looksUp map file lineno var = true ↔
      var ∈ namesAt map (varpeekKey file.length file lineno) := by
  unfold looksUp varpeekEntry namesAt
  cases map.lookup (varpeekKey file.length file lineno) with
  | none => simp
  | some varmap => simp

theorem mem_namesAt_addLine (map : VarpeekMap) (key name key' name' : Bytes) :
    name' ∈ namesAt (addLine map key name) key' ↔
      name' ∈ namesAt map key' ∨ key' = key ∧ name' = name := by
  rw [namesAt, addLine, lookup_modify_findOrAdd]
  by_cases hkey : key' = key
  · subst hkey
    rw [if_pos rfl, Option.getD_some, List.mem_cons, namesAt]
    simp only [true_and]
    exact or_comm
  · rw [if_neg hkey, namesAt]
    simp only [hkey, false_and, or_false]

/-- With enough fuel the line loop ends, and it has entered the name for every
line of the range. -/
theorem lineLoop_spec (key : ℕ → Bytes) (name : Bytes) {lineEnd : ℕ}
    (hend : lineEnd < 2 ^ 32 - 1) {fuel lineno : ℕ}
    (hfuel : lineEnd + 2 ≤ fuel + lineno) (hline : lineno ≤ lineEnd + 1)
    (map : VarpeekMap) :
    ∃ map', lineLoop key name lineEnd fuel lineno map = .ok map' ∧
      ∀ key' name', name' ∈ namesAt map' key' ↔
        name' ∈ namesAt map key' ∨
          ∃ n, lineno ≤ n ∧ n ≤ lineEnd ∧ key' = key n ∧ name' = name := by
  induction fuel generalizing lineno map with
  | zero => omega
  | succ fuel ih =>
      rw [lineLoop]
      by_cases hin : lineno ≤ lineEnd
      · have hnext : (lineno + 1) % 2 ^ 32 = lineno + 1 :=
          Nat.mod_eq_of_lt (by omega)
        obtain ⟨map', hloop, hnames⟩ := @ih (lineno + 1) (by omega)
          (by omega) (addLine map (key lineno) name)
        refine ⟨map', ?_, fun key' name' => ?_⟩
        · rw [if_pos hin, hnext, hloop]
        · rw [hnames, mem_namesAt_addLine, or_assoc]
          refine or_congr_right ⟨?_, ?_⟩
          · rintro (⟨hkey, hname⟩ | ⟨n, hle, hrest⟩)
            · exact ⟨lineno, le_refl _, hin, hkey, hname⟩
            · exact ⟨n, by omega, hrest⟩
          · rintro ⟨n, hle, hrest⟩
            by_cases hn : n = lineno
            · subst hn
              exact Or.inl hrest.2
            · exact Or.inr ⟨n, by omega, hrest⟩
      · refine ⟨map, if_neg hin, fun key' name' => ?_⟩
        constructor
        · exact Or.inl
        · rintro (hmem | ⟨n, hle, hge, -⟩)
          · exact hmem
          · omega

/-! ## The end of the line loop -/

/-- `line_start` and `line_end` of a varspec with a colon. -/
def lineBounds (varspec : Bytes) : Option (ℕ × ℕ) :=
  (memrchr 58 varspec).map fun colon =>
    let lineStart := strtoul (varspec.drop (colon + 1)) % 2 ^ 32
    (lineStart, parseLineEnd varspec colon lineStart)

theorem lineBounds_lt {varspec : Bytes} {lineStart lineEnd : ℕ}
    (h : lineBounds varspec = some (lineStart, lineEnd)) :
    lineStart < 2 ^ 32 ∧ lineEnd < 2 ^ 32 := by
  obtain ⟨colon, -, hbounds⟩ := Option.map_eq_some_iff.mp h
  obtain ⟨rfl, rfl⟩ := Prod.mk.inj hbounds
  have hlt : ∀ n, n % 2 ^ 32 < 2 ^ 32 := fun n => Nat.mod_lt n (by decide)
  refine ⟨hlt _, ?_⟩
  unfold parseLineEnd
  split
  · exact hlt _
  · exact hlt _

/-- The loop leaves as soon as the line number is above the last line, and
before that it takes one pass for every line. -/
theorem exists_lineLoop_eq_ok (key : ℕ → Bytes) (name : Bytes)
    {lineno lineEnd : ℕ} (hend : lineEnd < 2 ^ 32 - 1) (map : VarpeekMap) :
    ∃ map', lineLoop key name lineEnd (lineEnd + 1 - lineno + 1) lineno map =
      .ok map' := by
  by_cases hline : lineno ≤ lineEnd + 1
  · obtain ⟨map', hloop, -⟩ := @lineLoop_spec key name lineEnd hend
      (lineEnd + 1 - lineno + 1) lineno (by omega) hline map
    exact ⟨map', hloop⟩
  · exact ⟨map, by rw [lineLoop, if_neg (by omega)]⟩

theorem lineLoop_running (key : ℕ → Bytes) (name : Bytes) (fuel : ℕ)
    {lineno : ℕ} (hline : lineno < 2 ^ 32) (map : VarpeekMap) :
    lineLoop key name (2 ^ 32 - 1) fuel lineno map = .error .running := by
  induction fuel generalizing lineno map with
  | zero => rfl
  | succ fuel ih =>
      rw [lineLoop, if_pos (by omega)]
      exact ih (Nat.mod_lt _ (by decide)) _

/-- The line loop ends after one pass for each line of the range, unless the
last line is the largest 32-bit number.  Then it never ends. -/
theorem varpeekAdd_ends_iff {varspec : Bytes} (hat : (64 : UInt8) ∈ varspec)
    {lineStart lineEnd : ℕ}
    (hlines : lineBounds varspec = some (lineStart, lineEnd))
    (map : VarpeekMap) :
    ((∃ map', varpeekAdd (lineEnd + 1 - lineStart + 1) map varspec =
        .ok map') ↔ lineEnd ≠ 2 ^ 32 - 1) ∧
      (lineEnd = 2 ^ 32 - 1 →
        ∀ fuel, varpeekAdd fuel map varspec = .error .running) := by
  obtain ⟨hstart, hend⟩ := lineBounds_lt hlines
  obtain ⟨colon, hcolon, hbounds⟩ := Option.map_eq_some_iff.mp hlines
  obtain ⟨rfl, rfl⟩ := Prod.mk.inj hbounds
  obtain ⟨atSign, hatSign⟩ : ∃ atSign, memchr 64 varspec = some atSign :=
    Option.ne_none_iff_exists'.mp fun h => memchr_eq_none_iff.mp h hat
  have hnever : ∀ fuel, parseLineEnd varspec colon
      (strtoul (varspec.drop (colon + 1)) % 2 ^ 32) = 2 ^ 32 - 1 →
        varpeekAdd fuel map varspec = .error .running := by
    intro fuel hmax
    simp only [varpeekAdd, hatSign, hcolon, hmax]
    exact lineLoop_running _ _ fuel hstart map
  refine ⟨⟨?_, ?_⟩, fun hmax fuel => hnever fuel hmax⟩
  · rintro ⟨map', hok⟩ hmax
    rw [hnever _ hmax] at hok
    cases hok
  · intro hne
    simp only [varpeekAdd, hatSign, hcolon]
    exact exists_lineLoop_eq_ok _ _ (by omega) map

theorem threeLines_end :
    lineBounds (lit "v@f:7-9") = some (7, 9) ∧
      ∃ map', varpeekAdd 4 ∅ (lit "v@f:7-9") = .ok map' :=
  ⟨by decide, (varpeekAdd_ends_iff (by decide)
    (show lineBounds (lit "v@f:7-9") = some (7, 9) by decide) ∅).1.mpr
      (by decide)⟩

/-- A line number that is too large for `strtoul`, and the largest one. -/
theorem largestLine_never_ends :
    lineBounds (lit "v@f:1-99999999999999999999") = some (1, 2 ^ 32 - 1) ∧
      (¬ ∃ fuel map', varpeekAdd fuel ∅ (lit "v@f:1-99999999999999999999") =
        .ok map') ∧
      ¬ ∃ fuel map', varpeekAdd fuel ∅ (lit "v@f:4294967295") =
        .ok map' := by
  refine ⟨by decide +kernel, ?_, ?_⟩
  · rintro ⟨fuel, map', hok⟩
    have hrunning : varpeekAdd fuel ∅ (lit "v@f:1-99999999999999999999") =
        .error .running := lineLoop_running _ _ fuel (by decide +kernel) ∅
    rw [hrunning] at hok
    cases hok
  · rintro ⟨fuel, map', hok⟩
    have hrunning : varpeekAdd fuel ∅ (lit "v@f:4294967295") =
        .error .running := lineLoop_running _ _ fuel (by decide +kernel) ∅
    rw [hrunning] at hok
    cases hok

end Varpeek
end Phpspy

import Phpspy.Callgrind.Handler
import Phpspy.Support.LineSplitting
import Phpspy.Support.SortedTable

/-!
# The dump of the `callgrind` event handler

At the end of a run the handler sorts its tables by the location strings and
prints them.  A reader of the format goes over the lines and keeps the file and
the function that the next costs belong to.  It gets back what is in the table.
-/

namespace Phpspy

namespace Callgrind

open ByteText FindOrAdd LineSplitting

/-! ## Printing -/

/-- The conversion `%ld`, of a `uint64_t`. -/
def ld (n : ℕ) : Bytes :=
  decimalInt (BitVec.ofNat 64 n).toInt

/-- What is printed for the class and the function of a location. -/
def fnText (loc : TraceLoc) : Bytes :=
  cstr loc.cls ++ (if loc.cls.length > 0 then lit "::" else []) ++
    cstr loc.func

/-- A table after `HASH_SORT`, as `HASH_ITER` visits it. -/
def hashSort {ν : Type} (t : Table Bytes ν) : List ν :=
  (rows strLe t).map fun e => e.2

/-- What `callgrind_dump` prints for a callee, line by line. -/
def dumpCallee (caller : Caller) (callee : Callee) : List Bytes :=
  [[],
    lit "cfl=" ++ cstr callee.loc.file,
    lit "cfn=" ++ fnText callee.loc,
    lit "calls=" ++ ld callee.count ++ lit " " ++
      decimalInt callee.loc.lineno,
    decimalInt caller.loc.lineno ++ lit " " ++ ld callee.inclusive]

/-- What `callgrind_dump` prints for a caller. -/
def dumpCaller (caller : Caller) : List Bytes :=
  [[],
    lit "fl=" ++ cstr caller.loc.file,
    lit "fn=" ++ fnText caller.loc,
    decimalInt caller.loc.lineno ++ lit " " ++ ld caller.exclusive] ++
  (hashSort caller.callees).flatMap (dumpCallee caller)

def dumpHeader : List Bytes :=
  [lit "# callgrind format", lit "version: 1", lit "creator: phpspy",
    lit "events: Samples"]

def dumpLines (callers : Table Bytes Caller) : List Bytes :=
  dumpHeader ++ (hashSort callers).flatMap dumpCaller

/-- `callgrind_dump`: each `fprintf` is one line. -/
def dump (callers : Table Bytes Caller) : Bytes :=
  ((dumpLines callers).map (· ++ [10])).flatten

/-! ## Reading -/

/-- A location as the format has it. -/
structure Place where
  file : Bytes
  fn : Bytes
  line : ℤ
deriving DecidableEq, Repr

def place (loc : TraceLoc) : Place :=
  { file := cstr loc.file
    fn := fnText loc
    line := loc.lineno }

/-- The costs of a call: how often it was made, and its inclusive cost. -/
structure CallCost where
  caller : Place
  callee : Place
  count : ℕ
  inclusive : ℕ
deriving DecidableEq, Repr

structure Profile where
  selves : List (Place × ℕ)
  calls : List CallCost
deriving DecidableEq, Repr

/-- The lines of the format. -/
inductive Line where
  | note
  | fl (file : Bytes)
  | fn (name : Bytes)
  | cfl (file : Bytes)
  | cfn (name : Bytes)
  | calls (count : ℕ) (line : ℤ)
  | cost (line : ℤ) (cost : ℕ)
deriving DecidableEq, Repr

def after (key line : Bytes) : Option Bytes :=
  if key.isPrefixOf line then some (line.drop key.length) else none

def readNat (text : Bytes) : Option ℕ :=
  if text ≠ [] ∧ text.all isDigit then some (numVal text) else none

def readInt : Bytes → Option ℤ
  | [] => none
  | b :: text =>
      if b = 45 then (readNat text).map fun n => -(n : ℤ)
      else (readNat (b :: text)).map fun n => (n : ℤ)

def atBlank (text : Bytes) : Bytes × Bytes :=
  (text.takeWhile (· != 32), (text.dropWhile (· != 32)).tail)

def readCalls (text : Bytes) : Option Line := do
  let count ← readNat (atBlank text).1
  let line ← readInt (atBlank text).2
  return .calls count line

def readCost (text : Bytes) : Option Line := do
  let line ← readInt (atBlank text).1
  let cost ← readNat (atBlank text).2
  return .cost line cost

/-- Blank lines, comments and the header. -/
def isNote (line : Bytes) : Bool :=
  line.isEmpty || (lit "#").isPrefixOf line ||
    (lit "version:").isPrefixOf line || (lit "creator:").isPrefixOf line ||
      (lit "events:").isPrefixOf line

def keywords : List (Bytes × (Bytes → Option Line)) :=
  [(lit "fl=", fun file => some (.fl file)),
    (lit "fn=", fun name => some (.fn name)),
    (lit "cfl=", fun file => some (.cfl file)),
    (lit "cfn=", fun name => some (.cfn name)),
    (lit "calls=", readCalls)]

def parseLine (line : Bytes) : Option Line :=
  if isNote line then some .note
  else
    match keywords.findSome? fun k => (after k.1 line).map k.2 with
    | some parsed => parsed
    | none => readCost line

/-- What a reader knows: the file and the function it is in, those that are
called, and the count and the line of a call whose cost is still to come. -/
structure Reader where
  file : Bytes
  fn : Bytes
  cfile : Bytes
  cfn : Bytes
  pending : Option (ℕ × ℤ)
  profile : Profile

def Reader.start : Reader :=
  { file := []
    fn := []
    cfile := []
    cfn := []
    pending := none
    profile := { selves := [], calls := [] } }

def Reader.here (r : Reader) (line : ℤ) : Place :=
  { file := r.file
    fn := r.fn
    line := line }

def Reader.there (r : Reader) (line : ℤ) : Place :=
  { file := r.cfile
    fn := r.cfn
    line := line }

def Profile.addSelf (p : Profile) (place : Place) (cost : ℕ) : Profile :=
  { p with selves := p.selves ++ [(place, cost)] }

def Profile.addCalls (p : Profile) (calls : List CallCost) : Profile :=
  { p with calls := p.calls ++ calls }

def Reader.step (r : Reader) : Line → Reader
  | .note => r
  | .fl file => { r with file := file }
  | .fn name => { r with fn := name }
  | .cfl file => { r with cfile := file }
  | .cfn name => { r with cfn := name }
  | .calls count line => { r with pending := some (count, line) }
  | .cost line cost =>
      match r.pending with
      | none => { r with profile := r.profile.addSelf (r.here line) cost }
      | some (count, target) =>
          { r with
            pending := none
            profile := r.profile.addCalls
              [{ caller := r.here line
                 callee := r.there target
                 count := count
                 inclusive := cost }] }

def Reader.readLine (r : Reader) (line : Bytes) : Option Reader :=
  (parseLine line).map r.step

def Reader.readLines (r : Reader) (lines : List Bytes) : Option Reader :=
  lines.foldlM Reader.readLine r

/-- A reader of the format, as far as it is used here: names and positions are
written out, each line is complete. -/
def readProfile (text : Bytes) : Option Profile :=
  if (cut 10 text).2 = [] then
    (Reader.start.readLines (cut 10 text).1).map Reader.profile
  else none

def Caller.call (caller : Caller) (callee : Callee) : CallCost :=
  { caller := place caller.loc
    callee := place callee.loc
    count := callee.count
    inclusive := callee.inclusive }

def Caller.calls (caller : Caller) : List CallCost :=
  (hashSort caller.callees).map caller.call

def profile (callers : Table Bytes Caller) : Profile :=
  { selves := (hashSort callers).map fun c => (place c.loc, c.exclusive)
    calls := (hashSort callers).flatMap Caller.calls }

/-! ## The lines of a dump -/

theorem ld_eq {n : ℕ} (h : n < 2 ^ 63) : ld n = decimal n := by
  have hint : (BitVec.ofNat 64 n).toInt = n := by
    have hmod : (BitVec.ofNat 64 n).toNat = n :=
      (BitVec.toNat_ofNat n 64).trans (Nat.mod_eq_of_lt (by omega))
    rw [BitVec.toInt_eq_toNat_of_lt (by omega), hmod]
  rw [ld, hint]
  rfl

theorem readNat_decimal (n : ℕ) : readNat (decimal n) = some n := by
  have hdigits : (decimal n).all isDigit = true :=
    List.all_eq_true.mpr fun b hb => decimal_isDigit hb
  rw [readNat, if_pos ⟨decimal_ne_nil n, hdigits⟩, numVal_decimal]

theorem decimalInt_eq_cons (i : ℤ) :
    ∃ b text, decimalInt i = b :: text ∧ (isDigit b = true ∨ b = 45) := by
  cases i with
  | ofNat n =>
      obtain ⟨b, text, htext⟩ := List.exists_cons_of_ne_nil (decimal_ne_nil n)
      have hb : b ∈ decimal n := by
        rw [htext]
        exact List.mem_cons_self
      exact ⟨b, text, htext, Or.inl (decimal_isDigit hb)⟩
  | negSucc n => exact ⟨45, decimal (n + 1), rfl, Or.inr rfl⟩

theorem readInt_decimalInt (i : ℤ) : readInt (decimalInt i) = some i := by
  cases i with
  | ofNat n =>
      have hread := readNat_decimal n
      obtain ⟨b, text, htext⟩ := List.exists_cons_of_ne_nil (decimal_ne_nil n)
      have hb : isDigit b = true := by
        apply @decimal_isDigit n
        rw [htext]
        exact List.mem_cons_self
      have hsign : b ≠ 45 := by
        rintro rfl
        cases hb
      rw [htext] at hread
      rw [decimalInt, htext, readInt, if_neg hsign, hread]
      rfl
  | negSucc n =>
      rw [decimalInt, readInt, if_pos rfl, readNat_decimal]
      rfl

theorem atBlank_append {text : Bytes} (h : (32 : UInt8) ∉ text)
    (rest : Bytes) : atBlank (text ++ lit " " ++ rest) = (text, rest) := by
  have hall : ∀ b ∈ text, (b != 32) = true := by
    intro b hb
    rw [bne_iff_ne]
    rintro rfl
    exact h hb
  rw [atBlank, List.append_assoc, List.takeWhile_append_of_pos hall,
    List.dropWhile_append_of_pos hall]
  refine Prod.ext ?_ rfl
  exact List.append_nil text

theorem parseLine_fl (file : Bytes) :
    parseLine (lit "fl=" ++ file) = some (.fl file) :=
  rfl

theorem parseLine_fn (name : Bytes) :
    parseLine (lit "fn=" ++ name) = some (.fn name) :=
  rfl

theorem parseLine_cfl (file : Bytes) :
    parseLine (lit "cfl=" ++ file) = some (.cfl file) :=
  rfl

theorem parseLine_cfn (name : Bytes) :
    parseLine (lit "cfn=" ++ name) = some (.cfn name) :=
  rfl

theorem parseLine_calls {count : ℕ} (hcount : count < 2 ^ 63) (line : ℤ) :
    parseLine (lit "calls=" ++ ld count ++ lit " " ++ decimalInt line) =
      some (.calls count line) := by
  have hblank : (32 : UInt8) ∉ decimal count := by
    intro hmem
    cases decimal_isDigit hmem
  have hkey (text : Bytes) :
      parseLine (lit "calls=" ++ text) = readCalls text :=
    rfl
  rw [ld_eq hcount, List.append_assoc, List.append_assoc, hkey, readCalls,
    ← List.append_assoc, atBlank_append hblank, readNat_decimal,
    readInt_decimalInt]
  rfl

theorem isPrefixOf_number {b k : UInt8} (hb : isDigit b = true ∨ b = 45)
    (hk : isDigit k = false ∧ k ≠ 45) (key text : Bytes) :
    (k :: key).isPrefixOf (b :: text) = false := by
  have hne : k ≠ b := by
    rintro rfl
    rcases hb with hb | hb
    · rw [hk.1] at hb
      cases hb
    · exact hk.2 hb
  rw [List.isPrefixOf, beq_eq_false_iff_ne.mpr hne, Bool.false_and]

theorem parseLine_number {b : UInt8} (hb : isDigit b = true ∨ b = 45)
    (text : Bytes) : parseLine (b :: text) = readCost (b :: text) := by
  have hnote : isNote (b :: text) = false := by
    have h (k : UInt8) (hk : isDigit k = false ∧ k ≠ 45) (key : Bytes) :=
      isPrefixOf_number hb hk key text
    rw [isNote]
    simp only [Bool.or_eq_false_iff]
    exact ⟨⟨⟨⟨rfl, h 35 (by decide) _⟩, h 118 (by decide) _⟩,
      h 99 (by decide) _⟩, h 101 (by decide) _⟩
  have hkeys : keywords.findSome?
      (fun k => (after k.1 (b :: text)).map k.2) = none := by
    rw [List.findSome?_eq_none_iff]
    have h (k : UInt8) (hk : isDigit k = false ∧ k ≠ 45) (key : Bytes) :
        after (k :: key) (b :: text) = none := by
      rw [after, isPrefixOf_number hb hk]
      rfl
    intro k hk
    simp only [keywords, List.mem_cons, List.not_mem_nil, or_false] at hk
    rw [Option.map_eq_none_iff]
    rcases hk with rfl | rfl | rfl | rfl | rfl
    · exact h 102 (by decide) _
    · exact h 102 (by decide) _
    · exact h 99 (by decide) _
    · exact h 99 (by decide) _
    · exact h 99 (by decide) _
  rw [parseLine, hnote, hkeys]
  rfl

theorem parseLine_cost {cost : ℕ} (hcost : cost < 2 ^ 63) (line : ℤ) :
    parseLine (decimalInt line ++ lit " " ++ ld cost) =
      some (.cost line cost) := by
  obtain ⟨b, text, htext, hb⟩ := decimalInt_eq_cons line
  have hparse : parseLine (decimalInt line ++ lit " " ++ ld cost) =
      readCost (decimalInt line ++ lit " " ++ ld cost) := by
    rw [htext]
    exact parseLine_number hb _
  have hblank : (32 : UInt8) ∉ decimalInt line :=
    notMem_decimalInt (by decide) (by decide) line
  rw [hparse, readCost, atBlank_append hblank, readInt_decimalInt,
    ld_eq hcost, readNat_decimal]
  rfl

/-! ## Reading a dump -/

/-- The names of a location are without a newline. -/
def IsOneLine (loc : TraceLoc) : Prop :=
  (10 : UInt8) ∉ cstr loc.file ∧ (10 : UInt8) ∉ cstr loc.cls ∧
    (10 : UInt8) ∉ cstr loc.func

/-- A callee that can be printed: names without a newline, and numbers that are
not negative as a `long`. -/
structure Callee.IsPrintable (c : Callee) : Prop where
  loc : IsOneLine c.loc
  count : c.count < 2 ^ 63
  inclusive : c.inclusive < 2 ^ 63

structure Caller.IsPrintable (c : Caller) : Prop where
  loc : IsOneLine c.loc
  exclusive : c.exclusive < 2 ^ 63
  callees : Entries (fun _ d => Callee.IsPrintable d) c.callees

theorem notMem_fnText {loc : TraceLoc} (h : IsOneLine loc) :
    (10 : UInt8) ∉ fnText loc := by
  obtain ⟨-, hcls, hfunc⟩ := h
  rw [fnText, List.mem_append, List.mem_append]
  rintro ((hmem | hmem) | hmem)
  · exact hcls hmem
  · split at hmem
    · revert hmem
      decide
    · cases hmem
  · exact hfunc hmem

theorem mem_hashSort {ν : Type} {t : Table Bytes ν} {v : ν} :
    v ∈ hashSort t ↔ ∃ k, t.lookup k = some v := by
  rw [hashSort, List.mem_map]
  constructor
  · rintro ⟨e, he, rfl⟩
    exact ⟨e.1, (mem_rows strLe).mp he⟩
  · rintro ⟨k, hk⟩
    exact ⟨⟨k, v⟩, (mem_rows strLe).mpr hk, rfl⟩

theorem forall_mem_hashSort {ν : Type} {P : ν → Prop} {t : Table Bytes ν}
    (h : Entries (fun _ v => P v) t) : ∀ v ∈ hashSort t, P v := by
  intro v hv
  obtain ⟨k, hk⟩ := mem_hashSort.mp hv
  exact h k v hk

theorem notMem_of_mem_dumpCallee {caller : Caller} {callee : Callee}
    (h : IsOneLine callee.loc) :
    ∀ line ∈ dumpCallee caller callee, (10 : UInt8) ∉ line := by
  have hnum := notMem_decimalInt (b := 10) (by decide) (by decide)
  have hfn := notMem_fnText h
  intro line hline
  simp only [dumpCallee, List.mem_cons, List.not_mem_nil, or_false] at hline
  rcases hline with rfl | rfl | rfl | rfl | rfl
  · exact List.not_mem_nil
  · rw [List.mem_append]
    exact not_or.mpr ⟨by decide, h.1⟩
  · rw [List.mem_append]
    exact not_or.mpr ⟨by decide, hfn⟩
  · simp only [List.mem_append, not_or]
    exact ⟨⟨⟨by decide, hnum _⟩, by decide⟩, hnum _⟩
  · simp only [List.mem_append, not_or]
    exact ⟨⟨hnum _, by decide⟩, hnum _⟩

theorem notMem_of_mem_dumpCaller {caller : Caller} (h : caller.IsPrintable) :
    ∀ line ∈ dumpCaller caller, (10 : UInt8) ∉ line := by
  have hnum := notMem_decimalInt (b := 10) (by decide) (by decide)
  have hfn := notMem_fnText h.loc
  intro line hline
  rw [dumpCaller, List.mem_append, List.mem_flatMap] at hline
  rcases hline with hline | ⟨callee, hcallee, hline⟩
  · simp only [List.mem_cons, List.not_mem_nil, or_false] at hline
    rcases hline with rfl | rfl | rfl | rfl
    · exact List.not_mem_nil
    · rw [List.mem_append]
      exact not_or.mpr ⟨by decide, h.loc.1⟩
    · rw [List.mem_append]
      exact not_or.mpr ⟨by decide, hfn⟩
    · simp only [List.mem_append, not_or]
      exact ⟨⟨hnum _, by decide⟩, hnum _⟩
  · have hprint := forall_mem_hashSort h.callees callee hcallee
    exact notMem_of_mem_dumpCallee hprint.loc line hline

theorem notMem_of_mem_dumpLines {callers : Table Bytes Caller}
    (h : Entries (fun _ c => Caller.IsPrintable c) callers) :
    ∀ line ∈ dumpLines callers, (10 : UInt8) ∉ line := by
  intro line hline
  rw [dumpLines, List.mem_append, List.mem_flatMap] at hline
  rcases hline with hline | ⟨caller, hcaller, hline⟩
  · revert line
    decide
  · exact notMem_of_mem_dumpCaller (forall_mem_hashSort h caller hcaller)
      line hline

/-- A reader that is in a caller, with no call begun. -/
structure Reader.At (r : Reader) (loc : TraceLoc) (p : Profile) : Prop where
  file : r.file = cstr loc.file
  fn : r.fn = fnText loc
  pending : r.pending = none
  profile : r.profile = p

theorem Reader.readLines_append (r : Reader) (xs ys : List Bytes) :
    r.readLines (xs ++ ys) = (r.readLines xs).bind fun r' => r'.readLines ys :=
  List.foldlM_append

theorem readLines_dumpCallee {r : Reader} {caller : Caller} {callee : Callee}
    {p : Profile} (hr : r.At caller.loc p) (h : callee.IsPrintable) :
    ∃ r', r.readLines (dumpCallee caller callee) = some r' ∧
      r'.At caller.loc (p.addCalls [caller.call callee]) := by
  have hblank : parseLine [] = some .note := rfl
  have hcalls := parseLine_calls h.count callee.loc.lineno
  have hcost := parseLine_cost h.inclusive caller.loc.lineno
  simp only [Reader.readLines, dumpCallee, List.foldlM_cons,
    List.foldlM_nil, Reader.readLine, hblank, parseLine_cfl, parseLine_cfn,
    hcalls, hcost, Option.map_some, Option.bind_eq_bind, Option.bind_some,
    Option.pure_def]
  refine ⟨_, rfl, hr.file, hr.fn, rfl, ?_⟩
  simp only [Reader.step, Reader.here, Reader.there, hr.file, hr.fn,
    hr.profile]
  rfl

theorem readLines_dumpCallees {r : Reader} {caller : Caller}
    {callees : List Callee} {p : Profile} (hr : r.At caller.loc p)
    (h : ∀ callee ∈ callees, callee.IsPrintable) :
    ∃ r', r.readLines (callees.flatMap (dumpCallee caller)) = some r' ∧
      r'.At caller.loc (p.addCalls (callees.map caller.call)) := by
  induction callees generalizing r p with
  | nil =>
      refine ⟨r, rfl, ?_⟩
      rwa [List.map_nil, Profile.addCalls, List.append_nil]
  | cons callee callees ih =>
      obtain ⟨r₁, hread₁, hr₁⟩ :=
        readLines_dumpCallee hr (h callee List.mem_cons_self)
      obtain ⟨r₂, hread₂, hr₂⟩ :=
        ih hr₁ fun c hc => h c (List.mem_cons_of_mem callee hc)
      refine ⟨r₂, ?_, ?_⟩
      · rw [List.flatMap_cons, Reader.readLines_append, hread₁]
        exact hread₂
      · rw [Profile.addCalls, Profile.addCalls, List.append_assoc] at hr₂
        exact hr₂

theorem readLines_dumpCaller {r : Reader} {caller : Caller} {p : Profile}
    (hpending : r.pending = none) (hp : r.profile = p)
    (h : caller.IsPrintable) :
    ∃ r', r.readLines (dumpCaller caller) = some r' ∧
      r'.At caller.loc
        ((p.addSelf (place caller.loc) caller.exclusive).addCalls
          caller.calls) := by
  have hblank : parseLine [] = some .note := rfl
  have hcost := parseLine_cost h.exclusive caller.loc.lineno
  have hself : ∃ r₁, r.readLines
      [[], lit "fl=" ++ cstr caller.loc.file, lit "fn=" ++ fnText caller.loc,
        decimalInt caller.loc.lineno ++ lit " " ++ ld caller.exclusive] =
          some r₁ ∧
      r₁.At caller.loc (p.addSelf (place caller.loc) caller.exclusive) := by
    simp only [Reader.readLines, List.foldlM_cons, List.foldlM_nil,
      Reader.readLine, hblank, parseLine_fl, parseLine_fn, hcost,
      Option.map_some, Option.bind_eq_bind, Option.bind_some,
      Option.pure_def]
    simp only [Reader.step, Reader.here, hpending, hp]
    exact ⟨_, rfl, rfl, rfl, rfl, rfl⟩
  obtain ⟨r₁, hread₁, hr₁⟩ := hself
  obtain ⟨r₂, hread₂, hr₂⟩ :=
    readLines_dumpCallees hr₁ (forall_mem_hashSort h.callees)
  refine ⟨r₂, ?_, hr₂⟩
  rw [dumpCaller, Reader.readLines_append, hread₁]
  exact hread₂

theorem readLines_dumpCallers {r : Reader} {callers : List Caller}
    (hpending : r.pending = none) (h : ∀ c ∈ callers, c.IsPrintable) :
    ∃ r', r.readLines (callers.flatMap dumpCaller) = some r' ∧
      r'.profile =
        { selves := r.profile.selves ++
            callers.map fun c => (place c.loc, c.exclusive)
          calls := r.profile.calls ++ callers.flatMap Caller.calls } := by
  induction callers generalizing r with
  | nil => exact ⟨r, rfl, by simp⟩
  | cons caller callers ih =>
      obtain ⟨r₁, hread₁, hr₁⟩ :=
        readLines_dumpCaller hpending rfl (h caller List.mem_cons_self)
      obtain ⟨r₂, hread₂, hr₂⟩ :=
        ih hr₁.pending fun c hc => h c (List.mem_cons_of_mem caller hc)
      refine ⟨r₂, ?_, ?_⟩
      · rw [List.flatMap_cons, Reader.readLines_append, hread₁]
        exact hread₂
      · rw [hr₂, hr₁.profile]
        simp [Profile.addSelf, Profile.addCalls]

/-- What a reader gets from a dump is what is in the table. -/
theorem readProfile_dump {callers : Table Bytes Caller}
    (h : Entries (fun _ c => Caller.IsPrintable c) callers) :
    readProfile (dump callers) = some (profile callers) := by
  have hcut : cut 10 (dump callers) = (dumpLines callers, []) :=
    cut_flatten_map 10 (notMem_of_mem_dumpLines h)
  obtain ⟨r, hread, hr⟩ := readLines_dumpCallers
    (r := Reader.start) rfl (forall_mem_hashSort h)
  have hheader : Reader.start.readLines dumpHeader = some Reader.start := by
    rfl
  rw [readProfile, hcut, if_pos rfl, dumpLines, Reader.readLines_append,
    hheader, Option.bind_some, hread, Option.map_some, hr]
  rfl

/-! ## The order of the entries does not matter -/

/-- Two tables that cannot be told apart by looking things up. -/
def Alike (t t' : Table Bytes Caller) : Prop :=
  ∀ k, Option.Rel
    (fun c c' => c.loc = c'.loc ∧ c.exclusive = c'.exclusive ∧
      ∀ y, c.callees.lookup y = c'.callees.lookup y)
    (t.lookup k) (t'.lookup k)

theorem hashSort_map_eq {ν β : Type} (f : ν → β) {t t' : Table Bytes ν}
    (h : ∀ k, (t.lookup k).map f = (t'.lookup k).map f) :
    (hashSort t).map f = (hashSort t').map f := by
  rw [hashSort, hashSort, List.map_map, List.map_map]
  exact rows_map_eq strLe_trans strLe_total strLe_antisymm f h

theorem dumpCaller_congr {c c' : Caller} (hloc : c.loc = c'.loc)
    (hexclusive : c.exclusive = c'.exclusive)
    (h : ∀ y, c.callees.lookup y = c'.callees.lookup y) :
    dumpCaller c = dumpCaller c' := by
  have hcallees : (hashSort c.callees).map (dumpCallee c) =
      (hashSort c'.callees).map (dumpCallee c') := by
    have hsame : dumpCallee c = dumpCallee c' := by
      funext callee
      rw [dumpCallee, dumpCallee, hloc]
    rw [hsame]
    exact hashSort_map_eq _ fun y => by rw [h y]
  rw [dumpCaller, dumpCaller, hloc, hexclusive, List.flatMap_def,
    List.flatMap_def, hcallees]

theorem dump_congr {t t' : Table Bytes Caller} (h : Alike t t') :
    dump t = dump t' := by
  have hcallers :
      (hashSort t).map dumpCaller = (hashSort t').map dumpCaller := by
    apply hashSort_map_eq
    intro k
    have hk := h k
    generalize t.lookup k = c, t'.lookup k = c' at hk
    cases hk with
    | some hc => exact congrArg some (dumpCaller_congr hc.1 hc.2.1 hc.2.2)
    | none => rfl
  rw [dump, dump, dumpLines, dumpLines, List.flatMap_def, List.flatMap_def,
    hcallers]

end Callgrind

end Phpspy

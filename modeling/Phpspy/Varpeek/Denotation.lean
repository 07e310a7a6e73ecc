import Phpspy.Varpeek.Add

/-!
# What varspecs denote

A varspec names a variable, a path and a range of lines.  The map answers
exactly as the specs say if every key of every spec fits into its buffer with a
byte to spare.  A key that fills the buffer has lost its line number, or could
be the rest of a longer one.
-/

namespace Phpspy
namespace Varpeek

open ByteText

/-! ## Well-formed specs -/

/-- A well-formed varspec.  It is an argument of the command line, which has no
NUL and is far shorter than an `int` can count. -/
structure Spec where
  varname : Bytes
  path : Bytes
  startDigits : Bytes
  endDigits : Option Bytes
  varname_at : (64 : UInt8) ∉ varname
  varname_nul : (0 : UInt8) ∉ varname
  path_nul : (0 : UInt8) ∉ path
  startDigits_ne : startDigits ≠ []
  startDigits_digit : ∀ b ∈ startDigits, isDigit b = true
  endDigits_ne : endDigits ≠ some []
  endDigits_digit : ∀ ds ∈ endDigits, ∀ b ∈ ds, isDigit b = true
  ordered : numVal startDigits ≤ numVal (endDigits.getD startDigits)
  bounded : numVal (endDigits.getD startDigits) < 2 ^ 32 - 1
  short : varname.length + path.length < 2 ^ 31

namespace Spec

variable (spec : Spec)

def range : Bytes :=
  spec.startDigits ++
    match spec.endDigits with
    | some ds => lit "-" ++ ds
    | none => []

def text : Bytes :=
  spec.varname ++ lit "@" ++ (spec.path ++ lit ":" ++ spec.range)

def lineStart : ℕ :=
  numVal spec.startDigits

def lineEnd : ℕ :=
  numVal (spec.endDigits.getD spec.startDigits)

def Names (file : Bytes) (lineno : ℕ) (var : Bytes) : Prop :=
  spec.varname = var ∧ spec.path = file ∧
    spec.lineStart ≤ lineno ∧ lineno ≤ spec.lineEnd

end Spec

/-- The key of a file and a line before it is cut. -/
def fullKey (file : Bytes) (lineno : ℕ) : Bytes :=
  file ++ lit ":" ++ decimalInt (wrap32 lineno)

/-! ## Parsing -/

theorem isDigit_ne {b c : UInt8} (hb : isDigit b = true)
    (hc : isDigit c = false) : b ≠ c := by
  rintro rfl
  rw [hb] at hc
  exact Bool.noConfusion hc

theorem isDigit_not_isSpace {b : UInt8} (hb : isDigit b = true) :
    isSpace b = false := by
  simp only [isDigit, Bool.and_eq_true, decide_eq_true_eq,
    UInt8.le_iff_toNat_le] at hb
  have h48 : (48 : UInt8).toNat = 48 := rfl
  have h13 : (13 : UInt8).toNat = 13 := rfl
  have hne : b ≠ 32 := by
    rintro rfl
    exact absurd hb.1 (by decide)
  simp only [isSpace, Bool.or_eq_false_iff, decide_eq_false_iff_not,
    Bool.and_eq_false_iff, UInt8.le_iff_toNat_le]
  exact ⟨hne, Or.inr (by omega)⟩

theorem strtoul_digits {ds rest : Bytes} (hne : ds ≠ [])
    (hds : ∀ b ∈ ds, isDigit b = true)
    (hrest : ∀ b ∈ rest.head?, isDigit b = false)
    (hlt : numVal ds < 2 ^ 64) : strtoul (ds ++ rest) = numVal ds := by
  have htake : (ds ++ rest).takeWhile isDigit = ds := by
    rw [List.takeWhile_append_of_pos hds]
    cases rest with
    | nil => simp
    | cons b rest =>
        have hb : isDigit b = false := hrest b rfl
        rw [List.takeWhile_cons_of_neg (by simp [hb]), List.append_nil]
  have hsign : splitSign ((ds ++ rest).dropWhile isSpace) =
      (false, ds ++ rest) := by
    obtain ⟨d, ds', rfl⟩ := List.exists_cons_of_ne_nil hne
    have hd := hds d List.mem_cons_self
    have hminus : d ≠ 45 := isDigit_ne hd (by decide)
    have hplus : d ≠ 43 := isDigit_ne hd (by decide)
    rw [List.cons_append, List.dropWhile_cons_of_neg
      (by rw [isDigit_not_isSpace hd]; exact Bool.false_ne_true),
      splitSign, if_neg hminus, if_neg hplus]
  rw [strtoul, hsign]
  simp only [htake]
  rw [if_neg (by omega), if_neg Bool.false_ne_true]

/-! ## Adding a spec -/

namespace Spec

variable (spec : Spec)

theorem lineEnd_lt : spec.lineEnd < 2 ^ 32 - 1 :=
  spec.bounded

theorem lineStart_le : spec.lineStart ≤ spec.lineEnd :=
  spec.ordered

theorem range_colon : (58 : UInt8) ∉ spec.range := by
  have hend := spec.endDigits_digit
  unfold range
  intro hmem
  rcases List.mem_append.mp hmem with hdigit | hmem
  · exact isDigit_ne (spec.startDigits_digit _ hdigit) (by decide) rfl
  · cases hds : spec.endDigits with
    | none =>
        rw [hds] at hmem
        exact absurd hmem List.not_mem_nil
    | some ds =>
        rw [hds] at hmem hend
        rcases List.mem_append.mp hmem with hdash | hdigit
        · exact absurd hdash (by decide)
        · exact isDigit_ne (hend ds rfl _ hdigit) (by decide) rfl

theorem strtoul_range : strtoul spec.range = spec.lineStart := by
  have hle := spec.lineStart_le
  have hlt := spec.lineEnd_lt
  refine strtoul_digits spec.startDigits_ne spec.startDigits_digit ?_ ?_
  · intro b hb
    cases hds : spec.endDigits with
    | none =>
        rw [hds] at hb
        cases hb
    | some ds =>
        rw [hds] at hb
        cases hb
        rfl
  · change spec.lineStart < 2 ^ 64
    omega

theorem memrchr_range :
    memrchr 45 (58 :: spec.range) =
      spec.endDigits.map fun _ => spec.startDigits.length + 1 := by
  have hstart : (45 : UInt8) ∉ spec.startDigits := fun hmem =>
    isDigit_ne (spec.startDigits_digit _ hmem) (by decide) rfl
  have hend := spec.endDigits_digit
  unfold range
  cases hds : spec.endDigits with
  | none =>
      rw [List.append_nil]
      refine memrchr_eq_none_iff.mpr fun hmem => ?_
      rcases List.mem_cons.mp hmem with hcolon | hmem
      · exact absurd hcolon (by decide)
      · exact hstart hmem
  | some ds =>
      rw [hds] at hend
      have hds' : (45 : UInt8) ∉ ds := fun hmem =>
        isDigit_ne (hend ds rfl _ hmem) (by decide) rfl
      exact @memrchr_append_of_notMem 45 (58 :: spec.startDigits) ds hds'

theorem strtoul_end {ds : Bytes} (hds : spec.endDigits = some ds) :
    strtoul (spec.range.drop (spec.startDigits.length + 1)) =
      spec.lineEnd := by
  have hlt := spec.lineEnd_lt
  have hend : spec.lineEnd = numVal ds := by
    rw [lineEnd, hds]
    rfl
  have hdrop : spec.range.drop (spec.startDigits.length + 1) = ds ++ [] := by
    rw [range, hds, List.append_nil, ← List.drop_drop, List.drop_left]
    rfl
  rw [hdrop, hend]
  refine strtoul_digits ?_ (spec.endDigits_digit ds hds) ?_ ?_
  · intro hnil
    exact spec.endDigits_ne (hds.trans (congrArg some hnil))
  · intro b hb
    cases hb
  · omega

theorem precise_of_le {n : ℕ} {front rest : Bytes} (hlen : front.length = n)
    (hn : n < 2 ^ 31) (hnul : (0 : UInt8) ∉ front) :
    precise (wrap32 n) (front ++ rest) = front := by
  have hwrap : wrap32 n = n := wrap32_of_le (by omega) (by omega)
  rw [precise, hwrap, if_neg (by omega), Int.toNat_natCast, ← hlen,
    List.take_left, cstr_of_notMem hnul]

theorem varpeekAdd_text (fuel : ℕ) (map : VarpeekMap) :
    varpeekAdd fuel map spec.text =
      lineLoop (fun n => strBuf (fullKey spec.path n)) (strBuf spec.varname)
        spec.lineEnd fuel spec.lineStart map := by
  have hshort := spec.short
  have hle := spec.lineStart_le
  have hlt := spec.lineEnd_lt
  have hfront : spec.text =
      spec.varname ++ 64 :: (spec.path ++ 58 :: spec.range) := by
    simp [text, lit]
  have hback : spec.text =
      (spec.varname ++ 64 :: spec.path) ++ 58 :: spec.range := by
    simp [text, lit]
  set colon := (spec.varname ++ 64 :: spec.path).length with hcolon
  have hlen : (colon : ℤ) - spec.varname.length - 1 = spec.path.length := by
    rw [hcolon, List.length_append, List.length_cons]
    omega
  have hat : memchr 64 spec.text = some spec.varname.length := by
    rw [hfront]
    exact memchr_append_of_notMem spec.varname_at _
  have hlast : memrchr 58 spec.text = some colon := by
    rw [hback]
    exact memrchr_append_of_notMem spec.range_colon
  have hrange : spec.text.drop colon = 58 :: spec.range := by
    rw [hback]
    exact List.drop_left
  have hnumbers : spec.text.drop (colon + 1) = spec.range := by
    rw [← List.drop_drop, hrange]
    rfl
  have hpath : ∀ n, varpeekKey (wrap32 (colon - spec.varname.length - 1 : ℤ))
      (spec.text.drop (spec.varname.length + 1)) n =
        strBuf (fullKey spec.path n) := by
    intro n
    have hdrop : spec.text.drop (spec.varname.length + 1) =
        spec.path ++ 58 :: spec.range := by
      rw [hfront, ← List.drop_drop, List.drop_left]
      rfl
    rw [varpeekKey, hlen, hdrop,
      precise_of_le rfl (by omega) spec.path_nul, fullKey]
  have hname : precise (wrap32 spec.varname.length) spec.text =
      spec.varname := by
    rw [hfront]
    exact precise_of_le rfl (by omega) spec.varname_nul
  have hstart : strtoul (spec.text.drop (colon + 1)) % 2 ^ 32 =
      spec.lineStart := by
    rw [hnumbers, spec.strtoul_range]
    exact Nat.mod_eq_of_lt (by omega)
  have hend : parseLineEnd spec.text colon spec.lineStart = spec.lineEnd := by
    rw [parseLineEnd, hrange, spec.memrchr_range]
    cases hds : spec.endDigits with
    | none =>
        rw [lineEnd, hds]
        rfl
    | some ds =>
        have hindex : colon + (spec.startDigits.length + 1) + 1 =
            colon + 1 + (spec.startDigits.length + 1) := by
          omega
        simp only [Option.map_some, hindex]
        rw [← List.drop_drop, hnumbers, spec.strtoul_end hds]
        exact Nat.mod_eq_of_lt (by omega)
  simp only [varpeekAdd, hat, hlast, hstart, hend, hname, funext hpath]

/-- Adding a spec ends, and enters its variable for each of its lines. -/
theorem varpeekAdd_spec {fuel : ℕ} (hfuel : 2 ^ 32 ≤ fuel)
    (map : VarpeekMap) :
    ∃ map', varpeekAdd fuel map spec.text = .ok map' ∧
      ∀ key name, name ∈ namesAt map' key ↔
        name ∈ namesAt map key ∨
          ∃ n, spec.lineStart ≤ n ∧ n ≤ spec.lineEnd ∧
            key = strBuf (fullKey spec.path n) ∧
            name = strBuf spec.varname := by
  have hlt := spec.lineEnd_lt
  have hle := spec.lineStart_le
  rw [spec.varpeekAdd_text]
  exact lineLoop_spec _ _ hlt (by omega) (by omega) map

end Spec

theorem varpeekAddAll_spec {fuel : ℕ} (hfuel : 2 ^ 32 ≤ fuel)
    (map : VarpeekMap) (specs : List Spec) :
    ∃ map', varpeekAddAll fuel map (specs.map Spec.text) = .ok map' ∧
      ∀ key name, name ∈ namesAt map' key ↔
        name ∈ namesAt map key ∨
          ∃ spec ∈ specs, ∃ n, spec.lineStart ≤ n ∧ n ≤ spec.lineEnd ∧
            key = strBuf (fullKey spec.path n) ∧
            name = strBuf spec.varname := by
  induction specs generalizing map with
  | nil => exact ⟨map, rfl, fun key name => by simp⟩
  | cons spec specs ih =>
      obtain ⟨map₁, hadd, hnames₁⟩ := spec.varpeekAdd_spec hfuel map
      obtain ⟨map₂, hrest, hnames₂⟩ := ih map₁
      refine ⟨map₂, ?_, fun key name => ?_⟩
      · rw [List.map_cons, varpeekAddAll, hadd]
        exact hrest
      · rw [hnames₂, hnames₁, or_assoc]
        simp only [List.mem_cons, exists_eq_or_imp]

/-! ## Keys -/

theorem decimalInt_injective : Function.Injective decimalInt := by
  intro a b h
  have hminus : ∀ n, (45 : UInt8) ∉ decimal n := fun n hmem =>
    isDigit_ne (decimal_isDigit hmem) (by decide) rfl
  cases a with
  | ofNat n =>
      cases b with
      | ofNat m => exact congrArg Int.ofNat (decimal_injective h)
      | negSucc m =>
          refine absurd ?_ (hminus n)
          rw [show decimal n = 45 :: decimal (m + 1) from h]
          exact List.mem_cons_self
  | negSucc n =>
      cases b with
      | ofNat m =>
          refine absurd ?_ (hminus m)
          rw [show decimal m = 45 :: decimal (n + 1) from h.symm]
          exact List.mem_cons_self
      | negSucc m =>
          have heq := decimal_injective (List.cons.inj h).2
          exact congrArg Int.negSucc (Nat.succ.inj heq)

theorem colon_notMem_decimalInt (z : ℤ) : (58 : UInt8) ∉ decimalInt z := by
  have hdigits : ∀ n, (58 : UInt8) ∉ decimal n := fun n hmem =>
    isDigit_ne (decimal_isDigit hmem) (by decide) rfl
  cases z with
  | ofNat n => exact hdigits n
  | negSucc n =>
      intro hmem
      rcases List.mem_cons.mp hmem with hminus | hmem
      · exact absurd hminus (by decide)
      · exact hdigits (n + 1) hmem

theorem wrap32_injOn {n m : ℕ} (hn : n < 2 ^ 32) (hm : m < 2 ^ 32)
    (h : wrap32 n = wrap32 m) : n = m := by
  have hmod := congrArg (· % ((2 ^ 32 : ℕ) : ℤ)) h
  simp only [wrap32, Int.bmod_emod] at hmod
  omega

theorem fullKey_inj {file file' : Bytes} {n m : ℕ} (hn : n < 2 ^ 32)
    (hm : m < 2 ^ 32) (h : fullKey file n = fullKey file' m) :
    file = file' ∧ n = m := by
  have hsplit : ∀ (f : Bytes) (k : ℕ),
      fullKey f k = f ++ 58 :: decimalInt (wrap32 k) := by
    intro f k
    rw [fullKey, List.append_assoc, show lit ":" = [58] from rfl,
      List.singleton_append]
  rw [hsplit, hsplit] at h
  have hlen : file.length = file'.length := by
    have hlast := congrArg (memrchr 58) h
    rw [memrchr_append_of_notMem (colon_notMem_decimalInt _),
      memrchr_append_of_notMem (colon_notMem_decimalInt _)] at hlast
    exact Option.some.inj hlast
  obtain ⟨hfile, hrest⟩ := List.append_inj h hlen
  have hline := decimalInt_injective (List.cons.inj hrest).2
  exact ⟨hfile, wrap32_injOn hn hm hline⟩

theorem varpeekKey_eq {file : Bytes} (hnul : (0 : UInt8) ∉ file) (n : ℕ) :
    varpeekKey file.length file n = strBuf (fullKey file n) := by
  rw [varpeekKey, precise, if_neg (by omega), Int.toNat_natCast,
    List.take_length, cstr_of_notMem hnul, fullKey]

/-- A full key that is shorter than the buffer allows is no cut key of another
file or line. -/
theorem fullKey_eq_of_strBuf_eq {key key' : Bytes}
    (hlen : key.length < strSize - 1) (h : strBuf key' = strBuf key) :
    key' = key := by
  have hkey : strBuf key = key := List.take_of_length_le hlen.le
  have hcut : (strBuf key').length < strSize - 1 := by
    rw [h, hkey]
    exact hlen
  have hkey' : strBuf key' = key' := by
    refine List.take_of_length_le ?_
    rw [strBuf, List.length_take] at hcut
    omega
  rw [← hkey, ← h, hkey']

/-! ## The specs and the map -/

/-- The map answers for every file, line and variable as the specs say.  Names
of files have no NUL. -/
def Denotes (map : VarpeekMap) (specs : List Spec) : Prop :=
  ∀ (file : Bytes) (lineno : ℕ) (var : Bytes),
    file.length ≤ strSize - 1 → (0 : UInt8) ∉ file → lineno < 2 ^ 32 →
    var.length ≤ strSize - 1 →
    (looksUp map file lineno var = true ↔
      ∃ spec ∈ specs, spec.Names file lineno var)

/-- The keys of a spec leave a byte of the buffer free, and its variable fits,
or what is left of the variable is named there as well. -/
def Spec.Fits (spec : Spec) (specs : List Spec) : Prop :=
  ∀ n, spec.lineStart ≤ n → n ≤ spec.lineEnd →
    (fullKey spec.path n).length < strSize - 1 ∧
      (spec.varname.length ≤ strSize - 1 ∨
        ∃ other ∈ specs, other.Names spec.path n (strBuf spec.varname))

/-- What the map knows after the specs have been added. -/
def Holds (map : VarpeekMap) (specs : List Spec) : Prop :=
  ∀ key name, name ∈ namesAt map key ↔
    ∃ spec ∈ specs, ∃ n, spec.lineStart ≤ n ∧ n ≤ spec.lineEnd ∧
      key = strBuf (fullKey spec.path n) ∧ name = strBuf spec.varname

section Denotation

variable {map : VarpeekMap} {specs : List Spec}

theorem Holds.looksUp_of_names (h : Holds map specs) {file var : Bytes}
    {lineno : ℕ} (hnul : (0 : UInt8) ∉ file)
    (hvar : var.length ≤ strSize - 1)
    (hnames : ∃ spec ∈ specs, spec.Names file lineno var) :
    looksUp map file lineno var = true := by
  obtain ⟨spec, hspec, rfl, rfl, hfirst, hlast⟩ := hnames
  rw [looksUp_iff, varpeekKey_eq hnul, h]
  exact ⟨spec, hspec, lineno, hfirst, hlast, rfl,
    (List.take_of_length_le hvar).symm⟩

theorem Holds.names_of_looksUp (h : Holds map specs)
    (hfits : ∀ spec ∈ specs, spec.Fits specs) {file var : Bytes}
    {lineno : ℕ} (hnul : (0 : UInt8) ∉ file) (hline : lineno < 2 ^ 32)
    (hlook : looksUp map file lineno var = true) :
    ∃ spec ∈ specs, spec.Names file lineno var := by
  rw [looksUp_iff, varpeekKey_eq hnul, h] at hlook
  obtain ⟨spec, hspec, n, hfirst, hlast, hkey, rfl⟩ := hlook
  obtain ⟨hshort, hvar⟩ := hfits spec hspec n hfirst hlast
  have hlt := spec.lineEnd_lt
  obtain ⟨rfl, rfl⟩ := fullKey_inj hline (by omega)
    (fullKey_eq_of_strBuf_eq hshort hkey)
  rcases hvar with hle | hother
  · exact ⟨spec, hspec, (List.take_of_length_le hle).symm, rfl, hfirst, hlast⟩
  · exact hother

theorem fullKey_nul {file : Bytes} (hnul : (0 : UInt8) ∉ file) (n : ℕ) :
    (0 : UInt8) ∉ fullKey file n := by
  have hdigits : ∀ n, (0 : UInt8) ∉ decimal n := fun n hmem =>
    isDigit_ne (decimal_isDigit hmem) (by decide) rfl
  intro hmem
  rcases List.mem_append.mp hmem with hmem | hmem
  · rcases List.mem_append.mp hmem with hmem | hmem
    · exact hnul hmem
    · exact absurd hmem (by decide)
  · cases hz : wrap32 n with
    | ofNat m =>
        rw [hz] at hmem
        exact hdigits m hmem
    | negSucc m =>
        rw [hz] at hmem
        rcases List.mem_cons.mp hmem with hminus | hmem
        · exact absurd hminus (by decide)
        · exact hdigits (m + 1) hmem

/-- A key that fills the buffer is also the key of a file that is called like
the whole key, at every line. -/
theorem Holds.fits_of_denotes (h : Holds map specs)
    (hden : Denotes map specs) {spec : Spec} (hspec : spec ∈ specs) :
    spec.Fits specs := by
  intro n hfirst hlast
  have hname : strBuf spec.varname ∈
      namesAt map (strBuf (fullKey spec.path n)) :=
    (h _ _).mpr ⟨spec, hspec, n, hfirst, hlast, rfl, rfl⟩
  have hvarLen : (strBuf spec.varname).length ≤ strSize - 1 :=
    List.length_take_le _ _
  have hshort : (fullKey spec.path n).length < strSize - 1 := by
    by_contra hlong
    -- no spec reaches the last line number
    set key := strBuf (fullKey spec.path n) with hkey
    have hlen : key.length = strSize - 1 := by
      rw [hkey, strBuf, List.length_take]
      omega
    have hnul : (0 : UInt8) ∉ key := fun hmem =>
      fullKey_nul spec.path_nul n (List.mem_of_mem_take hmem)
    have hsame : varpeekKey key.length key (2 ^ 32 - 1) = key := by
      rw [varpeekKey_eq hnul, strBuf, fullKey, List.append_assoc, ← hlen,
        List.take_left]
    obtain ⟨other, -, -, -, -, hle⟩ :=
      (hden key (2 ^ 32 - 1) (strBuf spec.varname) hlen.le hnul (by decide)
        hvarLen).mp (by rw [looksUp_iff, hsame]; exact hname)
    have hlt := other.lineEnd_lt
    omega
  refine ⟨hshort, Or.inr ?_⟩
  have hpath : spec.path.length ≤ strSize - 1 := by
    rw [fullKey, List.length_append, List.length_append] at hshort
    omega
  have hlt := spec.lineEnd_lt
  refine (hden spec.path n (strBuf spec.varname) hpath spec.path_nul
    (by omega) hvarLen).mp ?_
  rw [looksUp_iff, varpeekKey_eq spec.path_nul]
  exact hname

end Denotation

/-- Any list of varspecs can be added, and then the lookups answer as the specs
say exactly if all keys and variables fit into their buffers. -/
theorem varpeekAddAll_denotes_iff (specs : List Spec) :
    ∃ map, varpeekAddAll (2 ^ 32) ∅ (specs.map Spec.text) = .ok map ∧
      (Denotes map specs ↔ ∀ spec ∈ specs, spec.Fits specs) := by
  obtain ⟨map, hadd, hnames⟩ := varpeekAddAll_spec le_rfl ∅ specs
  have hholds : Holds map specs := by
    intro key name
    rw [hnames, namesAt, AList.lookup_empty]
    simp
  refine ⟨map, hadd, ⟨fun hden spec hspec => ?_, fun hfits => ?_⟩⟩
  · exact hholds.fits_of_denotes hden hspec
  · intro file lineno var hfile hnul hline hvar
    exact ⟨hholds.names_of_looksUp hfits hnul hline,
      hholds.looksUp_of_names hnul hvar⟩

/-! ## A path that leaves no room for the line -/

def longPath : Bytes :=
  List.replicate 254 97

/-- The variable `x` at line 1 of a file whose path has 254 bytes. -/
def longSpec : Spec where
  varname := lit "x"
  path := longPath
  startDigits := lit "1"
  endDigits := none
  varname_at := by decide
  varname_nul := by decide
  path_nul := fun h => absurd (List.eq_of_mem_replicate h) (by decide)
  startDigits_ne := by decide
  startDigits_digit := List.all_eq_true.mp (by decide)
  endDigits_ne := by decide
  endDigits_digit := by simp
  ordered := le_rfl
  bounded := by decide
  short := by
    rw [longPath, List.length_replicate]
    decide

theorem eq_ok_of_toOption {ε α : Type} {x : Except ε α} {a : α}
    (h : x.toOption = some a) : x = .ok a := by
  cases x with
  | error e => cases h
  | ok b => exact congrArg Except.ok (Option.some.inj h)

/-- The key ends with the colon, so the variable is found at line 2 as well. -/
theorem longSpec_matches_other_line :
    ∃ map, varpeekAddAll 2 ∅ ([longSpec].map Spec.text) = .ok map ∧
      looksUp map longPath 2 (lit "x") = true ∧
      ¬ ∃ spec ∈ [longSpec], spec.Names longPath 2 (lit "x") := by
  have heval : (varpeekAddAll 2 ∅ ([longSpec].map Spec.text)).toOption.map
      (fun map => looksUp map longPath 2 (lit "x")) = some true := by
    decide +kernel
  obtain ⟨map, hadd, hlook⟩ := Option.map_eq_some_iff.mp heval
  refine ⟨map, eq_ok_of_toOption hadd, hlook, ?_⟩
  rintro ⟨spec, hspec, -, -, -, hle⟩
  rw [List.mem_singleton.mp hspec] at hle
  exact absurd hle (by decide)

end Varpeek
end Phpspy

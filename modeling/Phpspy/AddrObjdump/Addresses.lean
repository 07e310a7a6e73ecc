import Mathlib.Data.List.DropRight
import Phpspy.AddrObjdump.Commands
import Phpspy.Options.Values

/-!
# The addresses of the target

`find_addresses` looks up some symbols of the target.  The path of the binary
and the address it is loaded at are kept in a memo from one symbol to the next.
A base address of 0 looks like none in the memo, and the last symbol is looked
up quietly, which leaves less room for the commands.  The memo makes no
difference all the same, except that a lookup may succeed with it that would not
fit into the command buffers without it.
-/

namespace Phpspy
namespace AddrObjdump

open ByteText
open BufferPrinting
open Options (strtoullHex)
open ShellWords

/-! ## Reading a line -/

/-- What follows a command that is to be quiet. -/
def closing : List Token :=
  [operator ';', fixed "\x7d", fixed "2", operator '>', fixed "/dev/null"]

/-- A group with its standard error redirected prints what the commands in it
print. -/
def ungroup (ts : List Token) : List Token :=
  if [fixed "\x7b"] <+: ts ∧ closing <:+ ts
  then (ts.drop 1).take (ts.length - 6) else ts

/-- The system on which the target runs, and what is known of the target.
`prints` is the standard output of a command, if it can be run. -/
structure Host where
  prints : List Token → Option Bytes
  access : Bytes → Bool
  stack : Buffer
  pid : ℤ
  libnameAwkPatt : Bytes
  libname_noNul : (0 : UInt8) ∉ libnameAwkPatt

/-- `fgets` -/
def fgets (size : ℕ) (out : Bytes) : Option Bytes :=
  let room := out.take (size - 1)
  if out = [] then none
  else some (match memchr 10 room with
    | none => room
    | some i => room.take (i + 1))

/-- What `popen_read_line` makes of the output of a command. -/
def readLine (out : Bytes) : Option Bytes :=
  (fgets (strSize - 1) out).bind fun buf =>
    let line := (cstr buf).rdropWhile fun b => b = 10
    if line = [] then none else some line

/-- `shell_escape` and `popen_read_line` -/
def Command.read (host : Host) (quiet : Bool) (cmd : Command) (arg : Bytes) :
    Option Bytes :=
  match cmd.popen quiet arg host.stack with
  | some (.ok text) =>
      ((tokens text).bind fun ts => host.prints (ungroup ts)).bind readLine
  | _ => none

/-! ## The lookups -/

/-- `addr_memo` -/
structure Memo where
  phpBinPath : Bytes
  phpBinPathRoot : Bytes
  phpBaseAddr : ℕ
deriving DecidableEq

def Memo.empty : Memo where
  phpBinPath := []
  phpBinPathRoot := []
  phpBaseAddr := 0

section Lookups

variable (host : Host) (quiet : Bool)

def procExe : Bytes :=
  lit "/proc/" ++ decimalInt host.pid ++ lit "/exe"

def procRoot (path : Bytes) : Bytes :=
  lit "/proc/" ++ decimalInt host.pid ++ lit "/root/" ++ path

/-- `get_php_bin_path`.  A path that is too long is left in the memo, cut. -/
def getPhpBinPath (memo : Memo) : Memo × Bool :=
  match Command.read host quiet (.phpBinPath host.pid)
    host.libnameAwkPatt with
  | none => (memo, false)
  | some buf =>
      if strSize ≤ (procRoot host buf).length then
        ({ memo with
            phpBinPathRoot := (procRoot host buf).take (strSize - 1) }, false)
      else
        ({ memo with
            phpBinPath := buf
            phpBinPathRoot :=
              if host.access (procRoot host buf) then procRoot host buf
              else procExe host }, true)

/-- `get_php_base_addr` -/
def getPhpBaseAddr (pathRoot path : Bytes) : Option ℕ :=
  (Command.read host quiet (.startAddr host.pid) path).bind fun start =>
    (Command.read host quiet .virtAddr pathRoot).map fun virt =>
      (strtoullHex start + (2 ^ 64 - strtoullHex virt)) % 2 ^ 64

/-- `get_symbol_offset` -/
def getSymbolOffset (pathRoot : Bytes) (symbol : Symbol) : Option ℕ :=
  (Command.read host quiet (.symbolOffset symbol) pathRoot).map strtoullHex

/-- The first condition of `get_symbol_addr`. -/
def needBinPath (memo : Memo) : Memo × Bool :=
  if memo.phpBinPath = [] then getPhpBinPath host quiet memo else (memo, true)

/-- The second condition. -/
def needBaseAddr (memo : Memo) : Memo × Bool :=
  if memo.phpBaseAddr = 0 then
    match getPhpBaseAddr host quiet memo.phpBinPathRoot memo.phpBinPath with
    | none => (memo, false)
    | some base => ({ memo with phpBaseAddr := base }, true)
  else (memo, true)

/-- `get_symbol_addr` -/
def getSymbolAddr (memo : Memo) (symbol : Symbol) : Memo × Option ℕ :=
  let (memo, found) := needBinPath host quiet memo
  if found then
    let (memo, based) := needBaseAddr host quiet memo
    if based then
      (memo, (getSymbolOffset host quiet memo.phpBinPathRoot symbol).map
        fun offset => (memo.phpBaseAddr + offset) % 2 ^ 64)
    else (memo, none)
  else (memo, none)

end Lookups

/-- The options of `find_addresses`. -/
structure AddressOptions where
  executorGlobalsAddr : ℕ
  sapiGlobalsAddr : ℕ
  captureReq : Bool
  captureMem : Bool
  quiet : Bool

/-- The part of the target that `find_addresses` fills in.  It is 0 before. -/
structure Addresses where
  executorGlobals : ℕ
  sapiGlobals : ℕ
  allocGlobals : ℕ
  basicFunctionsModule : ℕ

/-- A symbol with an address from the options, or else one that is looked up if
it is needed.  There is no result if that fails. -/
def findSymbol (host : Host) (quiet : Bool) (given : ℕ) (needed : Bool)
    (symbol : Symbol) (memo : Memo) : Option (ℕ × Memo) :=
  if given ≠ 0 then some (given, memo)
  else if needed then
    match getSymbolAddr host quiet memo symbol with
    | (memo, some addr) => some (addr, memo)
    | (_, none) => none
  else some (0, memo)

/-- `find_addresses` -/
def findAddresses (host : Host) (o : AddressOptions) : Option Addresses :=
  (findSymbol host o.quiet o.executorGlobalsAddr true .executorGlobals
    .empty).bind fun (executor, memo) =>
  (findSymbol host o.quiet o.sapiGlobalsAddr o.captureReq .sapiGlobals
    memo).bind fun (sapi, memo) =>
  (findSymbol host o.quiet 0 o.captureMem .allocGlobals memo).map
    fun (alloc, memo) =>
  { executorGlobals := executor
    sapiGlobals := sapi
    allocGlobals := alloc
    basicFunctionsModule :=
      (getSymbolAddr host true memo .basicFunctionsModule).2.getD 0 }

/-! ## Lookups without a memo -/

section Plain

variable (host : Host) (quiet : Bool)

/-- The binary, as the target and as this process sees it. -/
def binary : Option (Bytes × Bytes) :=
  match getPhpBinPath host quiet .empty with
  | (memo, true) => some (memo.phpBinPath, memo.phpBinPathRoot)
  | (_, false) => none

def lookUp (symbol : Symbol) : Option ℕ :=
  (binary host quiet).bind fun (path, root) =>
    (getPhpBaseAddr host quiet root path).bind fun base =>
      (getSymbolOffset host quiet root symbol).map fun offset =>
        (base + offset) % 2 ^ 64

/-- What `find_addresses` is after for a symbol. -/
def lookUpIfNeeded (given : ℕ) (needed : Bool) (symbol : Symbol) :
    Option ℕ :=
  if given ≠ 0 then some given
  else if needed then lookUp host quiet symbol else some 0

end Plain

/-! ## Quiet commands print the same -/

theorem ungroup_of_head {ts : List Token}
    (h : ts.head? ≠ some (fixed "\x7b")) : ungroup ts = ts := by
  rw [ungroup, if_neg]
  rintro ⟨⟨more, rfl⟩, -⟩
  exact h rfl

theorem ungroup_grouped (ts : List Token) :
    ungroup (fixed "\x7b" :: ts ++ closing) = ts := by
  have hlen : (fixed "\x7b" :: ts ++ closing).length - 6 = ts.length := by
    have hclosing : closing.length = 5 := rfl
    rw [List.length_append, List.length_cons, hclosing]
    omega
  rw [ungroup, if_pos ⟨⟨ts ++ closing, rfl⟩, List.suffix_append _ _⟩, hlen]
  exact List.take_left

/-- The commands of `popen_read_line`. -/
def Command.isLine : Command → Bool
  | phpVersion _ => false
  | _ => true

theorem ungroup_meantQuiet {cmd : Command} (hline : cmd.isLine = true)
    (quiet : Bool) (arg : Bytes) :
    ungroup (cmd.meantQuiet quiet arg) = cmd.meant arg := by
  cases quiet with
  | false =>
      have hawk : fixed "awk" ≠ fixed "\x7b" := by decide
      have hobjdump : fixed "objdump" ≠ fixed "\x7b" := by decide
      apply ungroup_of_head
      intro hhead
      cases cmd with
      | phpVersion pid => cases hline
      | phpBinPath pid => exact hawk (Option.some.inj hhead)
      | startAddr pid => exact hawk (Option.some.inj hhead)
      | virtAddr => exact hobjdump (Option.some.inj hhead)
      | symbolOffset symbol => exact hobjdump (Option.some.inj hhead)
  | true =>
      cases cmd with
      | phpVersion pid => cases hline
      | phpBinPath pid => exact ungroup_grouped _
      | startAddr pid => exact ungroup_grouped _
      | virtAddr => exact ungroup_grouped _
      | symbolOffset symbol => exact ungroup_grouped _

/-- The escaped argument and the command fit into their buffers. -/
def Command.Fits (quiet : Bool) (cmd : Command) (arg : Bytes) : Prop :=
  (quote arg).length + 1 ≤ strSize ∧
    ∃ text, popenReadLine quiet (cmd.format (quote arg)) = .ok text

theorem Command.popen_of_room {cmd : Command} (hline : cmd.isLine = true)
    {arg : Bytes} (harg : (0 : UInt8) ∉ arg)
    (hroom : (quote arg).length + 1 ≤ strSize) (quiet : Bool)
    (stack : Buffer) :
    cmd.popen quiet arg stack =
      some (popenReadLine quiet (cmd.format (quote arg))) := by
  have hescape : shellEscape arg stack strSize cmd.what =
      some (put stack 0 (quote arg ++ [0]), .ok ()) := by
    rw [shellEscape_of_le arg (by rwa [cstr_of_notMem harg]),
      cstr_of_notMem harg]
  rw [Command.popen, hescape, Option.map_some]
  dsimp only [Except.bind]
  rw [(slice_escaped harg hroom stack).2]
  cases cmd with
  | phpVersion pid => cases hline
  | phpBinPath pid | startAddr pid | virtAddr | symbolOffset symbol => rfl

theorem Command.read_eq_some_iff {cmd : Command} (hline : cmd.isLine = true)
    {arg : Bytes} (harg : (0 : UInt8) ∉ arg) {host : Host} {quiet : Bool}
    {x : Bytes} :
    cmd.read host quiet arg = some x ↔
      cmd.Fits quiet arg ∧
        (host.prints (cmd.meant arg)).bind readLine = some x := by
  by_cases hroom : (quote arg).length + 1 ≤ strSize
  · cases htext : popenReadLine quiet (cmd.format (quote arg)) with
    | error e =>
        rw [Command.read, Command.popen_of_room hline harg hroom, htext]
        refine iff_of_false (by simp) ?_
        rintro ⟨⟨-, text, hfits⟩, -⟩
        rw [htext] at hfits
        cases hfits
    | ok text =>
        have hpopen : cmd.popen quiet arg host.stack = some (.ok text) := by
          rw [Command.popen_of_room hline harg hroom, htext]
        rw [Command.read, hpopen]
        simp only [Command.popen_tokens harg hpopen, Option.bind_some,
          ungroup_meantQuiet hline]
        exact ⟨fun h => ⟨⟨hroom, text, htext⟩, h⟩, fun h => h.2⟩
  · obtain ⟨buf, rest, -, herror⟩ := shellEscape_of_lt arg
      (show 1 ≤ strSize by decide)
      (by rw [cstr_of_notMem harg]; omega) host.stack cmd.what
    refine iff_of_false ?_ fun h => hroom h.1.1
    rw [Command.read, Command.popen, herror]
    intro h
    cases h

theorem Command.Fits.loud {cmd : Command} {arg : Bytes}
    (h : cmd.Fits true arg) : cmd.Fits false arg := by
  obtain ⟨hroom, text, htext⟩ := h
  refine ⟨hroom, cmd.format (quote arg), ?_⟩
  unfold popenReadLine at htext ⊢
  split at htext
  · cases htext
  · next hfits => rw [if_neg hfits, if_neg Bool.false_ne_true]

theorem Command.read_mono {cmd : Command} (hline : cmd.isLine = true)
    {arg : Bytes} (harg : (0 : UInt8) ∉ arg) {host : Host} {q q' : Bool}
    (hq : q = true → q' = true) {x : Bytes}
    (h : cmd.read host q' arg = some x) : cmd.read host q arg = some x := by
  cases q' with
  | false =>
      cases q with
      | false => exact h
      | true => cases hq rfl
  | true =>
      cases q with
      | false =>
          rw [Command.read_eq_some_iff hline harg] at h ⊢
          exact ⟨h.1.loud, h.2⟩
      | true => exact h

/-! ## The memo -/

theorem readLine_spec {out line : Bytes} (h : readLine out = some line) :
    line ≠ [] ∧ (0 : UInt8) ∉ line := by
  obtain ⟨buf, -, h⟩ := Option.bind_eq_some_iff.mp h
  dsimp only at h
  split at h
  · cases h
  · next hne =>
      obtain rfl := Option.some.inj h
      refine ⟨hne, fun hmem => zero_notMem_cstr buf ?_⟩
      exact (List.rdropWhile_prefix _ _).subset hmem

section Memo

variable {host : Host} {q q' : Bool} {memo : Memo}

theorem read_spec {cmd : Command} {arg x : Bytes}
    (h : cmd.read host q arg = some x) : x ≠ [] ∧ (0 : UInt8) ∉ x := by
  unfold Command.read at h
  split at h
  · obtain ⟨out, -, h⟩ := Option.bind_eq_some_iff.mp h
    exact readLine_spec h
  · cases h

theorem procRoot_noNul {path : Bytes} (h : (0 : UInt8) ∉ path) :
    (0 : UInt8) ∉ procRoot host path ∧ (0 : UInt8) ∉ procExe host := by
  have hpid : (0 : UInt8) ∉ decimalInt host.pid :=
    notMem_decimalInt (by decide) (by decide) host.pid
  have hproc : (0 : UInt8) ∉ lit "/proc/" := by decide
  have hroot : (0 : UInt8) ∉ lit "/root/" := by decide
  have hexe : (0 : UInt8) ∉ lit "/exe" := by decide
  simp only [procRoot, procExe, List.mem_append, not_or]
  exact ⟨⟨⟨⟨hproc, hpid⟩, hroot⟩, h⟩, ⟨hproc, hpid⟩, hexe⟩

theorem getPhpBinPath_eq (memo : Memo) :
    (∃ path root, binary host q = some (path, root) ∧
      getPhpBinPath host q memo =
        ({ memo with phpBinPath := path, phpBinPathRoot := root }, true)) ∨
    binary host q = none ∧ ∃ root, getPhpBinPath host q memo =
      ({ memo with phpBinPathRoot := root }, false) := by
  simp only [binary, getPhpBinPath]
  cases Command.read host q (.phpBinPath host.pid) host.libnameAwkPatt with
  | none => exact Or.inr ⟨rfl, memo.phpBinPathRoot, rfl⟩
  | some buf =>
      by_cases hlong : strSize ≤ (procRoot host buf).length
      · simp only [if_pos hlong]
        exact Or.inr ⟨trivial, _, rfl⟩
      · simp only [if_neg hlong]
        exact Or.inl ⟨_, _, rfl, rfl⟩

theorem binary_spec {path root : Bytes}
    (h : binary host q = some (path, root)) :
    path ≠ [] ∧ (0 : UInt8) ∉ path ∧ (0 : UInt8) ∉ root := by
  simp only [binary, getPhpBinPath] at h
  cases hread : Command.read host q (.phpBinPath host.pid)
      host.libnameAwkPatt with
  | none =>
      rw [hread] at h
      cases h
  | some buf =>
      obtain ⟨hne, hnul⟩ := read_spec hread
      rw [hread] at h
      dsimp only at h
      split at h
      · next heq =>
          split at heq
          · cases heq
          · cases heq
            cases h
            refine ⟨hne, hnul, ?_⟩
            dsimp only
            split
            · exact (procRoot_noNul hnul).1
            · exact (procRoot_noNul hnul).2
      · cases h

theorem binary_mono (hq : q = true → q' = true) {b : Bytes × Bytes}
    (h : binary host q' = some b) : binary host q = some b := by
  simp only [binary, getPhpBinPath] at h ⊢
  cases hread : Command.read host q' (.phpBinPath host.pid)
      host.libnameAwkPatt with
  | none =>
      rw [hread] at h
      cases h
  | some buf =>
      rw [hread] at h
      rw [Command.read_mono rfl host.libname_noNul hq hread]
      exact h

theorem getPhpBaseAddr_mono (hq : q = true → q' = true) {path root : Bytes}
    (hpath : (0 : UInt8) ∉ path) (hroot : (0 : UInt8) ∉ root) {base : ℕ}
    (h : getPhpBaseAddr host q' root path = some base) :
    getPhpBaseAddr host q root path = some base := by
  obtain ⟨start, hstart, h⟩ := Option.bind_eq_some_iff.mp h
  obtain ⟨virt, hvirt, rfl⟩ := Option.map_eq_some_iff.mp h
  rw [getPhpBaseAddr, Command.read_mono rfl hpath hq hstart,
    Option.bind_some, Command.read_mono rfl hroot hq hvirt]
  rfl

theorem getSymbolOffset_mono (hq : q = true → q' = true) {root : Bytes}
    (hroot : (0 : UInt8) ∉ root) {symbol : Symbol} {offset : ℕ}
    (h : getSymbolOffset host q' root symbol = some offset) :
    getSymbolOffset host q root symbol = some offset := by
  obtain ⟨text, htext, rfl⟩ := Option.map_eq_some_iff.mp h
  rw [getSymbolOffset, Command.read_mono rfl hroot hq htext]
  rfl

/-- What is in the memo has been looked up. -/
structure Memo.Valid (host : Host) (q : Bool) (memo : Memo) : Prop where
  path : memo.phpBinPath ≠ [] →
    binary host q = some (memo.phpBinPath, memo.phpBinPathRoot)
  base : memo.phpBaseAddr ≠ 0 → memo.phpBinPath ≠ [] ∧
    getPhpBaseAddr host q memo.phpBinPathRoot memo.phpBinPath =
      some memo.phpBaseAddr

theorem Memo.Valid.of_empty (host : Host) (q : Bool) :
    Memo.empty.Valid host q where
  path h := absurd rfl h
  base h := absurd rfl h

theorem needBinPath_spec (hq : q = true → q' = true)
    (h : memo.Valid host q) :
    let r := needBinPath host q' memo
    r.1.Valid host q ∧
      (r.2 = true →
        binary host q = some (r.1.phpBinPath, r.1.phpBinPathRoot)) ∧
      ∀ b, binary host q' = some b → r.2 = true := by
  intro r
  by_cases hpath : memo.phpBinPath = []
  · have hbase : memo.phpBaseAddr = 0 := by
      by_contra hne
      exact (h.base hne).1 hpath
    have hr : r = getPhpBinPath host q' memo := if_pos hpath
    rcases @getPhpBinPath_eq host q' memo with
      ⟨path, root, hbinary, hget⟩ | ⟨hnone, root, hget⟩
    · have hfound := binary_mono hq hbinary
      rw [hr, hget]
      exact ⟨⟨fun _ => hfound, fun hne => absurd hbase hne⟩,
        fun _ => hfound, fun _ _ => rfl⟩
    · rw [hr, hget]
      refine ⟨⟨fun hne => absurd hpath hne, fun hne => absurd hbase hne⟩,
        fun hfalse => absurd hfalse Bool.false_ne_true, fun b hb => ?_⟩
      rw [hnone] at hb
      cases hb
  · have hr : r = (memo, true) := if_neg hpath
    rw [hr]
    exact ⟨h, fun _ => h.path hpath, fun _ _ => rfl⟩

theorem needBaseAddr_spec (hq : q = true → q' = true)
    (h : memo.Valid host q)
    (hbinary : binary host q = some (memo.phpBinPath, memo.phpBinPathRoot)) :
    let r := needBaseAddr host q' memo
    r.1.Valid host q ∧ r.1.phpBinPath = memo.phpBinPath ∧
      r.1.phpBinPathRoot = memo.phpBinPathRoot ∧
      (r.2 = true → getPhpBaseAddr host q memo.phpBinPathRoot
        memo.phpBinPath = some r.1.phpBaseAddr) ∧
      ∀ b, getPhpBaseAddr host q' memo.phpBinPathRoot memo.phpBinPath =
        some b → r.2 = true := by
  intro r
  obtain ⟨hne, hpath, hroot⟩ := binary_spec hbinary
  by_cases hbase : memo.phpBaseAddr = 0
  · cases hget : getPhpBaseAddr host q' memo.phpBinPathRoot
        memo.phpBinPath with
    | none =>
        have hr : r = (memo, false) := by
          simp only [r, needBaseAddr, if_pos hbase, hget]
        rw [hr]
        exact ⟨h, rfl, rfl, fun hfalse => absurd hfalse Bool.false_ne_true,
          fun b hb => absurd hb (by simp)⟩
    | some base =>
        have hr : r = ({ memo with phpBaseAddr := base }, true) := by
          simp only [r, needBaseAddr, if_pos hbase, hget]
        have hfound := getPhpBaseAddr_mono hq hpath hroot hget
        rw [hr]
        exact ⟨⟨fun _ => hbinary, fun _ => ⟨hne, hfound⟩⟩, rfl, rfl,
          fun _ => hfound, fun _ _ => rfl⟩
  · have hr : r = (memo, true) := if_neg hbase
    rw [hr]
    exact ⟨h, rfl, rfl, fun _ => (h.base hbase).2, fun _ _ => rfl⟩

/-- With the memo a symbol is found if it is found without, and at the same
address. -/
theorem getSymbolAddr_spec (hq : q = true → q' = true)
    (h : memo.Valid host q) (symbol : Symbol) :
    let r := getSymbolAddr host q' memo symbol
    r.1.Valid host q ∧
      (∀ addr, lookUp host q' symbol = some addr → r.2 = some addr) ∧
      ∀ addr, r.2 = some addr → lookUp host q symbol = some addr := by
  intro r
  obtain ⟨hvalid, hfound, hfinds⟩ := needBinPath_spec hq h
  generalize hneed : needBinPath host q' memo = found at hvalid hfound hfinds
  obtain ⟨memo₁, found⟩ := found
  have hr : r = if found then
      let (memo, based) := needBaseAddr host q' memo₁
      if based then
        (memo, (getSymbolOffset host q' memo.phpBinPathRoot symbol).map
          fun offset => (memo.phpBaseAddr + offset) % 2 ^ 64)
      else (memo, none)
    else (memo₁, none) := by
    simp only [r, getSymbolAddr, hneed]
  cases found with
  | false =>
      rw [hr, if_neg Bool.false_ne_true]
      refine ⟨hvalid, fun addr haddr => ?_, fun addr haddr => ?_⟩
      · obtain ⟨b, hb, -⟩ := Option.bind_eq_some_iff.mp haddr
        exact absurd (hfinds b hb) Bool.false_ne_true
      · cases haddr
  | true =>
      have hbinary := hfound rfl
      obtain ⟨-, hpath, hroot⟩ := binary_spec hbinary
      obtain ⟨hvalid', hpath', hroot', hbase, hbases⟩ :=
        needBaseAddr_spec hq hvalid hbinary
      generalize hneed' : needBaseAddr host q' memo₁ = based at *
      obtain ⟨memo₂, based⟩ := based
      dsimp only at hvalid' hpath' hroot' hbase hbases
      rw [hr, if_pos rfl]
      dsimp only
      cases based with
      | false =>
          rw [if_neg Bool.false_ne_true]
          refine ⟨hvalid', fun addr haddr => ?_, fun addr haddr => ?_⟩
          · obtain ⟨b, hb, haddr⟩ := Option.bind_eq_some_iff.mp haddr
            obtain rfl :=
              Option.some.inj ((binary_mono hq hb).symm.trans hbinary)
            obtain ⟨base, hget, -⟩ := Option.bind_eq_some_iff.mp haddr
            exact absurd (hbases base hget) Bool.false_ne_true
          · cases haddr
      | true =>
          rw [if_pos rfl, hroot']
          refine ⟨hvalid', fun addr haddr => ?_, fun addr haddr => ?_⟩
          · obtain ⟨b, hb, haddr⟩ := Option.bind_eq_some_iff.mp haddr
            obtain rfl :=
              Option.some.inj ((binary_mono hq hb).symm.trans hbinary)
            obtain ⟨base, hget, haddr⟩ := Option.bind_eq_some_iff.mp haddr
            have hsame := getPhpBaseAddr_mono hq hpath hroot hget
            rw [hbase rfl] at hsame
            rw [Option.some.inj hsame]
            exact haddr
          · obtain ⟨offset, hoffset, rfl⟩ := Option.map_eq_some_iff.mp haddr
            rw [lookUp, hbinary, Option.bind_some]
            dsimp only
            rw [hbase rfl, Option.bind_some,
              getSymbolOffset_mono hq hroot hoffset]
            rfl

theorem getSymbolAddr_eq (h : memo.Valid host q) (symbol : Symbol) :
    (getSymbolAddr host q memo symbol).2 = lookUp host q symbol := by
  obtain ⟨-, hfinds, hfound⟩ := getSymbolAddr_spec (fun h => h) h symbol
  cases hplain : lookUp host q symbol with
  | some addr => exact hfinds addr hplain
  | none =>
      cases hmemo : (getSymbolAddr host q memo symbol).2 with
      | none => rfl
      | some addr =>
          rw [hfound addr hmemo] at hplain
          cases hplain

theorem findSymbol_eq (h : memo.Valid host q) (given : ℕ) (needed : Bool)
    (symbol : Symbol) :
    (∃ addr memo', findSymbol host q given needed symbol memo =
        some (addr, memo') ∧ memo'.Valid host q ∧
          lookUpIfNeeded host q given needed symbol = some addr) ∨
      findSymbol host q given needed symbol memo = none ∧
        lookUpIfNeeded host q given needed symbol = none := by
  unfold findSymbol lookUpIfNeeded
  split
  · exact Or.inl ⟨given, memo, rfl, h, rfl⟩
  · split
    · have hvalid := (getSymbolAddr_spec (fun h => h) h symbol).1
      rw [← getSymbolAddr_eq h symbol]
      generalize getSymbolAddr host q memo symbol = r at hvalid
      obtain ⟨memo', addr⟩ := r
      cases addr with
      | none => exact Or.inr ⟨rfl, rfl⟩
      | some addr => exact Or.inl ⟨addr, memo', rfl, hvalid, rfl⟩
    · exact Or.inl ⟨0, memo, rfl, h, rfl⟩

end Memo

/-- `find_addresses` finds what lookups without a memo find.  It fails exactly
if a symbol that is needed is not found.  `basic_functions_module` is looked up
quietly: it is found if it is found that way without a memo, and its address is
the right one in any case. -/
theorem findAddresses_eq_lookUp (host : Host) (o : AddressOptions) :
    let executor := lookUpIfNeeded host o.quiet o.executorGlobalsAddr true
      .executorGlobals
    let sapi := lookUpIfNeeded host o.quiet o.sapiGlobalsAddr o.captureReq
      .sapiGlobals
    let alloc := lookUpIfNeeded host o.quiet 0 o.captureMem .allocGlobals
    (findAddresses host o = none ↔
      executor = none ∨ sapi = none ∨ alloc = none) ∧
    ∀ found, findAddresses host o = some found →
      executor = some found.executorGlobals ∧
      sapi = some found.sapiGlobals ∧
      alloc = some found.allocGlobals ∧
      (∀ addr, lookUp host true .basicFunctionsModule = some addr →
        found.basicFunctionsModule = addr) ∧
      (found.basicFunctionsModule ≠ 0 →
        lookUp host o.quiet .basicFunctionsModule =
          some found.basicFunctionsModule) := by
  intro executor sapi alloc
  rcases findSymbol_eq (Memo.Valid.of_empty host o.quiet)
    o.executorGlobalsAddr true .executorGlobals with
    ⟨addr₁, memo₁, hfind₁, hvalid₁, hplain₁⟩ | ⟨hfind, hplain⟩
  · rcases findSymbol_eq hvalid₁ o.sapiGlobalsAddr o.captureReq
      .sapiGlobals with
      ⟨addr₂, memo₂, hfind₂, hvalid₂, hplain₂⟩ | ⟨hfind, hplain⟩
    · rcases findSymbol_eq hvalid₂ 0 o.captureMem .allocGlobals with
        ⟨addr₃, memo₃, hfind₃, hvalid₃, hplain₃⟩ | ⟨hfind, hplain⟩
      · have hfound : findAddresses host o = some
            { executorGlobals := addr₁
              sapiGlobals := addr₂
              allocGlobals := addr₃
              basicFunctionsModule := (getSymbolAddr host true memo₃
                .basicFunctionsModule).2.getD 0 } := by
          simp only [findAddresses, hfind₁, Option.bind_some, hfind₂, hfind₃,
            Option.map_some]
        obtain ⟨-, hfinds, hright⟩ := getSymbolAddr_spec
          (fun _ => rfl) hvalid₃ .basicFunctionsModule
        refine ⟨?_, fun found h => ?_⟩
        · refine iff_of_false (by rw [hfound]; exact Option.some_ne_none _) ?_
          rintro (h | h | h)
          · exact Option.some_ne_none _ (hplain₁.symm.trans h)
          · exact Option.some_ne_none _ (hplain₂.symm.trans h)
          · exact Option.some_ne_none _ (hplain₃.symm.trans h)
        · obtain rfl := Option.some.inj (hfound.symm.trans h)
          refine ⟨hplain₁, hplain₂, hplain₃, fun addr haddr => ?_,
            fun hne => ?_⟩
          · dsimp only
            rw [hfinds addr haddr, Option.getD_some]
          · dsimp only at hne ⊢
            cases hlast : (getSymbolAddr host true memo₃
                .basicFunctionsModule).2 with
            | none =>
                rw [hlast] at hne
                exact absurd rfl hne
            | some addr => exact hright addr hlast
      · have hnone : findAddresses host o = none := by
          simp only [findAddresses, hfind₁, Option.bind_some, hfind₂, hfind,
            Option.map_none]
        refine ⟨iff_of_true hnone (Or.inr (Or.inr hplain)), fun found h => ?_⟩
        exact absurd (hnone.symm.trans h) (Option.some_ne_none _).symm
    · have hnone : findAddresses host o = none := by
        simp only [findAddresses, hfind₁, Option.bind_some, hfind,
          Option.bind_none]
      refine ⟨iff_of_true hnone (Or.inr (Or.inl hplain)), fun found h => ?_⟩
      exact absurd (hnone.symm.trans h) (Option.some_ne_none _).symm
  · have hnone : findAddresses host o = none := by
      simp only [findAddresses, hfind, Option.bind_none]
    refine ⟨iff_of_true hnone (Or.inl hplain), fun found h => ?_⟩
    exact absurd (hnone.symm.trans h) (Option.some_ne_none _).symm

/-- A binary that is loaded where it was linked, so that the base address is
0. -/
def staticHost : Host where
  prints ts :=
    if ts.contains (fixed "readlink") then some (lit "/usr/bin/php\n")
    else if ts.contains (.word mappingScript) then
      some (lit "00400000-00800000\n")
    else if ts.contains (.word segmentScript) then
      some (lit "0x0000000000400000\n")
    else if ts.contains (.word (symbolScript .executorGlobals)) then
      some (lit "0000000000c0ffe0\n")
    else if ts.contains (.word (symbolScript .basicFunctionsModule)) then
      some (lit "0000000000c0ff00\n")
    else none
  access _ := true
  stack _ := 0
  pid := 7
  libnameAwkPatt := lit "libphp[78]?"
  libname_noNul := by decide

theorem findAddresses_eq_lookUp_static :
    ∃ found, findAddresses staticHost
        { executorGlobalsAddr := 0
          sapiGlobalsAddr := 0
          captureReq := false
          captureMem := false
          quiet := false } = some found ∧
      found.basicFunctionsModule = 0xc0ff00 ∧
      lookUp staticHost false .executorGlobals =
        some found.executorGlobals ∧
      lookUp staticHost false .basicFunctionsModule =
        some found.basicFunctionsModule := by
  have hsome : (findAddresses staticHost
      { executorGlobalsAddr := 0
        sapiGlobalsAddr := 0
        captureReq := false
        captureMem := false
        quiet := false }).any
          (fun found => found.basicFunctionsModule == 0xc0ff00) = true := by
    decide +kernel
  obtain ⟨found, hfound, hbasic⟩ := (Option.any_eq_true _ _).mp hsome
  rw [beq_iff_eq] at hbasic
  obtain ⟨hexecutor, -, -, -, hright⟩ :=
    (findAddresses_eq_lookUp staticHost _).2 found hfound
  exact ⟨found, hfound, hbasic, hexecutor,
    hright (by rw [hbasic]; decide)⟩

end AddrObjdump
end Phpspy

import Phpspy.AddrObjdump.ShellEscape
import Phpspy.Trace.Event

/-!
# The shell commands with an escaped argument

The addresses and the version of PHP are looked up by shell commands with an
escaped path or pattern in them.  Whatever it is, the shell sees the words and
the operators that were meant.
-/

namespace Phpspy
namespace AddrObjdump

open ByteText
open BufferPrinting
open ShellWords

/-! ## The commands -/

inductive Symbol where
  | executorGlobals
  | sapiGlobals
  | allocGlobals
  | basicFunctionsModule
deriving DecidableEq, Repr

def Symbol.name : Symbol → Bytes
  | executorGlobals => lit "executor_globals"
  | sapiGlobals => lit "sapi_globals"
  | allocGlobals => lit "alloc_globals"
  | basicFunctionsModule => lit "basic_functions_module"

/-- The commands with an escaped argument: those of `get_php_bin_path`, of
`get_php_base_addr` (two), of `get_symbol_offset` and of `get_php_version`. -/
inductive Command where
  | phpBinPath (pid : ℤ)
  | startAddr (pid : ℤ)
  | virtAddr
  | symbolOffset (symbol : Symbol)
  | phpVersion (pid : ℤ)
deriving DecidableEq, Repr

def Command.what : Command → Bytes
  | phpBinPath _ | phpVersion _ => lit "opt_libname_awk_patt"
  | startAddr _ => lit "path"
  | virtAddr | symbolOffset _ => lit "path_root"

/-- The awk program that looks for a library. -/
def libraryScript : Bytes :=
  lit "$0~p\x7bprint $NF; e=0; exit\x7d" ++ lit " END\x7bexit e\x7d"

/-- The awk program that looks for an executable mapping. -/
def mappingScript : Bytes :=
  lit "$NF==p\x7bif(index($2,\"x\"))" ++ lit "\x7bprint $1;exit\x7d\x7d"

/-- The awk program that looks for an executable segment. -/
def segmentScript : Bytes :=
  lit "$1==\"LOAD\"\x7ba=$5\x7d " ++ lit "$5==\"flags\"\x7b" ++
    lit "if(index($6,\"x\"))" ++ lit "\x7bprint a;exit\x7d\x7d"

/-- The awk program that looks for a symbol. -/
def symbolScript (symbol : Symbol) : Bytes :=
  lit "/ " ++ symbol.name ++ lit "$/\x7bprint $1; exit\x7d"

/-- The patterns for the version in a binary. -/
def poweredByPattern : Bytes :=
  lit "X-Powered-By: PHP/" ++ lit "[0-9]+\\.[0-9]+"

def numberPattern : Bytes :=
  lit "[0-9]+\\.[0-9]+"

/-- The formatted command, with what the escaper has left in the buffer. -/
def Command.format (escaped : Bytes) : Command → Bytes
  | phpBinPath pid =>
      lit "awk -ve=1 -vp=" ++ escaped ++
        (lit " '" ++ libraryScript ++ lit "' /proc/") ++ decimalInt pid ++
        lit "/maps" ++ lit " || readlink /proc/" ++ decimalInt pid ++
        lit "/exe"
  | startAddr pid =>
      lit "awk -vp=" ++ escaped ++
        (lit " '" ++ mappingScript ++ lit "' /proc/") ++ decimalInt pid ++
        lit "/maps"
  | virtAddr =>
      lit "objdump -p " ++ escaped ++ lit " | awk -va=0 '" ++ segmentScript ++
        lit "'"
  | symbolOffset symbol =>
      lit "objdump -Tt " ++ escaped ++ lit " | awk '" ++ symbolScript symbol ++
        lit "'"
  | phpVersion pid =>
      lit "\x7b \x7b echo -n /proc/" ++ decimalInt pid ++ lit "/root/" ++
        lit ";   awk -ve=1 -vp=" ++ escaped ++
        (lit " '" ++ libraryScript ++ lit "' /proc/") ++ decimalInt pid ++
        lit "/maps" ++ lit "   || readlink /proc/" ++ decimalInt pid ++
        lit "/exe" ++
        (lit "; \x7d | \x7b xargs stat --printf=%n" ++
          lit " 2>/dev/null || echo /proc/") ++ decimalInt pid ++
        lit "/exe" ++ lit "; \x7d | xargs strings | grep -Eo '" ++
        poweredByPattern ++ lit "' | grep -Eo '" ++ numberPattern ++
        lit "'; \x7d"

/-- What `popen_read_line` passes to `popen`, or logs. -/
def popenReadLine (quiet : Bool) (cmd : Bytes) : Except Bytes Bytes :=
  if strSize ≤ cmd.length then
    .error (lit "popen_read_line: vsnprintf overflow\n")
  else if quiet then
    if strSize ≤ (lit "\x7b " ++ cmd ++ lit "; \x7d 2>/dev/null").length then
      .error (lit "popen_read_line: snprintf overflow\n")
    else .ok (lit "\x7b " ++ cmd ++ lit "; \x7d 2>/dev/null")
  else .ok cmd

/-- The size of the command buffer of `get_php_version`. -/
def versionCmdSize : ℕ := 1024

/-- What `get_php_version` passes to `popen`, or logs. -/
def popenVersion (quiet : Bool) (cmd : Bytes) : Except Bytes Bytes :=
  let versionCmd := cmd ++ if quiet then lit " 2>/dev/null" else []
  if versionCmdSize ≤ versionCmd.length then
    .error (lit "get_php_version: snprintf overflow\n")
  else .ok versionCmd

/-- The command that is run for an argument, or what is logged instead.  The
argument is escaped into a buffer on the stack. -/
def Command.popen (quiet : Bool) (cmd : Command) (arg : Bytes) (buf : Buffer) :
    Option (Except Bytes Bytes) :=
  (shellEscape arg buf strSize cmd.what).map fun (buf, escaped) =>
    escaped.bind fun _ =>
      let text := cmd.format (cstr (slice buf 0 strSize))
      match cmd with
      | phpVersion _ => popenVersion quiet text
      | _ => popenReadLine quiet text

/-! ## What the shell makes of the commands -/

def fixed (s : String) : Token :=
  .word (lit s)

def operator (c : Char) : Token :=
  .special c.toNat.toUInt8

/-- The meant words and operators of a command.  The argument is a part of one
word. -/
def Command.meant (arg : Bytes) : Command → List Token
  | phpBinPath pid =>
      [fixed "awk", fixed "-ve=1", .word (lit "-vp=" ++ arg),
        .word libraryScript,
        .word (lit "/proc/" ++ decimalInt pid ++ lit "/maps"),
        operator '|', operator '|', fixed "readlink",
        .word (lit "/proc/" ++ decimalInt pid ++ lit "/exe")]
  | startAddr pid =>
      [fixed "awk", .word (lit "-vp=" ++ arg),
        .word mappingScript,
        .word (lit "/proc/" ++ decimalInt pid ++ lit "/maps")]
  | virtAddr =>
      [fixed "objdump", fixed "-p", .word arg, operator '|', fixed "awk",
        fixed "-va=0", .word segmentScript]
  | symbolOffset symbol =>
      [fixed "objdump", fixed "-Tt", .word arg, operator '|', fixed "awk",
        .word (symbolScript symbol)]
  | phpVersion pid =>
      [fixed "\x7b", fixed "\x7b", fixed "echo", fixed "-n",
        .word (lit "/proc/" ++ decimalInt pid ++ lit "/root/"), operator ';',
        fixed "awk", fixed "-ve=1", .word (lit "-vp=" ++ arg),
        .word libraryScript,
        .word (lit "/proc/" ++ decimalInt pid ++ lit "/maps"),
        operator '|', operator '|', fixed "readlink",
        .word (lit "/proc/" ++ decimalInt pid ++ lit "/exe"), operator ';',
        fixed "\x7d", operator '|', fixed "\x7b", fixed "xargs", fixed "stat",
        fixed "--printf=%n", fixed "2", operator '>', fixed "/dev/null",
        operator '|', operator '|', fixed "echo",
        .word (lit "/proc/" ++ decimalInt pid ++ lit "/exe"), operator ';',
        fixed "\x7d", operator '|', fixed "xargs", fixed "strings",
        operator '|', fixed "grep", fixed "-Eo",
        .word poweredByPattern, operator '|', fixed "grep", fixed "-Eo",
        .word numberPattern, operator ';', fixed "\x7d"]

/-- Standard error goes nowhere if `-q` is given. -/
def Command.meantQuiet (quiet : Bool) (cmd : Command) (arg : Bytes) :
    List Token :=
  match quiet, cmd with
  | false, _ => cmd.meant arg
  | true, phpVersion _ =>
      cmd.meant arg ++ [fixed "2", operator '>', fixed "/dev/null"]
  | true, _ =>
      fixed "\x7b" :: cmd.meant arg ++
        [operator ';', fixed "\x7d", fixed "2", operator '>',
          fixed "/dev/null"]

/-- The pieces of the commands that do not depend on the target. -/
inductive Piece where
  | awkLibrary
  | awkMapping
  | objdumpHeaders
  | objdumpSymbols
  | echoRoot
  | thenAwkLibrary
  | orReadlink
  | orReadlinkVersion
  | toAwkSegment
  | toAwkSymbol
  | toStat
  | toStrings
  | brace
  | closeQuiet
  | quiet

def Piece.text : Piece → Bytes
  | awkLibrary => lit "awk -ve=1 -vp="
  | awkMapping => lit "awk -vp="
  | objdumpHeaders => lit "objdump -p "
  | objdumpSymbols => lit "objdump -Tt "
  | echoRoot => lit "\x7b \x7b echo -n /proc/"
  | thenAwkLibrary => lit ";   awk -ve=1 -vp="
  | orReadlink => lit " || readlink /proc/"
  | orReadlinkVersion => lit "   || readlink /proc/"
  | toAwkSegment => lit " | awk -va=0 '"
  | toAwkSymbol => lit " | awk '"
  | toStat =>
      lit "; \x7d | \x7b xargs stat --printf=%n" ++
        lit " 2>/dev/null || echo /proc/"
  | toStrings => lit "; \x7d | xargs strings | grep -Eo '"
  | brace => lit "\x7b "
  | closeQuiet => lit "; \x7d 2>/dev/null"
  | quiet => lit " 2>/dev/null"

/-- What the shell makes of a piece between two words. -/
def Piece.lexed : Piece → Mode × List Token
  | awkLibrary =>
      (.unquoted (some (lit "-vp=")), [fixed "awk", fixed "-ve=1"])
  | awkMapping => (.unquoted (some (lit "-vp=")), [fixed "awk"])
  | objdumpHeaders => (.unquoted none, [fixed "objdump", fixed "-p"])
  | objdumpSymbols => (.unquoted none, [fixed "objdump", fixed "-Tt"])
  | echoRoot =>
      (.unquoted (some (lit "/proc/")),
        [fixed "\x7b", fixed "\x7b", fixed "echo", fixed "-n"])
  | thenAwkLibrary =>
      (.unquoted (some (lit "-vp=")),
        [operator ';', fixed "awk", fixed "-ve=1"])
  | orReadlink | orReadlinkVersion =>
      (.unquoted (some (lit "/proc/")),
        [operator '|', operator '|', fixed "readlink"])
  | toAwkSegment =>
      (.single [], [operator '|', fixed "awk", fixed "-va=0"])
  | toAwkSymbol => (.single [], [operator '|', fixed "awk"])
  | toStat =>
      (.unquoted (some (lit "/proc/")),
        [operator ';', fixed "\x7d", operator '|', fixed "\x7b",
          fixed "xargs", fixed "stat", fixed "--printf=%n", fixed "2",
          operator '>', fixed "/dev/null", operator '|', operator '|',
          fixed "echo"])
  | toStrings =>
      (.single [],
        [operator ';', fixed "\x7d", operator '|', fixed "xargs",
          fixed "strings", operator '|', fixed "grep", fixed "-Eo"])
  | brace => (.unquoted none, [fixed "\x7b"])
  | closeQuiet =>
      (.unquoted (some (lit "/dev/null")),
        [operator ';', fixed "\x7d", fixed "2", operator '>'])
  | quiet =>
      (.unquoted (some (lit "/dev/null")), [fixed "2", operator '>'])

theorem Piece.feed_text (p : Piece) :
    feed (.unquoted none) p.text = p.lexed := by
  cases p <;> decide +kernel

theorem Piece.feed_text_some {p : Piece} (h : endsWord p.text = true)
    (w : Bytes) :
    feed (.unquoted (some w)) p.text = (p.lexed.1, .word w :: p.lexed.2) :=
  feed_of_endsWord h p.feed_text w

theorem feed_maps (w : Bytes) :
    feed (.unquoted (some w)) (lit "/maps") =
      (.unquoted (some (w ++ lit "/maps")), []) :=
  feed_plain (by decide) w

theorem feed_exe (w : Bytes) :
    feed (.unquoted (some w)) (lit "/exe") =
      (.unquoted (some (w ++ lit "/exe")), []) :=
  feed_plain (by decide) w

theorem feed_script {script : Bytes} (h : (39 : UInt8) ∉ script) (w : Bytes) :
    feed (.unquoted (some w)) (lit " '" ++ script ++ lit "' /proc/") =
      (.unquoted (some (lit "/proc/")), [.word w, .word script]) :=
  feed_trans (feed_trans (show feed (.unquoted (some w)) (lit " '") =
    (.single [], [.word w]) from rfl) (feed_single h [])) rfl

theorem quote_notMem_scripts :
    (39 : UInt8) ∉ libraryScript ∧ (39 : UInt8) ∉ mappingScript ∧
      (39 : UInt8) ∉ segmentScript ∧ (39 : UInt8) ∉ poweredByPattern ∧
      (39 : UInt8) ∉ numberPattern ∧
      ∀ symbol, (39 : UInt8) ∉ symbolScript symbol := by
  refine ⟨?_, ?_, ?_, ?_, ?_, fun symbol => ?_⟩
  · decide +kernel
  · decide +kernel
  · decide +kernel
  · decide +kernel
  · decide +kernel
  · cases symbol <;> decide +kernel

theorem tokens_phpBinPath (arg : Bytes) (pid : ℤ) :
    tokens (Command.format (quote arg) (.phpBinPath pid)) =
      some (Command.meant arg (.phpBinPath pid)) := by
  obtain ⟨hscript, -⟩ := quote_notMem_scripts
  have hmaps := feed_trans (feed_trans (feed_trans (feed_trans
    Piece.awkLibrary.feed_text (feed_quote _ arg)) (feed_script hscript _))
    (feed_decimalInt _ pid)) (feed_maps _)
  have hfed := feed_trans (feed_trans (feed_trans hmaps
    (@Piece.feed_text_some .orReadlink rfl _)) (feed_decimalInt _ pid))
    (feed_exe _)
  exact tokens_eq_some_iff.mpr ⟨_, _, hfed, rfl⟩

theorem tokens_startAddr (arg : Bytes) (pid : ℤ) :
    tokens (Command.format (quote arg) (.startAddr pid)) =
      some (Command.meant arg (.startAddr pid)) := by
  obtain ⟨-, hscript, -⟩ := quote_notMem_scripts
  have hfed := feed_trans (feed_trans (feed_trans (feed_trans
    Piece.awkMapping.feed_text (feed_quote _ arg)) (feed_script hscript _))
    (feed_decimalInt _ pid)) (feed_maps _)
  exact tokens_eq_some_iff.mpr ⟨_, _, hfed, rfl⟩

theorem tokens_virtAddr (arg : Bytes) :
    tokens (Command.format (quote arg) .virtAddr) =
      some (Command.meant arg .virtAddr) := by
  obtain ⟨-, -, hscript, -⟩ := quote_notMem_scripts
  have hfed := feed_trans (feed_trans (feed_trans
    Piece.objdumpHeaders.feed_text (feed_quote none arg))
    (@Piece.feed_text_some .toAwkSegment rfl _)) (feed_single hscript [])
  exact tokens_eq_some_iff.mpr ⟨some segmentScript, _, feed_trans hfed rfl, rfl⟩

theorem tokens_symbolOffset (arg : Bytes) (symbol : Symbol) :
    tokens (Command.format (quote arg) (.symbolOffset symbol)) =
      some (Command.meant arg (.symbolOffset symbol)) := by
  obtain ⟨-, -, -, -, -, hscript⟩ := quote_notMem_scripts
  have hfed := feed_trans (feed_trans (feed_trans
    Piece.objdumpSymbols.feed_text (feed_quote none arg))
    (@Piece.feed_text_some .toAwkSymbol rfl _))
    (feed_single (hscript symbol) [])
  exact tokens_eq_some_iff.mpr
    ⟨some (symbolScript symbol), _, feed_trans hfed rfl, rfl⟩

theorem tokens_phpVersion (arg : Bytes) (pid : ℤ) :
    tokens (Command.format (quote arg) (.phpVersion pid)) =
      some (Command.meant arg (.phpVersion pid)) := by
  obtain ⟨hscript, -, -, hpowered, hnumber, -⟩ := quote_notMem_scripts
  have hroot : ∀ w, feed (.unquoted (some w)) (lit "/root/") =
      (.unquoted (some (w ++ lit "/root/")), []) :=
    feed_plain (by decide)
  have hquote := feed_trans (feed_trans (feed_trans (feed_trans
    Piece.echoRoot.feed_text (feed_decimalInt _ pid)) (hroot _))
    (@Piece.feed_text_some .thenAwkLibrary rfl _)) (feed_quote _ arg)
  have hmaps := feed_trans (feed_trans (feed_trans hquote
    (feed_script hscript _)) (feed_decimalInt _ pid)) (feed_maps _)
  have hexe := feed_trans (feed_trans (feed_trans hmaps
    (@Piece.feed_text_some .orReadlinkVersion rfl _)) (feed_decimalInt _ pid))
    (feed_exe _)
  have hecho := feed_trans (feed_trans (feed_trans hexe
    (@Piece.feed_text_some .toStat rfl _)) (feed_decimalInt _ pid))
    (feed_exe _)
  have hgrep := feed_trans (feed_trans hecho
    (@Piece.feed_text_some .toStrings rfl _)) (feed_single hpowered [])
  have hpattern : feed (.single poweredByPattern) (lit "' | grep -Eo '") =
      (.single [], [.word poweredByPattern, operator '|', fixed "grep",
        fixed "-Eo"]) := by
    rfl
  have hclose : feed (.single numberPattern) (lit "'; \x7d") =
      (.unquoted (some (lit "\x7d")), [.word numberPattern, operator ';']) := by
    rfl
  have hfed := feed_trans (feed_trans (feed_trans hgrep hpattern)
    (feed_single hnumber [])) hclose
  refine tokens_eq_some_iff.mpr ⟨some (lit "\x7d"), _, hfed, ?_⟩
  simp only [Command.meant, Piece.lexed, fixed, Option.getD_some,
    Option.toList_some, List.map_cons, List.map_nil, List.cons_append,
    List.nil_append, List.append_nil]

theorem tokens_format (arg : Bytes) (cmd : Command) :
    tokens (cmd.format (quote arg)) = some (cmd.meant arg) := by
  cases cmd with
  | phpBinPath pid => exact tokens_phpBinPath arg pid
  | startAddr pid => exact tokens_startAddr arg pid
  | virtAddr => exact tokens_virtAddr arg
  | symbolOffset symbol => exact tokens_symbolOffset arg symbol
  | phpVersion pid => exact tokens_phpVersion arg pid

theorem popenReadLine_tokens {cmd text : Bytes} {ts : List Token}
    (hcmd : tokens cmd = some ts) {quiet : Bool}
    (h : popenReadLine quiet cmd = .ok text) :
    tokens text = some (if quiet then fixed "\x7b" :: ts ++
      [operator ';', fixed "\x7d", fixed "2", operator '>',
        fixed "/dev/null"] else ts) := by
  rw [popenReadLine] at h
  split at h
  · cases h
  · cases quiet with
    | false =>
        cases h
        exact hcmd
    | true =>
        simp only [if_true] at h ⊢
        split at h
        · cases h
        · cases h
          have hclose : tokens Piece.closeQuiet.text =
              some [operator ';', fixed "\x7d", fixed "2", operator '>',
                fixed "/dev/null"] :=
            tokens_eq_some_iff.mpr ⟨_, _, Piece.closeQuiet.feed_text, rfl⟩
          exact tokens_append_of_endsWord
            (tokens_append Piece.brace.feed_text hcmd) rfl hclose

theorem popenVersion_tokens {cmd text : Bytes} {ts : List Token}
    (hcmd : tokens cmd = some ts) {quiet : Bool}
    (h : popenVersion quiet cmd = .ok text) :
    tokens text = some (if quiet then ts ++
      [fixed "2", operator '>', fixed "/dev/null"] else ts) := by
  unfold popenVersion at h
  cases quiet with
  | false =>
      simp only [Bool.false_eq_true, if_false, List.append_nil] at h ⊢
      split at h
      · cases h
      · cases h
        exact hcmd
  | true =>
      simp only [if_true] at h ⊢
      split at h
      · cases h
      · cases h
        have hquiet : tokens Piece.quiet.text =
            some [fixed "2", operator '>', fixed "/dev/null"] :=
          tokens_eq_some_iff.mpr ⟨_, _, Piece.quiet.feed_text, rfl⟩
        exact tokens_append_of_endsWord hcmd rfl hquiet

/-- Whatever the argument is, a command that is run has the meant words and
operators. -/
theorem Command.popen_tokens {arg : Bytes} (harg : (0 : UInt8) ∉ arg)
    {quiet : Bool} {cmd : Command} {buf : Buffer} {text : Bytes}
    (h : cmd.popen quiet arg buf = some (.ok text)) :
    tokens text = some (cmd.meantQuiet quiet arg) := by
  obtain ⟨⟨buf', escaped⟩, hescape, hrun⟩ := Option.map_eq_some_iff.mp h
  by_cases hroom : (quote (cstr arg)).length + 1 ≤ strSize
  · rw [shellEscape_of_le arg hroom] at hescape
    cases hescape
    rw [cstr_of_notMem harg] at hroom hrun
    dsimp only [Except.bind] at hrun
    rw [(slice_escaped harg hroom buf).2] at hrun
    cases cmd with
    | phpVersion pid =>
        have htokens := popenVersion_tokens (tokens_format arg _) hrun
        cases quiet <;> exact htokens
    | phpBinPath pid | startAddr pid | virtAddr | symbolOffset symbol =>
        have htokens := popenReadLine_tokens (tokens_format arg _) hrun
        cases quiet <;> exact htokens
  · obtain ⟨buf'', rest, -, herror⟩ := shellEscape_of_lt arg
      (show 1 ≤ strSize by decide) (by omega) buf cmd.what
    rw [herror] at hescape
    cases hescape
    cases hrun

/-- The escaper stays inside of the buffer, succeeds exactly if the quoted
argument and a terminator fit, and leaves one word that is the argument.  So the
commands with an escaped argument are the meant ones. -/
theorem shellEscape_quotes {arg : Bytes} (harg : (0 : UInt8) ∉ arg)
    {bufSize : ℕ} (hsize : 1 ≤ bufSize) (buf : Buffer) (what : Bytes) :
    ∃ buf' result, shellEscape arg buf bufSize what = some (buf', result) ∧
      Within 0 bufSize buf buf' ∧
      (result = .ok () ↔ arg.length + 3 * arg.count 39 + 3 ≤ bufSize) ∧
      (result = .ok () →
        (0 : UInt8) ∈ slice buf' 0 bufSize ∧
          tokens (cstr (slice buf' 0 bufSize)) = some [.word arg]) ∧
      ∀ (quiet : Bool) (cmd : Command) (stack : Buffer) (text : Bytes),
        cmd.popen quiet arg stack = some (.ok text) →
          tokens text = some (cmd.meantQuiet quiet arg) := by
  have hlen := length_quote arg
  have hpopen : ∀ (quiet : Bool) (cmd : Command) (stack : Buffer)
      (text : Bytes), cmd.popen quiet arg stack = some (.ok text) →
        tokens text = some (cmd.meantQuiet quiet arg) :=
    fun _ _ _ _ h => Command.popen_tokens harg h
  by_cases hroom : (quote arg).length + 1 ≤ bufSize
  · have hescape : shellEscape arg buf bufSize what =
        some (put buf 0 (quote arg ++ [0]), .ok ()) := by
      rw [shellEscape_of_le arg (by rwa [cstr_of_notMem harg]),
        cstr_of_notMem harg]
    obtain ⟨hzero, hcstr⟩ := slice_escaped harg hroom buf
    refine ⟨_, _, hescape, within_put le_rfl ?_, ?_, fun _ => ⟨hzero, ?_⟩,
      hpopen⟩
    · rw [List.length_append, List.length_singleton]
      omega
    · exact iff_of_true rfl (by omega)
    · rw [hcstr, tokens_quote]
  · obtain ⟨buf', rest, hwithin, herror⟩ := shellEscape_of_lt arg
      hsize (by rw [cstr_of_notMem harg]; omega) buf what
    refine ⟨_, _, herror, hwithin, iff_of_false ?_ (by omega), ?_, hpopen⟩
    · rintro ⟨⟩
    · rintro ⟨⟩

/-- An argument with a quote and an operator. -/
theorem injection_quoted :
    (∃ buf', shellEscape (lit "a';b") (fun _ => 0) 10 (lit "path") =
      some (buf', .ok ()) ∧
        tokens (cstr (slice buf' 0 10)) = some [.word (lit "a';b")]) ∧
      ∃ text, Command.popen false (.symbolOffset .sapiGlobals) (lit "a';b")
        (fun _ => 0) = some (.ok text) ∧
          tokens text = some [fixed "objdump", fixed "-Tt",
            .word (lit "a';b"), operator '|', fixed "awk",
            .word (symbolScript .sapiGlobals)] := by
  have harg : (0 : UInt8) ∉ lit "a';b" := by decide
  obtain ⟨buf', result, hescape, -, hroom, hquoted, hpopen⟩ :=
    shellEscape_quotes harg (show 1 ≤ 10 by decide) (fun _ => 0) (lit "path")
  obtain rfl := hroom.mpr (by decide)
  refine ⟨⟨buf', hescape, (hquoted rfl).2⟩, ?_⟩
  have hrun : Command.popen false (.symbolOffset .sapiGlobals) (lit "a';b")
      (fun _ => 0) = some (.ok (lit "objdump -Tt 'a'\\'';b' | awk " ++
        lit "'/ sapi_globals$/\x7bprint $1; exit\x7d'")) := by
    rfl
  exact ⟨_, hrun, hpopen _ _ _ _ hrun⟩

end AddrObjdump
end Phpspy

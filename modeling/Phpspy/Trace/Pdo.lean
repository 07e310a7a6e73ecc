import Phpspy.Trace.Locals

/-!
# Peeking at database statements

For a frame of `PDO::query`, `PDO::exec` or `PDOStatement::execute`,
`trace_pdo` emits the statement, and the parameters of a prepared one, as
records of peeked variables.  The first argument of the call is read from the
sixth slot of the frame in every PHP version.
-/

namespace Phpspy

open ByteText BufferPrinting

/-! ## Structures -/

/-- `PHPSPY_ZVAL_TYPE_OBJECT` -/
def zvalTypeObject : ℕ := 8

/-- `sizeof(zend_object)` -/
def zendObjectSize : ℕ := 56

/-- `offsetof(pdo_stmt_t, bound_params)` -/
def PhpVersion.boundParams : PhpVersion → ℕ
  | .v85 => 24
  | .v86 => 24
  | _ => 56

/-- `offsetof(pdo_stmt_t, std)`, which is the last field. -/
def PhpVersion.pdoStmtStd : PhpVersion → ℕ
  | .v81 => 312
  | .v82 => 312
  | .v83 => 312
  | .v84 => 312
  | .v85 => 160
  | .v86 => 160
  | _ => 328

/-- `local_execute_data->This` -/
def executeDataThis (executeData : Bytes) : Zval :=
  Zval.ofBytes (executeData.drop 32)

/-- `lobj.properties_table[0]` -/
def firstProperty (lobj : Bytes) : Zval :=
  Zval.ofBytes (lobj.drop 40)

/-- `(void*)((char*)robj - offsetof(pdo_stmt_t, std))` -/
def pdoStmtAddr (v : PhpVersion) (robj : ℕ) : ℕ :=
  ptrAdd robj (2 ^ 64 - v.pdoStmtStd)

/-- `((zval*)remote_execute_data) + 5` -/
def pdoArgAddr (remote : ℕ) : ℕ :=
  ptrAdd remote (zvalSize * 5)

/-! ## Frames -/

/-- `is_stmt_execute` -/
def isStmtExecute (frame : TraceFrame) : Bool :=
  cstr frame.loc.cls = lit "PDOStatement" && cstr frame.loc.func = lit "execute"

/-- `is_pdo_query_or_exec` -/
def isPdoQueryOrExec (frame : TraceFrame) : Bool :=
  cstr frame.loc.cls = lit "PDO" &&
    (cstr frame.loc.func = lit "query" || cstr frame.loc.func = lit "exec")

/-- `entry.filename_lineno` -/
def pdoKey (frame : TraceFrame) : Bytes :=
  (cstr frame.loc.cls).take 96 ++ lit "::" ++ (cstr frame.loc.func).take 96

/-- The name of `var_sql`. -/
def pdoSqlName : Bytes := lit "#pdo_sql"

/-- The name of `var_args`. -/
def pdoArgsName : Bytes := lit "#pdo_args"

/-! ## `trace_pdo` -/

/-- The events that `trace_pdo` has emitted, and what it returned, if it has
come to an end. -/
structure PdoRun where
  events : List Varpeek
  ended : Option (Except Failure ℕ)

/-- `trace_pdo` goes on after an event. -/
def PdoRun.after (event : Varpeek) (run : PdoRun) : PdoRun :=
  { run with events := event :: run.events }

/-- `return 1` -/
def PdoRun.handled : PdoRun := ⟨[], some (.ok 1)⟩

section Pdo

-- `floatText` is what `%f` prints for the bits of a double
variable (mem : Remote) (v : PhpVersion) (floatText : ℕ → Bytes) (fuel : ℕ)

/-- Emit the text of a statement and go on, or return the failure. -/
def pdoSql (frame : TraceFrame) (rzstring : ℕ) (buf : Buffer)
    (next : Buffer → PdoRun) : PdoRun :=
  match sprintZstringAt mem rzstring buf 0 strSize with
  | none => ⟨[], none⟩
  | some (_, .error e) => ⟨[], some (.error e)⟩
  | some (buf, .ok bufLen) =>
      .after ⟨pdoSqlName, pdoKey frame, slice buf 0 bufLen⟩ (next buf)

/-- Emit the parameters of a statement, if they can be printed and there are
some. -/
def pdoArgs (frame : TraceFrame) (print : Printer Failure) (buf : Buffer) :
    PdoRun :=
  match print buf 0 strSize with
  | none => ⟨[], none⟩
  | some (_, .error _) => .handled
  | some (buf, .ok bufLen) =>
      if 0 < bufLen then
        .after ⟨pdoArgsName, pdoKey frame, slice buf 0 bufLen⟩ .handled
      else .handled

/-- The parameters that `PDOStatement::execute` is called with. -/
def pdoExecuteArgs (argAddr : ℕ) (frame : TraceFrame) (buf : Buffer) :
    PdoRun :=
  match copyProcMem mem argAddr zvalSize with
  | .error rv => ⟨[], some (.error (.status rv))⟩
  | .ok arg =>
      let firstArg := Zval.ofBytes arg
      if firstArg.type = zvalTypeArray then
        pdoArgs frame (sprintZarray mem floatText fuel firstArg.value) buf
      else .handled

/-- The parameters that are bound to a statement. -/
def pdoExecuteBinds (robj : ℕ) (frame : TraceFrame) (buf : Buffer) : PdoRun :=
  match copyProcMem mem (pdoStmtAddr v robj)
      (v.pdoStmtStd + zendObjectSize) with
  | .error rv => ⟨[], some (.error (.status rv))⟩
  | .ok lstmt =>
      let boundParams := field lstmt v.boundParams 8
      if boundParams ≠ 0 then
        pdoArgs frame (sprintPdoBinds mem floatText fuel boundParams) buf
      else .handled

/-- `trace_pdo` for a frame of `PDOStatement::execute`. -/
def pdoExecute (argAddr : ℕ) (this : Zval) (frame : TraceFrame)
    (buf : Buffer) : PdoRun :=
  if this.type ≠ zvalTypeObject then .handled
  else if this.value = 0 then .handled
  else
    match copyProcMem mem this.value zendObjectSize with
    | .error rv => ⟨[], some (.error (.status rv))⟩
    | .ok lobj =>
        let params := fun buf =>
          if this.next > 0 then
            pdoExecuteArgs mem floatText fuel argAddr frame buf
          else pdoExecuteBinds mem v floatText fuel this.value frame buf
        if (firstProperty lobj).type = zvalTypeString then
          pdoSql mem frame (firstProperty lobj).value buf params
        else params buf

/-- `trace_pdo` for a frame of `PDO::query` or `PDO::exec`. -/
def pdoQuery (argAddr : ℕ) (this : Zval) (frame : TraceFrame)
    (buf : Buffer) : PdoRun :=
  if this.next < 1 then .handled
  else
    match copyProcMem mem argAddr zvalSize with
    | .error rv => ⟨[], some (.error (.status rv))⟩
    | .ok arg =>
        let firstArg := Zval.ofBytes arg
        if firstArg.type = zvalTypeString then
          pdoSql mem frame firstArg.value buf fun _ => .handled
        else .handled

/-- `trace_pdo`, with the address that it copies `first_arg` from. -/
def tracePdoFrom (argAddr : ℕ) (executeData : Bytes) (frame : TraceFrame)
    (buf : Buffer) : PdoRun :=
  if isStmtExecute frame then
    pdoExecute mem v floatText fuel argAddr (executeDataThis executeData) frame
      buf
  else if isPdoQueryOrExec frame then
    pdoQuery mem argAddr (executeDataThis executeData) frame buf
  else ⟨[], some (.ok 0)⟩

/-- `trace_pdo`, with what the buffer `buf` holds at first. -/
def tracePdo (remote : ℕ) (executeData : Bytes) (frame : TraceFrame)
    (buf : Buffer) : PdoRun :=
  tracePdoFrom mem v floatText fuel (pdoArgAddr remote) executeData frame buf

end Pdo

/-! ## The slot of the first argument -/

/-- `trace_pdo` and `trace_locals` mean the same slot, except in PHP 7.0. -/
theorem pdoArgAddr_eq_iff (v : PhpVersion) (remote : ℕ) :
    pdoArgAddr remote = localAddr v remote 0 ↔ v ≠ .v70 := by
  have hslot : v ≠ .v70 → v.frameSlot = 5 := by
    cases v <;> first | exact fun _ => rfl | exact fun h => absurd rfl h
  constructor
  · rintro h rfl
    rw [pdoArgAddr, localAddr, ptrAdd, ptrAdd, zvalSize] at h
    change (remote + 16 * 5) % 2 ^ 64 = (remote + 16 * (6 + 0)) % 2 ^ 64 at h
    omega
  · intro hv
    rw [pdoArgAddr, localAddr, hslot hv, Nat.add_zero]

/-- The frame has a string as its first argument, at the slot of its first
compiled variable. -/
structure HoldsQuery (mem : Remote) (v : PhpVersion) (remote : ℕ)
    (text : Bytes) : Prop where
  arg : ∃ zv, copyProcMem mem (localAddr v remote 0) zvalSize = .ok zv ∧
    (Zval.ofBytes zv).type = zvalTypeString ∧
    HoldsString mem (Zval.ofBytes zv).value text

theorem pdoSql_of_string {mem : Remote} {rzstring : ℕ} {text : Bytes}
    (h : HoldsString mem rzstring text) (hshort : text.length ≤ 255)
    (frame : TraceFrame) (buf : Buffer) (next : Buffer → PdoRun) :
    ∃ out, pdoSql mem frame rzstring buf next =
      .after ⟨pdoSqlName, pdoKey frame, text⟩ (next out) := by
  have hread := h.sprintZstring_eq strSize
  have htake : text.take (strSize - 1) = text := List.take_of_length_le hshort
  rw [htake] at hread
  obtain ⟨out, hrun, hslice⟩ := length_sprintZstringAt mem hread buf 0
  refine ⟨out, ?_⟩
  rw [pdoSql, hrun]
  dsimp only
  rw [hslice]

theorem isStmtExecute_of_query {frame : TraceFrame}
    (h : isPdoQueryOrExec frame = true) : isStmtExecute frame = false := by
  have hcls : cstr frame.loc.cls = lit "PDO" := by
    simpa using (Bool.and_eq_true_iff.mp h).1
  rw [isStmtExecute, hcls]
  rfl

theorem HoldsQuery.tracePdoFrom_eq {mem : Remote} {v : PhpVersion}
    {remote : ℕ} {text : Bytes} (h : HoldsQuery mem v remote text)
    (hshort : text.length ≤ 255) {frame : TraceFrame}
    (hframe : isPdoQueryOrExec frame = true) {executeData : Bytes}
    (hargs : 0 < (executeDataThis executeData).next)
    (floatText : ℕ → Bytes) (fuel : ℕ) (buf : Buffer) :
    tracePdoFrom mem v floatText fuel (localAddr v remote 0) executeData frame
        buf =
      ⟨[⟨pdoSqlName, pdoKey frame, text⟩], some (.ok 1)⟩ := by
  obtain ⟨zv, hcopy, htype, hstring⟩ := h.arg
  have hstmt := isStmtExecute_of_query hframe
  obtain ⟨out, hsql⟩ := pdoSql_of_string hstring hshort frame buf
    fun _ => PdoRun.handled
  rw [tracePdoFrom, hstmt, hframe]
  simp only [Bool.false_eq_true, if_false, if_true]
  rw [pdoQuery, if_neg (by omega), hcopy]
  dsimp only
  rw [if_pos htype, hsql]
  rfl

theorem HoldsQuery.tracePdo_eq {mem : Remote} {v : PhpVersion}
    {remote : ℕ} {text : Bytes} (h : HoldsQuery mem v remote text)
    (hv : v ≠ .v70) (hshort : text.length ≤ 255) {frame : TraceFrame}
    (hframe : isPdoQueryOrExec frame = true) {executeData : Bytes}
    (hargs : 0 < (executeDataThis executeData).next)
    (floatText : ℕ → Bytes) (fuel : ℕ) (buf : Buffer) :
    tracePdo mem v floatText fuel remote executeData frame buf =
      ⟨[⟨pdoSqlName, pdoKey frame, text⟩], some (.ok 1)⟩ := by
  rw [tracePdo, (pdoArgAddr_eq_iff v remote).mpr hv]
  exact h.tracePdoFrom_eq hshort hframe hargs floatText fuel buf

/-! ## In a stack trace -/

/-- What `trace_locals` and `trace_pdo` add to a frame.  Each has a buffer on the
stack, with anything in it at first. -/
def tracePeeks (mem : Remote) (v : PhpVersion) (floatText : ℕ → Bytes)
    (fuel : ℕ) (map : Varpeek.VarpeekMap) (tmp buf : Buffer) : Peeks where
  locals lineno remote opArray file :=
    (traceLocals mem v floatText fuel map lineno remote opArray file
      tmp).events
  pdo remote executeData frame :=
    (tracePdo mem v floatText fuel remote executeData frame buf).events

/-- With `--peek-pdo`, a frame in a query comes with the text of the query,
except in PHP 7.0. -/
theorem stackEmitFrame_query {opts : StackOptions} {mem : Remote}
    {v : PhpVersion} {floatText : ℕ → Bytes} {fuel : ℕ}
    {map : Varpeek.VarpeekMap} {tmp buf : Buffer} {remote depth next : ℕ}
    {events : List Event} {frame : TraceFrame} {executeData text : Bytes}
    (hpeek : opts.peekPdo = true) (hv : v ≠ .v70)
    (hemit : stackEmitFrame opts mem v
      (tracePeeks mem v floatText fuel map tmp buf) remote depth =
        .ok (events, next))
    (hmem : .frame frame ∈ events) (hframe : isPdoQueryOrExec frame = true)
    (hcopy : copyProcMem mem remote v.layout.executeDataSize =
      .ok executeData)
    (hargs : 0 < (executeDataThis executeData).next)
    (hquery : HoldsQuery mem v remote text) (hshort : text.length ≤ 255) :
    .varpeek pdoSqlName (pdoKey frame) text ∈ events := by
  obtain ⟨copied, hcopied, hemit⟩ := bind_eq_ok_iff.mp hemit
  obtain ⟨zfunc, -, hemit⟩ := bind_eq_ok_iff.mp hemit
  obtain ⟨func, -, hemit⟩ := bind_eq_ok_iff.mp hemit
  obtain ⟨cls, -, hemit⟩ := bind_eq_ok_iff.mp hemit
  obtain ⟨source, -, hemit⟩ := bind_eq_ok_iff.mp hemit
  obtain ⟨heq, -⟩ := Prod.mk.inj (Except.ok.inj hemit)
  obtain rfl : executeData = copied :=
    Except.ok.inj (hcopy.symm.trans hcopied)
  rw [← heq] at hmem ⊢
  rcases List.mem_append.mp hmem with hlocal | hmem
  · obtain ⟨p, -, hp⟩ := List.mem_map.mp hlocal
    cases hp
  · rcases List.mem_cons.mp hmem with hself | hpdo
    · obtain rfl := Event.frame.inj hself
      refine List.mem_append_right _ (List.mem_cons_of_mem _ ?_)
      rw [if_pos hpeek, tracePeeks]
      dsimp only
      rw [hquery.tracePdo_eq hv hshort hframe hargs]
      exact List.mem_singleton.mpr rfl
    · obtain ⟨p, -, hp⟩ := List.mem_map.mp hpdo
      cases hp

/-! ## PHP 7.0 -/

/-- A frame of PHP 7.0 with the string `SELECT 1` in its argument slot.  The
slot before it belongs to `execute_data`. -/
def queryFrame : Remote :=
  .ofBlocks
    [(0x10000, List.replicate 96 0 ++ Zval.image ⟨0x30000, zvalTypeString, 0⟩),
      (0x30000, stringImage (lit "SELECT 1"))]

/-- A copied `execute_data` with one argument. -/
def oneArgument : Bytes :=
  List.replicate 32 0 ++ Zval.image ⟨0, zvalTypeUndef, 1⟩ ++
    List.replicate 24 0

/-- A frame in `PDO::query`. -/
def pdoQueryFrame : TraceFrame :=
  { loc :=
      { func := lit "query"
        cls := lit "PDO"
        file := lit "<internal>"
        lineno := -1 }
    depth := 0 }

theorem queryFrame_holds :
    HoldsQuery queryFrame .v70 0x10000 (lit "SELECT 1") where
  arg := by
    refine ⟨Zval.image ⟨0x30000, zvalTypeString, 0⟩, by decide +kernel,
      by decide, HoldsString.of_bytes (fun _ _ => rfl) (by decide) (by decide)
        (by decide) ?_ ?_⟩
    all_goals decide +kernel

theorem tracePdo_queryFrame :
    (tracePdo queryFrame .v70 (fun _ => []) 0 0x10000 oneArgument
      pdoQueryFrame fun _ => 0).events = [] := by
  rfl

/-- In PHP 7.0 the statement of a query is not found. -/
theorem queryFrame_without_sql :
    HoldsQuery queryFrame .v70 0x10000 (lit "SELECT 1") ∧
      isPdoQueryOrExec pdoQueryFrame = true ∧
      (executeDataThis oneArgument).next = 1 ∧
      pdoArgAddr 0x10000 ≠ localAddr .v70 0x10000 0 ∧
      (tracePdo queryFrame .v70 (fun _ => []) 0 0x10000 oneArgument
        pdoQueryFrame fun _ => 0).events = [] :=
  ⟨queryFrame_holds, by decide, by decide, by decide, tracePdo_queryFrame⟩

/-- In a version, `trace_pdo` takes the first argument from the slot of the
first compiled variable, and emits the text of a query, exactly if the version
is not 7.0. -/
theorem tracePdo_slot_iff (v : PhpVersion) :
    ((∀ mem floatText fuel remote executeData frame buf,
        isStmtExecute frame = true ∨ isPdoQueryOrExec frame = true →
        0 < (executeDataThis executeData).next →
        pdoArgAddr remote = localAddr v remote 0 ∧
          tracePdo mem v floatText fuel remote executeData frame buf =
            tracePdoFrom mem v floatText fuel (localAddr v remote 0)
              executeData frame buf) ∧
      ∀ mem floatText fuel remote executeData frame buf text,
        isPdoQueryOrExec frame = true →
        0 < (executeDataThis executeData).next →
        HoldsQuery mem v remote text → text.length ≤ 255 →
        tracePdo mem v floatText fuel remote executeData frame buf =
          ⟨[⟨pdoSqlName, pdoKey frame, text⟩], some (.ok 1)⟩) ↔
      v ≠ .v70 := by
  constructor
  · rintro ⟨-, hsql⟩ rfl
    have hquery := hsql queryFrame (fun _ => []) 0 0x10000 oneArgument
      pdoQueryFrame (fun _ => 0) (lit "SELECT 1") (by decide) (by decide)
      queryFrame_holds (by decide)
    have hevents := congrArg PdoRun.events hquery
    rw [tracePdo_queryFrame] at hevents
    exact absurd hevents.symm (List.cons_ne_nil _ _)
  · intro hv
    refine ⟨fun mem floatText fuel remote executeData frame buf _ _ => ?_,
      fun mem floatText fuel remote executeData frame buf text hframe hargs
        hquery hshort => ?_⟩
    · have haddr := (pdoArgAddr_eq_iff v remote).mpr hv
      rw [tracePdo, haddr]
      exact ⟨rfl, rfl⟩
    · exact hquery.tracePdo_eq hv hshort hframe hargs floatText fuel buf

end Phpspy

import Phpspy.Render.Steady
import Phpspy.Support.Scan
import Phpspy.Varpeek.Add

/-!
# Peeking at local variables

`trace_locals` goes through the compiled variables of a frame, looks each name
up among the variables that are peeked at the line, and prints the values of
those it finds.  Names and values share one buffer on the stack, the loop ends
when it has found as many variables as there are specs, and it is left as soon
as a value cannot be printed.
-/

namespace Phpspy

open ByteText BufferPrinting Scans

/-! ## The frame -/

/-- `offsetof(zend_op_array, last_var)` -/
def PhpVersion.lastVar : PhpVersion → ℕ
  | .v70 => 72
  | .v71 => 72
  | .v72 => 72
  | .v73 => 52
  | .v74 => 52
  | .v80 => 60
  | .v81 => 60
  | .v82 => 76
  | .v83 => 72
  | .v84 => 92
  | .v85 => 92
  | .v86 => 92

/-- `offsetof(zend_op_array, vars)` -/
def PhpVersion.vars : PhpVersion → ℕ
  | .v70 => 80
  | .v71 => 80
  | .v72 => 80
  | .v73 => 88
  | .v74 => 96
  | .v80 => 104
  | .v81 => 104
  | .v82 => 112
  | .v83 => 104
  | .v84 => 128
  | .v85 => 128
  | .v86 => 128

/-- `phpspy_frame_slot` -/
def PhpVersion.frameSlot : PhpVersion → ℕ
  | .v70 => 6
  | _ => 5

/-- How often the loop over `op_array->last_var` may be entered. -/
def numLocals (v : PhpVersion) (opArray : Bytes) : ℕ :=
  (wrap32 (field opArray v.lastVar 4)).toNat

/-- `op_array->vars + i` -/
def localNameAddr (v : PhpVersion) (opArray : Bytes) (i : ℕ) : ℕ :=
  ptrAdd (field opArray v.vars 8) (8 * i)

/-- `((zval*)(remote_execute_data)) + ((int)(phpspy_frame_slot + i))`, for a
sum that is an `int`. -/
def localAddr (v : PhpVersion) (remote i : ℕ) : ℕ :=
  ptrAdd remote (zvalSize * (v.frameSlot + i))

/-! ## The loop -/

/-- What a turn of the loop does: return, go on with the next variable, or
have the name and the text of a variable for an event. -/
inductive LocalTurn where
  /-- The failure, or nothing if it does not come to an end. -/
  | leaves (failure : Option Failure)
  | passes (tmp : Buffer)
  | finds (tmp : Buffer) (name text : Bytes)

/-- The events that `trace_locals` has emitted, and how it ended, if it has. -/
structure LocalsRun where
  events : List Varpeek
  ended : Option (Except Failure Unit)

section Loop

-- `floatText` is what `%f` prints for the bits of a double
variable (mem : Remote) (v : PhpVersion) (floatText : ℕ → Bytes) (fuel : ℕ)

/-- The value of the compiled variable at index `i`, printed over its name. -/
def localValue (remote i : ℕ) (tmp : Buffer) (name : Bytes) : LocalTurn :=
  match copyProcMem mem (localAddr v remote i) zvalSize with
  | .error rv => .leaves (some (.status rv))
  | .ok zv =>
      match sprintZval mem floatText fuel (Zval.ofBytes zv) tmp 0 strSize with
      | none => .leaves none
      | some (_, .error e) => .leaves (some e)
      | some (tmp, .ok tmpLen) => .finds tmp name (slice tmp 0 tmpLen)

/-- The body of the loop of `trace_locals` up to the event, at index `i`. -/
def localTurn (remote : ℕ) (opArray : Bytes) (varmap : List Bytes) (i : ℕ)
    (tmp : Buffer) : LocalTurn :=
  match copyProcMem mem (localNameAddr v opArray i) 8 with
  | .error rv => .leaves (some (.status rv))
  | .ok zstrp =>
      match sprintZstringAt mem (leVal zstrp) tmp 0 strSize with
      | none => .leaves none
      | some (_, .error e) => .leaves (some e)
      | some (tmp, .ok tmpLen) =>
          let name := slice tmp 0 tmpLen
          if name ∈ varmap then
            localValue mem v floatText fuel remote i tmp name
          else .passes tmp

/-- The loop of `trace_locals` from index `i` on, with `n` variables to go.
The key is that of the entry, `varmap` has a name for each spec. -/
def localsLoop (remote : ℕ) (opArray key : Bytes) (varmap : List Bytes) :
    ℕ → ℕ → ℕ → Buffer → LocalsRun
  | 0, _, _, _ => ⟨[], some (.ok ())⟩
  | n + 1, i, numVarsFound, tmp =>
      match localTurn mem v floatText fuel remote opArray varmap i tmp with
      | .leaves failure => ⟨[], failure.map .error⟩
      | .passes tmp =>
          localsLoop remote opArray key varmap n (i + 1) numVarsFound tmp
      | .finds tmp name text =>
          if numVarsFound + 1 ≥ varmap.length then
            ⟨[⟨name, key, text⟩], some (.ok ())⟩
          else
            let rest := localsLoop remote opArray key varmap n (i + 1)
              (numVarsFound + 1) tmp
            ⟨⟨name, key, text⟩ :: rest.events, rest.ended⟩

/-- `trace_locals`, with what the buffer `tmp` holds at first. -/
def traceLocals (map : Varpeek.VarpeekMap) (lineno remote : ℕ)
    (opArray file : Bytes) (tmp : Buffer) : LocalsRun :=
  match Varpeek.varpeekEntry map file lineno with
  | none => ⟨[], some (.ok ())⟩
  | some varmap =>
      localsLoop mem v floatText fuel remote opArray
        (Varpeek.varpeekKey file.length file lineno) varmap
        (numLocals v opArray) 0 0 tmp

end Loop

/-! ## What is emitted -/

section Emitted

variable {mem : Remote} {v : PhpVersion} {floatText : ℕ → Bytes} {fuel : ℕ}
  {remote : ℕ} {opArray : Bytes} {varmap : List Bytes}

theorem localTurn_name_mem {i : ℕ} {tmp out : Buffer} {name text : Bytes}
    (h : localTurn mem v floatText fuel remote opArray varmap i tmp =
      .finds out name text) : name ∈ varmap := by
  unfold localTurn at h
  split at h
  · cases h
  · split at h
    · cases h
    · cases h
    · dsimp only at h
      split at h
      · next hname =>
          unfold localValue at h
          split at h
          · cases h
          · split at h
            · cases h
            · cases h
            · cases h
              exact hname
      · cases h

theorem localsLoop_event {key : Bytes} {n i found : ℕ} {tmp : Buffer}
    {event : Varpeek}
    (h : event ∈ (localsLoop mem v floatText fuel remote opArray key varmap n i
      found tmp).events) :
    event.name ∈ varmap ∧ event.filenameLineno = key := by
  induction n generalizing i found tmp with
  | zero => exact absurd h List.not_mem_nil
  | succ n ih =>
      rw [localsLoop] at h
      split at h
      · exact absurd h List.not_mem_nil
      · exact ih h
      · next out name text hturn =>
          have hname := localTurn_name_mem hturn
          split at h
          · rw [List.mem_singleton.mp h]
            exact ⟨hname, rfl⟩
          · rcases List.mem_cons.mp h with rfl | h
            · exact ⟨hname, rfl⟩
            · exact ih h

/-- Whatever the target has in memory, an event is about a variable that is
peeked at the line, and carries the key of the line. -/
theorem traceLocals_event {map : Varpeek.VarpeekMap} {lineno : ℕ}
    {file : Bytes} {tmp : Buffer} {event : Varpeek}
    (h : event ∈ (traceLocals mem v floatText fuel map lineno remote opArray
      file tmp).events) :
    Varpeek.looksUp map file lineno event.name = true ∧
      event.filenameLineno = Varpeek.varpeekKey file.length file lineno := by
  unfold traceLocals at h
  split at h
  · exact absurd h List.not_mem_nil
  · next varmap hentry =>
      obtain ⟨hname, hkey⟩ := localsLoop_event h
      refine ⟨?_, hkey⟩
      rw [Varpeek.looksUp, hentry]
      exact List.contains_iff_mem.mpr hname

end Emitted

/-! ## Compiled variables -/

structure Local where
  name : Bytes
  value : Zval
deriving DecidableEq, Repr

/-- The frame at an address has these compiled variables: their names are
distinct and fit a buffer, and names and values can be read. -/
structure HoldsLocals (mem : Remote) (v : PhpVersion) (remote : ℕ)
    (opArray : Bytes) (locals : List Local) : Prop where
  count : locals.length = numLocals v opArray
  name : ∀ i l, locals[i]? = some l → ∃ zstrp,
    copyProcMem mem (localNameAddr v opArray i) 8 = .ok zstrp ∧
      HoldsString mem (leVal zstrp) l.name
  value : ∀ i l, locals[i]? = some l → ∃ zv,
    copyProcMem mem (localAddr v remote i) zvalSize = .ok zv ∧
      Zval.ofBytes zv = l.value
  short : ∀ l ∈ locals, l.name.length ≤ 255
  distinct : (locals.map Local.name).Nodup

/-- The buffer once the name of a variable is printed. -/
def nameOver (tmp : Buffer) (l : Local) : Buffer :=
  put tmp 0 (l.name ++ [0])

/-- What the loop does with a compiled variable: the name and the text of the
value if it is peeked and printed. -/
def localVerdict (mem : Remote) (floatText : ℕ → Bytes) (varmap : List Bytes)
    (fuel : ℕ) (l : Local) (tmp : Buffer) : Verdict Buffer (Bytes × Bytes) :=
  if l.name ∈ varmap then
    match sprintZval mem floatText fuel l.value (nameOver tmp l) 0 strSize with
    | some (out, .ok len) => .emit out (l.name, slice out 0 len)
    | _ => .stop
  else .skip (nameOver tmp l)

/-! ## One turn of the loop -/

section Turn

variable {mem : Remote} {v : PhpVersion} {floatText : ℕ → Bytes} {fuel : ℕ}
  {remote : ℕ} {opArray key : Bytes} {varmap : List Bytes}
  {locals : List Local}

theorem slice_nameOver (tmp : Buffer) (l : Local) :
    slice (nameOver tmp l) 0 l.name.length = l.name := by
  have hslice := slice_put tmp 0 (l.name ++ [0])
  rw [List.length_append, slice_add] at hslice
  exact (List.append_inj hslice (length_slice _ _ _)).1

/-- The terminator that is stored first is overwritten. -/
theorem sprintZstringAt_eq_nameOver {rzstring : ℕ} {l : Local}
    (hread : sprintZstring mem rzstring strSize = .ok l.name) (tmp : Buffer) :
    sprintZstringAt mem rzstring tmp 0 strSize =
      some (nameOver tmp l, .ok l.name.length) := by
  have hint := wrap32_length (sprintZstring_length hread).2
  rw [sprintZstringAt, hread]
  dsimp only
  rw [hint, put_put_append, put_put_of_le tmp 0 (by simp), nameOver]

theorem HoldsLocals.name_printed (h : HoldsLocals mem v remote opArray locals)
    {i : ℕ} {l : Local} (hl : locals[i]? = some l) (tmp : Buffer) :
    ∃ zstrp, copyProcMem mem (localNameAddr v opArray i) 8 = .ok zstrp ∧
      sprintZstringAt mem (leVal zstrp) tmp 0 strSize =
        some (nameOver tmp l, .ok l.name.length) := by
  obtain ⟨zstrp, hcopy, hstring⟩ := h.name i l hl
  have hshort : l.name.take (strSize - 1) = l.name :=
    List.take_of_length_le (h.short l (List.mem_of_getElem? hl))
  have hread := hstring.sprintZstring_eq strSize
  rw [hshort] at hread
  exact ⟨zstrp, hcopy, sprintZstringAt_eq_nameOver hread tmp⟩

/-- A variable that is not peeked is passed over, and the value of one that is
peeked is printed over its name. -/
theorem HoldsLocals.localTurn_eq (h : HoldsLocals mem v remote opArray locals)
    {i : ℕ} {l : Local} (hl : locals[i]? = some l) (tmp : Buffer) :
    localTurn mem v floatText fuel remote opArray varmap i tmp =
      if l.name ∈ varmap then
        match sprintZval mem floatText fuel l.value (nameOver tmp l) 0
          strSize with
        | none => .leaves none
        | some (_, .error e) => .leaves (some e)
        | some (out, .ok len) => .finds out l.name (slice out 0 len)
      else .passes (nameOver tmp l) := by
  obtain ⟨zstrp, hcopy, hrun⟩ := h.name_printed hl tmp
  obtain ⟨zv, hzv, hvalue⟩ := h.value i l hl
  rw [localTurn, hcopy]
  dsimp only
  rw [hrun]
  dsimp only
  rw [slice_nameOver, localValue, hzv]
  dsimp only
  rw [hvalue]

theorem HoldsLocals.localTurn_cases
    (h : HoldsLocals mem v remote opArray locals) {i : ℕ} {l : Local}
    (hl : locals[i]? = some l) (tmp : Buffer) :
    (localVerdict mem floatText varmap fuel l tmp = .stop ∧
      ∃ failure, localTurn mem v floatText fuel remote opArray varmap i tmp =
        .leaves failure) ∨
    (∃ out, localVerdict mem floatText varmap fuel l tmp = .skip out ∧
      localTurn mem v floatText fuel remote opArray varmap i tmp =
        .passes out) ∨
    l.name ∈ varmap ∧ ∃ text out,
      localVerdict mem floatText varmap fuel l tmp =
        .emit out (l.name, text) ∧
      localTurn mem v floatText fuel remote opArray varmap i tmp =
        .finds out l.name text := by
  rw [h.localTurn_eq hl, localVerdict]
  by_cases hname : l.name ∈ varmap
  · rw [if_pos hname, if_pos hname]
    cases sprintZval mem floatText fuel l.value (nameOver tmp l) 0 strSize with
    | none => exact .inl ⟨rfl, none, rfl⟩
    | some r =>
        obtain ⟨out, r⟩ := r
        cases r with
        | error e => exact .inl ⟨rfl, _, rfl⟩
        | ok len => exact .inr (.inr ⟨hname, _, out, rfl, rfl⟩)
  · rw [if_neg hname, if_neg hname]
    exact .inr (.inl ⟨_, rfl, rfl⟩)

theorem HoldsLocals.name_ne_of_drop
    (h : HoldsLocals mem v remote opArray locals) {i : ℕ} {l : Local}
    {rest : List Local} (hrest : locals.drop i = l :: rest) :
    ∀ l' ∈ rest, l'.name ≠ l.name := by
  have hsuffix := h.distinct.sublist
    ((List.drop_sublist i locals).map Local.name)
  rw [hrest, List.map_cons, List.nodup_cons] at hsuffix
  intro l' hl' heq
  exact hsuffix.1 (heq ▸ List.mem_map_of_mem hl')

theorem mem_of_length_le {found : List Bytes} (hnodup : found.Nodup)
    (hsub : found ⊆ varmap) (hlen : varmap.length ≤ found.length)
    {name : Bytes} (hname : name ∈ varmap) : name ∈ found :=
  ((hnodup.subperm hsub).perm_of_length_le hlen).mem_iff.mpr hname

/-- The events of the loop.  Ending it at the number of specs takes no event
away, because names are distinct. -/
theorem HoldsLocals.localsLoop_events
    (h : HoldsLocals mem v remote opArray locals)
    {rest : List Local} {i : ℕ} (hrest : locals.drop i = rest)
    {found : List Bytes} (hnodup : found.Nodup) (hsub : found ⊆ varmap)
    (hnew : ∀ l ∈ rest, l.name ∉ found) (tmp : Buffer) :
    (localsLoop mem v floatText fuel remote opArray key varmap rest.length i
        found.length tmp).events =
      (scan (localVerdict mem floatText varmap fuel) rest tmp).map
        fun e => ⟨e.1, key, e.2⟩ := by
  induction rest generalizing i found tmp with
  | nil => rfl
  | cons l rest ih =>
      have hl : locals[i]? = some l := by
        have hget := congrArg (fun r => r[0]?) hrest
        simpa using hget
      have hdrop : locals.drop (i + 1) = rest := by
        rw [← List.tail_drop, hrest, List.tail_cons]
      have hlater : ∀ l' ∈ rest, l'.name ∉ found :=
        fun l' hl' => hnew l' (List.mem_cons_of_mem l hl')
      have hcases := @HoldsLocals.localTurn_cases mem v floatText fuel remote
        opArray varmap locals h i l hl tmp
      rw [List.length_cons, localsLoop, scan]
      rcases hcases with ⟨hstop, failure, hturn⟩ | ⟨out, hskip, hturn⟩ |
        ⟨hname, text, out, hemit, hturn⟩
      · rw [hturn, hstop]
        rfl
      · rw [hturn, hskip]
        exact ih hdrop hnodup hsub hlater out
      · have hnodup' : (l.name :: found).Nodup :=
          List.nodup_cons.mpr ⟨hnew l List.mem_cons_self, hnodup⟩
        have hsub' : l.name :: found ⊆ varmap :=
          List.cons_subset.mpr ⟨hname, hsub⟩
        have hnew' : ∀ l' ∈ rest, l'.name ∉ l.name :: found :=
          fun l' hl' => List.not_mem_cons_of_ne_of_not_mem
            (h.name_ne_of_drop hrest l' hl') (hlater l' hl')
        rw [hturn, hemit]
        dsimp only
        split
        · next hlast =>
            -- all names are found, so the others would be passed over
            have hskip : ∀ l' ∈ rest, ∀ s, ∃ s',
                localVerdict mem floatText varmap fuel l' s = .skip s' := by
              intro l' hl' s
              refine ⟨_, if_neg fun hin => hnew' l' hl' ?_⟩
              exact mem_of_length_le hnodup' hsub' hlast hin
            rw [scan_eq_nil_of_skip hskip]
            rfl
        · exact congrArg _ (ih hdrop hnodup' hsub' hnew' out)

end Turn

/-! ## Independence -/

section Independence

variable {mem : Remote} {v : PhpVersion} {floatText : ℕ → Bytes}
  {remote lineno : ℕ} {opArray file : Bytes} {locals before after : List Local}
  {l : Local} {map single : Varpeek.VarpeekMap} {varmap : List Bytes}

/-- `trace_locals` emits an event, given enough fuel. -/
def EmitsVarpeek (mem : Remote) (v : PhpVersion) (floatText : ℕ → Bytes)
    (map : Varpeek.VarpeekMap) (lineno remote : ℕ) (opArray file : Bytes)
    (tmp : Buffer) (event : Varpeek) : Prop :=
  ∃ fuel, event ∈ (traceLocals mem v floatText fuel map lineno remote opArray
    file tmp).events

/-- Only this variable is peeked at a line, by one spec or by several. -/
def PeeksOnly (map : Varpeek.VarpeekMap) (file : Bytes) (lineno : ℕ)
    (name : Bytes) : Prop :=
  ∃ varmap, Varpeek.varpeekEntry map file lineno = some varmap ∧
    varmap ≠ [] ∧ ∀ other ∈ varmap, other = name

/-- `sprint_zval` prints the value of a variable over its name as a text, if
the buffer had these contents. -/
def PrintsOver (mem : Remote) (floatText : ℕ → Bytes) (buf : Buffer)
    (l : Local) (text : Bytes) : Prop :=
  ∃ fuel, outcome (sprintZval mem floatText fuel l.value) (nameOver buf l) 0
    strSize = some (.ok text)

/-- What is in the buffer if no variable in front is peeked. -/
def namesOver (before : List Local) (tmp : Buffer) : Buffer :=
  before.foldl nameOver tmp

/-- What the loop has left in the buffer when it comes to the variable behind
these: their names, and the values of those that are peeked, all of which have
been printed. -/
def LeftBehind (mem : Remote) (floatText : ℕ → Bytes) (varmap : List Bytes)
    (before : List Local) (tmp buf : Buffer) : Prop :=
  ∃ fuel, past (localVerdict mem floatText varmap fuel) before tmp = some buf

/-- Peeked alone, the variable behind these is printed. -/
def PrintedAlone (mem : Remote) (floatText : ℕ → Bytes)
    (before : List Local) (l : Local) : Prop :=
  ∃ tmp text, PrintsOver mem floatText (namesOver before tmp) l text

theorem HoldsLocals.traceLocals_events
    (h : HoldsLocals mem v remote opArray locals)
    (hentry : Varpeek.varpeekEntry map file lineno = some varmap)
    (fuel : ℕ) (tmp : Buffer) :
    (traceLocals mem v floatText fuel map lineno remote opArray file
        tmp).events =
      (scan (localVerdict mem floatText varmap fuel) locals tmp).map
        fun e => ⟨e.1, Varpeek.varpeekKey file.length file lineno, e.2⟩ := by
  rw [traceLocals, hentry]
  dsimp only
  rw [← h.count]
  exact h.localsLoop_events List.drop_zero List.nodup_nil
    (List.nil_subset _) (fun _ _ => List.not_mem_nil) tmp

theorem localVerdict_eq_emit_iff {fuel : ℕ} {tmp : Buffer}
    {event : Bytes × Bytes} :
    (∃ out, localVerdict mem floatText varmap fuel l tmp = .emit out event) ↔
      l.name ∈ varmap ∧ event.1 = l.name ∧
        outcome (sprintZval mem floatText fuel l.value) (nameOver tmp l) 0
          strSize = some (.ok event.2) := by
  obtain ⟨name, text⟩ := event
  rw [localVerdict]
  by_cases hname : l.name ∈ varmap
  · rw [if_pos hname]
    cases hrun : sprintZval mem floatText fuel l.value (nameOver tmp l) 0
        strSize with
    | none => simp [outcome_of_none hrun]
    | some r =>
        obtain ⟨out, r⟩ := r
        cases r with
        | error e => simp [outcome_of_error hrun]
        | ok len =>
            simp only [outcome_of_ok hrun, hname, true_and, Verdict.emit.injEq,
              Prod.mk.injEq, Option.some.injEq, Except.ok.injEq]
            rw [@eq_comm _ name]
            simp
  · simp [hname]

theorem localVerdict_ne_stop_iff {fuel : ℕ} {tmp : Buffer}
    (hname : l.name ∈ varmap) :
    localVerdict mem floatText varmap fuel l tmp ≠ .stop ↔ ∃ text,
      outcome (sprintZval mem floatText fuel l.value) (nameOver tmp l) 0
        strSize = some (.ok text) := by
  have hemits : localVerdict mem floatText varmap fuel l tmp ≠ .stop ↔
      ∃ out event, localVerdict mem floatText varmap fuel l tmp =
        .emit out event := by
    rw [localVerdict, if_pos hname]
    split <;> simp
  rw [hemits]
  constructor
  · rintro ⟨out, event, hemit⟩
    exact ⟨event.2, (localVerdict_eq_emit_iff.mp ⟨out, hemit⟩).2.2⟩
  · rintro ⟨text, hprints⟩
    obtain ⟨out, hemit⟩ : ∃ out,
        localVerdict mem floatText varmap fuel l tmp =
          .emit out (l.name, text) :=
      localVerdict_eq_emit_iff.mpr ⟨hname, rfl, hprints⟩
    exact ⟨out, _, hemit⟩

theorem localVerdict_persists (varmap : List Bytes) :
    Persists (localVerdict mem floatText varmap) := by
  intro m n l tmp hmn hgoes
  have hagrees := sprintZvalWith_agrees mem floatText
    (sprintZarray_agrees mem floatText hmn) l.value
  rw [localVerdict] at hgoes
  rw [localVerdict, localVerdict]
  by_cases hname : l.name ∈ varmap
  · rw [if_pos hname] at hgoes
    rw [if_pos hname, if_pos hname]
    cases hrun : sprintZval mem floatText m l.value (nameOver tmp l) 0
        strSize with
    | none => simp [hrun] at hgoes
    | some r =>
        have hrun' : sprintZval mem floatText n l.value (nameOver tmp l) 0
            strSize = some r := hagrees.eq_some hrun
        rw [hrun']
  · rw [if_neg hname, if_neg hname]

/-- A peeked variable gets an event if the loop comes to it and prints its
value. -/
theorem HoldsLocals.emits_iff (h : HoldsLocals mem v remote opArray locals)
    (hentry : Varpeek.varpeekEntry map file lineno = some varmap)
    (tmp : Buffer) (name text : Bytes) :
    EmitsVarpeek mem v floatText map lineno remote opArray file tmp
        ⟨name, Varpeek.varpeekKey file.length file lineno, text⟩ ↔
      ∃ before l after buf, locals = before ++ l :: after ∧ l.name = name ∧
        name ∈ varmap ∧ LeftBehind mem floatText varmap before tmp buf ∧
          PrintsOver mem floatText buf l text := by
  have hscan : EmitsVarpeek mem v floatText map lineno remote opArray file tmp
      ⟨name, Varpeek.varpeekKey file.length file lineno, text⟩ ↔
        ∃ fuel, (name, text) ∈
          scan (localVerdict mem floatText varmap fuel) locals tmp := by
    refine exists_congr fun fuel => ?_
    rw [h.traceLocals_events hentry]
    simp
  rw [hscan, exists_mem_scan_iff (localVerdict_persists varmap)]
  constructor
  · rintro ⟨before, l, after, buf, hsplit, hleft, fuel, hemit⟩
    obtain ⟨hname, rfl, hprints⟩ := localVerdict_eq_emit_iff.mp hemit
    exact ⟨before, l, after, buf, hsplit, rfl, hname, hleft, fuel, hprints⟩
  · rintro ⟨before, l, after, buf, hsplit, rfl, hname, hleft, fuel, hprints⟩
    exact ⟨before, l, after, buf, hsplit, hleft, fuel,
      localVerdict_eq_emit_iff.mpr ⟨hname, rfl, hprints⟩⟩

theorem HoldsLocals.before_eq (h : HoldsLocals mem v remote opArray locals)
    (hsplit : locals = before ++ l :: after) {before' after' : List Local}
    {l' : Local} (hsplit' : locals = before' ++ l' :: after')
    (hname : l'.name = l.name) : before' = before ∧ l' = l := by
  have hl : l' = l := by
    refine List.inj_on_of_nodup_map h.distinct ?_ ?_ hname
    · rw [hsplit']
      simp
    · rw [hsplit]
      simp
  subst hl
  refine ⟨append_cons_inj_of_nodup (hsplit'.symm.trans hsplit) ?_, rfl⟩
  rw [← hsplit']
  exact h.distinct.of_map _

theorem HoldsLocals.emits_local_iff
    (h : HoldsLocals mem v remote opArray locals)
    (hentry : Varpeek.varpeekEntry map file lineno = some varmap)
    (hsplit : locals = before ++ l :: after) (hname : l.name ∈ varmap)
    (tmp : Buffer) (text : Bytes) :
    EmitsVarpeek mem v floatText map lineno remote opArray file tmp
        ⟨l.name, Varpeek.varpeekKey file.length file lineno, text⟩ ↔
      ∃ buf, LeftBehind mem floatText varmap before tmp buf ∧
        PrintsOver mem floatText buf l text := by
  rw [h.emits_iff hentry]
  constructor
  · rintro ⟨before', l', after', buf, hsplit', heq, -, hleft, hprints⟩
    obtain ⟨rfl, rfl⟩ := h.before_eq hsplit hsplit' heq
    exact ⟨buf, hleft, hprints⟩
  · rintro ⟨buf, hleft, hprints⟩
    exact ⟨before, l, after, buf, hsplit, rfl, hname, hleft, hprints⟩

theorem leftBehind_unique {tmp buf buf' : Buffer}
    (h : LeftBehind mem floatText varmap before tmp buf)
    (h' : LeftBehind mem floatText varmap before tmp buf') : buf = buf' := by
  obtain ⟨m, hm⟩ := h
  obtain ⟨n, hn⟩ := h'
  have hmax := (localVerdict_persists varmap).past_eq (le_max_left m n) hm
  rw [(localVerdict_persists varmap).past_eq (le_max_right m n) hn] at hmax
  exact (Option.some.inj hmax).symm

theorem leftBehind_of_notMem (h : ∀ u ∈ before, u.name ∉ varmap)
    {tmp buf : Buffer} :
    LeftBehind mem floatText varmap before tmp buf ↔
      buf = namesOver before tmp := by
  have hpast : ∀ fuel, past (localVerdict mem floatText varmap fuel) before
      tmp = some (namesOver before tmp) :=
    fun fuel => past_of_skip (fun u hu s => if_neg (h u hu)) tmp
  simp only [LeftBehind, hpast, Option.some.injEq, exists_const]
  exact eq_comm

theorem HoldsLocals.emits_alone_iff
    (h : HoldsLocals mem v remote opArray locals)
    (honly : PeeksOnly single file lineno l.name)
    (hsplit : locals = before ++ l :: after) (tmp : Buffer) (text : Bytes) :
    EmitsVarpeek mem v floatText single lineno remote opArray file tmp
        ⟨l.name, Varpeek.varpeekKey file.length file lineno, text⟩ ↔
      PrintsOver mem floatText (namesOver before tmp) l text := by
  obtain ⟨varmap, hentry, hne, honly⟩ := honly
  have hin : l.name ∈ varmap := by
    obtain ⟨other, hother⟩ := List.exists_mem_of_ne_nil varmap hne
    exact honly other hother ▸ hother
  -- a variable in front has another name
  have hfront : ∀ u ∈ before, u.name ∉ varmap := by
    intro u hu hpeeked
    have hdistinct := h.distinct
    rw [hsplit, List.map_append, List.map_cons] at hdistinct
    exact List.disjoint_of_nodup_append hdistinct
      (honly _ hpeeked ▸ List.mem_map_of_mem hu) List.mem_cons_self
  rw [h.emits_local_iff hentry hsplit hin]
  simp only [leftBehind_of_notMem hfront, exists_eq_left]

theorem exists_peeksOnly (file : Bytes) (lineno : ℕ) (name : Bytes) :
    ∃ single, PeeksOnly single file lineno name :=
  ⟨(∅ : Varpeek.VarpeekMap).insert
      (Varpeek.varpeekKey file.length file lineno) [name],
    [name], AList.lookup_insert _, List.cons_ne_nil _ _,
    fun _ hother => List.mem_singleton.mp hother⟩

/-- The events of several peeked variables are those of each alone, if each
variable of the frame is printed in the one run as in the other. -/
theorem HoldsLocals.independent_iff_prints
    (h : HoldsLocals mem v remote opArray locals)
    (hentry : Varpeek.varpeekEntry map file lineno = some varmap) :
    (∀ name ∈ varmap, ∀ single, PeeksOnly single file lineno name →
      ∀ text tmp tmp',
        EmitsVarpeek mem v floatText map lineno remote opArray file tmp
            ⟨name, Varpeek.varpeekKey file.length file lineno, text⟩ ↔
          EmitsVarpeek mem v floatText single lineno remote opArray file tmp'
            ⟨name, Varpeek.varpeekKey file.length file lineno, text⟩) ↔
      ∀ before l after, locals = before ++ l :: after → l.name ∈ varmap →
        ∀ text tmp tmp',
          (∃ buf, LeftBehind mem floatText varmap before tmp buf ∧
            PrintsOver mem floatText buf l text) ↔
          PrintsOver mem floatText (namesOver before tmp') l text := by
  constructor
  · intro hboth before l after hsplit hname text tmp tmp'
    obtain ⟨single, hsingle⟩ := exists_peeksOnly file lineno l.name
    rw [← h.emits_local_iff hentry hsplit hname,
      ← h.emits_alone_iff hsingle hsplit]
    exact hboth l.name hname single hsingle text tmp tmp'
  · intro hprints name hname single hsingle text tmp tmp'
    by_cases hlocal : ∃ l ∈ locals, l.name = name
    · obtain ⟨l, hl, rfl⟩ := hlocal
      obtain ⟨before, after, hsplit⟩ := List.append_of_mem hl
      rw [h.emits_local_iff hentry hsplit hname,
        h.emits_alone_iff hsingle hsplit]
      exact hprints before l after hsplit hname text tmp tmp'
    · -- no variable of this name, and no event in either run
      obtain ⟨varmap', hentry', -, -⟩ := hsingle
      have hnone : ∀ {m : Varpeek.VarpeekMap} {vs : List Bytes},
          Varpeek.varpeekEntry m file lineno = some vs → ∀ buf,
            ¬ EmitsVarpeek mem v floatText m lineno remote opArray file buf
              ⟨name, Varpeek.varpeekKey file.length file lineno, text⟩ := by
        intro m vs hvs buf hemits
        obtain ⟨before, l, after, -, hsplit, hl, -⟩ :=
          (h.emits_iff hvs _ _ _).mp hemits
        exact hlocal ⟨l, by rw [hsplit]; simp, hl⟩
      exact iff_of_false (hnone hentry tmp) (hnone hentry' tmp')

/-- Peeked variables are independent exactly if, in the order of the compiled
variables, no value that is not printed comes before one that is, and what is
printed for a value depends neither on what the buffer held at first nor on
what the variables in front have left there. -/
theorem traceLocals_independent_iff
    (h : HoldsLocals mem v remote opArray locals)
    (hentry : Varpeek.varpeekEntry map file lineno = some varmap) :
    (∀ name ∈ varmap, ∀ single, PeeksOnly single file lineno name →
      ∀ text tmp tmp',
        EmitsVarpeek mem v floatText map lineno remote opArray file tmp
            ⟨name, Varpeek.varpeekKey file.length file lineno, text⟩ ↔
          EmitsVarpeek mem v floatText single lineno remote opArray file tmp'
            ⟨name, Varpeek.varpeekKey file.length file lineno, text⟩) ↔
      (∀ before l after, locals = before ++ l :: after → l.name ∈ varmap →
        PrintedAlone mem floatText before l →
          ∀ front u behind, before = front ++ u :: behind →
            u.name ∈ varmap → PrintedAlone mem floatText front u) ∧
      ∀ before l after, locals = before ++ l :: after → l.name ∈ varmap →
        ∀ tmp tmp' buf, LeftBehind mem floatText varmap before tmp buf →
          ∀ text, PrintsOver mem floatText buf l text ↔
            PrintsOver mem floatText (namesOver before tmp') l text := by
  rw [h.independent_iff_prints hentry]
  constructor
  · intro hprints
    refine ⟨?_, ?_⟩
    · rintro before l after hsplit hname ⟨tmp, text, halone⟩ front u behind rfl
        hpeeked
      obtain ⟨buf, ⟨fuel, hpast⟩, -⟩ :=
        (hprints _ l after hsplit hname text tmp tmp).mpr halone
      obtain ⟨t, hfront, hgoes⟩ := ne_stop_of_past hpast
      obtain ⟨text', hprinted⟩ := (localVerdict_ne_stop_iff hpeeked).mp hgoes
      refine ⟨tmp, text', (hprints front u (behind ++ l :: after) ?_ hpeeked
        text' tmp tmp).mp ⟨t, ⟨fuel, hfront⟩, fuel, hprinted⟩⟩
      rw [hsplit, List.append_assoc, List.cons_append]
    · intro before l after hsplit hname tmp tmp' buf hleft text
      refine Iff.trans ?_ (hprints before l after hsplit hname text tmp tmp')
      refine ⟨fun hover => ⟨buf, hleft, hover⟩, ?_⟩
      rintro ⟨buf', hleft', hover⟩
      rwa [leftBehind_unique hleft hleft']
  · rintro ⟨horder, halike⟩ before l after hsplit hname text tmp tmp'
    constructor
    · rintro ⟨buf, hleft, hover⟩
      exact (halike before l after hsplit hname tmp tmp' buf hleft text).mp
        hover
    · intro halone
      -- all peeked variables in front are printed alone, and hence here
      obtain ⟨buf, fuel, hpast⟩ : ∃ buf fuel,
          past (localVerdict mem floatText varmap fuel) before tmp =
            some buf := by
        refine exists_past (localVerdict_persists varmap) ?_
        rintro front u behind rfl t hfront
        by_cases hpeeked : u.name ∈ varmap
        · obtain ⟨tmp₀, text₀, halone₀⟩ := horder _ l after hsplit hname
            ⟨tmp', text, halone⟩ front u behind rfl hpeeked
          obtain ⟨fuel, hprinted⟩ := (halike front u (behind ++ l :: after)
            (by rw [hsplit, List.append_assoc, List.cons_append]) hpeeked tmp
            tmp₀ t hfront text₀).mpr halone₀
          exact ⟨fuel, (localVerdict_ne_stop_iff hpeeked).mpr
            ⟨text₀, hprinted⟩⟩
        · refine ⟨0, ?_⟩
          rw [localVerdict, if_neg hpeeked]
          nofun
      exact ⟨buf, ⟨fuel, hpast⟩, (halike before l after hsplit hname tmp tmp'
        buf ⟨fuel, hpast⟩ text).mpr halone⟩

/-- If no key of an array in it has a NUL byte, a value prints the same over
all buffers. -/
theorem CleanKeys.printsOver_iff (h : CleanKeys mem l.value)
    (buf buf' : Buffer) (text : Bytes) :
    PrintsOver mem floatText buf l text ↔
      PrintsOver mem floatText buf' l text := by
  refine exists_congr fun fuel => ?_
  rw [h.sprintZval_steady mem floatText fuel (nameOver buf l) (nameOver buf' l)
    0 strSize (by decide)]

end Independence

/-! ## A frame with two variables -/

/-- A frame at `0x10000` with a variable `a`, whose value is zero or null by
its type, and a variable `b`, whose value is 7. -/
def twoLocals (type : ℕ) : Remote :=
  .ofBlocks [
    (0x10050, Zval.image ⟨0, type, 0⟩ ++ Zval.image ⟨7, zvalTypeLong, 0⟩),
    (0x20000, leBytes 8 0x30000 ++ leBytes 8 0x30100),
    (0x30000, stringImage (lit "a")),
    (0x30100, stringImage (lit "b"))]

/-- The `zend_op_array` of that frame. -/
def twoLocalsOpArray : Bytes :=
  List.replicate 52 0 ++ leBytes 4 2 ++ List.replicate 40 0 ++
    leBytes 8 0x20000

def nullType : ℕ := 1

theorem twoLocals_holds {type : ℕ} (h : type = nullType ∨ type = zvalTypeLong) :
    HoldsLocals (twoLocals type) .v74 0x10000 twoLocalsOpArray
      [⟨lit "a", ⟨0, type, 0⟩⟩, ⟨lit "b", ⟨7, zvalTypeLong, 0⟩⟩] where
  count := by rcases h with rfl | rfl <;> decide
  name := by
    have hread : ∀ raddr size, (twoLocals type).fault raddr size = none :=
      fun _ _ => rfl
    rintro (_ | _ | i) l hl
    · cases hl
      refine ⟨leBytes 8 0x30000, ?_, HoldsString.of_bytes hread (by decide)
        (by decide) ?_ ?_ ?_⟩
      all_goals rcases h with rfl | rfl <;> decide +kernel
    · cases hl
      refine ⟨leBytes 8 0x30100, ?_, HoldsString.of_bytes hread (by decide)
        (by decide) ?_ ?_ ?_⟩
      all_goals rcases h with rfl | rfl <;> decide +kernel
    · simp at hl
  value := by
    rintro (_ | _ | i) l hl
    · cases hl
      refine ⟨Zval.image ⟨0, type, 0⟩, ?_, ?_⟩
      all_goals rcases h with rfl | rfl <;> decide +kernel
    · cases hl
      refine ⟨Zval.image ⟨7, zvalTypeLong, 0⟩, ?_, by decide⟩
      rcases h with rfl | rfl <;> decide +kernel
    · simp at hl
  short := by rcases h with rfl | rfl <;> decide
  distinct := by rcases h with rfl | rfl <;> decide

theorem longLocals_clean {l : Local}
    (hl : l ∈ ([⟨lit "a", ⟨0, zvalTypeLong, 0⟩⟩,
      ⟨lit "b", ⟨7, zvalTypeLong, 0⟩⟩] : List Local)) :
    CleanKeys (twoLocals zvalTypeLong) l.value := by
  refine CleanKeys.of_type ?_
  rcases List.mem_cons.mp hl with rfl | hl
  · decide
  · rw [List.mem_singleton.mp hl]
    decide

/-- The variables peeked by `-e a@f:1 -e b@f:1`. -/
def peeksBoth : Varpeek.VarpeekMap :=
  (∅ : Varpeek.VarpeekMap).insert (lit "f:1") [lit "b", lit "a"]

/-- The variable peeked by `-e b@f:1`. -/
def peeksSecond : Varpeek.VarpeekMap :=
  (∅ : Varpeek.VarpeekMap).insert (lit "f:1") [lit "b"]

/-- If `a` is null, then peeking at it takes the event of `b` away. -/
theorem nullLocal_hides_next :
    Varpeek.varpeekAddAll 3 ∅ [lit "a@f:1", lit "b@f:1"] = .ok peeksBoth ∧
      Varpeek.varpeekAddAll 3 ∅ [lit "b@f:1"] = .ok peeksSecond ∧
      (¬ ∃ event, EmitsVarpeek (twoLocals nullType) .v74 (fun _ => [])
        peeksBoth 1 0x10000 twoLocalsOpArray (lit "f") (fun _ => 0) event) ∧
      EmitsVarpeek (twoLocals nullType) .v74 (fun _ => [])
        peeksSecond 1 0x10000 twoLocalsOpArray (lit "f") (fun _ => 0)
        ⟨lit "b", lit "f:1", lit "7"⟩ := by
  refine ⟨rfl, rfl, ?_, ?_⟩
  · rintro ⟨event, fuel, hmem⟩
    rw [(twoLocals_holds (.inl rfl)).traceLocals_events rfl] at hmem
    exact absurd hmem List.not_mem_nil
  · refine ⟨0, ?_⟩
    rw [(twoLocals_holds (.inl rfl)).traceLocals_events rfl]
    exact List.mem_singleton.mpr rfl

/-- If `a` is a number, then both variables get the events that they get
alone. -/
theorem longLocals_independent :
    Varpeek.varpeekEntry peeksBoth (lit "f") 1 = some [lit "b", lit "a"] ∧
      ∀ name ∈ [lit "b", lit "a"], ∀ single,
        PeeksOnly single (lit "f") 1 name → ∀ text tmp tmp',
          EmitsVarpeek (twoLocals zvalTypeLong) .v74 (fun _ => []) peeksBoth 1
              0x10000 twoLocalsOpArray (lit "f") tmp
              ⟨name, Varpeek.varpeekKey 1 (lit "f") 1, text⟩ ↔
            EmitsVarpeek (twoLocals zvalTypeLong) .v74 (fun _ => []) single 1
              0x10000 twoLocalsOpArray (lit "f") tmp'
              ⟨name, Varpeek.varpeekKey 1 (lit "f") 1, text⟩ := by
  refine ⟨rfl, ?_⟩
  refine (traceLocals_independent_iff (twoLocals_holds (.inr rfl)) rfl).mpr
    ⟨?_, ?_⟩
  · intro before l after hsplit _ _ front u behind hbefore _
    -- both values are numbers, and numbers can be printed
    have hu : u ∈ before ++ l :: after := by simp [hbefore]
    rw [← hsplit] at hu
    have hnumber : ∃ text, PrintsOver (twoLocals zvalTypeLong) (fun _ => [])
        (fun _ => 0) u text := by
      rcases List.mem_cons.mp hu with rfl | hu
      · exact ⟨lit "0", 0, rfl⟩
      · rw [List.mem_singleton.mp hu]
        exact ⟨lit "7", 0, rfl⟩
    obtain ⟨text, hprints⟩ := hnumber
    exact ⟨fun _ => 0, text,
      ((longLocals_clean hu).printsOver_iff _ _ text).mp hprints⟩
  · intro before l after hsplit _ tmp tmp' buf _ text
    have hl : l ∈ before ++ l :: after := by simp
    rw [← hsplit] at hl
    exact (longLocals_clean hl).printsOver_iff _ _ text

end Phpspy

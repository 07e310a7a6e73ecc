import Phpspy.Fout.Handler
import Phpspy.Trace.DoTrace
import Phpspy.Zend.Structs

/-!
# Request information

`trace_request_info` copies up to four strings of the current request into
four adjacent arrays of 256 bytes each.  The copies are raw: a string of 256
bytes or more leaves its array without a terminator, and the handler, which
prints the arrays as C strings, goes on into the next one.
-/

namespace Phpspy

open ByteText

/-! ## Copying the fields -/

/-- The machines with `php_structs` headers. -/
inductive Arch where
  | x86_64
  | aarch64
deriving DecidableEq, Repr

/-- `offsetof(sapi_globals_struct, global_request_time)`, the last field. -/
def globalRequestTimeOffset : Arch → PhpVersion → ℕ
  | .x86_64, .v86 => 432
  | .x86_64, _ => 440
  | .aarch64, .v86 => 416
  | .aarch64, _ => 424

/-- `sizeof(sapi_globals_struct)` -/
def sapiGlobalsSize (arch : Arch) (v : PhpVersion) : ℕ :=
  globalRequestTimeOffset arch v + 8

/-- The fields of a `sapi_globals_struct` that are used: four pointers of its
`request_info`, and the bytes of a double. -/
structure SapiGlobals where
  queryString : ℕ
  cookieData : ℕ
  pathTranslated : ℕ
  requestUri : ℕ
  globalRequestTime : Bytes
deriving DecidableEq, Repr

def SapiGlobals.ofBytes (arch : Arch) (v : PhpVersion) (bs : Bytes) :
    SapiGlobals :=
  ⟨field bs 16 8, field bs 24 8, field bs 40 8, field bs 48 8,
    bs.drop (globalRequestTimeOffset arch v)⟩

/-- The fields of a request that `-r` selects: `opt_capture_req_*`. -/
structure RequestOptions where
  uri : Bool
  path : Bool
  qstring : Bool
  cookie : Bool

/-- `try_copy_sapi_global_field`, for an array with some old contents. -/
def copySapiGlobalField (mem : Remote) (capture : Bool) (pointer : ℕ)
    (array : Bytes) : Except Status Bytes :=
  if capture && pointer != 0 then copyProcMem mem pointer strSize
  else .ok (writeAt array 0 (lit "-" ++ [0]))

/-- `trace_request_info`, up to the event.  `request` is what the arrays and
the memory behind them hold before. -/
def traceRequestInfo (mem : Remote) (arch : Arch) (v : PhpVersion)
    (opts : RequestOptions) (floatText : ℕ → Bytes) (sapiGlobalsAddr : ℕ)
    (request : TraceRequest) : Except Status TraceRequest := do
  let copied ← copyProcMem mem sapiGlobalsAddr (sapiGlobalsSize arch v)
  let sapiGlobals := SapiGlobals.ofBytes arch v copied
  let qstring ← copySapiGlobalField mem opts.qstring sapiGlobals.queryString
    request.qstring
  let cookie ← copySapiGlobalField mem opts.cookie sapiGlobals.cookieData
    request.cookie
  let uri ← copySapiGlobalField mem opts.uri sapiGlobals.requestUri
    request.uri
  let path ← copySapiGlobalField mem opts.path sapiGlobals.pathTranslated
    request.path
  return {
    uri := uri
    path := path
    qstring := qstring
    cookie := cookie
    beyond := writeAt request.beyond 0 sapiGlobals.globalRequestTime
    ts := floatText (leVal sapiGlobals.globalRequestTime) }

/-! ## The request as a phase -/

theorem copySapiGlobalField_fromRead (mem : Remote) (capture : Bool)
    (pointer : ℕ) (array : Bytes) :
    FailsWith Status.FromRead
      (copySapiGlobalField mem capture pointer array) := by
  unfold copySapiGlobalField
  split
  · exact copyProcMem_fromRead _ _ _
  · exact FailsWith.ok _

theorem traceRequestInfo_fromRead (mem : Remote) (arch : Arch)
    (v : PhpVersion) (opts : RequestOptions) (floatText : ℕ → Bytes)
    (sapiGlobalsAddr : ℕ) (request : TraceRequest) :
    FailsWith Status.FromRead
      (traceRequestInfo mem arch v opts floatText sapiGlobalsAddr request) := by
  have hfield := copySapiGlobalField_fromRead mem
  refine (copyProcMem_fromRead _ _ _).bind fun copied _ => ?_
  refine (hfield _ _ _).bind fun qstring _ => ?_
  refine (hfield _ _ _).bind fun cookie _ => ?_
  refine (hfield _ _ _).bind fun uri _ => ?_
  exact (hfield _ _ _).bind fun path _ => FailsWith.ok _

/-- `trace_request_info` as a phase of a sample. -/
def requestPhase (mem : Remote) (arch : Arch) (v : PhpVersion)
    (opts : RequestOptions) (floatText : ℕ → Bytes) (sapiGlobalsAddr : ℕ)
    (request : TraceRequest) : Phase :=
  match h : traceRequestInfo mem arch v opts floatText sapiGlobalsAddr
      request with
  | .ok request =>
      { events := [.request request]
        status := Status.ok
        isPhase := ⟨by simp [Event.isRecord], Status.FromRead.ok⟩ }
  | .error rv =>
      { events := []
        status := rv
        isPhase := IsPhase.nil
          (traceRequestInfo_fromRead _ _ _ _ _ _ _ rv h) }

/-! ## Whose bytes a field shows -/

/-- The four fields, in the order of their arrays. -/
inductive RequestField where
  | uri
  | path
  | qstring
  | cookie
deriving DecidableEq, Repr

namespace RequestField

def capture (opts : RequestOptions) : RequestField → Bool
  | .uri => opts.uri
  | .path => opts.path
  | .qstring => opts.qstring
  | .cookie => opts.cookie

/-- Where the string of a field is. -/
def pointer (sapi : SapiGlobals) : RequestField → ℕ
  | .uri => sapi.requestUri
  | .path => sapi.pathTranslated
  | .qstring => sapi.queryString
  | .cookie => sapi.cookieData

def array (r : TraceRequest) : RequestField → Bytes
  | .uri => r.uri
  | .path => r.path
  | .qstring => r.qstring
  | .cookie => r.cookie

def behind (r : TraceRequest) : RequestField → Bytes
  | .uri => r.path ++ (r.qstring ++ (r.cookie ++ r.beyond))
  | .path => r.qstring ++ (r.cookie ++ r.beyond)
  | .qstring => r.cookie ++ r.beyond
  | .cookie => r.beyond

/-- The field is asked for and the request has it. -/
def isCaptured (opts : RequestOptions) (sapi : SapiGlobals)
    (f : RequestField) : Bool :=
  f.capture opts && f.pointer sapi != 0

/-- A text shows nothing but the field: a part from the start of its string,
which ends at the NUL or after 256 bytes, or a dash. -/
def IsOwn (mem : Remote) (opts : RequestOptions) (sapi : SapiGlobals)
    (f : RequestField) (text : Bytes) : Prop :=
  if f.isCaptured opts sapi then
    text <+: cstr (mem.bytes (f.pointer sapi) strSize)
  else text = lit "-"

instance (mem : Remote) (opts : RequestOptions) (sapi : SapiGlobals)
    (f : RequestField) (text : Bytes) :
    Decidable (f.IsOwn mem opts sapi text) := by
  unfold IsOwn
  infer_instance

/-- The first byte that a field gets. -/
def firstByte (mem : Remote) (opts : RequestOptions) (sapi : SapiGlobals)
    (f : RequestField) : UInt8 :=
  if f.isCaptured opts sapi then mem.byte (f.pointer sapi) else 45

def nextByte (mem : Remote) (opts : RequestOptions) (sapi : SapiGlobals) :
    RequestField → UInt8
  | .uri => firstByte mem opts sapi .path
  | .path => firstByte mem opts sapi .qstring
  | .qstring => firstByte mem opts sapi .cookie
  | .cookie => sapi.globalRequestTime.headD 0

/-- The string of a field has its NUL within 256 bytes, or one happens to
follow the array. -/
def Stops (mem : Remote) (opts : RequestOptions) (sapi : SapiGlobals)
    (f : RequestField) : Prop :=
  f.isCaptured opts sapi = true →
    0 ∈ mem.bytes (f.pointer sapi) strSize ∨ nextByte mem opts sapi f = 0

instance (mem : Remote) (opts : RequestOptions) (sapi : SapiGlobals)
    (f : RequestField) : Decidable (f.Stops mem opts sapi) := by
  unfold Stops
  infer_instance

/-- What the handler prints for a field. -/
def shown (r : TraceRequest) (f : RequestField) : Bytes :=
  cstr (f.array r ++ f.behind r)

end RequestField

/-- The SAPI globals in the memory of the target. -/
def Remote.sapiGlobals (mem : Remote) (arch : Arch) (v : PhpVersion)
    (sapiGlobalsAddr : ℕ) : SapiGlobals :=
  SapiGlobals.ofBytes arch v
    (mem.bytes sapiGlobalsAddr (sapiGlobalsSize arch v))

theorem Remote.sapiGlobals_pointer_lt (mem : Remote) (arch : Arch)
    (v : PhpVersion) (sapiGlobalsAddr : ℕ) (f : RequestField) :
    f.pointer (mem.sapiGlobals arch v sapiGlobalsAddr) < 2 ^ 64 := by
  cases f with
  | uri => exact field_lt _ 48 8
  | path => exact field_lt _ 40 8
  | qstring => exact field_lt _ 16 8
  | cookie => exact field_lt _ 24 8

theorem Remote.sapiGlobals_time_ne_nil (mem : Remote) (arch : Arch)
    (v : PhpVersion) (sapiGlobalsAddr : ℕ) :
    (mem.sapiGlobals arch v sapiGlobalsAddr).globalRequestTime ≠ [] := by
  intro hnil
  have hlen := congrArg List.length hnil
  simp [Remote.sapiGlobals, SapiGlobals.ofBytes, Remote.bytes,
    sapiGlobalsSize] at hlen

theorem copySapiGlobalField_eq_ok {mem : Remote} {capture : Bool}
    {pointer : ℕ} {array bs : Bytes}
    (h : copySapiGlobalField mem capture pointer array = .ok bs) :
    bs = if capture && pointer != 0 then mem.bytes pointer strSize
      else lit "-" ++ 0 :: array.drop 2 := by
  unfold copySapiGlobalField at h
  split at h
  · next hcapture =>
      rw [if_pos hcapture]
      exact copyProcMem_eq_ok h
  · next hcapture =>
      rw [if_neg hcapture, ← Except.ok.inj h]
      rfl

section Rendering

variable {mem : Remote} {arch : Arch} {v : PhpVersion}
  {opts : RequestOptions} {floatText : ℕ → Bytes} {sapiGlobalsAddr : ℕ}
  {request r : TraceRequest}

/-- What the arrays, and the memory behind them, hold after a call that
succeeds. -/
theorem traceRequestInfo_memory
    (h : traceRequestInfo mem arch v opts floatText sapiGlobalsAddr request =
      .ok r) :
    let sapi := mem.sapiGlobals arch v sapiGlobalsAddr
    (∀ f : RequestField, f.array r =
      if f.isCaptured opts sapi then mem.bytes (f.pointer sapi) strSize
      else lit "-" ++ 0 :: (f.array request).drop 2) ∧
      r.beyond = writeAt request.beyond 0 sapi.globalRequestTime := by
  obtain ⟨copied, hcopied, h⟩ := bind_eq_ok_iff.mp h
  obtain ⟨qstring, hqstring, h⟩ := bind_eq_ok_iff.mp h
  obtain ⟨cookie, hcookie, h⟩ := bind_eq_ok_iff.mp h
  obtain ⟨uri, huri, h⟩ := bind_eq_ok_iff.mp h
  obtain ⟨path, hpath, h⟩ := bind_eq_ok_iff.mp h
  have hsame : SapiGlobals.ofBytes arch v copied =
      mem.sapiGlobals arch v sapiGlobalsAddr := by
    rw [copyProcMem_eq_ok hcopied]
    rfl
  rw [hsame] at hqstring hcookie huri hpath h
  rw [← Except.ok.inj h]
  refine ⟨fun f => ?_, rfl⟩
  cases f with
  | uri => exact copySapiGlobalField_eq_ok huri
  | path => exact copySapiGlobalField_eq_ok hpath
  | qstring => exact copySapiGlobalField_eq_ok hqstring
  | cookie => exact copySapiGlobalField_eq_ok hcookie

theorem traceRequestInfo_array_head
    (h : traceRequestInfo mem arch v opts floatText sapiGlobalsAddr request =
      .ok r) (f : RequestField) :
    ∃ rest, f.array r =
      f.firstByte mem opts (mem.sapiGlobals arch v sapiGlobalsAddr) ::
        rest := by
  have harray := (traceRequestInfo_memory h).1 f
  have hlt := mem.sapiGlobals_pointer_lt arch v sapiGlobalsAddr f
  rw [harray, RequestField.firstByte]
  split
  · have hsplit : List.range strSize =
        0 :: (List.range (strSize - 1)).map Nat.succ :=
      List.range_succ_eq_map
    rw [Remote.bytes, hsplit, List.map_cons, ptrAdd, Nat.add_zero,
      Nat.mod_eq_of_lt hlt]
    exact ⟨_, rfl⟩
  · exact ⟨_, rfl⟩

theorem traceRequestInfo_behind_head
    (h : traceRequestInfo mem arch v opts floatText sapiGlobalsAddr request =
      .ok r) (f : RequestField) :
    ∃ rest, f.behind r =
      f.nextByte mem opts (mem.sapiGlobals arch v sapiGlobalsAddr) ::
        rest := by
  have hhead := traceRequestInfo_array_head h
  cases f with
  | uri =>
      obtain ⟨rest, hrest⟩ := hhead .path
      exact ⟨_, congrArg (· ++ _) hrest⟩
  | path =>
      obtain ⟨rest, hrest⟩ := hhead .qstring
      exact ⟨_, congrArg (· ++ _) hrest⟩
  | qstring =>
      obtain ⟨rest, hrest⟩ := hhead .cookie
      exact ⟨_, congrArg (· ++ _) hrest⟩
  | cookie =>
      have htime := mem.sapiGlobals_time_ne_nil arch v sapiGlobalsAddr
      obtain ⟨b, bs, hcons⟩ := List.exists_cons_of_ne_nil htime
      rw [RequestField.behind, (traceRequestInfo_memory h).2,
        RequestField.nextByte, hcons]
      exact ⟨_, rfl⟩

/-- A field shows nothing but its own string exactly if it stops. -/
theorem traceRequestInfo_isOwn_iff
    (h : traceRequestInfo mem arch v opts floatText sapiGlobalsAddr request =
      .ok r) (f : RequestField) :
    f.IsOwn mem opts (mem.sapiGlobals arch v sapiGlobalsAddr) (f.shown r) ↔
      f.Stops mem opts (mem.sapiGlobals arch v sapiGlobalsAddr) := by
  have harray := (traceRequestInfo_memory h).1 f
  obtain ⟨rest, hbehind⟩ := traceRequestInfo_behind_head h f
  rw [RequestField.shown, harray, hbehind, RequestField.IsOwn,
    RequestField.Stops]
  cases hcapture :
      f.isCaptured opts (mem.sapiGlobals arch v sapiGlobalsAddr) with
  | true =>
      simp only [if_true, forall_const]
      rw [cstr_append_isPrefix_iff, cstr_cons_eq_nil_iff]
  | false =>
      simp only [Bool.false_eq_true, if_false, false_implies, iff_true]
      rw [List.append_assoc, List.cons_append, cstr_append_zero]
      decide

theorem texts_request (r : TraceRequest) :
    (Event.request r).texts =
      [lit "# uri = " ++ RequestField.shown r .uri,
        lit "# path = " ++ RequestField.shown r .path,
        lit "# qstring = " ++ RequestField.shown r .qstring,
        lit "# cookie = " ++ RequestField.shown r .cookie,
        lit "# ts = " ++ r.ts] := by
  simp [Event.texts, RequestField.shown, RequestField.array,
    RequestField.behind]

/-- The fields of a request event are kept apart exactly if each string that
is captured ends within its array, or the byte behind the array ends it. -/
theorem traceRequestInfo_fields_own_iff
    (h : traceRequestInfo mem arch v opts floatText sapiGlobalsAddr request =
      .ok r) :
    (∃ text : RequestField → Bytes,
      (∀ f : RequestField,
        f.IsOwn mem opts (mem.sapiGlobals arch v sapiGlobalsAddr) (text f)) ∧
      (Event.request r).texts =
        [lit "# uri = " ++ text .uri, lit "# path = " ++ text .path,
          lit "# qstring = " ++ text .qstring,
          lit "# cookie = " ++ text .cookie, lit "# ts = " ++ r.ts]) ↔
      ∀ f : RequestField,
        f.Stops mem opts (mem.sapiGlobals arch v sapiGlobalsAddr) := by
  constructor
  · rintro ⟨text, hown, htexts⟩ f
    have hshown : f.shown r = text f := by
      rw [texts_request] at htexts
      simp only [List.cons.injEq, List.append_cancel_left_eq] at htexts
      cases f with
      | uri => exact htexts.1
      | path => exact htexts.2.1
      | qstring => exact htexts.2.2.1
      | cookie => exact htexts.2.2.2.1
    rw [← traceRequestInfo_isOwn_iff h, hshown]
    exact hown f
  · intro hstops
    refine ⟨fun f => f.shown r, fun f => ?_, texts_request r⟩
    exact (traceRequestInfo_isOwn_iff h f).mpr (hstops f)

end Rendering

/-! ## A long address -/

/-- A request for an address of `n` bytes, at `0x2000`, that is served by
`/x`, at `0x3000`.  The SAPI globals are at `0x1000`; of them only the
pointers `path_translated` and `request_uri` are not zero. -/
def longRequest (n : ℕ) : Remote where
  byte addr :=
    if addr = 0x1000 + 41 then 0x30
    else if addr = 0x1000 + 49 then 0x20
    else if 0x2000 ≤ addr ∧ addr < 0x2000 + n then 97
    else if addr = 0x3000 then 47
    else if addr = 0x3001 then 120
    else 0
  fault _ _ := none

def allFields : RequestOptions :=
  { uri := true
    path := true
    qstring := true
    cookie := true }

def emptyRequest : TraceRequest :=
  { uri := List.replicate strSize 0
    path := List.replicate strSize 0
    qstring := List.replicate strSize 0
    cookie := List.replicate strSize 0
    beyond := List.replicate 8 0
    ts := [] }

def tracedRequest (n : ℕ) : Except Status TraceRequest :=
  traceRequestInfo (longRequest n) .x86_64 .v74 allFields (fun _ => lit "0")
    0x1000 emptyRequest

/-- The path is printed a second time, at the end of the address. -/
theorem longRequest_uri_shows_path :
    (tracedRequest 256).map (fun r => (Event.request r).texts) =
        .ok [lit "# uri = " ++ (List.replicate 256 97 ++ lit "/x"),
          lit "# path = /x", lit "# qstring = -", lit "# cookie = -",
          lit "# ts = 0"] ∧
      ¬ RequestField.uri.IsOwn (longRequest 256) allFields
        ((longRequest 256).sapiGlobals .x86_64 .v74 0x1000)
        (List.replicate 256 97 ++ lit "/x") := by
  constructor
  · decide +kernel
  · decide +kernel

/-- An address of 255 bytes still leaves room for its terminator. -/
theorem shortRequest_fields_own :
    ∃ r, tracedRequest 255 = .ok r ∧
      ∃ text : RequestField → Bytes,
        (∀ f : RequestField, f.IsOwn (longRequest 255) allFields
          ((longRequest 255).sapiGlobals .x86_64 .v74 0x1000) (text f)) ∧
        (Event.request r).texts =
          [lit "# uri = " ++ text .uri, lit "# path = " ++ text .path,
            lit "# qstring = " ++ text .qstring,
            lit "# cookie = " ++ text .cookie, lit "# ts = " ++ r.ts] := by
  have hreads : (tracedRequest 255).isOk = true := by decide +kernel
  cases h : tracedRequest 255 with
  | error rv =>
      rw [h] at hreads
      exact absurd hreads (by simp [Except.isOk, Except.toBool])
  | ok r =>
      refine ⟨r, rfl, (traceRequestInfo_fields_own_iff h).mpr fun f => ?_⟩
      cases f with
      | uri => decide +kernel
      | path => decide +kernel
      | qstring => decide +kernel
      | cookie => decide +kernel

end Phpspy

import Phpspy.Options.Parse
import Phpspy.Support.GetoptAgain
import Phpspy.Support.GetoptRewrite

/-!
# The arguments of the child

In top mode the program starts itself again with its own arguments, after
`filter_child_args` has overwritten the ones that look like the output, the
single-line or the top option.  It does not know which arguments are values of
options or belong to the command.
-/

namespace Phpspy
namespace Top

open ByteText GetoptLong Options

/-! ## The filter -/

/-- Arguments that are taken for the output option. -/
def isOutputArg (arg : Bytes) : Bool :=
  (lit "-o").isPrefixOf arg || (lit "--output").isPrefixOf arg

/-- Arguments that are taken for the single-line or the top option. -/
def isViewArg (arg : Bytes) : Bool :=
  (lit "-1").isPrefixOf arg || (lit "--single-line").isPrefixOf arg ||
    (lit "-t").isPrefixOf arg || (lit "--top").isPrefixOf arg

/-- The body of the loop of `filter_child_args`.  An argument is cut behind the
character that is written over its second one. -/
def filterArg (arg : Bytes) : Bytes :=
  let arg := if isOutputArg arg then arg.take 1 ++ lit "#" else arg
  if isViewArg arg then arg.take 1 ++ lit "@" else arg

def filterChildArgs (argv : List Bytes) : List Bytes :=
  argv.map filterArg

/-- An argument with a hyphen and something behind it that is not only another
hyphen. -/
def IsOption (arg : Bytes) : Prop :=
  (∃ b text, arg = 45 :: b :: text) ∧ arg ≠ lit "--"

theorem isOption_of_isPrefixOf {name arg : Bytes} {b : UInt8} {more : Bytes}
    (hname : name = 45 :: b :: more) (hne : b = 45 → more ≠ [])
    (h : name.isPrefixOf arg = true) : IsOption arg := by
  obtain ⟨text, rfl⟩ := List.isPrefixOf_iff_prefix.mp h
  subst hname
  refine ⟨⟨b, more ++ text, rfl⟩, fun heq => ?_⟩
  obtain ⟨-, hcons⟩ := List.cons.inj heq
  obtain ⟨hb, hnil⟩ := List.cons.inj hcons
  exact hne hb (List.append_eq_nil_iff.mp hnil).1

theorem isOption_of_isOutputArg {arg : Bytes} (h : isOutputArg arg = true) :
    IsOption arg := by
  rw [isOutputArg, Bool.or_eq_true] at h
  rcases h with h | h
  · exact isOption_of_isPrefixOf rfl (by decide) h
  · exact isOption_of_isPrefixOf rfl (by decide) h

theorem isOption_of_isViewArg {arg : Bytes} (h : isViewArg arg = true) :
    IsOption arg := by
  simp only [isViewArg, Bool.or_eq_true] at h
  rcases h with ((h | h) | h) | h
  all_goals exact isOption_of_isPrefixOf rfl (by decide) h

theorem filterArg_of_isOutputArg {arg : Bytes} (h : isOutputArg arg = true) :
    filterArg arg = lit "-#" := by
  obtain ⟨b, text, harg⟩ := (isOption_of_isOutputArg h).1
  rw [filterArg, if_pos h, harg]
  rfl

theorem filterArg_of_isViewArg {arg : Bytes} (houtput : isOutputArg arg = false)
    (h : isViewArg arg = true) : filterArg arg = lit "-@" := by
  obtain ⟨b, text, harg⟩ := (isOption_of_isViewArg h).1
  rw [filterArg, if_neg (Bool.eq_false_iff.mp houtput), if_pos h, harg]
  rfl

theorem filterArg_of_neither {arg : Bytes} (houtput : isOutputArg arg = false)
    (hview : isViewArg arg = false) : filterArg arg = arg := by
  rw [filterArg, if_neg (Bool.eq_false_iff.mp houtput),
    if_neg (Bool.eq_false_iff.mp hview)]

/-- An argument stays as it is, or is an option and becomes `-#` or `-@`. -/
theorem filterArg_cases (arg : Bytes) :
    filterArg arg = arg ∨ IsOption arg ∧
      (filterArg arg = lit "-#" ∨ filterArg arg = lit "-@") := by
  cases houtput : isOutputArg arg with
  | true =>
      exact .inr ⟨isOption_of_isOutputArg houtput,
        .inl (filterArg_of_isOutputArg houtput)⟩
  | false =>
      cases hview : isViewArg arg with
      | true =>
          exact .inr ⟨isOption_of_isViewArg hview,
            .inr (filterArg_of_isViewArg houtput hview)⟩
      | false => exact .inl (filterArg_of_neither houtput hview)

theorem filterArg_filterArg (arg : Bytes) :
    filterArg (filterArg arg) = filterArg arg := by
  rcases filterArg_cases arg with h | ⟨-, h | h⟩
  · rw [h, h]
  · rw [h]
    decide
  · rw [h]
    decide

theorem isOption_filterArg {arg : Bytes} (h : filterArg arg ≠ arg) :
    IsOption arg ∧ IsOption (filterArg arg) := by
  rcases filterArg_cases arg with hsame | ⟨hoption, hfilter | hfilter⟩
  · exact absurd hsame h
  · rw [hfilter]
    exact ⟨hoption, ⟨_, _, rfl⟩, by decide⟩
  · rw [hfilter]
    exact ⟨hoption, ⟨_, _, rfl⟩, by decide⟩

theorem IsOption.isNonOption {arg : Bytes} (h : IsOption arg) :
    isNonOption arg = false := by
  obtain ⟨⟨b, text, rfl⟩, -⟩ := h
  simp [GetoptLong.isNonOption]

theorem IsOption.head {arg : Bytes} (h : IsOption arg) :
    arg.head? = some 45 := by
  obtain ⟨⟨b, text, rfl⟩, -⟩ := h
  rfl

theorem keepsHyphens_filterArg : KeepsHyphens filterArg where
  nonOption arg := by
    by_cases h : filterArg arg = arg
    · rw [h]
    · obtain ⟨hold, hnew⟩ := isOption_filterArg h
      rw [hold.isNonOption, hnew.isNonOption]
  hyphens arg := by
    by_cases h : filterArg arg = arg
    · rw [h]
    · obtain ⟨hold, hnew⟩ := isOption_filterArg h
      exact iff_of_false hnew.2 hold.2
  hyphen arg := by
    by_cases h : filterArg arg = arg
    · rw [h]
    · obtain ⟨hold, hnew⟩ := isOption_filterArg h
      exact iff_of_true hnew.head hold.head

/-! ## The options of the child -/

def childOption : Opt → Opt
  | .output => .comment
  | .singleLine => .nothing
  | .top => .nothing
  | c => c

/-- The values that the child is to have.  The output, the single line and the
top mode are as if they had not been given. -/
def forChild (o : Values) : Values :=
  { o with
    pathOutput := Values.initial.pathOutput
    frameDelim := Values.initial.frameDelim
    traceDelim := Values.initial.traceDelim
    topMode := Values.initial.topMode }

/-- The filter takes an option for what it is.  An argument that looks like the
output option is that option and nothing else.  One that looks like the single
line or the top option has no other option in it.  The three options are in no
other argument.  A value does not look like them, unless it is not needed. -/
def SeenByFilter (call : Call Opt) : Prop :=
  (isOutputArg call.element = true →
    call.element = lit "-o" ∨ call.element = lit "--output") ∧
  (isViewArg call.element = true →
    call.arg = .absent ∧ ∀ c ∈ call.val, childOption c = .nothing) ∧
  (filterArg call.element = call.element →
    call.val.map childOption = call.val) ∧
  (call.arg.map filterArg ≠ call.arg →
    call.val = some .output ∨ call.val = some .comment)

instance : DecidablePred SeenByFilter := fun call => by
  unfold SeenByFilter
  infer_instance

theorem orUsage_forChild {α : Type} {o : Values} {value : Option α}
    {childSet set : α → Values} (hset : ∀ n, childSet n = forChild (set n)) :
    (orUsage (forChild o) value).map childSet =
      ((orUsage o value).map set).map forChild := by
  cases value with
  | none => rfl
  | some n => exact congrArg Except.ok (hset n)

theorem foldl_forChild {set : Values → UInt8 → Values}
    (hset : ∀ o b, set (forChild o) b = forChild (set o b)) (o : Values)
    (optarg : Bytes) :
    optarg.foldl set (forChild o) = forChild (optarg.foldl set o) := by
  induction optarg generalizing o with
  | nil => rfl
  | cons b optarg ih => rw [List.foldl_cons, List.foldl_cons, hset, ih]

theorem requestFlag_forChild (o : Values) (b : UInt8) :
    requestFlag (forChild o) b = forChild (requestFlag o b) := by
  simp only [requestFlag]
  split <;> rfl

theorem verboseFlag_forChild (o : Values) (b : UInt8) :
    verboseFlag (forChild o) b = forChild (verboseFlag o b) := by
  simp only [verboseFlag]
  split <;> rfl

theorem setFilter_forChild (env : Environment) (o : Values) (optarg : Bytes)
    (negate : Bool) :
    setFilter env (forChild o) optarg negate =
      (setFilter env o optarg negate).map forChild := by
  rw [setFilter, setFilter]
  split <;> rfl

theorem setEventHandler_forChild (o : Values) (optarg : Bytes) :
    setEventHandler (forChild o) optarg =
      (setEventHandler o optarg).map forChild := by
  rw [setEventHandler, setEventHandler]
  split
  · rfl
  · split <;> rfl

theorem peekVar_forChild (env : Environment) (o : Values) (optarg : Bytes) :
    peekVar env (forChild o) optarg =
      (peekVar env o optarg).map forChild := by
  have hmap : (forChild o).varpeekMap = o.varpeekMap := rfl
  rw [peekVar, peekVar, hmap]
  split <;> rfl

/-- The child does with its option what the program does with its own. -/
theorem setOption_forChild (env : Environment) (o : Values) (c : Opt)
    (optarg : Bytes) :
    setOption env (forChild o) (childOption c) optarg =
      (setOption env o c optarg).map forChild := by
  cases c with
  | pid | threads | sleepNs | rateHz | timeLimitMs | maxDepth | maxDepthOuter
    | bufferSize | peekGlobal => exact orUsage_forChild fun _ => rfl
  | requestInfo =>
      have hfold := foldl_forChild requestFlag_forChild o optarg
      change Except.ok (setRequestInfo (forChild o) optarg) = _
      rw [setRequestInfo, hfold]
      rfl
  | verboseFields =>
      exact congrArg Except.ok (foldl_forChild verboseFlag_forChild o optarg)
  | filter => exact setFilter_forChild env o optarg false
  | filterNegate => exact setFilter_forChild env o optarg true
  | eventHandler => exact setEventHandler_forChild o optarg
  | peekVar => exact peekVar_forChild env o optarg
  | _ => rfl

theorem handle_forChild {env : Environment} {call : Call Opt}
    (h : SeenByFilter call) (o : Values) :
    handle env (forChild o) (call.map filterArg childOption) =
      (handle env o call).map forChild := by
  obtain ⟨-, -, -, hvalue⟩ := h
  obtain ⟨element, val, arg⟩ := call
  cases val with
  | none => rfl
  | some c =>
      have hsame := setOption_forChild env o c (arg.optarg.getD [])
      by_cases hkept : arg.map filterArg = arg
      · change setOption env (forChild o) (childOption c)
          ((arg.map filterArg).optarg.getD []) = _
        rw [hkept]
        exact hsame
      · rcases hvalue hkept with hval | hval
        · obtain rfl : c = .output := Option.some.inj hval
          rfl
        · obtain rfl : c = .comment := Option.some.inj hval
          rfl

theorem handle_of_nothing {env : Environment} {call : Call Opt}
    (h : ∀ c ∈ call.val, childOption c = .nothing) (o : Values) :
    (handle env o call).map forChild = .ok (forChild o) := by
  rw [handle]
  cases hval : call.val with
  | none => rfl
  | some c =>
      have hchild := setOption_forChild env o c (call.arg.optarg.getD [])
      rw [h c hval] at hchild
      exact hchild.symm

/-! ## The arguments of the child -/

theorem decode_output {arg : Bytes}
    (h : arg = lit "-o" ∨ arg = lit "--output") :
    filterArg arg ≠ arg ∧
      table.decode (filterArg arg) = (table.decode arg).map childOption ∧
      (table.decode arg).nextchar = [] := by
  rcases h with rfl | rfl
  · exact ⟨by decide, rfl, rfl⟩
  · exact ⟨by decide, rfl, rfl⟩

theorem decode_view {arg : Bytes} (houtput : isOutputArg arg = false)
    (hview : isViewArg arg = true) :
    filterArg arg ≠ arg ∧
      table.decode (filterArg arg) = .gives (some .nothing) none [] := by
  have hfilter := filterArg_of_isViewArg houtput hview
  refine ⟨fun hsame => ?_, by rw [hfilter]; rfl⟩
  rw [← hsame, hfilter] at hview
  exact absurd hview (by decide)

theorem SeenByFilter.rewritten {call : Call Opt} (h : SeenByFilter call) :
    call.Kept filterArg childOption ∨
      call.Replaced filterArg childOption table ∨
      call.Covered filterArg table .nothing := by
  obtain ⟨houtput, hview, hother, -⟩ := h
  cases ho : isOutputArg call.element with
  | true => exact .inr (.inl (decode_output (houtput ho)))
  | false =>
      cases hv : isViewArg call.element with
      | true =>
          obtain ⟨hne, hdecode⟩ := decode_view ho hv
          exact .inr (.inr ⟨hne, hdecode, (hview hv).1⟩)
      | false =>
          have hsame := filterArg_of_neither ho hv
          exact .inl ⟨hsame, hother hsame⟩

theorem SeenByFilter.nothing_of_covered {call : Call Opt}
    (h : SeenByFilter call)
    (hcovered : call.Covered filterArg table .nothing) :
    ∀ c ∈ call.val, childOption c = .nothing := by
  obtain ⟨-, hview, -, -⟩ := h
  obtain ⟨hne, hdecode, -⟩ := hcovered
  cases ho : isOutputArg call.element with
  | true =>
      have hneeds : table.decode (lit "-#") = .needs .comment := rfl
      rw [filterArg_of_isOutputArg ho, hneeds] at hdecode
      exact absurd hdecode (by simp)
  | false =>
      cases hv : isViewArg call.element with
      | true => exact (hview hv).2
      | false => exact absurd (filterArg_of_neither ho hv) hne

theorem foldlM_handle_forChild {env : Environment}
    {calls others : List (Call Opt)}
    (h : Rewrites filterArg childOption table .nothing calls others)
    (hseen : ∀ call ∈ calls, SeenByFilter call) (o : Values) :
    others.foldlM (handle env) (forChild o) =
      (calls.foldlM (handle env) o).map forChild := by
  induction h with
  | nil => rfl
  | @append calls others found call _ hcall ih =>
      have hbefore := ih fun call hmem =>
        hseen call (List.mem_append_left _ hmem)
      have hlast := hseen call (List.mem_append_right _ List.mem_cons_self)
      rw [List.foldlM_append, List.foldlM_append, hbefore]
      cases calls.foldlM (handle env) o with
      | error e => rfl
      | ok o' =>
          have hone (call : Call Opt) (o : Values) :
              [call].foldlM (handle env) o = handle env o call := by
            rw [List.foldlM_cons]
            exact bind_pure _
          change found.foldlM (handle env) (forChild o') =
            ([call].foldlM (handle env) o').map forChild
          rw [hone]
          cases hcall with
          | kept => rw [hone, handle_forChild hlast]
          | replaced => rw [hone, handle_forChild hlast]
          | covered hcovered =>
              rw [handle_of_nothing (hlast.nothing_of_covered hcovered)]
              rfl
          | dropped hcovered =>
              rw [handle_of_nothing (hlast.nothing_of_covered hcovered)]
              rfl

section Child

variable (env : Environment) (ordering : GetoptLong.Ordering)

/-- The arguments of the child have the meaning of the program's own, apart from
the output, the single line and the top mode: all other values are the same,
and so is the command with its arguments. -/
def KeepsMeaning (argv : List Bytes) : Prop :=
  ∀ o s, parseOpts env ordering argv = .ok (o, s) →
    ∃ t, parseOpts env ordering (filterChildArgs s.argv) =
        .ok (forChild o, t) ∧
      t.rest = s.rest

end Child

variable {env : Environment} {ordering : GetoptLong.Ordering}

theorem rewrites_filterChildArgs {argv : List Bytes}
    (hseen : ∀ call ∈ optionCalls ordering argv, SeenByFilter call) :
    Rewrites filterArg childOption table .nothing (optionCalls ordering argv)
        (optionCalls ordering
          (filterChildArgs (scannerLeft ordering argv).argv)) ∧
      scannerLeft ordering
        (filterChildArgs (scannerLeft ordering argv).argv) =
          (scannerLeft ordering argv).rewrite filterArg := by
  have hagain : scan table ordering
      (Scanner.start (scannerLeft ordering argv).argv).size
      (.start (scannerLeft ordering argv).argv) =
        scan table ordering (Scanner.start argv).size (.start argv) :=
    scan_again le_rfl le_rfl
  have hrewrite := @KeepsHyphens.scan_rewrite Opt filterArg childOption _ table
    ordering keepsHyphens_filterArg (by decide) .nothing
    (scannerLeft ordering argv).argv _ _ le_rfl le_rfl
  rw [hagain] at hrewrite
  obtain ⟨others, hrewrites, hscan⟩ :=
    hrewrite fun call hmem => (hseen call hmem).rewritten
  obtain rfl := congrArg Prod.fst hscan
  exact ⟨hrewrites, congrArg Prod.snd hscan⟩

theorem keepsMeaning_of_seen {argv : List Bytes}
    (hseen : ∀ call ∈ optionCalls ordering argv, SeenByFilter call)
    (hcommand : ∀ arg ∈ (scannerLeft ordering argv).rest,
      filterArg arg = arg) :
    KeepsMeaning env ordering argv := by
  intro o s hparse
  obtain ⟨hfold, rfl⟩ := parseOpts_eq_ok_iff.mp hparse
  obtain ⟨hrewrites, hleft⟩ := rewrites_filterChildArgs hseen
  have hvalues := @foldlM_handle_forChild env _ _ hrewrites hseen .initial
  rw [hfold] at hvalues
  refine ⟨(scannerLeft ordering argv).rewrite filterArg, ?_, ?_⟩
  · exact parseOpts_eq_ok_iff.mpr ⟨hvalues, hleft.symm⟩
  · exact (List.map_congr_left hcommand).trans (List.map_id _)

/-- Every argument of the command that is changed is lost. -/
theorem KeepsMeaning.command {argv : List Bytes} {o : Values} {s : Scanner}
    (h : KeepsMeaning env ordering argv)
    (hparse : parseOpts env ordering argv = .ok (o, s)) :
    ∀ arg ∈ s.rest, filterArg arg = arg := by
  intro arg hmem
  obtain ⟨t, hchild, hrest⟩ := h o s hparse
  obtain ⟨-, rfl⟩ := parseOpts_eq_ok_iff.mp hchild
  have hperm := @scan_argv_perm Opt _ table ordering
    (Scanner.start (filterChildArgs s.argv)).size
    (.start (filterChildArgs s.argv))
  rw [argv_start] at hperm
  have hin : arg ∈ (scannerLeft ordering (filterChildArgs s.argv)).argv := by
    rw [Scanner.argv, hrest]
    exact List.mem_append_right _ hmem
  obtain ⟨old, -, rfl⟩ := List.mem_map.mp (hperm.mem_iff.mp hin)
  exact filterArg_filterArg old

/-- The child's arguments keep their meaning if the filter sees every option as
it is and leaves the command alone.  They never do if it does not leave the
command alone. -/
theorem filterChildArgs_keepsMeaning (env : Environment)
    (ordering : GetoptLong.Ordering) (argv : List Bytes) :
    ((∀ call ∈ optionCalls ordering argv, SeenByFilter call) ∧
        (∀ arg ∈ (scannerLeft ordering argv).rest, filterArg arg = arg) →
      KeepsMeaning env ordering argv) ∧
    (KeepsMeaning env ordering argv →
      ∀ o s, parseOpts env ordering argv = .ok (o, s) →
        ∀ arg ∈ s.rest, filterArg arg = arg) := by
  refine ⟨fun ⟨hseen, hcommand⟩ => ?_, fun hkeeps o s hparse => ?_⟩
  · exact keepsMeaning_of_seen hseen hcommand
  · exact hkeeps.command hparse

/-- A process that accepts all regular expressions. -/
def anyRegex : Environment where
  regcomp := fun _ => true
  fuel := 0

/-- `phpspy -1t -o x -p 1` -/
theorem filterChildArgs_keepsMeaning_plain :
    (parseOpts anyRegex .permute
        [lit "phpspy", lit "-1t", lit "-o", lit "x", lit "-p",
          lit "1"]).isOk = true ∧
      KeepsMeaning anyRegex .permute
        [lit "phpspy", lit "-1t", lit "-o", lit "x", lit "-p",
          lit "1"] := by
  refine ⟨by decide +kernel, ?_⟩
  refine (filterChildArgs_keepsMeaning _ _ _).1 ⟨?_, ?_⟩
  · decide +kernel
  · decide +kernel

/-- Whether the child has another pid, is not quiet as the program is, has
another command or is in top mode itself. -/
def childDiffers (env : Environment) (ordering : GetoptLong.Ordering)
    (argv : List Bytes) : Bool :=
  match parseOpts env ordering argv with
  | .error _ => false
  | .ok (o, s) =>
      match parseOpts env ordering (filterChildArgs s.argv) with
      | .error _ => true
      | .ok (o', t) =>
          o'.pid ≠ o.pid || o'.quiet ≠ o.quiet || t.rest ≠ s.rest || o'.topMode

theorem not_keepsMeaning_of_childDiffers {argv : List Bytes}
    (h : childDiffers env ordering argv = true) :
    ¬ KeepsMeaning env ordering argv := by
  intro hkeeps
  rw [childDiffers] at h
  split at h
  · exact Bool.false_ne_true h
  · next o s hparse =>
      obtain ⟨t, hchild, hrest⟩ := hkeeps o s hparse
      rw [hchild] at h
      simp [hrest, forChild, Values.initial] at h

/-- The value of `-ox` is lost and the next argument is taken for it; so it is
with `--output=x`.  `-tq` loses `-q`, and the child of `-qt` is in top mode.
The value of `-n -1` and the argument of `php -test` are overwritten. -/
theorem childArgs_change_meaning :
    ¬ KeepsMeaning anyRegex .permute
        [lit "phpspy", lit "-t", lit "-ox", lit "-p", lit "1"] ∧
      ¬ KeepsMeaning anyRegex .permute
        [lit "phpspy", lit "-t", lit "--output=x", lit "-p", lit "1"] ∧
      ¬ KeepsMeaning anyRegex .permute
        [lit "phpspy", lit "-tq", lit "-p", lit "1"] ∧
      ¬ KeepsMeaning anyRegex .permute
        [lit "phpspy", lit "-qt", lit "-p", lit "1"] ∧
      ¬ KeepsMeaning anyRegex .permute
        [lit "phpspy", lit "-t", lit "-n", lit "-1", lit "-p", lit "1"] ∧
      ¬ KeepsMeaning anyRegex .permute
        [lit "phpspy", lit "-t", lit "php", lit "-test"] := by
  refine ⟨?_, ?_, ?_, ?_, ?_, ?_⟩ <;>
    exact not_keepsMeaning_of_childDiffers (by decide +kernel)

end Top
end Phpspy

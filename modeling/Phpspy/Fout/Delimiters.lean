import Phpspy.Fout.Traces

/-!
# Which delimiters are stripped

The two passes over a record body share one cursor: the second pass starts
behind the last frame delimiter that the first one replaced.  A trace
delimiter in front of it is never looked at.  With newlines as both delimiters
there is none left; with tabs and newlines it stays in the body and breaks the
line of a trace in two.
-/

namespace Phpspy
namespace Fout

open ByteText

/-- A text with every frame delimiter and every trace delimiter replaced by a
question mark. -/
def maskDelims (opts : Options) (text : Bytes) : Bytes :=
  masked opts.traceDelim (masked opts.frameDelim text)

/-- A trace delimiter stands somewhere before a frame delimiter, and the two
differ: in `-1` mode, a newline before a tab. -/
def Overtaken (opts : Options) (text : Bytes) : Prop :=
  opts.frameDelim ≠ opts.traceDelim ∧
    [opts.traceDelim, opts.frameDelim].Sublist text

instance (opts : Options) (text : Bytes) : Decidable (Overtaken opts text) :=
  inferInstanceAs (Decidable (_ ∧ _))

/-! ## One body -/

theorem mem_masked_of_ne {delim c : UInt8} (hne : delim ≠ c)
    (hc : c ≠ 63) (text : Bytes) : c ∈ masked delim text ↔ c ∈ text := by
  rw [masked, List.mem_map]
  constructor
  · rintro ⟨b, hb, hbc⟩
    split at hbc
    · exact absurd hbc.symm hc
    · exact hbc ▸ hb
  · intro hmem
    exact ⟨c, hmem, if_neg (Ne.symm hne)⟩

theorem stripDelims_of_notMem {opts : Options} {text : Bytes}
    (h : opts.frameDelim ∉ text) :
    stripDelims opts text = masked opts.traceDelim text := by
  have hfirst : stripPass opts.frameDelim text.length (text, 0) = (text, 0) :=
    stripPass_of_notMem h text.length []
  rw [stripDelims, hfirst, stripPass_zero]

/-- The trace delimiters behind the last frame delimiter are replaced, those
before it are not. -/
theorem stripDelims_of_last {opts : Options} {rest : Bytes}
    (hrest : opts.frameDelim ∉ rest) (mid : Bytes) :
    stripDelims opts (mid ++ opts.frameDelim :: rest) =
      masked opts.frameDelim mid ++ 63 :: masked opts.traceDelim rest := by
  have hlen : (mid ++ opts.frameDelim :: rest).length =
      mid.length + rest.length + 1 := by
    simp [Nat.add_assoc]
  have hfuel : mid.length < mid.length + rest.length + 1 := by omega
  have hfirst := stripPass_of_last hrest hfuel []
  simp only [List.nil_append, List.length_nil] at hfirst
  rw [stripDelims, hlen, hfirst, stripPass_eq (by omega)]
  simp

theorem sublist_pair_of_last {c d : UInt8} {mid rest : Bytes}
    (hrest : d ∉ rest) :
    [c, d].Sublist (mid ++ d :: rest) ↔ c ∈ mid := by
  rw [List.cons_sublist_iff]
  constructor
  · rintro ⟨r₁, r₂, hsplit, hc, hd⟩
    rw [List.singleton_sublist] at hd
    rcases List.append_eq_append_iff.mp hsplit with
      ⟨between, rfl, hback⟩ | ⟨between, rfl, -⟩
    · cases between with
      | nil => simpa using hc
      | cons b between =>
          rw [List.cons_append, List.cons.injEq] at hback
          exact absurd (by simp [hback.2, hd]) hrest
    · exact List.mem_append_left _ hc
  · intro hc
    exact ⟨mid, d :: rest, rfl, hc, by simp⟩

theorem traceDelim_mem_stripDelims_iff (opts : Options) (text : Bytes) :
    opts.traceDelim ∈ stripDelims opts text ↔ Overtaken opts text := by
  have hquestion : opts.traceDelim ≠ 63 := by simp [Options.traceDelim]
  by_cases hmem : opts.frameDelim ∈ text
  · obtain ⟨mid, rest, rfl, hrest⟩ := eq_append_cons_last hmem
    have hclean := notMem_masked hquestion rest
    rw [stripDelims_of_last hrest, Overtaken, sublist_pair_of_last hrest,
      List.mem_append, List.mem_cons]
    by_cases hsame : opts.frameDelim = opts.traceDelim
    · rw [hsame]
      simp [notMem_masked hquestion mid, hclean, hquestion]
    · rw [mem_masked_of_ne hsame hquestion]
      simp [hclean, hquestion, hsame]
  · rw [stripDelims_of_notMem hmem]
    have hclean := notMem_masked hquestion text
    refine iff_of_false hclean fun h => hmem ?_
    exact h.2.subset (by simp)

/-- A body is stripped of all delimiters unless a trace delimiter comes before
a frame delimiter. -/
theorem stripDelims_eq_maskDelims_iff (opts : Options) (text : Bytes) :
    stripDelims opts text = maskDelims opts text ↔ ¬ Overtaken opts text := by
  have hquestion : opts.traceDelim ≠ 63 := by simp [Options.traceDelim]
  rw [← traceDelim_mem_stripDelims_iff]
  constructor
  · intro heq
    rw [heq]
    exact notMem_masked hquestion _
  · intro hclean
    by_cases hmem : opts.frameDelim ∈ text
    · obtain ⟨mid, rest, rfl, hrest⟩ := eq_append_cons_last hmem
      rw [stripDelims_of_last hrest] at hclean ⊢
      have hmid : opts.traceDelim ∉ masked opts.frameDelim mid :=
        fun h => hclean (List.mem_append_left _ h)
      have hmark : masked opts.traceDelim (63 :: rest) =
          63 :: masked opts.traceDelim rest := by
        simp [masked, Ne.symm hquestion]
      rw [maskDelims, masked_append, masked_cons_self,
        masked_of_notMem hrest, masked_append, masked_of_notMem hmid, hmark]
    · rw [stripDelims_of_notMem hmem, maskDelims, masked_of_notMem hmem]

/-! ## The line of a trace -/

theorem notMem_of_bodies_eq_singleton {d : UInt8} {text line : Bytes}
    (h : bodies d (text ++ [d]) = [line]) : d ∉ text := by
  intro hmem
  obtain ⟨pre, post, rfl, hpre⟩ := List.eq_append_cons_of_mem hmem
  rw [List.append_assoc, List.cons_append, bodies, bodiesFrom_append hpre,
    List.cons.injEq] at h
  by_cases hpost : d ∈ post
  · obtain ⟨pre', post', rfl, hpre'⟩ := List.eq_append_cons_of_mem hpost
    rw [List.append_assoc, List.cons_append, bodiesFrom_append hpre'] at h
    exact absurd h.2 (by simp)
  · rw [bodiesFrom_append hpost] at h
    exact absurd h.2 (by simp)

/-- The bodies of the records that a trace keeps, with all delimiters
replaced, and of the marker of a truncated one. -/
def Trace.fields (opts : Options) (tr : Trace) : List Bytes :=
  (keptEntries (tr.allEntries opts)).map (fun e => maskDelims opts e.text) ++
    if tr.truncated opts then [lit "# truncated = 1"] else []

theorem delims_notMem_maskDelims (opts : Options) (text : Bytes) :
    opts.frameDelim ∉ maskDelims opts text ∧
      opts.traceDelim ∉ maskDelims opts text := by
  have htrace : opts.traceDelim ∉ maskDelims opts text :=
    notMem_masked (by simp [Options.traceDelim]) _
  refine ⟨?_, htrace⟩
  by_cases hsame : opts.frameDelim = opts.traceDelim
  · rwa [hsame]
  · have hquestion := frameDelim_ne_question opts
    rw [maskDelims, mem_masked_of_ne (Ne.symm hsame) hquestion]
    exact notMem_masked hquestion text

theorem Trace.delims_notMem_fields {opts : Options} (tr : Trace) {f : Bytes}
    (hf : f ∈ tr.fields opts) :
    opts.frameDelim ∉ f ∧ opts.traceDelim ∉ f := by
  rcases List.mem_append.mp hf with hbody | hmarker
  · obtain ⟨e, -, rfl⟩ := List.mem_map.mp hbody
    exact delims_notMem_maskDelims opts e.text
  · have heq : f = lit "# truncated = 1" := by
      split at hmarker
      · exact List.mem_singleton.mp hmarker
      · simp at hmarker
    rw [heq, Options.frameDelim, Options.traceDelim]
    cases opts.singleLine with
    | true => decide
    | false => decide

/-- The payload of a trace that is written whole. -/
def Trace.wholePayload (opts : Options) (tr : Trace) : Bytes :=
  (kept (tr.records opts)).flatten ++
    (if tr.truncated opts then truncMarkerText opts else []) ++
      [opts.traceDelim]

theorem Trace.wholePayload_eq (opts : Options) (tr : Trace) :
    tr.wholePayload opts =
      (((keptEntries (tr.allEntries opts)).map
            (fun e => stripDelims opts e.text) ++
          if tr.truncated opts then [lit "# truncated = 1"] else []).map
        (· ++ [opts.frameDelim])).flatten ++ [opts.traceDelim] := by
  have hrecords : kept (tr.records opts) =
      ((keptEntries (tr.allEntries opts)).map
        fun e => stripDelims opts e.text).map (· ++ [opts.frameDelim]) := by
    rw [Trace.records, kept_map_record, List.map_map]
    rfl
  rw [Trace.wholePayload, hrecords, List.map_append, List.flatten_append]
  cases tr.truncated opts with
  | false => simp
  | true => simp [truncMarkerText]

/-- In `-1` mode a trace written whole is one line of its fields, unless a
newline stands before a tab in the text of one of its records. -/
theorem Trace.wholePayload_isLine_iff {opts : Options} (tr : Trace)
    (hline : opts.singleLine = true) :
    (bodies 10 (tr.wholePayload opts)).map (bodies 9) = [tr.fields opts] ↔
      ∀ e ∈ keptEntries (tr.allEntries opts), ¬ Overtaken opts e.text := by
  have hframe : opts.frameDelim = 9 := by simp [Options.frameDelim, hline]
  have htrace : opts.traceDelim = 10 := rfl
  rw [tr.wholePayload_eq opts, hframe, htrace]
  constructor
  · intro hfields e he
    obtain ⟨line, hbodies, -⟩ := List.map_eq_singleton_iff.mp hfields
    have hclean := notMem_of_bodies_eq_singleton hbodies
    rw [← traceDelim_mem_stripDelims_iff, htrace]
    intro hmem
    refine hclean (List.mem_flatten.mpr ⟨stripDelims opts e.text ++ [9], ?_,
      List.mem_append_left _ hmem⟩)
    exact List.mem_map_of_mem
      (List.mem_append_left _ (List.mem_map_of_mem he))
  · intro hentries
    have hsame : (keptEntries (tr.allEntries opts)).map
          (fun e => stripDelims opts e.text) =
        (keptEntries (tr.allEntries opts)).map
          (fun e => maskDelims opts e.text) :=
      List.map_congr_left fun e he =>
        (stripDelims_eq_maskDelims_iff opts e.text).mpr (hentries e he)
    rw [hsame, ← Trace.fields]
    have htab : ∀ f ∈ tr.fields opts, 9 ∉ f := by
      intro f hf
      have hclean := (tr.delims_notMem_fields hf).1
      rwa [hframe] at hclean
    have hnewline : 10 ∉ ((tr.fields opts).map (· ++ [9])).flatten := by
      intro hmem
      obtain ⟨record, hrecord, hten⟩ := List.mem_flatten.mp hmem
      obtain ⟨f, hf, rfl⟩ := List.mem_map.mp hrecord
      rcases List.mem_append.mp hten with hbody | hend
      · exact (tr.delims_notMem_fields hf).2 hbody
      · exact absurd hend (by decide)
    have hone := bodiesFrom_append hnewline [] []
    rw [bodies, hone, List.nil_append, List.map_cons, bodies_flatten htab]
    rfl

theorem snprintf_strips {libc : Libc} (hlibc : libc.Reliable)
    (opts : Options) {u : Udata} (hu : u.Valid) (text : Bytes)
    (happend : (snprintf opts libc u true text).truncated = false) :
    (snprintf opts libc u true text).text =
      u.text ++ stripDelims opts text := by
  have htrunc : u.truncated = false := by
    cases h : u.truncated with
    | false => rfl
    | true =>
        rw [snprintf_of_truncated opts libc h, h] at happend
        exact absurd happend (by simp)
  by_cases hroom : u.len + text.length + 1 ≤ maxBuffer
  · exact (snprintf_fits hlibc opts hu htrunc true text hroom).2.2.2
  · obtain ⟨-, -, hover, -⟩ := snprintf_overflows hlibc opts hu htrunc true
      text (by omega)
    rw [hover] at happend
    exact absurd happend (by simp)

/-- Exactly the texts in which no newline precedes a tab are appended with all
delimiters replaced, and exactly the traces with only such texts are written
as one line of fields. -/
theorem snprintf_masks_iff {libc : Libc} (hlibc : libc.Reliable)
    (opts : Options) :
    (∀ (u : Udata) (text : Bytes), u.Valid →
      (snprintf opts libc u true text).truncated = false →
      ((snprintf opts libc u true text).text =
          u.text ++ maskDelims opts text ↔ ¬ Overtaken opts text)) ∧
    (∀ (u : Udata) (n : ℕ) (tr : Trace), u.Prepared opts → n < 2 ^ 64 →
      opts.singleLine = true → tr.skipped opts = false →
      tr.fits opts = true →
      ∃ payload,
        (runEvents opts libc (u, n) tr.handled).1.writes =
          u.writes ++ [payload] ∧
        ((bodies 10 payload).map (bodies 9) = [tr.fields opts] ↔
          ∀ e ∈ keptEntries (tr.allEntries opts),
            ¬ Overtaken opts e.text)) := by
  constructor
  · intro u text hu happend
    rw [snprintf_strips hlibc opts hu text happend, List.append_right_inj]
    exact stripDelims_eq_maskDelims_iff opts text
  · intro u n tr hu hn hline hsome hfits
    refine ⟨tr.wholePayload opts, ?_, tr.wholePayload_isLine_iff hline⟩
    obtain ⟨-, hwrites, -⟩ := runEvents_payloads hlibc hu hn tr
    rw [hwrites, Trace.payloads, hsome, if_neg (by simp), if_pos hfits]
    rfl

/-! ## A value with a newline and a tab -/

def lineOptions : Options :=
  { singleLine := true
    foutBufferSize := 64
    filterRe := none
    filterNegate := false
    verboseFieldsTs := false
    verboseFieldsPid := false }

def lineUdata : Udata :=
  { buf := List.replicate 64 0
    len := 0
    cap := 64
    truncated := false
    truncMarker := truncMarkerText lineOptions
    traceIdTail := List.replicate tailSize 0
    traceIdTailLen := 0
    reallocs := 1
    prints := 0
    writes := [] }

theorem init_lineOptions : init lineOptions workingLibc = some lineUdata := by
  rfl

def glopeekTrace (value : Bytes) : Trace :=
  { events := [.glopeek (lit "g") value]
    traceTs := []
    pid := 1
    isRecord := by simp [Event.isRecord] }

/-- The newline in front of the tab survives, and the trace takes two
lines. -/
theorem newlineBeforeTab_breaks_line :
    init lineOptions workingLibc = some lineUdata ∧
      (snprintf lineOptions workingLibc lineUdata true
        (lit "a\nb\tc")).text = lit "a\nb?c" ∧
      maskDelims lineOptions (lit "a\nb\tc") = lit "a?b?c" ∧
      (runEvents lineOptions workingLibc (lineUdata, 0)
        (glopeekTrace (lit "a\nb\tc")).handled).1.writes =
          [lit "# glopeek g = a\nb?c\t\n"] ∧
      bodies 10 (lit "# glopeek g = a\nb?c\t\n") =
        [lit "# glopeek g = a", lit "b?c\t"] := by
  refine ⟨rfl, ?_, ?_, ?_, ?_⟩
  · decide
  · decide
  · decide
  · decide

/-- With the tab in front, both are replaced and the trace takes one line. -/
theorem tabBeforeNewline_masked :
    (snprintf lineOptions workingLibc lineUdata true
        (lit "a\tb\nc")).text = lit "a?b?c" ∧
      ∃ payload,
        (runEvents lineOptions workingLibc (lineUdata, 0)
          (glopeekTrace (lit "a\tb\nc")).handled).1.writes = [payload] ∧
        (bodies 10 payload).map (bodies 9) =
          [[lit "# glopeek g = a?b?c"]] := by
  have hprepared : lineUdata.Prepared lineOptions :=
    init_prepared (by decide) init_lineOptions
  obtain ⟨hbody, htrace⟩ :=
    snprintf_masks_iff workingLibc_reliable lineOptions
  constructor
  · exact (hbody lineUdata (lit "a\tb\nc") hprepared.valid rfl).mpr
      (by decide)
  · obtain ⟨payload, hwrites, hline⟩ := htrace lineUdata 0
      (glopeekTrace (lit "a\tb\nc")) hprepared (by decide) rfl (by decide)
      (by decide)
    refine ⟨payload, hwrites, hline.mpr ?_⟩
    decide

end Fout
end Phpspy

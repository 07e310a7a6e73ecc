import Phpspy.Fout.Buffer

/-!
# What one formatted write does to the buffer

The specification of `snprintf`, derived from the memory operations it is made
of: with a reliable C library a write either appends its text, whatever
capacity the buffer had before, or marks the trace truncated and rewinds to the
last delimiter.
-/

namespace Phpspy
namespace Fout

open ByteText

/-- A C library that neither runs out of memory nor fails to format. -/
structure Libc.Reliable (libc : Libc) : Prop where
  realloc : ∀ call, libc.reallocOk call = true
  vsnprintf : ∀ call, libc.vsnprintfOk call = true

theorem workingLibc_reliable : workingLibc.Reliable :=
  ⟨fun _ => rfl, fun _ => rfl⟩

/-- The allocation behind a buffer, and room for a terminator. -/
structure Udata.Valid (u : Udata) : Prop where
  size : u.buf.length = u.cap
  cap_le : u.cap ≤ maxBuffer
  len_lt : u.len < u.cap

def Udata.Terminated (u : Udata) : Prop :=
  u.buf[u.len]? = some 0

theorem Udata.Valid.text_length {u : Udata} (hu : u.Valid) :
    u.text.length = u.len := by
  have hsize := hu.size
  have hlen := hu.len_lt
  rw [Udata.text, List.length_take]
  omega

/-! ## Growing -/

theorem le_doubleCap {neededCap fuel newCap : ℕ}
    (hpos : 0 < newCap) (hfuel : neededCap ≤ fuel + newCap) :
    neededCap ≤ doubleCap neededCap fuel newCap := by
  induction fuel generalizing newCap with
  | zero => simpa [doubleCap] using hfuel
  | succ fuel ih =>
      simp only [doubleCap]
      split
      · exact ih (by omega) (by omega)
      · omega

theorem le_grownCap {cap neededCap : ℕ}
    (hpos : 0 < cap) (hneeded : neededCap ≤ maxBuffer) :
    neededCap ≤ grownCap cap neededCap := by
  have hdouble : neededCap ≤ doubleCap neededCap neededCap cap :=
    le_doubleCap hpos (by omega)
  exact le_min hdouble hneeded

theorem resize_length (libc : Libc) (call : ℕ) (buf : Bytes) (newCap : ℕ) :
    (resize libc call buf newCap).length = newCap := by
  simp only [resize, List.length_append, List.length_take, List.length_map,
    List.length_range]
  omega

theorem resize_take {buf : Bytes} {newCap n : ℕ} (libc : Libc) (call : ℕ)
    (hn : n ≤ buf.length) (hnew : n ≤ newCap) :
    (resize libc call buf newCap).take n = buf.take n := by
  rw [resize, List.take_append_of_le_length (by
    rw [List.length_take]
    omega), List.take_take, Nat.min_eq_left hnew]

theorem realloc_truncated (libc : Libc) (u : Udata) (neededCap : ℕ) :
    (realloc libc u neededCap).1.truncated = u.truncated := by
  unfold realloc
  split
  · rfl
  · split
    · rfl
    · rfl

theorem realloc_of_ok {libc : Libc} {u : Udata} (hu : u.Valid)
    {neededCap : ℕ} (hlen : u.len < neededCap)
    (hok : (realloc libc u neededCap).2 = Status.ok) :
    (realloc libc u neededCap).1.Valid ∧
      (realloc libc u neededCap).1.len = u.len ∧
      (realloc libc u neededCap).1.text = u.text ∧
      neededCap ≤ (realloc libc u neededCap).1.cap := by
  have hpos : 0 < u.cap := by
    have := hu.len_lt
    omega
  unfold realloc at hok ⊢
  split at hok
  · exact absurd hok Status.error_ne_ok
  · next hmax =>
      have hcap : neededCap ≤ grownCap u.cap neededCap :=
        le_grownCap hpos (not_lt.mp hmax)
      split at hok
      · next hcall =>
          rw [if_neg hmax, if_pos hcall]
          have hbuf : u.len ≤ u.buf.length := by
            rw [hu.size]
            exact le_of_lt hu.len_lt
          refine ⟨⟨?_, ?_, ?_⟩, rfl, ?_, hcap⟩
          · exact resize_length libc u.reallocs u.buf _
          · exact min_le_right _ _
          · exact lt_of_lt_of_le hlen hcap
          · exact resize_take libc u.reallocs hbuf (by
              dsimp only
              omega)
      · exact absurd hok Status.error_ne_ok

theorem realloc_of_error {libc : Libc} {u : Udata} (hu : u.Valid)
    {neededCap : ℕ} (herror : (realloc libc u neededCap).2 ≠ Status.ok) :
    (realloc libc u neededCap).1.Valid ∧
      (realloc libc u neededCap).1.text = u.text := by
  unfold realloc at herror ⊢
  split at herror
  · next hmax =>
      rw [if_pos hmax]
      exact ⟨hu, rfl⟩
  · next hmax =>
      split at herror
      · exact absurd rfl herror
      · next hcall =>
          rw [if_neg hmax, if_neg hcall]
          exact ⟨⟨hu.size, hu.cap_le, hu.len_lt⟩, rfl⟩

theorem realloc_ok_iff {libc : Libc} (hlibc : libc.Reliable) (u : Udata)
    (neededCap : ℕ) :
    (realloc libc u neededCap).2 = Status.ok ↔ neededCap ≤ maxBuffer := by
  unfold realloc
  split
  · next hmax => exact iff_of_false Status.error_ne_ok (by omega)
  · next hmax =>
      rw [if_pos (hlibc.realloc _)]
      exact iff_of_true rfl (by omega)

/-! ## Formatting -/

theorem vsnprintf_valid (libc : Libc) {u : Udata} (hu : u.Valid)
    (text : Bytes) :
    (vsnprintf libc u text).1.Valid ∧
      (vsnprintf libc u text).1.text = u.text := by
  have hlen := hu.len_lt
  have hsize := hu.size
  have hne : ¬ u.cap - u.len = 0 := by omega
  have hroom : u.len + (text.take (u.cap - u.len - 1) ++ [0]).length ≤
      u.buf.length := by
    rw [List.length_append, List.length_take, List.length_singleton]
    omega
  constructor
  · refine ⟨?_, hu.cap_le, hu.len_lt⟩
    simp only [vsnprintf, if_neg hne]
    rw [writeAt_length hroom, hsize]
  · simp only [vsnprintf, if_neg hne, Udata.text]
    exact writeAt_take (by omega) (le_refl _)

/-- When the text fits, it stands behind the old text, with a NUL after
it. -/
theorem vsnprintf_fits (libc : Libc) {u : Udata} (hu : u.Valid)
    {text : Bytes} (hfit : u.len + text.length < u.cap) :
    ((vsnprintf libc u text).1.buf.drop u.len).take text.length = text ∧
      (vsnprintf libc u text).1.buf[u.len + text.length]? = some 0 := by
  have hsize := hu.size
  have hne : ¬ u.cap - u.len = 0 := by omega
  have htake : text.take (u.cap - u.len - 1) = text :=
    List.take_of_length_le (by omega)
  simp only [vsnprintf, if_neg hne, htake]
  constructor
  · rw [writeAt_drop_take (by omega) (by simp)]
    simp
  · rw [writeAt_getElem? (by omega) (by simp)]
    simp

theorem vsnprintf_result {libc : Libc} (hlibc : libc.Reliable) (u : Udata)
    (text : Bytes) :
    (vsnprintf libc u text).2 =
      if text.length ≤ intMax then (text.length : ℤ) else -1 := by
  simp [vsnprintf, hlibc.vsnprintf]

/-! ## Stripping delimiters -/

theorem stripPass_length (delim : UInt8) (fuel : ℕ) (st : Bytes × ℕ) :
    (stripPass delim fuel st).1.length = st.1.length := by
  induction fuel generalizing st with
  | zero => rfl
  | succ fuel ih =>
      simp only [stripPass]
      split
      · rfl
      · rw [ih]
        simp

@[simp] theorem stripDelims_length (opts : Options) (text : Bytes) :
    (stripDelims opts text).length = text.length := by
  simp [stripDelims, stripPass_length]

theorem mem_stripPass {delim b : UInt8} {fuel : ℕ} {st : Bytes × ℕ}
    (hb : b ∈ (stripPass delim fuel st).1) : b ∈ st.1 ∨ b = 63 := by
  induction fuel generalizing st with
  | zero => exact Or.inl hb
  | succ fuel ih =>
      simp only [stripPass] at hb
      split at hb
      · exact Or.inl hb
      · rcases ih hb with hmem | heq
        · exact List.mem_or_eq_of_mem_set hmem
        · exact Or.inr heq

/-- A text with every `delim` replaced by a question mark. -/
def masked (delim : UInt8) (text : Bytes) : Bytes :=
  text.map fun b => if b = delim then 63 else b

theorem masked_of_notMem {delim : UInt8} {text : Bytes}
    (h : delim ∉ text) : masked delim text = text := by
  rw [masked, List.map_congr_left (g := id), List.map_id]
  intro b hb
  have hne : b ≠ delim := by
    rintro rfl
    exact h hb
  simp [hne]

theorem notMem_masked {delim : UInt8} (hdelim : delim ≠ 63) (text : Bytes) :
    delim ∉ masked delim text := by
  intro hmem
  obtain ⟨b, -, hb⟩ := List.mem_map.mp hmem
  split at hb
  · exact hdelim hb.symm
  · next hne => exact hne hb

theorem masked_append (delim : UInt8) (xs ys : Bytes) :
    masked delim (xs ++ ys) = masked delim xs ++ masked delim ys := by
  simp [masked]

theorem masked_cons_self (delim : UInt8) (xs : Bytes) :
    masked delim (delim :: xs) = 63 :: masked delim xs := by
  simp [masked]

theorem stripPass_of_notMem {delim : UInt8} {back : Bytes}
    (hback : delim ∉ back) (fuel : ℕ) (front : Bytes) :
    stripPass delim fuel (front ++ back, front.length) =
      (front ++ back, front.length) := by
  cases fuel with
  | zero => rfl
  | succ fuel =>
      simp only [stripPass, List.drop_left, memchr_eq_none_iff.mpr hback]

/-- One round of a pass: the next delimiter is replaced, and everything up to
it lies behind the cursor. -/
theorem stripPass_step {delim : UInt8} {pre : Bytes} (hpre : delim ∉ pre)
    (fuel : ℕ) (front post : Bytes) :
    stripPass delim (fuel + 1)
        (front ++ (pre ++ delim :: post), front.length) =
      stripPass delim fuel
        (front ++ pre ++ [63] ++ post, (front ++ pre ++ [63]).length) := by
  have hset : (front ++ (pre ++ delim :: post)).set
      (front.length + pre.length) 63 = front ++ pre ++ [63] ++ post := by
    rw [← List.append_assoc, ← List.length_append,
      List.set_append_right _ _ (le_refl _)]
    simp
  have hcur : front.length + pre.length + 1 =
      (front ++ pre ++ [63]).length := by
    simp [Nat.add_assoc]
  simp only [stripPass, List.drop_left, memchr_append_of_notMem hpre]
  rw [hset, hcur]

/-- With enough fuel a pass ends behind the last delimiter of its text. -/
theorem stripPass_of_last {delim : UInt8} {rest : Bytes}
    (hrest : delim ∉ rest) {fuel : ℕ} {mid : Bytes}
    (hfuel : mid.length < fuel) (front : Bytes) :
    stripPass delim fuel (front ++ (mid ++ delim :: rest), front.length) =
      (front ++ masked delim mid ++ [63] ++ rest,
        (front ++ masked delim mid ++ [63]).length) := by
  induction fuel generalizing front mid with
  | zero => omega
  | succ fuel ih =>
      by_cases hmid : delim ∈ mid
      · obtain ⟨pre, post, rfl, hpre⟩ := List.eq_append_cons_of_mem hmid
        have hassoc : (pre ++ delim :: post) ++ delim :: rest =
            pre ++ delim :: (post ++ delim :: rest) := by
          simp
        rw [List.length_append, List.length_cons] at hfuel
        rw [hassoc, stripPass_step hpre, ih (by omega), masked_append,
          masked_of_notMem hpre, masked_cons_self]
        simp
      · rw [stripPass_step hmid, stripPass_of_notMem hrest,
          masked_of_notMem hmid]

theorem stripPass_eq {delim : UInt8} {fuel : ℕ} {front back : Bytes}
    (hfuel : back.length ≤ fuel) :
    (stripPass delim fuel (front ++ back, front.length)).1 =
      front ++ masked delim back := by
  by_cases hmem : delim ∈ back
  · obtain ⟨mid, rest, rfl, hrest⟩ := eq_append_cons_last hmem
    rw [List.length_append, List.length_cons] at hfuel
    rw [stripPass_of_last hrest (by omega), masked_append, masked_cons_self,
      masked_of_notMem hrest]
    simp
  · rw [stripPass_of_notMem hmem, masked_of_notMem hmem]

theorem stripPass_zero {delim : UInt8} (text : Bytes) :
    (stripPass delim text.length (text, 0)).1 = masked delim text :=
  @stripPass_eq delim text.length [] text (le_refl _)

theorem frameDelim_ne_question (opts : Options) : opts.frameDelim ≠ 63 := by
  unfold Options.frameDelim
  split
  · decide
  · decide

theorem frameDelim_notMem_stripDelims (opts : Options) (text : Bytes) :
    opts.frameDelim ∉ stripDelims opts text := by
  have hquestion := frameDelim_ne_question opts
  intro hmem
  rcases mem_stripPass hmem with hfirst | heq
  · rw [stripPass_zero] at hfirst
    exact notMem_masked hquestion text hfirst
  · exact hquestion heq

/-- With newlines as both delimiters a body is stripped byte by byte: the
second pass finds nothing left to replace. -/
theorem stripDelims_of_not_singleLine {opts : Options}
    (hopts : opts.singleLine = false) (text : Bytes) :
    stripDelims opts text = masked 10 text := by
  have hframe : opts.frameDelim = 10 := by
    simp [Options.frameDelim, hopts]
  have hfirst : (stripPass 10 text.length (text, 0)).1 = masked 10 text :=
    stripPass_zero text
  have hclean : (10 : UInt8) ∉ (stripPass 10 text.length (text, 0)).1 := by
    rw [hfirst]
    exact notMem_masked (by decide) text
  rw [stripDelims, hframe, Options.traceDelim]
  generalize stripPass 10 text.length (text, 0) = st at hfirst hclean
  have hnone : memchr 10 (st.1.drop st.2) = none := by
    rw [memchr_eq_none_iff]
    exact fun hmem => hclean (List.mem_of_mem_drop hmem)
  cases text.length with
  | zero => exact hfirst
  | succ n =>
      simp only [stripPass, hnone]
      exact hfirst

/-! ## The two ways a write ends -/

theorem truncate_spec (opts : Options) {u : Udata} (hu : u.Valid) :
    (truncate opts u).Valid ∧ (truncate opts u).Terminated ∧
      (truncate opts u).truncated = true ∧
      (truncate opts u).text = rewind opts.frameDelim u.text := by
  have hlt := hu.len_lt
  have hsize := hu.size
  have hle : (truncate opts u).len ≤ u.len := by
    cases hfind : memrchr opts.frameDelim u.text with
    | none => simp [truncate, hfind]
    | some i =>
        have hi := memrchr_lt hfind
        rw [hu.text_length] at hi
        simpa [truncate, hfind] using hi
  have hset : (truncate opts u).buf = u.buf.set (truncate opts u).len 0 := rfl
  refine ⟨⟨?_, hu.cap_le, ?_⟩, ?_, rfl, ?_⟩
  · rw [hset, List.length_set]
    exact hsize
  · exact lt_of_le_of_lt hle hlt
  · rw [Udata.Terminated, hset, List.getElem?_set_self (by omega)]
  · have htake : (truncate opts u).text =
        u.text.take (truncate opts u).len := by
      rw [Udata.text, hset, List.take_set_of_le (le_refl _), Udata.text,
        List.take_take, Nat.min_eq_left hle]
    rw [htake]
    cases hfind : memrchr opts.frameDelim u.text with
    | none => simp [truncate, rewind, hfind]
    | some i => simp [truncate, rewind, hfind]

theorem commit_spec (opts : Options) {p : Udata} (hp : p.Valid)
    (strip : Bool) {text : Bytes}
    (hfit : p.len + text.length < p.cap)
    (hslice : (p.buf.drop p.len).take text.length = text)
    (hnul : p.buf[p.len + text.length]? = some 0) :
    let body := if strip then stripDelims opts text else text
    (commit opts p strip text.length).Valid ∧
      (commit opts p strip text.length).Terminated ∧
      (commit opts p strip text.length).truncated = p.truncated ∧
      (commit opts p strip text.length).text = p.text ++ body := by
  have hsize := hp.size
  have hcap := hp.cap_le
  have hmax : maxBuffer < 2 ^ 64 := by decide
  have hlen : (commit opts p strip text.length).len =
      p.len + text.length := by
    have hcast : sizeOfInt (text.length : ℤ) = text.length := by
      unfold sizeOfInt
      omega
    simp only [commit, hcast]
    exact Nat.mod_eq_of_lt (by omega)
  have hbuf : (commit opts p strip text.length).buf =
      if strip then writeAt p.buf p.len (stripDelims opts text)
      else p.buf := by
    simp only [commit, Int.toNat_natCast, hslice]
  have hstrip : p.len + (stripDelims opts text).length ≤ p.buf.length := by
    rw [stripDelims_length]
    omega
  dsimp only
  refine ⟨⟨?_, hcap, ?_⟩, ?_, rfl, ?_⟩
  · rw [hbuf]
    split
    · rw [writeAt_length hstrip]
      exact hsize
    · exact hsize
  · rw [hlen]
    exact hfit
  · rw [Udata.Terminated, hlen, hbuf]
    split
    · rw [writeAt_getElem?_right (by omega) (by simp)]
      exact hnul
    · exact hnul
  · rw [Udata.text, hlen, hbuf]
    split
    · rw [← stripDelims_length opts text,
        writeAt_take_add (by omega) (le_refl _), List.take_length,
        Udata.text]
    · rw [List.take_add, hslice, Udata.text]

/-- A write finds room: formatting works, and the text fits or the buffer
grows. -/
def hasRoom (libc : Libc) (u : Udata) (text : Bytes) : Bool :=
  let (printed, appendLen) := vsnprintf libc u text
  decide (0 ≤ appendLen) &&
    (decide (appendLen.toNat < u.cap - u.len) ||
      (realloc libc printed (u.len + appendLen.toNat + 1)).2 = Status.ok)

/-- The buffer grows, but then formatting fails after all. -/
def retryFails (libc : Libc) (u : Udata) (text : Bytes) : Bool :=
  let (printed, appendLen) := vsnprintf libc u text
  let (grown, status) := realloc libc printed (u.len + appendLen.toNat + 1)
  decide (0 ≤ appendLen) && decide (appendLen.toNat ≥ u.cap - u.len) &&
    decide (status = Status.ok) && decide ((vsnprintf libc grown text).2 < 0)

theorem vsnprintf_result_cases (libc : Libc) (u : Udata) (text : Bytes) :
    (vsnprintf libc u text).2 = (text.length : ℤ) ∨
      (vsnprintf libc u text).2 = -1 := by
  simp only [vsnprintf]
  split
  · exact .inl rfl
  · exact .inr rfl

section Snprintf

variable {libc : Libc} (opts : Options) {u : Udata} (hu : u.Valid)
  (htrunc : u.truncated = false) (strip : Bool) {text : Bytes}

include hu htrunc

theorem snprintf_of_not_hasRoom (hroom : hasRoom libc u text = false) :
    (snprintf opts libc u strip text).Valid ∧
      (snprintf opts libc u strip text).Terminated ∧
      (snprintf opts libc u strip text).truncated = true ∧
      (snprintf opts libc u strip text).text =
        rewind opts.frameDelim u.text := by
  obtain ⟨hprinted, hprintedText⟩ := vsnprintf_valid libc hu text
  simp only [hasRoom, Bool.and_eq_false_iff, Bool.or_eq_false_iff,
    decide_eq_false_iff_not, not_le] at hroom
  simp only [snprintf, htrunc, Bool.false_eq_true, if_false]
  by_cases hneg : (vsnprintf libc u text).2 < 0
  · rw [if_pos hneg, ← hprintedText]
    exact truncate_spec opts hprinted
  · obtain ⟨hfull, herror⟩ := hroom.resolve_left hneg
    obtain ⟨hgrown, hgrownText⟩ := realloc_of_error hprinted herror
    rw [if_neg hneg, if_pos (not_lt.mp hfull), if_pos herror,
      ← hprintedText, ← hgrownText]
    exact truncate_spec opts hgrown

/-- A write that finds room appends its text, unless it has to format the text
again and fails. -/
theorem snprintf_of_hasRoom (hroom : hasRoom libc u text = true)
    (hretry : retryFails libc u text = false) :
    let body := if strip then stripDelims opts text else text
    (snprintf opts libc u strip text).Valid ∧
      (snprintf opts libc u strip text).Terminated ∧
      (snprintf opts libc u strip text).truncated = false ∧
      (snprintf opts libc u strip text).text = u.text ++ body := by
  obtain ⟨hprinted, hprintedText⟩ := vsnprintf_valid libc hu text
  simp only [hasRoom, Bool.and_eq_true, decide_eq_true_iff,
    Bool.or_eq_true] at hroom
  obtain ⟨hnonneg, hgrows⟩ := hroom
  have hresult : (vsnprintf libc u text).2 = (text.length : ℤ) :=
    (vsnprintf_result_cases libc u text).resolve_right (by omega)
  rw [hresult, Int.toNat_natCast] at hgrows
  simp only [snprintf, htrunc, hresult, not_lt.mpr (Int.natCast_nonneg _),
    if_false, Int.toNat_natCast, Bool.false_eq_true]
  by_cases hfull : text.length ≥ u.cap - u.len
  · have hok := hgrows.resolve_left (not_lt.mpr hfull)
    obtain ⟨hgrown, hgrownLen, hgrownText, hgrownCap⟩ :=
      realloc_of_ok hprinted (by change u.len < _; omega) hok
    rw [if_pos hfull, hok, if_neg (by simp)]
    simp only [retryFails, hresult, Int.toNat_natCast, hok, decide_true,
      Bool.and_true, Bool.and_eq_false_iff, decide_eq_false_iff_not,
      not_lt] at hretry
    set grown :=
      (realloc libc (vsnprintf libc u text).1 (u.len + text.length + 1)).1
    have hagain : (vsnprintf libc grown text).2 = (text.length : ℤ) := by
      refine (vsnprintf_result_cases libc grown text).resolve_right ?_
      omega
    have hlen : grown.len = u.len := hgrownLen
    have hfit : grown.len + text.length < grown.cap := by omega
    obtain ⟨hreprinted, hreprintedText⟩ := vsnprintf_valid libc hgrown text
    obtain ⟨hslice, hnul⟩ := vsnprintf_fits libc hgrown hfit
    have hspec := commit_spec opts hreprinted strip hfit hslice hnul
    rw [hreprintedText, hgrownText, hprintedText] at hspec
    have hkeep : (vsnprintf libc grown text).1.truncated = false := by
      change grown.truncated = false
      rw [realloc_truncated]
      exact htrunc
    rw [hagain]
    rwa [hkeep] at hspec
  · rw [if_neg hfull]
    have hlt := hu.len_lt
    have hfit : u.len + text.length < u.cap := by omega
    obtain ⟨hslice, hnul⟩ := vsnprintf_fits libc hu hfit
    have hspec := commit_spec opts hprinted strip hfit hslice hnul
    rw [hprintedText] at hspec
    have hkeep : (vsnprintf libc u text).1.truncated = false := htrunc
    rwa [hkeep] at hspec

end Snprintf

theorem hasRoom_iff {libc : Libc} (hlibc : libc.Reliable) {u : Udata}
    (hu : u.Valid) (text : Bytes) :
    hasRoom libc u text = true ↔ u.len + text.length + 1 ≤ maxBuffer := by
  have hcap := hu.cap_le
  have hmax : maxBuffer ≤ intMax := by decide
  simp only [hasRoom, vsnprintf_result hlibc, Bool.and_eq_true,
    Bool.or_eq_true, decide_eq_true_iff, realloc_ok_iff hlibc]
  split
  · rw [Int.toNat_natCast]
    omega
  · omega

theorem retryFails_of_reliable {libc : Libc} (hlibc : libc.Reliable)
    (u : Udata) (text : Bytes) : retryFails libc u text = false := by
  simp only [retryFails, vsnprintf_result hlibc]
  split
  · simp
  · rfl

theorem snprintf_fits
    {libc : Libc} (hlibc : libc.Reliable) (opts : Options)
    {u : Udata} (hu : u.Valid) (htrunc : u.truncated = false)
    (strip : Bool) (text : Bytes)
    (hroom : u.len + text.length + 1 ≤ maxBuffer) :
    let body := if strip then stripDelims opts text else text
    (snprintf opts libc u strip text).Valid ∧
      (snprintf opts libc u strip text).Terminated ∧
      (snprintf opts libc u strip text).truncated = false ∧
      (snprintf opts libc u strip text).text = u.text ++ body :=
  snprintf_of_hasRoom opts hu htrunc strip ((hasRoom_iff hlibc hu text).mpr hroom)
    (retryFails_of_reliable hlibc u text)

theorem snprintf_overflows
    {libc : Libc} (hlibc : libc.Reliable) (opts : Options)
    {u : Udata} (hu : u.Valid) (htrunc : u.truncated = false)
    (strip : Bool) (text : Bytes)
    (hroom : maxBuffer < u.len + text.length + 1) :
    (snprintf opts libc u strip text).Valid ∧
      (snprintf opts libc u strip text).Terminated ∧
      (snprintf opts libc u strip text).truncated = true ∧
      (snprintf opts libc u strip text).text =
        rewind opts.frameDelim u.text := by
  refine snprintf_of_not_hasRoom opts hu htrunc strip ?_
  rw [Bool.eq_false_iff, Ne, hasRoom_iff hlibc hu]
  exact not_le.mpr hroom

theorem snprintf_of_truncated (opts : Options) (libc : Libc) {u : Udata}
    (htrunc : u.truncated = true) (strip : Bool) (text : Bytes) :
    snprintf opts libc u strip text = u := by
  simp [snprintf, htrunc]

end Fout
end Phpspy

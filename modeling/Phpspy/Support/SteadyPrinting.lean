import Phpspy.Support.PrintedText

/-!
# Printers that do not show what a buffer held

A printer gets a buffer that has been used before.  If it leaves a gap between
the bytes that it stores, old bytes become part of its text, and the end of the
text may depend on them.  A printer is steady if two runs of it return alike
and print the same, whatever the two buffers held.
-/

namespace BufferPrinting

open ByteText

variable {ε : Type*} {underflow : ε} {sep : UInt8}

/-! ## Outcomes -/

/-- The text that a printer prints, or its error. -/
def outcome (p : Printer ε) (buf : Buffer) (off : ℤ) (size : ℕ) :
    Option (Except ε Bytes) :=
  (p buf off size).map fun r => r.2.map (slice r.1 off)

/-- What a printer returns and prints does not depend on the buffer. -/
def Steady (p : Printer ε) : Prop :=
  ∀ buf buf' off size, 1 ≤ size →
    outcome p buf off size = outcome p buf' off size

theorem outcome_of_ok {p : Printer ε} {buf out : Buffer} {off : ℤ}
    {size len : ℕ} (h : p buf off size = some (out, .ok len)) :
    outcome p buf off size = some (.ok (slice out off len)) := by
  rw [outcome, h]
  rfl

theorem outcome_of_error {p : Printer ε} {buf out : Buffer} {off : ℤ}
    {size : ℕ} {e : ε} (h : p buf off size = some (out, .error e)) :
    outcome p buf off size = some (.error e) := by
  rw [outcome, h]
  rfl

theorem outcome_of_none {p : Printer ε} {buf : Buffer} {off : ℤ} {size : ℕ}
    (h : p buf off size = none) : outcome p buf off size = none := by
  rw [outcome, h]
  rfl

theorem length_slice (buf : Buffer) (off : ℤ) (n : ℕ) :
    (slice buf off n).length = n := by
  rw [slice, List.length_map, List.length_range]

theorem outcome_eq_ok_iff {p : Printer ε} {buf : Buffer} {off : ℤ}
    {size : ℕ} {text : Bytes} :
    outcome p buf off size = some (.ok text) ↔
      ∃ out, p buf off size = some (out, .ok text.length) ∧
        slice out off text.length = text := by
  constructor
  · intro h
    cases hrun : p buf off size with
    | none => simp [outcome_of_none hrun] at h
    | some r =>
        obtain ⟨out, r⟩ := r
        cases r with
        | error e => simp [outcome_of_error hrun] at h
        | ok len =>
            rw [outcome_of_ok hrun, Option.some.injEq, Except.ok.injEq] at h
            have hlen : text.length = len := by rw [← h, length_slice]
            rw [hlen]
            exact ⟨out, rfl, h⟩
  · rintro ⟨out, hrun, hslice⟩
    rw [outcome_of_ok hrun, hslice]

theorem Steady.of_printsText {p : Printer ε} {t : ℕ → Bytes}
    (h : PrintsText p t) : Steady p := by
  intro buf buf' off size hsize
  obtain ⟨out, hrun, hslice, -⟩ := h size hsize buf off
  obtain ⟨out', hrun', hslice', -⟩ := h size hsize buf' off
  rw [outcome_eq_ok_iff.mpr ⟨out, hrun, hslice⟩,
    outcome_eq_ok_iff.mpr ⟨out', hrun', hslice'⟩]

theorem Steady.error (e : ε) :
    Steady (fun buf _ _ => some (buf, .error e) : Printer ε) :=
  fun _ _ _ _ _ => rfl

/-! ## Labels -/

theorem outcome_shifted {p : Printer ε} (hp : Bounded underflow p)
    {n size : ℕ} (hn : n < size) (buf : Buffer) (off : ℤ) :
    outcome (shifted n p) buf off size =
      (outcome p buf (off + n) (size - n)).map
        (Except.map (slice buf off n ++ ·)) := by
  cases hrun : p buf (off + n) (size - n) with
  | none =>
      have hshift : shifted n p buf off size = none := by
        rw [shifted, hrun]
        rfl
      rw [outcome_of_none hrun, outcome_of_none hshift]
      rfl
  | some r =>
      obtain ⟨out, r⟩ := r
      obtain ⟨hwithin, -⟩ := hp _ _ _ (by omega) _ _ hrun
      cases r with
      | error e =>
          have hshift : shifted n p buf off size = some (out, .error e) := by
            rw [shifted, hrun]
            rfl
          rw [outcome_of_error hrun, outcome_of_error hshift]
          rfl
      | ok len =>
          have hshift : shifted n p buf off size =
              some (out, .ok (n + len)) := by
            rw [shifted, hrun]
            rfl
          have hfront : slice out off n = slice buf off n :=
            slice_congr fun i _ hi => hwithin i (.inl hi)
          rw [outcome_of_ok hrun, outcome_of_ok hshift, slice_add, hfront]
          rfl

theorem slice_snprintf_of_lt {label : Bytes} {size : ℕ}
    (h : label.length < size) (buf : Buffer) (off : ℤ) :
    slice (snprintf buf off size label) off label.length = label := by
  have htake : label.take (size - 1) = label :=
    List.take_of_length_le (by omega)
  have hslice : slice (snprintf buf off size label) off
      (label.take (size - 1)).length = label.take (size - 1) :=
    slice_snprintf (by omega)
  rwa [htake] at hslice

theorem Steady.outcome_shifted {p : Printer ε} (h : Steady p)
    (hp : Bounded underflow p) {label : Bytes} {size : ℕ}
    (hroom : label.length < size) (buf buf' : Buffer) (off : ℤ) :
    outcome (shifted label.length p) (snprintf buf off size label) off size =
      outcome (shifted label.length p) (snprintf buf' off size label) off
        size := by
  rw [BufferPrinting.outcome_shifted hp hroom,
    BufferPrinting.outcome_shifted hp hroom, slice_snprintf_of_lt hroom,
    slice_snprintf_of_lt hroom, h _ (snprintf buf' off size label) _ _ (by omega)]

theorem Steady.labelled {p : Printer ε} (h : Steady p)
    (hp : Bounded underflow p) (label : Bytes) : Steady (labelled label p) := by
  intro buf buf' off size _
  by_cases hroom : size ≤ label.length
  · have hnothing : ∀ b : Buffer,
        BufferPrinting.labelled label p b off size =
          some (snprintf b off size label, .ok 0) := fun b => if_pos hroom
    rw [outcome_of_ok (hnothing buf), outcome_of_ok (hnothing buf')]
    rfl
  · have hrest : ∀ b : Buffer, outcome (BufferPrinting.labelled label p) b off
        size = outcome (shifted label.length p) (snprintf b off size label) off
          size := by
      intro b
      rw [outcome, outcome, BufferPrinting.labelled, if_neg hroom]
    rw [hrest, hrest]
    exact h.outcome_shifted hp (Nat.lt_of_not_le hroom) buf buf' off

/-! ## Lists -/

/-- The text up to the offset where a loop ends, or its error. -/
def loopOutcome (sep : UInt8) (underflow : ε) (ps : List (Printer ε))
    (buf : Buffer) (pos : ℤ) (size : ℕ) : Option (Except ε Bytes) :=
  (printLoop sep underflow ps buf pos size).map fun r =>
    r.2.map fun stop => slice r.1 pos (stop - pos).toNat

/-- What the loop makes of the text of its first printer. -/
def loopStep (sep : UInt8) (underflow : ε) (first : Option (Except ε Bytes))
    (size : ℕ) (rest : ℤ → ℕ → Option (Except ε Bytes)) :
    Option (Except ε Bytes) :=
  match first with
  | none => none
  | some (.error e) => some (.error e)
  | some (.ok text) =>
      if text = [] then rest 0 size
      else if size ≤ text.length then some (.error underflow)
      else if size - text.length < 2 then some (.ok text)
      else
        (rest (text.length + 1) (size - text.length - 1)).map
          (Except.map (text ++ sep :: ·))

theorem loopOutcome_behind {ps : List (Printer ε)}
    (hps : ∀ p ∈ ps, Bounded underflow p) {buf : Buffer} {pos : ℤ}
    {len size : ℕ} (hsize : 1 ≤ size) :
    (printLoop sep underflow ps (put buf (pos + len) [sep]) (pos + len + 1)
        size).map
      (fun r => r.2.map fun stop => slice r.1 pos (stop - pos).toNat) =
    (loopOutcome sep underflow ps (put buf (pos + len) [sep]) (pos + len + 1)
        size).map (Except.map (slice buf pos len ++ sep :: ·)) := by
  rw [loopOutcome]
  cases hrun : printLoop sep underflow ps (put buf (pos + len) [sep])
      (pos + len + 1) size with
  | none => rfl
  | some r =>
      obtain ⟨out, r⟩ := r
      cases r with
      | error e => rfl
      | ok stop =>
          obtain ⟨hwithin, -, hstop⟩ := printLoop_bounded hps hsize hrun
          obtain ⟨hlow, -⟩ := hstop stop rfl
          have hfirst : slice out pos len = slice buf pos len := by
            refine slice_congr fun i _ hi => ?_
            rw [hwithin i (.inl (by omega)), put_of_lt hi]
          have hsep : out (pos + len) = sep := by
            rw [hwithin _ (.inl (by omega)), put_singleton]
          have hlen : (stop - pos).toNat =
              len + (1 + (stop - (pos + len + 1)).toNat) := by omega
          simp only [Option.map_some, Except.map, hlen, slice_add, hfirst,
            slice_one, hsep, Nat.cast_one, List.singleton_append]

theorem loopOutcome_cons (p : Printer ε) {ps : List (Printer ε)}
    (hps : ∀ q ∈ ps, Bounded underflow q) (buf : Buffer) (pos : ℤ)
    (size : ℕ) :
    ∃ out, loopOutcome sep underflow (p :: ps) buf pos size =
      loopStep sep underflow (outcome p buf pos size) size
        fun shift => loopOutcome sep underflow ps out (pos + shift) := by
  cases hrun : p buf pos size with
  | none =>
      refine ⟨buf, ?_⟩
      rw [outcome_of_none hrun, loopOutcome, printLoop, hrun]
      rfl
  | some r =>
      obtain ⟨buf₁, r⟩ := r
      cases r with
      | error e =>
          refine ⟨buf, ?_⟩
          rw [outcome_of_error hrun, loopOutcome, printLoop, hrun]
          rfl
      | ok len =>
          have hlen := length_slice buf₁ pos len
          have hnil : slice buf₁ pos len = [] ↔ len = 0 := by
            rw [← List.length_eq_zero_iff, hlen]
          rw [outcome_of_ok hrun]
          by_cases hzero : len = 0
          · refine ⟨buf₁, ?_⟩
            subst hzero
            rw [loopOutcome, printLoop_cons_zero hrun, loopStep]
            simp only [hnil.mpr, if_true, add_zero]
            rfl
          · by_cases hfull : size ≤ len
            · refine ⟨buf, ?_⟩
              rw [loopOutcome, printLoop, hrun, loopStep]
              simp only [hnil, hzero, hlen, hfull, if_false, if_true]
              rfl
            · by_cases hbreak : size - len < 2
              · refine ⟨buf, ?_⟩
                rw [loopOutcome, printLoop_cons_last hrun hzero
                  (Nat.lt_of_not_le hfull) hbreak, loopStep]
                simp only [hnil, hzero, hlen, hfull, hbreak, if_false,
                  if_true, Option.map_some, Except.map, add_sub_cancel_left,
                  Int.toNat_natCast]
              · refine ⟨put buf₁ (pos + len) [sep], ?_⟩
                rw [loopOutcome, printLoop_cons_more hrun hzero hbreak,
                  loopOutcome_behind hps (by omega), loopStep]
                simp only [hnil, hzero, hlen, hfull, hbreak, if_false,
                  add_assoc]

/-- The loop is steady if the printers are. -/
theorem loopOutcome_steady {ps : List (Printer ε)}
    (hps : ∀ p ∈ ps, Bounded underflow p) (h : ∀ p ∈ ps, Steady p)
    (buf buf' : Buffer) (pos : ℤ) {size : ℕ} (hsize : 1 ≤ size) :
    loopOutcome sep underflow ps buf pos size =
      loopOutcome sep underflow ps buf' pos size := by
  induction ps generalizing buf buf' pos size with
  | nil => simp [loopOutcome, printLoop, Except.map, slice]
  | cons p ps ih =>
      have hrest : ∀ q ∈ ps, Bounded underflow q :=
        fun q hq => hps q (List.mem_cons_of_mem p hq)
      have hsteady : ∀ q ∈ ps, Steady q :=
        fun q hq => h q (List.mem_cons_of_mem p hq)
      have hcons : ∀ b : Buffer, ∃ out,
          loopOutcome sep underflow (p :: ps) b pos size =
            loopStep sep underflow (outcome p b pos size) size
              fun shift => loopOutcome sep underflow ps out (pos + shift) :=
        fun b => loopOutcome_cons p hrest b pos size
      obtain ⟨out, hout⟩ := hcons buf
      obtain ⟨out', hout'⟩ := hcons buf'
      rw [hout, hout', h p List.mem_cons_self buf buf' pos size hsize]
      -- the rest gets a size of at least one wherever the step looks at it
      unfold loopStep
      split
      · rfl
      · rfl
      · split_ifs with hnil hfull hbreak
        · exact ih hrest hsteady _ _ _ hsize
        · rfl
        · rfl
        · exact congrArg _ (ih hrest hsteady _ _ _ (by omega))

theorem outcome_printList {ps : List (Printer ε)}
    (hps : ∀ p ∈ ps, Bounded underflow p) (buf : Buffer) (off : ℤ)
    {size : ℕ} (hsize : 1 ≤ size) :
    outcome (printList sep underflow ps) buf off size =
      (loopOutcome sep underflow ps buf off size).map
        (Except.map (stripSep sep)) := by
  cases hrun : printLoop sep underflow ps buf off size with
  | none => simp [outcome, printList, loopOutcome, hrun]
  | some r =>
      obtain ⟨out, r⟩ := r
      cases r with
      | error e => simp [outcome, printList, loopOutcome, hrun, Except.map]
      | ok stop =>
          obtain ⟨-, -, hstop⟩ := printLoop_bounded hps hsize hrun
          obtain ⟨hlow, -⟩ := hstop stop rfl
          have hend : off + ((slice out off (stop - off).toNat).length : ℤ) =
              stop := by
            rw [length_slice]
            omega
          have hself : slice out off
              (slice out off (stop - off).toNat).length =
                slice out off (stop - off).toNat := by rw [length_slice]
          have hstrip : stripEnd sep out off stop =
              (stripSep sep (slice out off (stop - off).toNat)).length := by
            rw [← stripEnd_eq hself, hend]
          have hle : (stripSep sep (slice out off (stop - off).toNat)).length ≤
              (stop - off).toNat := by
            refine (length_stripSep_le _).trans ?_
            rw [length_slice]
          simp only [outcome, printList, loopOutcome, hrun, Option.map_some,
            Except.map, hstrip]
          rw [slice_of_le hle]
          exact congrArg (fun t => some (Except.ok t))
            (List.prefix_iff_eq_take.mp (stripSep_isPrefix _)).symm

theorem Steady.printList {ps : List (Printer ε)}
    (hps : ∀ p ∈ ps, Bounded underflow p) (h : ∀ p ∈ ps, Steady p) :
    Steady (printList sep underflow ps) := by
  intro buf buf' off size hsize
  rw [outcome_printList hps buf off hsize, outcome_printList hps buf' off hsize,
    loopOutcome_steady hps h buf buf' off hsize]

end BufferPrinting

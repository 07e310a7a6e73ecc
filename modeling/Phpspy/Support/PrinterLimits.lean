import Phpspy.Support.BufferPrinting

/-!
# Printers that return late, or nothing

A recursive printer is a family of printers, one for each bound on the depth
of its recursion.  Members with a higher bound return more often, and then the
same.  This module says when a list of such printers returns, and when it
returns an empty text.
-/

namespace BufferPrinting

open ByteText

variable {ε α : Type*} {sep : UInt8} {underflow : ε}

/-! ## Higher bounds -/

/-- The second printer returns what the first one does, if that returns. -/
def Agrees (p p' : Printer ε) : Prop :=
  ∀ buf off size, p buf off size ≠ none →
    p' buf off size = p buf off size

theorem Agrees.refl (p : Printer ε) : Agrees p p :=
  fun _ _ _ _ => rfl

theorem Agrees.trans {p p' p'' : Printer ε} (h : Agrees p p')
    (h' : Agrees p' p'') : Agrees p p'' := by
  intro buf off size hp
  have heq := h buf off size hp
  rw [h' buf off size (by rwa [heq]), heq]

theorem Agrees.eq_some {p p' : Printer ε} (h : Agrees p p') {buf : Buffer}
    {off : ℤ} {size : ℕ} {out : Buffer × Except ε ℕ}
    (hp : p buf off size = some out) : p' buf off size = some out := by
  rw [h buf off size (by simp [hp]), hp]

theorem Agrees.shifted {p p' : Printer ε} (h : Agrees p p') (n : ℕ) :
    Agrees (shifted n p) (shifted n p') := by
  intro buf off size hp
  rw [BufferPrinting.shifted, ne_eq, Option.map_eq_none_iff] at hp
  rw [BufferPrinting.shifted, BufferPrinting.shifted, h _ _ _ hp]

theorem Agrees.labelled {p p' : Printer ε} (h : Agrees p p')
    (label : Bytes) : Agrees (labelled label p) (labelled label p') := by
  intro buf off size hp
  unfold BufferPrinting.labelled at hp ⊢
  split
  · rfl
  · rename_i hroom
    rw [if_neg hroom] at hp
    exact h.shifted _ _ _ _ hp

theorem printLoop_agrees {f g : α → Printer ε} (h : ∀ a, Agrees (f a) (g a))
    (l : List α) {buf : Buffer} {pos : ℤ} {size : ℕ}
    (hf : printLoop sep underflow (l.map f) buf pos size ≠ none) :
    printLoop sep underflow (l.map g) buf pos size =
      printLoop sep underflow (l.map f) buf pos size := by
  induction l generalizing buf pos size with
  | nil => rfl
  | cons a l ih =>
      rw [List.map_cons, printLoop] at hf
      rw [List.map_cons, List.map_cons, printLoop, printLoop]
      cases hrun : f a buf pos size with
      | none => simp [hrun] at hf
      | some out =>
          obtain ⟨buf', r⟩ := out
          rw [(h a).eq_some hrun]
          cases r with
          | error e => rfl
          | ok len =>
              simp only [hrun] at hf ⊢
              split_ifs at hf ⊢ with hzero hfull hbreak
              · exact ih hf
              · rfl
              · rfl
              · exact ih hf

theorem printList_agrees {f g : α → Printer ε} (h : ∀ a, Agrees (f a) (g a))
    (l : List α) :
    Agrees (printList sep underflow (l.map f))
      (printList sep underflow (l.map g)) := by
  intro buf off size hf
  rw [printList, ne_eq, Option.map_eq_none_iff] at hf
  rw [printList, printList, printLoop_agrees h l hf]

theorem agrees_of_le {f : ℕ → Printer ε} (h : ∀ n, Agrees (f n) (f (n + 1)))
    {m n : ℕ} (hmn : m ≤ n) : Agrees (f m) (f n) := by
  induction hmn with
  | refl => exact Agrees.refl _
  | step _ ih => exact ih.trans (h _)

/-! ## Errors -/

theorem printLoop_error {ps : List (Printer ε)}
    (hps : ∀ p ∈ ps, Bounded underflow p) {buf out : Buffer} {pos : ℤ}
    {size : ℕ} (hsize : 1 ≤ size) {e : ε}
    (h : printLoop sep underflow ps buf pos size = some (out, .error e)) :
    ∃ p ∈ ps, ∃ buf' pos' size', 1 ≤ size' ∧
      p buf' pos' size' = some (out, .error e) := by
  induction ps generalizing buf pos size with
  | nil => simp [printLoop] at h
  | cons p ps ih =>
      have hrest : ∀ q ∈ ps, Bounded underflow q :=
        fun q hq => hps q (List.mem_cons_of_mem p hq)
      have hlater : ∀ {buf : Buffer} {pos : ℤ} {size : ℕ}, 1 ≤ size →
          printLoop sep underflow ps buf pos size = some (out, .error e) →
            ∃ q ∈ p :: ps, ∃ buf' pos' size', 1 ≤ size' ∧
              q buf' pos' size' = some (out, .error e) := by
        intro buf pos size hsize h
        obtain ⟨q, hq, hfails⟩ := ih hrest hsize h
        exact ⟨q, List.mem_cons_of_mem p hq, hfails⟩
      cases hrun : p buf pos size with
      | none => simp [printLoop, hrun] at h
      | some r =>
          obtain ⟨buf₁, r⟩ := r
          cases r with
          | error e' =>
              simp only [printLoop, hrun, Option.some.injEq, Prod.mk.injEq,
                Except.error.injEq] at h
              obtain ⟨rfl, rfl⟩ := h
              exact ⟨p, List.mem_cons_self, buf, pos, size, hsize, hrun⟩
          | ok len =>
              obtain ⟨-, -, hlen⟩ :=
                hps p List.mem_cons_self _ _ _ hsize _ _ hrun
              have hle := hlen len rfl
              by_cases hzero : len = 0
              · subst hzero
                rw [printLoop_cons_zero hrun] at h
                exact hlater hsize h
              · by_cases hbreak : size - len < 2
                · rw [printLoop_cons_last hrun hzero (by omega) hbreak] at h
                  cases h
                · rw [printLoop_cons_more hrun hzero hbreak] at h
                  exact hlater (by omega) h

/-! ## Empty texts -/

/-- The printer prints nothing at a size, whatever the buffer has. -/
def Silent (p : Printer ε) (size : ℕ) : Prop :=
  ∀ buf off, ∃ out, p buf off size = some (out, .ok 0)

theorem Silent.of_agrees {p p' : Printer ε} {size : ℕ} (h : Silent p size)
    (hagrees : Agrees p p') : Silent p' size := by
  intro buf off
  obtain ⟨out, hout⟩ := h buf off
  exact ⟨out, hagrees.eq_some hout⟩

theorem printLoop_append_of_silent {before : List (Printer ε)} {size : ℕ}
    (h : ∀ p ∈ before, Silent p size) (ps : List (Printer ε)) (buf : Buffer)
    (pos : ℤ) :
    ∃ out, printLoop sep underflow (before ++ ps) buf pos size =
      printLoop sep underflow ps out pos size := by
  induction before generalizing buf with
  | nil => exact ⟨buf, rfl⟩
  | cons p before ih =>
      obtain ⟨buf', hrun⟩ := h p List.mem_cons_self buf pos
      obtain ⟨out, hout⟩ :=
        ih (fun q hq => h q (List.mem_cons_of_mem p hq)) buf'
      refine ⟨out, ?_⟩
      rw [List.cons_append, printLoop, hrun]
      exact hout

theorem printList_silent {ps : List (Printer ε)} {size : ℕ}
    (h : ∀ p ∈ ps, Silent p size) :
    Silent (printList sep underflow ps) size := by
  intro buf off
  obtain ⟨out, hout⟩ : ∃ out, printLoop sep underflow ps buf off size =
      printLoop sep underflow [] out off size := by
    simpa only [List.append_nil] using
      printLoop_append_of_silent h [] buf off
  refine ⟨out, ?_⟩
  rw [printList, hout]
  simp [printLoop, Except.map, stripEnd]

/-- A separator that is printed in the last byte is taken for one to remove,
so that nothing is left. -/
theorem printList_silent_of_sep {before after : List (Printer ε)}
    {p : Printer ε} (h : ∀ q ∈ before, Silent q 2)
    (hp : ∀ buf off, ∃ out, p buf off 2 = some (out, .ok 1) ∧
      out off = sep) :
    Silent (printList sep underflow (before ++ p :: after)) 2 := by
  intro buf off
  obtain ⟨buf', hbuf'⟩ : ∃ buf',
      printLoop sep underflow (before ++ p :: after) buf off 2 =
        printLoop sep underflow (p :: after) buf' off 2 :=
    printLoop_append_of_silent h (p :: after) buf off
  obtain ⟨out, hrun, hsep⟩ := hp buf' off
  refine ⟨out, ?_⟩
  rw [printList, hbuf', printLoop, hrun]
  simp [Except.map, stripEnd, hsep]

/-- A loop that prints nothing: none of the printers does, or the first that
does prints a separator into the last byte. -/
theorem printLoop_eq_zero {f : α → Printer ε}
    (hf : ∀ a, Bounded underflow (f a)) {l : List α} {buf : Buffer} {pos : ℤ}
    {size : ℕ} (hsize : 1 ≤ size) {out : Buffer} {stop : ℤ}
    (h : printLoop sep underflow (l.map f) buf pos size =
      some (out, .ok stop))
    (hzero : stripEnd sep out pos stop = 0) :
    (∀ a ∈ l, ∃ buf' out', f a buf' pos size = some (out', .ok 0)) ∨
      (size = 2 ∧ ∃ before a after, l = before ++ a :: after ∧
        (∀ b ∈ before, ∃ buf' out', f b buf' pos size = some (out', .ok 0)) ∧
        ∃ buf' out', f a buf' pos size = some (out', .ok 1) ∧
          out' pos = sep) := by
  induction l generalizing buf with
  | nil => exact .inl nofun
  | cons a l ih =>
      rw [List.map_cons] at h
      cases hrun : f a buf pos size with
      | none => simp [printLoop, hrun] at h
      | some res =>
          obtain ⟨buf₁, _ | len⟩ := res
          · simp [printLoop, hrun] at h
          · have hlen := (hf a _ _ _ hsize _ _ hrun).2.2 len rfl
            by_cases hnone : len = 0
            · -- nothing printed, so the others print nothing either
              rw [hnone] at hrun
              rw [printLoop_cons_zero hrun] at h
              rcases ih h with hall | ⟨htwo, before, b, after, rfl, hbefore, hb⟩
              · refine .inl fun c hc => ?_
                rcases List.mem_cons.mp hc with rfl | hc
                · exact ⟨buf, buf₁, hrun⟩
                · exact hall c hc
              · refine .inr ⟨htwo, a :: before, b, after, rfl, ?_, hb⟩
                intro c hc
                rcases List.mem_cons.mp hc with rfl | hc
                · exact ⟨buf, buf₁, hrun⟩
                · exact hbefore c hc
            · by_cases hbreak : size - len < 2
              · rw [printLoop_cons_last hrun hnone (by omega) hbreak] at h
                obtain ⟨rfl, hstop⟩ := Prod.mk.inj (Option.some.inj h)
                cases hstop
                rw [stripEnd] at hzero
                split at hzero
                · rename_i hsep
                  have hone : len = 1 := by omega
                  subst hone
                  refine .inr ⟨by omega, [], a, l, rfl, nofun, buf, buf₁,
                    hrun, ?_⟩
                  rw [← hsep.2]
                  congr 1
                  simp
                · omega
              · rw [printLoop_cons_more hrun hnone hbreak] at h
                have hstop := (printLoop_bounded (fun p hp => by
                  obtain ⟨b, -, rfl⟩ := List.mem_map.mp hp
                  exact hf b) (by omega) h).2.2 stop rfl
                rw [stripEnd] at hzero
                split at hzero <;> omega

theorem printList_eq_zero {f : α → Printer ε}
    (hf : ∀ a, Bounded underflow (f a)) {l : List α} {buf : Buffer} {off : ℤ}
    {size : ℕ} (hsize : 1 ≤ size) {out : Buffer}
    (h : printList sep underflow (l.map f) buf off size = some (out, .ok 0)) :
    (∀ a ∈ l, ∃ buf' out', f a buf' off size = some (out', .ok 0)) ∨
      (size = 2 ∧ ∃ before a after, l = before ++ a :: after ∧
        (∀ b ∈ before, ∃ buf' out', f b buf' off size = some (out', .ok 0)) ∧
        ∃ buf' out', f a buf' off size = some (out', .ok 1) ∧
          out' off = sep) := by
  obtain ⟨⟨buf', r⟩, hrun, heq⟩ := Option.map_eq_some_iff.mp h
  obtain ⟨rfl, hr⟩ := Prod.mk.inj heq
  cases r with
  | error e => cases hr
  | ok stop => exact printLoop_eq_zero hf hsize hrun (Except.ok.inj hr)

theorem printList_last_ne_sep {ps : List (Printer ε)}
    (hps : ∀ p ∈ ps, Bounded underflow p) {buf : Buffer} {off : ℤ} {len : ℕ}
    {out : Buffer} (hlen : 0 < len)
    (h : printList sep underflow ps buf off (len + 1) =
      some (out, .ok len)) : out (off + len - 1) ≠ sep := by
  obtain ⟨⟨buf', r⟩, hrun, heq⟩ := Option.map_eq_some_iff.mp h
  obtain ⟨rfl, hr⟩ := Prod.mk.inj heq
  cases r with
  | error e => cases hr
  | ok stop =>
      have hstop := (printLoop_bounded hps (by omega) hrun).2.2 stop rfl
      have hstrip := Except.ok.inj hr
      rw [stripEnd] at hstrip
      split at hstrip
      · omega
      · rename_i hnot
        intro hsep
        have hend : off + len = stop := by omega
        exact hnot ⟨by omega, by rw [← hsep, hend]⟩

/-! ## Loops that never return -/

/-- The printer prints nothing at a size, if it returns. -/
def Quiet (p : Printer ε) (size : ℕ) : Prop :=
  ∀ buf off, p buf off size = none ∨ ∃ out, p buf off size = some (out, .ok 0)

theorem Silent.quiet_of_agrees {p p' : Printer ε} {size : ℕ}
    (h : Silent p' size) (hagrees : Agrees p p') : Quiet p size := by
  intro buf off
  cases hp : p buf off size with
  | none => exact .inl rfl
  | some out =>
      obtain ⟨out', hout'⟩ := h buf off
      rw [hagrees.eq_some hp] at hout'
      exact .inr ⟨out', hout'⟩

theorem printLoop_eq_none {before after : List (Printer ε)} {p : Printer ε}
    {size : ℕ} (h : ∀ q ∈ before, Quiet q size)
    (hp : ∀ buf off, p buf off size = none) (buf : Buffer) (pos : ℤ) :
    printLoop sep underflow (before ++ p :: after) buf pos size = none := by
  induction before generalizing buf with
  | nil => rw [List.nil_append, printLoop, hp]
  | cons q before ih =>
      rw [List.cons_append, printLoop]
      rcases h q List.mem_cons_self buf pos with hnone | ⟨out, hout⟩
      · rw [hnone]
      · rw [hout]
        exact ih (fun q' hq' => h q' (List.mem_cons_of_mem q hq')) out

theorem printLoop_never_of_le {f : ℕ → α → Printer ε}
    (hmono : ∀ n a, Agrees (f n a) (f (n + 1) a)) {n₀ : ℕ} {l : List α}
    {buf : Buffer} {pos : ℤ} {size : ℕ}
    (h : ∀ n ≥ n₀,
      printLoop sep underflow (l.map (f n)) buf pos size = none) (n : ℕ) :
    printLoop sep underflow (l.map (f n)) buf pos size = none := by
  by_contra hne
  have hagree := printLoop_agrees (g := f (max n n₀))
    (fun b => agrees_of_le (fun k => hmono k b) (le_max_left n n₀)) l hne
  exact hne (hagree.symm.trans (h _ (le_max_right n n₀)))

/-- If a list of printers returns for no bound, then one of them does, with
what the ones before it have left of the size. -/
theorem printLoop_never {f : ℕ → α → Printer ε}
    (hmono : ∀ n a, Agrees (f n a) (f (n + 1) a))
    (hbounded : ∀ n a, Bounded underflow (f n a)) {l : List α} {buf : Buffer}
    {pos : ℤ} {size : ℕ} (hsize : 1 ≤ size)
    (h : ∀ n, printLoop sep underflow (l.map (f n)) buf pos size = none) :
    ∃ before a after buf' pos' size', l = before ++ a :: after ∧
      1 ≤ size' ∧ size' ≤ size ∧ (∀ n, f n a buf' pos' size' = none) ∧
      (size' = size → ∀ b ∈ before, ∃ n buf₁ pos₁ out,
        f n b buf₁ pos₁ size = some (out, .ok 0)) := by
  induction l generalizing buf pos size with
  | nil => exact absurd (h 0) (by simp [printLoop])
  | cons a l ih =>
      by_cases hnever : ∀ n, f n a buf pos size = none
      · exact ⟨[], a, l, buf, pos, size, rfl, hsize, le_rfl, hnever,
          by simp⟩
      push Not at hnever
      obtain ⟨n₀, hsome⟩ := hnever
      obtain ⟨⟨buf₁, r⟩, hrun⟩ := Option.ne_none_iff_exists'.mp hsome
      have hhead : ∀ n ≥ n₀, f n a buf pos size = some (buf₁, r) :=
        fun n hn => (agrees_of_le (fun k => hmono k a) hn).eq_some hrun
      have hlater := @printLoop_never_of_le ε α sep underflow f hmono n₀ l
      cases r with
      | error e =>
          have := h n₀
          rw [List.map_cons, printLoop, hrun] at this
          cases this
      | ok len =>
          have hlen := (hbounded n₀ a _ _ _ hsize _ _ hrun).2.2 len rfl
          by_cases hzero : len = 0
          · subst hzero
            have hrest : ∀ n ≥ n₀, printLoop sep underflow (l.map (f n)) buf₁
                pos size = none :=
              fun n hn => (printLoop_cons_zero (hhead n hn)).symm.trans (h n)
            obtain ⟨before, b, after, buf', pos', size', rfl, hpos, hle, hnone,
              hquiet⟩ := ih hsize (hlater hrest)
            refine ⟨a :: before, b, after, buf', pos', size', rfl, hpos, hle,
              hnone, fun heq c hc => ?_⟩
            rcases List.mem_cons.mp hc with rfl | hc
            · exact ⟨n₀, buf, pos, buf₁, hrun⟩
            · exact hquiet heq c hc
          · by_cases hbreak : size - len < 2
            · have hloop := h n₀
              rw [List.map_cons, printLoop_cons_last hrun hzero (by omega)
                hbreak] at hloop
              cases hloop
            · have hrest : ∀ n ≥ n₀, printLoop sep underflow (l.map (f n))
                  (put buf₁ (pos + len) [sep]) (pos + len + 1)
                  (size - len - 1) = none :=
                fun n hn => (printLoop_cons_more (hhead n hn) hzero
                  hbreak).symm.trans (h n)
              obtain ⟨before, b, after, buf', pos', size', rfl, hpos, hle,
                hnone, -⟩ := ih (by omega) (hlater hrest)
              exact ⟨a :: before, b, after, buf', pos', size', rfl, hpos,
                by omega, hnone, fun heq => by omega⟩

end BufferPrinting

import Mathlib.Data.List.Induction
import Mathlib.Data.List.Nodup
import Mathlib.Order.Nat

/-!
# Loops that may be left early

A loop looks at one item after the other, with a state that it hands on.  It
passes over an item, or emits an event for it, or leaves, so that the items
behind get no event.  What it does with an item may need fuel; a loop that runs
out of fuel has left.
-/

namespace Scans

variable {σ α ε : Type*}

inductive Verdict (σ ε : Type*) where
  | skip (s : σ)
  | emit (s : σ) (event : ε)
  | stop

def Verdict.next : Verdict σ ε → Option σ
  | .skip s => some s
  | .emit s _ => some s
  | .stop => none

def scan (verdict : α → σ → Verdict σ ε) : List α → σ → List ε
  | [], _ => []
  | a :: rest, s =>
      match verdict a s with
      | .skip s => scan verdict rest s
      | .emit s e => e :: scan verdict rest s
      | .stop => []

/-- The state behind some items, unless the loop leaves at one of them. -/
def past (verdict : α → σ → Verdict σ ε) : List α → σ → Option σ
  | [], s => some s
  | a :: rest, s => (verdict a s).next.bind (past verdict rest)

variable {verdict : α → σ → Verdict σ ε} {e : ε}

theorem Verdict.next_eq_none_iff {v : Verdict σ ε} :
    v.next = none ↔ v = .stop := by
  cases v with
  | skip s => simp [next]
  | emit s e => simp [next]
  | stop => simp [next]

theorem past_append (before rest : List α) (s : σ) :
    past verdict (before ++ rest) s =
      (past verdict before s).bind (past verdict rest) := by
  induction before generalizing s with
  | nil => rfl
  | cons a before ih =>
      rw [List.cons_append, past, past, Option.bind_assoc]
      exact Option.bind_congr fun s' _ => ih s'

theorem past_of_skip {next : σ → α → σ} {l : List α}
    (h : ∀ a ∈ l, ∀ s, verdict a s = .skip (next s a)) (s : σ) :
    past verdict l s = some (l.foldl next s) := by
  induction l generalizing s with
  | nil => rfl
  | cons a l ih =>
      rw [past, h a List.mem_cons_self]
      exact ih (fun b hb => h b (List.mem_cons_of_mem a hb)) _

theorem scan_eq_nil_of_skip {l : List α}
    (h : ∀ a ∈ l, ∀ s, ∃ s', verdict a s = .skip s') (s : σ) :
    scan verdict l s = [] := by
  induction l generalizing s with
  | nil => rfl
  | cons a l ih =>
      obtain ⟨s', hskip⟩ := h a List.mem_cons_self s
      rw [scan, hskip]
      exact ih (fun b hb => h b (List.mem_cons_of_mem a hb)) s'

theorem mem_scan_cons_iff {a : α} {rest : List α} {s : σ} :
    e ∈ scan verdict (a :: rest) s ↔
      (∃ s', verdict a s = .emit s' e) ∨
        ∃ s', (verdict a s).next = some s' ∧ e ∈ scan verdict rest s' := by
  rw [scan]
  cases verdict a s with
  | skip s' => simp [Verdict.next]
  | emit s' e' =>
      simp only [List.mem_cons, Verdict.next, Verdict.emit.injEq,
        Option.some.injEq, exists_eq_left']
      exact or_congr_left eq_comm
  | stop => simp [Verdict.next]

theorem mem_scan_iff {l : List α} {s : σ} :
    e ∈ scan verdict l s ↔ ∃ before a after s' s'', l = before ++ a :: after ∧
      past verdict before s = some s' ∧ verdict a s' = .emit s'' e := by
  induction l generalizing s with
  | nil => simp [scan]
  | cons a l ih =>
      rw [mem_scan_cons_iff]
      constructor
      · rintro (⟨s', hemit⟩ | ⟨s', hnext, hmem⟩)
        · exact ⟨[], a, l, s, s', rfl, rfl, hemit⟩
        · obtain ⟨before, b, after, t, t', rfl, hpast, hemit⟩ := ih.mp hmem
          refine ⟨a :: before, b, after, t, t', rfl, ?_, hemit⟩
          rw [past, hnext]
          exact hpast
      · rintro ⟨before, b, after, t, t', hl, hpast, hemit⟩
        cases before with
        | nil =>
            obtain ⟨rfl, rfl⟩ := List.cons.inj hl
            cases hpast
            exact .inl ⟨t', hemit⟩
        | cons c before =>
            obtain ⟨rfl, rfl⟩ := List.cons.inj hl
            obtain ⟨s', hnext, hrest⟩ := Option.bind_eq_some_iff.mp hpast
            exact .inr ⟨s', hnext, ih.mpr
              ⟨before, b, after, t, t', rfl, hrest, hemit⟩⟩

/-! ## Fuel -/

/-- More fuel does not change what the loop does with an item, unless it has
left there. -/
def Persists (f : ℕ → α → σ → Verdict σ ε) : Prop :=
  ∀ m n a s, m ≤ n → f m a s ≠ .stop → f n a s = f m a s

variable {f : ℕ → α → σ → Verdict σ ε}

theorem Persists.past_eq (hf : Persists f) {m n : ℕ} (hmn : m ≤ n)
    {l : List α} {s s' : σ} (h : past (f m) l s = some s') :
    past (f n) l s = some s' := by
  induction l generalizing s with
  | nil => exact h
  | cons a l ih =>
      obtain ⟨t, hnext, hrest⟩ := Option.bind_eq_some_iff.mp h
      have hgoes : f m a s ≠ .stop := by
        intro hstop
        rw [hstop] at hnext
        cases hnext
      rw [past, hf m n a s hmn hgoes, hnext]
      exact ih hrest

/-- With enough fuel, an item gets its event if the loop comes to it. -/
theorem exists_mem_scan_iff (hf : Persists f) {l : List α} {s : σ} :
    (∃ n, e ∈ scan (f n) l s) ↔ ∃ before a after s',
      l = before ++ a :: after ∧ (∃ n, past (f n) before s = some s') ∧
        ∃ n s'', f n a s' = .emit s'' e := by
  constructor
  · rintro ⟨n, hmem⟩
    obtain ⟨before, a, after, s', s'', hl, hpast, hemit⟩ := mem_scan_iff.mp hmem
    exact ⟨before, a, after, s', hl, ⟨n, hpast⟩, n, s'', hemit⟩
  · rintro ⟨before, a, after, s', hl, ⟨m, hpast⟩, n, s'', hemit⟩
    refine ⟨max m n, mem_scan_iff.mpr ⟨before, a, after, s', s'', hl,
      hf.past_eq (le_max_left m n) hpast, ?_⟩⟩
    rw [hf n _ a s' (le_max_right m n) (by rw [hemit]; nofun), hemit]

/-- The loop gets past some items if it does not leave at any that it comes
to. -/
theorem exists_past (hf : Persists f) {l : List α} {s : σ}
    (h : ∀ before a after, l = before ++ a :: after → ∀ s',
      (∃ n, past (f n) before s = some s') → ∃ n, f n a s' ≠ .stop) :
    ∃ s' n, past (f n) l s = some s' := by
  induction l using List.reverseRecOn with
  | nil => exact ⟨s, 0, rfl⟩
  | append_singleton l a ih =>
      obtain ⟨t, m, hpast⟩ := ih fun before b after hl =>
        h before b (after ++ [a]) (by rw [hl]; simp)
      obtain ⟨n, hgoes⟩ := h l a [] rfl t ⟨m, hpast⟩
      cases hnext : (f n a t).next with
      | none => exact absurd (Verdict.next_eq_none_iff.mp hnext) hgoes
      | some s' =>
          refine ⟨s', max m n, ?_⟩
          rw [past_append, hf.past_eq (le_max_left m n) hpast]
          rw [Option.bind_some, past, hf n _ a t (le_max_right m n) hgoes,
            hnext]
          rfl

theorem ne_stop_of_past {before after : List α} {a : α} {s s' : σ}
    (h : past verdict (before ++ a :: after) s = some s') :
    ∃ t, past verdict before s = some t ∧ verdict a t ≠ .stop := by
  rw [past_append] at h
  obtain ⟨t, hbefore, hrest⟩ := Option.bind_eq_some_iff.mp h
  refine ⟨t, hbefore, fun hstop => ?_⟩
  rw [past, hstop] at hrest
  cases hrest

theorem append_cons_inj_of_nodup {a : α} {b b' c c' : List α}
    (h : b ++ a :: c = b' ++ a :: c') (hnodup : (b ++ a :: c).Nodup) :
    b = b' := by
  have hnot : ∀ d e : List α, (d ++ a :: e).Nodup → a ∉ d :=
    fun d e hde hd => List.disjoint_of_nodup_append hde hd List.mem_cons_self
  have hfirst := hnot b c hnodup
  have hsecond := hnot b' c' (h ▸ hnodup)
  rcases List.append_eq_append_iff.mp h with ⟨d, hd, he⟩ | ⟨d, hd, he⟩
  · cases d with
    | nil => rw [hd, List.append_nil]
    | cons x d =>
        obtain ⟨rfl, -⟩ := List.cons.inj he
        exact absurd (by rw [hd]; simp) hsecond
  · cases d with
    | nil => rw [hd, List.append_nil]
    | cons x d =>
        obtain ⟨rfl, -⟩ := List.cons.inj he
        exact absurd (by rw [hd]; simp) hfirst

end Scans

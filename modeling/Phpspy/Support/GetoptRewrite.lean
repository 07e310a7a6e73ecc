import Phpspy.Support.GetoptLong

/-!
# Other arguments for the same options

A change of arguments that leaves the hyphens in place.  An argument that
changes may be replaced by one with another option in the place of its own, or
it is covered: all that is left of its options is one that stands for all of
them.
-/

namespace GetoptLong

open ByteText

variable {ν : Type*}

/-! ## Changed arguments -/

def Scanner.map (f : Bytes → Bytes) (s : Scanner) : Scanner where
  done := s.done.map f
  skipped := s.skipped.map f
  opts := s.opts.map f
  rest := s.rest.map f
  current := f s.current
  nextchar := s.nextchar

def Arg.map (f : Bytes → Bytes) : Arg → Arg
  | .absent => .absent
  | .attached text => .attached text
  | .separate text => .separate (f text)

/-- A call for a changed argument, with another option in place of the one. -/
def Call.map (f : Bytes → Bytes) (g : ν → ν) (call : Call ν) : Call ν where
  element := f call.element
  val := call.val.map g
  arg := call.arg.map f

def Decoded.map (g : ν → ν) : Decoded ν → Decoded ν
  | .gives val attached nextchar => .gives (val.map g) attached nextchar
  | .needs val => .needs (g val)

theorem start_map (f : Bytes → Bytes) (hf : f [] = []) (argv : List Bytes) :
    Scanner.start (argv.map f) = (Scanner.start argv).map f := by
  simp only [Scanner.start, Scanner.map, List.map_take, List.map_drop,
    List.map_nil, hf]

/-- A change of arguments that does not make options of what is none, or the
other way round. -/
structure KeepsHyphens (f : Bytes → Bytes) : Prop where
  nonOption : ∀ a, isNonOption (f a) = isNonOption a
  hyphens : ∀ a, f a = lit "--" ↔ a = lit "--"
  hyphen : ∀ a, (f a).head? = some 45 ↔ a.head? = some 45

variable {f : Bytes → Bytes} {g : ν → ν}

theorem KeepsHyphens.advance_map (hf : KeepsHyphens f) (ordering : Ordering)
    (s : Scanner) :
    (s.map f).advance ordering = (s.advance ordering).map f := by
  have hcomp : isNonOption ∘ f = isNonOption := funext hf.nonOption
  cases ordering with
  | requireOrder => rfl
  | permute =>
      simp only [Scanner.advance, Scanner.map, List.map_append,
        List.takeWhile_map, List.dropWhile_map, hcomp, List.map_nil]

theorem stop_map (s : Scanner) : (s.map f).stop = s.stop.map f := by
  simp only [Scanner.stop, Scanner.map, List.map_append, List.map_nil]

theorem enter_map (s : Scanner) (a : Bytes) (rest : List Bytes) :
    (s.map f).enter (f a) (rest.map f) = (s.enter a rest).map f := by
  simp only [Scanner.enter, Scanner.map, List.map_append, List.map_cons,
    List.map_nil]

theorem KeepsHyphens.atHyphen_map (hf : KeepsHyphens f) (s : Scanner) :
    (s.map f).atHyphen = s.atHyphen := by
  rw [Bool.eq_iff_iff]
  simp only [Scanner.atHyphen, Scanner.map]
  cases s.rest with
  | nil => exact Iff.rfl
  | cons a rest =>
      simp only [List.map_cons, List.head?_cons, Option.any_some,
        Bool.or_eq_true, decide_eq_true_eq, hf.hyphen]
      exact or_congr_left decide_eq_true_iff

theorem ofAttached_map (attached : Option Bytes) :
    (Arg.ofAttached attached).map f = Arg.ofAttached attached := by
  cases attached with
  | none => rfl
  | some text => rfl

theorem finish_map (s : Scanner) (d : Decoded ν) :
    (s.map f).finish (d.map g) =
      ((s.finish d).1.map f g, (s.finish d).2.map f) := by
  cases d with
  | gives val attached nextchar =>
      simp only [Scanner.finish, Decoded.map, Call.map, ofAttached_map,
        Scanner.map]
  | needs val =>
      simp only [Scanner.finish, Decoded.map, Scanner.map]
      cases s.rest with
      | nil => rfl
      | cons v rest =>
          simp only [List.map_cons, Call.map, Option.map_some, Arg.map,
            List.map_append, List.map_nil]

theorem finish_map_of_val {s : Scanner} {d : Decoded ν}
    (h : (s.finish d).1.val.map g = (s.finish d).1.val) :
    (s.map f).finish d = ((s.finish d).1.map f g, (s.finish d).2.map f) := by
  cases d with
  | gives val attached nextchar =>
      change val.map g = val at h
      simp only [Scanner.finish, Call.map, ofAttached_map, Scanner.map, h]
  | needs val =>
      simp only [Scanner.finish, Scanner.map] at h ⊢
      cases hrest : s.rest with
      | nil => rfl
      | cons v rest =>
          rw [hrest] at h
          dsimp only at h
          simp only [List.map_cons, Call.map, h, Arg.map, List.map_append,
            List.map_nil]

theorem finish_element (s : Scanner) (d : Decoded ν) :
    (s.finish d).1.element = s.current := by
  cases d with
  | gives val attached nextchar => rfl
  | needs val =>
      rw [Scanner.finish]
      split <;> rfl

theorem finish_scanned (s : Scanner) (d : Decoded ν) :
    (s.finish d).2.current = s.current ∧
      (s.finish d).2.nextchar = d.nextchar := by
  cases d with
  | gives val attached nextchar => exact ⟨rfl, rfl⟩
  | needs val =>
      rw [Scanner.finish]
      split <;> exact ⟨rfl, rfl⟩

variable [DecidableEq ν] {table : Table ν} {ordering : Ordering}

/-! ## Calls for changed arguments -/

section Calls

variable (f g) in
/-- The argument stands for itself, and so does the option. -/
def Call.Kept (call : Call ν) : Prop :=
  f call.element = call.element ∧ call.val.map g = call.val

variable (f g table) in
/-- The argument is replaced as a whole by one that is decoded as the other
option. -/
def Call.Replaced (call : Call ν) : Prop :=
  f call.element ≠ call.element ∧
    table.decode (f call.element) = (table.decode call.element).map g ∧
    (table.decode call.element).nextchar = []

variable (f table) in
/-- The argument is replaced by one with a single option, and the option that
was in it has no argument. -/
def Call.Covered (cover : ν) (call : Call ν) : Prop :=
  f call.element ≠ call.element ∧
    table.decode (f call.element) = .gives (some cover) none [] ∧
    call.arg = .absent

variable (f g table) in
/-- What is returned for the changed argument in place of an option.  The first
option of an argument that is covered is returned as the other one, and the
rest of them are not returned. -/
inductive Call.Rewritten (cover : ν) (call : Call ν) : List (Call ν) → Prop
  | kept (h : call.Kept f g) : Rewritten cover call [call.map f g]
  | replaced (h : call.Replaced f g table) : Rewritten cover call [call.map f g]
  | covered (h : call.Covered f table cover) :
      Rewritten cover call [⟨f call.element, some cover, .absent⟩]
  | dropped (h : call.Covered f table cover) : Rewritten cover call []

variable (f g table) in
/-- What is returned for the changed arguments in place of some options. -/
inductive Rewrites (cover : ν) : List (Call ν) → List (Call ν) → Prop
  | nil : Rewrites cover [] []
  | append {calls others found : List (Call ν)} {call : Call ν}
      (h : Rewrites cover calls others)
      (hcall : call.Rewritten f g table cover found) :
      Rewrites cover (calls ++ [call]) (others ++ found)

end Calls

/-! ## The scan of changed arguments -/

variable (f) in
/-- The state for the changed arguments.  There is nothing left of an argument
that has changed. -/
def Scanner.rewrite (s : Scanner) : Scanner :=
  { s.map f with
    nextchar := if f s.current = s.current then s.nextchar else [] }

theorem rewrite_of_same {s : Scanner} (h : f s.current = s.current) :
    s.rewrite f = s.map f := by
  rw [Scanner.rewrite, if_pos h]
  rfl

theorem rewrite_of_nil {s : Scanner} (h : s.nextchar = []) :
    s.rewrite f = s.map f := by
  simp only [Scanner.rewrite, Scanner.map, h, ite_self]

variable (table) in
/-- The characters that are left are from an argument with several options. -/
def Scanner.Coherent (s : Scanner) : Prop :=
  s.nextchar ≠ [] → (table.decode s.current).nextchar ≠ []

theorem Scanner.Step.coherent {s t : Scanner} {call : Call ν}
    (h : s.Step table ordering (some call) t) (hs : s.Coherent table) :
    t.Coherent table := by
  cases h with
  | @char c more hchars =>
      have hkept := (finish_scanned s (table.decodeShort c more)).1
      intro _
      rw [hkept]
      exact hs (by rw [hchars]; exact List.cons_ne_nil _ _)
  | @element a rest =>
      obtain ⟨hkept, hchars⟩ :=
        finish_scanned ((s.advance ordering).enter a rest) (table.decode a)
      intro hne
      rw [hchars] at hne
      rw [hkept]
      exact hne

omit [DecidableEq ν] in
theorem finish_of_absent {s : Scanner} {d : Decoded ν}
    (h : (s.finish d).1.arg = .absent) :
    (s.finish d).2 = { s with nextchar := d.nextchar } := by
  cases d with
  | gives val attached nextchar => rfl
  | needs val =>
      rw [Scanner.finish] at h ⊢
      split at h
      · rfl
      · exact absurd h (by simp)

theorem next_rewrite_char {s : Scanner} {c : UInt8} {more : Bytes}
    (hchars : s.nextchar = c :: more) (hsame : f s.current = s.current)
    (hval : (s.finish (table.decodeShort c more)).1.val.map g =
      (s.finish (table.decodeShort c more)).1.val) :
    (s.rewrite f).next table ordering =
      (some ((s.finish (table.decodeShort c more)).1.map f g),
        (s.finish (table.decodeShort c more)).2.rewrite f) := by
  have hkept := (finish_scanned s (table.decodeShort c more)).1
  have hsame' : f (s.finish (table.decodeShort c more)).2.current =
      (s.finish (table.decodeShort c more)).2.current := by
    rw [hkept, hsame]
  have hstep := @Scanner.Step.char ν _ table ordering (s.map f) c more hchars
  rw [finish_map_of_val hval] at hstep
  rw [rewrite_of_same hsame, rewrite_of_same hsame']
  exact hstep.next_eq

omit [DecidableEq ν] in
theorem rewrite_char_eq {s : Scanner} {c : UInt8} {more : Bytes}
    (hother : f s.current ≠ s.current)
    (hcall : (s.finish (table.decodeShort c more)).1.arg = .absent) :
    (s.finish (table.decodeShort c more)).2.rewrite f = s.rewrite f := by
  rw [finish_of_absent hcall]
  simp only [Scanner.rewrite, Scanner.map, if_neg hother]

theorem KeepsHyphens.next_rewrite_element (hf : KeepsHyphens f) {s : Scanner}
    (hchars : s.nextchar = []) {a : Bytes} {rest : List Bytes}
    (hrest : (s.advance ordering).rest = a :: rest) (hne : a ≠ lit "--")
    (hoption : isNonOption a = false) :
    (s.rewrite f).next table ordering =
      (some ((((s.advance ordering).enter a rest).map f).finish
          (table.decode (f a))).1,
        ((((s.advance ordering).enter a rest).map f).finish
          (table.decode (f a))).2) := by
  have hrest' : ((s.map f).advance ordering).rest = f a :: rest.map f := by
    rw [hf.advance_map, Scanner.map, hrest, List.map_cons]
  have hstep := @Scanner.Step.element ν _ table ordering (s.map f) (f a)
    (rest.map f) hchars hrest' ((hf.hyphens a).not.mpr hne)
    ((hf.nonOption a).trans hoption)
  rw [hf.advance_map, enter_map] at hstep
  rw [rewrite_of_nil hchars]
  exact hstep.next_eq

theorem atHyphen_of_nextchar {s : Scanner} (h : s.nextchar ≠ []) :
    s.atHyphen = true := by
  simp [Scanner.atHyphen, h]

theorem KeepsHyphens.scans_rewrite_step (hf : KeepsHyphens f)
    {cover : ν} {s t : Scanner} {call : Call ν}
    (hhyphen : s.atHyphen = true) (h : s.Step table ordering (some call) t)
    (hs : s.Coherent table)
    (hcall : call.Kept f g ∨ call.Replaced f g table ∨
      call.Covered f table cover) :
    ∃ found, call.Rewritten f g table cover found ∧
      Scans table ordering (s.rewrite f) found (t.rewrite f) := by
  cases h with
  | @char c more hchars =>
      have hne : s.nextchar ≠ [] := by
        rw [hchars]
        exact List.cons_ne_nil _ _
      have hcurrent := finish_element s (table.decodeShort c more)
      by_cases hsame : f s.current = s.current
      · have hkept : (s.finish (table.decodeShort c more)).1.Kept f g := by
          refine hcall.resolve_right ?_
          rintro (hreplaced | hcovered)
          · exact hreplaced.1 (by rw [hcurrent, hsame])
          · exact hcovered.1 (by rw [hcurrent, hsame])
        refine ⟨_, .kept hkept, .single ?_ ?_⟩
        · rw [rewrite_of_same hsame]
          exact atHyphen_of_nextchar hne
        · exact next_rewrite_char hchars hsame hkept.2
      · rcases hcall with hkept | hreplaced | hcovered
        · exact absurd (by rw [← hcurrent]; exact hkept.1) hsame
        · have hwhole := hreplaced.2.2
          rw [hcurrent] at hwhole
          exact absurd hwhole (hs hne)
        · refine ⟨_, .dropped hcovered, ?_⟩
          rw [rewrite_char_eq hsame hcovered.2.2]
          exact .refl
  | @element a rest hchars hrest hne hoption =>
      have hcurrent := finish_element ((s.advance ordering).enter a rest)
        (table.decode a)
      obtain ⟨hkeeps, hleft⟩ :=
        finish_scanned ((s.advance ordering).enter a rest) (table.decode a)
      have hnext := @KeepsHyphens.next_rewrite_element ν f _ table ordering hf
        s hchars a rest hrest hne hoption
      have hhyphen' : (s.rewrite f).atHyphen = true := by
        rw [rewrite_of_nil hchars, hf.atHyphen_map, hhyphen]
      rcases hcall with hkept | hreplaced | hcovered
      · refine ⟨_, .kept hkept, .single hhyphen' ?_⟩
        have hsame : f a = a := by
          have hsame := hkept.1
          rw [hcurrent] at hsame
          exact hsame
        rw [hnext, hsame, finish_map_of_val hkept.2, rewrite_of_same]
        rw [hkeeps]
        exact hsame
      · refine ⟨_, .replaced hreplaced, .single hhyphen' ?_⟩
        obtain ⟨-, hdecode, hwhole⟩ := hreplaced
        rw [hcurrent] at hdecode hwhole
        have hother : table.decode (f a) = (table.decode a).map g := hdecode
        rw [hnext, hother, finish_map, rewrite_of_nil]
        rw [hleft]
        exact hwhole
      · refine ⟨_, .covered hcovered, .single hhyphen' ?_⟩
        obtain ⟨hother, hdecode, habsent⟩ := hcovered
        rw [hcurrent] at hother hdecode
        have hcover : table.decode (f a) = .gives (some cover) none [] :=
          hdecode
        have hnothing : f ((s.advance ordering).enter a rest).current ≠
          ((s.advance ordering).enter a rest).current := hother
        rw [hnext, hcover, hcurrent, finish_of_absent habsent]
        simp only [Scanner.finish, Scanner.rewrite, Scanner.map,
          if_neg hnothing, Arg.ofAttached]

theorem KeepsHyphens.scans_rewrite (hf : KeepsHyphens f) {cover : ν}
    {s t : Scanner} {calls : List (Call ν)}
    (h : Scans table ordering s calls t) (hs : s.Coherent table)
    (hcalls : ∀ call ∈ calls, call.Kept f g ∨ call.Replaced f g table ∨
      call.Covered f table cover) :
    t.Coherent table ∧ ∃ others, Rewrites f g table cover calls others ∧
      Scans table ordering (s.rewrite f) others (t.rewrite f) := by
  induction h with
  | refl => exact ⟨hs, [], .nil, .refl⟩
  | @tail calls t u call _ hhyphen hnext ih =>
      have hstep := Scanner.step_of_next_eq hnext
      obtain ⟨ht, others, hrewrites, hscans⟩ := ih fun call hmem =>
        hcalls call (List.mem_append_left _ hmem)
      have hcall := hcalls call (List.mem_append_right _ List.mem_cons_self)
      obtain ⟨found, hfound, hlast⟩ :=
        hf.scans_rewrite_step hhyphen hstep ht hcall
      exact ⟨hstep.coherent ht, others ++ found, hrewrites.append hfound,
        hscans.append hlast⟩

theorem Scanner.Step.nextchar_of_none {s t : Scanner}
    (h : s.Step table ordering none t) :
    s.nextchar = [] ∧ t.nextchar = [] := by
  have hadvance : (s.advance ordering).nextchar = s.nextchar := by
    cases ordering <;> rfl
  cases h with
  | last hchars => exact ⟨hchars, hadvance.trans hchars⟩
  | hyphens hchars => exact ⟨hchars, hadvance.trans hchars⟩
  | nonOption hchars => exact ⟨hchars, hadvance.trans hchars⟩

theorem KeepsHyphens.next_map_none (hf : KeepsHyphens f) {s t : Scanner}
    (h : s.Step table ordering none t) :
    (s.map f).next table ordering = (none, t.map f) := by
  have hadvance := hf.advance_map ordering s
  cases h with
  | last hchars hrest =>
      rw [← stop_map, ← hadvance]
      refine (@Scanner.Step.last ν _ table ordering (s.map f) hchars
        ?_).next_eq
      rw [hadvance, Scanner.map, hrest]
      rfl
  | @hyphens rest hchars hrest =>
      have hhyphens : f (lit "--") = lit "--" := (hf.hyphens _).mpr rfl
      rw [← stop_map, ← enter_map, hhyphens, ← hadvance]
      refine (@Scanner.Step.hyphens ν _ table ordering (s.map f) (rest.map f)
        hchars ?_).next_eq
      rw [hadvance, Scanner.map, hrest, List.map_cons, hhyphens]
  | @nonOption a rest hchars hrest hne hnot =>
      rw [← hadvance]
      refine (@Scanner.Step.nonOption ν _ table ordering (s.map f) (f a)
        (rest.map f) hchars ?_ ((hf.hyphens a).not.mpr hne)
        ((hf.nonOption a).trans hnot)).next_eq
      rw [hadvance, Scanner.map, hrest, List.map_cons]

theorem KeepsHyphens.ends_rewrite (hf : KeepsHyphens f) {s t : Scanner}
    (h : Ends table ordering s t) :
    Ends table ordering (s.rewrite f) (t.rewrite f) := by
  cases h with
  | noHyphen hnot =>
      have hchars : s.nextchar = [] := by
        by_contra hne
        rw [atHyphen_of_nextchar hne] at hnot
        exact Bool.false_ne_true hnot.symm
      rw [rewrite_of_nil hchars]
      exact .noHyphen (by rw [hf.atHyphen_map, hnot])
  | returned hhyphen hnext =>
      have hstep := Scanner.step_of_next_eq hnext
      obtain ⟨hs, ht⟩ := hstep.nextchar_of_none
      rw [rewrite_of_nil hs, rewrite_of_nil ht]
      exact .returned (by rw [hf.atHyphen_map, hhyphen])
        (hf.next_map_none hstep)

/-- The scan of changed arguments, if every option of an argument that changes
is replaced or covered. -/
theorem KeepsHyphens.scan_rewrite (hf : KeepsHyphens f) (hnil : f [] = [])
    {cover : ν} {argv : List Bytes} {m n : ℕ}
    (hm : (Scanner.start argv).size ≤ m)
    (hn : (Scanner.start (argv.map f)).size ≤ n)
    (hcalls : ∀ call ∈ (scan table ordering m (.start argv)).1,
      call.Kept f g ∨ call.Replaced f g table ∨ call.Covered f table cover) :
    ∃ others, Rewrites f g table cover
        (scan table ordering m (.start argv)).1 others ∧
      scan table ordering n (.start (argv.map f)) =
        (others, (scan table ordering m (.start argv)).2.rewrite f) := by
  obtain ⟨t, hscans, hends⟩ := @scans_scan ν _ table ordering m _ hm
  have hstart : (Scanner.start argv).Coherent table := fun hne => absurd rfl hne
  obtain ⟨-, others, hrewrites, hothers⟩ :=
    hf.scans_rewrite hscans hstart hcalls
  rw [rewrite_of_nil rfl, ← start_map f hnil] at hothers
  exact ⟨others, hrewrites, hothers.scan_eq (hf.ends_rewrite hends) hn⟩

end GetoptLong

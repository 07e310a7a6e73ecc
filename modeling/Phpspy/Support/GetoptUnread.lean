import Phpspy.Support.GetoptLong

/-!
# Arguments that have not been read

What is scanned does not depend on the arguments that come later.  A run of
calls that ends in front of some arguments, with nothing skipped, is a run for
any other arguments in their place.
-/

namespace GetoptLong

open ByteText

variable {ν : Type*} {ordering : Ordering}

/-- The same state with other arguments to come. -/
def Scanner.withRest (s : Scanner) (rest : List Bytes) : Scanner :=
  { s with rest := rest }

/-! ## Arguments are taken from the front -/

theorem finish_rest_suffix (s : Scanner) (d : Decoded ν) :
    (s.finish d).2.rest <:+ s.rest ∧ (s.finish d).2.skipped = s.skipped := by
  cases d with
  | gives val attached nextchar => exact ⟨List.suffix_rfl, rfl⟩
  | needs val =>
      rw [Scanner.finish]
      split
      · exact ⟨List.suffix_rfl, rfl⟩
      · next v rest hrest =>
          rw [hrest]
          exact ⟨List.suffix_cons v rest, rfl⟩

theorem advance_rest_suffix (s : Scanner) :
    (s.advance ordering).rest <:+ s.rest ∧
      ((s.advance ordering).skipped = [] → s.skipped = []) := by
  cases ordering with
  | requireOrder => exact ⟨List.suffix_rfl, fun h => h⟩
  | permute =>
      exact ⟨List.dropWhile_suffix _, fun h => (List.append_eq_nil_iff.mp h).1⟩

theorem advance_of_skipped {s : Scanner}
    (hskipped : (s.advance ordering).skipped = []) :
    (s.advance ordering).rest = s.rest := by
  cases ordering with
  | requireOrder => rfl
  | permute =>
      have hnone : s.rest.takeWhile isNonOption = [] :=
        (List.append_eq_nil_iff.mp hskipped).2
      have happend := @List.takeWhile_append_dropWhile _ isNonOption s.rest
      rw [hnone, List.nil_append] at happend
      exact happend

theorem advance_withRest {s : Scanner} {a : Bytes} {rest rest' : List Bytes}
    (hrest : s.rest = a :: rest) (hoption : isNonOption a = false) :
    (s.withRest (a :: rest')).advance ordering =
      (s.advance ordering).withRest (a :: rest') := by
  cases ordering with
  | requireOrder => rfl
  | permute =>
      simp only [Scanner.advance, Scanner.withRest, hrest,
        List.takeWhile_cons, hoption, List.dropWhile_cons, Bool.false_eq_true,
        if_false]

section Unread

variable [DecidableEq ν] {table : Table ν}

theorem next_rest_suffix {s t : Scanner} {call : Call ν}
    (hnext : s.next table ordering = (some call, t)) :
    t.rest <:+ s.rest ∧ (t.skipped = [] → s.skipped = []) := by
  have hstep := Scanner.step_of_next_eq hnext
  generalize hcall : some call = c at hstep
  cases hstep with
  | char hchars =>
      obtain ⟨hrest, hskipped⟩ := finish_rest_suffix s (table.decodeShort _ _)
      exact ⟨hrest, fun h => hskipped.symm.trans h⟩
  | last hchars hrest => cases hcall
  | hyphens hchars hrest => cases hcall
  | nonOption hchars hrest hne hnot => cases hcall
  | @element a rest hchars hrest hne hoption =>
      obtain ⟨hsuffix, hskipped⟩ :=
        finish_rest_suffix ((s.advance ordering).enter a rest) (table.decode a)
      obtain ⟨hadvance, hkept⟩ := @advance_rest_suffix ordering s
      rw [hrest] at hadvance
      exact ⟨(hsuffix.trans (List.suffix_cons a rest)).trans hadvance,
        fun h => hkept (hskipped.symm.trans h)⟩

/-! ## Other arguments to come -/

omit [DecidableEq ν] in
theorem finish_withRest {tail : List Bytes} (htail : tail ≠ [])
    (tail' : List Bytes) {s : Scanner} {d : Decoded ν} {r : List Bytes}
    (hrest : s.rest = r ++ tail) (hsuffix : tail <:+ (s.finish d).2.rest) :
    ∃ r', (s.finish d).2.rest = r' ++ tail ∧
      (s.withRest (r ++ tail')).finish d =
        ((s.finish d).1, (s.finish d).2.withRest (r' ++ tail')) := by
  cases d with
  | gives val attached nextchar => exact ⟨r, hrest, rfl⟩
  | needs val =>
      cases r with
      | nil =>
          -- the argument would be the first one of `tail`
          obtain ⟨v, rest, rfl⟩ := List.exists_cons_of_ne_nil htail
          have hfinish : (s.finish (.needs val)).2.rest = rest := by
            rw [Scanner.finish, hrest]
            rfl
          rw [hfinish] at hsuffix
          exact absurd hsuffix.length_le (Nat.not_succ_le_self _)
      | cons v r =>
          have hfinish : s.finish (.needs val) =
              (⟨s.current, some val, .separate v⟩,
                { s with
                  opts := s.opts ++ [v]
                  rest := r ++ tail
                  nextchar := [] }) := by
            rw [Scanner.finish, hrest]
            rfl
          rw [hfinish]
          exact ⟨r, rfl, rfl⟩

theorem next_withRest {tail : List Bytes} (htail : tail ≠ [])
    (tail' : List Bytes) {s t : Scanner} {call : Call ν} {r : List Bytes}
    (hnext : s.next table ordering = (some call, t))
    (hhyphen : s.atHyphen = true) (hrest : s.rest = r ++ tail)
    (hsuffix : tail <:+ t.rest) (hskipped : t.skipped = []) :
    (s.withRest (r ++ tail')).atHyphen = true ∧
      ∃ r', t.rest = r' ++ tail ∧
        (s.withRest (r ++ tail')).next table ordering =
          (some call, t.withRest (r' ++ tail')) := by
  have hstep := Scanner.step_of_next_eq hnext
  generalize hcall : some call = c at hstep
  cases hstep with
  | last hchars hnone => cases hcall
  | hyphens hchars hnone => cases hcall
  | nonOption hchars hnone hne hnot => cases hcall
  | @char c more hchars =>
      obtain ⟨r', hr', hfinish⟩ := finish_withRest htail tail' hrest hsuffix
      obtain rfl := Option.some.inj hcall
      refine ⟨by simp [Scanner.atHyphen, Scanner.withRest, hchars], r', hr', ?_⟩
      have hchars' : (s.withRest (r ++ tail')).nextchar = c :: more := hchars
      rw [Scanner.next, hchars']
      dsimp only
      rw [hfinish]
  | @element a rest hchars hfirst hne hoption =>
      obtain ⟨hshorter, hsame⟩ :=
        finish_rest_suffix ((s.advance ordering).enter a rest) (table.decode a)
      have hadvance := advance_of_skipped (hsame.symm.trans hskipped)
      rw [hfirst, hrest] at hadvance
      cases r with
      | nil =>
          -- the option would be the first one of `tail`
          have hlong := (hsuffix.trans hshorter).length_le
          rw [List.nil_append] at hadvance
          rw [← hadvance] at hlong
          exact absurd hlong (Nat.not_succ_le_self _)
      | cons b r =>
          obtain ⟨rfl, rfl⟩ := List.cons.inj hadvance
          obtain ⟨r', hr', hfinish⟩ := @finish_withRest ν tail htail tail'
            ((s.advance ordering).enter a (r ++ tail)) (table.decode a) r rfl
            hsuffix
          obtain rfl := Option.some.inj hcall
          have hhead : a.head? = some 45 := by
            rw [Scanner.atHyphen, hchars, hrest] at hhyphen
            simpa using hhyphen
          refine ⟨by simp [Scanner.atHyphen, Scanner.withRest, hhead],
            r', hr', ?_⟩
          have hmove : (s.withRest (a :: (r ++ tail'))).advance ordering =
              (s.advance ordering).withRest (a :: (r ++ tail')) :=
            advance_withRest hrest hoption
          have hchars' :
              (s.withRest (a :: (r ++ tail'))).nextchar = [] := hchars
          have hfirst' : ((s.withRest (a :: (r ++ tail'))).advance
              ordering).rest = a :: (r ++ tail') := by
            rw [hmove]
            rfl
          have hstep := @Scanner.Step.element ν _ table ordering _ a _ hchars'
            hfirst' hne hoption
          rw [hmove] at hstep
          rw [List.cons_append, hstep.next_eq]
          exact congrArg (fun p => (some p.1, p.2)) hfinish

/-- A run of calls does not depend on the arguments that it does not reach. -/
theorem Scans.withRest {tail : List Bytes} (htail : tail ≠ [])
    (tail' : List Bytes) {s t : Scanner} {calls : List (Call ν)}
    {r : List Bytes} (h : Scans table ordering s calls t)
    (hrest : s.rest = r ++ tail) (hsuffix : tail <:+ t.rest)
    (hskipped : t.skipped = []) :
    ∃ r', t.rest = r' ++ tail ∧
      Scans table ordering (s.withRest (r ++ tail')) calls
        (t.withRest (r' ++ tail')) := by
  induction h with
  | refl => exact ⟨r, hrest, .refl⟩
  | tail _ hhyphen hnext ih =>
      obtain ⟨hshorter, hkept⟩ := next_rest_suffix hnext
      obtain ⟨r₁, hr₁, hscans⟩ :=
        ih (hsuffix.trans hshorter) (hkept hskipped)
      obtain ⟨hhyphen', r₂, hr₂, hnext'⟩ := next_withRest htail tail' hnext
        hhyphen hr₁ hsuffix hskipped
      exact ⟨r₂, hr₂, hscans.tail hhyphen' hnext'⟩

theorem ends_withRest_hyphens {s : Scanner} (hchars : s.nextchar = [])
    (hskipped : s.skipped = []) (rest : List Bytes) :
    ∃ t, Ends table ordering (s.withRest (lit "--" :: rest)) t ∧
      t.rest = rest := by
  have hfirst : ((s.withRest (lit "--" :: rest)).advance ordering).rest =
      lit "--" :: rest := by
    cases ordering with
    | requireOrder => rfl
    | permute => rfl
  have hchars' : (s.withRest (lit "--" :: rest)).nextchar = [] := hchars
  refine ⟨_, .returned ?_ (Scanner.Step.hyphens hchars' hfirst).next_eq, ?_⟩
  · simp [Scanner.atHyphen, Scanner.withRest, lit]
  · have hnone : ((s.withRest (lit "--" :: rest)).advance
        ordering).skipped = [] := by
      cases ordering with
      | requireOrder => exact hskipped
      | permute => exact (List.append_nil _).trans hskipped
    rw [Scanner.stop, Scanner.enter]
    dsimp only
    rw [hnone, List.nil_append]

end Unread

end GetoptLong

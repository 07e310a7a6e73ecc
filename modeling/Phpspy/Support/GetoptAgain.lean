import Phpspy.Support.GetoptLong

/-!
# Scanning the arguments again

`getopt_long` may leave the arguments in another order than they were given in.
A program that is started with the arguments as they were left finds the same
options in the same order, and leaves the same arguments behind them.
-/

namespace GetoptLong

open ByteText

variable {ν : Type*} [DecidableEq ν] {table : Table ν} {ordering : Ordering}

/-! ## Skipped arguments -/

/-- Arguments that are skipped together: the first of them is a hyphen. -/
structure Skippable (args : List Bytes) : Prop where
  nonOption : ∀ a ∈ args, isNonOption a = true
  hyphen : ∀ a ∈ args.head?, a.head? = some 45

theorem skippable_nil : Skippable [] where
  nonOption := by simp
  hyphen := by simp

theorem hyphen_of_isNonOption {a : Bytes} (h : isNonOption a = false) :
    a.head? = some 45 := by
  simp only [isNonOption, Bool.or_eq_false_iff, decide_eq_false_iff_not,
    not_not] at h
  exact h.1

theorem Skippable.append_takeWhile {s : Scanner} (h : Skippable s.skipped)
    (hhyphen : s.atHyphen = true) (hchars : s.nextchar = []) :
    Skippable (s.skipped ++ s.rest.takeWhile isNonOption) := by
  refine ⟨fun a ha => ?_, fun a ha => ?_⟩
  · rcases List.mem_append.mp ha with hold | hnew
    · exact h.nonOption a hold
    · exact List.mem_takeWhile_imp hnew
  · rw [List.head?_append] at ha
    cases hskipped : s.skipped.head? with
    | some b =>
        rw [hskipped] at ha
        obtain rfl : b = a := Option.some.inj ha
        exact h.hyphen b hskipped
    | none =>
        rw [hskipped, Option.none_or] at ha
        cases hrest : s.rest with
        | nil =>
            rw [hrest] at ha
            exact absurd ha (by simp)
        | cons b rest =>
            have hb : b.head? = some 45 := by
              simpa [Scanner.atHyphen, hchars, hrest] using hhyphen
            rw [hrest, List.takeWhile_cons] at ha
            split at ha
            · obtain rfl : b = a := Option.some.inj ha
              exact hb
            · exact absurd ha (by simp)

/-- The same options, with other arguments that were skipped and others to
come. -/
def Scanner.setArgs (s : Scanner) (skipped rest : List Bytes) : Scanner :=
  { s with skipped := skipped, rest := rest }

theorem Skippable.advance_eq {args : List Bytes} (h : Skippable args)
    (s : Scanner) {rest : List Bytes}
    (hrest : ∀ a ∈ rest.head?, isNonOption a = false) :
    (s.setArgs [] (args ++ rest)).advance .permute =
      (s.advance .permute).setArgs args rest := by
  have htake : rest.takeWhile isNonOption = [] := by
    cases rest with
    | nil => rfl
    | cons a rest => rw [List.takeWhile_cons, hrest a rfl]; rfl
  have hdrop : rest.dropWhile isNonOption = rest := by
    cases rest with
    | nil => rfl
    | cons a rest => rw [List.dropWhile_cons, hrest a rfl]; rfl
  simp only [Scanner.advance, Scanner.setArgs, List.nil_append,
    List.takeWhile_append_of_pos h.nonOption,
    List.dropWhile_append_of_pos h.nonOption, htake, hdrop, List.append_nil]

theorem Skippable.atHyphen {args : List Bytes} (h : Skippable args)
    (s : Scanner) {rest : List Bytes} (hne : args ++ rest ≠ [])
    (hrest : ∀ a ∈ rest.head?, a.head? = some 45) :
    (s.setArgs [] (args ++ rest)).atHyphen = true := by
  have hhead : (args ++ rest).head?.any (·.head? = some 45) = true := by
    cases args with
    | cons a args => simpa using h.hyphen a rfl
    | nil =>
        cases rest with
        | nil => exact absurd rfl hne
        | cons a rest => simpa using hrest a rfl
  simp only [Scanner.atHyphen, Scanner.setArgs, hhead, Bool.or_true]

omit [DecidableEq ν] in
/-- What an option takes from the arguments that follow it does not depend on
the others. -/
theorem finish_taken (s : Scanner) (d : Decoded ν) :
    ∃ taken, s.rest = taken ++ (s.finish d).2.rest ∧
      (s.finish d).2.done = s.done ∧
      (s.finish d).2.skipped = s.skipped ∧
      (s.finish d).2.opts = s.opts ++ taken ∧
      ∀ skipped rest, ((s.finish d).2.rest = [] → rest = []) →
        (s.setArgs skipped (taken ++ rest)).finish d =
          ((s.finish d).1, (s.finish d).2.setArgs skipped rest) := by
  cases d with
  | gives val attached nextchar =>
      refine ⟨[], rfl, rfl, rfl, (List.append_nil _).symm, ?_⟩
      intro skipped rest _
      rfl
  | needs val =>
      cases hrest : s.rest with
      | nil =>
          have hfinish : s.finish (.needs val) =
              (⟨s.current, none, .absent⟩, { s with nextchar := [] }) := by
            rw [Scanner.finish, hrest]
          rw [hfinish]
          refine ⟨[], hrest.symm, rfl, rfl, (List.append_nil _).symm, ?_⟩
          intro skipped rest hnil
          rw [hnil hrest]
          rfl
      | cons v rest =>
          have hfinish : s.finish (.needs val) =
              (⟨s.current, some val, .separate v⟩,
                { s with opts := s.opts ++ [v], rest := rest,
                         nextchar := [] }) := by
            rw [Scanner.finish, hrest]
          rw [hfinish]
          exact ⟨[v], rfl, rfl, rfl, rfl, fun _ _ _ => rfl⟩

/-! ## The options are found again -/

variable (table) in
/-- The options that were found are found again, without the skipped arguments
and with them, whatever follows. -/
structure Again (calls : List (Call ν)) (s : Scanner) : Prop where
  skippable : Skippable s.skipped
  without : ∀ rest, (s.rest = [] → rest = []) →
    Scans table .permute (.start (s.done ++ s.opts ++ rest)) calls
      (s.setArgs [] rest)
  within : ∀ rest, (s.rest = [] → rest = []) →
    Scans table .permute (.start (s.done ++ s.skipped ++ s.opts ++ rest)) calls
      (s.setArgs s.skipped rest)

theorem again_start (argv : List Bytes) :
    Again table [] (Scanner.start argv) := by
  have hstart (rest : List Bytes)
      (hrest : (Scanner.start argv).rest = [] → rest = []) :
      Scans table .permute (.start (argv.take 1 ++ rest)) []
        ((Scanner.start argv).setArgs [] rest) := by
    have hsame : Scanner.start (argv.take 1 ++ rest) =
        (Scanner.start argv).setArgs [] rest := by
      cases argv with
      | nil => rw [hrest rfl]; rfl
      | cons a argv => rfl
    rw [hsame]
    exact .refl
  refine ⟨skippable_nil, fun rest hrest => ?_, fun rest hrest => ?_⟩
  · have hargv : (Scanner.start argv).done ++ (Scanner.start argv).opts =
        argv.take 1 := List.append_nil _
    rw [hargv]
    exact hstart rest hrest
  · have hargv : (Scanner.start argv).done ++ (Scanner.start argv).skipped ++
        (Scanner.start argv).opts = argv.take 1 := by
      simp only [Scanner.start, List.append_nil]
    rw [hargv]
    exact hstart rest hrest

theorem Again.char {calls : List (Call ν)} {s : Scanner}
    (h : Again table calls s) {c : UInt8} {more : Bytes}
    (hchars : s.nextchar = c :: more) :
    Again table (calls ++ [(s.finish (table.decodeShort c more)).1])
      (s.finish (table.decodeShort c more)).2 := by
  obtain ⟨taken, hrest, hdone, hskipped, hopts, hfinish⟩ :=
    finish_taken s (table.decodeShort c more)
  generalize s.finish (table.decodeShort c more) = r at *
  have hnil {rest : List Bytes} (hr : r.2.rest = [] → rest = [])
      (hs : s.rest = []) : taken ++ rest = [] := by
    rw [hrest, List.append_eq_nil_iff] at hs
    rw [hs.1, hr hs.2]
    rfl
  have hhyphen (skipped rest : List Bytes) :
      (s.setArgs skipped rest).atHyphen = true := by
    simp [Scanner.atHyphen, Scanner.setArgs, hchars]
  have hnext (skipped rest : List Bytes) (hr : r.2.rest = [] → rest = []) :
      (s.setArgs skipped (taken ++ rest)).next table .permute =
        (some r.1, r.2.setArgs skipped rest) := by
    have hstep := (@Scanner.Step.char ν _ table .permute
      (s.setArgs skipped (taken ++ rest)) c more hchars).next_eq
    rw [hfinish skipped rest hr] at hstep
    exact hstep
  refine ⟨?_, fun rest hr => ?_, fun rest hr => ?_⟩
  · rw [hskipped]
    exact h.skippable
  · have hargv : r.2.done ++ r.2.opts ++ rest =
        s.done ++ s.opts ++ (taken ++ rest) := by
      simp only [hdone, hopts, List.append_assoc]
    rw [hargv]
    exact (h.without _ (hnil hr)).tail (hhyphen _ _) (hnext [] rest hr)
  · have hargv : r.2.done ++ r.2.skipped ++ r.2.opts ++ rest =
        s.done ++ s.skipped ++ s.opts ++ (taken ++ rest) := by
      simp only [hdone, hskipped, hopts, List.append_assoc]
    rw [hargv, hskipped]
    exact (h.within _ (hnil hr)).tail (hhyphen _ _) (hnext _ rest hr)

theorem Again.scans_element {calls : List (Call ν)} {s : Scanner}
    (h : Again table calls s) (hchars : s.nextchar = []) (hne : s.rest ≠ [])
    {args : List Bytes} (hargs : Skippable args) {a : Bytes}
    (hhyphens : a ≠ lit "--") (hoption : isNonOption a = false)
    (rest : List Bytes) :
    Scans table .permute (.start (s.done ++ s.opts ++ (args ++ a :: rest)))
      (calls ++ [((((s.advance .permute).setArgs args (a :: rest)).enter a
        rest).finish (table.decode a)).1])
      ((((s.advance .permute).setArgs args (a :: rest)).enter a rest).finish
        (table.decode a)).2 := by
  have hadvance : (s.setArgs [] (args ++ a :: rest)).advance .permute =
      (s.advance .permute).setArgs args (a :: rest) := by
    refine hargs.advance_eq s ?_
    rintro b ⟨⟩
    exact hoption
  have hhyphen : (s.setArgs [] (args ++ a :: rest)).atHyphen = true := by
    refine hargs.atHyphen s (by simp) ?_
    rintro b ⟨⟩
    exact hyphen_of_isNonOption hoption
  have hrest : ((s.setArgs [] (args ++ a :: rest)).advance .permute).rest =
      a :: rest := by
    rw [hadvance]
    rfl
  have hnext := (@Scanner.Step.element ν _ table .permute
    (s.setArgs [] (args ++ a :: rest)) a rest hchars hrest hhyphens
    hoption).next_eq
  rw [hadvance] at hnext
  exact (h.without _ fun hnil => absurd hnil hne).tail hhyphen hnext

theorem rest_ne_nil_of_atHyphen {s : Scanner} (hhyphen : s.atHyphen = true)
    (hchars : s.nextchar = []) : s.rest ≠ [] := by
  intro hrest
  rw [Scanner.atHyphen, hchars, hrest] at hhyphen
  exact Bool.false_ne_true hhyphen

theorem Again.element {calls : List (Call ν)} {s : Scanner}
    (h : Again table calls s) (hhyphen : s.atHyphen = true)
    (hchars : s.nextchar = []) {a : Bytes} (hhyphens : a ≠ lit "--")
    (hoption : isNonOption a = false) (rest : List Bytes) :
    Again table
      (calls ++ [(((s.advance .permute).enter a rest).finish
        (table.decode a)).1])
      (((s.advance .permute).enter a rest).finish (table.decode a)).2 := by
  have hne := rest_ne_nil_of_atHyphen hhyphen hchars
  have hall := h.skippable.append_takeWhile hhyphen hchars
  obtain ⟨taken, -, hdone, hskipped, hopts, hfinish⟩ :=
    finish_taken ((s.advance .permute).enter a rest) (table.decode a)
  generalize ((s.advance .permute).enter a rest).finish (table.decode a) = r
    at *
  have hscans {args : List Bytes} (hargs : Skippable args)
      {rest' : List Bytes} (hr : r.2.rest = [] → rest' = []) :
      Scans table .permute
        (.start (s.done ++ s.opts ++ (args ++ a :: (taken ++ rest'))))
        (calls ++ [r.1]) (r.2.setArgs args rest') := by
    have hlast := h.scans_element hchars hne hargs hhyphens hoption
      (taken ++ rest')
    have henter : ((s.advance .permute).setArgs args
        (a :: (taken ++ rest'))).enter a (taken ++ rest') =
          ((s.advance .permute).enter a rest).setArgs args
            (taken ++ rest') := rfl
    rw [henter, hfinish args rest' hr] at hlast
    exact hlast
  refine ⟨?_, fun rest' hr => ?_, fun rest' hr => ?_⟩
  · rw [hskipped]
    exact hall
  · have hargv : r.2.done ++ r.2.opts ++ rest' =
        s.done ++ s.opts ++ ([] ++ a :: (taken ++ rest')) := by
      simp only [hdone, hopts, Scanner.enter, Scanner.advance,
        List.append_assoc, List.nil_append, List.cons_append]
    rw [hargv]
    exact hscans skippable_nil hr
  · have hargv : r.2.done ++ r.2.skipped ++ r.2.opts ++ rest' =
        s.done ++ s.opts ++ (r.2.skipped ++ a :: (taken ++ rest')) := by
      simp only [hdone, hopts, Scanner.enter, Scanner.advance,
        List.append_assoc, List.nil_append, List.cons_append]
    have hargs : Skippable r.2.skipped := by
      rw [hskipped]
      exact hall
    rw [hargv]
    exact hscans hargs hr

theorem Scans.again {argv : List Bytes} {calls : List (Call ν)}
    {s : Scanner} (h : Scans table .permute (.start argv) calls s) :
    Again table calls s := by
  induction h with
  | refl => exact again_start argv
  | tail _ hhyphen hnext ih =>
      cases Scanner.step_of_next_eq hnext with
      | char hchars => exact ih.char hchars
      | element hchars hrest hhyphens hoption =>
          exact ih.element hhyphen hchars hhyphens hoption _

theorem Again.exists_ends_last {calls : List (Call ν)} {s : Scanner}
    (h : Again table calls s) (hhyphen : s.atHyphen = true)
    (hchars : s.nextchar = []) (hrest : (s.advance .permute).rest = []) :
    ∃ u, Scans table .permute (.start (s.advance .permute).stop.argv) calls u ∧
      Ends table .permute u (s.advance .permute).stop := by
  have hne := rest_ne_nil_of_atHyphen hhyphen hchars
  have hall := h.skippable.append_takeWhile hhyphen hchars
  have hsplit : s.rest.takeWhile isNonOption = s.rest := by
    have happend := @List.takeWhile_append_dropWhile _ isNonOption s.rest
    change s.rest.dropWhile isNonOption = [] at hrest
    rwa [hrest, List.append_nil] at happend
  have hself : (s.advance .permute).setArgs
      (s.skipped ++ s.rest.takeWhile isNonOption) [] =
        s.advance .permute := by
    rw [← hrest]
    rfl
  generalize hargs : s.skipped ++ s.rest.takeWhile isNonOption = args at *
  have hargsne : args ++ [] ≠ [] := by
    rw [← hargs, hsplit]
    simp [hne]
  have hadvance : (s.setArgs [] (args ++ [])).advance .permute =
      s.advance .permute := by
    rw [← hself]
    exact hall.advance_eq s (by simp)
  have hnext := (@Scanner.Step.last ν _ table .permute
    (s.setArgs [] (args ++ [])) hchars (by rw [hadvance, hrest])).next_eq
  rw [hadvance] at hnext
  have hargv : (s.advance .permute).stop.argv =
      s.done ++ s.opts ++ (args ++ []) := by
    rw [← hself]
    simp only [Scanner.argv, Scanner.stop, Scanner.setArgs, Scanner.advance,
      List.append_nil, List.append_assoc]
  rw [hargv]
  exact ⟨_, h.without _ fun hnil => absurd hnil hne,
    .returned (hall.atHyphen s hargsne (by simp)) hnext⟩

theorem Again.exists_ends_hyphens {calls : List (Call ν)} {s : Scanner}
    (h : Again table calls s) (hhyphen : s.atHyphen = true)
    (hchars : s.nextchar = []) (rest : List Bytes) :
    ∃ u, Scans table .permute
        (.start ((s.advance .permute).enter (lit "--") rest).stop.argv)
        calls u ∧
      Ends table .permute u
        ((s.advance .permute).enter (lit "--") rest).stop := by
  have hne := rest_ne_nil_of_atHyphen hhyphen hchars
  generalize hmore : (s.advance .permute).skipped ++ rest = more
  have hadvance : (s.setArgs [] ([] ++ lit "--" :: more)).advance .permute =
      (s.advance .permute).setArgs [] (lit "--" :: more) := by
    refine skippable_nil.advance_eq s ?_
    rintro b ⟨⟩
    rfl
  have hhyphen' : (s.setArgs [] ([] ++ lit "--" :: more)).atHyphen = true := by
    refine skippable_nil.atHyphen s (List.cons_ne_nil _ _) ?_
    rintro b ⟨⟩
    rfl
  have hnext := (@Scanner.Step.hyphens ν _ table .permute
    (s.setArgs [] ([] ++ lit "--" :: more)) more hchars
    (by rw [hadvance]; rfl)).next_eq
  have hstop : (((s.advance .permute).setArgs [] (lit "--" :: more)).enter
      (lit "--") more).stop =
        ((s.advance .permute).enter (lit "--") rest).stop := by
    rw [← hmore]
    rfl
  rw [hadvance, hstop] at hnext
  have hargv : ((s.advance .permute).enter (lit "--") rest).stop.argv =
      s.done ++ s.opts ++ ([] ++ lit "--" :: more) := by
    rw [← hstop]
    simp only [Scanner.argv, Scanner.stop, Scanner.enter, Scanner.setArgs,
      Scanner.advance, List.append_nil, List.append_assoc, List.nil_append,
      List.singleton_append]
  rw [hargv]
  exact ⟨_, h.without _ fun hnil => absurd hnil hne, .returned hhyphen' hnext⟩

theorem Again.exists_ends {calls : List (Call ν)} {s t : Scanner}
    (h : Again table calls s) (hends : Ends table .permute s t) :
    ∃ u, Scans table .permute (.start t.argv) calls u ∧
      Ends table .permute u t := by
  cases hends with
  | noHyphen hnot => exact ⟨s, h.within s.rest id, .noHyphen hnot⟩
  | returned hhyphen hnext =>
      cases Scanner.step_of_next_eq hnext with
      | last hchars hrest => exact h.exists_ends_last hhyphen hchars hrest
      | hyphens hchars hrest => exact h.exists_ends_hyphens hhyphen hchars _
      | nonOption hchars hrest hne hnot =>
          -- what is skipped ends at an option
          have hhead := List.head?_dropWhile_not isNonOption s.rest
          change s.rest.dropWhile isNonOption = _ at hrest
          rw [hrest] at hhead
          exact absurd (hhead.symm.trans hnot) Bool.false_ne_true

/-! ## Arguments that are not moved -/

theorem next_argv_requireOrder {s : Scanner} (h : s.skipped = []) :
    (s.next table .requireOrder).2.argv = s.argv ∧
      (s.next table .requireOrder).2.skipped = [] := by
  have hstop (s : Scanner) (h : s.skipped = []) : s.stop.argv = s.argv := by
    simp only [Scanner.argv, Scanner.stop, h, List.append_nil,
      List.nil_append]
  generalize hnext : s.next table .requireOrder = r
  obtain ⟨call, t⟩ := r
  cases Scanner.step_of_next_eq hnext with
  | @char c more hchars =>
      obtain ⟨-, -, -, hskipped, -⟩ :=
        finish_taken s (table.decodeShort c more)
      exact ⟨argv_finish _ _, hskipped.trans h⟩
  | last hchars hrest => exact ⟨hstop s h, rfl⟩
  | @hyphens rest hchars hrest =>
      have hargv := hstop ((s.advance .requireOrder).enter (lit "--") rest) h
      exact ⟨hargv.trans (argv_enter hrest), rfl⟩
  | nonOption hchars hrest => exact ⟨rfl, h⟩
  | @element a rest hchars hrest =>
      obtain ⟨-, -, -, hskipped, -⟩ :=
        finish_taken ((s.advance .requireOrder).enter a rest) (table.decode a)
      exact ⟨(argv_finish _ _).trans (argv_enter hrest), hskipped.trans h⟩

theorem scan_argv_requireOrder (fuel : ℕ) {s : Scanner}
    (h : s.skipped = []) :
    (scan table .requireOrder fuel s).2.argv = s.argv := by
  induction fuel generalizing s with
  | zero => rfl
  | succ fuel ih =>
      rw [scan]
      split
      · have hnext := @next_argv_requireOrder ν _ table s h
        split
        · next t heq =>
            rw [heq] at hnext
            exact hnext.1
        · next call t heq =>
            rw [heq] at hnext
            exact (ih hnext.2).trans hnext.1
      · rfl

/-! ## The second scan -/

theorem argv_start (argv : List Bytes) : (Scanner.start argv).argv = argv := by
  simp only [Scanner.start, Scanner.argv, List.append_nil,
    List.take_append_drop]

/-- The arguments as they are left give the same options and are left as they
are. -/
theorem scan_again {argv : List Bytes} {m n : ℕ}
    (hm : (Scanner.start argv).size ≤ m)
    (hn : (Scanner.start
      (scan table ordering m (.start argv)).2.argv).size ≤ n) :
    scan table ordering n
        (.start (scan table ordering m (.start argv)).2.argv) =
      scan table ordering m (.start argv) := by
  cases ordering with
  | permute =>
      obtain ⟨s, hscans, hends⟩ := @scans_scan ν _ table .permute _ _ hm
      obtain ⟨u, hagain, hsame⟩ := hscans.again.exists_ends hends
      exact hagain.scan_eq hsame hn
  | requireOrder =>
      have hargv : (scan table .requireOrder m (.start argv)).2.argv =
          argv := by
        rw [scan_argv_requireOrder m rfl, argv_start]
      rw [hargv] at hn ⊢
      exact scan_eq_of_size_le hn hm

end GetoptLong

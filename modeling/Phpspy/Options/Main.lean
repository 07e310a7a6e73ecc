import Phpspy.Options.Parse
import Phpspy.Support.GetoptUnread

/-!
# The command behind the options

`main` looks at the option values and at what `getopt_long` left, and picks one
of the modes.  The loop of `parse_opts` stops at the first argument without a
hyphen, so that two hyphens in front of the command can be left out.
-/

namespace Phpspy
namespace Options

open ByteText GetoptLong

/-- What `main` goes on with. -/
inductive Mode where
  | top
  | pid (pid : ℤ)
  | pgrep (args : Bytes)
  | fork (command : List Bytes)
deriving DecidableEq, Repr

/-- The choice that `main` makes, with the usage if there is nothing to do. -/
def chooseMode (o : Values) (command : List Bytes) : Except Ended Mode :=
  if o.topMode then .ok .top
  else if o.pid ≠ -1 then .ok (.pid o.pid)
  else
    match o.pgrepArgs with
    | some args => .ok (.pgrep args)
    | none =>
        if command = [] then .error (usage o .stderr 1)
        else .ok (.fork command)

section Main

variable (env : Environment) (ordering : GetoptLong.Ordering)

/-- `main`, up to the mode that it runs. -/
def main (argv : List Bytes) : Except Ended (Values × Mode) :=
  (parseOpts env ordering argv).bind fun (o, s) =>
    (chooseMode o s.rest).map fun mode => (o, mode)

/-- Some arguments are complete options: with a command behind them, the options
end exactly in front of it, and nothing has been skipped. -/
def CompleteOptions (program : Bytes) (opts : List Bytes) : Prop :=
  ∃ command calls s, command ≠ [] ∧
    Scans table ordering (.start (program :: opts ++ command)) calls s ∧
      s.rest = command ∧ s.nextchar = [] ∧ s.skipped = []

end Main

variable {env : Environment} {ordering : GetoptLong.Ordering}

theorem main_eq {argv : List Bytes} {calls : List (Call Opt)} {s t : Scanner}
    (hscans : Scans table ordering (.start argv) calls s)
    (hends : Ends table ordering s t) :
    main env ordering argv =
      (calls.foldlM (handle env) .initial).bind fun o =>
        (chooseMode o t.rest).map fun mode => (o, mode) := by
  have hscan := hscans.scan_eq hends le_rfl
  have hcalls : optionCalls ordering argv = calls := congrArg Prod.fst hscan
  have hleft : scannerLeft ordering argv = t := congrArg Prod.snd hscan
  rw [main, parseOpts_eq, hcalls, hleft]
  cases calls.foldlM (handle env) .initial with
  | error e => rfl
  | ok o => rfl

theorem CompleteOptions.scans {program : Bytes} {opts : List Bytes}
    (h : CompleteOptions ordering program opts) :
    ∃ calls, ∀ rest, ∃ s,
      Scans table ordering (.start (program :: opts ++ rest)) calls s ∧
        s.rest = rest ∧ s.nextchar = [] ∧ s.skipped = [] := by
  obtain ⟨command, calls, s, hcommand, hscans, hrest, hchars, hskipped⟩ := h
  refine ⟨calls, fun rest => ?_⟩
  obtain ⟨r, hr, hother⟩ := hscans.withRest hcommand rest rfl
    (by rw [hrest]) hskipped
  have hnil : r = [] := by
    rw [hrest] at hr
    exact List.self_eq_append_left.mp hr
  subst hnil
  exact ⟨s.withRest rest, hother, rfl, hchars, hskipped⟩

/-- Two hyphens between complete options and a command make no difference: the
values, the mode and the command with its arguments are the same, and so is the
way in which `main` ends if it does not get there. -/
theorem main_hyphens_optional (env : Environment)
    (ordering : GetoptLong.Ordering) (program : Bytes) (opts : List Bytes)
    (hopts : CompleteOptions ordering program opts) (file : Bytes)
    (hfile : file.head? ≠ some 45) (args : List Bytes) :
    main env ordering (program :: opts ++ lit "--" :: file :: args) =
        main env ordering (program :: opts ++ file :: args) ∧
      ∀ o mode, main env ordering (program :: opts ++ file :: args) =
          .ok (o, mode) →
        chooseMode o (file :: args) = .ok mode := by
  obtain ⟨calls, hscans⟩ := hopts.scans
  obtain ⟨s, hplain, hrest, hchars, -⟩ := hscans (file :: args)
  obtain ⟨t, hhyphens, htrest, htchars, htskipped⟩ :=
    hscans (lit "--" :: file :: args)
  have hnone : s.atHyphen = false := by
    rw [Scanner.atHyphen, hchars, hrest]
    simp [hfile]
  obtain ⟨u, hends, hurest⟩ := @ends_withRest_hyphens Opt ordering _ table t
    htchars htskipped (file :: args)
  have hsame : t.withRest (lit "--" :: file :: args) = t := by
    rw [Scanner.withRest, ← htrest]
  rw [hsame] at hends
  rw [main_eq hhyphens hends, main_eq hplain (.noHyphen hnone), hurest, hrest]
  refine ⟨rfl, fun o mode hmain => ?_⟩
  cases hfold : calls.foldlM (handle env) .initial with
  | error e =>
      rw [hfold] at hmain
      cases hmain
  | ok o' =>
      rw [hfold] at hmain
      cases hmode : chooseMode o' (file :: args) with
      | error e =>
          simp only [Except.bind, hmode] at hmain
          cases hmain
      | ok mode' =>
          simp only [Except.bind, hmode] at hmain
          cases hmain
          exact hmode

/-- `phpspy --rate-hz=2 php -r 'sleep(1);'`, with and without two hyphens. -/
theorem main_hyphens_optional_rate :
    CompleteOptions .permute (lit "phpspy") [lit "--rate-hz=2"] ∧
      ∃ o : Values, o.sleepNs = 500000000 ∧
        main ⟨fun _ => true, 0⟩ .permute
            [lit "phpspy", lit "--rate-hz=2", lit "--", lit "php", lit "-r",
              lit "sleep(1);"] =
          .ok (o, .fork [lit "php", lit "-r", lit "sleep(1);"]) := by
  have hopts : CompleteOptions .permute (lit "phpspy")
      [lit "--rate-hz=2"] :=
    ⟨[lit "php"], _, _, by decide, Scans.single rfl rfl, rfl, rfl, rfl⟩
  refine ⟨hopts, { Values.initial with sleepNs := 500000000 }, rfl, ?_⟩
  have hplain := (main_hyphens_optional ⟨fun _ => true, 0⟩ .permute
    (lit "phpspy") [lit "--rate-hz=2"] hopts (lit "php") (by decide)
    [lit "-r", lit "sleep(1);"]).1
  refine hplain.trans ?_
  rfl

end Options
end Phpspy

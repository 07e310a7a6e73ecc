import Mathlib.Algebra.BigOperators.Group.List.Basic
import Phpspy.Support.Bytes

/-!
# Scanning arguments with `getopt_long`

`getopt_long` of the GNU C library returns one option for each call.  Options
with one character may share an argument; an argument of an option is attached
to it or is the next argument of the program; long names may be cut short as
long as they are clear.  Arguments that are not options are skipped, and moved
behind the options when the next option is looked for.

The arguments are kept in four parts, which make up `argv` in this order.  The
argument whose characters are being scanned belongs to the third part.
-/

namespace GetoptLong

open ByteText

/-! ## Tables -/

/-- A `struct option` without a flag. -/
structure LongOption (ν : Type*) where
  name : Bytes
  hasArg : Bool
  val : ν

/-- The options of a program.  A character stands for an option that takes an
argument or does not. -/
structure Table (ν : Type*) where
  short : UInt8 → Option (ν × Bool)
  long : List (LongOption ν)

/-- Whether a character is in an `optstring`, and whether a colon follows it
there. -/
def lookupShort : Bytes → UInt8 → Option Bool
  | [], _ => none
  | b :: optstring, c =>
      if c = 58 ∨ c = 59 then none
      else if b = c then some (optstring.head? = some 58)
      else lookupShort optstring c

/-- What happens to arguments that are not options: they are skipped, or they
end the scan. -/
inductive Ordering where
  | permute
  | requireOrder
deriving DecidableEq, Repr

section Decoding

variable {ν : Type*} [DecidableEq ν]

/-- The option with a long name: the name itself, or a name that begins like
this, if all of these names mean the same. -/
def Table.findLong (table : Table ν) (name : Bytes) : Option (LongOption ν) :=
  match table.long.find? (·.name = name) with
  | some p => some p
  | none =>
      match table.long.filter (name.isPrefixOf ·.name) with
      | [] => none
      | p :: others =>
          if others.all fun q => q.hasArg = p.hasArg && q.val = p.val then some p
          else none

/-- Where the argument of an option is from. -/
inductive Arg where
  | absent
  | attached (text : Bytes)
  | separate (text : Bytes)
deriving DecidableEq, Repr

def Arg.ofAttached : Option Bytes → Arg
  | none => .absent
  | some text => .attached text

/-- `optarg` -/
def Arg.optarg : Arg → Option Bytes
  | .absent => none
  | .attached text => some text
  | .separate text => some text

/-- What characters say by themselves: an option, or nothing that is known, with
an attached argument and the characters that are left, or an option that needs
the next argument. -/
inductive Decoded (ν : Type*) where
  | gives (val : Option ν) (attached : Option Bytes) (nextchar : Bytes)
  | needs (val : ν)

def Table.decodeShort (table : Table ν) (c : UInt8) (more : Bytes) :
    Decoded ν :=
  match table.short c with
  | none => .gives none none more
  | some (val, false) => .gives (some val) none more
  | some (val, true) =>
      if more = [] then .needs val else .gives (some val) (some more) []

def Table.decodeLong (table : Table ν) (text : Bytes) : Decoded ν :=
  let name := text.takeWhile (· ≠ 61)
  match table.findLong name, text.drop name.length with
  | none, _ => .gives none none []
  | some p, [] =>
      if p.hasArg then .needs p.val else .gives (some p.val) none []
  | some p, _ :: value =>
      if p.hasArg then .gives (some p.val) (some value) []
      else .gives none none []

def Table.decode (table : Table ν) : Bytes → Decoded ν
  | _ :: 45 :: text => table.decodeLong text
  | _ :: c :: more => table.decodeShort c more
  | _ => .gives none none []

end Decoding

/-! ## Calls -/

/-- The state between two calls. -/
structure Scanner where
  done : List Bytes
  skipped : List Bytes
  opts : List Bytes
  rest : List Bytes
  /-- the argument that is being scanned -/
  current : Bytes
  /-- what is left of it -/
  nextchar : Bytes
deriving DecidableEq, Repr

def Scanner.argv (s : Scanner) : List Bytes :=
  s.done ++ s.skipped ++ s.opts ++ s.rest

def Scanner.start (argv : List Bytes) : Scanner :=
  ⟨argv.take 1, [], [], argv.drop 1, [], []⟩

/-- An option that is returned, or something unknown, and the argument that it
was found in. -/
structure Call (ν : Type*) where
  element : Bytes
  val : Option ν
  arg : Arg
deriving DecidableEq, Repr

/-- An argument without a hyphen, or a hyphen alone. -/
def isNonOption (a : Bytes) : Bool :=
  a.head? ≠ some 45 || a.length = 1

/-- Move the options behind the ones before them and skip what is no option. -/
def Scanner.advance (ordering : Ordering) (s : Scanner) : Scanner :=
  match ordering with
  | .permute =>
      { s with
        done := s.done ++ s.opts
        skipped := s.skipped ++ s.rest.takeWhile isNonOption
        opts := []
        rest := s.rest.dropWhile isNonOption }
  | .requireOrder => s

/-- The end of the options.  What was skipped is given back. -/
def Scanner.stop (s : Scanner) : Scanner :=
  { s with skipped := [], opts := [], done := s.done ++ s.opts,
           rest := s.skipped ++ s.rest }

def Scanner.finish {ν : Type*} (s : Scanner) : Decoded ν → Call ν × Scanner
  | .gives val attached nextchar =>
      (⟨s.current, val, .ofAttached attached⟩, { s with nextchar := nextchar })
  | .needs val =>
      match s.rest with
      | [] => (⟨s.current, none, .absent⟩, { s with nextchar := [] })
      | v :: rest =>
          (⟨s.current, some val, .separate v⟩,
            { s with opts := s.opts ++ [v], rest := rest, nextchar := [] })

def Scanner.enter (s : Scanner) (a : Bytes) (rest : List Bytes) : Scanner :=
  { s with opts := s.opts ++ [a], rest := rest, current := a }

section Calls

variable {ν : Type*} [DecidableEq ν] (table : Table ν) (ordering : Ordering)

/-- The next argument, if there is no character left. -/
def Scanner.nextElement (s : Scanner) : Option (Call ν) × Scanner :=
  match s.rest with
  | [] => (none, s.stop)
  | a :: rest =>
      if a = lit "--" then (none, (s.enter a rest).stop)
      else if isNonOption a then (none, s)
      else
        let found := (s.enter a rest).finish (table.decode a)
        (some found.1, found.2)

/-- A call of `getopt_long`; nothing is returned in place of `-1`. -/
def Scanner.next (s : Scanner) : Option (Call ν) × Scanner :=
  match s.nextchar with
  | c :: more =>
      let found := s.finish (table.decodeShort c more)
      (some found.1, found.2)
  | [] => (s.advance ordering).nextElement table

/-- Whether the argument that is to be scanned starts with a hyphen. -/
def Scanner.atHyphen (s : Scanner) : Bool :=
  s.nextchar ≠ [] || s.rest.head?.any (·.head? = some 45)

/-- The calls as long as there is a hyphen. -/
def scan : ℕ → Scanner → List (Call ν) × Scanner
  | 0, s => ([], s)
  | fuel + 1, s =>
      if s.atHyphen then
        match s.next table ordering with
        | (none, t) => ([], t)
        | (some call, t) => (call :: (scan fuel t).1, (scan fuel t).2)
      else ([], s)

end Calls

/-! ## What a call does -/

section Steps

variable {ν : Type*} [DecidableEq ν] (table : Table ν) (ordering : Ordering)

/-- Everything that a call can do. -/
inductive Scanner.Step (s : Scanner) : Option (Call ν) → Scanner → Prop
  | char {c : UInt8} {more : Bytes} (hchars : s.nextchar = c :: more) :
      Step s (some (s.finish (table.decodeShort c more)).1)
        (s.finish (table.decodeShort c more)).2
  | last (hchars : s.nextchar = []) (hrest : (s.advance ordering).rest = []) :
      Step s none (s.advance ordering).stop
  | hyphens {rest : List Bytes} (hchars : s.nextchar = [])
      (hrest : (s.advance ordering).rest = lit "--" :: rest) :
      Step s none ((s.advance ordering).enter (lit "--") rest).stop
  | nonOption {a : Bytes} {rest : List Bytes} (hchars : s.nextchar = [])
      (hrest : (s.advance ordering).rest = a :: rest) (hne : a ≠ lit "--")
      (hnot : isNonOption a = true) : Step s none (s.advance ordering)
  | element {a : Bytes} {rest : List Bytes} (hchars : s.nextchar = [])
      (hrest : (s.advance ordering).rest = a :: rest) (hne : a ≠ lit "--")
      (hoption : isNonOption a = false) :
      Step s
        (some (((s.advance ordering).enter a rest).finish (table.decode a)).1)
        (((s.advance ordering).enter a rest).finish (table.decode a)).2

variable {table ordering}

theorem Scanner.Step.next_eq {s t : Scanner} {call : Option (Call ν)}
    (h : s.Step table ordering call t) : s.next table ordering = (call, t) := by
  cases h with
  | char hchars => rw [next, hchars]
  | last hchars hrest =>
      rw [next, hchars]
      dsimp only
      rw [nextElement, hrest]
  | hyphens hchars hrest =>
      rw [next, hchars]
      dsimp only
      rw [nextElement, hrest]
      exact if_pos rfl
  | nonOption hchars hrest hne hnot =>
      rw [next, hchars]
      dsimp only
      rw [nextElement, hrest]
      dsimp only
      rw [if_neg hne, if_pos hnot]
  | element hchars hrest hne hoption =>
      rw [next, hchars]
      dsimp only
      rw [nextElement, hrest]
      dsimp only
      rw [if_neg hne, hoption]
      rfl

theorem Scanner.step_next (s : Scanner) :
    s.Step table ordering (s.next table ordering).1
      (s.next table ordering).2 := by
  have hstep : ∃ call t, s.Step table ordering call t := by
    cases hchars : s.nextchar with
    | cons c more => exact ⟨_, _, .char hchars⟩
    | nil =>
        cases hrest : (s.advance ordering).rest with
        | nil => exact ⟨_, _, .last hchars hrest⟩
        | cons a rest =>
            by_cases hhyphens : a = lit "--"
            · subst hhyphens
              exact ⟨_, _, .hyphens hchars hrest⟩
            · cases hoption : isNonOption a with
              | true => exact ⟨_, _, .nonOption hchars hrest hhyphens hoption⟩
              | false => exact ⟨_, _, .element hchars hrest hhyphens hoption⟩
  obtain ⟨call, t, hstep⟩ := hstep
  rw [hstep.next_eq]
  exact hstep

theorem Scanner.step_of_next_eq {s t : Scanner} {call : Option (Call ν)}
    (h : s.next table ordering = (call, t)) : s.Step table ordering call t := by
  have hstep := @step_next ν _ table ordering s
  rw [h] at hstep
  exact hstep

end Steps

/-! ## The scan ends -/

section Ending

variable {ν : Type*} [DecidableEq ν] {table : Table ν} {ordering : Ordering}

/-- How much there is in some arguments. -/
def weight (args : List Bytes) : ℕ :=
  (args.map (·.length + 1)).sum

theorem weight_cons (a : Bytes) (args : List Bytes) :
    weight (a :: args) = a.length + 1 + weight args := by
  rw [weight, List.map_cons, List.sum_cons, weight]

theorem weight_append (as bs : List Bytes) :
    weight (as ++ bs) = weight as + weight bs := by
  rw [weight, List.map_append, List.sum_append, weight, weight]

def Scanner.size (s : Scanner) : ℕ :=
  s.nextchar.length + weight s.rest

/-- The characters that are left of an argument. -/
def Decoded.nextchar : Decoded ν → Bytes
  | .gives _ _ nextchar => nextchar
  | .needs _ => []

omit [DecidableEq ν] in
theorem decodeShort_nextchar_le (c : UInt8) (more : Bytes) :
    (table.decodeShort c more).nextchar.length ≤ more.length := by
  rw [Table.decodeShort]
  split
  · exact le_rfl
  · exact le_rfl
  · split <;> exact Nat.zero_le _

theorem decodeLong_nextchar (text : Bytes) :
    (table.decodeLong text).nextchar = [] := by
  rw [Table.decodeLong]
  split
  · rfl
  · split <;> rfl
  · split <;> rfl

theorem decode_nextchar_le (a : Bytes) :
    (table.decode a).nextchar.length ≤ a.length := by
  rw [Table.decode.eq_def]
  split
  · rw [decodeLong_nextchar]
    exact Nat.zero_le _
  · next c more _ =>
      have hle := @decodeShort_nextchar_le ν table c more
      simp only [List.length_cons]
      omega
  · exact Nat.zero_le _

omit [DecidableEq ν] in
theorem finish_size_le (s : Scanner) (d : Decoded ν) :
    (s.finish d).2.size ≤ d.nextchar.length + weight s.rest := by
  cases d with
  | gives val attached nextchar => exact le_rfl
  | needs val =>
      rw [Scanner.finish]
      split
      · exact le_rfl
      · next v rest hrest =>
          rw [hrest, weight_cons, Scanner.size]
          exact Nat.add_le_add_left (Nat.le_add_left _ _) _

theorem size_advance_le (s : Scanner) :
    weight (s.advance ordering).rest ≤ weight s.rest := by
  cases ordering with
  | requireOrder => exact le_rfl
  | permute =>
      have hsplit := weight_append (s.rest.takeWhile isNonOption)
        (s.rest.dropWhile isNonOption)
      rw [List.takeWhile_append_dropWhile] at hsplit
      rw [hsplit]
      exact Nat.le_add_left _ _

theorem next_size_lt {s t : Scanner} {call : Call ν}
    (h : s.next table ordering = (some call, t)) : t.size < s.size := by
  cases Scanner.step_of_next_eq h with
  | @char c more hchars =>
      have hfinish := finish_size_le s (table.decodeShort c more)
      have hmore := @decodeShort_nextchar_le ν table c more
      have hsize : s.size = more.length + 1 + weight s.rest := by
        rw [Scanner.size, hchars, List.length_cons]
      omega
  | @element a rest hchars hrest =>
      have hfinish := finish_size_le ((s.advance ordering).enter a rest)
        (table.decode a)
      have hdecode := @decode_nextchar_le ν _ table a
      have hadvance := @size_advance_le ordering s
      have hsize : s.size = weight s.rest := by
        rw [Scanner.size, hchars, List.length_nil, Nat.zero_add]
      rw [hrest, weight_cons] at hadvance
      change _ ≤ _ + weight rest at hfinish
      omega

theorem atHyphen_of_size {s : Scanner} (h : s.size = 0) :
    s.atHyphen = false := by
  have hsum : s.nextchar.length = 0 ∧ weight s.rest = 0 := by
    rw [Scanner.size] at h
    omega
  have hchars : s.nextchar = [] := List.length_eq_zero_iff.mp hsum.1
  have hrest : s.rest = [] := by
    cases hrest : s.rest with
    | nil => rfl
    | cons a rest =>
        rw [hrest, weight_cons] at hsum
        omega
  rw [Scanner.atHyphen, hchars, hrest]
  rfl

theorem scan_of_not_atHyphen {s : Scanner} (h : s.atHyphen = false)
    (fuel : ℕ) : scan table ordering fuel s = ([], s) := by
  cases fuel with
  | zero => rfl
  | succ fuel =>
      rw [scan, h]
      rfl

theorem scan_eq_of_size_le {m n : ℕ} {s : Scanner} (hm : s.size ≤ m)
    (hn : s.size ≤ n) : scan table ordering m s = scan table ordering n s := by
  induction m generalizing n s with
  | zero =>
      have hnot := atHyphen_of_size (Nat.le_zero.mp hm)
      rw [scan_of_not_atHyphen hnot, scan_of_not_atHyphen hnot]
  | succ m ih =>
      cases n with
      | zero =>
          have hnot := atHyphen_of_size (Nat.le_zero.mp hn)
          rw [scan_of_not_atHyphen hnot, scan_of_not_atHyphen hnot]
      | succ n =>
          rw [scan, scan]
          split
          · split
            · rfl
            · next call t hnext =>
                have hlt := next_size_lt hnext
                rw [@ih n t (by omega) (by omega)]
          · rfl

end Ending

/-! ## The arguments stay the same -/

section Arguments

variable {ν : Type*} [DecidableEq ν] {table : Table ν} {ordering : Ordering}

theorem argv_exchange_perm (s : Scanner) :
    (s.done ++ ((s.opts ++ s.skipped) ++ s.rest)).Perm s.argv := by
  have hswap : (s.opts ++ s.skipped).Perm (s.skipped ++ s.opts) :=
    List.perm_append_comm
  have hargv : s.argv = s.done ++ ((s.skipped ++ s.opts) ++ s.rest) := by
    simp only [Scanner.argv, List.append_assoc]
  rw [hargv]
  exact (hswap.append_right s.rest).append_left s.done

theorem argv_advance_perm (s : Scanner) :
    (s.advance ordering).argv.Perm s.argv := by
  cases ordering with
  | requireOrder => exact List.Perm.refl _
  | permute =>
      have hrest : s.rest.takeWhile isNonOption ++
          s.rest.dropWhile isNonOption = s.rest :=
        List.takeWhile_append_dropWhile
      have hargv : (s.advance .permute).argv =
          s.done ++ ((s.opts ++ s.skipped) ++ s.rest) := by
        simp only [Scanner.argv, Scanner.advance, List.append_nil,
          List.append_assoc, hrest]
      rw [hargv]
      exact argv_exchange_perm s

theorem argv_stop_perm (s : Scanner) : s.stop.argv.Perm s.argv := by
  have hargv : s.stop.argv = s.done ++ ((s.opts ++ s.skipped) ++ s.rest) := by
    simp only [Scanner.argv, Scanner.stop, List.append_nil,
      List.append_assoc]
  rw [hargv]
  exact argv_exchange_perm s

theorem argv_enter {s : Scanner} {a : Bytes} {rest : List Bytes}
    (h : s.rest = a :: rest) : (s.enter a rest).argv = s.argv := by
  simp only [Scanner.argv, Scanner.enter, h, List.append_assoc,
    List.singleton_append]

omit [DecidableEq ν] in
theorem argv_finish (s : Scanner) (d : Decoded ν) :
    (s.finish d).2.argv = s.argv := by
  cases d with
  | gives val attached nextchar => rfl
  | needs val =>
      rw [Scanner.finish]
      split
      · rfl
      · next v rest hrest =>
          simp only [Scanner.argv, hrest, List.append_assoc,
            List.singleton_append]

theorem next_argv_perm (s : Scanner) :
    (s.next table ordering).2.argv.Perm s.argv := by
  have hadvance := @argv_advance_perm ordering s
  generalize hnext : s.next table ordering = r
  obtain ⟨call, t⟩ := r
  cases Scanner.step_of_next_eq hnext with
  | char hchars =>
      rw [argv_finish]
  | last hchars hrest => exact (argv_stop_perm _).trans hadvance
  | hyphens hchars hrest =>
      refine (argv_stop_perm _).trans ?_
      rw [argv_enter hrest]
      exact hadvance
  | nonOption hchars hrest => exact hadvance
  | element hchars hrest =>
      rw [argv_finish, argv_enter hrest]
      exact hadvance

theorem scan_argv_perm (fuel : ℕ) (s : Scanner) :
    (scan table ordering fuel s).2.argv.Perm s.argv := by
  induction fuel generalizing s with
  | zero => exact List.Perm.refl _
  | succ fuel ih =>
      rw [scan]
      split
      · have hnext := @next_argv_perm ν _ table ordering s
        split
        · next t heq =>
            rw [heq] at hnext
            exact hnext
        · next call t heq =>
            rw [heq] at hnext
            exact (ih t).trans hnext
      · exact List.Perm.refl _

end Arguments

/-! ## One call after the other -/

section Runs

variable {ν : Type*} [DecidableEq ν] {table : Table ν} {ordering : Ordering}

variable (table ordering) in
/-- The options that are returned on the way from a state to another one. -/
inductive Scans (s : Scanner) : List (Call ν) → Scanner → Prop
  | refl : Scans s [] s
  | tail {calls : List (Call ν)} {t u : Scanner} {call : Call ν}
      (h : Scans s calls t) (hhyphen : t.atHyphen = true)
      (hnext : t.next table ordering = (some call, u)) :
      Scans s (calls ++ [call]) u

variable (table ordering) in
/-- The scan ends with this state. -/
inductive Ends (s : Scanner) : Scanner → Prop
  | noHyphen (h : s.atHyphen = false) : Ends s s
  | returned {t : Scanner} (hhyphen : s.atHyphen = true)
      (hnext : s.next table ordering = (none, t)) : Ends s t

theorem Scans.single {s t : Scanner} {call : Call ν}
    (hhyphen : s.atHyphen = true)
    (hnext : s.next table ordering = (some call, t)) :
    Scans table ordering s [call] t :=
  Scans.refl.tail hhyphen hnext

theorem Scans.append {s t u : Scanner} {calls more : List (Call ν)}
    (h : Scans table ordering s calls t)
    (hmore : Scans table ordering t more u) :
    Scans table ordering s (calls ++ more) u := by
  induction hmore with
  | refl =>
      rw [List.append_nil]
      exact h
  | tail _ hhyphen hnext ih =>
      rw [← List.append_assoc]
      exact ih.tail hhyphen hnext

theorem scans_scan {fuel : ℕ} {s : Scanner} (hfuel : s.size ≤ fuel) :
    ∃ t, Scans table ordering s (scan table ordering fuel s).1 t ∧
      Ends table ordering t (scan table ordering fuel s).2 := by
  induction fuel generalizing s with
  | zero =>
      have hnot := atHyphen_of_size (Nat.le_zero.mp hfuel)
      exact ⟨s, .refl, .noHyphen hnot⟩
  | succ fuel ih =>
      rw [scan]
      cases hhyphen : s.atHyphen with
      | false => exact ⟨s, .refl, .noHyphen hhyphen⟩
      | true =>
          rw [if_pos rfl]
          generalize hnext : s.next table ordering = r
          obtain ⟨call, t⟩ := r
          cases call with
          | none => exact ⟨s, .refl, .returned hhyphen hnext⟩
          | some call =>
              have hlt := next_size_lt hnext
              obtain ⟨u, hscans, hends⟩ := @ih t (by omega)
              exact ⟨u, (Scans.single hhyphen hnext).append hscans, hends⟩

theorem Scans.exists_scan_eq {fuel : ℕ} {s t : Scanner}
    {calls : List (Call ν)} (h : Scans table ordering s calls t)
    (hfuel : s.size ≤ fuel) :
    ∃ n, t.size ≤ n ∧ scan table ordering fuel s =
      (calls ++ (scan table ordering n t).1, (scan table ordering n t).2) := by
  induction h with
  | refl => exact ⟨fuel, hfuel, rfl⟩
  | @tail calls t u call _ hhyphen hnext ih =>
      obtain ⟨n, hn, hscan⟩ := ih
      have hlt := next_size_lt hnext
      obtain ⟨n, rfl⟩ := Nat.exists_eq_succ_of_ne_zero (by omega : n ≠ 0)
      refine ⟨n, by omega, ?_⟩
      rw [hscan, scan, if_pos hhyphen, hnext, List.append_assoc]
      rfl

theorem Ends.scan_eq {fuel : ℕ} {s t : Scanner}
    (h : Ends table ordering s t) (hfuel : s.size ≤ fuel) :
    scan table ordering fuel s = ([], t) := by
  cases h with
  | noHyphen h => exact scan_of_not_atHyphen h fuel
  | returned hhyphen hnext =>
      cases fuel with
      | zero =>
          have hnot := atHyphen_of_size (Nat.le_zero.mp hfuel)
          exact absurd hhyphen (by rw [hnot]; exact Bool.false_ne_true)
      | succ fuel => rw [scan, if_pos hhyphen, hnext]

theorem Scans.scan_eq {fuel : ℕ} {s t u : Scanner} {calls : List (Call ν)}
    (h : Scans table ordering s calls t) (hends : Ends table ordering t u)
    (hfuel : s.size ≤ fuel) :
    scan table ordering fuel s = (calls, u) := by
  obtain ⟨n, hn, hscan⟩ := h.exists_scan_eq hfuel
  rw [hscan, hends.scan_eq hn, List.append_nil]

end Runs
end GetoptLong

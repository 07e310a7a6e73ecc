import Phpspy.Support.Bytes

/-!
# The words of a shell command

A POSIX shell splits a command into words and operators.  Single quotes and
backslashes take the meaning away from what they quote.  Here every unquoted
byte that can mean something else than itself is a token of its own, even where
it happens to stand for itself, so a word is plain text.
-/

namespace ShellWords

open ByteText

/-- A word without its quotes, or an unquoted byte with a meaning. -/
inductive Token where
  | word (text : Bytes)
  | special (b : UInt8)
deriving DecidableEq, Repr

/-- Where in a command the shell is.  Outside of quotes there may be no word
yet. -/
inductive Mode where
  | unquoted (w : Option Bytes)
  | single (w : Bytes)
  | escaped (w : Option Bytes)
deriving DecidableEq, Repr

def isBlank (b : UInt8) : Bool :=
  b = 32 || b = 9

/-- Operators, expansions, patterns, double quotes and comments. -/
def isSpecial (b : UInt8) : Bool :=
  (lit "\n|&;<>()$`\"*?[#~").contains b

/-- One byte of a command, and the tokens that it completes. -/
def lexStep : Mode → UInt8 → Mode × List Token
  | .unquoted w, b =>
      if b = 39 then (.single (w.getD []), [])
      else if b = 92 then (.escaped w, [])
      else if isBlank b then (.unquoted none, w.toList.map .word)
      else if isSpecial b then
        (.unquoted none, w.toList.map .word ++ [.special b])
      else (.unquoted (some (w.getD [] ++ [b])), [])
  | .single w, b =>
      if b = 39 then (.unquoted (some w), []) else (.single (w ++ [b]), [])
  | .escaped w, b =>
      -- a backslash and a newline are a line continuation
      if b = 10 then (.unquoted w, [])
      else (.unquoted (some (w.getD [] ++ [b])), [])

def feed : Mode → Bytes → Mode × List Token
  | m, [] => (m, [])
  | m, b :: bs =>
      let (m, ts) := lexStep m b
      let (m, rest) := feed m bs
      (m, ts ++ rest)

/-- The last word, unless a quote is open. -/
def finish : Mode → Option (List Token)
  | .unquoted w => some (w.toList.map .word)
  | _ => none

def tokens (bs : Bytes) : Option (List Token) :=
  (finish (feed (.unquoted none) bs).1).map
    ((feed (.unquoted none) bs).2 ++ ·)

/-! ## Piece by piece -/

theorem feed_append (m : Mode) (xs ys : Bytes) :
    feed m (xs ++ ys) =
      ((feed (feed m xs).1 ys).1,
        (feed m xs).2 ++ (feed (feed m xs).1 ys).2) := by
  induction xs generalizing m with
  | nil => rfl
  | cons x xs ih =>
      simp only [List.cons_append, feed, ih, List.append_assoc]

theorem feed_trans {m m' m'' : Mode} {xs ys : Bytes} {ts us : List Token}
    (hxs : feed m xs = (m', ts)) (hys : feed m' ys = (m'', us)) :
    feed m (xs ++ ys) = (m'', ts ++ us) := by
  rw [feed_append, hxs, hys]

theorem tokens_eq_some_iff {bs : Bytes} {ts : List Token} :
    tokens bs = some ts ↔
      ∃ w us, feed (.unquoted none) bs = (.unquoted w, us) ∧
        ts = us ++ w.toList.map .word := by
  rw [tokens]
  obtain ⟨m, us⟩ := feed (.unquoted none) bs
  cases m with
  | unquoted w => simp [finish, eq_comm]
  | single w => simp [finish]
  | escaped w => simp [finish]

/-- Bytes that mean themselves. -/
def isPlain (b : UInt8) : Bool :=
  !(b = 39 || b = 92 || isBlank b || isSpecial b)

theorem feed_plain {bs : Bytes} (h : bs.all isPlain = true) (w : Bytes) :
    feed (.unquoted (some w)) bs = (.unquoted (some (w ++ bs)), []) := by
  induction bs generalizing w with
  | nil => simp [feed]
  | cons b bs ih =>
      rw [List.all_cons, Bool.and_eq_true] at h
      obtain ⟨hb, hbs⟩ := h
      simp only [isPlain, Bool.not_eq_true', Bool.or_eq_false_iff,
        decide_eq_false_iff_not] at hb
      obtain ⟨⟨⟨hquote, hescape⟩, hblank⟩, hspecial⟩ := hb
      simp [feed, lexStep, hquote, hescape, hblank, hspecial, ih hbs]

/-- Whether a text ends the word before it. -/
def endsWord : Bytes → Bool
  | [] => false
  | b :: _ => isBlank b || isSpecial b

theorem feed_of_endsWord {bs : Bytes} {m : Mode} {ts : List Token}
    (hend : endsWord bs = true) (h : feed (.unquoted none) bs = (m, ts))
    (w : Bytes) :
    feed (.unquoted (some w)) bs = (m, .word w :: ts) := by
  obtain ⟨rfl, rfl⟩ := Prod.mk.inj h
  cases bs with
  | nil => cases hend
  | cons b bs =>
      have hquote : b ≠ 39 := by
        rintro rfl
        exact absurd hend (by simp [endsWord, isBlank, isSpecial, lit])
      have hescape : b ≠ 92 := by
        rintro rfl
        exact absurd hend (by simp [endsWord, isBlank, isSpecial, lit])
      by_cases hblank : isBlank b = true
      · simp [feed, lexStep, hquote, hescape, hblank]
      · have hspecial : isSpecial b = true :=
          ((Bool.or_eq_true _ _).mp hend).resolve_left hblank
        simp [feed, lexStep, hquote, hescape, hblank, hspecial]

theorem tokens_append {xs ys : Bytes} {ts us : List Token}
    (hxs : feed (.unquoted none) xs = (.unquoted none, ts))
    (hys : tokens ys = some us) : tokens (xs ++ ys) = some (ts ++ us) := by
  obtain ⟨w, us, hfeed, rfl⟩ := tokens_eq_some_iff.mp hys
  rw [tokens_eq_some_iff]
  exact ⟨w, ts ++ us, feed_trans hxs hfeed, (List.append_assoc _ _ _).symm⟩

theorem tokens_append_of_endsWord {xs ys : Bytes} {ts us : List Token}
    (hxs : tokens xs = some ts) (hend : endsWord ys = true)
    (hys : tokens ys = some us) : tokens (xs ++ ys) = some (ts ++ us) := by
  obtain ⟨w, ts, hfirst, rfl⟩ := tokens_eq_some_iff.mp hxs
  obtain ⟨v, us, hrest, rfl⟩ := tokens_eq_some_iff.mp hys
  rw [tokens_eq_some_iff]
  cases w with
  | none => exact ⟨v, _, feed_trans hfirst hrest, by simp⟩
  | some w =>
      exact ⟨v, _, feed_trans hfirst (feed_of_endsWord hend hrest w),
        by simp⟩

theorem isPlain_of_isDigit {b : UInt8} (h : isDigit b = true) :
    isPlain b = true := by
  rw [isDigit, Bool.and_eq_true, decide_eq_true_eq, decide_eq_true_eq,
    UInt8.le_iff_toNat_le, UInt8.le_iff_toNat_le] at h
  have hlow : 48 ≤ b.toNat := h.1
  have hhigh : b.toNat ≤ 57 := h.2
  have hb : b = digitByte (b.toNat - 48) := by
    apply UInt8.toNat_inj.mp
    rw [digitByte_toNat (by omega)]
    omega
  have hd : b.toNat - 48 < 10 := by omega
  rw [hb]
  interval_cases b.toNat - 48 <;> rfl

theorem feed_decimalInt (w : Bytes) (n : ℤ) :
    feed (.unquoted (some w)) (decimalInt n) =
      (.unquoted (some (w ++ decimalInt n)), []) := by
  refine feed_plain (List.all_eq_true.mpr fun b hb => ?_) w
  cases n with
  | ofNat n => exact isPlain_of_isDigit (decimal_isDigit hb)
  | negSucc n =>
      rcases List.mem_cons.mp hb with rfl | hb
      · rfl
      · exact isPlain_of_isDigit (decimal_isDigit hb)

theorem feed_single {bs : Bytes} (h : (39 : UInt8) ∉ bs) (w : Bytes) :
    feed (.single w) bs = (.single (w ++ bs), []) := by
  induction bs generalizing w with
  | nil => simp [feed]
  | cons b bs ih =>
      have hb : b ≠ 39 := Ne.symm (List.ne_of_not_mem_cons h)
      have hbs : (39 : UInt8) ∉ bs := List.not_mem_of_not_mem_cons h
      simp [feed, lexStep, hb, ih hbs]

/-! ## Quoting -/

/-- A single quote leaves the quotes for an escaped one. -/
def quoteByte (b : UInt8) : Bytes :=
  if b = 39 then [39, 92, 39, 39] else [b]

def quote (text : Bytes) : Bytes :=
  39 :: (text.flatMap quoteByte ++ [39])

theorem length_flatMap_quoteByte (text : Bytes) :
    (text.flatMap quoteByte).length = text.length + 3 * text.count 39 := by
  induction text with
  | nil => rfl
  | cons b text ih =>
      rw [List.flatMap_cons, List.length_append, ih, List.length_cons,
        List.count_cons, quoteByte]
      split
      · simp_all
        omega
      · simp_all
        omega

theorem length_quote (text : Bytes) :
    (quote text).length = text.length + 3 * text.count 39 + 2 := by
  rw [quote, List.length_cons, List.length_append, length_flatMap_quoteByte,
    List.length_singleton]

theorem feed_quoteByte (w : Bytes) (b : UInt8) :
    feed (.single w) (quoteByte b) = (.single (w ++ [b]), []) := by
  rw [quoteByte]
  split
  · next hb =>
      subst hb
      rfl
  · next hb => simp [feed, lexStep, hb]

theorem feed_flatMap_quoteByte (w text : Bytes) :
    feed (.single w) (text.flatMap quoteByte) = (.single (w ++ text), []) := by
  induction text generalizing w with
  | nil => simp [feed]
  | cons b text ih =>
      rw [List.flatMap_cons, feed_append, feed_quoteByte, ih,
        List.append_assoc]
      rfl

/-- A quoted text adds itself to the current word, and nothing else. -/
theorem feed_quote (w : Option Bytes) (text : Bytes) :
    feed (.unquoted w) (quote text) =
      (.unquoted (some (w.getD [] ++ text)), []) := by
  have hopen : feed (.unquoted w) (quote text) =
      feed (.single (w.getD [])) (text.flatMap quoteByte ++ [39]) := rfl
  rw [hopen, feed_append, feed_flatMap_quoteByte]
  rfl

theorem tokens_quote (text : Bytes) :
    tokens (quote text) = some [.word text] := by
  rw [tokens_eq_some_iff]
  exact ⟨some text, [], feed_quote none text, rfl⟩

theorem notMem_quote {text : Bytes} {b : UInt8} (h : b ∉ text) (hb : b ≠ 39)
    (hb' : b ≠ 92) : b ∉ quote text := by
  rw [quote, List.mem_cons, List.mem_append, List.mem_flatMap,
    List.mem_singleton]
  rintro (hquote | ⟨c, hc, hmem⟩ | hquote)
  · exact hb hquote
  · rw [quoteByte] at hmem
    split at hmem
    · simp [hb, hb'] at hmem
    · rw [List.mem_singleton.mp hmem] at h
      exact h hc
  · exact hb hquote

end ShellWords

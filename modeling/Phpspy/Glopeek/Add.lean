import Phpspy.Varpeek.Add

/-!
# Adding glospecs

`glopeek_add` parses `<global>.<key>` and enters the superglobal and the
element to peek at.  It compares the names of the globals with as many bytes as
there are before the first dot, so that it also takes every beginning of a
name for the name.
-/

namespace Phpspy
namespace Glopeek

open ByteText Varpeek

/-! ## The map -/

/-- `glopeek_entry` -/
structure GlopeekEntry where
  key : Bytes
  /-- The superglobal, or nothing for the symbol table itself. -/
  gloname : Bytes
  varname : Bytes
deriving DecidableEq, Repr

inductive Global where
  | post
  | get
  | cookie
  | server
  | files
  | globals
deriving DecidableEq, Repr

namespace Global

/-- The globals in the order in which `glopeek_add` compares them. -/
def all : List Global :=
  [post, get, cookie, server, files, globals]

def name : Global → Bytes
  | post => lit "post"
  | get => lit "get"
  | cookie => lit "cookie"
  | server => lit "server"
  | files => lit "files"
  | globals => lit "globals"

/-- `gloname`.  Global variables are in the symbol table itself. -/
def gloname : Global → Bytes
  | post => lit "_POST"
  | get => lit "_GET"
  | cookie => lit "_COOKIE"
  | server => lit "_SERVER"
  | files => lit "_FILES"
  | globals => []

theorem mem_all (g : Global) : g ∈ all := by
  cases g <;> decide

end Global

/-- `strncmp(a, b, n) == 0` for strings without NUL. -/
def strncmpEq (a b : Bytes) (n : ℕ) : Bool :=
  a.take n = b.take n

/-- The comparisons of `glopeek_add`, up to the first that succeeds. -/
def findGlobal (glospec : Bytes) (dot : ℕ) : Option Global :=
  Global.all.find? fun g => strncmpEq (g.name ++ lit ".") glospec dot

/-- `glopeek_add` on the entries in the order of their insertion; `none` if it
prints the usage and exits. -/
def glopeekAdd (map : List GlopeekEntry) (glospec : Bytes) :
    Option (List GlopeekEntry) :=
  match memchr 46 glospec with
  | none => none
  | some dot =>
      if map.any (·.key = glospec) then some map
      else
        match findGlobal glospec dot with
        | none => none
        | some g =>
            some (map ++
              [{ key := strBuf glospec
                 gloname := strBuf g.gloname
                 varname := strBuf (glospec.drop (dot + 1)) }])

def glopeekAddAll : List GlopeekEntry → List Bytes →
    Option (List GlopeekEntry)
  | map, [] => some map
  | map, glospec :: glospecs => do
      let map ← glopeekAdd map glospec
      glopeekAddAll map glospecs

/-! ## The grammar -/

def Global.glospec (g : Global) (key : Bytes) : Bytes :=
  g.name ++ 46 :: key

/-- `glopeek_add` does as the usage says: it enters an element of a global
that is named in full, unless the glospec is there, and rejects all else. -/
def Conforms (map : List GlopeekEntry) (glospec : Bytes) : Prop :=
  (∀ g key, glospec = Global.glospec g key →
    if map.any (·.key = glospec) then glopeekAdd map glospec = some map
    else ∃ entry, glopeekAdd map glospec = some (map ++ [entry]) ∧
      entry.gloname = g.gloname ∧
      (glospec.length ≤ 255 → entry.key = glospec ∧ entry.varname = key)) ∧
    ((∀ g key, glospec ≠ Global.glospec g key) →
      map.any (·.key = glospec) = false → glopeekAdd map glospec = none)

/-- What stands before the first dot is not a beginning of the name of a
global, unless it is the name. -/
def NoBeginning (glospec : Bytes) : Prop :=
  ∀ before rest, glospec = before ++ 46 :: rest → (46 : UInt8) ∉ before →
    ∀ g : Global, before <+: g.name → before = g.name

theorem Global.dot_notMem_name (g : Global) : (46 : UInt8) ∉ g.name := by
  cases g <;> decide

theorem Global.eq_of_name_isPrefix {g g' : Global} (h : g.name <+: g'.name) :
    g = g' := by
  revert g'
  cases g <;> intro g' <;> cases g' <;> decide

theorem strncmpEq_iff {before : Bytes} (hdot : (46 : UInt8) ∉ before)
    (rest : Bytes) (g : Global) :
    strncmpEq (g.name ++ lit ".") (before ++ 46 :: rest) before.length = true ↔
      before <+: g.name := by
  rw [strncmpEq, decide_eq_true_iff, List.take_left]
  constructor
  · intro htake
    have hprefix : before <+: g.name ++ lit "." := by
      rw [← htake]
      exact List.take_prefix _ _
    rcases List.prefix_concat_iff.mp hprefix with rfl | hname
    · exact absurd (List.mem_append_right _ (List.mem_singleton.mpr rfl)) hdot
    · exact hname
  · intro hprefix
    have hle := hprefix.length_le
    rw [List.take_append_of_le_length hle]
    exact (List.prefix_iff_eq_take.mp hprefix).symm

/-- The first global of which the text before the dot is a beginning. -/
theorem findGlobal_eq_none_iff {before : Bytes} (hdot : (46 : UInt8) ∉ before)
    (rest : Bytes) :
    findGlobal (before ++ 46 :: rest) before.length = none ↔
      ∀ g : Global, ¬ before <+: g.name := by
  rw [findGlobal, List.find?_eq_none]
  constructor
  · intro h g hprefix
    exact h g g.mem_all ((strncmpEq_iff hdot rest g).mpr hprefix)
  · intro h g _ heq
    exact h g ((strncmpEq_iff hdot rest g).mp heq)

theorem findGlobal_name (g : Global) (key : Bytes) :
    findGlobal (g.glospec key) g.name.length = some g := by
  have hsome : findGlobal (g.glospec key) g.name.length ≠ none := by
    intro hnone
    exact (findGlobal_eq_none_iff g.dot_notMem_name key).mp hnone g
      List.prefix_rfl
  obtain ⟨g', hfind⟩ := Option.ne_none_iff_exists'.mp hsome
  have heq : strncmpEq (g'.name ++ lit ".") (g.glospec key) g.name.length =
      true := by
    rw [findGlobal] at hfind
    have hfound := List.find?_some hfind
    exact hfound
  have hprefix := (strncmpEq_iff g.dot_notMem_name key g').mp heq
  rw [hfind, Global.eq_of_name_isPrefix hprefix]

/-- What `glopeek_add` does with a glospec that is not there, by the text
before its first dot. -/
theorem glopeekAdd_of_split {map : List GlopeekEntry} {before rest : Bytes}
    (hdot : (46 : UInt8) ∉ before)
    (hnew : map.any (·.key = before ++ 46 :: rest) = false) :
    glopeekAdd map (before ++ 46 :: rest) =
      (findGlobal (before ++ 46 :: rest) before.length).map fun g =>
        map ++ [⟨strBuf (before ++ 46 :: rest), strBuf g.gloname,
          strBuf rest⟩] := by
  have hdrop : (before ++ 46 :: rest).drop (before.length + 1) = rest := by
    rw [List.drop_append, List.drop_of_length_le (Nat.le_succ _)]
    simp
  rw [glopeekAdd, memchr_append_of_notMem hdot]
  dsimp only
  rw [hnew, hdrop]
  cases findGlobal (before ++ 46 :: rest) before.length with
  | none => rfl
  | some g => rfl

theorem strBuf_gloname (g : Global) : strBuf g.gloname = g.gloname := by
  cases g <;> decide

/-- Glospecs are parsed as the usage says, exactly if what stands before the
first dot is not a proper beginning of a name, such as nothing at all. -/
theorem glopeekAdd_conforms_iff (glospec : Bytes) :
    (∀ map, Conforms map glospec) ↔ NoBeginning glospec := by
  constructor
  · rintro hconforms before rest rfl hdot g hprefix
    by_contra hne
    have hother : ∀ g' key, before ++ 46 :: rest ≠ Global.glospec g' key := by
      intro g' key heq
      have hbefore : before = g'.name := by
        have hfirst := memchr_append_of_notMem hdot rest
        have hsecond := memchr_append_of_notMem g'.dot_notMem_name key
        rw [heq, Global.glospec, hsecond] at hfirst
        exact (List.append_inj heq (Option.some.inj hfirst).symm).1
      rw [hbefore] at hprefix hne
      exact hne (congrArg Global.name (Global.eq_of_name_isPrefix hprefix))
    have hrejects := (hconforms []).2 hother rfl
    rw [glopeekAdd_of_split hdot rfl, Option.map_eq_none_iff] at hrejects
    exact (findGlobal_eq_none_iff hdot rest).mp hrejects g hprefix
  · intro hfull map
    constructor
    · rintro g key rfl
      split
      · next hthere =>
          rw [glopeekAdd, Global.glospec,
            memchr_append_of_notMem g.dot_notMem_name]
          exact if_pos hthere
      · next hnew =>
          have hadd : glopeekAdd map (g.glospec key) =
              (findGlobal (g.glospec key) g.name.length).map fun g' =>
                map ++ [⟨strBuf (g.glospec key), strBuf g'.gloname,
                  strBuf key⟩] :=
            glopeekAdd_of_split g.dot_notMem_name (Bool.eq_false_iff.mpr hnew)
          rw [findGlobal_name] at hadd
          refine ⟨_, hadd, strBuf_gloname g, fun hlen => ?_⟩
          have hkey : key.length ≤ 255 := by
            rw [Global.glospec, List.length_append, List.length_cons] at hlen
            omega
          exact ⟨List.take_of_length_le hlen, List.take_of_length_le hkey⟩
    · intro hother hnew
      cases hmem : memchr 46 glospec with
      | none => rw [glopeekAdd, hmem]
      | some dot =>
          obtain ⟨before, rest, rfl, hdot, -⟩ := exists_split_of_memchr hmem
          rw [glopeekAdd_of_split hdot hnew, Option.map_eq_none_iff,
            findGlobal_eq_none_iff hdot]
          intro g hprefix
          obtain rfl := hfull before rest rfl hdot g hprefix
          exact hother g rest rfl

/-- A glospec without a global, or with a letter of one, is taken for an
element of `$_POST`. -/
theorem emptyGlobal_is_post :
    ¬ NoBeginning (lit ".x") ∧ (¬ Conforms [] (lit ".x")) ∧
      glopeekAdd [] (lit ".x") =
        some [⟨lit ".x", lit "_POST", lit "x"⟩] ∧
      glopeekAdd [] (lit "p.x") =
        some [⟨lit "p.x", lit "_POST", lit "x"⟩] := by
  have hnot : ¬ NoBeginning (lit ".x") := by
    intro h
    exact absurd (h [] (lit "x") rfl List.not_mem_nil .post
      (List.nil_prefix)) (by decide)
  refine ⟨hnot, ?_, rfl, rfl⟩
  intro hconforms
  have hrejects := hconforms.2 ?_ rfl
  · exact absurd hrejects (by decide)
  · intro g key
    cases g <;> exact fun h => absurd (List.cons.inj h).1 (by decide)

end Glopeek
end Phpspy

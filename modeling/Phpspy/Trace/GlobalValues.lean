import Mathlib.Data.List.Dedup
import Phpspy.Render.Peeked
import Phpspy.Trace.Globals
import Phpspy.Zend.HashArray

/-!
# The values of global variables

A glospec names a global variable or an element of a superglobal.  From the
command line to the events: `trace_globals` shows for each glospec the value
that the symbol table has for it.
-/

namespace Phpspy

open ByteText BufferPrinting Glopeek
open Varpeek (strBuf)

deriving instance DecidableEq for ShortKey

/-! ## Glospecs -/

structure GlobalVar where
  global : Global
  key : ShortKey
  short : (global.glospec key.text).length ≤ 255
deriving DecidableEq

namespace GlobalVar

def glospec (x : GlobalVar) : Bytes :=
  x.global.glospec x.key.text

/-- What `glopeek_add` enters for it. -/
def entry (x : GlobalVar) : GlopeekEntry where
  key := x.glospec
  gloname := x.global.gloname
  varname := x.key.text

theorem glospec_injective : Function.Injective glospec := by
  intro x y h
  obtain ⟨g, k, hshort⟩ := x
  obtain ⟨g', k', hshort'⟩ := y
  simp only [glospec, Global.glospec] at h
  have hfirst := memchr_append_of_notMem g.dot_notMem_name k.text
  have hsecond := memchr_append_of_notMem g'.dot_notMem_name k'.text
  rw [h, hsecond] at hfirst
  obtain ⟨hname, hkey⟩ := List.append_inj h (Option.some.inj hfirst).symm
  have hglobal : g = g' :=
    Global.eq_of_name_isPrefix (hname ▸ List.prefix_rfl)
  obtain ⟨text, hlen, hnul⟩ := k
  obtain ⟨text', hlen', hnul'⟩ := k'
  obtain rfl : text = text' := (List.cons.inj hkey).2
  subst hglobal
  rfl

theorem any_entry_iff (map : List GlobalVar) (x : GlobalVar) :
    (map.map entry).any (·.key = x.glospec) = true ↔ x ∈ map := by
  rw [List.any_map, List.any_eq_true]
  constructor
  · rintro ⟨y, hy, heq⟩
    rw [← glospec_injective (of_decide_eq_true heq)]
    exact hy
  · exact fun hx => ⟨x, hx, decide_eq_true rfl⟩

theorem glopeekAdd_of_mem {map : List GlobalVar} {x : GlobalVar}
    (h : x ∈ map) :
    glopeekAdd (map.map entry) x.glospec = some (map.map entry) := by
  have hdot : memchr 46 x.glospec = some x.global.name.length :=
    memchr_append_of_notMem x.global.dot_notMem_name x.key.text
  rw [glopeekAdd, hdot]
  exact if_pos ((any_entry_iff map x).mpr h)

theorem glopeekAdd_of_notMem {map : List GlobalVar} {x : GlobalVar}
    (h : x ∉ map) :
    glopeekAdd (map.map entry) x.glospec =
      some ((map ++ [x]).map entry) := by
  have hnew : (map.map entry).any (·.key = x.glospec) = false :=
    Bool.eq_false_iff.mpr fun hany => h ((any_entry_iff map x).mp hany)
  have hspec : strBuf x.glospec = x.glospec := List.take_of_length_le x.short
  have hkey : strBuf x.key.text = x.key.text :=
    List.take_of_length_le x.key.short
  have hadd : glopeekAdd (map.map entry) x.glospec =
      (findGlobal x.glospec x.global.name.length).map fun g =>
        map.map entry ++
          [⟨strBuf x.glospec, strBuf g.gloname, strBuf x.key.text⟩] :=
    glopeekAdd_of_split x.global.dot_notMem_name hnew
  rw [hadd, glospec, findGlobal_name, Option.map_some, ← glospec, hspec, hkey,
    strBuf_gloname, List.map_append]
  rfl

/-- The variables in the order in which they are first asked for. -/
def asked (vars : List GlobalVar) : List GlobalVar :=
  vars.reverse.dedup.reverse

theorem mem_asked {vars : List GlobalVar} {x : GlobalVar} :
    x ∈ asked vars ↔ x ∈ vars := by
  rw [asked, List.mem_reverse, List.mem_dedup, List.mem_reverse]

theorem asked_concat_of_mem {vars : List GlobalVar} {x : GlobalVar}
    (h : x ∈ vars) : asked (vars ++ [x]) = asked vars := by
  rw [asked, List.reverse_concat,
    List.dedup_cons_of_mem (List.mem_reverse.mpr h), asked]

theorem asked_concat_of_notMem {vars : List GlobalVar} {x : GlobalVar}
    (h : x ∉ vars) : asked (vars ++ [x]) = asked vars ++ [x] := by
  rw [asked, List.reverse_concat,
    List.dedup_cons_of_notMem fun hmem => h (List.mem_reverse.mp hmem),
    List.reverse_cons, asked]

/-- The glospecs of a command line enter the variables that are asked for. -/
theorem glopeekAddAll_glospecs (vars : List GlobalVar) :
    glopeekAddAll [] (vars.map glospec) =
      some ((asked vars).map entry) := by
  have happend : ∀ (specs : List Bytes) (spec : Bytes)
      (map : List GlopeekEntry),
      glopeekAddAll map (specs ++ [spec]) =
        (glopeekAddAll map specs).bind fun map => glopeekAdd map spec := by
    intro specs spec
    induction specs with
    | nil =>
        intro map
        simp [glopeekAddAll]
    | cons first specs ih =>
        intro map
        simp only [List.cons_append, glopeekAddAll, ih, Option.bind_eq_bind,
          Option.bind_assoc]
  induction vars using List.reverseRecOn with
  | nil => rfl
  | append_singleton vars x ih =>
      rw [List.map_append, List.map_singleton, happend, ih, Option.bind_some]
      by_cases hx : x ∈ vars
      · rw [asked_concat_of_mem hx, glopeekAdd_of_mem (mem_asked.mpr hx)]
      · rw [asked_concat_of_notMem hx,
          glopeekAdd_of_notMem fun hmem => hx (mem_asked.mp hmem)]

end GlobalVar

/-! ## In memory -/

/-- The name of a superglobal as a key of the symbol table. -/
def Glopeek.Global.symbol (g : Global) : ShortKey where
  text := g.gloname
  short := by cases g <;> decide
  noNul := by cases g <;> decide

theorem Glopeek.Global.gloname_ne_nil {g : Global} (h : g ≠ .globals) :
    g.gloname ≠ [] := by
  cases g with
  | globals => exact absurd rfl h
  | _ => decide

section Holds

variable (signed : Bool) (mem : Remote)

/-- What an array has under a key: a value, or nothing that is printed.  The
lookup is not disturbed on the way there. -/
def HoldsElement (rzarray : ℕ) (key : ShortKey) (value : Option PeekedValue) :
    Prop :=
  ∃ a : HashArray signed mem rzarray, a.Undisturbed key ∧
    match value with
    | some p => ∃ e ∈ a.elements,
        e.key = some key.text ∧ p.Holds mem e.bucket.val
    | none => ∀ e ∈ a.elements,
        e.key = some key.text → IsUnprinted e.bucket.val

/-- What a variable is, by the symbol table.  A superglobal is an array. -/
def HoldsGlobal (symtable : ℕ) (x : GlobalVar) (value : Option PeekedValue) :
    Prop :=
  if x.global = .globals then HoldsElement signed mem symtable x.key value
  else
    ∃ a : HashArray signed mem symtable, a.Undisturbed x.global.symbol ∧
      ∃ e ∈ a.elements, e.key = some x.global.gloname ∧
        e.bucket.val.type = zvalTypeArray ∧
          HoldsElement signed mem e.bucket.val.value x.key value

end Holds

section Shown

variable {signed : Bool} {mem : Remote}

theorem HashArray.Undisturbed.copyZarrayBucket {rzarray : ℕ}
    {a : HashArray signed mem rzarray} {key : ShortKey}
    (h : a.Undisturbed key) :
    ∃ result, a.Finds key result ∧ ∃ enough, ∀ fuel ≥ enough,
      copyZarrayBucket mem key.text signed fuel rzarray = some result :=
  ⟨_, a.finds_of_undisturbed h, _, fun _ hfuel =>
    a.copyZarrayBucket_eq key hfuel⟩

theorem HoldsElement.sprintZarrayVal_some (floatText : ℕ → Bytes)
    {rzarray : ℕ} {key : ShortKey} {p : PeekedValue}
    (h : HoldsElement signed mem rzarray key (some p)) :
    ∃ enough, ∀ fuel ≥ enough, ∀ buf, ∃ out,
      sprintZarrayVal mem floatText signed fuel rzarray key.text buf 0
          strSize = some (out, .ok (p.text floatText).length) ∧
        slice out 0 (p.text floatText).length = p.text floatText := by
  obtain ⟨a, hundisturbed, e, he, hkey, hholds⟩ := h
  obtain ⟨result, hfinds, found, hlookup⟩ := hundisturbed.copyZarrayBucket
  obtain ⟨printed, hprints⟩ := hholds.sprintZval floatText
  have hresult : result = .ok e.bucket := hfinds.1 e he hkey
  refine ⟨max found printed, fun fuel hfuel buf => ?_⟩
  obtain ⟨out, hrun, hslice⟩ :=
    hprints fuel ((le_max_right _ _).trans hfuel) buf
  refine ⟨out, ?_, hslice⟩
  rw [sprintZarrayVal, hlookup fuel ((le_max_left _ _).trans hfuel), hresult]
  exact hrun

theorem HoldsElement.sprintZarrayVal_none (floatText : ℕ → Bytes)
    {rzarray : ℕ} {key : ShortKey}
    (h : HoldsElement signed mem rzarray key none) :
    ∃ enough, ∀ fuel ≥ enough, ∀ buf,
      sprintZarrayVal mem floatText signed fuel rzarray key.text buf 0
        strSize = some (buf, .error (.status Status.error)) := by
  obtain ⟨a, hundisturbed, hnone⟩ := h
  obtain ⟨result, hfinds, found, hlookup⟩ := hundisturbed.copyZarrayBucket
  refine ⟨found, fun fuel hfuel buf => ?_⟩
  rw [sprintZarrayVal, hlookup fuel hfuel]
  by_cases hthere : ∃ e ∈ a.elements, e.key = some key.text
  · obtain ⟨e, he, hkey⟩ := hthere
    rw [hfinds.1 e he hkey]
    exact (hnone e he hkey).sprintZval floatText fuel buf 0 strSize
  · rw [hfinds.2 fun e he hkey => hthere ⟨e, he, hkey⟩]

theorem HoldsGlobal.globalArray {symtable : ℕ} {x : GlobalVar}
    {value : Option PeekedValue}
    (h : HoldsGlobal signed mem symtable x value) :
    ∃ garray, HoldsElement signed mem garray x.key value ∧
      ∃ enough, ∀ fuel ≥ enough,
        globalArray mem signed fuel symtable x.entry = some (.ok garray) := by
  rw [HoldsGlobal] at h
  split at h
  · next hglobals =>
      refine ⟨symtable, h, 0, fun fuel _ => if_pos ?_⟩
      rw [GlobalVar.entry, hglobals]
      rfl
  · next hglobals =>
      obtain ⟨a, hundisturbed, e, he, hkey, -, helement⟩ := h
      obtain ⟨result, hfinds, enough, hlookup⟩ :=
        hundisturbed.copyZarrayBucket
      have hresult : result = .ok e.bucket := hfinds.1 e he hkey
      have hnamed : x.entry.gloname ≠ [] :=
        Global.gloname_ne_nil hglobals
      refine ⟨e.bucket.val.value, helement, enough, fun fuel hfuel => ?_⟩
      have hbucket := hlookup fuel hfuel
      rw [hresult] at hbucket
      rw [Phpspy.globalArray, if_neg hnamed]
      exact congrArg (Option.map (Except.map fun b => b.val.value)) hbucket

theorem HoldsGlobal.globalTurn (floatText : ℕ → Bytes) {symtable : ℕ}
    {x : GlobalVar} {value : Option PeekedValue}
    (h : HoldsGlobal signed mem symtable x value) :
    ∃ enough, ∀ fuel ≥ enough, ∀ buf, ∃ out,
      globalTurn mem floatText signed fuel symtable x.entry buf =
        match value with
        | some p => .finds out (p.text floatText)
        | none => .passes out := by
  obtain ⟨garray, helement, found, harray⟩ := h.globalArray
  cases value with
  | some p =>
      obtain ⟨printed, hprints⟩ := helement.sprintZarrayVal_some floatText
      refine ⟨max found printed, fun fuel hfuel buf => ?_⟩
      obtain ⟨out, hrun, hslice⟩ :=
        hprints fuel ((le_max_right _ _).trans hfuel) buf
      refine ⟨out, ?_⟩
      rw [Phpspy.globalTurn, harray fuel ((le_max_left _ _).trans hfuel)]
      dsimp only [GlobalVar.entry]
      rw [hrun]
      dsimp only
      rw [hslice]
  | none =>
      obtain ⟨printed, hprints⟩ := helement.sprintZarrayVal_none floatText
      refine ⟨max found printed, fun fuel hfuel buf => ⟨buf, ?_⟩⟩
      rw [Phpspy.globalTurn, harray fuel ((le_max_left _ _).trans hfuel)]
      dsimp only [GlobalVar.entry]
      rw [hprints fuel ((le_max_right _ _).trans hfuel)]

theorem globalsLoop_of_holds (floatText : ℕ → Bytes) {symtable : ℕ}
    {vars : List GlobalVar} {value : GlobalVar → Option PeekedValue}
    (h : ∀ x ∈ vars, HoldsGlobal signed mem symtable x (value x)) :
    ∃ enough, ∀ fuel ≥ enough, ∀ buf,
      (globalsLoop mem floatText signed fuel symtable
          (vars.map GlobalVar.entry) buf).ended = some (.ok ()) ∧
        (globalsLoop mem floatText signed fuel symtable
          (vars.map GlobalVar.entry) buf).events =
            vars.filterMap fun x => (value x).map fun p =>
              (x.entry, p.text floatText) := by
  induction vars with
  | nil => exact ⟨0, fun _ _ _ => ⟨rfl, rfl⟩⟩
  | cons x vars ih =>
      obtain ⟨hx, hvars⟩ := List.forall_mem_cons.mp h
      obtain ⟨first, hturn⟩ := hx.globalTurn floatText
      obtain ⟨enough, hrest⟩ := ih hvars
      refine ⟨max first enough, fun fuel hfuel buf => ?_⟩
      obtain ⟨out, hout⟩ := hturn fuel ((le_max_left _ _).trans hfuel) buf
      obtain ⟨hended, hevents⟩ :=
        hrest fuel ((le_max_right _ _).trans hfuel) out
      rw [List.map_cons, globalsLoop, hout]
      cases hvalue : value x with
      | none =>
          rw [List.filterMap_cons_none (by rw [hvalue]; rfl)]
          exact ⟨hended, hevents⟩
      | some p =>
          rw [List.filterMap_cons_some (by rw [hvalue]; rfl)]
          exact ⟨hended, congrArg _ hevents⟩

end Shown

/-- `-g` shows the values of the variables.  If the memory of the target has the
variables that the glospecs of the command line name, `trace_globals` comes to
an end and emits an event for each that has a value of a type that is printed,
in the order in which they are asked for, with the text of the value.  A value
that is short enough is rendered in full. -/
theorem traceGlobals_shows_values (signed : Bool) (mem : Remote)
    (floatText : ℕ → Bytes) (executorGlobalsAddr : ℕ)
    (vars : List GlobalVar) (value : GlobalVar → Option PeekedValue)
    (h : ∀ x ∈ vars, HoldsGlobal signed mem
      (ptrAdd executorGlobalsAddr symbolTableOffset) x (value x)) :
    ∃ entries,
      glopeekAddAll [] (vars.map GlobalVar.glospec) = some entries ∧
      ∃ enough, ∀ fuel ≥ enough, ∀ buf,
        let run := traceGlobals mem floatText signed fuel
          executorGlobalsAddr entries buf
        run.ended = some (.ok ()) ∧
          run.glopeeks =
            ((GlobalVar.asked vars).filterMap fun x =>
              (value x).map fun p =>
                .glopeek x.glospec (p.text floatText)) ∧
          ∀ x ∈ vars, ∀ v, value x = some (.value v) → v.Plain →
            v.render.length + 2 ≤ strSize →
              .glopeek x.glospec v.render ∈ run.glopeeks := by
  obtain ⟨enough, hloop⟩ := @globalsLoop_of_holds signed mem floatText
    (ptrAdd executorGlobalsAddr symbolTableOffset) (GlobalVar.asked vars)
    value fun x hx => h x (GlobalVar.mem_asked.mp hx)
  refine ⟨_, GlobalVar.glopeekAddAll_glospecs vars, enough,
    fun fuel hfuel buf => ?_⟩
  intro run
  obtain ⟨hended, hevents⟩ := hloop fuel hfuel buf
  have hglopeeks : run.glopeeks =
      (GlobalVar.asked vars).filterMap fun x => (value x).map fun p =>
        .glopeek x.glospec (p.text floatText) := by
    rw [GlobalsRun.glopeeks]
    refine (congrArg _ hevents).trans ?_
    rw [List.map_filterMap]
    refine List.filterMap_congr fun x _ => ?_
    rw [Option.map_map]
    rfl
  refine ⟨hended, hglopeeks, fun x hx v hvalue hplain hroom => ?_⟩
  rw [hglopeeks]
  refine List.mem_filterMap.mpr ⟨x, GlobalVar.mem_asked.mpr hx, ?_⟩
  rw [hvalue, Option.map_some, PeekedValue.text_eq_render hplain hroom]

/-! ## A superglobal with one element -/

/-- An array of one slot with one element. -/
def HashArray.single {signed : Bool} {mem : Remote} {rzarray : ℕ}
    (header : ZendArray) (copied : copyZendArray mem rzarray = .ok header)
    (mask_eq : header.nTableMask = 2 ^ 32 - 2 ^ 0) (e : Element)
    (slot : ∃ bs, copyProcMem mem (zendSlotAddr header.arData (-1)) 4 =
      .ok bs ∧ leVal bs = e.index)
    (linked : Linked mem header.arData [e]) (key : HoldsKey signed mem e) :
    HashArray signed mem rzarray where
  header := header
  copied := copied
  bits := 0
  bits_le := by decide
  mask_eq := mask_eq
  elements := [e]
  chain _ := [e]
  mem_chain slot hlow hhigh e' := by
    have hslot : slot = -1 := by omega
    rw [mask_eq, zendSlot_eq (by decide), hslot, Nat.pow_zero, Nat.mod_one]
    exact (and_iff_left rfl).symm
  slots slot hlow hhigh := by
    have hslot : slot = -1 := by omega
    rw [hslot]
    assumption
  linked _ _ _ := linked
  keys e' he' := by
    rw [List.mem_singleton.mp he']
    exact key
  distinct e₁ he₁ e₂ he₂ _ _ :=
    (List.mem_singleton.mp he₁).trans (List.mem_singleton.mp he₂).symm

def stringBucket (val : Zval) (text : Bytes) (addr : ℕ) : Bucket :=
  ⟨val, (djbx33a true text).toNat, addr⟩

def getBucket : Bucket :=
  stringBucket ⟨0x4000, zvalTypeArray, invalidIndex⟩ (lit "_GET") 0x3000

def sevenBucket : Bucket :=
  stringBucket ⟨7, zvalTypeLong, invalidIndex⟩ (lit "id") 0x6000

/-- The executor globals are at `0x1000`, and `$_GET` is `['id' => 7]`. -/
def requestImage : Remote :=
  .ofBlocks [
    (0x1130, ZendArray.image ⟨0, 2 ^ 32 - 1, 0x2000, 1⟩),
    (0x2000, getBucket.image),
    (0x3000, stringImage (lit "_GET")),
    (0x4000, ZendArray.image ⟨0, 2 ^ 32 - 1, 0x5000, 1⟩),
    (0x5000, sevenBucket.image),
    (0x6000, stringImage (lit "id"))]

theorem requestImage_copy {addr size : ℕ} (haddr : addr ≠ 0)
    (hsize : size ≤ 1024) :
    copyProcMem requestImage addr size = .ok (requestImage.bytes addr size) :=
  copyProcMem_eq_ok_iff.mpr ⟨haddr, rfl, hsize.trans (by decide), rfl⟩

theorem requestImage_strings :
    HoldsString requestImage 0x3000 (lit "_GET") ∧
      HoldsString requestImage 0x6000 (lit "id") := by
  have hread : ∀ raddr size, requestImage.fault raddr size = none :=
    fun _ _ => rfl
  constructor
  · exact HoldsString.of_bytes hread (by decide) (by decide) (by decide)
      (by decide +kernel) (by decide +kernel)
  · exact HoldsString.of_bytes hread (by decide) (by decide) (by decide)
      (by decide +kernel) (by decide +kernel)

def requestSymbols : HashArray true requestImage 0x1130 :=
  .single ⟨0, 2 ^ 32 - 1, 0x2000, 1⟩ (by rfl) (by decide)
    ⟨0, getBucket, some (lit "_GET")⟩
    ⟨_, requestImage_copy (by decide) (by decide), by decide +kernel⟩
    ⟨by decide, by rfl, by decide, trivial⟩
    ⟨by decide, requestImage_strings.1, by rfl⟩

def requestGet : HashArray true requestImage 0x4000 :=
  .single ⟨0, 2 ^ 32 - 1, 0x5000, 1⟩ (by rfl) (by decide)
    ⟨0, sevenBucket, some (lit "id")⟩
    ⟨_, requestImage_copy (by decide) (by decide), by decide +kernel⟩
    ⟨by decide, by rfl, by decide, trivial⟩
    ⟨by decide, requestImage_strings.2, by rfl⟩

/-- `get.id` -/
def varId : GlobalVar :=
  ⟨.get, ⟨lit "id", by decide, by decide⟩, by decide⟩

/-- `get.page` -/
def varPage : GlobalVar :=
  ⟨.get, ⟨lit "page", by decide, by decide⟩, by decide⟩

/-- `$_GET['id']` is 7, and there is no `$_GET['page']`. -/
def requestValue (x : GlobalVar) : Option PeekedValue :=
  if x = varId then some (.value (.long 7)) else none

theorem requestImage_holds {x : GlobalVar} (hx : x ∈ [varId, varPage, varId]) :
    HoldsGlobal true requestImage (ptrAdd 0x1000 symbolTableOffset) x
      (requestValue x) := by
  have hsymbol : requestSymbols.Undisturbed (Global.symbol .get) := by
    intro e he
    exact absurd he List.not_mem_nil
  have hget : ∀ key value, HoldsElement true requestImage 0x4000 key value →
      ∃ a : HashArray true requestImage 0x1130,
        a.Undisturbed (Global.symbol .get) ∧
          ∃ e ∈ a.elements, e.key = some (Global.gloname .get) ∧
            e.bucket.val.type = zvalTypeArray ∧
              HoldsElement true requestImage e.bucket.val.value key value :=
    fun _ _ helement =>
      ⟨requestSymbols, hsymbol, _, List.mem_singleton_self _, rfl, rfl,
        helement⟩
  have hcases : x = varId ∨ x = varPage := by
    simp only [List.mem_cons, List.not_mem_nil, or_false] at hx
    tauto
  rcases hcases with rfl | rfl
  · refine hget _ _ ⟨requestGet, fun e he => ?_, _,
      List.mem_singleton_self _, rfl, rfl, by decide⟩
    exact absurd he List.not_mem_nil
  · refine hget _ _ ⟨requestGet, fun e he => ?_, fun e he hkey => ?_⟩
    · rw [List.mem_singleton.mp he]
      exact ⟨lit "id", rfl, by decide⟩
    · rw [List.mem_singleton.mp he] at hkey
      exact absurd hkey (by decide)

/-- `-g get.id -g get.page -g get.id` shows 7 once. -/
theorem traceGlobals_shows_values_get :
    ∃ entries, glopeekAddAll [] [lit "get.id", lit "get.page", lit "get.id"] =
        some entries ∧
      ∃ enough, ∀ fuel ≥ enough, ∀ buf,
        (traceGlobals requestImage (fun _ => []) true fuel 0x1000 entries
          buf).glopeeks = [.glopeek (lit "get.id") (lit "7")] := by
  obtain ⟨entries, hadd, enough, hrun⟩ := traceGlobals_shows_values true
    requestImage (fun _ => []) 0x1000 [varId, varPage, varId] requestValue
    fun x hx => requestImage_holds hx
  refine ⟨entries, hadd, enough, fun fuel hfuel buf => ?_⟩
  rw [(hrun fuel hfuel buf).2.1]
  rfl

end Phpspy

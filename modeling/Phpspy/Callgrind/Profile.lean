import Mathlib.Algebra.Group.Action.Defs
import Mathlib.Algebra.Order.BigOperators.Group.List
import Phpspy.Callgrind.Accounting
import Phpspy.Callgrind.Dump

/-!
# What a reader of the dump learns about a run

The tables are kept under location strings, and what is printed for an entry is
the location that was first seen with that string.  If the strings tell the
locations apart, the costs in the dump are those of the locations.
-/

namespace Phpspy

namespace Callgrind

open ByteText FindOrAdd

/-! ## Where the entries come from -/

/-- The location of an entry is one of some locations, and its string is the
key. -/
def IsFrom (locs : TraceLoc → Prop) (k : Bytes) (loc : TraceLoc) : Prop :=
  locs loc ∧ sprintLoc loc = k

def Callee.IsFrom (locs : TraceLoc → Prop) (k : Bytes) (c : Callee) : Prop :=
  Callgrind.IsFrom locs k c.loc

structure Caller.IsFrom (locs : TraceLoc → Prop) (k : Bytes) (c : Caller) :
    Prop where
  loc : Callgrind.IsFrom locs k c.loc
  callees : Entries (Callee.IsFrom locs) c.callees

section IsFrom

variable {locs : TraceLoc → Prop}

theorem enterCaller_isFrom {callers : Table Bytes Caller}
    (h : Entries (Caller.IsFrom locs) callers) {slot : Slot}
    (hslot : IsFrom locs slot.str slot.loc) (i : ℕ) :
    Entries (Caller.IsFrom locs) (enterCaller callers slot i) := by
  have hnew : Caller.IsFrom locs slot.str (Caller.new slot.loc) :=
    ⟨hslot, entries_empty _⟩
  rw [enterCaller]
  split
  · exact (h.findOrAdd hnew).modify fun c hc => ⟨hc.loc, hc.callees⟩
  · exact h.findOrAdd hnew

theorem Caller.IsFrom.addCall {k : Bytes} {c : Caller}
    (h : c.IsFrom locs k) {slot : Slot}
    (hslot : Callgrind.IsFrom locs slot.str slot.loc) (differs : Bool) :
    (c.addCall slot differs).IsFrom locs k := by
  have hnew : Callee.IsFrom locs slot.str (Callee.new slot.loc) := hslot
  exact ⟨h.loc, (h.callees.findOrAdd hnew).modify fun _ hd => hd⟩

theorem digestFrame_isFrom {prev : List Slot} {slot : Slot} {i : ℕ}
    {state : Option Bytes × Table Bytes Caller}
    (hslot : IsFrom locs slot.str slot.loc)
    (h : Entries (Caller.IsFrom locs) state.2) :
    Entries (Caller.IsFrom locs) (digestFrame prev (slot, i) state).2 := by
  have henter := enterCaller_isFrom h hslot i
  simp only [digestFrame]
  split
  · exact henter
  · exact henter.modify fun c hc => hc.addCall hslot _

theorem digestLoop_isFrom {prev : List Slot} {callers : Table Bytes Caller}
    (h : Entries (Caller.IsFrom locs) callers) {frames : List (Slot × ℕ)}
    (hframes : ∀ f ∈ frames, IsFrom locs f.1.str f.1.loc) :
    Entries (Caller.IsFrom locs) (digestLoop prev callers frames).2 := by
  induction frames with
  | nil => exact h
  | cons frame frames ih =>
      rw [digestLoop_cons]
      exact digestFrame_isFrom (hframes frame List.mem_cons_self)
        (ih fun f hf => hframes f (List.mem_cons_of_mem frame hf))

end IsFrom

/-! ## The locations of a sample -/

namespace Sample

/-- The locations of the frames that the handler keeps, leaf first. -/
def locs (s : Sample) : List TraceLoc :=
  (s.events.filterMap frameLoc).take maxStackDepth

def places (s : Sample) : List Place :=
  s.locs.map place

theorem slots_eq (s : Sample) : s.slots = s.locs.map Slot.ofLoc :=
  List.map_take.symm

theorem stack_eq (s : Sample) : s.stack = s.locs.map sprintLoc := by
  rw [stack, slots_eq, List.map_map]
  rfl

theorem locs_length_le (s : Sample) : s.locs.length ≤ maxStackDepth :=
  List.length_take_le _ _

end Sample

theorem tableAfter_isFrom {locs : TraceLoc → Prop} {samples : List Sample}
    (h : ∀ s ∈ samples, ∀ loc ∈ s.locs, locs loc) :
    Entries (Caller.IsFrom locs) (tableAfter samples) := by
  rw [tableAfter_eq]
  have hrun : ∀ state : List Slot × Table Bytes Caller,
      Entries (Caller.IsFrom locs) state.2 →
        Entries (Caller.IsFrom locs)
          (samples.foldl (fun state s => s.digest state) state).2 := by
    induction samples with
    | nil => exact fun _ hstate => hstate
    | cons s samples ih =>
        intro state hstate
        rw [List.foldl_cons]
        apply ih fun s' hs' => h s' (List.mem_cons_of_mem s hs')
        rw [Sample.digest]
        split
        · apply digestLoop_isFrom hstate
          intro frame hframe
          have hslot : frame.1 ∈ s.slots := by
            have hget := List.mem_zipIdx' hframe
            rw [hget.2]
            exact List.getElem_mem _
          rw [Sample.slots_eq] at hslot
          obtain ⟨loc, hloc, hof⟩ := List.mem_map.mp hslot
          rw [← hof]
          exact ⟨h s List.mem_cons_self loc hloc, rfl⟩
        · exact hstate
  exact hrun ([], ∅) (entries_empty _)

/-! ## Strings that tell locations apart -/

/-- A location that fits into its string, with names without a newline and
without a blank in front of the file. -/
structure IsReadable (loc : TraceLoc) : Prop where
  oneLine : IsOneLine loc
  fits : loc.text.length < strSize
  noBlank : (32 : UInt8) ∉ fnText loc

theorem TraceLoc.text_eq (loc : TraceLoc) :
    loc.text = fnText loc ++ lit " " ++
      (cstr loc.file ++ 58 :: decimalInt loc.lineno) := by
  have hcolon : lit ":" = [58] := rfl
  simp only [TraceLoc.text, fnText, hcolon, List.append_assoc,
    List.singleton_append]

theorem sprintLoc_congr {a b : TraceLoc} (h : place a = place b) :
    sprintLoc a = sprintLoc b := by
  rw [place, place, Place.mk.injEq] at h
  obtain ⟨hfile, hfn, hline⟩ := h
  rw [sprintLoc, sprintLoc, TraceLoc.text_eq, TraceLoc.text_eq, hfile, hfn,
    hline]

theorem IsReadable.sprintLoc_eq {loc : TraceLoc} (h : IsReadable loc) :
    sprintLoc loc = loc.text :=
  List.take_of_length_le (Nat.le_sub_one_of_lt h.fits)

theorem IsReadable.place_eq_iff {a b : TraceLoc} (ha : IsReadable a)
    (hb : IsReadable b) : place a = place b ↔ sprintLoc a = sprintLoc b := by
  refine ⟨sprintLoc_congr, fun h => ?_⟩
  rw [ha.sprintLoc_eq, hb.sprintLoc_eq, TraceLoc.text_eq,
    TraceLoc.text_eq] at h
  have hsides := congrArg atBlank h
  rw [atBlank_append ha.noBlank, atBlank_append hb.noBlank,
    Prod.mk.injEq] at hsides
  obtain ⟨hfn, hrest⟩ := hsides
  have hcolon : ∀ i, (58 : UInt8) ∉ decimalInt i :=
    notMem_decimalInt (by decide) (by decide)
  have hlast := congrArg (memrchr 58) hrest
  rw [memrchr_append_of_notMem (hcolon _),
    memrchr_append_of_notMem (hcolon _), Option.some.injEq] at hlast
  obtain ⟨hfile, hnumber⟩ := List.append_inj hrest hlast
  have hline := congrArg readInt (List.cons.inj hnumber).2
  rw [readInt_decimalInt, readInt_decimalInt, Option.some.injEq] at hline
  rw [place, place, hfile, hfn, hline]

/-! ## The costs in a profile -/

def Profile.selfCost (p : Profile) (x : Place) : ℕ :=
  (p.selves.map fun row => if row.1 = x then row.2 else 0).sum

/-- A number that a profile has for a call. -/
def Profile.callSum (p : Profile) (g : CallCost → ℕ) (x y : Place) : ℕ :=
  (p.calls.map fun c => if c.caller = x ∧ c.callee = y then g c else 0).sum

section Costs

variable {locs : TraceLoc → Prop} {callers : Table Bytes Caller}

theorem place_eq_iff_key (hlocs : ∀ loc, locs loc → IsReadable loc)
    {k : Bytes} {loc x : TraceLoc} (h : IsFrom locs k loc) (hx : locs x) :
    place loc = place x ↔ k = sprintLoc x := by
  rw [(hlocs loc h.1).place_eq_iff (hlocs x hx), h.2]

theorem selfCost_profile (hlocs : ∀ loc, locs loc → IsReadable loc)
    (h : Entries (Caller.IsFrom locs) callers) {x : TraceLoc} (hx : locs x) :
    (profile callers).selfCost (place x) =
      exclusive callers (sprintLoc x) := by
  have hsum := sum_rows_ite strLe Caller.exclusive callers (sprintLoc x)
    (q := fun c => place c.loc = place x)
    fun k c hc => place_eq_iff_key hlocs (h k c hc).loc hx
  rw [exclusive, ← hsum, Profile.selfCost, profile, hashSort, List.map_map,
    List.map_map]
  rfl

theorem callSum_profile (hlocs : ∀ loc, locs loc → IsReadable loc)
    (h : Entries (Caller.IsFrom locs) callers) {g : CallCost → ℕ}
    {g' : Callee → ℕ} (hg : ∀ c d, g (Caller.call c d) = g' d)
    {x y : TraceLoc} (hx : locs x) (hy : locs y) :
    (profile callers).callSum g (place x) (place y) =
      reading (fun c => reading g' c.callees (sprintLoc y)) callers
        (sprintLoc x) := by
  have hcallees : ∀ k c, callers.lookup k = some c →
      ((rows strLe c.callees).map fun e =>
        if place e.2.loc = place y then g' e.2 else 0).sum =
          reading g' c.callees (sprintLoc y) := by
    intro k c hc
    exact sum_rows_ite strLe g' c.callees (sprintLoc y)
      (q := fun d => place d.loc = place y)
      fun k' d hd => place_eq_iff_key hlocs ((h k c hc).callees k' d hd) hy
  have hsum := sum_rows_ite strLe
    (fun c => reading g' c.callees (sprintLoc y)) callers (sprintLoc x)
    (q := fun c => place c.loc = place x)
    fun k c hc => place_eq_iff_key hlocs (h k c hc).loc hx
  rw [← hsum, Profile.callSum, profile, hashSort, List.flatMap_def,
    List.map_flatten, List.sum_flatten, List.map_map, List.map_map,
    List.map_map]
  refine congrArg List.sum (List.map_congr_left fun e he => ?_)
  have hc := (mem_rows strLe).mp he
  simp only [Function.comp_apply, Caller.calls, hashSort, List.map_map]
  rw [← hcallees e.1 e.2 hc]
  by_cases hplace : place e.2.loc = place x
  · rw [if_pos hplace]
    refine congrArg List.sum (List.map_congr_left fun d _ => ?_)
    simp only [Function.comp_apply, hg]
    exact if_congr (and_iff_right hplace) rfl rfl
  · rw [if_neg hplace]
    refine List.sum_eq_zero fun n hn => ?_
    obtain ⟨d, -, rfl⟩ := List.mem_map.mp hn
    exact if_neg fun hboth => hplace hboth.1

theorem exists_of_mem_selves (h : Entries (Caller.IsFrom locs) callers)
    {row : Place × ℕ} (hrow : row ∈ (profile callers).selves) :
    ∃ loc, locs loc ∧ place loc = row.1 := by
  obtain ⟨c, hc, rfl⟩ := List.mem_map.mp hrow
  obtain ⟨k, hk⟩ := mem_hashSort.mp hc
  exact ⟨c.loc, (h k c hk).loc.1, rfl⟩

theorem exists_of_mem_calls (h : Entries (Caller.IsFrom locs) callers)
    {call : CallCost} (hcall : call ∈ (profile callers).calls) :
    (∃ loc, locs loc ∧ place loc = call.caller) ∧
      ∃ loc, locs loc ∧ place loc = call.callee := by
  obtain ⟨c, hc, hcall⟩ := List.mem_flatMap.mp hcall
  obtain ⟨d, hd, rfl⟩ := List.mem_map.mp hcall
  obtain ⟨k, hk⟩ := mem_hashSort.mp hc
  obtain ⟨k', hk'⟩ := mem_hashSort.mp hd
  exact ⟨⟨c.loc, (h k c hk).loc.1, rfl⟩,
    d.loc, ((h k c hk).callees k' d hk').1, rfl⟩

theorem nodup_place_rows {ν : Type} {loc : ν → TraceLoc}
    {t : Table Bytes ν}
    (h : Entries (fun k v => Callgrind.IsFrom locs k (loc v)) t) :
    ((hashSort t).map fun v => place (loc v)).Nodup := by
  rw [hashSort, List.map_map, List.nodup_iff_pairwise_ne, List.pairwise_map]
  refine (List.nodupKeys_iff_pairwise.mp (nodupKeys_rows strLe t)).imp_of_mem
    fun {a b} ha hb hne heq => hne ?_
  have hkey := sprintLoc_congr heq
  rwa [(h a.1 a.2 ((mem_rows strLe).mp ha)).2,
    (h b.1 b.2 ((mem_rows strLe).mp hb)).2] at hkey

theorem nodup_selves (h : Entries (Caller.IsFrom locs) callers) :
    ((profile callers).selves.map Prod.fst).Nodup := by
  have hnodup := nodup_place_rows fun k c hc => (h k c hc).loc
  rwa [profile, List.map_map]

theorem nodup_calls (h : Entries (Caller.IsFrom locs) callers) :
    ((profile callers).calls.map fun c => (c.caller, c.callee)).Nodup := by
  have hcallers := nodup_place_rows fun k c hc => (h k c hc).loc
  rw [List.nodup_iff_pairwise_ne, List.pairwise_map] at hcallers
  rw [profile, List.map_flatMap, List.nodup_flatMap]
  constructor
  · intro c hc
    obtain ⟨k, hk⟩ := mem_hashSort.mp hc
    have hcallees := nodup_place_rows (h k c hk).callees
    rw [Caller.calls, List.map_map]
    rw [List.nodup_iff_pairwise_ne, List.pairwise_map] at hcallees ⊢
    exact hcallees.imp fun hne heq => hne (Prod.mk.inj heq).2
  · refine hcallers.imp fun {c c'} hne pair hpair hpair' => hne ?_
    obtain ⟨call, hcall, rfl⟩ := List.mem_map.mp hpair
    obtain ⟨call', hcall', heq⟩ := List.mem_map.mp hpair'
    obtain ⟨d, -, rfl⟩ := List.mem_map.mp hcall
    obtain ⟨d', -, rfl⟩ := List.mem_map.mp hcall'
    exact (Prod.mk.inj heq).1.symm

end Costs

/-! ## Counting strings and counting places -/

/-- Each element of a list with the one before it. -/
def adjacent {α : Type} (stack : List α) : List (α × α) :=
  stack.tail.zip stack

theorem adjacent_map {α β : Type} (f : α → β) (stack : List α) :
    adjacent (stack.map f) = (adjacent stack).map (Prod.map f f) := by
  rw [adjacent, adjacent, ← List.map_tail, List.zip_map]

theorem mem_of_mem_adjacent {α : Type} {stack : List α} {a b : α}
    (h : (a, b) ∈ adjacent stack) : a ∈ stack ∧ b ∈ stack :=
  ⟨List.mem_of_mem_tail (List.of_mem_zip h).1, (List.of_mem_zip h).2⟩

section Stacks

variable {locs : TraceLoc → Prop} {s : Sample}

theorem head?_stack_eq_iff (hlocs : ∀ loc, locs loc → IsReadable loc)
    (hs : ∀ loc ∈ s.locs, locs loc) {x : TraceLoc} (hx : locs x) :
    s.stack.head? = some (sprintLoc x) ↔
      s.places.head? = some (place x) := by
  rw [Sample.stack_eq, Sample.places, List.head?_map, List.head?_map]
  cases hhead : s.locs.head? with
  | none => simp
  | some loc =>
      have hloc : locs loc := hs loc (List.mem_of_head? hhead)
      rw [Option.map_some, Option.map_some, Option.some.injEq,
        Option.some.injEq, (hlocs loc hloc).place_eq_iff (hlocs x hx)]

theorem count_calls_stack (hlocs : ∀ loc, locs loc → IsReadable loc)
    (hs : ∀ loc ∈ s.locs, locs loc) {x y : TraceLoc} (hx : locs x)
    (hy : locs y) :
    (calls s.stack).count (sprintLoc x, sprintLoc y) =
      (adjacent s.places).count (place x, place y) := by
  have hcalls : calls s.stack =
      (adjacent s.locs).map (Prod.map sprintLoc sprintLoc) := by
    rw [Sample.stack_eq]
    exact adjacent_map sprintLoc s.locs
  rw [hcalls, Sample.places, adjacent_map, List.count_eq_countP,
    List.count_eq_countP, List.countP_map, List.countP_map]
  refine List.countP_congr fun pair hpair => ?_
  obtain ⟨a, b⟩ := pair
  obtain ⟨ha, hb⟩ := mem_of_mem_adjacent hpair
  have ha' := (hlocs a (hs a ha)).place_eq_iff (hlocs x hx)
  have hb' := (hlocs b (hs b hb)).place_eq_iff (hlocs y hy)
  simp only [Function.comp_apply, Prod.map_apply, beq_iff_eq,
    Prod.mk.injEq, ha', hb']

theorem exists_of_mem_places (hs : ∀ loc ∈ s.locs, locs loc) {x : Place}
    (hx : x ∈ s.places) : ∃ loc, locs loc ∧ place loc = x := by
  obtain ⟨loc, hloc, rfl⟩ := List.mem_map.mp hx
  exact ⟨loc, hs loc hloc, rfl⟩

end Stacks

/-! ## Bounds -/

theorem length_adjacent_le {α : Type} (stack : List α) :
    (adjacent stack).length ≤ stack.length := by
  rw [adjacent, List.length_zip]
  exact Nat.min_le_right _ _

theorem exclusive_tableAfter_le (samples : List Sample) (x : Bytes) :
    exclusive (tableAfter samples) x ≤ samples.length := by
  rw [exclusive_tableAfter]
  exact List.countP_le_length.trans (List.length_filter_le _ _)

theorem inclusive_tableAfter_le (samples : List Sample) (x y : Bytes) :
    inclusive (tableAfter samples) x y ≤ samples.length * maxStackDepth := by
  have hstack : ∀ s : Sample,
      (calls s.stack).count (x, y) ≤ maxStackDepth := by
    intro s
    have hlen : s.stack.length ≤ maxStackDepth := by
      rw [Sample.stack_eq, List.length_map]
      exact s.locs_length_le
    exact List.count_le_length.trans ((length_adjacent_le s.stack).trans hlen)
  rw [inclusive_tableAfter]
  refine (List.sum_le_card_nsmul _ maxStackDepth fun n hn => ?_).trans ?_
  · obtain ⟨s, -, rfl⟩ := List.mem_map.mp hn
    exact hstack s
  · rw [List.length_map, smul_eq_mul]
    exact Nat.mul_le_mul_right _ (List.length_filter_le _ _)

theorem count_tableAfter_le (samples : List Sample) (x y : Bytes) :
    count (tableAfter samples) x y ≤ inclusive (tableAfter samples) x y := by
  rw [tableAfter_eq]
  exact foldl_digest_count_le x y samples ([], ∅)
    (le_of_eq ((reading_empty _ x).trans (reading_empty _ x).symm))

/-- The costs are of type `uint64_t`.  They do not wrap around before the
2 ^ 57th sample. -/
theorem costs_lt {samples : List Sample} (hfew : samples.length < 2 ^ 57)
    (x y : Bytes) :
    exclusive (tableAfter samples) x < 2 ^ 64 ∧
      inclusive (tableAfter samples) x y < 2 ^ 64 ∧
      count (tableAfter samples) x y < 2 ^ 64 := by
  have hexclusive := exclusive_tableAfter_le samples x
  have hinclusive := inclusive_tableAfter_le samples x y
  have hcount := count_tableAfter_le samples x y
  rw [maxStackDepth] at hinclusive
  omega

theorem tableAfter_isPrintable {samples : List Sample}
    (h : ∀ s ∈ samples, ∀ loc ∈ s.locs, IsReadable loc)
    (hfew : samples.length < 2 ^ 56) :
    Entries (fun _ c => Caller.IsPrintable c) (tableAfter samples) := by
  have hfrom := tableAfter_isFrom h
  have hdepth : samples.length * maxStackDepth < 2 ^ 63 := by
    rw [maxStackDepth]
    omega
  intro k c hc
  refine ⟨(hfrom k c hc).loc.1.oneLine, ?_, ?_⟩
  · have hle := exclusive_tableAfter_le samples k
    rw [exclusive, reading, hc] at hle
    exact lt_of_le_of_lt hle (by omega)
  · intro k' d hd
    have hinc := inclusive_tableAfter_le samples k k'
    have hcount := count_tableAfter_le samples k k'
    simp only [inclusive, count, reading, hc, hd, Option.map_some,
      Option.getD_some] at hinc hcount
    exact ⟨((hfrom k c hc).callees k' d hd).1.oneLine, by omega, by omega⟩

/-! ## The profile of a run -/

def RunLocs (samples : List Sample) (loc : TraceLoc) : Prop :=
  ∃ s ∈ samples, loc ∈ s.locs

theorem selfCost_run {samples : List Sample}
    (h : ∀ loc, RunLocs samples loc → IsReadable loc) (x : Place) :
    (profile (tableAfter samples)).selfCost x =
      (samples.filter Sample.completed).countP
        fun s => s.places.head? = some x := by
  have hlocs : ∀ s ∈ samples, ∀ loc ∈ s.locs, RunLocs samples loc :=
    fun s hs loc hloc => ⟨s, hs, hloc⟩
  have hfrom := tableAfter_isFrom hlocs
  by_cases hx : ∃ loc, RunLocs samples loc ∧ place loc = x
  · obtain ⟨loc, hloc, rfl⟩ := hx
    rw [selfCost_profile h hfrom hloc, exclusive_tableAfter]
    refine List.countP_congr fun s hs => ?_
    rw [decide_eq_true_iff, decide_eq_true_iff]
    exact head?_stack_eq_iff h (hlocs s (List.mem_filter.mp hs).1) hloc
  · -- a place that no frame has is in no row and in no sample
    have hzero : (profile (tableAfter samples)).selfCost x = 0 := by
      refine List.sum_eq_zero fun n hn => ?_
      obtain ⟨row, hrow, rfl⟩ := List.mem_map.mp hn
      obtain ⟨loc, hloc, hplace⟩ := exists_of_mem_selves hfrom hrow
      exact if_neg fun heq => hx ⟨loc, hloc, hplace.trans heq⟩
    rw [hzero, eq_comm, List.countP_eq_zero]
    intro s hs
    rw [decide_eq_true_iff]
    intro hhead
    exact hx (exists_of_mem_places (hlocs s (List.mem_filter.mp hs).1)
      (List.mem_of_head? hhead))

theorem inclusive_run {samples : List Sample}
    (h : ∀ loc, RunLocs samples loc → IsReadable loc) (x y : Place) :
    (profile (tableAfter samples)).callSum CallCost.inclusive x y =
      ((samples.filter Sample.completed).map
        fun s => (adjacent s.places).count (x, y)).sum := by
  have hlocs : ∀ s ∈ samples, ∀ loc ∈ s.locs, RunLocs samples loc :=
    fun s hs loc hloc => ⟨s, hs, hloc⟩
  have hfrom := tableAfter_isFrom hlocs
  by_cases hboth : (∃ loc, RunLocs samples loc ∧ place loc = x) ∧
      ∃ loc, RunLocs samples loc ∧ place loc = y
  · obtain ⟨⟨a, ha, rfl⟩, b, hb, rfl⟩ := hboth
    have hsum := callSum_profile (g := CallCost.inclusive) h hfrom
      (fun _ _ => rfl) ha hb
    rw [hsum, ← inclusive, inclusive_tableAfter]
    refine congrArg List.sum (List.map_congr_left fun s hs => ?_)
    exact count_calls_stack h (hlocs s (List.mem_filter.mp hs).1) ha hb
  · have hzero : (profile (tableAfter samples)).callSum
        CallCost.inclusive x y = 0 := by
      refine List.sum_eq_zero fun n hn => ?_
      obtain ⟨call, hcall, rfl⟩ := List.mem_map.mp hn
      obtain ⟨⟨a, ha, hx⟩, b, hb, hy⟩ := exists_of_mem_calls hfrom hcall
      exact if_neg fun heq =>
        hboth ⟨⟨a, ha, hx.trans heq.1⟩, b, hb, hy.trans heq.2⟩
    rw [hzero, eq_comm]
    refine List.sum_eq_zero fun n hn => ?_
    obtain ⟨s, hs, rfl⟩ := List.mem_map.mp hn
    have hmem := hlocs s (List.mem_filter.mp hs).1
    refine List.count_eq_zero.mpr fun hpair => hboth ?_
    obtain ⟨hx, hy⟩ := mem_of_mem_adjacent hpair
    exact ⟨exists_of_mem_places hmem hx, exists_of_mem_places hmem hy⟩

theorem count_le_of_mem_calls {samples : List Sample} {call : CallCost}
    (h : call ∈ (profile (tableAfter samples)).calls) :
    call.count ≤ call.inclusive := by
  obtain ⟨c, hc, hcall⟩ := List.mem_flatMap.mp h
  obtain ⟨d, hd, rfl⟩ := List.mem_map.mp hcall
  obtain ⟨k, hk⟩ := mem_hashSort.mp hc
  obtain ⟨k', hk'⟩ := mem_hashSort.mp hd
  have hle := count_tableAfter_le samples k k'
  simp only [count, inclusive, reading, hk, hk', Option.map_some,
    Option.getD_some] at hle
  exact hle

/-- A profile is that of some stacks, leaf first.  It has one row for a place and
one for a call.  The cost of a place is how many of the stacks have it as their
leaf, that of a call is how often it occurs in them. -/
structure Profile.IsOf (p : Profile) (callStacks : List (List Place)) :
    Prop where
  selves_nodup : (p.selves.map Prod.fst).Nodup
  calls_nodup : (p.calls.map fun c => (c.caller, c.callee)).Nodup
  self : ∀ x, p.selfCost x =
    callStacks.countP fun stack => stack.head? = some x
  inclusive : ∀ x y, p.callSum CallCost.inclusive x y =
    (callStacks.map fun stack => (adjacent stack).count (x, y)).sum
  count_le : ∀ c ∈ p.calls, c.count ≤ c.inclusive

theorem profile_isOf {samples : List Sample}
    (hlocs : ∀ s ∈ samples, ∀ loc ∈ s.locs, IsReadable loc) :
    (profile (tableAfter samples)).IsOf
      ((samples.filter Sample.completed).map Sample.places) := by
  have hreadable : ∀ loc, RunLocs samples loc → IsReadable loc := by
    rintro loc ⟨s, hs, hloc⟩
    exact hlocs s hs loc hloc
  have hfrom : Entries (Caller.IsFrom (RunLocs samples))
      (tableAfter samples) :=
    tableAfter_isFrom fun s hs loc hloc => ⟨s, hs, hloc⟩
  refine ⟨nodup_selves hfrom, nodup_calls hfrom, fun x => ?_,
    fun x y => ?_, fun c hc => count_le_of_mem_calls hc⟩
  · rw [selfCost_run hreadable, List.countP_map]
    rfl
  · rw [inclusive_run hreadable, List.map_map]
    rfl

/-- A reader of the dump gets one row for each location and one for each call.
The cost of a location is the number of complete samples that have it as their
leaf, that of a call is how often it occurs in complete samples.  The dump does
not depend on where the entries are in the tables. -/
theorem readProfile_dump_tableAfter (samples : List Sample)
    (hlocs : ∀ s ∈ samples, ∀ loc ∈ s.locs, IsReadable loc)
    (hfew : samples.length < 2 ^ 56) :
    ∃ p, readProfile (dump (tableAfter samples)) = some p ∧
      p.IsOf ((samples.filter Sample.completed).map Sample.places) ∧
      ∀ t, Alike t (tableAfter samples) →
        dump t = dump (tableAfter samples) :=
  ⟨profile (tableAfter samples),
    readProfile_dump (tableAfter_isPrintable hlocs hfew), profile_isOf hlocs,
    fun _ ht => dump_congr ht⟩

/-- Two samples of a function `C::f` that is called in line 3, the second of
them aborted, and one of its caller. -/
theorem readProfile_dump_tableAfter_three_samples :
    let main : TraceLoc :=
      { func := lit "main", cls := [], file := lit "a.php", lineno := 3 }
    let f : TraceLoc :=
      { func := lit "f", cls := lit "C", file := lit "a.php", lineno := 7 }
    let inF (ended : Option (Bytes × ℤ)) : Sample :=
      { events := [.frame { loc := f, depth := 0 },
          .frame { loc := main, depth := 1 }]
        ended := ended
        isRecord := by simp [Event.isRecord] }
    let inMain : Sample :=
      { events := [.frame { loc := main, depth := 0 }]
        ended := some ([], 1)
        isRecord := by simp [Event.isRecord] }
    let samples := [inF (some ([], 1)), inF none, inMain]
    (∀ s ∈ samples, ∀ loc ∈ s.locs, IsReadable loc) ∧
      ∃ p, readProfile (dump (tableAfter samples)) = some p ∧
        p.selfCost (place f) = 1 ∧ p.selfCost (place main) = 1 ∧
          p.callSum CallCost.inclusive (place main) (place f) = 1 := by
  intro main f inF inMain samples
  have hmain : IsReadable main :=
    ⟨⟨by decide, by decide, by decide⟩, by decide, by decide⟩
  have hf : IsReadable f :=
    ⟨⟨by decide, by decide, by decide⟩, by decide, by decide⟩
  have hlocs : ∀ s ∈ samples, ∀ loc ∈ s.locs, IsReadable loc := by
    have hin (ended : Option (Bytes × ℤ)) :
        ∀ loc ∈ (inF ended).locs, IsReadable loc :=
      List.forall_mem_cons.mpr ⟨hf, List.forall_mem_cons.mpr
        ⟨hmain, fun loc hloc => absurd hloc List.not_mem_nil⟩⟩
    have hmainOnly : ∀ loc ∈ inMain.locs, IsReadable loc :=
      List.forall_mem_cons.mpr
        ⟨hmain, fun loc hloc => absurd hloc List.not_mem_nil⟩
    exact List.forall_mem_cons.mpr ⟨hin _, List.forall_mem_cons.mpr
      ⟨hin _, List.forall_mem_cons.mpr
        ⟨hmainOnly, fun s hs => absurd hs List.not_mem_nil⟩⟩⟩
  obtain ⟨p, hread, hp, -⟩ :=
    readProfile_dump_tableAfter samples hlocs (by decide)
  refine ⟨hlocs, p, hread, ?_, ?_, ?_⟩
  · rw [hp.self]
    decide
  · rw [hp.self]
    decide
  · rw [hp.inclusive]
    decide

end Callgrind

end Phpspy

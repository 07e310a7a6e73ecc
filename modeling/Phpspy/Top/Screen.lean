import Mathlib.Data.List.DropRight
import Mathlib.Data.List.Sort
import Mathlib.Data.Prod.Lex
import Phpspy.Top.MainLoop

/-!
# What top mode draws

`display` sorts the functions by what they have counted since the last display,
and draws as many of them as the screen has room for.  After any lines and
displays the rows are the functions at the top, with their counts.
-/

namespace Phpspy
namespace Top

open ByteText

/-! ## The order of the functions -/

/-- The counts that `func_list_compare` looks at, in its order. -/
def FuncEntry.key (e : FuncEntry) : ℕ ×ₗ ℕ ×ₗ ℕ ×ₗ ℕ :=
  toLex (e.countExcl, toLex (e.countIncl,
    toLex (e.totalCountExcl, e.totalCountIncl)))

def FuncEntry.rank (e : FuncEntry) : ℕ ×ₗ ℕ :=
  toLex (e.countExcl, e.countIncl)

/-- One of the comparisons that `func_list_compare` is made of. -/
def compareCounts (a b : ℕ) (next : ℤ) : ℤ :=
  if b = a then next else if b > a then 1 else -1

theorem compareCounts_nonpos_iff {a b : ℕ} {next : ℤ} :
    compareCounts a b next ≤ 0 ↔ b < a ∨ b = a ∧ next ≤ 0 := by
  unfold compareCounts
  split_ifs <;> omega

theorem compareCounts_swap (a b : ℕ) (next : ℤ) :
    compareCounts b a (-next) = -compareCounts a b next := by
  unfold compareCounts
  split_ifs <;> omega

theorem funcListCompare_eq (fa fb : FuncEntry) :
    funcListCompare fa fb =
      compareCounts fa.countExcl fb.countExcl
        (compareCounts fa.countIncl fb.countIncl
          (compareCounts fa.totalCountExcl fb.totalCountExcl
            (compareCounts fa.totalCountIncl fb.totalCountIncl 0))) :=
  rfl

theorem funcListCompare_nonpos_iff {fa fb : FuncEntry} :
    funcListCompare fa fb ≤ 0 ↔ fb.key ≤ fa.key := by
  simp only [funcListCompare_eq, compareCounts_nonpos_iff, FuncEntry.key,
    Prod.Lex.toLex_le_toLex, le_refl, and_true]
  rw [Nat.le_iff_lt_or_eq]

theorem funcListCompare_swap (fa fb : FuncEntry) :
    funcListCompare fb fa = -funcListCompare fa fb := by
  rw [funcListCompare_eq, funcListCompare_eq, ← compareCounts_swap,
    ← compareCounts_swap, ← compareCounts_swap, ← compareCounts_swap,
    neg_zero]

theorem rank_le_of_key_le {fa fb : FuncEntry} (h : fb.key ≤ fa.key) :
    fb.rank ≤ fa.rank := by
  simp only [FuncEntry.key, FuncEntry.rank, Prod.Lex.toLex_le_toLex] at h ⊢
  omega

/-- A `qsort` that sorts if the comparison is an order. -/
structure SortingQsort extends Qsort where
  sorted : ∀ compare pointers,
    (∀ a ∈ pointers, ∀ b ∈ pointers, compare b a = -compare a b) →
    (∀ a ∈ pointers, ∀ b ∈ pointers, ∀ c ∈ pointers,
      compare a b ≤ 0 → compare b c ≤ 0 → compare a c ≤ 0) →
      (sort compare pointers).Pairwise fun a b => compare a b ≤ 0

theorem compareAt_nonpos_iff {c : Counters} {i j : ℕ} {fa fb : FuncEntry}
    (hi : c.funcMap[i]? = some fa) (hj : c.funcMap[j]? = some fb) :
    c.compareAt i j ≤ 0 ↔ fb.key ≤ fa.key := by
  rw [Counters.compareAt, hi, hj]
  exact funcListCompare_nonpos_iff

theorem SortingQsort.sorted_compareAt (qsort : SortingQsort) {c : Counters}
    (h : c.funcList.Perm (List.range c.funcMap.length)) :
    (qsort.sort c.compareAt c.funcList).Pairwise
      fun i j => c.compareAt i j ≤ 0 := by
  have hentry : ∀ i ∈ c.funcList, ∃ e, c.funcMap[i]? = some e := by
    intro i hi
    have hlt := List.mem_range.mp (h.mem_iff.mp hi)
    exact ⟨c.funcMap[i], List.getElem?_eq_getElem hlt⟩
  apply qsort.sorted
  · intro i hi j hj
    obtain ⟨fa, hfa⟩ := hentry i hi
    obtain ⟨fb, hfb⟩ := hentry j hj
    rw [Counters.compareAt, Counters.compareAt, hfa, hfb]
    exact funcListCompare_swap fa fb
  · intro i hi j hj k hk hij hjk
    obtain ⟨fa, hfa⟩ := hentry i hi
    obtain ⟨fb, hfb⟩ := hentry j hj
    obtain ⟨fc, hfc⟩ := hentry k hk
    rw [compareAt_nonpos_iff hfa hfb] at hij
    rw [compareAt_nonpos_iff hfb hfc] at hjk
    rw [compareAt_nonpos_iff hfa hfc]
    exact hjk.trans hij

/-! ## Drawing -/

/-- A row of the list, without the percentage. -/
structure Row where
  y : ℕ
  totalCountIncl : ℕ
  totalCountExcl : ℕ
  countIncl : ℕ
  countExcl : ℕ
  func : Bytes
deriving DecidableEq, Repr

def FuncEntry.row (e : FuncEntry) (y : ℕ) : Row where
  y := y
  totalCountIncl := e.totalCountIncl
  totalCountExcl := e.totalCountExcl
  countIncl := e.countIncl
  countExcl := e.countExcl
  func := e.func

/-- The loop of `display` that draws the list on a screen of height `h`. -/
def drawRows (h : ℤ) : ℕ → List FuncEntry → List Row
  | _, [] => []
  | y, e :: es => if y < h then e.row y :: drawRows h (y + 1) es else []

/-- The entries in the order of `func_list`. -/
def Counters.listed (c : Counters) : List FuncEntry :=
  c.funcList.filterMap fun i => c.funcMap[i]?

structure Screen where
  totalSampCount : ℕ
  totalErrCount : ℕ
  funcListLen : ℕ
  rows : List Row
deriving DecidableEq, Repr

/-- What `display` draws below the arguments.  The list starts in the fifth line
of the screen. -/
def Counters.screen (qsort : Qsort) (totalErrCount : ℕ) (h : ℤ)
    (c : Counters) : Screen :=
  let c := c.atDisplay qsort
  { totalSampCount := c.totalSampCount
    totalErrCount := totalErrCount
    funcListLen := c.funcList.length
    rows := drawRows h 4 c.listed }

theorem drawRows_eq (h : ℤ) (y : ℕ) (es : List FuncEntry) :
    drawRows h y es =
      ((es.take (h - y).toNat).zipIdx y).map fun p => p.1.row p.2 := by
  induction es generalizing y with
  | nil => simp [drawRows]
  | cons e es ih =>
      rw [drawRows]
      split
      · next hlt =>
          have hroom : (h - y).toNat = (h - (y + 1 : ℕ)).toNat + 1 := by
            omega
          rw [hroom, List.take_succ_cons, List.zipIdx_cons, List.map_cons, ih]
      · next hge =>
          have hroom : (h - y).toNat = 0 := by omega
          rw [hroom, List.take_zero]
          rfl

theorem filterMap_getElem?_range {α : Type*} (l : List α) :
    (List.range l.length).filterMap (fun i => l[i]?) = l := by
  induction l using List.reverseRecOn with
  | nil => rfl
  | append_singleton l a ih =>
      have hfront : (List.range l.length).filterMap
          (fun i => (l ++ [a])[i]?) = l := by
        refine (List.filterMap_congr fun i hi => ?_).trans ih
        exact List.getElem?_append_left (List.mem_range.mp hi)
      rw [List.length_append, List.length_singleton, List.range_succ,
        List.filterMap_append, hfront]
      simp

section AtDisplay

variable {c : Counters} (h : c.funcList.Perm (List.range c.funcMap.length))

include h

theorem listed_perm (qsort : Qsort) :
    (c.atDisplay qsort).listed.Perm
      (c.funcMap.map FuncEntry.addInterval) := by
  obtain ⟨hmap, hlist, -⟩ := atDisplay_eq h qsort
  have hperm : (c.atDisplay qsort).funcList.Perm
      (List.range (c.atDisplay qsort).funcMap.length) := by
    rw [hmap, List.length_map]
    rcases hlist with hlist | ⟨hold, hlist⟩
    · rw [hlist]
      exact (qsort.perm _ _).trans h
    · rw [hlist, ← hold]
      exact h
  have hlisted := hperm.filterMap fun i => (c.atDisplay qsort).funcMap[i]?
  rw [filterMap_getElem?_range, hmap] at hlisted
  rw [Counters.listed, hmap]
  exact hlisted

theorem listed_sorted (qsort : SortingQsort) :
    (c.atDisplay qsort.toQsort).listed.Pairwise
      fun a b => b.rank ≤ a.rank := by
  obtain ⟨hmap, hlist, -⟩ := atDisplay_eq h qsort.toQsort
  rw [Counters.listed, List.pairwise_filterMap, hmap]
  rcases hlist with hlist | ⟨-, hlist⟩
  · rw [hlist]
    refine (qsort.sorted_compareAt h).imp ?_
    intro i j hij a ha b hb
    rw [List.getElem?_map, Option.map_eq_some_iff] at ha hb
    obtain ⟨fa, hfa, rfl⟩ := ha
    obtain ⟨fb, hfb, rfl⟩ := hb
    have hrank : fb.rank ≤ fa.rank :=
      rank_le_of_key_le ((compareAt_nonpos_iff hfa hfb).mp hij)
    exact hrank
  · rw [hlist]
    exact List.Pairwise.nil

end AtDisplay

/-! ## What the counts are -/

def Action.frame : Action → Option (ℕ × Bytes)
  | .line l => acceptedLine l.mem l.lineLen
  | .display => none

def lines (actions : List Action) (func : Bytes) : ℕ :=
  actions.countP fun a => a.frame.any fun f => f.2 = func

/-- The lines for a function that has not called another one. -/
def leaves (actions : List Action) (func : Bytes) : ℕ :=
  actions.countP fun a => a.frame.any fun f => f.1 = 0 ∧ f.2 = func

def Action.isDisplay : Action → Bool
  | .line _ => false
  | .display => true

/-- What has come after the last display. -/
def sinceDisplay (actions : List Action) : List Action :=
  actions.rtakeWhile fun a => !a.isDisplay

/-- The frames of the lines, as they are tallied. -/
def framesOf (actions : List Action) : List (Bool × Bytes) :=
  actions.filterMap fun a => a.frame.map fun f => (decide (f.1 = 0), f.2)

theorem lines_eq_count (actions : List Action) (func : Bytes) :
    lines actions func = ((framesOf actions).map Prod.snd).count func := by
  rw [lines, framesOf, List.count, List.countP_map, List.countP_filterMap]
  refine List.countP_congr fun a _ => ?_
  cases a.frame with
  | none => rfl
  | some f => simp

theorem leaves_eq_count (actions : List Action) (func : Bytes) :
    leaves actions func = (framesOf actions).count (true, func) := by
  rw [leaves, framesOf, List.count, List.countP_filterMap]
  refine List.countP_congr fun a _ => ?_
  cases a.frame with
  | none => rfl
  | some f => simp

theorem framesOf_concat (actions : List Action) (a : Action) :
    framesOf (actions ++ [a]) = framesOf actions ++
      (a.frame.map fun f => (decide (f.1 = 0), f.2)).toList := by
  rw [framesOf, List.filterMap_append, framesOf]
  cases hframe : a.frame <;> simp [hframe]

theorem sinceDisplay_line (actions : List Action) (l : NulFreeLine) :
    sinceDisplay (actions ++ [.line l]) =
      sinceDisplay actions ++ [.line l] :=
  List.rtakeWhile_concat_pos _ _ _ rfl

theorem sinceDisplay_display (actions : List Action) :
    sinceDisplay (actions ++ [.display]) = [] :=
  List.rtakeWhile_concat_neg _ _ _ (by decide)

theorem framesOf_sinceDisplay_subset (actions : List Action) :
    framesOf (sinceDisplay actions) ⊆ framesOf actions :=
  ((List.rtakeWhile_suffix _ _).sublist.filterMap _).subset

/-- What the entries have counted since the last display. -/
structure IntervalTallied (c : Counters) (since : List (Bool × Bytes)) :
    Prop where
  incl : ∀ e ∈ c.funcMap, e.countIncl = (since.map Prod.snd).count e.func
  excl : ∀ e ∈ c.funcMap, e.countExcl = since.count (true, e.func)

section Steps

variable {c : Counters} {since : List (Bool × Bytes)}

theorem IntervalTallied.display (qsort : Qsort)
    (hperm : c.funcList.Perm (List.range c.funcMap.length)) :
    IntervalTallied (display qsort c) [] := by
  obtain ⟨hmap, -, -, -⟩ := display_eq qsort hperm
  constructor
  · intro e he
    rw [hmap] at he
    obtain ⟨old, -, rfl⟩ := List.mem_map.mp he
    rfl
  · intro e he
    rw [hmap] at he
    obtain ⟨old, -, rfl⟩ := List.mem_map.mp he
    rfl

theorem IntervalTallied.findOrAdd (h : IntervalTallied c since)
    (hknown : ∀ func ∈ since.map Prod.snd, func ∈ c.funcMap.map (·.func))
    (uthash : Uthash) {func : Bytes} (hnul : (0 : UInt8) ∉ func)
    (hlen : func.length < funcSize) :
    IntervalTallied (c.findOrAdd uthash func).2 since := by
  rw [Counters.findOrAdd]
  cases hfind : uthash.find (c.funcMap.map (·.func)) func with
  | some i => exact h
  | none =>
      have hnew : func ∉ since.map Prod.snd := fun hmem =>
        uthash.find_none hfind (hknown func hmem)
      have hleaf : (true, func) ∉ since := fun hmem =>
        hnew (List.mem_map.mpr ⟨_, hmem, rfl⟩)
      dsimp only
      rw [cstr_take_of_notMem hnul hlen]
      constructor
      · intro e he
        rcases List.mem_append.mp he with he | he
        · exact h.incl e he
        · rw [List.mem_singleton.mp he]
          exact (List.count_eq_zero.mpr hnew).symm
      · intro e he
        rcases List.mem_append.mp he with he | he
        · exact h.excl e he
        · rw [List.mem_singleton.mp he]
          exact (List.count_eq_zero.mpr hleaf).symm

theorem IntervalTallied.hit (h : IntervalTallied c since)
    (hnodup : (c.funcMap.map (·.func)).Nodup) {i : ℕ} {e : FuncEntry}
    (hentry : c.funcMap[i]? = some e) (frameNum : ℕ) :
    IntervalTallied (c.hit frameNum i)
      (since ++ [(decide (frameNum = 0), e.func)]) := by
  obtain ⟨before, after, hmap, hhit⟩ := Counters.hit_funcMap hentry frameNum
  have hself : e ∈ c.funcMap := by
    rw [hmap]
    exact List.mem_append_cons_self
  -- an entry is the one that is hit, or another one for another function
  have hcases : ∀ o ∈ (c.hit frameNum i).funcMap,
      o = e.hit frameNum ∨ o ∈ c.funcMap ∧ e.func ≠ o.func := by
    intro o ho
    rw [hhit, List.mem_append, List.mem_cons] at ho
    rw [hmap, List.map_append, List.map_cons, List.nodup_middle,
      List.nodup_cons, ← List.map_append] at hnodup
    have hne : o ∈ before ++ after → e.func ≠ o.func := fun hmem heq =>
      hnodup.1 (heq ▸ List.mem_map_of_mem hmem)
    rw [hmap, List.mem_append, List.mem_cons]
    rw [List.mem_append] at hne
    tauto
  constructor
  · intro o ho
    rw [List.map_append, List.count_append, List.map_singleton,
      List.count_singleton]
    rcases hcases o ho with rfl | ⟨hmem, hne⟩
    · have hold := h.incl e hself
      rw [show (e.hit frameNum).func = e.func from rfl, ← hold,
        FuncEntry.hit]
      simp
    · rw [h.incl o hmem, if_neg (by simp [hne]), Nat.add_zero]
  · intro o ho
    rw [List.count_append, List.count_singleton]
    rcases hcases o ho with rfl | ⟨hmem, hne⟩
    · have hold := h.excl e hself
      rw [show (e.hit frameNum).func = e.func from rfl, ← hold,
        FuncEntry.hit]
      by_cases hzero : frameNum = 0
      · simp [hzero]
      · simp [hzero]
    · rw [h.excl o hmem, if_neg (by simp [hne]), Nat.add_zero]

end Steps

/-- After any lines and displays the entries count the lines, in all and since
the last display. -/
theorem run_tallied (uthash : Uthash) (qsort : Qsort)
    (actions : List Action) :
    Tallied (run uthash qsort actions) (framesOf actions) ∧
      IntervalTallied (run uthash qsort actions)
        (framesOf (sinceDisplay actions)) := by
  induction actions using List.reverseRecOn with
  | nil =>
      exact ⟨.initial, fun _ he => absurd he List.not_mem_nil,
        fun _ he => absurd he List.not_mem_nil⟩
  | append_singleton actions action ih =>
      obtain ⟨htotal, hinterval⟩ := ih
      rw [run, List.foldl_append, ← run, framesOf_concat]
      cases action with
      | display =>
          rw [sinceDisplay_display]
          refine ⟨?_, .display qsort htotal.accounted.funcList_perm⟩
          rw [Action.frame, Option.map_none, Option.toList_none,
            List.append_nil]
          exact htotal.display qsort
      | line l =>
          have hstep : [Action.line l].foldl (step uthash qsort)
              (run uthash qsort actions) =
                handleLine uthash l.mem l.lineLen
                  (run uthash qsort actions) := rfl
          rw [hstep, sinceDisplay_line, framesOf_concat, Action.frame]
          cases haccepted : acceptedLine l.mem l.lineLen with
          | none =>
              rw [handleLine, haccepted, Option.map_none,
                Option.toList_none, List.append_nil, List.append_nil]
              exact ⟨htotal, hinterval⟩
          | some frame =>
              obtain ⟨frameNum, func⟩ := frame
              obtain ⟨hnul, hlen⟩ := acceptedLine_func l.nul_free haccepted
              obtain ⟨hadd, e, hentry, rfl⟩ :=
                htotal.accounted.findOrAdd uthash hnul hlen
              have hknown : ∀ func ∈ (framesOf (sinceDisplay actions)).map
                  Prod.snd, func ∈
                    (run uthash qsort actions).funcMap.map (·.func) :=
                fun func hmem => htotal.accounted.func_mem func
                  (List.map_subset _
                    (framesOf_sinceDisplay_subset actions) hmem)
              rw [handleLine_of_accepted uthash haccepted]
              exact ⟨(htotal.findOrAdd uthash hnul hlen).hit hentry frameNum,
                (hinterval.findOrAdd hknown uthash hnul hlen).hit
                  hadd.func_nodup hentry frameNum⟩

theorem entry_counts (uthash : Uthash) (qsort : Qsort)
    (actions : List Action) {e : FuncEntry}
    (he : e ∈ (run uthash qsort actions).funcMap) :
    e.countExcl = leaves (sinceDisplay actions) e.func ∧
      e.countIncl = lines (sinceDisplay actions) e.func ∧
      e.totalCountExcl + e.countExcl = leaves actions e.func ∧
      e.totalCountIncl + e.countIncl = lines actions e.func := by
  obtain ⟨htotal, hinterval⟩ := run_tallied uthash qsort actions
  simp only [leaves_eq_count, lines_eq_count]
  exact ⟨hinterval.excl e he, hinterval.incl e he, htotal.excl e he,
    htotal.accounted.countIncl_eq e he⟩

/-! ## What is on the screen -/

/-- What the rows are sorted by. -/
def Row.rank (r : Row) : ℕ ×ₗ ℕ :=
  toLex (r.countExcl, r.countIncl)

theorem mem_drawRows {h : ℤ} {y : ℕ} {es : List FuncEntry} {r : Row}
    (hr : r ∈ drawRows h y es) :
    ∃ e ∈ es.take (h - y).toNat, ∃ z, r = e.row z := by
  rw [drawRows_eq] at hr
  obtain ⟨⟨e, z⟩, hmem, rfl⟩ := List.mem_map.mp hr
  exact ⟨e, List.fst_mem_of_mem_zipIdx hmem, z, rfl⟩

theorem drawRows_map {α : Type*} {f : Row → α} {g : FuncEntry → α}
    (hfg : ∀ e y, f (FuncEntry.row e y) = g e) (h : ℤ) (y : ℕ)
    (es : List FuncEntry) :
    (drawRows h y es).map f = (es.take (h - y).toNat).map g := by
  have hfst := List.zipIdx_map_fst y (es.take (h - y).toNat)
  rw [drawRows_eq, List.map_map]
  nth_rewrite 2 [← hfst]
  rw [List.map_map]
  exact List.map_congr_left fun p _ => hfg p.1 p.2

/-- After any lines and displays, a display draws its rows one below the other
from the fifth line on, one for a function and as many as there is room for.  A
row shows how often its function was at the leaf of a stack and how often it was
in one, since the last display and since the start.  The rows are sorted by the
counts since the last display, and no function that is left out comes before one
that is shown. -/
theorem screen_ranks (uthash : Uthash) (qsort : SortingQsort)
    (actions : List Action) (totalErrCount : ℕ) (h : ℤ) :
    let shown := ((run uthash qsort.toQsort actions).screen qsort.toQsort
      totalErrCount h).rows
    let since := sinceDisplay actions
    shown.map Row.y = List.range' 4 shown.length ∧
      shown.length ≤ (h - 4).toNat ∧
      (shown.map Row.func).Nodup ∧
      (∀ r ∈ shown, r.countExcl = leaves since r.func ∧
        r.countIncl = lines since r.func ∧
        r.totalCountExcl = leaves actions r.func ∧
        r.totalCountIncl = lines actions r.func) ∧
      (shown.Pairwise fun r r' => r'.rank ≤ r.rank) ∧
      ∀ func ∈ actions.filterMap Action.accepted,
        func ∉ shown.map Row.func →
          shown.length = (h - 4).toNat ∧
            ∀ r ∈ shown, toLex (leaves since func, lines since func) ≤
              r.rank := by
  intro shown since
  have haccounted := run_accounted uthash qsort.toQsort actions
  have hcounts := @entry_counts uthash qsort.toQsort actions
  set c := run uthash qsort.toQsort actions
  have hperm := listed_perm haccounted.funcList_perm qsort.toQsort
  have hsorted := listed_sorted haccounted.funcList_perm qsort
  set listed := (c.atDisplay qsort.toQsort).listed
  have hshown : shown = drawRows h 4 listed := rfl
  have hfuncs : shown.map Row.func =
      (listed.take (h - 4).toNat).map FuncEntry.func := by
    rw [hshown]
    exact drawRows_map (fun _ _ => rfl) h 4 listed
  have hranks : shown.map Row.rank =
      (listed.take (h - 4).toNat).map FuncEntry.rank := by
    rw [hshown]
    exact drawRows_map (fun _ _ => rfl) h 4 listed
  have hlength : shown.length = (listed.take (h - 4).toNat).length := by
    rw [← List.length_map Row.func, hfuncs, List.length_map]
  have hentry : ∀ e ∈ listed, ∃ old ∈ c.funcMap, e = old.addInterval := by
    intro e he
    obtain ⟨old, hold, rfl⟩ := List.mem_map.mp (hperm.mem_iff.mp he)
    exact ⟨old, hold, rfl⟩
  refine ⟨?_, ?_, ?_, fun r hr => ?_, ?_, fun func hfunc hleft => ?_⟩
  · rw [hlength, hshown, drawRows_eq, List.map_map]
    exact List.zipIdx_map_snd 4 _
  · rw [hlength]
    exact List.length_take_le _ _
  · have hnodup : (listed.map FuncEntry.func).Nodup := by
      have hsame : (c.funcMap.map FuncEntry.addInterval).map
          FuncEntry.func = c.funcMap.map FuncEntry.func := by
        rw [List.map_map]
        rfl
      rw [(hperm.map FuncEntry.func).nodup_iff, hsame]
      exact haccounted.func_nodup
    rw [hfuncs]
    exact hnodup.sublist ((List.take_sublist _ _).map _)
  · rw [hshown] at hr
    obtain ⟨e, he, y, rfl⟩ := mem_drawRows hr
    obtain ⟨old, hold, rfl⟩ := hentry e (List.mem_of_mem_take he)
    exact hcounts hold
  · have hpairs : (shown.map Row.rank).Pairwise fun a b => b ≤ a := by
      rw [hranks, List.pairwise_map]
      exact hsorted.sublist (List.take_sublist _ _)
    exact List.pairwise_map.mp hpairs
  · obtain ⟨old, hold, rfl⟩ :=
      List.mem_map.mp (haccounted.func_mem func hfunc)
    have hmem : old.addInterval ∈ listed :=
      hperm.mem_iff.mpr (List.mem_map_of_mem hold)
    have hnot : old.addInterval ∉ listed.take (h - 4).toNat := by
      intro htake
      rw [hfuncs] at hleft
      exact hleft (List.mem_map.mpr ⟨old.addInterval, htake, rfl⟩)
    have hdrop : old.addInterval ∈ listed.drop (h - 4).toNat := by
      rw [← List.take_append_drop (h - 4).toNat listed] at hmem
      exact (List.mem_append.mp hmem).resolve_left hnot
    refine ⟨?_, fun r hr => ?_⟩
    · have hpos := List.length_pos_of_mem hdrop
      rw [List.length_drop] at hpos
      rw [hlength, List.length_take]
      omega
    · have hsplit := hsorted
      rw [← List.take_append_drop (h - 4).toNat listed] at hsplit
      rw [hshown] at hr
      obtain ⟨e, he, y, rfl⟩ := mem_drawRows hr
      have hbelow := (List.pairwise_append.mp hsplit).2.2 e he _ hdrop
      have hrank : old.rank ≤ e.rank := hbelow
      obtain ⟨hexcl, hincl, -, -⟩ := hcounts hold
      rw [FuncEntry.rank, hexcl, hincl] at hrank
      exact hrank

/-- Insertion sort is a `qsort` that sorts. -/
def insertionQsort : SortingQsort where
  sort compare pointers :=
    (pointers.attach.insertionSort
      fun a b : { x // x ∈ pointers } => compare a b ≤ 0).map Subtype.val
  perm compare pointers := by
    have hperm := (List.perm_insertionSort
      (fun a b : { x // x ∈ pointers } => compare a b ≤ 0)
        pointers.attach).map Subtype.val
    rwa [List.attach_map_subtype_val] at hperm
  sorted compare pointers hswap htrans := by
    have htotal : Std.Total
        fun a b : { x // x ∈ pointers } => compare a b ≤ 0 :=
      ⟨fun a b => by
        have hab := hswap a a.2 b b.2
        omega⟩
    have htransitive : IsTrans _
        fun a b : { x // x ∈ pointers } => compare a b ≤ 0 :=
      ⟨fun a b c => htrans a a.2 b b.2 c c.2⟩
    rw [List.pairwise_map]
    exact List.pairwise_insertionSort _ _

def lineOf (s : String) (h : (0 : UInt8) ∉ (lit s).take (lit s).length) :
    Action :=
  .line ⟨lit s, (lit s).length, h⟩

/-- Before the only display `g` calls `f` and `f` is at the leaf of two stacks,
then `g` is at the leaf of one.  There is room for one row. -/
theorem screen_ranks_one_row :
    let actions :=
      [lineOf "0 f" (by decide), lineOf "1 g" (by decide),
        lineOf "0 f" (by decide), .display, lineOf "0 g" (by decide)]
    let shown := ((run findFirst insertionQsort.toQsort actions).screen
      insertionQsort.toQsort 0 5).rows
    shown = [⟨4, 2, 1, 1, 1, lit "g"⟩] ∧
      toLex (leaves (sinceDisplay actions) (lit "f"),
        lines (sinceDisplay actions) (lit "f")) ≤ toLex (1, 1) := by
  intro actions shown
  have hshown : shown = [⟨4, 2, 1, 1, 1, lit "g"⟩] := by decide +kernel
  obtain ⟨-, -, -, -, -, hleft⟩ :=
    screen_ranks findFirst insertionQsort actions 0 5
  refine ⟨hshown, (hleft (lit "f") (by decide +kernel) ?_).2
    ⟨4, 2, 1, 1, 1, lit "g"⟩ ?_⟩
  · rw [show ((run findFirst insertionQsort.toQsort actions).screen
      insertionQsort.toQsort 0 5).rows = _ from hshown]
    decide
  · rw [show ((run findFirst insertionQsort.toQsort actions).screen
      insertionQsort.toQsort 0 5).rows = _ from hshown]
    exact List.mem_singleton_self _

end Top
end Phpspy

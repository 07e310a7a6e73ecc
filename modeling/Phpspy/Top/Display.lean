import Mathlib.Algebra.BigOperators.Group.Finset.Basic
import Mathlib.Algebra.Order.BigOperators.Group.List
import Phpspy.Support.FindOrAdd
import Phpspy.Top.HandleLine

/-!
# What top mode has counted

`handle_line` counts for the interval that is running.  `display` adds an
interval to the totals and starts the next one.  Lines and displays come in any
order.
-/

namespace Phpspy
namespace Top

open ByteText
open FindOrAdd (foldl_modify_eq_map)

/-! ## Displaying -/

/-- `func_list_compare` -/
def funcListCompare (fa fb : FuncEntry) : ℤ :=
  if fb.countExcl = fa.countExcl then
    if fb.countIncl = fa.countIncl then
      if fb.totalCountExcl = fa.totalCountExcl then
        if fb.totalCountIncl = fa.totalCountIncl then 0
        else if fb.totalCountIncl > fa.totalCountIncl then 1 else -1
      else if fb.totalCountExcl > fa.totalCountExcl then 1 else -1
    else if fb.countIncl > fa.countIncl then 1 else -1
  else if fb.countExcl > fa.countExcl then 1 else -1

/-- `qsort` for a list of pointers.  All that is assumed of it is that it
permutes the list. -/
structure Qsort where
  sort : (ℕ → ℕ → ℤ) → List ℕ → List ℕ
  perm : ∀ compare pointers, (sort compare pointers).Perm pointers

/-- The comparison of two pointers of `func_list`. -/
def Counters.compareAt (c : Counters) (i j : ℕ) : ℤ :=
  match c.funcMap[i]?, c.funcMap[j]? with
  | some fa, some fb => funcListCompare fa fb
  | _, _ => 0

def FuncEntry.addInterval (e : FuncEntry) : FuncEntry :=
  { e with
    totalCountExcl := e.totalCountExcl + e.countExcl
    totalCountIncl := e.totalCountIncl + e.countIncl }

def FuncEntry.startInterval (e : FuncEntry) : FuncEntry :=
  { e with countExcl := 0, countIncl := 0 }

/-- A loop over `func_list`. -/
def Counters.forEach (f : FuncEntry → FuncEntry) (c : Counters) : Counters :=
  { c with
    funcMap := c.funcList.foldl (fun funcMap i => funcMap.modify i f)
      c.funcMap }

/-- The counters when `display` draws them. -/
def Counters.atDisplay (qsort : Qsort) (c : Counters) : Counters :=
  let c :=
    if 0 < c.funcList.length then
      { c with funcList := qsort.sort c.compareAt c.funcList }.forEach
        FuncEntry.addInterval
    else c
  { c with totalSampCount := c.totalSampCount + c.sampCount }

/-- `display`, without what it draws. -/
def display (qsort : Qsort) (c : Counters) : Counters :=
  { (c.atDisplay qsort).forEach FuncEntry.startInterval with sampCount := 0 }

/-! ## Lines and displays -/

/-- A line without a NUL, as it stands in memory. -/
structure NulFreeLine where
  mem : Bytes
  lineLen : ℕ
  nul_free : (0 : UInt8) ∉ mem.take lineLen

inductive Action where
  | line (line : NulFreeLine)
  | display

section Runs

variable (uthash : Uthash) (qsort : Qsort)

def step (c : Counters) : Action → Counters
  | .line l => handleLine uthash l.mem l.lineLen c
  | .display => display qsort c

def run (actions : List Action) : Counters :=
  actions.foldl (step uthash qsort) .initial

end Runs

def Action.accepted : Action → Option Bytes
  | .line l => (acceptedLine l.mem l.lineLen).map (·.2)
  | .display => none

/-- What holds of the counters after lines for a number of functions. -/
structure Accounted (c : Counters) (funcs : List Bytes) : Prop where
  /-- `func_list` has each entry once -/
  funcList_perm : c.funcList.Perm (List.range c.funcMap.length)
  func_nodup : (c.funcMap.map (·.func)).Nodup
  sampCount_eq : c.sampCount = (c.funcMap.map (·.countExcl)).sum
  totalSampCount_eq :
    c.totalSampCount = (c.funcMap.map (·.totalCountExcl)).sum
  count_le : ∀ e ∈ c.funcMap,
    e.countExcl ≤ e.countIncl ∧ e.totalCountExcl ≤ e.totalCountIncl
  /-- an entry counts the lines of its function -/
  countIncl_eq : ∀ e ∈ c.funcMap,
    e.totalCountIncl + e.countIncl = funcs.count e.func
  func_mem : ∀ func ∈ funcs, func ∈ c.funcMap.map (·.func)

theorem Accounted.initial : Accounted .initial [] where
  funcList_perm := List.Perm.refl _
  func_nodup := List.nodup_nil
  sampCount_eq := rfl
  totalSampCount_eq := rfl
  count_le := fun _ he => absurd he List.not_mem_nil
  countIncl_eq := fun _ he => absurd he List.not_mem_nil
  func_mem := fun _ hfunc => absurd hfunc List.not_mem_nil

/-! ## A display -/

def FuncEntry.roll (e : FuncEntry) : FuncEntry :=
  e.addInterval.startInterval

theorem atDisplay_eq {c : Counters}
    (h : c.funcList.Perm (List.range c.funcMap.length)) (qsort : Qsort) :
    (c.atDisplay qsort).funcMap = c.funcMap.map FuncEntry.addInterval ∧
      ((c.atDisplay qsort).funcList = qsort.sort c.compareAt c.funcList ∨
        c.funcList = [] ∧ (c.atDisplay qsort).funcList = []) ∧
      (c.atDisplay qsort).totalSampCount =
        c.totalSampCount + c.sampCount := by
  have hsort := qsort.perm c.compareAt c.funcList
  by_cases hlen : 0 < c.funcList.length
  · rw [Counters.atDisplay, if_pos hlen]
    refine ⟨?_, Or.inl rfl, rfl⟩
    dsimp only [Counters.forEach]
    exact foldl_modify_eq_map _ (hsort.trans h)
  · have hlist : c.funcList = [] := List.length_eq_zero_iff.mp (by omega)
    have hnil : c.funcMap = [] := by
      have hlength := h.length_eq
      rw [List.length_range, hlist] at hlength
      exact List.length_eq_zero_iff.mp hlength.symm
    rw [Counters.atDisplay, if_neg hlen]
    refine ⟨?_, Or.inr ⟨hlist, hlist⟩, rfl⟩
    dsimp only
    rw [hnil]
    rfl

theorem display_eq (qsort : Qsort) {c : Counters}
    (h : c.funcList.Perm (List.range c.funcMap.length)) :
    (display qsort c).funcMap = c.funcMap.map FuncEntry.roll ∧
      (display qsort c).funcList.Perm c.funcList ∧
      (display qsort c).sampCount = 0 ∧
      (display qsort c).totalSampCount = c.totalSampCount + c.sampCount := by
  obtain ⟨hmap, hlist, htotal⟩ := atDisplay_eq h qsort
  have hperm : (c.atDisplay qsort).funcList.Perm c.funcList := by
    rcases hlist with hlist | ⟨hold, hlist⟩
    · rw [hlist]
      exact qsort.perm _ _
    · rw [hlist, hold]
  refine ⟨?_, hperm, rfl, htotal⟩
  rw [display]
  dsimp only [Counters.forEach]
  rw [hmap, foldl_modify_eq_map, List.map_map]
  · rfl
  · rw [List.length_map]
    exact hperm.trans h

theorem Accounted.display {c : Counters} {funcs : List Bytes}
    (h : Accounted c funcs) (qsort : Qsort) :
    Accounted (display qsort c) funcs := by
  obtain ⟨hmap, hlist, hsamp, htotal⟩ := display_eq qsort h.funcList_perm
  have hfunc : (c.funcMap.map FuncEntry.roll).map (·.func) =
      c.funcMap.map (·.func) := by
    rw [List.map_map]
    rfl
  refine ⟨?_, ?_, ?_, ?_, ?_, ?_, ?_⟩
  · rw [hmap, List.length_map]
    exact hlist.trans h.funcList_perm
  · rw [hmap, hfunc]
    exact h.func_nodup
  · rw [hsamp, hmap, List.map_map]
    exact (List.sum_eq_zero (by simp [FuncEntry.roll,
      FuncEntry.startInterval])).symm
  · rw [htotal, hmap, List.map_map, h.sampCount_eq, h.totalSampCount_eq,
      ← List.sum_map_add]
    rfl
  · intro e he
    rw [hmap] at he
    obtain ⟨old, hold, rfl⟩ := List.mem_map.mp he
    have hle := h.count_le old hold
    exact ⟨le_rfl, Nat.add_le_add hle.2 hle.1⟩
  · intro e he
    rw [hmap] at he
    obtain ⟨old, hold, rfl⟩ := List.mem_map.mp he
    exact h.countIncl_eq old hold
  · rw [hmap, hfunc]
    exact h.func_mem

/-! ## A line -/

/-- What an accepted line does with the entry of its function. -/
def FuncEntry.hit (frameNum : ℕ) (e : FuncEntry) : FuncEntry :=
  { e with
    countExcl := e.countExcl + if frameNum = 0 then 1 else 0
    countIncl := e.countIncl + 1 }

/-- The counters with one more line for the entry at `i`. -/
def Counters.hit (frameNum i : ℕ) (c : Counters) : Counters :=
  { c with
    funcMap := c.funcMap.modify i (FuncEntry.hit frameNum)
    sampCount := c.sampCount + if frameNum = 0 then 1 else 0 }

theorem handleLine_of_accepted (uthash : Uthash) {mem func : Bytes}
    {lineLen frameNum : ℕ}
    (h : acceptedLine mem lineLen = some (frameNum, func)) (c : Counters) :
    handleLine uthash mem lineLen c =
      (c.findOrAdd uthash func).2.hit frameNum
        (c.findOrAdd uthash func).1 := by
  rw [handleLine, h]
  dsimp only
  by_cases hzero : frameNum = 0
  · subst hzero
    rw [if_pos rfl, Counters.hit, List.modify_modify_eq]
    rfl
  · have hhit : FuncEntry.hit frameNum =
        fun e => { e with countIncl := e.countIncl + 1 } := by
      funext e
      rw [FuncEntry.hit, if_neg hzero, Nat.add_zero]
    rw [if_neg hzero, Counters.hit, hhit, if_neg hzero, Nat.add_zero]

theorem acceptedLine_func {mem func : Bytes} {lineLen frameNum : ℕ}
    (hnul : (0 : UInt8) ∉ mem.take lineLen)
    (h : acceptedLine mem lineLen = some (frameNum, func)) :
    (0 : UInt8) ∉ func ∧ func.length < funcSize := by
  obtain ⟨-, -, -, -, hend, hlen, hframe⟩ := acceptedLine_eq_some_iff.mp h
  obtain ⟨-, rfl⟩ := Prod.mk.inj hframe
  rw [← List.drop_take]
  constructor
  · exact fun hmem => hnul (List.mem_of_mem_drop hmem)
  · rw [List.length_drop, List.length_take]
    omega

theorem cstr_take_of_notMem {func : Bytes} (hnul : (0 : UInt8) ∉ func)
    (hlen : func.length < funcSize) :
    (cstr func).take (funcSize - 1) = func := by
  rw [cstr_of_notMem hnul]
  exact List.take_of_length_le (by omega)

theorem Accounted.findOrAdd {c : Counters} {funcs : List Bytes}
    (h : Accounted c funcs) (uthash : Uthash) {func : Bytes}
    (hnul : (0 : UInt8) ∉ func) (hlen : func.length < funcSize) :
    Accounted (c.findOrAdd uthash func).2 funcs ∧
      ∃ e, (c.findOrAdd uthash func).2.funcMap[
        (c.findOrAdd uthash func).1]? = some e ∧ e.func = func := by
  rw [Counters.findOrAdd]
  cases hfind : uthash.find (c.funcMap.map (·.func)) func with
  | some i =>
      have hkey := uthash.find_some hfind
      rw [List.getElem?_map, Option.map_eq_some_iff] at hkey
      exact ⟨h, hkey⟩
  | none =>
      have hnew := uthash.find_none hfind
      have hzero : funcs.count func = 0 :=
        List.count_eq_zero.mpr fun hmem => hnew (h.func_mem func hmem)
      dsimp only
      rw [cstr_take_of_notMem hnul hlen]
      refine ⟨⟨?_, ?_, ?_, ?_, ?_, ?_, ?_⟩, ?_⟩
      · rw [List.length_append, List.length_singleton, List.range_succ]
        exact h.funcList_perm.append_right _
      · rw [List.map_append, List.map_singleton]
        exact (List.perm_append_singleton _ _).nodup_iff.mpr
          (List.nodup_cons.mpr ⟨hnew, h.func_nodup⟩)
      · rw [List.map_append, List.sum_append, h.sampCount_eq]
        rfl
      · rw [List.map_append, List.sum_append, h.totalSampCount_eq]
        rfl
      · intro e he
        rcases List.mem_append.mp he with he | he
        · exact h.count_le e he
        · rw [List.mem_singleton.mp he]
          exact ⟨le_rfl, le_rfl⟩
      · intro e he
        rcases List.mem_append.mp he with he | he
        · exact h.countIncl_eq e he
        · rw [List.mem_singleton.mp he]
          exact hzero.symm
      · intro func' hmem
        rw [List.map_append]
        exact List.mem_append_left _ (h.func_mem func' hmem)
      · rw [List.getElem?_concat_length]
        exact ⟨_, rfl, rfl⟩

theorem Counters.hit_funcMap {c : Counters} {i : ℕ} {e : FuncEntry}
    (h : c.funcMap[i]? = some e) (frameNum : ℕ) :
    ∃ before after, c.funcMap = before ++ e :: after ∧
      (c.hit frameNum i).funcMap = before ++ e.hit frameNum :: after := by
  obtain ⟨hi, rfl⟩ := List.getElem?_eq_some_iff.mp h
  refine ⟨c.funcMap.take i, c.funcMap.drop (i + 1), ?_, ?_⟩
  · rw [List.getElem_cons_drop, List.take_append_drop]
  · exact List.modify_eq_take_cons_drop hi

theorem FuncEntry.hit_le {e : FuncEntry} (h : e.countExcl ≤ e.countIncl)
    (frameNum : ℕ) :
    (e.hit frameNum).countExcl ≤ (e.hit frameNum).countIncl := by
  rw [FuncEntry.hit]
  dsimp only
  split
  · exact Nat.succ_le_succ h
  · exact Nat.le_succ_of_le h

theorem Accounted.hit {c : Counters} {funcs : List Bytes}
    (h : Accounted c funcs) {i : ℕ} {e : FuncEntry}
    (hentry : c.funcMap[i]? = some e) (frameNum : ℕ) :
    Accounted (c.hit frameNum i) (funcs ++ [e.func]) := by
  obtain ⟨before, after, hmap, hhit⟩ := Counters.hit_funcMap hentry frameNum
  obtain ⟨hperm, hnodup, hsamp, htotal, hle, hincl, hmem⟩ := h
  rw [hmap] at hnodup hsamp htotal hle hincl hmem
  have hfunc : (before ++ e.hit frameNum :: after).map (·.func) =
      (before ++ e :: after).map (·.func) := by
    simp only [List.map_append, List.map_cons, FuncEntry.hit]
  have hne : ∀ o ∈ before ++ after, o.func ≠ e.func := by
    rw [List.map_append, List.map_cons, List.nodup_middle, List.nodup_cons,
      ← List.map_append] at hnodup
    exact fun o ho heq => hnodup.1 (heq ▸ List.mem_map_of_mem ho)
  have hself : e ∈ before ++ e :: after := List.mem_append_cons_self
  have hother : ∀ {o}, o ∈ before ++ after → o ∈ before ++ e :: after := by
    intro o ho
    rw [List.mem_append] at ho
    rw [List.mem_append, List.mem_cons]
    tauto
  -- an entry is the one that is hit or another one
  have hcases : ∀ {o}, o ∈ before ++ e.hit frameNum :: after →
      o = e.hit frameNum ∨ o ∈ before ++ after := by
    intro o ho
    rw [List.mem_append, List.mem_cons] at ho
    rw [List.mem_append]
    tauto
  refine ⟨?_, ?_, ?_, ?_, ?_, ?_, ?_⟩
  · rw [Counters.hit]
    dsimp only
    rw [List.length_modify]
    exact hperm
  · rw [hhit, hfunc]
    exact hnodup
  · rw [List.map_append, List.sum_append, List.map_cons,
      List.sum_cons] at hsamp
    rw [hhit, List.map_append, List.sum_append, List.map_cons, List.sum_cons,
      Counters.hit, FuncEntry.hit]
    dsimp only
    rw [hsamp]
    ring
  · rw [hhit, Counters.hit]
    dsimp only
    rw [htotal]
    simp only [List.map_append, List.map_cons, FuncEntry.hit]
  · rw [hhit]
    intro o ho
    rcases hcases ho with rfl | ho
    · exact ⟨FuncEntry.hit_le (hle e hself).1 frameNum, (hle e hself).2⟩
    · exact hle o (hother ho)
  · rw [hhit]
    intro o ho
    rw [List.count_append]
    rcases hcases ho with rfl | ho
    · rw [FuncEntry.hit]
      dsimp only
      rw [List.count_singleton_self, ← hincl e hself, Nat.add_assoc]
    · rw [List.count_singleton, if_neg (by simpa using (hne o ho).symm),
        Nat.add_zero]
      exact hincl o (hother ho)
  · rw [hhit, hfunc]
    intro func hfuncs
    rcases List.mem_append.mp hfuncs with hold | hnew
    · exact hmem func hold
    · rw [List.mem_singleton.mp hnew]
      exact List.mem_map_of_mem hself

/-! ## Runs -/

theorem Accounted.step {c : Counters} {funcs : List Bytes}
    (h : Accounted c funcs) (uthash : Uthash) (qsort : Qsort)
    (action : Action) :
    Accounted (step uthash qsort c action)
      (funcs ++ action.accepted.toList) := by
  cases action with
  | display =>
      rw [Action.accepted, Option.toList_none, List.append_nil]
      exact h.display qsort
  | line l =>
      rw [Action.accepted, Top.step]
      cases haccepted : acceptedLine l.mem l.lineLen with
      | none =>
          rw [handleLine, haccepted, Option.map_none, Option.toList_none,
            List.append_nil]
          exact h
      | some frame =>
          obtain ⟨frameNum, func⟩ := frame
          obtain ⟨hnul, hlen⟩ := acceptedLine_func l.nul_free haccepted
          obtain ⟨hadd, e, hentry, rfl⟩ := h.findOrAdd uthash hnul hlen
          rw [handleLine_of_accepted uthash haccepted]
          exact hadd.hit hentry frameNum

/-- After any lines and displays the counters are what the accepted lines make
them. -/
theorem run_accounted (uthash : Uthash) (qsort : Qsort)
    (actions : List Action) :
    Accounted (run uthash qsort actions)
      (actions.filterMap Action.accepted) := by
  induction actions using List.reverseRecOn with
  | nil => exact .initial
  | append_singleton actions action ih =>
      have hstep := ih.step uthash qsort action
      rw [run, List.foldl_append, List.filterMap_append]
      have hlast : [action].filterMap Action.accepted =
          action.accepted.toList := by
        cases haction : action.accepted <;> simp [haction]
      rw [hlast]
      exact hstep

/-! ## No counter wraps around -/

theorem sum_count_eq_length {keys funcs : List Bytes} (hnodup : keys.Nodup)
    (h : ∀ func ∈ funcs, func ∈ keys) :
    (keys.map fun key => funcs.count key).sum = funcs.length := by
  have hcount : ∀ key,
      funcs.count key = (funcs : Multiset Bytes).count key := by
    intro key
    rw [Multiset.count, Multiset.coe_countP, List.count]
    refine List.countP_congr fun func _ => ?_
    rw [beq_iff_eq, decide_eq_true_iff, eq_comm]
  have hsum : ∑ key ∈ keys.toFinset, (funcs : Multiset Bytes).count key =
      (funcs : Multiset Bytes).card :=
    Multiset.sum_count_eq_card fun func hfunc =>
      List.mem_toFinset.mpr (h func hfunc)
  rw [List.sum_toFinset _ hnodup] at hsum
  simp only [hcount]
  exact hsum

theorem Accounted.samples_le {c : Counters} {funcs : List Bytes}
    (h : Accounted c funcs) :
    c.totalSampCount + c.sampCount ≤ funcs.length := by
  have hlines : (c.funcMap.map fun e =>
      e.totalCountIncl + e.countIncl).sum = funcs.length := by
    rw [← sum_count_eq_length h.func_nodup h.func_mem, List.map_map]
    exact congrArg List.sum (List.map_congr_left h.countIncl_eq)
  rw [h.totalSampCount_eq, h.sampCount_eq, ← List.sum_map_add, ← hlines]
  refine List.sum_le_sum fun e he => ?_
  have hle := h.count_le e he
  omega

/-- The counters are of type `unsigned long`.  They do not wrap around before
the 2 ^ 64th line, neither when they are incremented nor when `display` adds
them to the totals. -/
theorem run_counts_lt (uthash : Uthash) (qsort : Qsort)
    {actions : List Action} (hfew : actions.length < 2 ^ 64) :
    let c := run uthash qsort actions
    (∀ e ∈ c.funcMap, e.totalCountExcl + e.countExcl < 2 ^ 64 ∧
      e.totalCountIncl + e.countIncl < 2 ^ 64) ∧
      c.totalSampCount + c.sampCount < 2 ^ 64 := by
  intro c
  have h : Accounted c (actions.filterMap Action.accepted) :=
    run_accounted uthash qsort actions
  have hlines := List.length_filterMap_le Action.accepted actions
  refine ⟨fun e he => ?_, ?_⟩
  · have hle := h.count_le e he
    have hincl := h.countIncl_eq e he
    have hcount : (actions.filterMap Action.accepted).count e.func ≤
        (actions.filterMap Action.accepted).length := List.count_le_length
    omega
  · have hsamples := h.samples_le
    omega

end Top
end Phpspy

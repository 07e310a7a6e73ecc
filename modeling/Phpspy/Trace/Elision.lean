import Phpspy.Support.KeepEnds
import Phpspy.Trace.Stack

/-!
# Which frames of a stack are emitted

The stack is the list of event groups that a full walk emits, one group per
`execute_data`.  `trace_stack` emits the groups next to the leaf, those next to
the root and a marker for the groups in between.
-/

namespace Phpspy

open ByteText KeepEnds

/-! ## The full walk -/

/-- The groups of a walk in which every read succeeds: each frame is emitted,
and its link to the next frame can be read on its own as well. -/
def frameGroups (opts : StackOptions) (mem : Remote) (v : PhpVersion)
    (peeks : Peeks) : ℕ → ℕ → ℕ → Except Status (List (List Event))
  | 0, _, _ => .ok []
  | budget + 1, remote, depth =>
      if remote = 0 then .ok []
      else do
        let (group, next) ← stackEmitFrame opts mem v peeks remote depth
        let _ ← copyProcMem mem (ptrAdd remote v.layout.prevExecuteData) 8
        let rest ← frameGroups opts mem v peeks budget next (depth + 1)
        .ok (group :: rest)

def Event.depth? : Event → Option ℕ
  | .frame f => some f.depth
  | _ => none

def frameDepths (events : List Event) : List ℕ :=
  events.filterMap Event.depth?

theorem frameDepths_append (xs ys : List Event) :
    frameDepths (xs ++ ys) = frameDepths xs ++ frameDepths ys :=
  List.filterMap_append

theorem frameDepths_varpeeks (ps : List Varpeek) :
    frameDepths (ps.map Varpeek.event) = [] := by
  rw [frameDepths, List.filterMap_eq_nil_iff]
  intro e he
  obtain ⟨p, -, rfl⟩ := List.mem_map.mp he
  rfl

theorem frameDepths_flatten (F : List (List Event)) :
    frameDepths F.flatten = (F.map frameDepths).flatten := by
  induction F with
  | nil => rfl
  | cons g F ih =>
      rw [List.flatten_cons, frameDepths_append, ih, List.map_cons,
        List.flatten_cons]

section Walk

variable {opts : StackOptions} {mem : Remote} {v : PhpVersion} {peeks : Peeks}

/-- A group has one frame, at the depth that was asked for, and the next
pointer is the link of the remote frame. -/
theorem stackEmitFrame_eq_ok {remote depth next : ℕ} {group : List Event}
    (h : stackEmitFrame opts mem v peeks remote depth = .ok (group, next)) :
    frameDepths group = [depth] ∧
      next = leVal (mem.bytes (ptrAdd remote v.layout.prevExecuteData) 8) := by
  unfold stackEmitFrame at h
  obtain ⟨executeData, hexec, h⟩ := bind_eq_ok_iff.mp h
  obtain ⟨zfunc, -, h⟩ := bind_eq_ok_iff.mp h
  obtain ⟨func, -, h⟩ := bind_eq_ok_iff.mp h
  obtain ⟨cls, -, h⟩ := bind_eq_ok_iff.mp h
  obtain ⟨⟨file, lineno, locals⟩, -, h⟩ := bind_eq_ok_iff.mp h
  obtain ⟨rfl, rfl⟩ := Prod.mk.inj (Except.ok.inj h)
  constructor
  · rw [frameDepths_append, frameDepths_varpeeks, List.nil_append]
    exact congrArg (depth :: ·) (frameDepths_varpeeks _)
  · rw [copyProcMem_eq_ok hexec]
    exact field_bytes mem remote v.prevExecuteData_add_le

theorem frameGroups_succ_eq_ok {budget remote depth : ℕ}
    {F : List (List Event)} (hne : remote ≠ 0)
    (h : frameGroups opts mem v peeks (budget + 1) remote depth = .ok F) :
    ∃ group next rest,
      stackEmitFrame opts mem v peeks remote depth = .ok (group, next) ∧
      copyProcMem mem (ptrAdd remote v.layout.prevExecuteData) 8 =
        .ok (mem.bytes (ptrAdd remote v.layout.prevExecuteData) 8) ∧
      frameGroups opts mem v peeks budget next (depth + 1) = .ok rest ∧
      F = group :: rest := by
  rw [frameGroups, if_neg hne] at h
  obtain ⟨⟨group, next⟩, hemit, h⟩ := bind_eq_ok_iff.mp h
  obtain ⟨link, hlink, h⟩ := bind_eq_ok_iff.mp h
  obtain ⟨rest, hrest, h⟩ := bind_eq_ok_iff.mp h
  refine ⟨group, next, rest, hemit, ?_, hrest, (Except.ok.inj h).symm⟩
  rw [hlink, copyProcMem_eq_ok hlink]

theorem frameGroups_null {budget depth : ℕ} {F : List (List Event)}
    (h : frameGroups opts mem v peeks budget 0 depth = .ok F) : F = [] := by
  cases budget with
  | zero => exact (Except.ok.inj h).symm
  | succ budget =>
      rw [frameGroups, if_pos rfl] at h
      exact (Except.ok.inj h).symm

theorem frameGroups_length_le {budget remote depth : ℕ}
    {F : List (List Event)}
    (h : frameGroups opts mem v peeks budget remote depth = .ok F) :
    F.length ≤ budget := by
  induction budget generalizing remote depth F with
  | zero =>
      rw [← Except.ok.inj h]
      exact le_rfl
  | succ budget ih =>
      by_cases hzero : remote = 0
      · subst hzero
        rw [frameGroups_null h]
        exact Nat.zero_le _
      · obtain ⟨group, next, rest, -, -, hrest, rfl⟩ :=
          frameGroups_succ_eq_ok hzero h
        exact Nat.succ_le_succ (ih hrest)

theorem frameGroups_depths {budget remote depth : ℕ} {F : List (List Event)}
    (h : frameGroups opts mem v peeks budget remote depth = .ok F) :
    F.map frameDepths = (List.range' depth F.length).map ([·]) := by
  induction budget generalizing remote depth F with
  | zero =>
      rw [← Except.ok.inj h]
      rfl
  | succ budget ih =>
      by_cases hzero : remote = 0
      · subst hzero
        rw [frameGroups_null h]
        rfl
      · obtain ⟨group, next, rest, hemit, -, hrest, rfl⟩ :=
          frameGroups_succ_eq_ok hzero h
        rw [List.map_cons, (stackEmitFrame_eq_ok hemit).1, ih hrest]
        rfl

/-- Without a root depth limit the walk stops at the leaf depth limit. -/
theorem walkLoop_eq (leaf : ℤ) {budget remote depth : ℕ}
    {F : List (List Event)}
    (h : frameGroups opts mem v peeks budget remote depth = .ok F)
    (hleaf : leaf < 0 ∨ (depth : ℤ) ≤ leaf) :
    let kept := if leaf < 0 then F else F.take (leaf - depth).toNat
    walkLoop (stackEmitFrame opts mem v peeks) leaf budget remote depth =
      { events := kept.flatten
        depth := depth + kept.length
        status := Status.ok } := by
  induction budget generalizing remote depth F with
  | zero =>
      rw [← Except.ok.inj h]
      simp [walkLoop]
  | succ budget ih =>
      by_cases hzero : remote = 0
      · subst hzero
        rw [frameGroups_null h]
        simp [walkLoop]
      · obtain ⟨group, next, rest, hemit, -, hrest, rfl⟩ :=
          frameGroups_succ_eq_ok hzero h
        by_cases hstop : (depth : ℤ) = leaf
        · have hnonneg : ¬ leaf < 0 := by omega
          simp [walkLoop, hstop, hnonneg]
        · have hnext : leaf < 0 ∨ ((depth + 1 : ℕ) : ℤ) ≤ leaf := by omega
          have hwalk := ih hrest hnext
          have hcond : ¬ (remote = 0 ∨ (depth : ℤ) = leaf) :=
            not_or.mpr ⟨hzero, hstop⟩
          rw [walkLoop, if_neg hcond, hemit]
          simp only [hwalk]
          by_cases hneg : leaf < 0
          · simp only [if_pos hneg, List.flatten_cons, List.length_cons]
            congr 1
            omega
          · have hsub : (leaf - depth).toNat =
                (leaf - (depth + 1 : ℕ)).toNat + 1 := by
              omega
            simp only [if_neg hneg, hsub, List.take_succ_cons,
              List.flatten_cons, List.length_cons]
            congr 1
            omega

/-- The collected pointers are those whose groups a full walk emits. -/
inductive Emitted (emit : ℕ → ℕ → Except Status (List Event × ℕ)) :
    List ℕ → ℕ → List (List Event) → Prop
  | nil (i : ℕ) : Emitted emit [] i []
  | cons {remote i next : ℕ} {group : List Event} {rest : List ℕ}
      {F : List (List Event)} (head : emit remote i = .ok (group, next))
      (tail : Emitted emit rest (i + 1) F) :
      Emitted emit (remote :: rest) i (group :: F)

theorem stackCollect_eq {budget remote depth : ℕ} {F : List (List Event)}
    (h : frameGroups opts mem v peeks budget remote depth = .ok F) :
    ∃ stackPtrs, stackCollect mem v budget remote = .ok stackPtrs ∧
      Emitted (stackEmitFrame opts mem v peeks) stackPtrs depth F := by
  induction budget generalizing remote depth F with
  | zero =>
      rw [← Except.ok.inj h]
      exact ⟨[], rfl, .nil depth⟩
  | succ budget ih =>
      by_cases hzero : remote = 0
      · subst hzero
        rw [frameGroups_null h]
        exact ⟨[], rfl, .nil depth⟩
      · obtain ⟨group, next, rest, hemit, hlink, hrest, rfl⟩ :=
          frameGroups_succ_eq_ok hzero h
        obtain ⟨ptrs, hptrs, hemitted⟩ := ih hrest
        refine ⟨remote :: ptrs, ?_, .cons hemit hemitted⟩
        rw [(stackEmitFrame_eq_ok hemit).2] at hptrs
        rw [stackCollect, if_neg hzero, hlink]
        simp only [bind, Except.bind, hptrs]

end Walk

/-! ## The loop over collected pointers -/

section Emit

variable {emit : ℕ → ℕ → Except Status (List Event × ℕ)}

theorem Emitted.length_eq {ptrs : List ℕ} {i : ℕ} {F : List (List Event)}
    (h : Emitted emit ptrs i F) : ptrs.length = F.length := by
  induction h with
  | nil i => rfl
  | cons head tail ih => rw [List.length_cons, List.length_cons, ih]

theorem emitLoop_cons {keepInner keepOuterFrom numElided : ℤ}
    {remote i next : ℕ} {group : List Event} (rest : List ℕ)
    (head : emit remote i = .ok (group, next)) :
    emitLoop emit keepInner keepOuterFrom numElided (remote :: rest) i =
      let tail := emitLoop emit keepInner keepOuterFrom numElided rest (i + 1)
      ((if (i : ℤ) = keepInner ∧ numElided > 0 then
          [elidedFrame numElided i] else []) ++
        ((if keepInner ≤ i ∧ i < keepOuterFrom then [] else group) ++ tail.1),
        tail.2) := by
  rw [emitLoop]
  by_cases hskip : keepInner ≤ i ∧ i < keepOuterFrom
  · simp only [if_pos hskip, List.nil_append]
  · simp only [if_neg hskip, head, List.append_assoc]

theorem emitLoop_all {keepInner keepOuterFrom numElided : ℤ}
    {ptrs : List ℕ} {i : ℕ} {F : List (List Event)}
    (h : Emitted emit ptrs i F)
    (hkeep : ∀ j : ℕ, j < i + F.length →
      ¬ ((j : ℤ) = keepInner ∧ numElided > 0) ∧
        ¬ (keepInner ≤ j ∧ j < keepOuterFrom)) :
    emitLoop emit keepInner keepOuterFrom numElided ptrs i =
      (F.flatten, Status.ok) := by
  induction h with
  | nil i => rfl
  | @cons remote i next group rest F head tail ih =>
      have hi := hkeep i (by simp)
      have htail := ih fun j hj =>
        hkeep j (by rw [List.length_cons]; omega)
      rw [emitLoop_cons rest head, htail]
      simp only [if_neg hi.1, if_neg hi.2, List.nil_append,
        List.flatten_cons]

theorem emitLoop_outer {m e : ℕ} {numElided : ℤ} {ptrs : List ℕ} {i : ℕ}
    {F : List (List Event)} (h : Emitted emit ptrs i F) (hi : m < i) :
    emitLoop emit m e numElided ptrs i =
      ((F.drop (e - i)).flatten, Status.ok) := by
  induction h with
  | nil i => simp [emitLoop]
  | @cons remote i next group rest F head tail ih =>
      have hmark : ¬ ((i : ℤ) = (m : ℤ) ∧ numElided > 0) := by omega
      rw [emitLoop_cons rest head, ih (by omega)]
      by_cases hskip : i < e
      · have hdrop : e - i = e - (i + 1) + 1 := by omega
        have hcond : (m : ℤ) ≤ i ∧ (i : ℤ) < e := by omega
        simp only [if_neg hmark, if_pos hcond, List.nil_append, hdrop,
          List.drop_succ_cons]
      · have hdrop : e - i = 0 ∧ e - (i + 1) = 0 := by omega
        have hcond : ¬ ((m : ℤ) ≤ i ∧ (i : ℤ) < e) := by omega
        simp only [if_neg hmark, if_neg hcond, List.nil_append, hdrop.1,
          hdrop.2, List.drop_zero, List.flatten_cons]

/-- The loop emits the groups next to the leaf, the marker, and the groups
next to the root. -/
theorem emitLoop_elided {m e : ℕ} {numElided : ℤ} {ptrs : List ℕ} {i : ℕ}
    {F : List (List Event)} (h : Emitted emit ptrs i F) (hi : i ≤ m)
    (hme : m < e) (he : e ≤ i + F.length) (hnum : numElided > 0) :
    emitLoop emit m e numElided ptrs i =
      ((F.take (m - i)).flatten ++
        elidedFrame numElided m :: (F.drop (e - i)).flatten, Status.ok) := by
  induction h with
  | nil i =>
      rw [List.length_nil] at he
      omega
  | @cons remote i next group rest F head tail ih =>
      rw [List.length_cons] at he
      rw [emitLoop_cons rest head]
      have hdrop : e - i = e - (i + 1) + 1 := by omega
      rcases Nat.eq_or_lt_of_le hi with rfl | hlt
      · have hcond : (i : ℤ) ≤ i ∧ (i : ℤ) < e := by omega
        simp only [emitLoop_outer tail (Nat.lt_succ_self i), hnum,
          if_pos hcond, and_self, if_true, Nat.sub_self, List.take_zero,
          List.flatten_nil, List.nil_append, List.cons_append, hdrop,
          List.drop_succ_cons]
      · have hmark : ¬ ((i : ℤ) = (m : ℤ) ∧ numElided > 0) := by omega
        have hcond : ¬ ((m : ℤ) ≤ i ∧ (i : ℤ) < e) := by omega
        have htake : m - i = m - (i + 1) + 1 := by omega
        simp only [ih hlt (by omega), if_neg hmark, if_neg hcond,
          List.nil_append, htake, hdrop, List.take_succ_cons,
          List.drop_succ_cons, List.flatten_cons, List.append_assoc]

end Emit

/-! ## What `trace_stack` emits -/

/-- The groups to emit: with no root limit those next to the leaf, otherwise
both ends with a marker at the depth where the gap begins. -/
def keptGroups (leaf root : ℤ) (F : List (List Event)) : List (List Event) :=
  if root < 0 then
    if leaf < 0 then F else F.take leaf.toNat
  else
    keepEnds leaf.toNat root.toNat
      (fun k => [elidedFrame k leaf.toNat]) F

/-- Which indices the loop leaves out, and where it puts the marker.  The sum
of the limits may wrap around, but then no index is left out. -/
theorem window_iff {m n total : ℕ} (hm : m < 2 ^ 31) (hn : n < 2 ^ 31)
    (htotal : total ≤ 1024) :
    let tooDeep := wrap32 (m + n) < total
    let keepOuterFrom := if tooDeep then wrap32 (total - n) else (m : ℤ)
    let numElided := if tooDeep then wrap32 (keepOuterFrom - m) else 0
    ∀ i : ℕ, i < total →
      ((m : ℤ) ≤ i ∧ (i : ℤ) < keepOuterFrom ↔ m ≤ i ∧ i + n < total) ∧
        ((i : ℤ) = m ∧ numElided > 0 ↔ i = m ∧ i + n < total) := by
  intro tooDeep keepOuterFrom numElided i hi
  have hfrom : wrap32 (total - n) = total - n :=
    wrap32_of_le (by omega) (by omega)
  by_cases htoo : tooDeep
  · have houter : keepOuterFrom = total - n := (if_pos htoo).trans hfrom
    have hnum : numElided = wrap32 (total - n - m) := by
      rw [← houter]
      exact if_pos htoo
    rw [houter, hnum]
    refine ⟨by omega, ⟨fun hmark => ?_, fun hmark => ?_⟩⟩
    · rw [wrap32_of_le (by omega) (by omega)] at hmark
      omega
    · rw [wrap32_of_le (by omega) (by omega)]
      omega
  · have houter : keepOuterFrom = m := if_neg htoo
    have hnum : numElided = 0 := if_neg htoo
    have hfits : m < total → total ≤ m + n := by
      intro hlt
      by_contra hnot
      exact htoo (by
        change wrap32 (m + n) < total
        rw [wrap32_of_le (by omega) (by omega)]
        omega)
    rw [houter, hnum]
    omega

theorem emitLoop_keepEnds
    {emit : ℕ → ℕ → Except Status (List Event × ℕ)} {ptrs : List ℕ}
    {F : List (List Event)} {m n : ℕ} (h : Emitted emit ptrs 0 F)
    (hm : m < 2 ^ 31) (hn : n < 2 ^ 31) (htotal : F.length ≤ 1024) :
    let tooDeep := wrap32 (m + n) < F.length
    let keepOuterFrom := if tooDeep then wrap32 (F.length - n) else m
    let numElided := if tooDeep then wrap32 (keepOuterFrom - m) else 0
    emitLoop emit m keepOuterFrom numElided ptrs 0 =
      ((keepEnds m n (fun k => [elidedFrame k m]) F).flatten,
        Status.ok) := by
  intro tooDeep keepOuterFrom numElided
  have hfrom : wrap32 (F.length - n) = F.length - n :=
    wrap32_of_le (by omega) (by omega)
  by_cases hfits : F.length ≤ m + n
  · rw [keepEnds_of_le hfits]
    refine emitLoop_all h fun j hj => ?_
    obtain ⟨hskip, hmark⟩ := window_iff hm hn htotal j (by omega)
    exact ⟨fun hj => by have := hmark.mp hj; omega,
      fun hj => by have := hskip.mp hj; omega⟩
  · have hsum : wrap32 (m + n) = m + n := wrap32_of_le (by omega) (by omega)
    have htoo : tooDeep := by
      change wrap32 (m + n) < F.length
      omega
    have houter : keepOuterFrom = ((F.length - n : ℕ) : ℤ) := by
      rw [show keepOuterFrom = F.length - n from (if_pos htoo).trans hfrom]
      omega
    have hnum : numElided = ((F.length - (m + n) : ℕ) : ℤ) := by
      rw [show numElided = wrap32 (keepOuterFrom - m) from if_pos htoo,
        houter, wrap32_of_le (by omega) (by omega)]
      omega
    rw [houter, hnum, keepEnds_of_lt (Nat.not_le.mp hfits),
      emitLoop_elided h (Nat.zero_le m) (by omega) (by omega) (by omega)]
    simp only [Nat.sub_zero, List.flatten_append, List.flatten_cons,
      List.singleton_append]

def StackOptions.unlimited (opts : StackOptions) : StackOptions :=
  { opts with maxDepthFromLeaf := -1, maxDepthFromRoot := -1 }

theorem frameGroups_unlimited (opts : StackOptions) (mem : Remote)
    (v : PhpVersion) (peeks : Peeks) (budget remote depth : ℕ) :
    frameGroups opts.unlimited mem v peeks budget remote depth =
      frameGroups opts mem v peeks budget remote depth := by
  induction budget generalizing remote depth with
  | zero => rfl
  | succ budget ih =>
      have hemit : stackEmitFrame opts.unlimited mem v peeks =
          stackEmitFrame opts mem v peeks := rfl
      simp only [frameGroups, hemit, ih]

section TraceStack

variable {opts : StackOptions} {mem : Remote} {v : PhpVersion} {peeks : Peeks}
  {remote : ℕ} {F : List (List Event)}

theorem traceStack_walk
    (hF : frameGroups opts mem v peeks maxStackWalk remote 0 = .ok F)
    (hroot : opts.maxDepthFromRoot < 0) :
    let kept := keptGroups opts.maxDepthFromLeaf opts.maxDepthFromRoot F
    traceStack opts mem v peeks remote =
      { events := kept.flatten
        depth := kept.length
        status := Status.ok } := by
  have hwalk := walkLoop_eq opts.maxDepthFromLeaf hF (by omega)
  simp only [Nat.cast_zero, Int.sub_zero, Nat.zero_add] at hwalk
  simp only [traceStack, keptGroups, if_neg (Int.not_le.mpr hroot),
    if_pos hroot, ge_iff_le]
  exact hwalk

theorem traceStack_collect
    (hF : frameGroups opts mem v peeks maxStackWalk remote 0 = .ok F)
    (hleafMax : opts.maxDepthFromLeaf < 2 ^ 31)
    (hroot : 0 ≤ opts.maxDepthFromRoot)
    (hrootMax : opts.maxDepthFromRoot < 2 ^ 31) :
    traceStack opts mem v peeks remote =
      { events :=
          (keptGroups opts.maxDepthFromLeaf opts.maxDepthFromRoot F).flatten
        depth := F.length
        status := Status.ok } := by
  obtain ⟨ptrs, hptrs, hemitted⟩ := stackCollect_eq hF
  have hlength : F.length ≤ 1024 := frameGroups_length_le hF
  have hinner := keepInner_eq opts.maxDepthFromLeaf
  have houter := (Int.toNat_of_nonneg hroot).symm
  have hloop := emitLoop_keepEnds hemitted
    (m := opts.maxDepthFromLeaf.toNat) (n := opts.maxDepthFromRoot.toNat)
    (by omega) (by omega) hlength
  simp only [← houter] at hloop
  simp only [traceStack, keptGroups, ge_iff_le, if_pos hroot, hptrs,
    hemitted.length_eq, if_neg (Int.not_lt.mpr hroot)] at hinner ⊢
  simp only [hinner, hloop, if_true]

theorem frameDepths_keptGroups (leaf root : ℤ)
    (hdepths : F.map frameDepths = (List.range F.length).map ([·])) :
    frameDepths (keptGroups leaf root F).flatten =
      if root < 0 then
        if leaf < 0 then List.range F.length
        else (List.range F.length).take leaf.toNat
      else keepEnds leaf.toNat root.toNat (fun _ => leaf.toNat)
        (List.range F.length) := by
  have hsingle : ∀ xs : List ℕ, (xs.map ([·])).flatten = xs :=
    fun xs => List.flatMap_singleton' xs
  rw [frameDepths_flatten, keptGroups]
  by_cases hroot : root < 0
  · by_cases hleaf : leaf < 0
    · simp only [if_pos hroot, if_pos hleaf, hdepths, hsingle]
    · simp only [if_pos hroot, if_neg hleaf, List.map_take, hdepths]
      rw [← List.map_take, hsingle]
  · simp only [if_neg hroot, map_keepEnds, hdepths]
    have hmarker : ∀ k : ℕ,
        frameDepths [elidedFrame k leaf.toNat] = [leaf.toNat] := fun _ => rfl
    simp only [hmarker]
    rw [← map_keepEnds ([·]), hsingle]

theorem frameDepths_keptGroups_pairwise (leaf root : ℤ)
    (hdepths : F.map frameDepths = (List.range F.length).map ([·])) :
    (frameDepths (keptGroups leaf root F).flatten).Pairwise (· < ·) := by
  rw [frameDepths_keptGroups leaf root hdepths]
  split
  · split
    · exact List.pairwise_lt_range
    · exact List.pairwise_lt_range.take
  · exact keepEnds_range_pairwise leaf.toNat root.toNat F.length

theorem frameDepths_keptGroups_length (leaf : ℤ) {root : ℤ}
    (hroot : 0 ≤ root)
    (hdepths : F.map frameDepths = (List.range F.length).map ([·])) :
    let numElided := F.length - (leaf.toNat + root.toNat)
    (frameDepths (keptGroups leaf root F).flatten).length + numElided =
      F.length + if numElided = 0 then 0 else 1 := by
  intro numElided
  rw [frameDepths_keptGroups leaf root hdepths, if_neg (not_lt.mpr hroot)]
  by_cases hfits : F.length ≤ leaf.toNat + root.toNat
  · have hnum : numElided = 0 := Nat.sub_eq_zero_of_le hfits
    rw [keepEnds_of_le (by rwa [List.length_range]), List.length_range, hnum,
      if_pos rfl]
  · have hlt : leaf.toNat + root.toNat < (List.range F.length).length := by
      rw [List.length_range]
      exact Nat.not_le.mp hfits
    have hnum : numElided ≠ 0 := Nat.sub_ne_zero_of_lt (Nat.not_le.mp hfits)
    rw [length_keepEnds_of_lt hlt, if_neg hnum]
    omega

/-- `trace_stack` emits the groups of a full walk that the two limits ask for.
The depths of the emitted frames are strictly increasing, and the marker counts
what is missing.  When nothing is missing, the loop over collected pointers
does what a walk without limits does. -/
theorem traceStack_keeps_ends (opts : StackOptions) (mem : Remote)
    (v : PhpVersion) (peeks : Peeks) (remote : ℕ) (F : List (List Event))
    (hleafMax : opts.maxDepthFromLeaf < 2 ^ 31)
    (hrootMax : opts.maxDepthFromRoot < 2 ^ 31)
    (hF : frameGroups opts mem v peeks maxStackWalk remote 0 = .ok F) :
    let leaf := opts.maxDepthFromLeaf
    let root := opts.maxDepthFromRoot
    let numElided := F.length - (leaf.toNat + root.toNat)
    let trace := traceStack opts mem v peeks remote
    trace.status = Status.ok ∧
      trace.events = (keptGroups leaf root F).flatten ∧
      F.map frameDepths = (List.range F.length).map ([·]) ∧
      (frameDepths trace.events).Pairwise (· < ·) ∧
      (0 ≤ root →
        (frameDepths trace.events).length + numElided =
          F.length + if numElided = 0 then 0 else 1) ∧
      (0 ≤ root → numElided = 0 →
        trace = traceStack opts.unlimited mem v peeks remote) := by
  intro leaf root numElided trace
  have hdepths : F.map frameDepths = (List.range F.length).map ([·]) := by
    rw [List.range_eq_range']
    exact frameGroups_depths hF
  have hevents : trace.status = Status.ok ∧
      trace.events = (keptGroups leaf root F).flatten := by
    by_cases hoff : root < 0
    · exact ⟨congrArg StackTrace.status (traceStack_walk hF hoff),
        congrArg StackTrace.events (traceStack_walk hF hoff)⟩
    · have hcollect :=
        traceStack_collect hF hleafMax (not_lt.mp hoff) hrootMax
      exact ⟨congrArg StackTrace.status hcollect,
        congrArg StackTrace.events hcollect⟩
  refine ⟨hevents.1, hevents.2, hdepths, ?_, ?_, ?_⟩
  · rw [hevents.2]
    exact frameDepths_keptGroups_pairwise leaf root hdepths
  · intro hon
    rw [hevents.2]
    exact frameDepths_keptGroups_length leaf hon hdepths
  · intro hon hnone
    have hfits : F.length ≤ leaf.toNat + root.toNat :=
      Nat.sub_eq_zero_iff_le.mp hnone
    have hwalk := (frameGroups_unlimited opts mem v peeks _ _ _).trans hF
    have hoff : opts.unlimited.maxDepthFromRoot < 0 := Int.negSucc_lt_zero 0
    rw [traceStack_walk hwalk hoff, show trace = _ from
      traceStack_collect hF hleafMax hon hrootMax]
    have hkept : keptGroups leaf root F = F :=
      (if_neg (not_lt.mpr hon)).trans (keepEnds_of_le hfits)
    have hall : keptGroups opts.unlimited.maxDepthFromLeaf
        opts.unlimited.maxDepthFromRoot F = F := rfl
    simp only [hall]
    rw [hkept]

end TraceStack

/-! ## A stack of three frames -/

/-- Three frames at 512, 1024 and 1536 that run the same nameless internal
function at 256. -/
def threeFrames : Remote where
  byte a :=
    if a ∈ [512 + 25, 1024 + 25, 1536 + 25] then 1
    else if a = 512 + 49 then 4
    else if a = 1024 + 49 then 6
    else 0
  fault _ _ := none

def mainFrame (depth : ℕ) : Event :=
  .frame
    { loc :=
        { func := lit "<main>"
          cls := []
          file := lit "<internal>"
          lineno := -1 }
      depth := depth }

def oneFromEachEnd : StackOptions where
  maxDepthFromLeaf := 1
  maxDepthFromRoot := 1
  varpeeking := false
  peekPdo := false

def noPeeks : Peeks where
  locals _ _ _ _ := []
  pdo _ _ _ := []

theorem traceStack_keeps_ends_three :
    (traceStack oneFromEachEnd threeFrames .v83 noPeeks 512).events =
      [mainFrame 0, elidedFrame 1 1, mainFrame 2] :=
  (traceStack_keeps_ends oneFromEachEnd threeFrames .v83 noPeeks 512
    [[mainFrame 0], [mainFrame 1], [mainFrame 2]]
    (by decide) (by decide) rfl).2.1

end Phpspy

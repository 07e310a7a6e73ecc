import Phpspy.Output.Open
import Phpspy.StackCollapse.RoundTrip

/-!
# An output for every thread

With `%d` in the path every handler opens the file of its thread and truncates
it.  No two threads meet in a file, but the handlers of one thread do: the file
of a thread holds what its last handler has written, and nothing of the handlers
before.
-/

namespace Phpspy
namespace Output

open ByteText FileTable Fout Interleaving StackCollapse

def threadPath (pathOutput : Bytes) (tid : ℕ) : Option Bytes :=
  asprintf false (some tid) pathOutput

theorem infix_of_converts {percent : Bool} {fmt : Bytes}
    (h : converts percent fmt = true) :
    lit "%d" <:+: if percent then 37 :: fmt else fmt := by
  induction fmt generalizing percent with
  | nil => cases percent <;> cases h
  | cons c rest ih =>
      cases percent with
      | false =>
          rw [converts] at h
          split at h
          · next hc =>
              subst hc
              exact ih h
          · exact (ih h).trans (List.suffix_cons c rest).isInfix
      | true =>
          rw [converts, Bool.or_eq_true, decide_eq_true_iff] at h
          rcases h with rfl | h
          · exact ⟨[], rest, rfl⟩
          · exact (ih h).trans
              ⟨[37, c], [], by rw [List.append_nil]; rfl⟩

/-! ## What a handler has sent -/

theorem State.sentBy_append {s t : State} {h : Handler} {payload : Bytes}
    (hsent : t.sent = s.sent ++ [(h, payload)]) :
    t.sentBy h = s.sentBy h ++ payload := by
  rw [sentBy, hsent, List.filter_append, List.map_append,
    List.flatten_append, List.filter_singleton, sentBy]
  simp

theorem State.sentBy_append_of_ne {s t : State} {h other : Handler}
    {payload : Bytes} (hsent : t.sent = s.sent ++ [(h, payload)])
    (hne : h ≠ other) : t.sentBy other = s.sentBy other := by
  rw [sentBy, hsent, List.filter_append, List.filter_singleton, sentBy]
  simp [hne]

theorem State.sentBy_congr {s t : State} (hsent : t.sent = s.sent)
    (h : Handler) : t.sentBy h = s.sentBy h := by
  rw [sentBy, hsent, sentBy]

theorem State.sentBy_eq_nil {s : State} {h : Handler}
    (hnone : ∀ p ∈ s.sent, p.1 ≠ h) : s.sentBy h = [] := by
  have hfilter : s.sent.filter (fun p => p.1 = h) = [] :=
    List.filter_eq_nil_iff.mpr fun p hp => by
      simpa using hnone p hp
  rw [sentBy, hfilter]
  rfl

section PerThread

variable {pathOutput : Bytes} {before : FileName → Bytes} {s t : State}

def threadText (before : FileName → Bytes) (s : State) (tid : ℕ)
    (path : Bytes) : Bytes :=
  if s.count tid = 0 then before (some path) else s.sentBy (s.current tid)

/-- A handler's descriptor is for the end of the file of its thread. -/
structure Owns (pathOutput : Bytes) (s : State) (tid fd i : ℕ)
    (path : Bytes) : Prop where
  path_eq : threadPath pathOutput tid = some path
  fds_eq : s.files.table.fds fd = some (.file i)
  atEnd : s.files.table.AtEnd i (some path) (s.sentBy (s.current tid))

structure PerThread (pathOutput : Bytes) (before : FileName → Bytes)
    (s : State) : Prop where
  unshared : s.files.sharedFd = none
  distinct : ∀ a b fd, s.fd a = some fd → s.fd b = some fd → a = b
  live : ∀ tid fd, s.fd tid = some fd →
    0 < s.count tid ∧ ∃ i path, Owns pathOutput s tid fd i path
  content : ∀ tid path, threadPath pathOutput tid = some path →
    s.files.table.content (some path) = threadText before s tid path
  numbered : ∀ p ∈ s.sent, p.1.2 ≤ s.count p.1.1

theorem PerThread.of_fewer (h : PerThread pathOutput before s)
    (hfd : ∀ tid fd, t.fd tid = some fd → s.fd tid = some fd)
    (hcount : t.count = s.count) (hsent : t.sent = s.sent)
    (hshared : t.files.sharedFd = s.files.sharedFd)
    (hopened : t.files.table.opened = s.files.table.opened)
    (hcontent : t.files.table.content = s.files.table.content)
    (hfds : ∀ tid fd, t.fd tid = some fd →
      t.files.table.fds fd = s.files.table.fds fd) :
    PerThread pathOutput before t where
  unshared := hshared.trans h.unshared
  distinct a b fd ha hb := h.distinct a b fd (hfd a fd ha) (hfd b fd hb)
  live tid fd hlive := by
    obtain ⟨hpos, i, path, hown⟩ := h.live tid fd (hfd tid fd hlive)
    refine ⟨by rwa [hcount], i, path, hown.path_eq,
      (hfds tid fd hlive).trans hown.fds_eq, ?_⟩
    rw [State.current, hcount, State.sentBy_congr hsent]
    exact hown.atEnd.of_eq hopened hcontent
  content tid path hpath := by
    rw [hcontent, h.content tid path hpath, threadText, threadText,
      State.current, State.current, hcount, State.sentBy_congr hsent]
  numbered p hp := by
    rw [hsent] at hp
    rw [hcount]
    exact h.numbered p hp

theorem PerThread.fd_ne_of_free (h : PerThread pathOutput before s) {fd : ℕ}
    (hfree : s.files.table.fds fd = none) (tid : ℕ) : s.fd tid ≠ some fd := by
  intro hlive
  obtain ⟨-, i, path, hown⟩ := h.live tid fd hlive
  rw [hown.fds_eq] at hfree
  cases hfree

/-! ## The steps -/

variable {opts : Options} {libc : Handler → Libc} {tid : ℕ}

theorem PerThread.opens (hconv : converts false pathOutput = true)
    (h : PerThread pathOutput before s) (hidle : s.fd tid = none) {fd : ℕ}
    (hsent : t.sent = s.sent)
    (hopen : eventHandlerFoutOpen pathOutput tid (some fd) s.files =
      some t.files)
    (hcount : t.count = Function.update s.count tid (s.count tid + 1))
    (hfd : t.fd = s.fd ∨ t.fd = Function.update s.fd tid (some fd)) :
    PerThread pathOutput before t := by
  obtain ⟨apath, hapath, hshared, htable⟩ :=
    open_of_format (infix_of_converts hconv) hopen
  obtain ⟨hfree, hfds⟩ := Table.openTrunc_fds htable
  have hfresh : t.sentBy (t.current tid) = [] := by
    apply State.sentBy_eq_nil
    rintro p hp heq
    rw [hsent] at hp
    have hle := h.numbered p hp
    rw [heq, State.current, hcount, Function.update_self] at hle
    exact absurd hle (Nat.not_succ_le_self _)
  have hother : ∀ a, a ≠ tid → t.count a = s.count a ∧
      t.sentBy (t.current a) = s.sentBy (s.current a) := by
    intro a ha
    have hsame : t.count a = s.count a := by
      rw [hcount, Function.update_of_ne ha]
    exact ⟨hsame, by
      rw [State.current, hsame, State.sentBy_congr hsent, State.current]⟩
  have hpaths : ∀ a path, a ≠ tid → threadPath pathOutput a = some path →
      (some apath : FileName) ≠ some path := by
    intro a path ha hpath heq
    rw [← Option.some.inj heq] at hpath
    exact ha (asprintf_injective hconv hpath hapath)
  have hunused := h.fd_ne_of_free hfree
  refine ⟨hshared.trans h.unshared,
    fd_distinct_of_opened h.distinct hidle hunused hfd,
    fun a x ha => ?_, fun a path hpath => ?_, fun p hp => ?_⟩
  · rcases fd_of_opened hidle hunused hfd ha with
      ⟨rfl, rfl⟩ | ⟨hne, hx, ha⟩
    · refine ⟨?_, s.files.table.opened.length, apath, hapath, ?_, ?_⟩
      · rw [hcount, Function.update_self]
        exact Nat.succ_pos _
      · rw [hfds, Function.update_self]
      · rw [hfresh]
        exact Table.openTrunc_atEnd htable
    · obtain ⟨hpos, i, path, hown⟩ := h.live a x ha
      obtain ⟨hsame, htext⟩ := hother a hne
      refine ⟨by rwa [hsame], i, path, hown.path_eq, ?_, ?_⟩
      · rw [hfds, Function.update_of_ne hx, hown.fds_eq]
      · rw [htext]
        exact hown.atEnd.openTrunc_other (hpaths a path hne hown.path_eq)
          htable
  · by_cases hne : a = tid
    · subst hne
      obtain rfl : apath = path := Option.some.inj (hapath.symm.trans hpath)
      have hpos : t.count a ≠ 0 := by
        rw [hcount, Function.update_self]
        exact Nat.succ_ne_zero _
      rw [threadText, if_neg hpos, hfresh]
      exact (Table.openTrunc_atEnd htable).content
    · obtain ⟨hsame, htext⟩ := hother a hne
      rw [Table.openTrunc_content htable (hpaths a path hne hpath),
        h.content a path hpath, threadText, threadText, hsame, htext]
  · rw [hsent] at hp
    have hle := h.numbered p hp
    by_cases heq : p.1.1 = tid
    · rw [hcount, heq, Function.update_self]
      rw [heq] at hle
      exact Nat.le_succ_of_le hle
    · rw [(hother p.1.1 heq).1]
      exact hle

theorem PerThread.init (hconv : converts false pathOutput = true)
    (h : PerThread pathOutput before s) {answer : Option ℕ}
    (hstep : initStep pathOutput opts libc s tid answer = some t) :
    PerThread pathOutput before t := by
  obtain ⟨hidle, -, hsent, -, hopen, hcases⟩ := initStep_eq_some hstep
  rcases hcases with ⟨rfl, hfd, hcount⟩ | ⟨fd, rfl, hcount, hfd⟩
  · have hfiles := open_fails hopen
    apply h.of_fewer _ hcount hsent
    · rw [hfiles]
    · rw [hfiles]
    · rw [hfiles]
    · intro a fd _
      rw [hfiles]
    · intro a fd ha
      rwa [hfd] at ha
  · exact h.opens hconv hidle hsent hopen hcount hfd

theorem PerThread.write (hconv : converts false pathOutput = true)
    (h : PerThread pathOutput before s) {fd : ℕ}
    (hlive : s.fd tid = some fd) {payload : Bytes} (hfd : t.fd = s.fd)
    (hcount : t.count = s.count)
    (hshared : t.files.sharedFd = s.files.sharedFd)
    (hwrite : s.files.table.write 0 fd payload = some t.files.table)
    (hsent : t.sent = s.sent ++ [(s.current tid, payload)]) :
    PerThread pathOutput before t := by
  obtain ⟨hpos, i, path, hown⟩ := h.live tid fd hlive
  obtain ⟨table, htable, hend⟩ := hown.atEnd.write hown.fds_eq payload
  obtain rfl : table = t.files.table :=
    Option.some.inj (htable.symm.trans hwrite)
  have hcurrent : ∀ a, t.current a = s.current a := by
    intro a
    rw [State.current, hcount, State.current]
  have hself : t.sentBy (t.current tid) =
      s.sentBy (s.current tid) ++ payload := by
    rw [hcurrent, State.sentBy_append hsent]
  have hother : ∀ a, a ≠ tid →
      t.sentBy (t.current a) = s.sentBy (s.current a) := by
    intro a ha
    rw [hcurrent]
    apply State.sentBy_append_of_ne hsent
    intro heq
    exact ha (congrArg Prod.fst heq).symm
  have hpaths : ∀ a other, a ≠ tid → threadPath pathOutput a = some other →
      (some path : FileName) ≠ some other := by
    intro a other ha hpath heq
    rw [← Option.some.inj heq] at hpath
    exact ha (asprintf_injective hconv hpath hown.path_eq)
  refine ⟨hshared.trans h.unshared, fun a b x ha hb => ?_,
    fun a x ha => ?_, fun a other hpath => ?_, fun p hp => ?_⟩
  · rw [hfd] at ha hb
    exact h.distinct a b x ha hb
  · rw [hfd] at ha
    obtain ⟨hposa, j, other, howna⟩ := h.live a x ha
    refine ⟨by rwa [hcount], ?_⟩
    by_cases hne : a = tid
    · subst hne
      obtain rfl : fd = x := Option.some.inj (hlive.symm.trans ha)
      refine ⟨i, path, hown.path_eq, ?_, ?_⟩
      · rw [Table.write_fds hwrite, hown.fds_eq]
      · rw [hself]
        exact hend
    · refine ⟨j, other, howna.path_eq, ?_, ?_⟩
      · rw [Table.write_fds hwrite, howna.fds_eq]
      · rw [hother a hne]
        exact howna.atEnd.write_other hown.fds_eq hown.atEnd.opened
          (hpaths a other hne howna.path_eq) hwrite
  · by_cases hne : a = tid
    · subst hne
      obtain rfl : path = other :=
        Option.some.inj (hown.path_eq.symm.trans hpath)
      rw [threadText, if_neg (by rw [hcount]; exact hpos.ne'), hself]
      exact hend.content
    · rw [Table.write_content hwrite hown.fds_eq hown.atEnd.opened
        (hpaths a other hne hpath), h.content a other hpath, threadText,
        threadText, hcount, hother a hne]
  · rw [hsent] at hp
    rw [hcount]
    rcases List.mem_append.mp hp with hp | hp
    · exact h.numbered p hp
    · rw [List.mem_singleton.mp hp]
      exact le_refl _

theorem PerThread.move (hconv : converts false pathOutput = true)
    (h : PerThread pathOutput before s) {taken : ℕ}
    (hstep : moveStep opts libc s tid taken = some t) :
    PerThread pathOutput before t := by
  obtain ⟨fd, through, hlive, hfd, hcount, -, hcases⟩ := moveStep_eq_some hstep
  rcases hcases with ⟨hfiles, hsent, -⟩ |
    ⟨payload, rest, bytes, -, -, hshared, hwrite, hsent, -⟩
  · apply h.of_fewer _ hcount hsent
    · rw [hfiles]
    · rw [hfiles]
    · rw [hfiles]
    · intro a fd _
      rw [hfiles]
    · intro a fd ha
      rwa [hfd] at ha
  · exact h.write hconv hlive hfd hcount hshared hwrite hsent

theorem PerThread.deinit (h : PerThread pathOutput before s)
    (hstep : deinitStep s tid = some t) : PerThread pathOutput before t := by
  obtain ⟨fd, hlive, hfd, hcount, -, hsent, -, hshared, hcases⟩ :=
    deinitStep_eq_some hstep
  have hfewer : ∀ a x, t.fd a = some x → a ≠ tid ∧ s.fd a = some x := by
    intro a x ha
    rw [hfd] at ha
    exact eq_some_of_update_none ha
  have htable : t.files.table = s.files.table.close fd := by
    rcases hcases with ⟨hnone, -⟩ | ⟨-, htable⟩
    · rw [h.unshared] at hnone
      cases hnone
    · exact htable
  apply h.of_fewer (fun a x ha => (hfewer a x ha).2) hcount hsent hshared
  · rw [htable]
    rfl
  · rw [htable]
    rfl
  · intro a x ha
    have hne : x ≠ fd := by
      rintro rfl
      exact (hfewer a x ha).1 (h.distinct a tid x (hfewer a x ha).2 hlive)
    rw [htable]
    exact Function.update_of_ne hne ..

theorem PerThread.step (hconv : converts false pathOutput = true)
    (h : PerThread pathOutput before s) {action : Action}
    (hstep : step pathOutput opts libc s action = some t) :
    PerThread pathOutput before t := by
  cases action with
  | init tid answer => exact h.init hconv hstep
  | move tid taken => exact h.move hconv hstep
  | deinit tid => exact h.deinit hstep
  | abandon tid =>
      obtain rfl := Option.some.inj hstep
      exact h.of_fewer (fun a x ha => (eq_some_of_update_none ha).2) rfl rfl
        rfl rfl rfl fun _ _ _ => rfl
  | acquire fd =>
      obtain ⟨table, htable, rfl⟩ := Option.map_eq_some_iff.mp hstep
      obtain ⟨hfree, hfds, hopened, hcontent⟩ := Table.assign_eq_some htable
      refine h.of_fewer (fun _ _ ha => ha) rfl rfl rfl hopened hcontent ?_
      intro a x ha
      have hne : x ≠ fd := by
        rintro rfl
        exact h.fd_ne_of_free hfree a ha
      dsimp only
      rw [hfds, Function.update_of_ne hne]
  | release fd =>
      simp only [Output.step] at hstep
      split at hstep
      · next hother =>
          obtain rfl := Option.some.inj hstep
          refine h.of_fewer (fun _ _ ha => ha) rfl rfl rfl rfl rfl ?_
          intro a x ha
          have hne : x ≠ fd := by
            rintro rfl
            obtain ⟨-, i, path, hown⟩ := h.live a x ha
            rw [hown.fds_eq] at hother
            cases hother
          exact Function.update_of_ne hne ..
      · cases hstep

theorem PerThread.start (pathOutput : Bytes) (before : FileName → Bytes)
    (udata : Handler → Udata) (traces : Handler → List Trace) :
    PerThread pathOutput before (State.start before udata traces) where
  unshared := rfl
  distinct a b fd ha := by cases ha
  live tid fd hlive := by cases hlive
  content tid path _ := rfl
  numbered p hp := absurd hp List.not_mem_nil

/-- Any number of threads, each with one handler after the other, open, write
and close in any order, and the path has a `%d`.  Every handler has a
descriptor of its own for the file of its thread as long as it lives.  The file
of a thread holds what its last handler has written, so what the handlers
before have written is gone, and it is left alone before the first one. -/
theorem run_holds_last_handler (hconv : converts false pathOutput = true)
    (before : FileName → Bytes) (udata : Handler → Udata)
    (traces : Handler → List Trace) (actions : List Action)
    (hrun : Transition.run (Output.step pathOutput opts libc)
      (State.start before udata traces) actions = some s) :
    (∀ a b fd, s.fd a = some fd → s.fd b = some fd → a = b) ∧
      (∀ tid fd, s.fd tid = some fd → ∃ i f,
        s.files.table.fds fd = some (.file i) ∧
          s.files.table.opened[i]? = some f ∧
            f.name = threadPath pathOutput tid) ∧
      ∀ tid path, threadPath pathOutput tid = some path →
        s.files.table.content (some path) =
          if s.count tid = 0 then before (some path)
          else s.sentBy (tid, s.count tid) := by
  have hinv : PerThread pathOutput before s :=
    Transition.run_invariant (fun _ _ _ h hstep => h.step hconv hstep)
      (PerThread.start pathOutput before udata traces) hrun
  refine ⟨hinv.distinct, fun tid fd hlive => ?_, hinv.content⟩
  obtain ⟨-, i, path, hown⟩ := hinv.live tid fd hlive
  exact ⟨i, _, hown.fds_eq, hown.atEnd.opened, hown.path_eq.symm⟩

end PerThread

/-- Thread 7 writes a trace in two chunks and closes its file, then its next
handler writes the first bytes of a trace, while thread 8 writes a trace. -/
def threeHandlers : List Action :=
  [.init 7 (some 3), .init 8 (some 4), .move 7 99, .move 8 99,
    .move 7 99, .move 8 99, .move 7 99, .deinit 7, .init 7 (some 3),
    .move 7 99, .move 8 99, .move 7 3]

theorem run_holds_last_handler_three :
    ∃ u s, Fout.init wrapOptions workingLibc = some u ∧
      Transition.run (step (lit "out.%d") wrapOptions fun _ => workingLibc)
        (State.start (fun _ => lit "old") (fun _ => u) fun _ => [wrapTrace])
          threeHandlers = some s ∧
      s.sent.map Prod.fst = [(7, 1), (8, 1), (7, 1), (8, 1), (7, 2)] ∧
      s.files.table.content (some (lit "out.7")) = s.sentBy (7, 2) ∧
      s.files.table.content (some (lit "out.8")) = s.sentBy (8, 1) ∧
      s.files.table.content (some (lit "out.9")) = lit "old" := by
  obtain ⟨u, hinit⟩ : ∃ u, Fout.init wrapOptions workingLibc = some u :=
    ⟨_, rfl⟩
  have hend : (Transition.run
      (step (lit "out.%d") wrapOptions fun _ => workingLibc)
        (State.start (fun _ => lit "old") (fun _ => u) fun _ => [wrapTrace])
          threeHandlers).any (fun s =>
            s.sent.map Prod.fst == [(7, 1), (8, 1), (7, 1), (8, 1), (7, 2)] &&
              s.count 7 == 2 && s.count 8 == 1 && s.count 9 == 0) = true := by
    obtain rfl := Option.some.inj hinit
    decide +kernel
  obtain ⟨s, hrun, hs⟩ := (Option.any_eq_true _ _).mp hend
  simp only [Bool.and_eq_true, beq_iff_eq] at hs
  obtain ⟨⟨⟨hsent, hseven⟩, height⟩, hnine⟩ := hs
  have hcontent := (run_holds_last_handler (by decide) (fun _ => lit "old")
    (fun _ => u) (fun _ => [wrapTrace]) threeHandlers hrun).2.2
  refine ⟨u, s, hinit, hrun, hsent, ?_, ?_, ?_⟩
  · rw [hcontent 7 (lit "out.7") (by decide), hseven]
    rfl
  · rw [hcontent 8 (lit "out.8") (by decide), height]
    rfl
  · rw [hcontent 9 (lit "out.9") (by decide), hnine]
    rfl

end Output
end Phpspy

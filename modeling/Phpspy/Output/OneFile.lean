import Phpspy.Output.Open
import Phpspy.StackCollapse.RoundTrip

/-!
# One output for all handlers

Without `%d` in the path all handlers write through one open file.  Its
descriptor is never closed, no handler's descriptor is ever that of another or
closed under it, and the file holds the payloads in the order in which they were
written.
-/

namespace Phpspy
namespace Output

open ByteText FileTable Fout Interleaving Reassembly StackCollapse

/-- The file that is written to, for a path without `%d`. -/
def outputName (pathOutput : Bytes) : FileName :=
  if pathOutput = lit "-" then none else some pathOutput

/-- What is in front of the payloads: standard output is not truncated. -/
def startText (pathOutput : Bytes) (before : FileName → Bytes) : Bytes :=
  if pathOutput = lit "-" then before none else []

section OneFile

variable {pathOutput : Bytes} {before : FileName → Bytes} {s t : State}

/-- Open file `i` is that of descriptor `f` and of all handlers. -/
structure Through (pathOutput : Bytes) (before : FileName → Bytes) (s : State)
    (f i : ℕ) : Prop where
  fds_home : s.files.table.fds f = some (.file i)
  atEnd : s.files.table.AtEnd i (outputName pathOutput)
    (startText pathOutput before ++ s.sentByAll)
  fds_handler : ∀ tid fd, s.fd tid = some fd →
    s.files.table.fds fd = some (.file i)
  shared : ∀ tid, s.fd tid = some f → s.files.sharedFd = some f

structure OneFile (pathOutput : Bytes) (before : FileName → Bytes)
    (s : State) : Prop where
  distinct : ∀ a b fd, s.fd a = some fd → s.fd b = some fd → a = b
  unopened : home pathOutput s.files = none →
    (∀ tid, s.fd tid = none ∧ s.count tid = 0) ∧ s.sent = []
  opened : ∀ f, home pathOutput s.files = some f →
    ∃ i, Through pathOutput before s f i

theorem home_congr {u v : Files} (h : u.sharedFd = v.sharedFd) :
    home pathOutput u = home pathOutput v := by
  rw [home, home, h]

/-- Handlers may end, and descriptors that none of them uses may change. -/
theorem Through.of_fewer {f i : ℕ} (h : Through pathOutput before s f i)
    (hfd : ∀ tid fd, t.fd tid = some fd → s.fd tid = some fd)
    (hsent : t.sent = s.sent)
    (hshared : t.files.sharedFd = s.files.sharedFd)
    (hopened : t.files.table.opened = s.files.table.opened)
    (hcontent : t.files.table.content = s.files.table.content)
    (hhome : t.files.table.fds f = s.files.table.fds f)
    (hfds : ∀ tid fd, t.fd tid = some fd →
      t.files.table.fds fd = s.files.table.fds fd) :
    Through pathOutput before t f i where
  fds_home := hhome.trans h.fds_home
  atEnd := by
    have htext : t.sentByAll = s.sentByAll := by
      rw [State.sentByAll, hsent, State.sentByAll]
    rw [htext]
    exact h.atEnd.of_eq hopened hcontent
  fds_handler tid fd hlive :=
    (hfds tid fd hlive).trans (h.fds_handler tid fd (hfd tid fd hlive))
  shared tid hlive := hshared.trans (h.shared tid (hfd tid f hlive))

theorem OneFile.of_fewer (h : OneFile pathOutput before s)
    (hfd : ∀ tid fd, t.fd tid = some fd → s.fd tid = some fd)
    (hcount : t.count = s.count) (hsent : t.sent = s.sent)
    (hshared : t.files.sharedFd = s.files.sharedFd)
    (hopened : t.files.table.opened = s.files.table.opened)
    (hcontent : t.files.table.content = s.files.table.content)
    (hfds : ∀ f i fd, Through pathOutput before s f i →
      fd = f ∨ (∃ tid, t.fd tid = some fd) →
        t.files.table.fds fd = s.files.table.fds fd) :
    OneFile pathOutput before t where
  distinct a b fd ha hb := h.distinct a b fd (hfd a fd ha) (hfd b fd hb)
  unopened hnone := by
    rw [home_congr hshared] at hnone
    obtain ⟨hidle, hnothing⟩ := h.unopened hnone
    refine ⟨fun tid => ⟨?_, by rw [hcount, (hidle tid).2]⟩,
      by rw [hsent, hnothing]⟩
    cases hlive : t.fd tid with
    | none => rfl
    | some fd =>
        have hold := hfd tid fd hlive
        rw [(hidle tid).1] at hold
        cases hold
  opened f hf := by
    rw [home_congr hshared] at hf
    obtain ⟨i, hi⟩ := h.opened f hf
    exact ⟨i, hi.of_fewer hfd hsent hshared hopened hcontent
      (hfds f i f hi (Or.inl rfl))
      fun tid fd hlive => hfds f i fd hi (Or.inr ⟨tid, hlive⟩)⟩

/-! ## The steps -/

theorem Through.ne_of_free {f i fd : ℕ} (h : Through pathOutput before s f i)
    (hfree : s.files.table.fds fd = none) :
    f ≠ fd ∧ ∀ tid, s.fd tid ≠ some fd := by
  refine ⟨?_, ?_⟩
  · rintro rfl
    rw [h.fds_home] at hfree
    cases hfree
  · intro tid hlive
    rw [h.fds_handler tid fd hlive] at hfree
    cases hfree

variable {opts : Options} {libc : Handler → Libc} {tid : ℕ}

theorem OneFile.openFirst (hpath : ¬ lit "%d" <:+: pathOutput)
    (h : OneFile pathOutput before s) (hhome : home pathOutput s.files = none)
    {fd : ℕ} (hsent : t.sent = s.sent)
    (hopen : eventHandlerFoutOpen pathOutput tid (some fd) s.files =
      some t.files)
    (hfd : t.fd = s.fd ∨ t.fd = Function.update s.fd tid (some fd)) :
    OneFile pathOutput before t := by
  obtain ⟨hidle, hnothing⟩ := h.unopened hhome
  obtain ⟨hfile, hshared, htable⟩ := open_of_home_eq_none hpath hhome hopen
  have hunused : ∀ a, s.fd a ≠ some fd := by
    intro a ha
    rw [(hidle a).1] at ha
    cases ha
  have hlive : ∀ a x, t.fd a = some x → x = fd := by
    intro a x ha
    rcases fd_of_opened (hidle tid).1 hunused hfd ha with ⟨-, hx⟩ | ⟨-, -, ha⟩
    · exact hx
    · rw [(hidle a).1] at ha
      cases ha
  have hnew : home pathOutput t.files = some fd := by
    rw [home, if_neg hfile, hshared]
  have hfds : t.files.table.fds fd =
      some (.file s.files.table.opened.length) := by
    rw [(Table.openTrunc_fds htable).2, Function.update_self]
  have hempty : startText pathOutput before ++ t.sentByAll = [] := by
    rw [startText, if_neg hfile, State.sentByAll, hsent, hnothing]
    rfl
  refine ⟨fd_distinct_of_opened h.distinct (hidle tid).1 hunused hfd,
    fun hnone => ?_, fun f hf => ⟨s.files.table.opened.length, ?_⟩⟩
  · rw [hnew] at hnone
    cases hnone
  · obtain rfl : fd = f := Option.some.inj (hnew.symm.trans hf)
    refine ⟨hfds, ?_, fun a x ha => ?_, fun _ _ => hshared⟩
    · rw [hempty, outputName, if_neg hfile]
      exact Table.openTrunc_atEnd htable
    · rw [hlive a x ha, hfds]

theorem OneFile.openMore (hpath : ¬ lit "%d" <:+: pathOutput)
    (h : OneFile pathOutput before s) {f : ℕ}
    (hhome : home pathOutput s.files = some f) {fd : ℕ}
    (hidle : s.fd tid = none) (hsent : t.sent = s.sent)
    (hopen : eventHandlerFoutOpen pathOutput tid (some fd) s.files =
      some t.files)
    (hfd : t.fd = s.fd ∨ t.fd = Function.update s.fd tid (some fd)) :
    OneFile pathOutput before t := by
  obtain ⟨i, hi⟩ := h.opened f hhome
  obtain ⟨hshared, htable⟩ := open_of_home_eq_some hpath hhome hopen
  obtain ⟨hfree, hfds, hopened, hcontent⟩ := Table.assign_eq_some htable
  rw [hi.fds_home] at hfds
  obtain ⟨hne, hunused⟩ := hi.ne_of_free hfree
  refine ⟨fd_distinct_of_opened h.distinct hidle hunused hfd,
    fun hnone => ?_, fun f' hf' => ⟨i, ?_⟩⟩
  · rw [home_congr hshared, hhome] at hnone
    cases hnone
  · rw [home_congr hshared, hhome] at hf'
    obtain rfl := Option.some.inj hf'
    refine ⟨?_, ?_, fun a x ha => ?_, fun a ha => ?_⟩
    · rw [hfds, Function.update_of_ne hne, hi.fds_home]
    · rw [State.sentByAll, hsent]
      exact hi.atEnd.of_eq hopened hcontent
    · rcases fd_of_opened hidle hunused hfd ha with ⟨-, rfl⟩ | ⟨-, hx, ha⟩
      · rw [hfds, Function.update_self]
      · rw [hfds, Function.update_of_ne hx, hi.fds_handler a x ha]
    · rcases fd_of_opened hidle hunused hfd ha with ⟨-, heq⟩ | ⟨-, -, ha⟩
      · exact absurd heq hne
      · rw [hshared, hi.shared a ha]

theorem OneFile.init (hpath : ¬ lit "%d" <:+: pathOutput)
    (h : OneFile pathOutput before s) {answer : Option ℕ}
    (hstep : initStep pathOutput opts libc s tid answer = some t) :
    OneFile pathOutput before t := by
  obtain ⟨hidle, -, hsent, -, hopen, hcases⟩ := initStep_eq_some hstep
  rcases hcases with ⟨rfl, hfd, hcount⟩ | ⟨fd, rfl, -, hfd⟩
  · have hfiles := open_fails hopen
    apply h.of_fewer _ hcount hsent
    · rw [hfiles]
    · rw [hfiles]
    · rw [hfiles]
    · intro f i fd _ _
      rw [hfiles]
    · intro a fd ha
      rwa [hfd] at ha
  · cases hhome : home pathOutput s.files with
    | none => exact h.openFirst hpath hhome hsent hopen hfd
    | some f => exact h.openMore hpath hhome hidle hsent hopen hfd

theorem OneFile.move (h : OneFile pathOutput before s) {taken : ℕ}
    (hstep : moveStep opts libc s tid taken = some t) :
    OneFile pathOutput before t := by
  obtain ⟨fd, through, hlive, hfd, hcount, -, hcases⟩ := moveStep_eq_some hstep
  rcases hcases with ⟨hfiles, hsent, -⟩ |
    ⟨payload, rest, bytes, -, -, hshared, hwrite, hsent, -⟩
  · apply h.of_fewer _ hcount hsent
    · rw [hfiles]
    · rw [hfiles]
    · rw [hfiles]
    · intro f i fd _ _
      rw [hfiles]
    · intro a fd ha
      rwa [hfd] at ha
  · have hfds := Table.write_fds hwrite
    refine ⟨fun a b x ha hb => ?_, fun hnone => ?_, fun f hf => ?_⟩
    · rw [hfd] at ha hb
      exact h.distinct a b x ha hb
    · rw [home_congr hshared] at hnone
      rw [((h.unopened hnone).1 tid).1] at hlive
      cases hlive
    · rw [home_congr hshared] at hf
      obtain ⟨i, hi⟩ := h.opened f hf
      obtain ⟨table, htable, hend⟩ :=
        hi.atEnd.write (hi.fds_handler tid fd hlive) bytes
      obtain rfl : table = t.files.table :=
        Option.some.inj (htable.symm.trans hwrite)
      refine ⟨i, ?_, ?_, fun a x ha => ?_, fun a ha => ?_⟩
      · rw [hfds, hi.fds_home]
      · have htext : t.sentByAll = s.sentByAll ++ bytes := by
          rw [State.sentByAll, hsent, List.map_append, List.flatten_append,
            State.sentByAll, List.map_singleton, List.flatten_singleton]
        rw [htext, ← List.append_assoc]
        exact hend
      · rw [hfd] at ha
        rw [hfds, hi.fds_handler a x ha]
      · rw [hfd] at ha
        rw [hshared, hi.shared a ha]

theorem OneFile.deinit (h : OneFile pathOutput before s)
    (hstep : deinitStep s tid = some t) : OneFile pathOutput before t := by
  obtain ⟨fd, hlive, hfd, hcount, -, hsent, -, hshared, hcases⟩ :=
    deinitStep_eq_some hstep
  have hfewer : ∀ a x, t.fd a = some x → a ≠ tid ∧ s.fd a = some x := by
    intro a x ha
    rw [hfd] at ha
    exact eq_some_of_update_none ha
  rcases hcases with ⟨-, htable⟩ | ⟨hown, htable⟩
  · apply h.of_fewer (fun a x ha => (hfewer a x ha).2) hcount hsent hshared
    · rw [htable]
    · rw [htable]
    · intro f i x _ _
      rw [htable]
  · apply h.of_fewer (fun a x ha => (hfewer a x ha).2) hcount hsent hshared
    · rw [htable]
      rfl
    · rw [htable]
      rfl
    · intro f i x hi hx
      have hne : x ≠ fd := by
        rintro rfl
        rcases hx with rfl | ⟨a, ha⟩
        · exact hown (hi.shared tid hlive)
        · exact (hfewer a x ha).1
            (h.distinct a tid x (hfewer a x ha).2 hlive)
      rw [htable]
      exact Function.update_of_ne hne ..

theorem OneFile.step (hpath : ¬ lit "%d" <:+: pathOutput)
    (h : OneFile pathOutput before s) {action : Action}
    (hstep : step pathOutput opts libc s action = some t) :
    OneFile pathOutput before t := by
  cases action with
  | init tid answer => exact h.init hpath hstep
  | move tid taken => exact h.move hstep
  | deinit tid => exact h.deinit hstep
  | abandon tid =>
      obtain rfl := Option.some.inj hstep
      exact h.of_fewer (fun a x ha => (eq_some_of_update_none ha).2) rfl rfl
        rfl rfl rfl fun _ _ _ _ _ => rfl
  | acquire fd =>
      obtain ⟨table, htable, rfl⟩ := Option.map_eq_some_iff.mp hstep
      obtain ⟨hfree, hfds, hopened, hcontent⟩ := Table.assign_eq_some htable
      refine h.of_fewer (fun _ _ ha => ha) rfl rfl rfl hopened hcontent ?_
      intro f i x hi hx
      have hne : x ≠ fd := by
        rintro rfl
        rcases hx with rfl | ⟨a, ha⟩
        · exact (hi.ne_of_free hfree).1 rfl
        · exact (hi.ne_of_free hfree).2 a ha
      dsimp only
      rw [hfds, Function.update_of_ne hne]
  | release fd =>
      simp only [Output.step] at hstep
      split at hstep
      · next hother =>
          obtain rfl := Option.some.inj hstep
          refine h.of_fewer (fun _ _ ha => ha) rfl rfl rfl rfl rfl ?_
          intro f i x hi hx
          have hne : x ≠ fd := by
            rintro rfl
            rcases hx with rfl | ⟨a, ha⟩
            · rw [hi.fds_home] at hother
              cases hother
            · rw [hi.fds_handler a x ha] at hother
              cases hother
          exact Function.update_of_ne hne ..
      · cases hstep

theorem OneFile.start (pathOutput : Bytes) (before : FileName → Bytes)
    (udata : Handler → Udata) (traces : Handler → List Trace) :
    OneFile pathOutput before (State.start before udata traces) := by
  refine ⟨fun a b fd ha _ => ?_, fun _ => ⟨fun tid => ⟨rfl, rfl⟩, rfl⟩,
    fun f hf => ?_⟩
  · cases ha
  · by_cases hdash : pathOutput = lit "-"
    · rw [home, if_pos hdash] at hf
      obtain rfl := Option.some.inj hf
      refine ⟨0, rfl, ?_, fun a fd ha => ?_, fun a ha => ?_⟩
      · rw [outputName, if_pos hdash, startText, if_pos hdash]
        refine ⟨?_, ?_⟩
        · rw [State.sentByAll]
          simp [State.start]
        · rw [State.sentByAll]
          simp [State.start]
      · cases ha
      · cases ha
    · rw [home, if_neg hdash] at hf
      cases hf

end OneFile

/-! ## What the file holds -/

section Run

variable {pathOutput : Bytes} {before : FileName → Bytes} {opts : Options}
  {libc : Handler → Libc} {udata : Handler → Udata}
  {traces : Handler → List Trace} {s t : State}

/-- The handlers' moves are those of a schedule, and `sent` is their output as
long as no write has ended within a payload. -/
def Scheduled (opts : Options) (libc : Handler → Libc)
    (udata : Handler → Udata) (traces : Handler → List Trace) (s : State) :
    Prop :=
  (∃ schedule, s.threads = (System.initial udata traces : Threads Handler).run
    (launchTrace opts libc) schedule) ∧
      (s.torn = false → s.sent.map Prod.snd = s.threads.output)

theorem Scheduled.of_eq (h : Scheduled opts libc udata traces s)
    (hthreads : t.threads = s.threads) (hsent : t.sent = s.sent)
    (htorn : t.torn = s.torn) : Scheduled opts libc udata traces t := by
  rw [Scheduled, hthreads, hsent, htorn]
  exact h

theorem Scheduled.step (h : Scheduled opts libc udata traces s)
    {action : Action} (hstep : step pathOutput opts libc s action = some t) :
    Scheduled opts libc udata traces t := by
  cases action with
  | init tid answer =>
      obtain ⟨-, hthreads, hsent, htorn, -, -⟩ := initStep_eq_some hstep
      exact h.of_eq hthreads hsent htorn
  | move tid taken =>
      obtain ⟨fd, through, -, -, -, hthreads, hcases⟩ := moveStep_eq_some hstep
      obtain ⟨⟨schedule, hrun⟩, hsent⟩ := h
      refine ⟨⟨schedule ++ [(s.current tid, through)], ?_⟩, fun hwhole => ?_⟩
      · rw [System.run_append, ← hrun, hthreads]
        rfl
      · rw [hthreads, System.step_output]
        rcases hcases with ⟨-, hsame, htorn, hnil⟩ |
          ⟨payload, rest, bytes, hpending, hthrough, -, -, hmore, htorn⟩
        · rw [hsame, hsent (htorn.symm.trans hwhole)]
          cases through with
          | false => exact (List.append_nil _).symm
          | true =>
              have hpending : (s.threads.senders (s.current tid)).pending =
                  [] := hnil rfl
              rw [hpending, List.take_nil, ite_self, List.append_nil]
        · -- all of the payload is written, or it would be torn now
          rw [hwhole, eq_comm, Bool.or_eq_false_iff, decide_eq_false_iff_not,
            not_not] at htorn
          obtain ⟨hbefore, rfl⟩ := htorn
          have hpending : (s.threads.senders (s.current tid)).pending =
              bytes :: rest := hpending
          rw [hmore, List.map_append, hsent hbefore, hthrough,
            decide_eq_true rfl, hpending]
          rfl
  | deinit tid =>
      obtain ⟨fd, -, -, -, hthreads, hsent, htorn, -⟩ :=
        deinitStep_eq_some hstep
      exact h.of_eq hthreads hsent htorn
  | abandon tid =>
      obtain rfl := Option.some.inj hstep
      exact h
  | acquire fd =>
      obtain ⟨table, -, rfl⟩ := Option.map_eq_some_iff.mp hstep
      exact h
  | release fd =>
      simp only [Output.step] at hstep
      split at hstep
      · obtain rfl := Option.some.inj hstep
        exact h
      · cases hstep

/-- Any number of threads, each with one handler after the other, open, write
and close in any order, and the output is one file or the standard output.
Every handler has a descriptor of its own for that file as long as it lives.
Once a handler has opened it, and unless a write has ended within a payload, the
script counts exactly the stacks of the traces whose payloads were all written,
whichever handlers wrote them. -/
theorem run_counts_one_file (pathOutput : Bytes)
    (hpath : ¬ lit "%d" <:+: pathOutput) (before : FileName → Bytes)
    (hbefore : pathOutput = lit "-" → before none = []) (enc : Encode)
    (hmode : opts.singleLine = false) (hb : 1 ≤ opts.foutBufferSize)
    (hlibc : ∀ h, (libc h).Reliable)
    (hinit : ∀ h, Fout.init opts (libc h) = some (udata h))
    (hplain : ∀ h, ∀ tr ∈ traces h, ∀ e ∈ tr.events, PlainEvent e)
    (actions : List Action)
    (hrun : Transition.run (step pathOutput opts libc)
      (State.start before udata traces) actions = some s) :
    (∀ a b fd, s.fd a = some fd → s.fd b = some fd → a = b) ∧
      (∀ tid fd, s.fd tid = some fd → ∃ i f,
        s.files.table.fds fd = some (.file i) ∧
          s.files.table.opened[i]? = some f ∧
            f.name = outputName pathOutput) ∧
      ((∃ tid, 0 < s.count tid) → s.torn = false →
        s.threads.drawn ≤ 2 ^ 64 → Counts
          (collapse enc (s.files.table.content (outputName pathOutput)))
          s.threads.complete) := by
  have hone : OneFile pathOutput before s :=
    Transition.run_invariant (fun _ _ _ h hstep => h.step hpath hstep)
      (OneFile.start pathOutput before udata traces) hrun
  obtain ⟨⟨schedule, hthreads⟩, hsent⟩ : Scheduled opts libc udata traces s :=
    Transition.run_invariant (fun _ _ _ h hstep => Scheduled.step h hstep)
      ⟨⟨[], rfl⟩, fun _ => rfl⟩ hrun
  refine ⟨hone.distinct, fun tid fd hlive => ?_,
    fun hopened hwhole hdrawn => ?_⟩
  · cases hhome : home pathOutput s.files with
    | none =>
        rw [((hone.unopened hhome).1 tid).1] at hlive
        cases hlive
    | some f =>
        obtain ⟨i, hi⟩ := hone.opened f hhome
        exact ⟨i, _, hi.fds_handler tid fd hlive, hi.atEnd.opened, rfl⟩
  · obtain ⟨tid, htid⟩ := hopened
    cases hhome : home pathOutput s.files with
    | none => exact absurd ((hone.unopened hhome).1 tid).2 htid.ne'
    | some f =>
        obtain ⟨i, hi⟩ := hone.opened f hhome
        have hnothing : startText pathOutput before = [] := by
          unfold startText
          split
          · next hdash => exact hbefore hdash
          · rfl
        obtain ⟨hsame, hcomplete, hcounts⟩ :=
          collapse_run enc hmode hb hlibc hinit hplain schedule
        rw [← hthreads] at hsame hcomplete hcounts
        rw [hsame] at hdrawn
        have hout := receive_run (by decide) _ schedule hdrawn
        rw [hi.atEnd.content, hnothing, List.nil_append, State.sentByAll,
          hsent hwhole, hcomplete, ← hout]
        exact hcounts

end Run

/-- Thread 7 opens the file and thread 8 gets a duplicate.  Thread 8 loses the
end of its first trace and closes its descriptor, which then becomes a pipe.
Thread 7 ends as well, and another handler of thread 8 goes on. -/
def twoThreads : List Action :=
  [.init 7 (some 3), .init 8 (some 4), .move 7 99, .move 8 99,
    .move 8 99, .move 7 99, .move 8 0, .deinit 8, .acquire 4,
    .move 7 99, .deinit 7, .init 8 (some 5), .move 8 99, .move 8 99,
    .move 8 99]

theorem run_counts_one_file_two_threads :
    ∃ u s, Fout.init wrapOptions workingLibc = some u ∧
      Transition.run (step (lit "out") wrapOptions fun _ => workingLibc)
        (State.start (fun _ => lit "old") (fun _ => u) fun _ => [wrapTrace])
          twoThreads = some s ∧
      s.fd 7 = none ∧ s.fd 8 = some 5 ∧ s.count 8 = 2 ∧
      Counts (collapse latin1 (s.files.table.content (some (lit "out"))))
        [[lit "f", lit "g"], [lit "f", lit "g"]] := by
  obtain ⟨u, hinit⟩ : ∃ u, Fout.init wrapOptions workingLibc = some u :=
    ⟨_, rfl⟩
  have hend : (Transition.run
      (step (lit "out") wrapOptions fun _ => workingLibc)
        (State.start (fun _ => lit "old") (fun _ => u) fun _ => [wrapTrace])
          twoThreads).any (fun s => s.fd 7 == none && s.fd 8 == some 5 &&
            s.count 8 == 2 && s.torn == false && s.threads.drawn == 3 &&
              s.threads.complete ==
              [[lit "f", lit "g"], [lit "f", lit "g"]]) = true := by
    obtain rfl := Option.some.inj hinit
    decide +kernel
  obtain ⟨s, hrun, hs⟩ := (Option.any_eq_true _ _).mp hend
  simp only [Bool.and_eq_true, beq_iff_eq] at hs
  obtain ⟨⟨⟨⟨⟨hseven, height⟩, hcount⟩, hwhole⟩, hdrawn⟩, hcomplete⟩ := hs
  refine ⟨u, s, hinit, hrun, hseven, height, hcount, ?_⟩
  have hplain : ∀ tr ∈ [wrapTrace], ∀ e ∈ tr.events, PlainEvent e := by
    intro tr htr
    rw [List.mem_singleton.mp htr]
    exact wrapTrace_plain
  have hcounts := (run_counts_one_file (lit "out") (by decide)
    (fun _ => lit "old") (by decide) latin1 rfl (by decide)
    (fun _ => workingLibc_reliable) (fun _ => hinit) (fun _ => hplain)
    twoThreads hrun).2.2 ⟨8, by rw [hcount]; decide⟩
    hwhole (by rw [hdrawn]; decide)
  rw [hcomplete] at hcounts
  exact hcounts

end Output
end Phpspy

import Phpspy.Fout.Traces
import Phpspy.Support.FileTable
import Phpspy.Support.Transition

/-!
# Opening and closing the output

Every worker thread runs `main_pid` for one process after the other, and every
run opens the output and closes it again.  Unless the path has a `%d` all
handlers share one open file through `event_handler_fout_shared_fd`.  This
module has the steps of any number of threads.
-/

namespace Phpspy
namespace Output

open ByteText FileTable Fout Interleaving

/-- `asprintf` with one argument, which is `none` once it has been used.
`percent` holds after the `%` of a conversion.  There is no result where the
behaviour is undefined. -/
def asprintf : Bool → Option ℕ → Bytes → Option Bytes
  | false, _, [] => some []
  | true, _, [] => none
  | false, arg, c :: rest =>
      if c = 37 then asprintf true arg rest
      else (asprintf false arg rest).map fun text => c :: text
  | true, arg, c :: rest =>
      if c = 37 then (asprintf false arg rest).map fun text => 37 :: text
      else if c = 100 then
        arg.bind fun n =>
          (asprintf false none rest).map fun text => decimal n ++ text
      else none

/-- The format has a `%d`, as opposed to a `d` after `%%`. -/
def converts : Bool → Bytes → Bool
  | _, [] => false
  | false, c :: rest =>
      if c = 37 then converts true rest else converts false rest
  | true, c :: rest => c = 100 || converts false rest

theorem asprintf_injective {percent : Bool} {fmt text : Bytes}
    (hconv : converts percent fmt = true) {m n : ℕ}
    (hm : asprintf percent (some m) fmt = some text)
    (hn : asprintf percent (some n) fmt = some text) : m = n := by
  induction fmt generalizing percent text with
  | nil => cases percent <;> cases hconv
  | cons c rest ih =>
      cases percent with
      | false =>
          simp only [asprintf, converts] at hconv hm hn
          by_cases hc : c = 37
          · rw [if_pos hc] at hconv hm hn
            exact ih hconv hm hn
          · rw [if_neg hc] at hconv hm hn
            obtain ⟨a, ha, rfl⟩ := Option.map_eq_some_iff.mp hm
            obtain ⟨b, hb, hab⟩ := Option.map_eq_some_iff.mp hn
            rw [(List.cons.inj hab).2] at hb
            exact ih hconv ha hb
      | true =>
          simp only [asprintf, converts] at hconv hm hn
          by_cases hc : c = 37
          · subst hc
            rw [if_pos rfl] at hm hn
            obtain ⟨a, ha, rfl⟩ := Option.map_eq_some_iff.mp hm
            obtain ⟨b, hb, hab⟩ := Option.map_eq_some_iff.mp hn
            rw [(List.cons.inj hab).2] at hb
            exact ih hconv ha hb
          · rw [if_neg hc] at hm hn
            by_cases hd : c = 100
            · rw [if_pos hd, Option.bind_some] at hm hn
              obtain ⟨a, ha, rfl⟩ := Option.map_eq_some_iff.mp hm
              obtain ⟨b, hb, hab⟩ := Option.map_eq_some_iff.mp hn
              obtain rfl : a = b := Option.some.inj (ha.symm.trans hb)
              exact decimal_injective (List.append_cancel_right hab).symm
            · rw [if_neg hd] at hm
              cases hm

/-- A path, or `none` for what was the standard output from the start. -/
abbrev FileName := Option Bytes

/-- The open files, and `event_handler_fout_shared_fd`, with `none` for -1. -/
structure Files where
  table : Table FileName UInt8
  sharedFd : Option ℕ

/-- `event_handler_fout_open`, which runs under the mutex.  `answer` is the
descriptor that `open` or `dup` returns, or `none` if that or the allocation of
the path fails.  The system never hands out a descriptor that is in use. -/
def eventHandlerFoutOpen (pathOutput : Bytes) (tid : ℕ) (answer : Option ℕ)
    (s : Files) : Option Files :=
  if lit "%d" <:+: pathOutput then
    (asprintf false (some tid) pathOutput).bind fun apath =>
      match answer with
      | none => some s
      | some fd =>
          (s.table.openTrunc (some apath) fd).map fun table =>
            { s with table := table }
  else
    match answer with
    | none => some s
    | some fd =>
        if pathOutput = lit "-" then
          (s.table.dup 1 fd).map fun table => { s with table := table }
        else
          match s.sharedFd with
          | none =>
              (s.table.openTrunc (some pathOutput) fd).map fun table =>
                { table := table, sharedFd := some fd }
          | some shared =>
              (s.table.dup shared fd).map fun table =>
                { s with table := table }

/-- The `n`-th handler of a thread. -/
abbrev Handler := ℕ × ℕ

/-- The threads of the pgrep mode: the descriptor of the handler that a thread
has at the moment, how many handlers it has had, and what the handlers do with
their traces.  `sent` is what has been written, and by which handler, and `torn`
holds once a write has ended within a payload. -/
structure State where
  files : Files
  fd : ℕ → Option ℕ
  count : ℕ → ℕ
  threads : Threads Handler
  sent : List (Handler × Bytes)
  torn : Bool

namespace State

def current (s : State) (tid : ℕ) : Handler :=
  (tid, s.count tid)

/-- The payloads that are still to be written for the trace of a thread. -/
def pending (s : State) (tid : ℕ) : List Bytes :=
  (s.threads.senders (s.current tid)).pending

def sentBy (s : State) (h : Handler) : Bytes :=
  ((s.sent.filter fun p => p.1 = h).map Prod.snd).flatten

def sentByAll (s : State) : Bytes :=
  (s.sent.map Prod.snd).flatten

/-- At the start descriptor 1 is the standard output.  Its position is its
end. -/
def start (before : FileName → Bytes) (udata : Handler → Udata)
    (traces : Handler → List Trace) : State :=
  { files :=
      { table :=
          { fds := fun fd =>
              if fd = 1 then some (.file 0)
              else if fd ≤ 2 then some .other else none
            opened := [{ name := none, pos := (before none).length }]
            content := before }
        sharedFd := none }
    fd := fun _ => none
    count := fun _ => 0
    threads := System.initial udata traces
    sent := []
    torn := false }

end State

inductive Action where
  /-- `PHPSPY_TRACE_EVENT_INIT` -/
  | init (tid : ℕ) (answer : Option ℕ)
  /-- The handler takes a trace, or writes the next payload of one, of which
  `writev` takes so many bytes. -/
  | move (tid : ℕ) (taken : ℕ)
  /-- `PHPSPY_TRACE_EVENT_DEINIT` -/
  | deinit (tid : ℕ)
  /-- `main_pid` returns in front of its loop. -/
  | abandon (tid : ℕ)
  /-- The rest of the program gets a descriptor, for a pipe for instance. -/
  | acquire (fd : ℕ)
  | release (fd : ℕ)

section Step

variable (pathOutput : Bytes) (opts : Options) (libc : Handler → Libc)

/-- A descriptor that is opened while the buffer cannot be allocated stays
open without a handler. -/
def initStep (s : State) (tid : ℕ) (answer : Option ℕ) : Option State :=
  if (s.fd tid).isNone then
    (eventHandlerFoutOpen pathOutput tid answer s.files).map fun files =>
      match answer with
      | none => { s with files := files }
      | some fd =>
          { s with
            files := files
            count := Function.update s.count tid (s.count tid + 1)
            fd :=
              if (init opts (libc (tid, s.count tid + 1))).isSome
              then Function.update s.fd tid (some fd) else s.fd }
  else none

/-- A payload that `event_handler_fout_writev` does not write as a whole is
lost, but the part that is written stays in the file. -/
def moveStep (s : State) (tid : ℕ) (taken : ℕ) : Option State :=
  (s.fd tid).map fun fd =>
    let move (through : Bool) :=
      s.threads.step (launchTrace opts libc) (s.current tid, through)
    match s.pending tid with
    | [] => { s with threads := move true }
    | payload :: _ =>
        let bytes := payload.take taken
        match (if bytes = [] then none else s.files.table.write 0 fd bytes) with
        | none => { s with threads := move false }
        | some table =>
            { s with
              files := { s.files with table := table }
              threads := move (bytes = payload)
              sent := s.sent ++ [(s.current tid, bytes)]
              torn := s.torn || decide (bytes ≠ payload) }

def deinitStep (s : State) (tid : ℕ) : Option State :=
  if s.pending tid = [] then
    (s.fd tid).map fun fd =>
      { s with
        files :=
          if s.files.sharedFd = some fd then s.files
          else { s.files with table := s.files.table.close fd }
        fd := Function.update s.fd tid none }
  else none

def step (s : State) : Action → Option State
  | .init tid answer => initStep pathOutput opts libc s tid answer
  | .move tid taken => moveStep opts libc s tid taken
  | .deinit tid => deinitStep s tid
  | .abandon tid => some { s with fd := Function.update s.fd tid none }
  | .acquire fd =>
      (s.files.table.assign fd (some .other)).map fun table =>
        { s with files := { s.files with table := table } }
  | .release fd =>
      match s.files.table.fds fd with
      | some .other =>
          some { s with
            files := { s.files with table := s.files.table.close fd } }
      | _ => none

end Step

/-! ## What opening does -/

/-- The descriptor behind all handlers of a path without `%d`, if there is one
already. -/
def home (pathOutput : Bytes) (s : Files) : Option ℕ :=
  if pathOutput = lit "-" then some 1 else s.sharedFd

section Open

variable {pathOutput : Bytes} {tid fd : ℕ} {s t : Files}

theorem open_fails (h : eventHandlerFoutOpen pathOutput tid none s = some t) :
    t = s := by
  unfold eventHandlerFoutOpen at h
  split at h
  · obtain ⟨apath, -, h⟩ := Option.bind_eq_some_iff.mp h
    exact (Option.some.inj h).symm
  · exact (Option.some.inj h).symm

theorem open_of_home_eq_none (hpath : ¬ lit "%d" <:+: pathOutput)
    (hhome : home pathOutput s = none)
    (h : eventHandlerFoutOpen pathOutput tid (some fd) s = some t) :
    pathOutput ≠ lit "-" ∧ t.sharedFd = some fd ∧
      s.table.openTrunc (some pathOutput) fd = some t.table := by
  have hfile : pathOutput ≠ lit "-" := by
    intro hdash
    rw [home, if_pos hdash] at hhome
    cases hhome
  rw [home, if_neg hfile] at hhome
  simp only [eventHandlerFoutOpen, if_neg hpath, if_neg hfile, hhome] at h
  obtain ⟨table, htable, rfl⟩ := Option.map_eq_some_iff.mp h
  exact ⟨hfile, rfl, htable⟩

theorem open_of_home_eq_some (hpath : ¬ lit "%d" <:+: pathOutput) {f : ℕ}
    (hhome : home pathOutput s = some f)
    (h : eventHandlerFoutOpen pathOutput tid (some fd) s = some t) :
    t.sharedFd = s.sharedFd ∧ s.table.dup f fd = some t.table := by
  unfold home at hhome
  simp only [eventHandlerFoutOpen, if_neg hpath] at h
  split at hhome
  · next hdash =>
      obtain rfl := Option.some.inj hhome
      rw [if_pos hdash] at h
      obtain ⟨table, htable, rfl⟩ := Option.map_eq_some_iff.mp h
      exact ⟨rfl, htable⟩
  · next hfile =>
      simp only [if_neg hfile, hhome] at h
      obtain ⟨table, htable, rfl⟩ := Option.map_eq_some_iff.mp h
      exact ⟨hhome.symm, htable⟩

theorem open_of_format (hpath : lit "%d" <:+: pathOutput)
    (h : eventHandlerFoutOpen pathOutput tid (some fd) s = some t) :
    ∃ apath, asprintf false (some tid) pathOutput = some apath ∧
      t.sharedFd = s.sharedFd ∧
      s.table.openTrunc (some apath) fd = some t.table := by
  simp only [eventHandlerFoutOpen, if_pos hpath] at h
  obtain ⟨apath, hapath, h⟩ := Option.bind_eq_some_iff.mp h
  obtain ⟨table, htable, rfl⟩ := Option.map_eq_some_iff.mp h
  exact ⟨apath, hapath, rfl, htable⟩

end Open

/-! ## What a step does -/

theorem eq_some_of_update_none {fds : ℕ → Option ℕ} {tid a x : ℕ}
    (h : Function.update fds tid none a = some x) :
    a ≠ tid ∧ fds a = some x := by
  by_cases ha : a = tid
  · rw [ha, Function.update_self] at h
    cases h
  · rw [Function.update_of_ne ha] at h
    exact ⟨ha, h⟩

theorem fd_of_opened {s t : State} {tid fd : ℕ} (hidle : s.fd tid = none)
    (hunused : ∀ a, s.fd a ≠ some fd)
    (hfd : t.fd = s.fd ∨ t.fd = Function.update s.fd tid (some fd)) {a x : ℕ}
    (ha : t.fd a = some x) :
    a = tid ∧ x = fd ∨ a ≠ tid ∧ x ≠ fd ∧ s.fd a = some x := by
  have hold : s.fd a = some x → a ≠ tid ∧ x ≠ fd ∧ s.fd a = some x := by
    intro ha
    refine ⟨?_, ?_, ha⟩
    · rintro rfl
      rw [hidle] at ha
      cases ha
    · rintro rfl
      exact hunused a ha
  rcases hfd with hfd | hfd
  · rw [hfd] at ha
    exact Or.inr (hold ha)
  · rw [hfd] at ha
    by_cases heq : a = tid
    · rw [heq, Function.update_self] at ha
      exact Or.inl ⟨heq, (Option.some.inj ha).symm⟩
    · rw [Function.update_of_ne heq] at ha
      exact Or.inr (hold ha)

theorem fd_distinct_of_opened {s t : State} {tid fd : ℕ}
    (hdistinct : ∀ a b x, s.fd a = some x → s.fd b = some x → a = b)
    (hidle : s.fd tid = none) (hunused : ∀ a, s.fd a ≠ some fd)
    (hfd : t.fd = s.fd ∨ t.fd = Function.update s.fd tid (some fd))
    (a b x : ℕ) (ha : t.fd a = some x) (hb : t.fd b = some x) : a = b := by
  rcases fd_of_opened hidle hunused hfd ha with ⟨ha, hx⟩ | ⟨-, hx, ha⟩
  · rcases fd_of_opened hidle hunused hfd hb with ⟨hb, -⟩ | ⟨-, hx', -⟩
    · exact ha.trans hb.symm
    · exact absurd hx hx'
  · rcases fd_of_opened hidle hunused hfd hb with ⟨-, hx'⟩ | ⟨-, -, hb⟩
    · exact absurd hx' hx
    · exact hdistinct a b x ha hb

section Effects

variable {pathOutput : Bytes} {opts : Options} {libc : Handler → Libc}
  {s t : State} {tid : ℕ}

theorem initStep_eq_some {answer : Option ℕ}
    (h : initStep pathOutput opts libc s tid answer = some t) :
    s.fd tid = none ∧ t.threads = s.threads ∧ t.sent = s.sent ∧
      t.torn = s.torn ∧
      eventHandlerFoutOpen pathOutput tid answer s.files = some t.files ∧
      (answer = none ∧ t.fd = s.fd ∧ t.count = s.count ∨
        ∃ fd, answer = some fd ∧
          t.count = Function.update s.count tid (s.count tid + 1) ∧
          (t.fd = s.fd ∨ t.fd = Function.update s.fd tid (some fd))) := by
  unfold initStep at h
  split at h
  · next hnone =>
      obtain ⟨files, hfiles, ht⟩ := Option.map_eq_some_iff.mp h
      refine ⟨Option.isNone_iff_eq_none.mp hnone, ?_⟩
      cases answer with
      | none =>
          subst ht
          exact ⟨rfl, rfl, rfl, hfiles, Or.inl ⟨rfl, rfl, rfl⟩⟩
      | some fd =>
          subst ht
          refine ⟨rfl, rfl, rfl, hfiles, Or.inr ⟨fd, rfl, rfl, ?_⟩⟩
          dsimp only
          split
          · exact Or.inr rfl
          · exact Or.inl rfl
  · cases h

/-- A move leaves the table alone, or it writes the next payload or a part of
it. -/
theorem moveStep_eq_some {taken : ℕ}
    (h : moveStep opts libc s tid taken = some t) :
    ∃ fd through, s.fd tid = some fd ∧ t.fd = s.fd ∧ t.count = s.count ∧
      t.threads = s.threads.step (launchTrace opts libc)
        (s.current tid, through) ∧
      (t.files = s.files ∧ t.sent = s.sent ∧ t.torn = s.torn ∧
          (through = true → s.pending tid = []) ∨
        ∃ payload rest bytes, s.pending tid = payload :: rest ∧
          through = decide (bytes = payload) ∧
          t.files.sharedFd = s.files.sharedFd ∧
          s.files.table.write 0 fd bytes = some t.files.table ∧
          t.sent = s.sent ++ [(s.current tid, bytes)] ∧
          t.torn = (s.torn || decide (bytes ≠ payload))) := by
  obtain ⟨fd, hfd, ht⟩ := Option.map_eq_some_iff.mp h
  refine ⟨fd, ?_⟩
  dsimp only at ht
  split at ht
  · next hnil =>
      subst ht
      exact ⟨true, hfd, rfl, rfl, rfl, Or.inl ⟨rfl, rfl, rfl, fun _ => hnil⟩⟩
  · next payload rest hpending =>
      split at ht
      · subst ht
        refine ⟨false, hfd, rfl, rfl, rfl, Or.inl ⟨rfl, rfl, rfl, ?_⟩⟩
        intro hfalse
        cases hfalse
      · next table htable =>
          subst ht
          have hwrite : s.files.table.write 0 fd (payload.take taken) =
              some table := by
            split at htable
            · cases htable
            · exact htable
          exact ⟨_, hfd, rfl, rfl, rfl, Or.inr
            ⟨payload, rest, _, hpending, rfl, rfl, hwrite, rfl, rfl⟩⟩

theorem deinitStep_eq_some (h : deinitStep s tid = some t) :
    ∃ fd, s.fd tid = some fd ∧ t.fd = Function.update s.fd tid none ∧
      t.count = s.count ∧ t.threads = s.threads ∧ t.sent = s.sent ∧
      t.torn = s.torn ∧ t.files.sharedFd = s.files.sharedFd ∧
      (s.files.sharedFd = some fd ∧ t.files.table = s.files.table ∨
        s.files.sharedFd ≠ some fd ∧
          t.files.table = s.files.table.close fd) := by
  unfold deinitStep at h
  split at h
  · obtain ⟨fd, hfd, rfl⟩ := Option.map_eq_some_iff.mp h
    refine ⟨fd, hfd, rfl, rfl, rfl, rfl, rfl, ?_⟩
    dsimp only
    split
    · next hshared => exact ⟨rfl, Or.inl ⟨hshared, rfl⟩⟩
    · next hown => exact ⟨rfl, Or.inr ⟨hown, rfl⟩⟩
  · cases h

end Effects

end Output
end Phpspy

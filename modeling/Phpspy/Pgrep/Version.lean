import Phpspy.Pgrep.WorkQueue

/-!
# Which tracer is called

`opt_phpv` and `do_trace_ptr` are shared by all workers.  The first detection
replaces `auto`, so no later process is looked at.  The tracer is right for all
processes only if they all have the same version.
-/

namespace Phpspy

namespace Pgrep

open Transition

variable {T : ℕ}

/-- `pgrep` finds only processes of one version. -/
def findsVersion (cfg : Config) (v : PhpVersion) (_ : State T) :
    Action T → Bool
  | .producer (.pid pid) => cfg.version pid = v
  | _ => true

/-- The places of a worker at which it has set `do_trace_ptr`. -/
def WorkerPc.selected : WorkerPc → Bool
  | .loop => true
  | .trace => true
  | .count => true
  | .check => true
  | _ => false

/-- The places of a worker at which it compares `opt_phpv`. -/
def WorkerPc.selecting : WorkerPc → Bool
  | .select _ => true
  | _ => false

/-- All processes and all shared variables agree on one version. -/
structure Uniform (cfg : Config) (v : PhpVersion) (s : State T) : Prop where
  pending : ∀ i : ℕ, (i : ℤ) < s.queue.availPidsCount →
    cfg.version (s.queue.availPids i) = v
  pids : ∀ w, (s.workers w).pc.attached = true →
    cfg.version (s.workers w).pid = v
  optPhpv : s.optPhpv = none ∨ s.optPhpv = some v
  selecting : ∀ w, (s.workers w).pc.selecting = true → s.optPhpv = some v
  selected : ∀ w, (s.workers w).pc.selected = true → s.doTracePtr = some v
  traced : ∀ call ∈ s.traced, call.2 = some (cfg.version call.1)

theorem Uniform.initial (cfg : Config) (v : PhpVersion) :
    Uniform cfg v (initial : State T) where
  pending := fun i hi => absurd hi (Int.not_lt.mpr (Int.natCast_nonneg i))
  pids := fun w h => by cases h
  optPhpv := Or.inl rfl
  selecting := fun w h => by cases h
  selected := fun w h => by cases h
  traced := fun call h => absurd h List.not_mem_nil

/-! ## Moves of a worker -/

theorem Uniform.move {cfg : Config} {v : PhpVersion} {s t : State T}
    (h : Uniform cfg v s) (w : Fin T) (pc : WorkerPc)
    (hworkers : t.workers = (s.setPc w pc).workers)
    (hpids : t.queue.availPids = s.queue.availPids)
    (hcount : t.queue.availPidsCount = s.queue.availPidsCount)
    (hphpv : t.optPhpv = s.optPhpv ∨ t.optPhpv = some v)
    (hptr : t.doTracePtr = s.doTracePtr ∨ t.doTracePtr = some v)
    (htraced : ∀ call ∈ t.traced, call ∈ s.traced ∨
      call.2 = some (cfg.version call.1))
    (hattached : pc.attached = true → (s.workers w).pc.attached = true)
    (hselecting : pc.selecting = true → t.optPhpv = some v)
    (hselected : pc.selected = true → t.doTracePtr = some v) :
    Uniform cfg v t where
  pending := by
    rw [hpids, hcount]
    exact h.pending
  pids := by
    intro w' hw'
    rw [hworkers, State.setPc_pc] at hw'
    rw [hworkers, State.setPc_pid]
    split at hw'
    · rw [‹w' = w›]
      exact h.pids w (hattached hw')
    · exact h.pids w' hw'
  optPhpv := by
    rcases hphpv with heq | heq
    · rw [heq]
      exact h.optPhpv
    · exact Or.inr heq
  selecting := by
    intro w' hw'
    rw [hworkers, State.setPc_pc] at hw'
    split at hw'
    · exact hselecting hw'
    · rcases hphpv with heq | heq
      · exact heq.trans (h.selecting w' hw')
      · exact heq
  selected := by
    intro w' hw'
    rw [hworkers, State.setPc_pc] at hw'
    split at hw'
    · exact hselected hw'
    · rcases hptr with heq | heq
      · exact heq.trans (h.selected w' hw')
      · exact heq
  traced := by
    intro call hcall
    rcases htraced call hcall with hold | hnew
    · exact h.traced call hold
    · exact hnew

theorem Uniform.setPc {cfg : Config} {v : PhpVersion} {s t : State T}
    (h : Uniform cfg v s) (w : Fin T) (pc : WorkerPc)
    (hworkers : t.workers = (s.setPc w pc).workers)
    (hpids : t.queue.availPids = s.queue.availPids)
    (hcount : t.queue.availPidsCount = s.queue.availPidsCount)
    (hvars : (t.optPhpv, t.doTracePtr, t.traced) =
      (s.optPhpv, s.doTracePtr, s.traced))
    (hattached : pc.attached = true → (s.workers w).pc.attached = true)
    (hselecting : pc.selecting = true → s.optPhpv = some v)
    (hselected : pc.selected = true → s.doTracePtr = some v) :
    Uniform cfg v t := by
  simp only [Prod.mk.injEq] at hvars
  obtain ⟨hphpv, hptr, htraced⟩ := hvars
  refine h.move w pc hworkers hpids hcount (Or.inl hphpv) (Or.inl hptr) ?_
    hattached ?_ ?_
  · rw [htraced]
    exact fun _ => Or.inl
  · rw [hphpv]
    exact hselecting
  · rw [hptr]
    exact hselected

theorem Goes.selecting {cfg : Config} {s : State T} {pc pc' : WorkerPc}
    (h : Goes cfg s pc pc') (hpc' : pc'.selecting = true) :
    s.optPhpv ≠ none ∨ pc.selecting = true := by
  cases h with
  | known hphpv => exact Or.inl hphpv
  | differs hne => exact Or.inr rfl
  | _ => cases hpc'

theorem Goes.selected {cfg : Config} {s : State T} {pc pc' : WorkerPc}
    (h : Goes cfg s pc pc') (hpc' : pc'.selected = true) :
    pc.selected = true := by
  cases h with
  | again hdone => rfl
  | below hbelow => rfl
  | _ => cases hpc'

theorem Uniform.take {cfg : Config} {v : PhpVersion} {s : State T}
    (h : Uniform cfg v s) (hs : Consistent s) {w : Fin T}
    (hpc : (s.workers w).pc = .take) :
    Uniform cfg v
      { s with
        queue := s.queue.take w
        mutex := none
        workers := Function.update s.workers w
          { pc := .start
            pid := (s.queue.take w).attachedPids w } } := by
  have hcount := hs.mayTake w hpc
  obtain ⟨n, hn⟩ := Int.eq_ofNat_of_zero_le (Int.le_sub_one_of_lt hcount)
  refine ⟨fun i hi => ?_, fun w' hw' => ?_, h.optPhpv, fun w' hw' => ?_,
    fun w' hw' => ?_, h.traced⟩
  · exact h.pending i (hi.trans (Int.sub_one_lt_of_le le_rfl))
  · simp only [Function.update_apply, Queue.take] at hw' ⊢
    split
    · simp only [hn, if_true]
      exact h.pending n (by omega)
    · rw [if_neg ‹_›] at hw'
      exact h.pids w' hw'
  · simp only [Function.update_apply] at hw'
    split at hw'
    · cases hw'
    · exact h.selecting w' hw'
  · simp only [Function.update_apply] at hw'
    split at hw'
    · cases hw'
    · exact h.selected w' hw'

theorem WorkerMove.uniform {cfg : Config} {v : PhpVersion} {s t : State T}
    {w : Fin T} (hmove : WorkerMove cfg s w t) (hs : Consistent s)
    (h : Uniform cfg v s) : Uniform cfg v t := by
  cases hmove with
  | @goto pc hgoes =>
      refine h.setPc w pc rfl rfl rfl rfl hgoes.attached (fun hpc => ?_)
        fun hpc => h.selected w (hgoes.selected hpc)
      rcases hgoes.selecting hpc with hne | hpc
      · exact h.optPhpv.resolve_left hne
      · exact h.selecting w hpc
  | acquire hpc hfree =>
      exact h.setPc w .turn rfl rfl rfl rfl nofun nofun nofun
  | @release pc hpc =>
      rcases hpc with ⟨-, rfl⟩ | ⟨-, rfl⟩
      · exact h.setPc w .wait rfl rfl rfl rfl nofun nofun nofun
      · exact h.setPc w .exited rfl rfl rfl rfl nofun nofun nofun
  | take hpc => exact h.take hs hpc
  | detect hpc =>
      have hattached : (s.workers w).pc.attached = true := by
        rw [hpc]
        rfl
      have hv := congrArg some (h.pids w hattached)
      exact h.move w (.select PhpVersion.all) rfl rfl rfl (Or.inr hv)
        (Or.inl rfl) (fun _ => Or.inl) (fun _ => hattached) (fun _ => hv)
        nofun
  | @select v' rest hpc hphpv =>
      have hattached : (s.workers w).pc.attached = true := by
        rw [hpc]
        rfl
      have hv : some v' = some v :=
        hphpv.symm.trans (h.selecting w (by rw [hpc]; rfl))
      exact h.move w .loop rfl rfl rfl (Or.inl rfl) (Or.inr hv)
        (fun _ => Or.inl) (fun _ => hattached) nofun fun _ => hv
  | @trace outcome hpc =>
      have hattached : (s.workers w).pc.attached = true := by
        rw [hpc]
        rfl
      have hptr := h.selected w (by rw [hpc]; rfl)
      refine h.move w (afterTrace cfg outcome) rfl rfl rfl (Or.inl rfl)
        (Or.inl rfl) (fun call hcall => ?_) (fun _ => hattached)
        (fun hselecting => ?_) fun _ => hptr
      · rcases List.mem_cons.mp hcall with rfl | hold
        · exact Or.inr (hptr.trans (congrArg some (h.pids w hattached).symm))
        · exact Or.inl hold
      · unfold afterTrace at hselecting
        split at hselecting
        · cases hselecting
        · cases hselecting
        · split at hselecting
          · cases hselecting
          · cases hselecting
  | count hpc =>
      exact h.setPc w .check rfl rfl rfl rfl (fun _ => by rw [hpc]; rfl)
        nofun fun _ => h.selected w (by rw [hpc]; rfl)
  | leave hpc =>
      exact h.setPc w .clear rfl rfl rfl rfl (fun _ => by rw [hpc]; rfl)
        nofun nofun
  | clear hpc => exact h.setPc w .top rfl rfl rfl rfl nofun nofun nofun

/-! ## Runs -/

theorem ProducerMove.uniform {cfg : Config} {v : PhpVersion}
    {s t : State T} {line : Line} (hmove : ProducerMove s line t)
    (hversion : ∀ pid, line = .pid pid → cfg.version pid = v)
    (h : Uniform cfg v s) : Uniform cfg v t := by
  cases hmove with
  | insert hpc hline hpid hroom hfresh =>
      refine ⟨fun i hi => ?_, h.pids, h.optPhpv, h.selecting, h.selected,
        h.traced⟩
      simp only [Queue.insert, Function.update_apply] at hi ⊢
      split
      · exact hversion _ hline
      · exact h.pending i (by omega)
  | _ =>
      exact ⟨h.pending, h.pids, h.optPhpv, h.selecting, h.selected,
        h.traced⟩

theorem step_uniform (cfg : Config) (v : PhpVersion) (s : State T)
    (a : Action T) (t : State T) (h : Consistent s ∧ Uniform cfg v s)
    (hstep : restrict (step cfg) (findsVersion cfg v) s a = some t) :
    Consistent t ∧ Uniform cfg v t := by
  obtain ⟨hfinds, hstep⟩ := restrict_eq_some hstep
  refine ⟨step_consistent cfg s a t h.1 hstep, ?_⟩
  cases step_move hstep with
  | worker hmove => exact hmove.uniform h.1 h.2
  | @producer line _ hmove =>
      refine hmove.uniform (fun pid hline => ?_) h.2
      rw [hline] at hfinds
      exact of_decide_eq_true hfinds
  | signaler hdone =>
      exact ⟨h.2.pending, h.2.pids, h.2.optPhpv, h.2.selecting, h.2.selected,
        h.2.traced⟩

/-- In every run in which `pgrep` finds only processes of one version, every
call of a tracer is a call of the tracer for the version of its process. -/
theorem run_traced_version (cfg : Config) (v : PhpVersion)
    (actions : List (Action T)) (s : State T)
    (hrun : run (restrict (step cfg) (findsVersion cfg v)) initial actions =
      some s) :
    ∀ call ∈ s.traced, call.2 = some (cfg.version call.1) :=
  (run_invariant (step_uniform cfg v)
    ⟨Consistent.initial, Uniform.initial cfg v⟩ hrun).2.traced

/-! ## Two processes -/

/-- The process with pid 8 runs PHP 8.3, all others PHP 7.0. -/
def mixed : Config where
  traceLimit := 1
  version := fun pid => if pid = 8 then .v83 else .v70

theorem run_traced_version_seven :
    ∃ s : State 1,
      run (restrict (step mixed) (findsVersion mixed .v70)) initial
          (producePid 7 ++ work 15) = some s ∧
        s.traced = [(7, some .v70)] ∧
        ∀ call ∈ s.traced, call.2 = some (mixed.version call.1) := by
  have heval : (run (restrict (step mixed) (findsVersion mixed .v70)) initial
      (producePid 7 ++ work 15)).map State.traced = some [(7, some .v70)] := by
    decide
  obtain ⟨s, hrun, htraced⟩ := Option.map_eq_some_iff.mp heval
  exact ⟨s, hrun, htraced, run_traced_version mixed .v70 _ s hrun⟩

/-- One worker traces a PHP 7.0 process and then a PHP 8.3 process, both with
the tracer for PHP 7.0. -/
theorem mixed_traces_wrong_version :
    (run (step mixed) initial
        (producePid 7 ++ work 15 ++ producePid 8 ++ work 14)).map
        State.traced = some [(8, some .v70), (7, some .v70)] ∧
      mixed.version 8 = .v83 := by
  decide

end Pgrep

end Phpspy

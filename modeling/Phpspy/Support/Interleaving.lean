import Mathlib.Data.List.Forall2
import Mathlib.Data.List.Induction
import Mathlib.Order.Nat

/-!
# Interleaved senders with a shared counter

Finitely or infinitely many senders work through lists of jobs.  Starting a
job may draw a number from a counter that all senders share and yields the
payloads to be sent for it.  Payloads then go out one at a time, in any
interleaving, and each of them may get lost on the way.
-/

namespace Interleaving

variable {ι σ τ J K P Q α : Type*}

structure Started (σ P α : Type*) where
  state : σ
  payloads : List P
  counter : ℕ
  content : List α

/-- A sender: its own state, the jobs ahead, the payloads of the current job
that are still to be sent, whether all earlier ones got through, and what the
job is about. -/
structure Sender (σ J P α : Type*) where
  state : σ
  jobs : List J
  pending : List P
  intact : Bool
  content : List α

/-- All senders, the shared counter and how often it has moved, the payloads
that got through, and the contents of the jobs whose payloads all did. -/
structure System (ι σ J P α : Type*) where
  counter : ℕ
  drawn : ℕ
  senders : ι → Sender σ J P α
  output : List P
  complete : List (List α)

def System.initial (state : ι → σ) (jobs : ι → List J) : System ι σ J P α :=
  { counter := 0
    drawn := 0
    senders := fun i =>
      { state := state i
        jobs := jobs i
        pending := []
        intact := true
        content := [] }
    output := []
    complete := [] }

variable [DecidableEq ι]

/-- Sender `i` has started a job. -/
def System.start (s : System ι σ J P α) (i : ι) (started : Started σ P α)
    (jobs : List J) : System ι σ J P α :=
  { s with
    counter := started.counter
    drawn := if started.counter = s.counter then s.drawn else s.drawn + 1
    senders := Function.update s.senders i
      { state := started.state
        jobs := jobs
        pending := started.payloads
        intact := true
        content := started.content } }

/-- Sender `i` has sent `payload`, with `rest` still to go. -/
def System.send (s : System ι σ J P α) (i : ι) (keep : Bool) (payload : P)
    (rest : List P) : System ι σ J P α :=
  let intact := (s.senders i).intact && keep
  { s with
    senders := Function.update s.senders i
      { s.senders i with pending := rest, intact := intact }
    output := if keep then s.output ++ [payload] else s.output
    complete :=
      if rest.isEmpty && intact then s.complete ++ [(s.senders i).content]
      else s.complete }

/-- One move of sender `choice.1`.  A payload gets through if `choice.2`. -/
def System.step (launch : ι → σ → ℕ → J → Started σ P α)
    (s : System ι σ J P α) (choice : ι × Bool) : System ι σ J P α :=
  match (s.senders choice.1).pending with
  | payload :: rest => s.send choice.1 choice.2 payload rest
  | [] =>
      match (s.senders choice.1).jobs with
      | [] => s
      | job :: jobs =>
          s.start choice.1
            (launch choice.1 (s.senders choice.1).state s.counter job) jobs

def System.run (launch : ι → σ → ℕ → J → Started σ P α)
    (s : System ι σ J P α) (schedule : List (ι × Bool)) :
    System ι σ J P α :=
  schedule.foldl (System.step launch) s

theorem System.run_append (launch : ι → σ → ℕ → J → Started σ P α)
    (s : System ι σ J P α) (xs ys : List (ι × Bool)) :
    s.run launch (xs ++ ys) = (s.run launch xs).run launch ys :=
  List.foldl_append

theorem System.step_cases (launch : ι → σ → ℕ → J → Started σ P α)
    (s : System ι σ J P α) (i : ι) (keep : Bool) :
    (∃ payload rest, (s.senders i).pending = payload :: rest ∧
      s.step launch (i, keep) = s.send i keep payload rest) ∨
    (∃ job jobs, (s.senders i).pending = [] ∧
      (s.senders i).jobs = job :: jobs ∧
      s.step launch (i, keep) =
        s.start i (launch i (s.senders i).state s.counter job) jobs) ∨
    ((s.senders i).pending = [] ∧ (s.senders i).jobs = [] ∧
      s.step launch (i, keep) = s) := by
  cases hpending : (s.senders i).pending with
  | cons payload rest =>
      exact Or.inl ⟨payload, rest, rfl, by simp only [step, hpending]⟩
  | nil =>
      cases hjobs : (s.senders i).jobs with
      | nil =>
          refine Or.inr (Or.inr ⟨rfl, rfl, ?_⟩)
          simp only [step, hpending, hjobs]
      | cons job jobs =>
          refine Or.inr (Or.inl ⟨job, jobs, rfl, rfl, ?_⟩)
          simp only [step, hpending, hjobs]

theorem System.step_output (launch : ι → σ → ℕ → J → Started σ P α)
    (s : System ι σ J P α) (i : ι) (keep : Bool) :
    (s.step launch (i, keep)).output =
      s.output ++ if keep then (s.senders i).pending.take 1 else [] := by
  rcases s.step_cases launch i keep with
    ⟨payload, rest, hpending, h⟩ | ⟨job, jobs, hpending, -, h⟩ |
      ⟨hpending, -, h⟩
  · rw [h, hpending, send]
    cases keep with
    | false => exact (List.append_nil _).symm
    | true => rfl
  · rw [h, hpending, List.take_nil, ite_self, List.append_nil]
    rfl
  · rw [h, hpending, List.take_nil, ite_self, List.append_nil]

theorem System.drawn_le_step (launch : ι → σ → ℕ → J → Started σ P α)
    (s : System ι σ J P α) (choice : ι × Bool) :
    s.drawn ≤ (s.step launch choice).drawn := by
  obtain ⟨i, keep⟩ := choice
  rcases s.step_cases launch i keep with
    ⟨payload, rest, -, h⟩ | ⟨job, jobs, -, -, h⟩ | ⟨-, -, h⟩
  · rw [h]
    exact le_refl _
  · rw [h, start]
    dsimp only
    split
    · exact le_refl _
    · exact Nat.le_succ _
  · rw [h]

theorem System.run_drawn_le (launch : ι → σ → ℕ → J → Started σ P α)
    (s : System ι σ J P α) (schedule : List (ι × Bool)) :
    (s.run launch schedule).drawn ≤ s.drawn + schedule.length := by
  induction schedule generalizing s with
  | nil => exact Nat.le_refl _
  | cons choice schedule ih =>
      obtain ⟨i, keep⟩ := choice
      have hstep : (s.step launch (i, keep)).drawn ≤ s.drawn + 1 := by
        rcases s.step_cases launch i keep with
          ⟨payload, rest, -, h⟩ | ⟨job, jobs, -, -, h⟩ | ⟨-, -, h⟩
        · rw [h]
          exact Nat.le_succ _
        · rw [h, start]
          dsimp only
          split
          · exact Nat.le_succ _
          · exact Nat.le_refl _
        · rw [h]
          exact Nat.le_succ _
      have hrest := ih (s.step launch (i, keep))
      rw [run, List.foldl_cons, ← run, List.length_cons]
      omega

/-- An invariant of a whole run, for runs that draw at most `bound` times. -/
theorem System.run_invariant {launch : ι → σ → ℕ → J → Started σ P α}
    {motive : System ι σ J P α → Prop} {bound : ℕ} {s : System ι σ J P α}
    (start : motive s)
    (step : ∀ s choice, motive s →
      (System.step launch s choice).drawn ≤ bound →
        motive (System.step launch s choice))
    (schedule : List (ι × Bool))
    (hbound : (s.run launch schedule).drawn ≤ bound) :
    motive (s.run launch schedule) := by
  induction schedule using List.reverseRecOn with
  | nil => exact start
  | append_singleton schedule choice ih =>
      rw [run, List.foldl_append] at hbound ⊢
      have hlast := (s.run launch schedule).drawn_le_step launch choice
      exact step _ _ (ih (hlast.trans hbound)) hbound

/-! ## Simulation -/

/-- Two senders in step: payload by payload they are related. -/
structure Sender.Related (inv : σ → Prop) (ok : J → Prop) (f : J → K)
    (rel : P → Q → Prop) (a : Sender σ J P α) (b : Sender τ K Q α) :
    Prop where
  state : inv a.state
  ok : ∀ job ∈ a.jobs, ok job
  jobs : b.jobs = a.jobs.map f
  pending : List.Forall₂ rel a.pending b.pending
  intact : a.intact = b.intact
  content : a.content = b.content

/-- Two systems in step: the same numbers are drawn, all senders are related,
and the same contents are complete. -/
structure System.Related (limit : ℕ) (inv : ι → σ → Prop) (ok : J → Prop)
    (f : J → K) (rel : P → Q → Prop) (s : System ι σ J P α)
    (t : System ι τ K Q α) : Prop where
  counter : s.counter = t.counter
  counter_lt : s.counter < limit
  drawn : s.drawn = t.drawn
  senders : ∀ i, (s.senders i).Related (inv i) ok f rel (t.senders i)
  output : List.Forall₂ rel s.output t.output
  complete : s.complete = t.complete

/-- What makes two ways of starting jobs simulate each other. -/
def Simulates (limit : ℕ) (inv : ι → σ → Prop) (ok : J → Prop) (f : J → K)
    (rel : P → Q → Prop) (launch : ι → σ → ℕ → J → Started σ P α)
    (launch' : ι → τ → ℕ → K → Started τ Q α) : Prop :=
  ∀ i state state' n job, inv i state → n < limit → ok job →
    let a := launch i state n job
    let b := launch' i state' n (f job)
    inv i a.state ∧ List.Forall₂ rel a.payloads b.payloads ∧
      a.counter = b.counter ∧ a.counter < limit ∧ a.content = b.content

variable {limit : ℕ} {inv : ι → σ → Prop} {ok : J → Prop} {f : J → K}
  {rel : P → Q → Prop} {s : System ι σ J P α} {t : System ι τ K Q α}

omit [DecidableEq ι] in
theorem System.Related.initial (hlimit : 0 < limit) {state : ι → σ}
    (state' : ι → τ) {jobs : ι → List J} (hstate : ∀ i, inv i (state i))
    (hjobs : ∀ i, ∀ job ∈ jobs i, ok job) :
    Related limit inv ok f rel
      (System.initial state jobs : System ι σ J P α)
      (System.initial state' (fun i => (jobs i).map f)) := by
  refine ⟨rfl, hlimit, rfl, ?_, List.Forall₂.nil, rfl⟩
  intro i
  exact ⟨hstate i, hjobs i, rfl, List.Forall₂.nil, rfl, rfl⟩

theorem System.Related.update (h : Related limit inv ok f rel s t) {i : ι}
    {a : Sender σ J P α} {b : Sender τ K Q α}
    (hi : a.Related (inv i) ok f rel b) (j : ι) :
    (Function.update s.senders i a j).Related (inv j) ok f rel
      (Function.update t.senders i b j) := by
  rcases eq_or_ne j i with rfl | hj
  · rwa [Function.update_self, Function.update_self]
  · rw [Function.update_of_ne hj, Function.update_of_ne hj]
    exact h.senders j

theorem System.Related.send (h : Related limit inv ok f rel s t) (i : ι)
    (keep : Bool) {payload : P} {rest : List P} {payload' : Q}
    {rest' : List Q} (hpayload : rel payload payload')
    (hrest : List.Forall₂ rel rest rest') :
    Related limit inv ok f rel (s.send i keep payload rest)
      (t.send i keep payload' rest') := by
  have hi := h.senders i
  have hempty : rest.isEmpty = rest'.isEmpty := by
    cases hrest with
    | nil => rfl
    | cons _ _ => rfl
  refine ⟨h.counter, h.counter_lt, h.drawn, ?_, ?_, ?_⟩
  · apply h.update
    exact ⟨hi.state, hi.ok, hi.jobs, hrest, by rw [hi.intact], hi.content⟩
  · cases keep with
    | false => exact h.output
    | true =>
        have hlast : List.Forall₂ rel [payload] [payload'] :=
          List.Forall₂.cons hpayload List.Forall₂.nil
        exact List.rel_append h.output hlast
  · simp only [System.send, hempty, hi.intact, hi.content, h.complete]

theorem System.Related.start (h : Related limit inv ok f rel s t) (i : ι)
    {a : Started σ P α} {b : Started τ Q α} {jobs : List J}
    (hstate : inv i a.state)
    (hpending : List.Forall₂ rel a.payloads b.payloads)
    (hcounter : a.counter = b.counter) (hlimit : a.counter < limit)
    (hcontent : a.content = b.content) (hjobs : ∀ job ∈ jobs, ok job) :
    Related limit inv ok f rel (s.start i a jobs)
      (t.start i b (jobs.map f)) := by
  refine ⟨hcounter, hlimit, ?_, ?_, h.output, h.complete⟩
  · simp only [System.start, hcounter, h.counter, h.drawn]
  · apply h.update
    exact ⟨hstate, hjobs, rfl, hpending, rfl, hcontent⟩

theorem System.Related.step {launch : ι → σ → ℕ → J → Started σ P α}
    {launch' : ι → τ → ℕ → K → Started τ Q α}
    (hsim : Simulates limit inv ok f rel launch launch')
    (h : Related limit inv ok f rel s t) (choice : ι × Bool) :
    Related limit inv ok f rel (s.step launch choice)
      (t.step launch' choice) := by
  obtain ⟨i, keep⟩ := choice
  have hpending := (h.senders i).pending
  have hjobs := (h.senders i).jobs
  rcases s.step_cases launch i keep with
    ⟨payload, rest, hcur, hs⟩ | ⟨job, jobs, hnone, hnext, hs⟩ |
      ⟨hnone, hdone, hs⟩
  · rw [hcur] at hpending
    obtain ⟨payload', rest', hpayload, hrest, hcur'⟩ :=
      List.forall₂_cons_left_iff.mp hpending
    rw [hs, System.step, hcur']
    exact h.send i keep hpayload hrest
  · rw [hnone] at hpending
    rw [hnext, List.map_cons] at hjobs
    have hok := (h.senders i).ok
    rw [hnext] at hok
    obtain ⟨hstate, hpay, hcounter, hlimit, hcontent⟩ :=
      hsim i (s.senders i).state (t.senders i).state s.counter job
        (h.senders i).state h.counter_lt (hok job (by simp))
    rw [hs, System.step, List.forall₂_nil_left_iff.mp hpending, hjobs,
      ← h.counter]
    exact h.start i hstate hpay hcounter hlimit hcontent
      fun j hj => hok j (by simp [hj])
  · rw [hnone] at hpending
    rw [hdone, List.map_nil] at hjobs
    rw [hs, System.step, List.forall₂_nil_left_iff.mp hpending, hjobs]
    exact h

/-- Simulation of whole runs. -/
theorem System.Related.run {launch : ι → σ → ℕ → J → Started σ P α}
    {launch' : ι → τ → ℕ → K → Started τ Q α}
    (hsim : Simulates limit inv ok f rel launch launch')
    (h : Related limit inv ok f rel s t) (schedule : List (ι × Bool)) :
    Related limit inv ok f rel (s.run launch schedule)
      (t.run launch' schedule) := by
  induction schedule generalizing s t with
  | nil => exact h
  | cons choice schedule ih => exact ih (h.step hsim choice)

end Interleaving

import Mathlib.Data.List.Range
import Mathlib.Data.List.Sort
import Phpspy.Support.Interleaving

/-!
# Reassembling messages from numbered parts

Senders split some of their messages into parts that carry the message's
number, their own index and a mark on the last one.  A receiver collects the
parts of each number and, when a last part arrives, delivers the message if
every index is there.  As long as no number is used twice, it delivers exactly
the messages whose packets all got through.
-/

namespace Reassembly

open Interleaving

variable {ι α : Type*}

inductive Packet (α : Type*) where
  | whole (content : List α)
  | part (id index : ℕ) (last : Bool) (content : List α)

inductive Message (α : Type*) where
  | silent
  | whole (content : List α)
  | parts (contents : List (List α))

def Message.packets (id : ℕ) : Message α → List (Packet α)
  | .silent => []
  | .whole content => [.whole content]
  | .parts contents => contents.mapIdx fun k content =>
      .part id k (k + 1 == contents.length) content

def Message.content : Message α → List α
  | .silent => []
  | .whole content => content
  | .parts contents => contents.flatten

/-- Only a message in parts needs a number. -/
def Message.nextId (limit id : ℕ) : Message α → ℕ
  | .parts _ => (id + 1) % limit
  | _ => id

/-- A job is a message that may depend on the number it gets. -/
def launch (limit : ℕ) (_ : ι) (_ : Unit) (n : ℕ) (job : ℕ → Message α) :
    Started Unit (Packet α) α :=
  { state := ()
    payloads := (job n).packets n
    counter := (job n).nextId limit n
    content := (job n).content }

/-! ## The receiver -/

/-- The parts collected so far for each number, and the messages delivered. -/
structure Receiver (α : Type*) where
  parts : ℕ → List (ℕ × List α)
  out : List (List α)

def Receiver.empty : Receiver α :=
  { parts := fun _ => []
    out := [] }

def put (parts : List (ℕ × List α)) (index : ℕ) (content : List α) :
    List (ℕ × List α) :=
  (index, content) :: parts.filter fun p => p.1 ≠ index

def sortParts (parts : List (ℕ × List α)) : List (ℕ × List α) :=
  parts.insertionSort fun a b => a.1 ≤ b.1

/-- As many parts as indices up to `index`, which is the largest. -/
def isComplete (parts : List (ℕ × List α)) (index : ℕ) : Bool :=
  (sortParts parts).length == index + 1 &&
    (sortParts parts).getLast?.map Prod.fst == some index

def Receiver.receive (r : Receiver α) : Packet α → Receiver α
  | .whole content => { r with out := r.out ++ [content] }
  | .part id index last content =>
      let parts := put (r.parts id) index content
      if last then
        { parts := Function.update r.parts id []
          out :=
            if isComplete parts index
            then r.out ++ [(sortParts parts).flatMap Prod.snd] else r.out }
      else { r with parts := Function.update r.parts id parts }

/-! ## Collecting the parts of one message -/

/-- The parts with the given indices, latest first. -/
def collected (contents : List (List α)) (indices : List ℕ) :
    List (ℕ × List α) :=
  indices.reverse.map fun j => (j, contents.getD j [])

theorem put_collected (contents : List (List α)) {indices : List ℕ} {k : ℕ}
    (hsub : indices.Sublist (List.range k)) :
    put (collected contents indices) k (contents.getD k []) =
      collected contents (indices ++ [k]) := by
  have hkeep : (collected contents indices).filter (fun p => p.1 ≠ k) =
      collected contents indices := by
    rw [List.filter_eq_self]
    intro p hp
    simp only [collected, List.mem_map, List.mem_reverse] at hp
    obtain ⟨j, hj, rfl⟩ := hp
    have hlt := List.mem_range.mp (hsub.subset hj)
    simpa using hlt.ne
  rw [put, hkeep]
  simp [collected]

theorem sortParts_collected (contents : List (List α)) {indices : List ℕ}
    {n : ℕ} (hsub : indices.Sublist (List.range n)) :
    sortParts (collected contents indices) =
      indices.map fun j => (j, contents.getD j []) := by
  have hsorted : indices.Pairwise (· ≤ ·) := by
    exact List.Pairwise.sublist hsub List.pairwise_le_range
  have hindices : indices.reverse.insertionSort (· ≤ ·) = indices := by
    apply List.Perm.eq_of_pairwise' (List.pairwise_insertionSort _ _) hsorted
    exact (List.perm_insertionSort _ _).trans indices.reverse_perm
  have hmap := List.map_insertionSort (· ≤ ·)
    (fun a b : ℕ × List α => a.1 ≤ b.1)
    (fun j => (j, contents.getD j [])) indices.reverse (by simp)
  rw [hindices] at hmap
  exact hmap.symm

theorem isComplete_collected (contents : List (List α)) {indices : List ℕ}
    {k : ℕ} (hsub : indices.Sublist (List.range k)) :
    isComplete (collected contents (indices ++ [k])) k = true ↔
      indices = List.range k := by
  have hsub' : (indices ++ [k]).Sublist (List.range (k + 1)) := by
    rw [List.range_succ]
    exact hsub.append_right [k]
  rw [isComplete, sortParts_collected contents hsub']
  constructor
  · intro h
    apply hsub.eq_of_length
    simpa using h
  · intro h
    simp [h]

theorem flatMap_sortParts_collected (contents : List (List α)) :
    (sortParts (collected contents
      (List.range contents.length))).flatMap Prod.snd = contents.flatten := by
  rw [sortParts_collected contents (List.Sublist.refl _), List.flatMap,
    List.map_map]
  congr 1
  apply List.ext_getElem
  · simp
  · intro j _ hj
    simp [hj]

/-! ## Senders between two packets -/

theorem packets_drop (id : ℕ) {contents : List (List α)} {k : ℕ}
    (hk : k < contents.length) :
    ((Message.parts contents).packets id).drop k =
      .part id k (k + 1 == contents.length) (contents.getD k []) ::
        ((Message.parts contents).packets id).drop (k + 1) := by
  have hlen : k < ((Message.parts contents).packets id).length := by
    simpa [Message.packets] using hk
  rw [List.drop_eq_getElem_cons hlen]
  simp [Message.packets, hk]

/-- A sender with nothing on its way, with a whole message on its way, or in
the middle of a message in parts, of which the receiver has collected some. -/
inductive InFlight (drawn : ℕ) (r : Receiver α)
    (a : Sender Unit (ℕ → Message α) (Packet α) α) : Prop where
  | idle (hpending : a.pending = [])
  | whole (hpending : a.pending = [.whole a.content])
      (hintact : a.intact = true)
  | parts (id k : ℕ) (contents : List (List α)) (indices : List ℕ)
      (hid : id < drawn) (hk : k < contents.length)
      (hpending : a.pending = ((Message.parts contents).packets id).drop k)
      (hcontent : a.content = contents.flatten)
      (hsub : indices.Sublist (List.range k))
      (hparts : r.parts id = collected contents indices)
      (hintact : a.intact = true ↔ indices = List.range k)

/-- The sender has a part with this number on its way. -/
def Owns (a : Sender Unit (ℕ → Message α) (Packet α) α) (id : ℕ) : Prop :=
  ∃ index last content, Packet.part id index last content ∈ a.pending

theorem owns_iff {a : Sender Unit (ℕ → Message α) (Packet α) α} {id k : ℕ}
    {contents : List (List α)} (hk : k < contents.length)
    (hpending : a.pending = ((Message.parts contents).packets id).drop k)
    (id' : ℕ) : Owns a id' ↔ id' = id := by
  constructor
  · rintro ⟨index, last, content, hmem⟩
    rw [hpending] at hmem
    have hmem := List.mem_of_mem_drop hmem
    simp only [Message.packets, List.mem_mapIdx, Packet.part.injEq] at hmem
    obtain ⟨j, hj, hid, -⟩ := hmem
    exact hid.symm
  · intro h
    rw [h]
    refine ⟨k, k + 1 == contents.length, contents.getD k [], ?_⟩
    rw [hpending, packets_drop id hk]
    exact List.mem_cons_self

theorem InFlight.mono {drawn drawn' : ℕ} {r r' : Receiver α}
    {a : Sender Unit (ℕ → Message α) (Packet α) α}
    (h : InFlight drawn r a) (hdrawn : drawn ≤ drawn')
    (hr : ∀ id, Owns a id → r'.parts id = r.parts id) :
    InFlight drawn' r' a := by
  cases h with
  | idle hpending => exact .idle hpending
  | whole hpending hintact => exact .whole hpending hintact
  | parts id k contents indices hid hk hpending hcontent hsub hparts hintact =>
      have hsame := hr id ((owns_iff hk hpending id).mpr rfl)
      exact .parts id k contents indices (hid.trans_le hdrawn) hk hpending
        hcontent hsub (hsame.trans hparts) hintact

theorem InFlight.lt_drawn {drawn : ℕ} {r : Receiver α}
    {a : Sender Unit (ℕ → Message α) (Packet α) α}
    (h : InFlight drawn r a) {id : ℕ} (hown : Owns a id) : id < drawn := by
  cases h with
  | idle hpending =>
      obtain ⟨index, last, content, hmem⟩ := hown
      simp [hpending] at hmem
  | whole hpending _ =>
      obtain ⟨index, last, content, hmem⟩ := hown
      simp [hpending] at hmem
  | parts id' k contents indices hid hk hpending _ _ _ _ =>
      rw [(owns_iff hk hpending id).mp hown]
      exact hid

/-- The receiver after a packet that got through, or was lost. -/
def Receiver.receiveIf (r : Receiver α) (keep : Bool) (p : Packet α) :
    Receiver α :=
  if keep then r.receive p else r

theorem receiveIf_parts_of_ne (r : Receiver α) (keep : Bool)
    {id id' : ℕ} (hne : id' ≠ id) (index : ℕ) (last : Bool)
    (content : List α) :
    (r.receiveIf keep (.part id index last content)).parts id' =
      r.parts id' := by
  cases keep with
  | false => rfl
  | true =>
      cases last with
      | false => simp [Receiver.receiveIf, Receiver.receive, hne]
      | true => simp [Receiver.receiveIf, Receiver.receive, hne]

section Part

variable {r : Receiver α} {id k : ℕ} {contents : List (List α)}
  {indices : List ℕ}

theorem receiveIf_parts (keep : Bool)
    (hsub : indices.Sublist (List.range k))
    (hparts : r.parts id = collected contents indices) :
    (r.receiveIf keep (.part id k false (contents.getD k []))).parts id =
      collected contents (if keep then indices ++ [k] else indices) := by
  cases keep with
  | false => exact hparts
  | true =>
      rw [if_pos rfl, ← put_collected contents hsub, ← hparts]
      simp [Receiver.receiveIf, Receiver.receive]

theorem receiveIf_out (keep : Bool) :
    (r.receiveIf keep (.part id k false (contents.getD k []))).out =
      r.out := by
  cases keep with
  | false => rfl
  | true => rfl

theorem receiveIf_last_out (keep : Bool) (hk : k + 1 = contents.length)
    (hsub : indices.Sublist (List.range k))
    (hparts : r.parts id = collected contents indices) :
    (r.receiveIf keep (.part id k true (contents.getD k []))).out =
      if indices = List.range k ∧ keep = true
      then r.out ++ [contents.flatten] else r.out := by
  cases keep with
  | false => simp [Receiver.receiveIf]
  | true =>
      simp only [Receiver.receiveIf, Receiver.receive, hparts,
        put_collected contents hsub, isComplete_collected contents hsub,
        if_true, and_true]
      by_cases hall : indices = List.range k
      · rw [if_pos hall, if_pos hall, hall, ← List.range_succ,
          Nat.succ_eq_add_one, hk, flatMap_sortParts_collected]
      · rw [if_neg hall, if_neg hall]

end Part

/-! ## One sender after the other, and nothing lost -/

def Message.delivered : Message α → List (List α)
  | .silent => []
  | .whole content => [content]
  | .parts contents => if contents.isEmpty then [] else [contents.flatten]

theorem filter_delivered (m : Message α) :
    m.delivered.filter (fun content => !content.isEmpty) =
      [m.content].filter fun content => !content.isEmpty := by
  cases m with
  | silent => rfl
  | whole content => rfl
  | parts contents =>
      cases contents with
      | nil => rfl
      | cons content contents => rfl

theorem receive_parts {contents : List (List α)} {id k : ℕ}
    (hk : k < contents.length) {r : Receiver α}
    (hparts : r.parts id = collected contents (List.range k))
    (hother : ∀ id', id' ≠ id → r.parts id' = []) :
    let r' := (((Message.parts contents).packets id).drop k).foldl
      Receiver.receive r
    r'.out = r.out ++ [contents.flatten] ∧ ∀ id', r'.parts id' = [] := by
  have hreceive : ∀ p : Packet α, r.receiveIf true p = r.receive p :=
    fun _ => rfl
  have hne : ∀ id' last, id' ≠ id →
      (r.receive (.part id k last (contents.getD k []))).parts id' = [] := by
    intro id' last hid
    rw [← hreceive, receiveIf_parts_of_ne r true hid]
    exact hother id' hid
  intro r'
  by_cases hlast : k + 1 = contents.length
  · have hdrop : ((Message.parts contents).packets id).drop (k + 1) = [] := by
      apply List.drop_of_length_le
      rw [Message.packets, List.length_mapIdx]
      exact hlast.ge
    have hr' : r' = r.receive (.part id k true (contents.getD k [])) := by
      simp only [r', packets_drop id hk, hdrop, beq_iff_eq.mpr hlast,
        List.foldl_cons, List.foldl_nil]
    rw [hr']
    constructor
    · rw [← hreceive, receiveIf_last_out true hlast (List.Sublist.refl _)
        hparts, if_pos ⟨rfl, rfl⟩]
    · intro id'
      by_cases hid : id' = id
      · subst hid
        simp [Receiver.receive]
      · exact hne id' true hid
  · have hr' : r' = (((Message.parts contents).packets id).drop
        (k + 1)).foldl Receiver.receive
          (r.receive (.part id k false (contents.getD k []))) := by
      simp only [r', packets_drop id hk, List.foldl_cons,
        beq_eq_false_iff_ne.mpr hlast]
    have hnext : (r.receive (.part id k false (contents.getD k []))).parts
        id = collected contents (List.range (k + 1)) := by
      rw [← hreceive, receiveIf_parts true (List.Sublist.refl _) hparts,
        if_pos rfl, List.range_succ]
    have hrest := receive_parts (show k + 1 < contents.length by omega) hnext
      fun id' hid => hne id' false hid
    rw [hr']
    exact hrest
termination_by contents.length - k

theorem receive_packets (m : Message α) (id : ℕ) {r : Receiver α}
    (hr : ∀ id', r.parts id' = []) :
    let r' := (m.packets id).foldl Receiver.receive r
    r'.out = r.out ++ m.delivered ∧ ∀ id', r'.parts id' = [] := by
  cases m with
  | silent => exact ⟨(List.append_nil _).symm, hr⟩
  | whole content => exact ⟨rfl, hr⟩
  | parts contents =>
      cases contents with
      | nil => exact ⟨(List.append_nil _).symm, hr⟩
      | cons content contents =>
          have hpos : 0 < (content :: contents).length :=
            Nat.succ_pos contents.length
          exact receive_parts hpos (hr id) fun id' _ => hr id'

/-! ## Whole runs -/

variable {limit : ℕ}
  {s : System ι Unit (ℕ → Message α) (Packet α) α} {r : Receiver α}

/-- The receiver has delivered what is complete, and every number is in use
by at most one sender. -/
structure InStep (limit : ℕ)
    (s : System ι Unit (ℕ → Message α) (Packet α) α) (r : Receiver α) :
    Prop where
  out : r.out = s.complete
  counter : s.counter = s.drawn % limit
  fresh : ∀ id, s.drawn ≤ id → r.parts id = []
  flight : ∀ i, InFlight s.drawn r (s.senders i)
  distinct : ∀ i j, i ≠ j → ∀ id, Owns (s.senders i) id →
    ¬ Owns (s.senders j) id

theorem InStep.initial (limit : ℕ) (jobs : ι → List (ℕ → Message α)) :
    InStep limit (System.initial (fun _ => ()) jobs) Receiver.empty :=
  { out := rfl
    counter := rfl
    fresh := fun _ _ => rfl
    flight := fun _ => .idle rfl
    distinct := fun _ _ _ _ ⟨_, _, _, hmem⟩ => by cases hmem }

variable [DecidableEq ι]

theorem InStep.update (h : InStep limit s r) {i : ι} {drawn' : ℕ}
    {r' : Receiver α} {a : Sender Unit (ℕ → Message α) (Packet α) α}
    (hdrawn : s.drawn ≤ drawn') (hflight : InFlight drawn' r' a)
    (hparts : ∀ j, j ≠ i → ∀ id, Owns (s.senders j) id →
      r'.parts id = r.parts id)
    (hown : ∀ id, Owns a id → Owns (s.senders i) id ∨ s.drawn ≤ id) :
    (∀ j, InFlight drawn' r' (Function.update s.senders i a j)) ∧
      ∀ j k, j ≠ k → ∀ id, Owns (Function.update s.senders i a j) id →
        ¬ Owns (Function.update s.senders i a k) id := by
  have hother : ∀ j, j ≠ i → ∀ id, Owns a id → ¬ Owns (s.senders j) id := by
    intro j hj id ha hj'
    rcases hown id ha with hi | hnew
    · exact h.distinct i j hj.symm id hi hj'
    · exact absurd ((h.flight j).lt_drawn hj') (not_lt.mpr hnew)
  constructor
  · intro j
    rcases eq_or_ne j i with rfl | hj
    · rwa [Function.update_self]
    · rw [Function.update_of_ne hj]
      exact (h.flight j).mono hdrawn (hparts j hj)
  · intro j k hjk id hj hk
    rcases eq_or_ne j i with rfl | hji
    · rw [Function.update_self] at hj
      rw [Function.update_of_ne hjk.symm] at hk
      exact hother k hjk.symm id hj hk
    · rw [Function.update_of_ne hji] at hj
      rcases eq_or_ne k i with rfl | hki
      · rw [Function.update_self] at hk
        exact hother j hji id hk hj
      · rw [Function.update_of_ne hki] at hk
        exact h.distinct j k hjk id hj hk

section Send

variable {i : ι} {rest : List (Packet α)}

omit [DecidableEq ι] in
theorem owns_of_rest {p : Packet α} (keep : Bool)
    (hpending : (s.senders i).pending = p :: rest) (id : ℕ)
    (hown : Owns { s.senders i with
      pending := rest, intact := (s.senders i).intact && keep } id) :
    Owns (s.senders i) id ∨ s.drawn ≤ id := by
  obtain ⟨index, last, content, hmem⟩ := hown
  refine Or.inl ⟨index, last, content, ?_⟩
  rw [hpending]
  exact List.mem_cons_of_mem p hmem

theorem InStep.send_whole (h : InStep limit s r) (keep : Bool)
    (hpending : (s.senders i).pending = [.whole (s.senders i).content])
    (hintact : (s.senders i).intact = true) :
    InStep limit (s.send i keep (.whole (s.senders i).content) [])
      (r.receiveIf keep (.whole (s.senders i).content)) := by
  have hsame : ∀ id, (r.receiveIf keep
      (.whole (s.senders i).content)).parts id = r.parts id := by
    intro id
    cases keep with
    | false => rfl
    | true => rfl
  obtain ⟨hflight, hdistinct⟩ := h.update (le_refl s.drawn) (.idle rfl)
    (fun j _ id _ => hsame id) (owns_of_rest keep hpending)
  refine ⟨?_, h.counter, ?_, hflight, hdistinct⟩
  · cases keep with
    | false => simpa [System.send, Receiver.receiveIf] using h.out
    | true =>
        simp [System.send, Receiver.receiveIf, Receiver.receive, hintact,
          h.out]
  · intro id hid
    rw [hsame]
    exact h.fresh id hid

variable {id k : ℕ} {contents : List (List α)} {indices : List ℕ}

theorem inFlight_next {drawn : ℕ}
    {a : Sender Unit (ℕ → Message α) (Packet α) α} (keep : Bool)
    (hid : id < drawn) (hk : k + 1 < contents.length)
    (hcontent : a.content = contents.flatten)
    (hsub : indices.Sublist (List.range k))
    (hcoll : r.parts id = collected contents indices)
    (hintact : a.intact = true ↔ indices = List.range k) :
    InFlight drawn (r.receiveIf keep (.part id k false (contents.getD k [])))
      { a with
        pending := ((Message.parts contents).packets id).drop (k + 1)
        intact := a.intact && keep } := by
  refine .parts id (k + 1) contents
    (if keep then indices ++ [k] else indices) hid hk rfl
    hcontent ?_ (receiveIf_parts keep hsub hcoll) ?_
  · rw [List.range_succ]
    cases keep with
    | false => exact hsub.trans (List.sublist_append_left _ _)
    | true => exact hsub.append_right [k]
  · rw [List.range_succ]
    cases keep with
    | false =>
        have hne : indices ≠ List.range k ++ [k] := by
          intro heq
          have hlen := hsub.length_le
          rw [heq, List.length_append, List.length_range,
            List.length_singleton] at hlen
          exact Nat.not_succ_le_self k hlen
        simpa using hne
    | true => simpa using hintact

theorem InStep.send_part (h : InStep limit s r) (keep : Bool)
    (hid : id < s.drawn) (hk : k < contents.length)
    (hpending : (s.senders i).pending =
      ((Message.parts contents).packets id).drop k)
    (hcontent : (s.senders i).content = contents.flatten)
    (hsub : indices.Sublist (List.range k))
    (hcoll : r.parts id = collected contents indices)
    (hintact : (s.senders i).intact = true ↔ indices = List.range k) :
    let p := Packet.part id k (k + 1 == contents.length) (contents.getD k [])
    InStep limit
      (s.send i keep p (((Message.parts contents).packets id).drop (k + 1)))
      (r.receiveIf keep p) := by
  intro p
  have hrest := owns_of_rest keep (hpending.trans (packets_drop id hk))
  have hother : ∀ j, j ≠ i → ∀ id', Owns (s.senders j) id' →
      (r.receiveIf keep p).parts id' = r.parts id' := by
    intro j hj id' hown
    have hne : id' ≠ id := by
      rintro rfl
      exact h.distinct j i hj id' hown ((owns_iff hk hpending id').mpr rfl)
    exact receiveIf_parts_of_ne r keep hne _ _ _
  have hfresh : ∀ id', s.drawn ≤ id' →
      (r.receiveIf keep p).parts id' = [] := by
    intro id' hid'
    rw [receiveIf_parts_of_ne r keep (hid.trans_le hid').ne']
    exact h.fresh id' hid'
  by_cases hlast : k + 1 = contents.length
  · have hnone : ((Message.parts contents).packets id).drop (k + 1) = [] := by
      simp [Message.packets, hlast]
    rw [hnone] at hrest ⊢
    obtain ⟨hflight, hdistinct⟩ := h.update (le_refl s.drawn) (.idle rfl)
      hother hrest
    refine ⟨?_, h.counter, hfresh, hflight, hdistinct⟩
    have hp : p = .part id k true (contents.getD k []) := by
      simp [p, hlast]
    rw [hp, receiveIf_last_out keep hlast hsub hcoll]
    simp [System.send, h.out, hcontent, hintact]
  · have hp : p = .part id k false (contents.getD k []) := by
      simp [p, hlast]
    have hmore : k + 1 < contents.length := lt_of_le_of_ne hk hlast
    have hnext := inFlight_next keep hid hmore hcontent hsub hcoll hintact
    rw [← hp] at hnext
    obtain ⟨hflight, hdistinct⟩ := h.update (le_refl s.drawn) hnext hother
      hrest
    refine ⟨?_, h.counter, hfresh, hflight, hdistinct⟩
    rw [hp, receiveIf_out]
    simp [System.send, Message.packets, not_le.mpr hmore, h.out]

end Send

theorem InStep.send (h : InStep limit s r) {i : ι} (keep : Bool)
    {p : Packet α} {rest : List (Packet α)}
    (hpending : (s.senders i).pending = p :: rest) :
    InStep limit (s.send i keep p rest) (r.receiveIf keep p) := by
  cases h.flight i with
  | idle hnone =>
      rw [hnone] at hpending
      cases hpending
  | whole hwhole hintact =>
      have hsplit := hpending
      rw [hwhole] at hsplit
      obtain ⟨rfl, rfl⟩ := List.cons.inj hsplit
      exact h.send_whole keep hwhole hintact
  | parts id k contents indices hid hk hparts hcontent hsub hcoll hintact =>
      rw [hparts, packets_drop id hk] at hpending
      obtain ⟨rfl, rfl⟩ := List.cons.inj hpending
      exact h.send_part keep hid hk hparts hcontent hsub hcoll hintact

def Message.sender (message : Message α) (n : ℕ)
    (jobs : List (ℕ → Message α)) : Sender Unit (ℕ → Message α) (Packet α) α :=
  { state := ()
    jobs := jobs
    pending := message.packets n
    intact := true
    content := message.content }

omit [DecidableEq ι] in
theorem inFlight_sender {drawn n : ℕ} {message : Message α}
    (hparts : ∀ contents, message = .parts contents →
      r.parts n = [] ∧ n < drawn) (jobs : List (ℕ → Message α)) :
    InFlight drawn r (message.sender n jobs) := by
  cases message with
  | silent => exact .idle rfl
  | whole content => exact .whole rfl rfl
  | parts contents =>
      obtain ⟨hnone, hlt⟩ := hparts contents rfl
      cases contents with
      | nil => exact .idle rfl
      | cons content rest =>
          refine .parts n 0 (content :: rest) [] hlt (Nat.succ_pos _) rfl rfl
            (List.Sublist.refl _) hnone ?_
          simp [Message.sender]

theorem owns_sender {n id : ℕ} {message : Message α}
    {jobs : List (ℕ → Message α)} (hown : Owns (message.sender n jobs) id) :
    id = n ∧ ∃ contents, message = .parts contents := by
  obtain ⟨index, last, content, hmem⟩ := hown
  cases message with
  | silent => simp [Message.sender, Message.packets] at hmem
  | whole content => simp [Message.sender, Message.packets] at hmem
  | parts contents =>
      simp only [Message.sender, Message.packets, List.mem_mapIdx,
        Packet.part.injEq] at hmem
      obtain ⟨j, hj, hid, -⟩ := hmem
      exact ⟨hid.symm, contents, rfl⟩

theorem InStep.start_message (h : InStep limit s r) (i : ι)
    (message : Message α) (jobs : List (ℕ → Message α)) {counter drawn : ℕ}
    (hcounter : counter = drawn % limit) (hle : s.drawn ≤ drawn)
    (hparts : ∀ contents, message = .parts contents →
      s.counter = s.drawn ∧ s.drawn < drawn) :
    InStep limit
      { s with
        counter := counter
        drawn := drawn
        senders :=
          Function.update s.senders i (message.sender s.counter jobs) } r := by
  have hnew : InFlight drawn r (message.sender s.counter jobs) := by
    apply inFlight_sender
    intro contents hmessage
    obtain ⟨heq, hlt⟩ := hparts contents hmessage
    rw [heq]
    exact ⟨h.fresh _ (le_refl _), hlt⟩
  have hown : ∀ id, Owns (message.sender s.counter jobs) id →
      Owns (s.senders i) id ∨ s.drawn ≤ id := by
    intro id hid
    obtain ⟨rfl, contents, hmessage⟩ := owns_sender hid
    exact Or.inr (hparts contents hmessage).1.ge
  obtain ⟨hflight, hdistinct⟩ :=
    h.update hle hnew (fun _ _ _ _ => rfl) hown
  exact ⟨h.out, hcounter, fun id hid => h.fresh id (hle.trans hid), hflight,
    hdistinct⟩

omit [DecidableEq ι] in
/-- The number a message in parts draws is new, until the counter has gone
round. -/
theorem InStep.draw (hlimit : 1 < limit) (h : InStep limit s r) :
    (s.counter + 1) % limit ≠ s.counter ∧
      (s.counter + 1) % limit = (s.drawn + 1) % limit ∧
      (s.drawn + 1 ≤ limit → s.counter = s.drawn) := by
  refine ⟨?_, ?_, ?_⟩
  · have hlt : s.counter < limit := by
      rw [h.counter]
      exact Nat.mod_lt _ (Nat.zero_lt_of_lt hlimit)
    rcases Nat.lt_or_eq_of_le (Nat.succ_le_of_lt hlt) with hsmall | hwrap
    · rw [Nat.mod_eq_of_lt hsmall]
      exact Nat.succ_ne_self _
    · have hzero : (s.counter + 1) % limit = 0 := by
        rw [← Nat.succ_eq_add_one, hwrap, Nat.mod_self]
      omega
  · rw [h.counter, Nat.mod_add_mod]
  · intro hbound
    rw [h.counter, Nat.mod_eq_of_lt hbound]

theorem InStep.start (hlimit : 1 < limit) (h : InStep limit s r) (i : ι)
    (job : ℕ → Message α) (jobs : List (ℕ → Message α))
    (hbound : (s.start i (launch limit i () s.counter job) jobs).drawn ≤
      limit) :
    InStep limit (s.start i (launch limit i () s.counter job) jobs) r := by
  obtain ⟨hmoved, hnext, hfresh⟩ := h.draw hlimit
  have hstart : s.start i (launch limit i () s.counter job) jobs =
      { s with
        counter := (job s.counter).nextId limit s.counter
        drawn :=
          if (job s.counter).nextId limit s.counter = s.counter
          then s.drawn else s.drawn + 1
        senders := Function.update s.senders i
          ((job s.counter).sender s.counter jobs) } := rfl
  rw [hstart] at hbound ⊢
  cases hjob : job s.counter with
  | silent =>
      simpa [Message.nextId] using h.start_message i .silent jobs h.counter
        (le_refl _) fun _ hm => by cases hm
  | whole content =>
      simpa [Message.nextId] using h.start_message i (.whole content) jobs
        h.counter (le_refl _) fun _ hm => by cases hm
  | parts contents =>
      simp only [hjob, Message.nextId, if_neg hmoved] at hbound
      simp only [Message.nextId, hmoved, if_false]
      exact h.start_message i (.parts contents) jobs hnext (Nat.le_succ _)
        fun _ _ => ⟨hfresh hbound, Nat.lt_succ_self _⟩

/-- As long as no number is used twice, the receiver delivers the messages
whose packets all got through, in the order in which they were completed, and
nothing else. -/
theorem receive_run (hlimit : 1 < limit) (jobs : ι → List (ℕ → Message α))
    (schedule : List (ι × Bool))
    (hbound : ((System.initial (fun _ => ()) jobs : System ι Unit
      (ℕ → Message α) (Packet α) α).run (launch limit) schedule).drawn ≤
        limit) :
    let s := (System.initial (fun _ => ()) jobs : System ι Unit
      (ℕ → Message α) (Packet α) α).run (launch limit) schedule
    (s.output.foldl Receiver.receive Receiver.empty).out = s.complete := by
  have hinv := System.run_invariant
    (motive := fun s : System ι Unit (ℕ → Message α) (Packet α) α =>
      InStep limit s (s.output.foldl Receiver.receive Receiver.empty))
    (InStep.initial limit jobs) ?_ schedule hbound
  · exact hinv.out
  · rintro s ⟨i, keep⟩ h hdrawn
    rcases s.step_cases (launch limit) i keep with
      ⟨p, rest, hpending, hs⟩ | ⟨job, later, -, -, hs⟩ | ⟨-, -, hs⟩
    · have hsend := h.send keep hpending
      rw [hs]
      cases keep with
      | false => exact hsend
      | true => simpa [System.send, Receiver.receiveIf] using hsend
    · rw [hs] at hdrawn ⊢
      exact h.start hlimit i job later hdrawn
    · rwa [hs]

/-! ## When the counter goes round -/

section Reuse

variable {job : ℕ → Message α} {a b : List α}
  {s : System Unit Unit (ℕ → Message α) (Packet α) α}
  {jobs : List (ℕ → Message α)}

/-- A single sender between two messages. -/
structure Resting (s : System Unit Unit (ℕ → Message α) (Packet α) α)
    (counter : ℕ) (jobs : List (ℕ → Message α)) (output : List (Packet α)) :
    Prop where
  pending : (s.senders ()).pending = []
  jobs : (s.senders ()).jobs = jobs
  counter : s.counter = counter
  output : s.output = output
  complete : s.complete = []

variable (limit) in
theorem Resting.two_parts {n : ℕ} {output : List (Packet α)}
    (h : Resting s n (job :: jobs) output) (hjob : job n = .parts [a, b])
    (first second : Bool) (hlost : (first && second) = false) :
    Resting
      (s.run (launch limit) [((), false), ((), first), ((), second)])
      ((n + 1) % limit) jobs
      (output ++ (if first then [.part n 0 false a] else []) ++
        if second then [.part n 1 true b] else []) := by
  have hrun : s.run (launch limit)
      [((), false), ((), first), ((), second)] =
        ((s.start () (launch limit () () s.counter job) jobs).send () first
          (.part n 0 false a) [.part n 1 true b]).send () second
            (.part n 1 true b) [] := by
    simp [System.run, System.step, h.pending, h.jobs, System.start, launch,
      hjob, Message.packets, System.send, h.counter]
  rw [hrun]
  refine ⟨?_, ?_, ?_, ?_, ?_⟩
  · simp [System.send]
  · simp [System.send, System.start]
  · simp [System.send, System.start, launch, hjob, Message.nextId,
      h.counter]
  · cases first with
    | false =>
        cases second with
        | false => simp [System.send, System.start, h.output]
        | true => simp [System.send, System.start, h.output]
    | true =>
        cases second with
        | false => simp [System.send, System.start, h.output]
        | true => simp [System.send, System.start, h.output]
  · simp [System.send, System.start, h.complete, hlost]

theorem Resting.lost {n : ℕ} {output : List (Packet α)} (m : ℕ)
    (h : Resting s n (List.replicate m job ++ jobs) output)
    (hlimit : n < limit) (hjob : ∀ k < limit, job k = .parts [a, b]) :
    Resting
      (s.run (launch limit) (List.replicate m
        [((), false), ((), false), ((), false)]).flatten)
      ((n + m) % limit) jobs output := by
  induction m generalizing s n with
  | zero =>
      rw [Nat.add_zero, Nat.mod_eq_of_lt hlimit]
      exact h
  | succ m ih =>
      have hfirst : Resting
          (s.run (launch limit) [((), false), ((), false), ((), false)])
          ((n + 1) % limit) (List.replicate m job ++ jobs) output := by
        simpa using h.two_parts limit (hjob n hlimit) false false rfl
      have hrest := ih hfirst (Nat.mod_lt _ (Nat.zero_lt_of_lt hlimit))
      rw [List.replicate_succ, List.flatten_cons, System.run_append]
      have hsum : (n + (m + 1)) % limit = ((n + 1) % limit + m) % limit := by
        rw [Nat.mod_add_mod]
        congr 1
        omega
      rw [hsum]
      exact hrest

/-- One sender, messages in two parts, and one round of the counter: the first
part of the first message and the second part of the last one get through. -/
def reuseSchedule (limit : ℕ) : List (Unit × Bool) :=
  [((), false), ((), true), ((), false)] ++
    (List.replicate (limit - 1)
      [((), false), ((), false), ((), false)]).flatten ++
      [((), false), ((), false), ((), true)]

/-- After a round of the counter the receiver puts parts of two messages
together, although no message is complete. -/
theorem receive_reuse (hlimit : 1 < limit)
    (hjob : ∀ k < limit, job k = .parts [a, b]) :
    let s := (System.initial (fun _ => ())
      (fun _ => List.replicate (limit + 1) job) :
        System Unit Unit (ℕ → Message α) (Packet α) α).run (launch limit)
          (reuseSchedule limit)
    s.complete = [] ∧
      (s.output.foldl Receiver.receive Receiver.empty).out = [a ++ b] := by
  intro s
  have hzero : 0 < limit := Nat.zero_lt_of_lt hlimit
  have hjobs : List.replicate (limit + 1) job =
      job :: (List.replicate (limit - 1) job ++ [job]) := by
    rw [← List.replicate_succ', ← List.replicate_succ]
    congr 1
    omega
  have hinit : Resting (System.initial (fun _ => ())
      (fun _ => List.replicate (limit + 1) job)) 0
      (job :: (List.replicate (limit - 1) job ++ [job])) [] :=
    ⟨rfl, hjobs, rfl, rfl, rfl⟩
  have hfirst := hinit.two_parts limit (hjob 0 hzero) true false rfl
  rw [Nat.zero_add, Nat.mod_eq_of_lt hlimit] at hfirst
  have hlost := hfirst.lost (limit - 1) hlimit hjob
  rw [Nat.add_sub_cancel' hzero, Nat.mod_self] at hlost
  have hlast := hlost.two_parts limit (hjob 0 hzero) false true rfl
  rw [← System.run_append, ← System.run_append] at hlast
  have houtput : s.output = [.part 0 0 false a, .part 0 1 true b] :=
    hlast.output.trans (by simp)
  refine ⟨hlast.complete, ?_⟩
  rw [houtput]
  simp [Receiver.receive, Receiver.empty, put, isComplete, sortParts]

end Reuse

end Reassembly

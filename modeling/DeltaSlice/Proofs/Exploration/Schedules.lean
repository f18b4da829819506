import DeltaSlice.Proofs.Exploration.Labels
import DeltaSlice.Workers

/-!
Schedules of an exploration: in which order states are taken up and in which order the transitions from
different states are recorded is left open. Whatever the order, a record accounts for what was taken up:
every state is recorded once and waits or was taken up once, and the nodes are those of the transitions
that were recorded from states that were taken up.
-/

namespace DeltaSlice

open Simulator (Successors)

/-- The states that transitions lead to from a first one. -/
inductive Simulator.Reachable (s : Simulator) (first : State) : State → Prop
  | start : Reachable s first first
  | step {st : State} {found : Successors} {t : Transition} : Reachable s first st →
      (s.successors st).result = .ok found → t ∈ found.transitions → Reachable s first t.state

/-- The failures of the steps that leave a state. -/
def Simulator.failuresAt (s : Simulator) (st : State) : List Failure :=
  ((s.successors st).result.toOption.map (·.failures)).getD []

/-- An exploration under way. -/
structure Work where
  record : Interleaving
  incomplete : List Failure
  /-- The states that are recorded but were not taken up. -/
  waiting : List State
  /-- The states that were taken up, each with the transitions that are not recorded yet. -/
  active : List (State × List Transition)

/-- Nothing is left to do. -/
def Work.Done (w : Work) : Prop := w.waiting = [] ∧ w.active = []

/-- What can become of an exploration from a first state, and the states that were taken up for it: any
state that waits is taken up next, or any transition of a state that was taken up is recorded next. -/
inductive Schedule (s : Simulator) (first : State) : List State → Work → Prop
  | start : Schedule s first [] ⟨.start first, [], [first], []⟩
  | take {l : List State} {r : Interleaving} {fs : List Failure} {st : State} {waiting : List State}
      {active : List (State × List Transition)} {found : Successors} :
      Schedule s first l ⟨r, fs, st :: waiting, active⟩ → (s.successors st).result = .ok found →
      Schedule s first (l ++ [st])
        ⟨r, fs ++ found.failures, waiting, (st, found.transitions) :: active⟩
  | add {l : List State} {r r' : Interleaving} {fs : List Failure} {waiting : List State}
      {active : List (State × List Transition)} {st : State} {t : Transition} {ts : List Transition}
      {m : Nat} {new : Bool} :
      Schedule s first l ⟨r, fs, waiting, (st, t :: ts) :: active⟩ → r.add st t = .ok (m, new, r') →
      Schedule s first l ⟨r', fs, if new then t.state :: waiting else waiting, (st, ts) :: active⟩
  | finish {l : List State} {r : Interleaving} {fs : List Failure} {waiting : List State}
      {active : List (State × List Transition)} {st : State} :
      Schedule s first l ⟨r, fs, waiting, (st, []) :: active⟩ →
      Schedule s first l ⟨r, fs, waiting, active⟩
  | reorder {l : List State} {r : Interleaving} {fs : List Failure} {waiting waiting' : List State}
      {active active' : List (State × List Transition)} :
      Schedule s first l ⟨r, fs, waiting, active⟩ → waiting.Perm waiting' → active.Perm active' →
      Schedule s first l ⟨r, fs, waiting', active'⟩

namespace Schedule

open Interleaving Simulator

/-- What a record accounts for when the states `l` were taken up. -/
structure Accounts (s : Simulator) (first : State) (l : List State) (w : Work) : Prop where
  orderly : w.record.Orderly
  states : (w.record.states.map (·.2)).Perm (l ++ w.waiting)
  reachable : ∀ st ∈ l ++ w.waiting, s.Reachable first st
  taken : ∀ e ∈ w.active, e.1 ∈ l ∧ ∃ found, (s.successors e.1).result = .ok found ∧
    ∀ t ∈ e.2, t ∈ found.transitions
  /-- The transitions of a state that was taken up are recorded or will be. -/
  expanded : ∀ st ∈ l, ∃ found, (s.successors st).result = .ok found ∧ ∀ t ∈ found.transitions,
    .step st t ∈ w.record.labels ∨ ∃ e ∈ w.active, e.1 = st ∧ t ∈ e.2
  entry : .entry first ∈ w.record.labels
  labels : ∀ a ∈ w.record.labels, a = .entry first ∨ ∃ st ∈ l, ∃ found,
    (s.successors st).result = .ok found ∧ ∃ t ∈ found.transitions, a = .step st t
  incomplete : w.incomplete = l.flatMap s.failuresAt

variable {s : Simulator} {first st : State} {l waiting waiting' : List State} {w : Work}
  {r r' : Interleaving} {fs : List Failure} {active active' : List (State × List Transition)}

theorem Accounts.keys (h : Accounts s first l w) :
    w.record.keys.Perm ((l ++ w.waiting).map State.key) := by
  have own : w.record.keys = (w.record.states.map (·.2)).map State.key := by
    rw [List.map_map]
    exact List.map_congr_left h.orderly.own
  rw [own]
  exact h.states.map State.key

theorem accounts_start : Accounts s first [] ⟨.start first, [], [first], []⟩ where
  orderly := orderly_start first
  states := .refl _
  reachable st hst := List.mem_singleton.1 hst ▸ .start
  taken := by simp
  expanded := by simp
  entry := by simp [labels_start]
  labels a ha := .inl (List.mem_singleton.1 ha)
  incomplete := rfl

theorem Accounts.take {found : Successors} (h : Accounts s first l ⟨r, fs, st :: waiting, active⟩)
    (hfound : (s.successors st).result = .ok found) : Accounts s first (l ++ [st])
      ⟨r, fs ++ found.failures, waiting, (st, found.transitions) :: active⟩ where
  orderly := h.orderly
  states := by simpa using h.states
  reachable := by simpa using h.reachable
  taken := by
    intro e he
    rcases List.mem_cons.1 he with rfl | he
    · exact ⟨by simp, found, hfound, fun t ht => ht⟩
    · obtain ⟨mem, rest⟩ := h.taken e he
      exact ⟨List.mem_append_left _ mem, rest⟩
  expanded := by
    intro a ha
    rcases List.mem_append.1 ha with ha | ha
    · obtain ⟨found', hfound', all⟩ := h.expanded a ha
      refine ⟨found', hfound', fun t ht => (all t ht).imp_right fun later => ?_⟩
      obtain ⟨e, he, same⟩ := later
      exact ⟨e, List.mem_cons_of_mem _ he, same⟩
    · obtain rfl := List.mem_singleton.1 ha
      exact ⟨found, hfound, fun t ht => .inr ⟨_, List.mem_cons_self, rfl, ht⟩⟩
  entry := h.entry
  labels a ha := (h.labels a ha).imp_right fun earlier => by
    obtain ⟨b, hb, rest⟩ := earlier
    exact ⟨b, List.mem_append_left _ hb, rest⟩
  incomplete := by
    have := h.incomplete
    simp only at this
    simp [this, failuresAt, hfound, Except.toOption]

theorem Accounts.add {t : Transition} {ts : List Transition} {m : Nat} {new : Bool}
    (h : Accounts s first l ⟨r, fs, waiting, (st, t :: ts) :: active⟩)
    (hadd : r.add st t = .ok (m, new, r')) : Accounts s first l
      ⟨r', fs, if new then t.state :: waiting else waiting, (st, ts) :: active⟩ := by
  obtain ⟨orderly, recording, labels⟩ := h.orderly.add hadd
  obtain ⟨mem, found, hfound, left⟩ := h.taken _ List.mem_cons_self
  have reached : s.Reachable first t.state :=
    .step (h.reachable st (List.mem_append_left _ mem)) hfound (left t List.mem_cons_self)
  refine ⟨orderly, ?_, ?_, ?_, ?_, (labels _).2 (.inl h.entry), ?_, h.incomplete⟩
  · cases new with
    | false => simpa [(recording.old rfl).1] using h.states
    | true =>
        simp only [(recording.fresh rfl).1, if_true, List.map_append, List.map_singleton]
        refine (List.perm_append_comm.trans ?_).trans List.perm_middle.symm
        exact h.states.cons _
  · intro a ha
    cases new with
    | false => exact h.reachable a ha
    | true =>
        rcases List.mem_cons.1 (List.perm_middle.mem_iff.1 ha) with rfl | ha
        · exact reached
        · exact h.reachable a ha
  · intro e he
    rcases List.mem_cons.1 he with rfl | he
    · exact ⟨mem, found, hfound, fun u hu => left u (List.mem_cons_of_mem _ hu)⟩
    · exact h.taken e (List.mem_cons_of_mem _ he)
  · intro a ha
    obtain ⟨found', hfound', all⟩ := h.expanded a ha
    refine ⟨found', hfound', fun u hu => ?_⟩
    rcases all u hu with done | ⟨e, he, rfl, hu⟩
    · exact .inl ((labels _).2 (.inl done))
    · rcases List.mem_cons.1 he with rfl | he
      · rcases List.mem_cons.1 hu with rfl | hu
        · exact .inl ((labels _).2 (.inr rfl))
        · exact .inr ⟨_, List.mem_cons_self, rfl, hu⟩
      · exact .inr ⟨e, List.mem_cons_of_mem _ he, rfl, hu⟩
  · intro a ha
    rcases (labels a).1 ha with old | rfl
    · exact h.labels a old
    · exact .inr ⟨st, mem, found, hfound, t, left t List.mem_cons_self, rfl⟩

theorem Accounts.finish (h : Accounts s first l ⟨r, fs, waiting, (st, []) :: active⟩) :
    Accounts s first l ⟨r, fs, waiting, active⟩ where
  orderly := h.orderly
  states := h.states
  reachable := h.reachable
  taken e he := h.taken e (List.mem_cons_of_mem _ he)
  expanded := by
    intro a ha
    obtain ⟨found, hfound, all⟩ := h.expanded a ha
    refine ⟨found, hfound, fun t ht => (all t ht).imp_right fun later => ?_⟩
    obtain ⟨e, he, same, left⟩ := later
    rcases List.mem_cons.1 he with rfl | he
    · cases left
    · exact ⟨e, he, same, left⟩
  entry := h.entry
  labels := h.labels
  incomplete := h.incomplete

theorem Accounts.reorder (h : Accounts s first l ⟨r, fs, waiting, active⟩)
    (hwaiting : waiting.Perm waiting') (hactive : active.Perm active') :
    Accounts s first l ⟨r, fs, waiting', active'⟩ where
  orderly := h.orderly
  states := h.states.trans (hwaiting.append_left l)
  reachable a ha := h.reachable a ((hwaiting.append_left l).mem_iff.2 ha)
  taken e he := h.taken e (hactive.mem_iff.2 he)
  expanded a ha := by
    obtain ⟨found, hfound, all⟩ := h.expanded a ha
    refine ⟨found, hfound, fun t ht => (all t ht).imp_right fun later => ?_⟩
    obtain ⟨e, he, same⟩ := later
    exact ⟨e, hactive.mem_iff.1 he, same⟩
  entry := h.entry
  labels := h.labels
  incomplete := h.incomplete

/-- Every schedule is accounted for. -/
theorem accounts (h : Schedule s first l w) : Accounts s first l w := by
  induction h with
  | start => exact accounts_start
  | take _ hfound ih => exact ih.take hfound
  | add _ hadd ih => exact ih.add hadd
  | finish _ ih => exact ih.finish
  | reorder _ hwaiting hactive ih => exact ih.reorder hwaiting hactive

/-- No state is taken up twice. -/
theorem nodup_taken (h : Schedule s first l w) : (l.map State.key).Nodup := by
  have nodup := h.accounts.keys.nodup_iff.1 h.accounts.orderly.keys
  rw [List.map_append] at nodup
  exact (List.nodup_append.1 nodup).1

/-- A schedule goes on until nothing is left, unless the transitions from a state cannot be found. -/
theorem add_succeeds {t : Transition} {ts : List Transition}
    (h : Schedule s first l ⟨r, fs, waiting, (st, t :: ts) :: active⟩) :
    ∃ m new r', r.add st t = .ok (m, new, r') := by
  have mem := (h.accounts.taken _ List.mem_cons_self).1
  refine exists_add (h.accounts.keys.mem_iff.2 ?_) t
  exact List.mem_map_of_mem (List.mem_append_left _ mem)

end Schedule

end DeltaSlice

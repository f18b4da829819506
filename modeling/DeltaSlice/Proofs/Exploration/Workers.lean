import DeltaSlice.Proofs.Exploration.Schedules
import DeltaSlice.Proofs.Success
import DeltaSlice.Proofs.Worklist.Walk

/-!
The two ways to explore are schedules. A search takes up one state after the other. Workers take up
states and record transitions in any order; the states that they dropped when the bound was reached wait
for ever. So either way no state is expanded twice, no more states are expanded than allowed, and an
exploration that says that it is truncated has left a recorded state unexpanded, while one that does not
has expanded all of them.
-/

namespace DeltaSlice

open Simulator (Successors)

namespace Simulator

/-- A search from a first state, with the states that were expanded. -/
inductive Searches (s : Simulator) (b : Bounds) (first : State) : List State → Frontier → Prop
  | start : Searches s b first [] ⟨.start first, [], [first], 0, [.started]⟩
  | expand {l rest : List State} {x y : Frontier} {st : State} : Searches s b first l x →
      x.queue = st :: rest → mayExpand b x = true → (s.expand b x st rest).result = .ok y →
      Searches s b first (l ++ [st]) y

end Simulator

namespace Worker

/-- The states that a worker has not expanded yet. -/
def waiting : Worker → List State
  | ⟨.claim, own⟩ => own
  | ⟨.expand st, own⟩ => st :: own
  | ⟨.record _ _ _ new, own⟩ => new ++ own
  | ⟨.share new, own⟩ => new ++ own

/-- The transitions that a worker has found and not recorded. -/
def active : Worker → List (State × List Transition)
  | ⟨.record st _ ts _, _⟩ => [(st, ts)]
  | _ => []

/-- The state that a worker expands with its next action. -/
def expands? : Worker → Option State
  | ⟨.expand st, _⟩ => some st
  | _ => none

end Worker

namespace Pool

/-- Workers act one after the other in any order, and another one may begin whenever there is something to
hand over. `l` are the states that were expanded. -/
inductive Runs (s : Simulator) (b : Bounds) (first : State) : List State → Pool → Prop
  | start : Runs s b first [] (.start b first)
  | act {l : List State} {p p' : Pool} {i : Nat} {canceled free : Bool} : Runs s b first l p →
      (p.act s b canceled i free).result = .ok p' →
      Runs s b first (l ++ (p.workers[i]?.bind Worker.expands?).toList) p'

/-- What became of the states of a pool: they wait with a worker or were lost. -/
def work (p : Pool) (lost : List State) : Work :=
  ⟨p.record, p.incomplete, p.workers.flatMap Worker.waiting ++ lost, p.workers.flatMap Worker.active⟩

/-- How many workers may expand a state. -/
def granted (p : Pool) : Nat := p.workers.countP fun w => w.expands?.isSome

/-- States are lost only when the bound is reached, and then the record is truncated. -/
structure Covered (s : Simulator) (b : Bounds) (first : State) (l : List State) (p : Pool)
    (lost : List State) : Prop where
  schedule : Schedule s first l (p.work lost)
  truncated : p.truncated = true ↔ lost ≠ []
  bounded : p.truncated = true → 0 < b.maxStates
  within : 0 < b.maxStates → l.length + p.granted ≤ p.claims ∧ (l.length + p.granted : Int) ≤ b.maxStates

variable {s : Simulator} {b : Bounds} {first st : State} {l own new lost : List State}
  {p p' : Pool} {w w' : Worker} {others : List Worker} {i : Nat}

/-- The workers of a pool, in any order. -/
def among (p : Pool) (ws : List Worker) : Pool := { p with workers := ws }

theorem Covered.perm {ws : List Worker} (h : Covered s b first l p lost) (same : p.workers.Perm ws) :
    Covered s b first l (p.among ws) lost where
  schedule := h.schedule.reorder ((same.flatMap_right _).append_right _) (same.flatMap_right _)
  truncated := h.truncated
  bounded := h.bounded
  within positive := by
    have count : (p.among ws).granted = p.granted := (same.countP_eq _).symm
    rw [count]
    exact h.within positive

/-- A worker that stays where it is, has the same states and finds nothing. -/
theorem Covered.stay (h : Covered s b first l (p.among (w :: others)) lost)
    (waiting : w.waiting.Perm w'.waiting) (active : w'.active = w.active)
    (granted : w'.expands? = w.expands?) : Covered s b first l (p.among (w' :: others)) lost where
  schedule := by
    refine h.schedule.reorder ?_ (by simp [among, active])
    simpa [among] using (waiting.append_right _).append_right _
  truncated := h.truncated
  bounded := h.bounded
  within positive := by
    have := h.within positive
    simpa [Pool.granted, among, List.countP_cons, granted] using this

theorem Covered.leave (h : Covered s b first l (p.among (⟨.claim, []⟩ :: others)) lost) :
    Covered s b first l (p.among others) lost where
  schedule := h.schedule
  truncated := h.truncated
  bounded := h.bounded
  within := h.within

theorem covered_start : Covered s b first [] (.start b first) [] where
  schedule := .start
  truncated := by simp [start]
  bounded := by simp [start]
  within positive := by simpa [start, Pool.granted, Worker.expands?] using positive.le

/-- The bound allows another state. -/
theorem Covered.grant {c : Nat} (h : Covered s b first l (p.among (⟨.claim, st :: own⟩ :: others)) lost)
    (allowed : 0 < b.maxStates → c = p.claims + 1 ∧ c ≤ b.maxStates) :
    Covered s b first l ({ p with claims := c }.among (⟨.expand st, own⟩ :: others)) lost where
  schedule := h.schedule
  truncated := h.truncated
  bounded := h.bounded
  within positive := by
    obtain ⟨claims, states⟩ := h.within positive
    obtain ⟨rfl, le⟩ := allowed positive
    simp only [Pool.granted, among, List.countP_cons, Worker.expands?, Option.isSome_none,
      Option.isSome_some, if_true] at claims states ⊢
    simp at claims states
    omega

/-- The bound is reached: the worker ends, and its states are lost. -/
theorem Covered.refuse (h : Covered s b first l (p.among (⟨.claim, st :: own⟩ :: others)) lost)
    (positive : 0 < b.maxStates) :
    Covered s b first l ({ p with claims := p.claims + 1, truncated := true }.among others)
      (st :: own ++ lost) where
  schedule := by
    refine h.schedule.reorder ?_ (.refl _)
    simp only [among, List.flatMap_cons, Worker.waiting, List.append_assoc]
    exact List.perm_append_comm_assoc ..
  truncated := by simp [among]
  bounded _ := positive
  within positive := by
    obtain ⟨claims, states⟩ := h.within positive
    exact ⟨claims.trans (Nat.le_succ _), states⟩

theorem Covered.claim (h : Covered s b first l (p.among (⟨.claim, st :: own⟩ :: others)) lost)
    (back : ∀ w', (w' :: others).Perm (p.workers.set i w')) (out : others.Perm (p.workers.eraseIdx i)) :
    ∃ lost, Covered s b first l (p.claim b i st own) lost := by
  simp only [Pool.claim]
  split
  · rename_i unbounded
    refine ⟨lost, (h.grant fun positive => ?_).perm (back _)⟩
    omega
  · split
    · rename_i allowed
      exact ⟨lost, (h.grant fun _ => ⟨rfl, allowed⟩).perm (back _)⟩
    · exact ⟨_, (h.refuse (by omega)).perm out⟩

theorem Covered.expand {found : Successors}
    (h : Covered s b first l (p.among (⟨.expand st, own⟩ :: others)) lost)
    (hfound : (s.successors st).result = .ok found) (log : List LogLine) :
    Covered s b first (l ++ [st])
      ({ p with incomplete := p.incomplete ++ found.failures, log := log }.among
        (⟨.record st found.transitions.length found.transitions [], own⟩ :: others)) lost where
  schedule := .take h.schedule hfound
  truncated := h.truncated
  bounded := h.bounded
  within positive := by
    have := h.within positive
    simp only [Pool.granted, among, List.countP_cons, Worker.expands?, Option.isSome_some, if_true,
      Option.isSome_none, List.length_append, List.length_singleton] at this ⊢
    simp
    omega

theorem Covered.record {t : Transition} {ts : List Transition} {n m : Nat} {isNew : Bool}
    {r : Interleaving}
    (h : Covered s b first l (p.among (⟨.record st n (t :: ts) new, own⟩ :: others)) lost)
    (hadd : p.record.add st t = .ok (m, isNew, r)) :
    Covered s b first l ({ p with record := r }.among
      (⟨.record st n ts (if isNew then new ++ [t.state] else new), own⟩ :: others)) lost where
  schedule := by
    refine (Schedule.add h.schedule hadd).reorder ?_ (.refl _)
    cases isNew with
    | false => exact .refl _
    | true =>
        simp only [among, List.flatMap_cons, Worker.waiting, if_true, List.append_assoc,
          List.singleton_append]
        exact List.perm_middle.symm
  truncated := h.truncated
  bounded := h.bounded
  within := h.within

theorem Covered.recorded {n : Nat} (log : List LogLine)
    (h : Covered s b first l (p.among (⟨.record st n [] new, own⟩ :: others)) lost) :
    Covered s b first l ({ p with log := log }.among (⟨.share new, own⟩ :: others)) lost where
  schedule := .finish h.schedule
  truncated := h.truncated
  bounded := h.bounded
  within := h.within

theorem Covered.spawn (h : Covered s b first l (p.among (⟨.share (st :: new), own⟩ :: others)) lost) :
    Covered s b first l (p.among (⟨.share new, own⟩ :: ⟨.claim, [st]⟩ :: others)) lost where
  schedule := by
    refine h.schedule.reorder ?_ (.refl _)
    have moved (rest : List State) : (st :: (new ++ own ++ rest)).Perm (new ++ own ++ st :: rest) :=
      List.perm_middle.symm
    simpa [among, Worker.waiting] using moved _
  truncated := h.truncated
  bounded := h.bounded
  within := h.within

/-- A worker among the others: it can be put back changed or be left out. -/
theorem exists_others {ws : List Worker} (here : ws[i]? = some w) : ∃ others, ws.Perm (w :: others) ∧
    (∀ w', (w' :: others).Perm (ws.set i w')) ∧ others.Perm (ws.eraseIdx i) := by
  obtain ⟨lt, rfl⟩ := List.getElem?_eq_some_iff.1 here
  exact ⟨ws.eraseIdx i, (List.getElem_cons_eraseIdx_perm lt).symm,
    fun w' => (List.set_perm_cons_eraseIdx lt w').symm, .refl _⟩

/-- What one action of a worker leads to. -/
theorem Covered.act {canceled free : Bool} (h : Covered s b first l p lost)
    (hact : (p.act s b canceled i free).result = .ok p') : ∃ lost,
      Covered s b first (l ++ (p.workers[i]?.bind Worker.expands?).toList) p' lost := by
  unfold Pool.act at hact
  cases here : p.workers[i]? with
  | none =>
      rw [here] at hact
      obtain rfl : p = p' := by simpa using hact
      exact ⟨lost, by simpa using h⟩
  | some w =>
      rw [here] at hact
      obtain ⟨others, same, back, out⟩ := exists_others here
      have h := h.perm same
      obtain ⟨phase, own⟩ := w
      cases phase with
      | claim =>
          simp only [Option.bind_some, Worker.expands?, Option.toList_none, List.append_nil]
          cases own with
          | nil =>
              obtain rfl : p.leave i = p' := by simpa using hact
              exact ⟨lost, h.leave.perm out⟩
          | cons st own =>
              cases canceled with
              | true => cases hact
              | false =>
                  obtain rfl : p.claim b i st own = p' := by simpa using hact
                  exact h.claim back out
      | expand st =>
          simp only [Run.result_bind] at hact
          obtain ⟨found, hfound, hact⟩ := Success.bind_iff.1 hact
          split at hact
          · cases hact
          · obtain rfl := Except.ok.inj hact
            exact ⟨lost, (h.expand hfound _).perm (back _)⟩
      | record st n ts new =>
          simp only [Option.bind_some, Worker.expands?, Option.toList_none, List.append_nil]
          cases ts with
          | nil =>
              obtain rfl := Except.ok.inj hact
              exact ⟨lost, (h.recorded (.expanded n new.length :: p.log)).perm (back _)⟩
          | cons t ts =>
              simp only [Run.result_bind, Run.result_ofFault] at hact
              obtain ⟨⟨m, isNew, r⟩, hadd, hact⟩ := Success.bind_iff.1 hact
              obtain rfl := Except.ok.inj hact
              exact ⟨lost, (h.record (Success.mapError_iff.1 hadd)).perm (back _)⟩
      | share new =>
          simp only [Option.bind_some, Worker.expands?, Option.toList_none, List.append_nil]
          refine ⟨lost, ?_⟩
          cases new with
          | nil =>
              obtain rfl := Except.ok.inj hact
              have h : Covered s b first l (p.among (⟨.claim, own⟩ :: others)) lost :=
                h.stay (.refl _) rfl rfl
              exact h.perm (back _)
          | cons st new =>
              obtain rfl := Except.ok.inj hact
              cases free with
              | true =>
                  have last : (⟨.share new, own⟩ :: ⟨.claim, [st]⟩ :: others).Perm
                      (p.workers.set i ⟨.share new, own⟩ ++ [⟨.claim, [st]⟩]) :=
                    ((List.Perm.swap ..).trans ((back _).cons _)).trans
                      (List.perm_append_singleton ..).symm
                  exact h.spawn.perm last
              | false =>
                  have h : Covered s b first l (p.among (⟨.share new, st :: own⟩ :: others)) lost :=
                    h.stay List.perm_middle.symm rfl rfl
                  exact h.perm (back _)

/-- Runs of workers are covered by schedules. -/
theorem Runs.covered (h : Runs s b first l p) : ∃ lost, Covered s b first l p lost := by
  induction h with
  | start => exact ⟨[], covered_start⟩
  | act _ hact ih =>
      obtain ⟨lost, h⟩ := ih
      exact h.act hact

/-- Taking turns is one of the runs. -/
theorem Runs.of_run {canceled : Bool} {fuel turn : Nat} {reports : List Report} {e : Exploration}
    (h : Runs s b first l p) (hrun : (p.run s b canceled fuel turn reports).result = .ok e) :
    ∃ l p, Runs s b first l p ∧ p.workers = [] ∧ e = p.conclude := by
  induction fuel generalizing l p turn reports with
  | zero => cases hrun
  | succ fuel ih =>
      unfold Pool.run at hrun
      simp only at hrun
      split at hrun
      · rename_i ended
        obtain rfl := Except.ok.inj hrun
        exact ⟨l, p, h, List.isEmpty_iff.1 ended, rfl⟩
      · split at hrun
        · rename_i p' hact
          exact ih (h.act hact) hrun
        · cases hrun

end Pool

theorem Schedule.addAll {s : Simulator} {first st : State} {l waiting new : List State}
    {r r' : Interleaving} {fs : List Failure} {ts : List Transition}
    (h : Schedule s first l ⟨r, fs, waiting, [(st, ts)]⟩)
    (hadd : Interleaving.addAll st r ts = .ok (r', new)) :
    Schedule s first l ⟨r', fs, waiting ++ new, []⟩ := by
  induction ts generalizing r waiting new with
  | nil =>
      obtain ⟨rfl, rfl⟩ := Prod.mk.inj (Except.ok.inj hadd)
      simpa using h.finish
  | cons t ts ih =>
      unfold Interleaving.addAll at hadd
      split at hadd
      · cases hadd
      · rename_i m isNew r₁ hfirst
        obtain ⟨⟨r₂, rest⟩, hrest, same⟩ := Success.map_iff.1 hadd
        obtain ⟨rfl, rfl⟩ := Prod.mk.inj same
        have done := ih (h.add hfirst) hrest
        cases isNew with
        | false => exact done
        | true => exact done.reorder List.perm_middle.symm (.refl _)

namespace Simulator

variable {s : Simulator} {b : Bounds} {first : State} {l : List State} {x : Frontier}

/-- Searches are schedules, and count the states that were expanded. -/
theorem Searches.schedule (h : s.Searches b first l x) :
    Schedule s first l ⟨x.record, x.incomplete, x.queue, []⟩ ∧ x.expanded = l.length ∧
      (0 < b.maxStates → (l.length : Int) ≤ b.maxStates) := by
  induction h with
  | start => exact ⟨.start, rfl, fun positive => positive.le⟩
  | @expand l rest x y st _ queue allowed hexpand ih =>
      obtain ⟨schedule, count, within⟩ := ih
      simp only [Simulator.expand, Run.result_bind] at hexpand
      obtain ⟨found, hfound, hexpand⟩ := Success.bind_iff.1 hexpand
      split at hexpand
      · cases hexpand
      · simp only [Run.result_bind, Run.result_ofFault] at hexpand
        obtain ⟨⟨r, new⟩, hadd, hy⟩ := Success.bind_iff.1 hexpand
        obtain rfl := Except.ok.inj hy
        rw [queue] at schedule
        refine ⟨(schedule.take hfound).addAll (Success.mapError_iff.1 hadd), by simp [count], ?_⟩
        intro positive
        simp only [mayExpand, Bool.or_eq_true, decide_eq_true_eq] at allowed
        simp
        omega

/-- How explorations end, with the states that were expanded. -/
inductive Ends (s : Simulator) (b : Bounds) (first : State) : List State → Exploration → Prop
  | workers {l : List State} {p : Pool} : Pool.Runs s b first l p → p.workers = [] →
      Ends s b first l p.conclude
  | emptied {l : List State} {x : Frontier} : s.Searches b first l x → x.queue = [] →
      Ends s b first l (conclude x false)
  | bounded {l : List State} {x : Frontier} : s.Searches b first l x → x.queue ≠ [] →
      mayExpand b x = false → Ends s b first l (conclude x true)

theorem Searches.ends {canceled : Bool} {fuel : Nat} {reports : List Report} {e : Exploration}
    (h : s.Searches b first l x) (hrun : (s.exploreFrom b canceled fuel reports x).result = .ok e) :
    ∃ l, s.Ends b first l e := by
  induction fuel generalizing l x reports with
  | zero => cases hrun
  | succ fuel ih =>
      unfold exploreFrom at hrun
      split at hrun
      · rename_i queue
        obtain rfl := Except.ok.inj hrun
        exact ⟨l, .emptied h queue⟩
      · rename_i st rest queue
        split at hrun
        · cases hrun
        · split at hrun
          · rename_i allowed
            simp only at hrun
            split at hrun
            · rename_i y hexpand
              exact ih (h.expand queue allowed hexpand) hrun
            · cases hrun
          · rename_i refused
            obtain rfl := Except.ok.inj hrun
            exact ⟨l, .bounded h (by simp [queue]) (Bool.eq_false_iff.2 refused)⟩

/-- Every exploration that gives a result is a run of workers or a search. -/
theorem ends_of_explore {canceled : Bool} {e : Exploration} (hfirst : s.initial = .ok first)
    (h : (s.explore b canceled).result = .ok e) : ∃ l, s.Ends b first l e := by
  unfold explore at h
  rw [hfirst] at h
  simp only at h
  split at h
  · obtain ⟨l, p, runs, ended, rfl⟩ := Pool.Runs.start.of_run h
    exact ⟨l, .workers runs ended⟩
  · exact Searches.start.ends h

/-- Without a bound, an exploration that ends has completed a schedule. -/
theorem Ends.schedule {e : Exploration} (h : s.Ends b first l e) (unbounded : b.maxStates ≤ 0) :
    ∃ w, Schedule s first l w ∧ w.Done ∧ w.record = e.record ∧ w.incomplete = e.incomplete := by
  cases h with
  | @workers p runs ended =>
      obtain ⟨lost, covered⟩ := runs.covered
      have kept : lost = [] := by
        by_contra some
        have := covered.bounded (covered.truncated.2 some)
        omega
      exact ⟨_, covered.schedule, ⟨by simp [Pool.work, ended, kept], by simp [Pool.work, ended]⟩, rfl, rfl⟩
  | emptied searches queue => exact ⟨_, searches.schedule.1, ⟨queue, rfl⟩, rfl, rfl⟩
  | bounded _ _ refused =>
      simp only [mayExpand, Bool.or_eq_false_iff, decide_eq_false_iff_not] at refused
      exact absurd unbounded refused.1

end Simulator

namespace Examples

/-- Two threads have nothing to do, and a third one stops the simulation. -/
def race : Simulator :=
  untracked (single [] [] [⟨"a", [], [], false⟩, ⟨"b", [], [], false⟩,
    ⟨"c", [.stop 0], [], false⟩]) .none

end Examples

/-- No state was expanded twice, each is recorded, and the bound was kept. -/
structure ExpandedOnce (b : Bounds) (l : List State) (r : Interleaving) : Prop where
  once : (l.map State.key).Nodup
  recorded : ∀ st ∈ l, st.key ∈ r.keys
  within : 0 < b.maxStates → (l.length : Int) ≤ b.maxStates

/-- A recorded state was not expanded. -/
def LeftOut (l : List State) (r : Interleaving) : Prop := ∃ k ∈ r.keys, k ∉ l.map State.key

variable {s : Simulator} {b : Bounds} {first : State} {l waiting : List State}

namespace Schedule

variable {w : Work}

theorem recorded (h : Schedule s first l w) {st : State} (hst : st ∈ l) : st.key ∈ w.record.keys :=
  h.accounts.keys.mem_iff.2 (List.mem_map_of_mem (List.mem_append_left _ hst))

/-- What waits was not taken up, and nothing else that is recorded was not. -/
theorem leftOut_iff (h : Schedule s first l w) : LeftOut l w.record ↔ w.waiting ≠ [] := by
  have keys := h.accounts.keys
  have nodup := keys.nodup_iff.1 h.accounts.orderly.keys
  rw [List.map_append] at nodup keys
  constructor
  · rintro ⟨k, hk, untaken⟩ none
    rw [none] at keys
    exact untaken (by simpa using keys.mem_iff.1 hk)
  · intro some
    obtain ⟨st, hst⟩ := List.exists_mem_of_ne_nil _ some
    have later := List.mem_map_of_mem hst (f := State.key)
    refine ⟨st.key, keys.mem_iff.2 (List.mem_append_right _ later), fun taken => ?_⟩
    exact (List.nodup_append.1 nodup).2.2 _ taken _ later rfl

end Schedule

theorem Pool.Runs.expandedOnce {p : Pool} (h : Pool.Runs s b first l p) : ExpandedOnce b l p.record := by
  obtain ⟨lost, covered⟩ := h.covered
  refine ⟨covered.schedule.nodup_taken, fun st hst => covered.schedule.recorded hst, fun positive => ?_⟩
  have := (covered.within positive).2
  omega

theorem Simulator.Searches.expandedOnce {x : Frontier} (h : s.Searches b first l x) :
    ExpandedOnce b l x.record := by
  obtain ⟨schedule, -, within⟩ := h.schedule
  exact ⟨schedule.nodup_taken, fun st hst => schedule.recorded hst, within⟩

theorem Simulator.Ends.truncated_iff {e : Exploration} (h : s.Ends b first l e) :
    e.truncated = true ↔ LeftOut l e.record := by
  cases h with
  | @workers p runs ended =>
      obtain ⟨lost, covered⟩ := runs.covered
      have left := covered.schedule.leftOut_iff
      have waiting : (p.work lost).waiting = lost := by simp [Pool.work, ended]
      rw [waiting, ← covered.truncated] at left
      exact left.symm
  | emptied searches queue =>
      have left := searches.schedule.1.leftOut_iff
      simpa [conclude, queue] using left
  | bounded searches queue _ =>
      have left := searches.schedule.1.leftOut_iff
      simpa [conclude, queue] using left

/-- At every moment of every run of workers, and of every search, states were expanded at most once and
within the bound; and what ends is truncated if and only if it left a recorded state out. All
explorations end in one of these ways. -/
theorem explorations_within_bound (s : Simulator) (b : Bounds) (first : State) :
    (∀ l p, Pool.Runs s b first l p → ExpandedOnce b l p.record) ∧
    (∀ l x, s.Searches b first l x → ExpandedOnce b l x.record) ∧
    (∀ l e, s.Ends b first l e → (e.truncated = true ↔ LeftOut l e.record)) ∧
    ∀ canceled e, s.initial = .ok first → (s.explore b canceled).result = .ok e →
      ∃ l, s.Ends b first l e :=
  ⟨fun _ _ h => h.expandedOnce, fun _ _ h => h.expandedOnce, fun _ _ h => h.truncated_iff,
    fun _ _ hfirst h => Simulator.ends_of_explore hfirst h⟩

open Examples in
/-- Two workers may expand three of the states of the race. -/
theorem explorations_within_bound_race : ∃ first l e, race.initial = .ok first ∧
    (race.explore ⟨2, 3, .skip⟩ false).result = .ok e ∧ race.Ends ⟨2, 3, .skip⟩ first l e ∧
    e.truncated = true ∧ LeftOut l e.record := by
  obtain ⟨first, hfirst, -⟩ := Success.exists_of_yields (x := race.initial) (c := fun _ => true)
    (by decide +kernel)
  obtain ⟨e, he, truncated⟩ := Success.exists_of_yields
    (x := (race.explore ⟨2, 3, .skip⟩ false).result) (c := (·.truncated)) (by decide +kernel)
  obtain ⟨-, -, truncated_iff, ended⟩ := explorations_within_bound race ⟨2, 3, .skip⟩ first
  obtain ⟨l, ends⟩ := ended false e hfirst he
  exact ⟨first, l, e, hfirst, he, ends, truncated, (truncated_iff l e ends).1 truncated⟩

end DeltaSlice

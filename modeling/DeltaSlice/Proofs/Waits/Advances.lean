import DeltaSlice.Proofs.Safety.Cycles
import DeltaSlice.Proofs.Waits.Bare

/-!
Advances of the simulation go through: time is only taken from what is longer, and the observer takes what it
is told as long as it knows what was learned before and whoever hears of an event has a frame to go on with.
-/

namespace DeltaSlice

/-- A computation breaks only where something is not defined. -/
def OnlyUndefined {α : Type} (x : Except Fault α) : Prop := ∀ f, x = .error f → f = .undefined

namespace OnlyUndefined

variable {α β : Type} {x : Except Fault α}

theorem ok (a : α) : OnlyUndefined (.ok a) := fun _ h => nomatch h

theorem undefined : OnlyUndefined (.error .undefined : Except Fault α) := fun _ h =>
  (Except.error.inj h).symm

theorem bind {f : α → Except Fault β} (h : OnlyUndefined x) (next : ∀ a, OnlyUndefined (f a)) :
    OnlyUndefined (x >>= f) := by
  cases x with
  | ok a => exact next a
  | error e => exact fun e' he' => h e' (congrArg Except.error (Except.error.inj he'))

theorem map (f : α → β) (h : OnlyUndefined x) : OnlyUndefined (x.map f) := by
  cases x with
  | ok a => exact .ok _
  | error e => exact fun e' he' => h e' (by simpa [Except.map] using he')

theorem foldlM {f : β → α → Except Fault β} {l : List α} {b : β} (step : ∀ b a, OnlyUndefined (f b a)) :
    OnlyUndefined (l.foldlM f b) := by
  induction l generalizing b with
  | nil => exact .ok b
  | cons a l ih => exact (step b a).bind fun c => ih

end OnlyUndefined

namespace Pdg

variable {g : Pdg} {n : Nat}

theorem addEdge_onlyUndefined {k : EdgeKind} {source target : Nat} :
    OnlyUndefined (g.addEdge k source target) := by
  refine OnlyUndefined.map _ ?_
  unfold insertEdge
  split
  · split <;> exact .ok _
  · exact .undefined

theorem readBy_onlyUndefined {v : Variable} : OnlyUndefined (g.readBy v n) := by
  unfold readBy
  split
  · exact addEdge_onlyUndefined
  · split
    · exact addEdge_onlyUndefined.bind fun _ => .foldlM fun _ _ => addEdge_onlyUndefined
    · exact .foldlM fun _ _ => addEdge_onlyUndefined

end Pdg

theorem Dependence.woken_onlyUndefined {t : Transition} {p : Process} {events : List Event}
    {before : EventList} {g : Pdg} : OnlyUndefined (woken t p events before g) := by
  unfold woken
  dsimp only
  -- What is defined last depends on where the process resumes, if it does.
  cases (t.state.procs[p.index]?).bind (·.resumption?) with
  | none =>
      split
      · exact (OnlyUndefined.ok _).bind fun _ => .undefined
      · refine (OnlyUndefined.foldlM fun _ _ => Pdg.readBy_onlyUndefined).bind fun _ => ?_
        exact (OnlyUndefined.ok _).bind fun _ => .undefined
  | some stack =>
      split
      · exact (OnlyUndefined.ok _).bind fun _ => .ok _
      · refine (OnlyUndefined.foldlM fun _ _ => Pdg.readBy_onlyUndefined).bind fun _ => ?_
        exact (OnlyUndefined.ok _).bind fun _ => .ok _

namespace Observer

theorem waitedForDelta_result (o : Observer) (p : Process) : (o.waitedForDelta p).result = .ok () := by
  induction o with
  | none | readWrite _ | pdg _ => rfl
  | pair a b iha ihb =>
      rw [waitedForDelta, Run.result_bind, iha]
      exact ihb
  | recording o ih => exact ih

theorem waitedForTime_result (o : Observer) (p : Process) : (o.waitedForTime p).result = .ok () := by
  induction o with
  | none | readWrite _ | pdg _ => rfl
  | pair a b iha ihb =>
      rw [waitedForTime, Run.result_bind, iha]
      exact ihb
  | recording o ih => exact ih

theorem waitedForEvents_undefined {o : Observer} {t : Transition} {p : Process} {events : List Event}
    {before : EventList} {x : Halt} (h : (o.waitedForEvents t p events before).result = .error x) :
    x = .broken .undefined := by
  induction o generalizing t x with
  | none | readWrite _ => cases h
  | pdg triggers =>
      unfold waitedForEvents at h
      split at h
      · cases h
      · rw [Run.result_ofFault] at h
        cases hw : (Dependence.woken t p events before _).map Info.pdg with
        | ok i =>
            rw [hw] at h
            cases h
        | error f =>
            rw [hw] at h
            obtain rfl := Dependence.woken_onlyUndefined.map _ f hw
            exact (Except.error.inj h).symm
      · exact (Except.error.inj h).symm
  | pair a b iha ihb =>
      unfold waitedForEvents at h
      split at h
      · rw [Run.result_bind] at h
        cases ha : (a.waitedForEvents _ p events before).result with
        | error f =>
            rw [ha] at h
            obtain rfl : f = x := Except.error.inj h
            exact iha ha
        | ok i =>
            rw [ha] at h
            replace h : (_ >>= fun y => pure (Info.pair i y) : Step Info).result = .error x := h
            rw [Run.result_bind] at h
            cases hb : (b.waitedForEvents _ p events before).result with
            | error f =>
                rw [hb] at h
                obtain rfl : f = x := Except.error.inj h
                exact ihb hb
            | ok j =>
                rw [hb] at h
                cases h
      · exact (Except.error.inj h).symm
  | recording o ih => exact ih h

end Observer

namespace Simulator

variable {s : Simulator} {t u : Transition} {p : Process} {ps : List Process}

/-- The observer can be told of events: it knows what was learned, and whoever waits for events has a
frame at which it resumes. -/
def Attended (s : Simulator) (t : Transition) : Prop :=
  s.setup.observer.Fits none t.info ∧
    ∀ ps ∈ t.state.procs, Happening.listens ps.blocker = true → ps.stack ≠ []

/-- `u` is met on an advance from `t`. -/
structure Along (s : Simulator) (t u : Transition) : Prop where
  bare : u.state.bare = t.state.bare
  fits : s.Attended t → s.setup.observer.Fits none u.info

/-- A part of an advance from `t` stays on it and establishes something, or the observer could not be
told. -/
def Advancing (s : Simulator) (t : Transition) (P : Transition → Prop) : Except Halt Transition → Prop
  | .ok u => s.Along t u ∧ P u
  | .error h => h = .broken .undefined ∧ ¬ s.Attended t

namespace Advancing

variable {P Q : Transition → Prop} {x : Except Halt Transition}

theorem mono (h : s.Advancing t P x) (weaker : ∀ u, x = .ok u → P u → Q u) : s.Advancing t Q x := by
  cases x with
  | ok u => exact ⟨h.1, weaker u rfl h.2⟩
  | error e => exact h

theorem run_bind {y : Step Transition} {f : Transition → Step Transition} (h : s.Advancing t P y.result)
    (next : ∀ u, s.Along t u → P u → s.Advancing t Q (f u).result) :
    s.Advancing t Q (y >>= f).result := by
  rw [Run.result_bind]
  cases hy : y.result with
  | ok u =>
      rw [hy] at h
      exact next u h.1 h.2
  | error e =>
      rw [hy] at h
      exact h

end Advancing

theorem Along.refl (t : Transition) : s.Along t t := ⟨rfl, fun attended => attended.1⟩

theorem Along.block {q : ProcessState} (along : s.Along t u) (found : u.state.procs[p.index]? = some q)
    (b : Option Blocker) : s.Along t (u.setProc p (q.block b)) :=
  ⟨(State.bare_block found b).trans along.bare, along.fits⟩

theorem Along.withGlobal {g : GlobalState} (along : s.Along t u)
    (same : State.bare { u.state with global := g } = u.state.bare) :
    s.Along t { u with state := { u.state with global := g } } :=
  ⟨same.trans along.bare, along.fits⟩

section

variable (placed : s.Placed) (peopled : t.state.procs.length = s.procs.length)

include placed peopled in
/-- All processes are there. -/
theorem Along.found (along : s.Along t u) (hp : p ∈ s.procs) : ∃ q, u.state.procs[p.index]? = some q := by
  obtain ⟨i, hi⟩ := List.mem_iff_getElem?.1 hp
  have inside : i < u.state.procs.length := by
    rw [State.length_of_bare along.bare, peopled]
    exact (List.getElem?_eq_some_iff.1 hi).1
  rw [placed i p hi]
  exact ⟨_, List.getElem?_eq_getElem inside⟩

include placed peopled in
theorem notifyProcess_advancing (along : s.Along t u) (hp : p ∈ s.processesWith t.state waitsForEvents)
    (notified : List Event) : s.Advancing t (fun _ => True) (s.notifyProcess u p notified).result := by
  obtain ⟨known, listens⟩ := List.mem_filter.1 hp
  obtain ⟨q, found⟩ := along.found placed peopled known
  obtain ⟨q₀, found₀⟩ := (Along.refl t).found placed peopled known
  rw [found₀] at listens
  have framed : s.Attended t → q.stack ≠ [] := by
    intro attended
    have stack := State.framesOf?_of_bare along.bare p.index
    simp only [State.framesOf?, found, found₀, Option.map_some, Option.some.injEq] at stack
    rw [stack]
    exact attended.2 q₀ (List.mem_of_getElem? found₀) listens
  unfold notifyProcess
  rw [found]
  dsimp only
  split
  · rename_i l waits
    split
    · exact ⟨along, trivial⟩
    · generalize (if (l.events.filter fun e => !notified.contains e).isEmpty || l.choice then none
        else some (Blocker.events (l.withEvents (l.events.filter fun e => !notified.contains e)))) = b
      have blocked := along.block found b
      have resumes : (u.setProc p (q.block b)).state.procs[p.index]? = some (q.block b) :=
        List.getElem?_set_self (List.getElem?_eq_some_iff.1 found).1
      have told : s.Attended t → Unbroken (s.setup.observer.Fits none)
          (s.setup.observer.waitedForEvents (u.setProc p (q.block b)) p (l.events.filter notified.contains)
            l).result :=
        fun attended => Observer.waitedForEvents_unbroken (blocked.fits attended) resumes (framed attended)
      rw [Run.result_bind]
      cases hi : (s.setup.observer.waitedForEvents (u.setProc p (q.block b)) p
          (l.events.filter notified.contains) l).result with
      | ok i => exact ⟨⟨blocked.bare, fun attended => (told attended).result hi⟩, trivial⟩
      | error e =>
          obtain rfl := Observer.waitedForEvents_undefined hi
          exact ⟨rfl, fun attended => (told attended).ne_broken _ hi⟩
  · exact ⟨along, trivial⟩

include placed peopled in
theorem notifyProcesses_advancing (along : s.Along t u)
    (hps : ∀ p ∈ ps, p ∈ s.processesWith t.state waitsForEvents) (notified : List Event) :
    s.Advancing t (fun _ => True) (s.notifyProcesses u notified ps).result := by
  induction ps generalizing u with
  | nil => exact ⟨along, trivial⟩
  | cons p ps ih =>
      obtain ⟨hp, hps⟩ := List.forall_mem_cons.1 hps
      refine (notifyProcess_advancing placed peopled along hp notified).run_bind fun v hv _ => ?_
      exact ih hv hps

include placed peopled in
theorem wakeDelta_advancing (along : s.Along t u) (hps : ∀ p ∈ ps, p ∈ s.procs) :
    s.Advancing t (fun _ => True) (s.wakeDelta u ps).result := by
  induction ps generalizing u with
  | nil => exact ⟨along, trivial⟩
  | cons p ps ih =>
      obtain ⟨hp, hps⟩ := List.forall_mem_cons.1 hps
      obtain ⟨q, found⟩ := along.found placed peopled hp
      unfold wakeDelta
      rw [found]
      dsimp only
      split
      · exact ih along hps
      · rw [Run.result_bind, Observer.waitedForDelta_result]
        exact ih (along.block found none) hps

include placed peopled in
/-- Time that is no longer than any that is waited for passes for all processes. -/
theorem passProcesses_advancing {passed : Int64} (nodup : (ps.map (·.index)).Nodup) (along : s.Along t u)
    (hps : ∀ p ∈ ps, p ∈ s.procs ∧ u.Lasts passed p) :
    s.Advancing t (fun _ => True) (s.passProcesses passed u ps).result := by
  induction ps generalizing u with
  | nil => exact ⟨along, trivial⟩
  | cons p ps ih =>
      obtain ⟨⟨hp, lasts⟩, rest⟩ := List.forall_mem_cons.1 hps
      obtain ⟨fresh, nodup⟩ := List.nodup_cons.1 nodup
      obtain ⟨q, found⟩ := along.found placed peopled hp
      have next : ∀ b, s.Advancing t (fun _ => True)
          (s.passProcesses passed (u.setProc p (q.block b)) ps).result := by
        intro b
        refine ih nodup (along.block found b) fun p' hp' => ?_
        have apart : p'.index ≠ p.index := fun same => fresh (List.mem_map.2 ⟨p', hp', same⟩)
        exact ⟨(rest p' hp').1, (rest p' hp').2.block apart⟩
      have wait := lasts q.blocker (by rw [State.waitOf?, found]; rfl)
      unfold passProcesses
      rw [found]
      dsimp only
      obtain waits | ⟨d, timed, le⟩ := wait
      · rw [waits]
        exact ih nodup along rest
      · have timed : timeoutOf q = some (.time d) := timed
        cases waits : q.blocker with
        | none =>
            rw [timeoutOf, waits] at timed
            cases timed
        | some b =>
            rw [timed]
            dsimp only
            split
            · rw [Run.result_bind, Observer.waitedForTime_result]
              exact next none
            · rename_i more
              obtain ⟨rest, hrest, -⟩ := Delay.remaining_succeeds le more
              rw [Run.result_bind, Run.result_ofFault, hrest]
              exact next _

include placed peopled in
theorem deltaCycle_advancing (events : List Event) :
    s.Advancing t (fun _ => True) (s.deltaCycle t events).result := by
  unfold deltaCycle
  refine (notifyProcesses_advancing placed peopled ((Along.refl t).withGlobal (State.bare_setPendings events))
    (fun p hp => hp) events).run_bind fun u hu _ => ?_
  exact wakeDelta_advancing placed peopled hu fun p hp => (List.mem_filter.1 hp).1

include placed peopled in
theorem letTimePass_advancing {passed : Int64} (single : t.state.global.Single)
    (least : ∀ d, some (.time d) ∈ s.delays t.state → passed.toInt ≤ d.toInt) :
    s.Advancing t (fun _ => True) (s.letTimePass t passed).result := by
  unfold letTimePass
  dsimp only
  obtain ⟨⟨due, g⟩, hpending, noted⟩ := passPending_succeeds
    (I := fun g => State.bare { t.state with global := g } = t.state.bare) rfl
    (fun _ e d same => (State.bare_setPending e d).trans same) single.pendingEvents fun e _ d hd =>
      least d (mem_delays.2 (.inr ⟨e, hd⟩))
  have start := (Along.refl (s := s) t).withGlobal noted
  -- Whoever waits for a time goes on to do so, unless it heard of a notification.
  have passes : ∀ u : Transition, s.Along t u →
      (∀ p ∈ s.procs, u.state.waitOf? p.index = (t.state.waitOf? p.index).map (Blocker.hear due)) →
      s.Advancing t (fun _ => True)
        (s.passProcesses passed u (s.processesWith t.state fun ps => isTime (timeoutOf ps))).result := by
    intro u along heard
    refine passProcesses_advancing placed peopled placed.apart.processesWith along fun p hp => ?_
    obtain ⟨known, w, d, hw, hd⟩ := exists_timeout hp
    refine ⟨known, fun w' hw' => ?_⟩
    rw [heard p known, hw, Option.map_some] at hw'
    obtain rfl := Option.some.inj hw'
    refine (Blocker.timeout?_hear w due).imp_right fun same => ⟨d, same.trans hd, ?_⟩
    exact least d (mem_delays.2 (.inl ⟨p, known, w, hw, hd⟩))
  rw [Run.result_bind, Run.result_ofFault, hpending]
  change s.Advancing t (fun _ => True) (Run.result (if due.isEmpty = true then _ else _))
  split
  · rename_i none
    obtain rfl := List.isEmpty_iff.1 none
    have same (i : Nat) : t.state.waitOf? i = (t.state.waitOf? i).map (Blocker.hear []) := by
      cases t.state.waitOf? i <;> simp [Blocker.hear_nil]
    exact passes _ start fun p _ => same p.index
  · have told := (notifyProcesses_advancing placed peopled start (fun p hp => hp) due).mono
      (Q := fun u => ∀ p ∈ s.procs,
        u.state.waitOf? p.index = (t.state.waitOf? p.index).map (Blocker.hear due))
      fun u hu _ p hp => heard_waits hp (notifyProcesses_rewaits placed.apart.processesWith hu) rfl
    exact told.run_bind passes

include placed peopled in
/-- An advance goes through unless the observer cannot be told of an event. -/
theorem advanceTime_advancing (single : t.state.global.Single) :
    s.Advancing t (fun _ => True) (s.advanceTime t).result := by
  unfold advanceTime
  dsimp only
  split
  · exact ⟨.refl t, trivial⟩
  · split
    · split
      · rename_i d first
        refine letTimePass_advancing placed peopled single fun d' hd' => ?_
        obtain ⟨d'', same, le⟩ := (s.earliest_least t.state).le d' hd'
        rw [first] at same
        obtain rfl : d = d'' := by simpa using same
        exact le
      · exact ⟨.refl t, trivial⟩
    · exact deltaCycle_advancing placed peopled _

end

end Simulator

end DeltaSlice

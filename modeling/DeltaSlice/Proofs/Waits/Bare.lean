import DeltaSlice.Proofs.Step.Evolution
import DeltaSlice.Proofs.Success
import DeltaSlice.Simulator.Cycle

/-!
States without waits and pending notifications. Whoever is notified, and the advance of the simulation, change
only these; whatever else a state has is kept.
-/

namespace DeltaSlice

/-- A state without the waits of its processes and without pending notifications. -/
def State.bare (st : State) : State :=
  { st with
    global := { st.global with pending := .empty }
    procs := st.procs.map (·.block none) }

namespace State

variable {st st' : State} {i : Nat} {ps : ProcessState}

theorem bare_block (found : st.procs[i]? = some ps) (b : Option Blocker) :
    (st.setProc i (ps.block b)).bare = st.bare := by
  have same : (st.procs.set i (ps.block b)).map (·.block none) = st.procs.map (·.block none) := by
    refine List.ext_getElem? fun j => ?_
    rw [List.getElem?_map, List.getElem?_map]
    by_cases own : i = j
    · subst own
      rw [List.getElem?_set_self (List.getElem?_eq_some_iff.1 found).1, found]
      rfl
    · rw [List.getElem?_set_ne own]
  simp only [bare, setProc, same]

theorem bare_setPending {g : GlobalState} (e : Event) (d : Option Delay) :
    State.bare { st with global := g.setPending e d } = State.bare { st with global := g } := by
  cases d <;> rfl

theorem bare_setPendings {g : GlobalState} (es : List Event) :
    State.bare { st with global := es.foldl (fun g e => g.setPending e none) g } =
      State.bare { st with global := g } := by
  induction es generalizing g with
  | nil => rfl
  | cons e es ih => exact ih.trans (bare_setPending e none)

theorem length_of_bare (same : st'.bare = st.bare) : st'.procs.length = st.procs.length := by
  simpa [bare] using congrArg (·.procs.length) same

theorem update_of_bare (same : st'.bare = st.bare) : st'.update = st.update := by
  simpa [bare] using congrArg (·.update) same

theorem updates_of_bare (same : st'.bare = st.bare) : st'.global.updates = st.global.updates := by
  simpa [bare] using congrArg (·.global.updates) same

theorem values_of_bare (same : st'.bare = st.bare) : st'.global.values = st.global.values := by
  simpa [bare] using congrArg (·.global.values) same

/-- Only the waits of processes may differ. -/
theorem code_of_bare (same : st'.bare = st.bare) (found : st.procs[i]? = some ps) :
    ∃ ps', st'.procs[i]? = some ps' ∧ ps'.stack = ps.stack ∧ ps'.locals = ps.locals := by
  have procs : st'.procs[i]?.map (·.block none) = st.procs[i]?.map (·.block none) := by
    rw [← List.getElem?_map, ← List.getElem?_map]
    exact congrArg (·.procs[i]?) same
  rw [found, Option.map_some, Option.map_eq_some_iff] at procs
  obtain ⟨ps', found', procs⟩ := procs
  exact ⟨ps', found', congrArg (·.stack) procs, congrArg (·.locals) procs⟩

theorem framesOf?_of_bare (same : st'.bare = st.bare) (i : Nat) : st'.framesOf? i = st.framesOf? i := by
  have frames : ∀ st : State, st.bare.framesOf? i = st.framesOf? i := by
    intro st
    simp only [framesOf?, bare, List.getElem?_map, Option.map_map]
    rfl
  rw [← frames, same, frames]

end State

namespace Simulator

variable {s : Simulator} {t u r : Transition} {ps : List Process}

theorem notifyProcesses_bare {notified : List Event} (hr : (s.notifyProcesses t notified ps).result = .ok r) :
    r.state.bare = t.state.bare := by
  refine notifyProcesses_induction (P := fun r => r.state.bare = t.state.bare) ?_ rfl hr
  intro u v p same told
  cases told with
  | deaf => exact same
  | hears found => exact (State.bare_block found _).trans same

theorem wakeDelta_bare (hr : (s.wakeDelta t ps).result = .ok r) : r.state.bare = t.state.bare := by
  induction ps generalizing t with
  | nil =>
      obtain rfl := Run.pure_result_iff.1 hr
      rfl
  | cons p ps ih =>
      unfold wakeDelta at hr
      split at hr
      · cases hr
      · rename_i found
        split at hr
        · exact ih hr
        · obtain ⟨_, -, hr⟩ := Run.bind_result_iff.1 hr
          exact (ih hr).trans (State.bare_block found none)

theorem passPending_bare {st : State} {passed : Int64} {g g' : GlobalState} {es due : List Event}
    (h : passPending passed g es = .ok (due, g')) :
    State.bare { st with global := g' } = State.bare { st with global := g } := by
  induction es generalizing g due with
  | nil =>
      cases h
      rfl
  | cons e es ih =>
      unfold passPending at h
      split at h
      · split at h
        · obtain ⟨⟨later, g₁⟩, passes, same⟩ := Success.map_iff.1 h
          obtain ⟨rfl, rfl⟩ := Prod.mk.inj same
          exact (ih passes).trans (State.bare_setPending e none)
        · split at h
          · exact (ih h).trans (State.bare_setPending e _)
          · cases h
      · exact ih h

theorem passProcesses_bare {passed : Int64} (hr : (s.passProcesses passed t ps).result = .ok r) :
    r.state.bare = t.state.bare := by
  induction ps generalizing t with
  | nil =>
      obtain rfl := Run.pure_result_iff.1 hr
      rfl
  | cons p ps ih =>
      unfold passProcesses at hr
      split at hr
      · cases hr
      · rename_i found
        split at hr
        · exact ih hr
        · split at hr
          · obtain ⟨_, -, hr⟩ := Run.bind_result_iff.1 hr
            exact (ih hr).trans (State.bare_block found none)
          · obtain ⟨_, -, hr⟩ := Run.bind_result_iff.1 hr
            exact (ih hr).trans (State.bare_block found _)
        · cases hr

/-- An advance of the simulation changes waits and pending notifications, and nothing else of the state. -/
theorem advanceTime_bare (hr : (s.advanceTime t).result = .ok r) : r.state.bare = t.state.bare := by
  have unchanged : (pure t : Step Transition).result = .ok r → r.state.bare = t.state.bare := by
    intro hr
    obtain rfl := Run.pure_result_iff.1 hr
    rfl
  unfold advanceTime at hr
  dsimp only at hr
  split at hr
  · exact unchanged hr
  · split at hr
    · split at hr
      · obtain ⟨⟨due, g⟩, passes, hr⟩ := Run.bind_result_iff.1 hr
        have later : State.bare { t.state with global := g } = t.state.bare :=
          passPending_bare (Run.ofFault_result_iff.1 passes)
        dsimp only at hr
        split at hr
        · obtain ⟨u, hu, hr⟩ := Run.bind_result_iff.1 hr
          obtain rfl := Run.pure_result_iff.1 hu
          exact (passProcesses_bare hr).trans later
        · obtain ⟨u, hu, hr⟩ := Run.bind_result_iff.1 hr
          exact (passProcesses_bare hr).trans ((notifyProcesses_bare hu).trans later)
      · exact unchanged hr
    · obtain ⟨u, hu, hr⟩ := Run.bind_result_iff.1 hr
      exact (wakeDelta_bare hr).trans ((notifyProcesses_bare hu).trans (State.bare_setPendings _))

end Simulator

end DeltaSlice

import DeltaSlice.Proofs.Dependence.Returns
import DeltaSlice.Proofs.Step.Conditions
import DeltaSlice.Proofs.Step.Evolution
import DeltaSlice.Simulator.Cycle

/-!
What small steps write, and what is learned apart from their results. Only an assignment that is completed
writes anything but variables of frames. Before the results of a step are told, and while the simulation
advances, an observer learns from the wakeups of processes alone.
-/

namespace DeltaSlice

/-- The last small step wrote variables of frames at most. -/
def Transition.WritesLocals (t : Transition) : Prop := ∀ v ∈ t.scratch.written, v.isLocal = true

namespace Transition.WritesLocals

variable {t : Transition} {s : Simulator}

theorem of_scratch {r : Transition} (h : t.WritesLocals) (same : r.scratch = t.scratch) : r.WritesLocals := by
  unfold WritesLocals
  rw [same]
  exact h

theorem conditions (h : t.WritesLocals) (f : Conditions → Conditions) : (t.mapConditions f).WritesLocals := h

theorem mapRunning (h : t.WritesLocals) (f : ProcessState → ProcessState) : (t.mapRunning f).WritesLocals :=
  h.of_scratch (Transition.scratch_mapRunning t f)

theorem edit (h : t.WritesLocals) {β : Type} (e : Edit ProcessState β) : (t.editRunning e).WritesLocals :=
  h.of_scratch (Transition.scratch_editRunning t e)

theorem addWritten (h : t.WritesLocals) {v : Variable} (outer : v.isLocal = true) : (t.addWritten v).WritesLocals := by
  intro w hw
  rcases (Dependence.mem_foldl_addVariable [v] t.scratch.written).1 hw with hw | hw
  · exact h w hw
  · exact List.mem_singleton.1 hw ▸ outer

theorem store (h : t.WritesLocals) (s : Simulator) (v : Variable) (x : Value) : (s.store t v x).WritesLocals := by
  unfold Simulator.store
  split
  · split
    · exact h.mapRunning _
    · exact h
  · exact h

theorem bindParams (h : t.WritesLocals) (s : Simulator) (stack : List Routine) (ds : List Decl) (xs : List Value) :
    (s.bindParams stack t ds xs).WritesLocals :=
  Simulator.bindParams_induction (fun _ h => h.addWritten rfl) (fun _ _ h => h.store s _ _) h

theorem steers {i : Int} {n : Nat} : Steers s i n Transition.WritesLocals Transition.WritesLocals where
  conditions _ h := h
  enter _ _ h := h.mapRunning _
  finish _ _ h := h.edit _

end Transition.WritesLocals

namespace Simulator

section

variable {s : Simulator} {t r : Transition} {top : Frame} {e : Expr} {st : SmallStep}

theorem endOfCode_writes (h : t.WritesLocals) : ∀ r ∈ (endOfCode t).results, r.WritesLocals := by
  intro r hr
  obtain rfl := List.mem_singleton.1 hr
  split
  · exact h
  · split <;> exact h.mapRunning _

theorem returnFrom_writes (h : t.WritesLocals) (o : Option Expr) (i : Int) (v : Value) :
    ∀ r ∈ (s.returnFrom t o i v).results, r.WritesLocals := by
  have popped := h.edit ProcessState.editPop
  unfold returnFrom
  dsimp only
  split
  · exact endOfCode_writes popped
  · intro r hr
    obtain rfl := List.mem_singleton.1 hr
    split
    · exact ((popped.edit _).conditions _).mapRunning _
    · exact (popped.edit _).conditions _

theorem bodyStep_writes (h : t.WritesLocals) : ∀ r ∈ (s.bodyStep t top).results, r.WritesLocals := by
  unfold bodyStep
  dsimp only
  split
  · intro r hr
    obtain rfl := List.mem_singleton.1 hr
    exact h.mapRunning _
  · exact returnFrom_writes h _ _ _

/-- An expression whose children have been evaluated writes nothing but the target of an assignment. -/
theorem aggregateStep_writes (h : t.WritesLocals) (other : ∀ id x y, e ≠ .binary id .assign x y)
    (hst : s.aggregateStep t top e = .ok st) : ∀ r ∈ st.results, r.WritesLocals := by
  intro r hr
  obtain ⟨-, rfl⟩ | ⟨-, _, u, hu, rfl⟩ := aggregateStep_cases hst
  · obtain rfl := List.mem_singleton.1 hr
    exact h.mapRunning _
  · obtain rfl := List.mem_singleton.1 hr
    refine Transition.WritesLocals.edit ?_ _
    obtain rfl | ⟨id, x, y, _, assigns, -⟩ | rfl := aggregate_cases hu
    · exact h
    · exact absurd assigns (other id x y)
    · exact h

theorem exitStep_writes (h : t.WritesLocals) {label : String} (hst : s.exitStep t top e label = .ok st) :
    ∀ r ∈ st.results, r.WritesLocals := by
  intro r hr
  obtain ⟨_, _, _, -, -, rfl⟩ := exitStep_cases hst
  obtain rfl := List.mem_singleton.1 hr
  exact ((h.conditions _).mapRunning _).edit _

theorem nextStep_writes (h : t.WritesLocals) {label : String} (hst : s.nextStep t top e label = .ok st) :
    ∀ r ∈ st.results, r.WritesLocals := by
  intro r hr
  obtain ⟨_, _, _, -, -, rfl⟩ := nextStep_cases hst
  obtain rfl := List.mem_singleton.1 hr
  exact (h.conditions _).mapRunning _

theorem callStep_writes (h : t.WritesLocals) {ps : ProcessState} {f : Routine} {arity : Nat}
    (hst : s.callStep t ps top e f arity = .ok st) : ∀ r ∈ st.results, r.WritesLocals := by
  intro r hr
  cases callStep_cases hst with
  | argument =>
      obtain rfl := List.mem_singleton.1 hr
      exact h.mapRunning _
  | result =>
      obtain rfl := List.mem_singleton.1 hr
      exact h.edit _
  | wait _ hst =>
      obtain ⟨_, _, _, -, -, -, rfl⟩ := waitStep_cases hst
      obtain rfl := List.mem_singleton.1 hr
      exact (h.edit _).mapRunning _
  | request =>
      obtain rfl := List.mem_singleton.1 hr
      exact Transition.WritesLocals.edit (t := t.mapGlobal _) h _
  | call =>
      obtain rfl := List.mem_singleton.1 hr
      exact Transition.WritesLocals.bindParams (t := Transition.mapConditions _ _) (h.mapRunning _) s _ _ _

theorem notifyStep_writes (h : t.WritesLocals) {target : Expr} {delays : List Expr}
    (hst : (s.notifyStep t top e target delays).result = .ok st) : ∀ r ∈ st.results, r.WritesLocals := by
  intro r hr
  obtain ⟨-, rfl⟩ | ⟨-, _, _, u, -, -, hu, rfl⟩ := notifyStep_cases hst
  · obtain rfl := List.mem_singleton.1 hr
    exact h.mapRunning _
  · obtain rfl := List.mem_singleton.1 hr
    exact (h.of_scratch (notify_scratch hu).1).edit _

/-- Evaluating anything but an assignment writes variables of frames at most. -/
theorem exprStep_writes (h : t.WritesLocals) (other : ∀ id x y, e ≠ .binary id .assign x y) {ps : ProcessState}
    (hst : (s.exprStep t ps top e).result = .ok st) : ∀ r ∈ st.results, r.WritesLocals := by
  have given : ∀ {x : SmallStep}, (pure x : Step SmallStep).result = .ok st → x.All Transition.WritesLocals →
      ∀ r ∈ st.results, r.WritesLocals := by
    intro x hx all r hr
    obtain rfl := Run.pure_result_iff.1 hx
    exact (all r hr).1
  unfold exprStep at hst
  cases e with
  | const id l =>
      dsimp only at hst
      split at hst
      · cases hst
      · exact given hst (.one (h.edit _))
  | event id name => exact given hst (.one (h.edit _))
  | var id d =>
      have read : (s.readVariable t ps top d).2.WritesLocals := by
        obtain same | same := s.readVariable_cases t ps top d <;> rw [same] <;> exact h
      exact given hst (.one (read.edit _))
  | unary id op x | binary id op x y | access id x y | bracket id x | block id l | empty id =>
      exact aggregateStep_writes h other hst
  | branch id c yes no => exact given hst (Transition.WritesLocals.steers.branchStep_all h rfl)
  | whileLoop id l c body => exact given hst (Transition.WritesLocals.steers.loopStep_all h rfl true)
  | doLoop id l c body => exact given hst (Transition.WritesLocals.steers.loopStep_all h rfl false)
  | forLoop id l i c p body => exact given hst (Transition.WritesLocals.steers.forStep_all h rfl)
  | switch id l tag cases => exact given hst (Transition.WritesLocals.steers.switchStep_all h rfl)
  | arm id value body => exact given hst (Transition.WritesLocals.steers.armStep_all h rfl)
  | exit id label => exact exitStep_writes h hst
  | next id label => exact nextStep_writes h hst
  | ret id value =>
      dsimp only at hst
      split at hst
      · exact given hst (.one (h.mapRunning _))
      · intro r hr
        rw [← Run.pure_result_iff.1 hst] at hr
        exact returnFrom_writes h _ _ _ r hr
  | notify id target delays => exact notifyStep_writes h hst
  | stop id => exact given hst (.one (h.edit _))
  | call id f args => exact callStep_writes h hst

/-- An assignment that is not complete yet writes nothing. -/
theorem assignStep_writes {id : Nat} {x y : Expr} {ps : ProcessState} (h : t.WritesLocals)
    (hst : (s.exprStep t ps top (.binary id .assign x y)).result = .ok st) (hr : r ∈ st.results) :
    st.expr = some (.binary id .assign x y) ∧ (r.WritesLocals ∨ 1 ≤ top.comingFrom) := by
  have hst : s.aggregateStep t top (.binary id .assign x y) = .ok st := hst
  obtain ⟨-, rfl⟩ | ⟨late, _, _, -, rfl⟩ := aggregateStep_cases hst
  · obtain rfl := List.mem_singleton.1 hr
    exact ⟨rfl, .inl (h.mapRunning _)⟩
  · exact ⟨rfl, .inr (by simpa [Expr.children] using late)⟩

end

/-- What an observer knows keeps a property when it is told of wakeups. -/
structure Heeds (s : Simulator) (P : Info → Prop) : Prop where
  woken : ∀ {t : Transition} {p : Process} {events : List Event} {before : EventList} {i : Info}, P t.info →
    (s.setup.observer.waitedForEvents t p events before).result = .ok i → P i

namespace Heeds

variable {s : Simulator} {P : Info → Prop} {t r : Transition} {notified : List Event}

theorem notifies (heeds : s.Heeds P) {p : Process} (h : P t.info) (told : s.Notifies t p notified r) : P r.info := by
  cases told with
  | deaf => exact h
  | hears found waits learned => exact heeds.woken (t := Transition.setProc _ _ _) h learned

theorem notifyProcesses (heeds : s.Heeds P) {ps : List Process} (h : P t.info)
    (hr : (s.notifyProcesses t notified ps).result = .ok r) : P r.info :=
  notifyProcesses_induction (P := fun r => P r.info) heeds.notifies h hr

theorem notify (heeds : s.Heeds P) {e : Event} {delay : Option Delay} (h : P t.info)
    (hr : (s.notify t e delay).result = .ok r) : P r.info :=
  notify_induction (P := fun r => P r.info) heeds.notifies h (fun _ => h) hr

/-- Before the results of a small step are told, only wakeups are. -/
theorem advance (heeds : s.Heeds P) (h : P t.info) {st : SmallStep} (hst : (s.advance t).result = .ok st)
    (hr : r ∈ st.results) : P r.info := by
  obtain ⟨ps, top, -, -, ⟨-, rfl⟩ | ⟨i, up, e, sc, -, -, -, hst⟩⟩ := advance_cases hst
  · exact (bodyStep_keeps hr).info ▸ h
  · by_cases quiet : ∀ id target delays, e ≠ .notify id target delays
    · exact (exprStep_keeps_quiet quiet hst hr).info ▸ h
    · simp only [ne_eq, not_forall, not_not] at quiet
      obtain ⟨id, target, delays, rfl⟩ := quiet
      change (s.notifyStep { t with scratch := sc } top (.notify id target delays) target delays).result = .ok st at hst
      obtain ⟨-, rfl⟩ | ⟨-, _, _, u, -, -, hu, rfl⟩ := notifyStep_cases hst
      · obtain rfl := List.mem_singleton.1 hr
        have entered : (({ t with scratch := sc } : Transition).enter (top.comingFrom + 1)).info = t.info :=
          ((Keeps.refl _).mapRunning _).info
        rw [entered]
        exact h
      · obtain rfl := List.mem_singleton.1 hr
        exact ((Keeps.refl u).editRunning _).info ▸ heeds.notify (t := { t with scratch := sc }) h hu

theorem wakeDelta {ps : List Process} (h : P t.info) (hr : (s.wakeDelta t ps).result = .ok r) : P r.info := by
  induction ps generalizing t with
  | nil =>
      obtain rfl := Run.pure_result_iff.1 hr
      exact h
  | cons p ps ih =>
      unfold Simulator.wakeDelta at hr
      split at hr
      · cases hr
      · split at hr
        · exact ih h hr
        · obtain ⟨-, -, hr⟩ := Run.bind_result_iff.1 hr
          exact ih (t := Transition.setProc _ _ _) h hr

theorem passProcesses {passed : Int64} {ps : List Process} (h : P t.info)
    (hr : (s.passProcesses passed t ps).result = .ok r) : P r.info := by
  induction ps generalizing t with
  | nil =>
      obtain rfl := Run.pure_result_iff.1 hr
      exact h
  | cons p ps ih =>
      unfold Simulator.passProcesses at hr
      split at hr
      · cases hr
      · split at hr
        · exact ih h hr
        · split at hr
          · obtain ⟨-, -, hr⟩ := Run.bind_result_iff.1 hr
            exact ih (t := Transition.setProc _ _ _) h hr
          · obtain ⟨d, -, hr⟩ := Run.bind_result_iff.1 hr
            exact ih (t := Transition.setProc _ _ _) h hr
        · cases hr

/-- Where the simulation advances, the observer learns from wakeups. -/
theorem advanceTime (heeds : s.Heeds P) (h : P t.info) (hr : (s.advanceTime t).result = .ok r) : P r.info := by
  unfold Simulator.advanceTime at hr
  dsimp only at hr
  split at hr
  · exact Run.pure_result_iff.1 hr ▸ h
  · split at hr
    · split at hr
      · obtain ⟨⟨due, g⟩, -, hr⟩ := Run.bind_result_iff.1 hr
        dsimp only at hr
        split at hr
        · obtain ⟨u, hu, hr⟩ := Run.bind_result_iff.1 hr
          exact passProcesses (Run.pure_result_iff.1 hu ▸ h) hr
        · obtain ⟨u, hu, hr⟩ := Run.bind_result_iff.1 hr
          exact passProcesses (heeds.notifyProcesses (t := { t with state := { t.state with global := g } }) h hu) hr
      · exact Run.pure_result_iff.1 hr ▸ h
    · obtain ⟨u, hu, hr⟩ := Run.bind_result_iff.1 hr
      exact wakeDelta (heeds.notifyProcesses (t := Transition.mapGlobal _ _) h hu) hr

end Heeds

end Simulator

end DeltaSlice

import DeltaSlice.Proofs.Globals.Writes
import DeltaSlice.Proofs.Termination.Positions

/-!
What running code does to the rest of a state, and what it accesses, while it goes on. Without tracked variables
no value changes; notifications, waits, requests and accesses are among those that the values at hand allow.
-/

namespace DeltaSlice

section Waits

variable {α : Type}

theorem length_dropRepeated_le [DecidableEq α] (l : List α) : (dropRepeated l).length ≤ l.length := by
  fun_induction dropRepeated l with
  | case1 _ _ ih => exact ih.trans (Nat.le_succ _)
  | case2 a b l _ ih => exact Nat.succ_le_succ ih
  | case3 _ => exact Nat.le_refl _

variable {sys : System} {K : Stock} {w : Option Blocker}

/-- Waits lose events that are notified. -/
theorem Stock.hear_mem (h : w ∈ K.waits sys) (notified : List Event) : Blocker.hear notified w ∈ K.waits sys := by
  unfold Blocker.hear
  split
  · rename_i l
    dsimp only
    split
    · exact h
    · split
      · exact fun _ none => nomatch none
      · rintro _ ⟨⟩
        obtain ⟨short, known⟩ := h l rfl
        constructor
        · have sorted := (sortByText_perm Event.text (l.events.filter fun e => !notified.contains e)).length_eq
          exact ((length_dropRepeated_le _).trans (sorted.le.trans (List.length_filter_le _ _))).trans short
        · intro e he
          have he := (sortByText_perm _ _).mem_iff.1 (mem_dropRepeated.1 he)
          exact known e (List.mem_of_mem_filter he)
  · exact h

theorem Stock.terminated_mem : some Blocker.terminated ∈ K.waits sys := fun _ h => nomatch h

end Waits

/-- A transition stays within what is at hand, and the variables have the given values. -/
structure Transition.Confined (sys : System) (K : Stock) (values : Store) (t : Transition) : Prop where
  values : t.state.global.values = values
  procs : ∀ ps ∈ t.state.procs, ps.blocker ∈ K.waits sys
  update : ∀ ps, t.state.update = some ps → ps.blocker ∈ K.waits sys
  pending : ∀ e d, t.state.pendingOf e = some d → e ∈ K.events sys
  updates : ∀ i ∈ t.state.global.updates, i ∈ K.instances sys
  read : ∀ v ∈ t.scratch.read, v ∈ K.places sys
  written : ∀ v ∈ t.scratch.written, v ∈ K.places sys

namespace Transition.Confined

variable {sys : System} {K : Stock} {values : Store} {t : Transition} {s : Simulator} {v : Variable}

theorem congr {u : Transition} (h : t.Confined sys K values) (state : u.state = t.state)
    (read : u.scratch.read = t.scratch.read) (written : u.scratch.written = t.scratch.written) :
    u.Confined sys K values :=
  ⟨state ▸ h.values, state ▸ h.procs, state ▸ h.update, state ▸ h.pending, state ▸ h.updates, read ▸ h.read,
    written ▸ h.written⟩

theorem resetAccesses (h : t.Confined sys K values) : t.resetAccesses.Confined sys K values :=
  ⟨h.values, h.procs, h.update, h.pending, h.updates, fun _ hv => (nomatch hv), fun _ hv => (nomatch hv)⟩

theorem mapRunning (h : t.Confined sys K values) {f : ProcessState → ProcessState}
    (hf : ∀ ps, (f ps).blocker = ps.blocker) : (t.mapRunning f).Confined sys K values := by
  unfold Transition.mapRunning
  split
  · rename_i ps hps
    unfold running? at hps
    unfold setRunning
    split
    · rename_i p hp
      rw [hp] at hps
      refine ⟨h.values, fun q hq => ?_, h.update, h.pending, h.updates, h.read, h.written⟩
      rcases List.mem_or_eq_of_mem_set hq with hq | rfl
      · exact h.procs q hq
      · exact hf ps ▸ h.procs ps (List.mem_of_getElem? hps)
    · rename_i hp
      rw [hp] at hps
      refine ⟨h.values, h.procs, fun q hq => ?_, h.pending, h.updates, h.read, h.written⟩
      obtain rfl := Option.some.inj hq
      exact hf ps ▸ h.update ps hps
  · exact h

theorem mapTop (h : t.Confined sys K values) (f : Frame → Frame) : (t.mapTop f).Confined sys K values :=
  h.mapRunning fun ps => by
    unfold ProcessState.mapTop
    split <;> rfl

theorem enter (h : t.Confined sys K values) (i : Int) : (t.enter i).Confined sys K values := h.mapTop _

theorem finish (h : t.Confined sys K values) (x : Value) : (t.finish sys x).Confined sys K values := by
  rw [finish_eq]
  exact (h.mapTop _).congr rfl rfl rfl

theorem comeFrom (h : t.Confined sys K values) (i : Int) (x : Option Value) :
    (t.editTop (Frame.editComeFrom i x)).Confined sys K values := by
  rw [comeFrom_eq]
  exact (h.mapTop _).congr rfl rfl rfl

theorem mapConditions (h : t.Confined sys K values) (f : Conditions → Conditions) :
    (t.mapConditions f).Confined sys K values :=
  ⟨h.values, h.procs, h.update, h.pending, h.updates, h.read, h.written⟩

theorem addRead (h : t.Confined sys K values) (hv : v ∈ K.places sys) : (t.addRead v).Confined sys K values := by
  refine ⟨h.values, h.procs, h.update, h.pending, h.updates, fun w hw => ?_, h.written⟩
  rcases (Dependence.mem_foldl_addVariable [v] t.scratch.read).1 hw with hw | hw
  · exact h.read w hw
  · exact List.mem_singleton.1 hw ▸ hv

theorem addWritten (h : t.Confined sys K values) (hv : v ∈ K.places sys) : (t.addWritten v).Confined sys K values := by
  refine ⟨h.values, h.procs, h.update, h.pending, h.updates, h.read, fun w hw => ?_⟩
  rcases (Dependence.mem_foldl_addVariable [v] t.scratch.written).1 hw with hw | hw
  · exact h.written w hw
  · exact List.mem_singleton.1 hw ▸ hv

theorem bindParams (untracked : ∀ v, s.setup.tracksVariable v = false) (stack : List Routine) {ds : List Decl}
    {xs : List Value} (h : t.Confined sys K values) (known : ∀ d ∈ ds, .ofFrame stack (.decl d) ∈ K.places sys) :
    (s.bindParams stack t ds xs).Confined sys K values :=
  Simulator.bindParams_induction (P := Confined sys K values) (fun hd h => h.addWritten (known _ hd))
    (fun _ _ h => by simpa [Simulator.store, untracked] using h) h

theorem steers {i : Int} {n : Nat} : Steers s i n (Confined s.program.system K values)
    (Confined s.program.system K values) where
  conditions f h := h.mapConditions f
  enter j _ h := h.enter j
  finish v _ h := h.finish v

end Transition.Confined

namespace Simulator

variable {s : Simulator} {K : Stock} {values : Store} {t r : Transition} {top : Frame} {e : Expr} {st : SmallStep}
  {ps : ProcessState}

theorem Notifies.confined {p : Process} {notified : List Event} (h : t.Confined s.program.system K values)
    (told : s.Notifies t p notified r) : r.Confined s.program.system K values := by
  cases told with
  | deaf => exact h
  | hears found =>
      refine ⟨h.values, fun q hq => ?_, h.update, h.pending, h.updates, h.read, h.written⟩
      rcases List.mem_or_eq_of_mem_set hq with hq | rfl
      · exact h.procs q hq
      · exact Stock.hear_mem (h.procs _ (List.mem_of_getElem? found)) notified

theorem notify_confined {e : Event} {delay : Option Delay} (h : t.Confined s.program.system K values)
    (he : e ∈ K.events s.program.system) (hr : (s.notify t e delay).result = .ok r) :
    r.Confined s.program.system K values := by
  refine notify_induction Notifies.confined h (fun d => ?_) hr
  have kept : (t.state.global.setPending e d).updates = t.state.global.updates ∧
      (t.state.global.setPending e d).values = t.state.global.values := by cases d <;> exact ⟨rfl, rfl⟩
  refine ⟨kept.2.trans h.values, h.procs, h.update, fun e' d' hd => ?_, ?_, h.read, h.written⟩
  · have hd : (t.state.global.setPending e d).pending.get? e' = some d' := hd
    rw [GlobalState.get?_setPending] at hd
    split at hd
    · rename_i same
      exact same ▸ he
    · exact h.pending e' d' hd
  · exact fun i hi => h.updates i (kept.1 ▸ hi)

theorem stop_confined (h : t.Confined s.program.system K values) : (s.stop t).Confined s.program.system K values := by
  refine ⟨h.values, List.forall_mem_map.2 fun ps hps => ?_, h.update, (fun _ _ hd => nomatch hd), h.updates, h.read,
    h.written⟩
  split
  · exact h.procs ps hps
  · exact h.procs ps hps
  · exact Stock.terminated_mem

theorem returnFrom_confined (h : t.Confined s.program.system K values) (o : Option Expr) (i : Int) (v : Value)
    (goes : (s.returnFrom t o i v).ends = false) :
    ∀ r ∈ (s.returnFrom t o i v).results, r.Confined s.program.system K values := by
  have popped : (t.editRunning ProcessState.editPop).Confined s.program.system K values := by
    rw [Transition.editPop_eq]
    exact (h.mapRunning (f := (·.pop)) fun _ => rfl).congr rfl rfl rfl
  unfold returnFrom at goes ⊢
  dsimp only at goes ⊢
  split
  · rename_i spent
    rw [spent] at goes
    cases goes
  · rename_i caller _
    intro r hr
    obtain rfl := List.mem_singleton.1 hr
    have back := (popped.comeFrom (caller.comingFrom + 1) (some v)).mapConditions (·.leaveCall)
    split
    · exact back.mapRunning fun q => dropParams_blocker q _
    · exact back

theorem bodyStep_confined (h : t.Confined s.program.system K values) (goes : (s.bodyStep t top).ends = false) :
    ∀ r ∈ (s.bodyStep t top).results, r.Confined s.program.system K values := by
  unfold bodyStep at goes ⊢
  dsimp only at goes ⊢
  split
  · intro r hr
    obtain rfl := List.mem_singleton.1 hr
    exact h.enter _
  · rename_i last
    rw [if_neg last] at goes
    exact returnFrom_confined h _ _ _ goes

section

variable (h : t.Confined s.program.system K values) (untracked : ∀ v, s.setup.tracksVariable v = false)
  (holds : top.Holds s.program.system K)

include h

theorem exitStep_confined {label : String} (hst : s.exitStep t top e label = .ok st) :
    ∀ r ∈ st.results, r.Confined s.program.system K values := by
  intro r hr
  obtain ⟨_, _, _, -, -, rfl⟩ := exitStep_cases hst
  obtain rfl := List.mem_singleton.1 hr
  exact ((h.mapConditions _).mapTop _).comeFrom _ _

theorem nextStep_confined {label : String} (hst : s.nextStep t top e label = .ok st) :
    ∀ r ∈ st.results, r.Confined s.program.system K values := by
  intro r hr
  obtain ⟨_, _, _, -, -, rfl⟩ := nextStep_cases hst
  obtain rfl := List.mem_singleton.1 hr
  exact (h.mapConditions _).mapTop _

include holds

theorem notifyStep_confined {target : Expr} {delays : List Expr}
    (hst : (s.notifyStep t top e target delays).result = .ok st) :
    ∀ r ∈ st.results, r.Confined s.program.system K values := by
  intro r hr
  obtain ⟨-, rfl⟩ | ⟨-, event, _, u, hevent, -, hu, rfl⟩ := notifyStep_cases hst
  · obtain rfl := List.mem_singleton.1 hr
    exact h.enter _
  · obtain rfl := List.mem_singleton.1 hr
    exact (notify_confined h (holds.event_mem hevent) hu).finish _

include untracked

theorem aggregateStep_confined (hst : s.aggregateStep t top e = .ok st) :
    ∀ r ∈ st.results, r.Confined s.program.system K values := by
  intro r hr
  obtain ⟨-, rfl⟩ | ⟨-, _, u, hu, rfl⟩ := aggregateStep_cases hst
  · obtain rfl := List.mem_singleton.1 hr
    exact h.enter _
  · obtain rfl := List.mem_singleton.1 hr
    refine Transition.Confined.finish ?_ _
    obtain rfl | ⟨_, _, _, w, -, target, rfl⟩ | rfl := aggregate_cases hu
    · exact h
    · have value := holds.value_mem_all 0 0
      rw [Int.ofNat_zero, target] at value
      simp only [store, untracked, Bool.false_eq_true, if_false]
      exact h.addWritten (.inl value)
    · exact ⟨h.values, h.procs, h.update, h.pending, h.updates, h.read, h.written⟩

theorem callStep_confined {f : Routine} {arity : Nat} (calls : f :: ps.routines ∈ K.calls)
    (hst : s.callStep t ps top e f arity = .ok st) (goes : st.ends = false) :
    ∀ r ∈ st.results, r.Confined s.program.system K values := by
  intro r hr
  cases callStep_cases hst with
  | argument =>
      obtain rfl := List.mem_singleton.1 hr
      exact h.enter _
  | result =>
      obtain rfl := List.mem_singleton.1 hr
      exact h.finish _
  | wait _ hst =>
      obtain ⟨_, _, _, -, -, -, rfl⟩ := waitStep_cases hst
      cases goes
  | @request i _ hi =>
      obtain rfl := List.mem_singleton.1 hr
      have receiver : (if s.program.system.isQualified top.location then top.value 1 0
          else top.receiver).unnumbered ∈ K.all s.program.system := by
        split
        · exact holds.value_mem_all 1 0
        · exact holds.receiver
      refine Transition.Confined.finish ?_ _
      have known := Stock.mem_instances_of_value receiver hi
      have kept : (t.state.global.requestUpdate i).values = t.state.global.values ∧
          (t.state.global.requestUpdate i).pending = t.state.global.pending ∧
          ∀ j ∈ (t.state.global.requestUpdate i).updates, j ∈ t.state.global.updates ∨ j = i := by
        unfold GlobalState.requestUpdate
        split
        · exact ⟨rfl, rfl, fun j => .inl⟩
        · exact ⟨rfl, rfl, fun j hj => (List.mem_append.1 hj).imp_right List.mem_singleton.1⟩
      refine ⟨kept.1.trans h.values, h.procs, h.update, fun e' d hd => h.pending e' d ?_, fun j hj => ?_, h.read,
        h.written⟩
      · have hd : (t.state.global.requestUpdate i).pending.get? e' = some d := hd
        rwa [kept.2.1] at hd
      · rcases kept.2.2 j hj with old | rfl
        · exact h.updates j old
        · exact known
  | @call m receiver =>
      obtain rfl := List.mem_singleton.1 hr
      have pushed := h.mapRunning (f := fun q => q.push (.start (.member m) receiver)) fun _ => rfl
      exact (pushed.mapConditions _).bindParams untracked _ fun d hd =>
        .inr ⟨_, calls, _, List.mem_cons_self, d, hd, rfl⟩

/-- A small step on an expression stays within what is at hand, unless the code ends. -/
theorem exprStep_confined (arises : ps.routines ∈ K.calls) (he : s.program.system.at? top.location = some e)
    (calls : ∀ id f args, e = .call id f args → f :: ps.routines ∈ K.calls)
    (hst : (s.exprStep t ps top e).result = .ok st) (goes : st.ends = false) :
    ∀ r ∈ st.results, r.Confined s.program.system K values := by
  have given : ∀ {x : SmallStep}, (pure x : Step SmallStep).result = .ok st →
      x.All (Transition.Confined s.program.system K values) →
      ∀ r ∈ st.results, r.Confined s.program.system K values := by
    intro x hx all r hr
    obtain rfl := Run.pure_result_iff.1 hx
    exact (all r hr).1
  unfold exprStep at hst
  cases e with
  | const id l =>
      dsimp only at hst
      split at hst
      · cases hst
      · exact given hst (.one (h.finish _))
  | event id name => exact given hst (.one (h.finish _))
  | var id d =>
      have known := Stock.reference_mem he (referenced_mem holds arises d)
      have read : (s.readVariable t ps top d).2.Confined s.program.system K values := by
        obtain same | same := s.readVariable_cases t ps top d <;> rw [same]
        · exact h
        · exact h.addRead known
      exact given hst (.one (read.finish _))
  | unary id op x | binary id op x y | access id x y | bracket id x | block id l | empty id =>
      exact aggregateStep_confined h untracked holds hst
  | branch id c yes no => exact given hst (Transition.Confined.steers.branchStep_all h rfl)
  | whileLoop id l c body => exact given hst (Transition.Confined.steers.loopStep_all h rfl true)
  | doLoop id l c body => exact given hst (Transition.Confined.steers.loopStep_all h rfl false)
  | forLoop id l i c p body => exact given hst (Transition.Confined.steers.forStep_all h rfl)
  | switch id l tag cases => exact given hst (Transition.Confined.steers.switchStep_all h rfl)
  | arm id value body => exact given hst (Transition.Confined.steers.armStep_all h rfl)
  | exit id label => exact exitStep_confined h hst
  | next id label => exact nextStep_confined h hst
  | ret id value =>
      dsimp only at hst
      split at hst
      · exact given hst (.one (h.enter _))
      · obtain rfl := Run.pure_result_iff.1 hst
        exact returnFrom_confined h _ _ _ goes
  | notify id target delays => exact notifyStep_confined h holds hst
  | stop id => exact given hst (.one (stop_confined (h.finish _)))
  | call id f args => exact callStep_confined h untracked holds (calls id f args rfl) hst goes

end

end Simulator

end DeltaSlice

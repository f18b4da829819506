import DeltaSlice.Proofs.Dependence.Operands
import DeltaSlice.Proofs.Step.Evolution

/-!
Small steps that do not break. A frame has a list of results for the body and for every expression that was
entered, and no index of it is negative; the edits of a small step then find all that they ask for, and they keep
it so. This needs nothing of the system whose code runs.
-/

namespace DeltaSlice

/-- The frame can be edited: it has one list of results more than indices, and none of these is negative. -/
structure Frame.Firm (f : Frame) : Prop where
  levels : f.levels.length = f.path.length + 1
  indices : ∀ i ∈ f.path, 0 ≤ i
  comingFrom : -1 ≤ f.comingFrom

namespace Frame.Firm

variable {f : Frame} {i : Int} {n : Nat}

theorem start (r : Routine) (x : Value) : (Frame.start r x).Firm :=
  ⟨rfl, by simp [Frame.start, path], Int.le_refl _⟩

theorem enter (h : f.Firm) (low : 0 ≤ i) : (f.enter i).Firm :=
  ⟨congrArg (· + 1) h.levels, List.forall_mem_cons.2 ⟨low, h.indices⟩, Int.le_refl _⟩

theorem accepts (h : f.Firm) (low : 0 ≤ i) : f.accepts i = true := by
  have levels : f.levels ≠ [] := fun none => by simpa [none] using h.levels
  simp [Frame.accepts, low, levels]

theorem put (h : f.Firm) (i : Int) (x : Option Value) : (f.put i x).Firm := by
  refine ⟨?_, ?_, ?_⟩
  · rw [Frame.path, put_location]
    refine Eq.trans ?_ h.levels
    unfold Frame.put
    split
    · rename_i levels
      simp [levels]
    · rfl
  · rw [Frame.path, put_location]
    exact h.indices
  · rw [put_comingFrom]
    exact h.comingFrom

theorem back (h : f.Firm) (low : -1 ≤ i) : Frame.Firm { f with comingFrom := i } :=
  ⟨h.levels, h.indices, low⟩

theorem pop (h : f.Firm) (inside : n ≤ f.path.length) : (f.pop n).Firm := by
  refine ⟨?_, fun i hi => h.indices i (List.mem_of_mem_drop hi), h.comingFrom⟩
  have levels := h.levels
  simp only [Frame.pop, path, List.length_drop] at levels inside ⊢
  omega

theorem leaves (h : f.Firm) (inside : f.path ≠ []) (keep : Bool) : f.leaves keep = true := by
  obtain ⟨⟨r, path⟩, c, levels, x⟩ := f
  cases path with
  | nil => exact absurd rfl inside
  | cons i up =>
      have low : 0 ≤ i := h.indices i List.mem_cons_self
      match levels, h.levels with
      | _ :: _ :: _, _ => simp [Frame.leaves, Frame.path, low]

theorem leave (h : f.Firm) (inside : f.path ≠ []) (v : Value) (keep : Bool) : (f.leave v keep).Firm := by
  unfold Frame.leave
  split
  · exact h
  · rename_i i up path
    have popped := h.pop (List.length_pos_iff.2 inside)
    have low : 0 ≤ i := h.indices i (path ▸ List.mem_cons_self)
    dsimp only
    split
    · exact (popped.back (by omega)).put _ _
    · exact popped.back (by omega)

end Frame.Firm

namespace Frame

variable {f : Frame} {n : Nat} {i : Int}

theorem outermost?_succ (levels : f.levels.length = f.path.length + 1) (n : Nat) :
    f.outermost? (n + 1) = f.path[n]? := by
  unfold outermost?
  split
  · exact (List.getElem?_eq_none (by omega)).symm
  · rfl

theorem outermost?_succ_eq_some (h : f.outermost? (n + 1) = some i) : f.path[n]? = some i := by
  unfold outermost? at h
  split at h
  · cases h
  · exact h

/-- Levels are popped only where there are as many expressions. -/
theorem outermost?_eq_some (h : f.outermost? n = some i) : n ≤ f.path.length ∧ i ∈ f.path := by
  cases n with
  | zero => simp [outermost?] at h
  | succ n =>
      have found := outermost?_succ_eq_some h
      exact ⟨(List.getElem?_eq_some_iff.1 found).1, List.mem_of_getElem? found⟩

end Frame

namespace Transition

variable {t : Transition} {top : Frame} {below : List Frame} {β : Type}

theorem mapRunning_mapRunning (t : Transition) (f g : ProcessState → ProcessState) :
    (t.mapRunning f).mapRunning g = t.mapRunning (g ∘ f) := by
  cases hps : t.running? with
  | none => simp [mapRunning, hps]
  | some ps =>
      have changed : t.mapRunning f = t.setRunning (f ps) := by rw [mapRunning, hps]
      have running : (t.setRunning (f ps)).running? = some (f ps) := by
        rw [← changed, running?_mapRunning, hps]
        rfl
      have again : t.mapRunning (g ∘ f) = t.setRunning (g (f ps)) := by
        rw [mapRunning, hps]
        rfl
      rw [changed, again, mapRunning, running]
      unfold setRunning
      cases t.proc with
      | none => rfl
      | some p => simp [State.setProc, List.set_set]

/-- Only the state and the process matter for what an edit does to the state. -/
theorem mapRunning_state {u : Transition} (proc : t.proc = u.proc) (state : t.state = u.state)
    (f : ProcessState → ProcessState) : (t.mapRunning f).state = (u.mapRunning f).state := by
  unfold mapRunning running? setRunning
  rw [proc, state]
  cases u.proc <;> dsimp only <;> split
  · rfl
  · exact state
  · rfl
  · exact state

theorem note_mapRunning_state (t : Transition) (o : Option Fault) (f : ProcessState → ProcessState) :
    ((t.note o).mapRunning f).state = (t.mapRunning f).state :=
  mapRunning_state (t := t.note o) (u := t) rfl rfl f

theorem mapConditions_mapRunning_state (t : Transition) (c : Conditions → Conditions)
    (f : ProcessState → ProcessState) : ((t.mapConditions c).mapRunning f).state = (t.mapRunning f).state :=
  mapRunning_state (t := t.mapConditions c) (u := t) rfl rfl f

theorem mapTop_mapTop (t : Transition) (f g : Frame → Frame) : (t.mapTop f).mapTop g = t.mapTop (g ∘ f) := by
  have same : (fun ps : ProcessState => (ps.mapTop f).mapTop g) = (·.mapTop (g ∘ f)) := by
    funext ⟨blocker, stack, locals⟩
    cases stack <;> rfl
  exact (mapRunning_mapRunning t _ _).trans (congrArg t.mapRunning same)

/-- Levels are popped, and the expression above goes on without a result. -/
theorem exit_eq (t : Transition) (n : Nat) (j : Int) :
    (t.mapTop (·.pop n)).editTop (Frame.editComeFrom j none) =
      (t.mapTop fun f => { f.pop n with comingFrom := j }.put j none).note
        ((t.mapTop (·.pop n)).breaks? (Frame.editComeFrom j none)) := by
  rw [comeFrom_eq, mapTop_mapTop]
  rfl

theorem fault_mapRunning (t : Transition) (f : ProcessState → ProcessState) :
    (t.mapRunning f).fault = t.fault := by
  unfold mapRunning setRunning
  split
  · split <;> rfl
  · rfl

/-- An edit of the innermost frame, where there is one. -/
theorem frames_editTop (hframes : t.frames = top :: below) (e : Edit Frame β) :
    (t.editTop e).frames = (e.run.run top).2 :: below ∧
      (t.editTop e).fault = t.fault.or (Fault.of? (e.run.run top).1) := by
  have found := top?_of_frames hframes
  have same : t.editTop e = (t.mapTop fun f => (e.run.run f).2).note (t.breaks? e) :=
    editTop_eq (fun _ => rfl) t
  rw [same, breaks?, found]
  exact ⟨frames_mapTop hframes _, congrArg (Option.or · _) (fault_mapRunning t _)⟩

/-- Nothing is broken, and all frames of the running code can be edited. -/
structure Firm (t : Transition) : Prop where
  frames : ∀ f ∈ t.frames, f.Firm
  unbroken : t.fault = none

namespace Firm

variable {r : Transition} {i : Int}

theorem of_frames (h : t.Firm) (frames : r.frames = t.frames) (fault : r.fault = t.fault) : r.Firm :=
  ⟨frames ▸ h.frames, fault.trans h.unbroken⟩

theorem mapRunning (h : t.Firm) {f : ProcessState → ProcessState} (stack : ∀ ps, (f ps).stack = ps.stack) :
    (t.mapRunning f).Firm := h.of_frames (frames_mapRunning stack) (fault_mapRunning t f)

theorem first (h : t.Firm) (hframes : t.frames = top :: below) : top.Firm :=
  h.frames top (hframes ▸ List.mem_cons_self)

theorem mapTop (h : t.Firm) (hframes : t.frames = top :: below) {f : Frame → Frame} (hf : (f top).Firm) :
    (t.mapTop f).Firm := by
  refine ⟨?_, (fault_mapRunning t _).trans h.unbroken⟩
  rw [frames_mapTop hframes]
  exact List.forall_mem_cons.2 ⟨hf, fun g hg => h.frames g (hframes ▸ List.mem_cons_of_mem _ hg)⟩

theorem enter (h : t.Firm) (hframes : t.frames = top :: below) (low : 0 ≤ i) : (t.enter i).Firm :=
  h.mapTop hframes ((h.first hframes).enter low)

/-- An edit that finds what it asks for. -/
theorem editTop (h : t.Firm) (hframes : t.frames = top :: below) {e : Edit Frame β} {b : β} {f : Frame}
    (run : e.run.run top = (.ok b, f)) (hf : f.Firm) : (t.editTop e).Firm := by
  obtain ⟨frames, fault⟩ := frames_editTop hframes e
  rw [run] at frames fault
  refine ⟨?_, by rw [fault, h.unbroken]; rfl⟩
  rw [frames]
  exact List.forall_mem_cons.2 ⟨hf, fun g hg => h.frames g (hframes ▸ List.mem_cons_of_mem _ hg)⟩

/-- An expression can be left with any value. -/
theorem finish (h : t.Firm) (hframes : t.frames = top :: below) (inside : top.path ≠ []) (sys : System)
    (v : Value) : (t.finish sys v).Firm := by
  have first := h.first hframes
  refine h.editTop hframes (b := ()) (f := sys.finish v top) ?_ (first.leave inside v _)
  rw [sys.editFinish_run, if_pos (first.leaves inside _)]

theorem comeFrom (h : t.Firm) (hframes : t.frames = top :: below) (low : 0 ≤ i) (x : Option Value) :
    (t.editTop (Frame.editComeFrom i x)).Firm := by
  have first := h.first hframes
  refine h.editTop hframes (b := ()) ?_ ((first.back (by omega : -1 ≤ i)).put i x)
  rw [Frame.editComeFrom_run, if_pos (first.accepts low)]

theorem pop (h : t.Firm) (hframes : t.frames = top :: below) :
    (t.editRunning ProcessState.editPop).Firm ∧ (t.editRunning ProcessState.editPop).frames = below := by
  rw [editPop_eq, top?_of_frames hframes]
  have popped : (t.mapRunning (·.pop)).frames = below := frames_pop hframes
  refine ⟨⟨fun f hf => ?_, ?_⟩, popped⟩
  · exact h.frames f (hframes ▸ List.mem_cons_of_mem _ (popped ▸ hf))
  · change (t.mapRunning (·.pop)).fault.or none = none
    rw [fault_mapRunning, h.unbroken]
    rfl

theorem store (h : t.Firm) (s : Simulator) (v : Variable) (x : Value) : (s.store t v x).Firm := by
  unfold Simulator.store
  split
  · split
    · exact h.mapRunning fun _ => rfl
    · exact h.of_frames rfl rfl
  · exact h

theorem bindParams (h : t.Firm) (s : Simulator) (stack : List Routine) (ds : List Decl) (xs : List Value) :
    (s.bindParams stack t ds xs).Firm :=
  Simulator.bindParams_induction (fun _ h => h.of_frames rfl rfl) (fun _ _ h => h.store s _ _) h

/-- Steps that steer find what they ask for at an expression. -/
theorem steers {s : Simulator} {n : Nat} (low : -1 ≤ top.comingFrom) (inside : top.path ≠ []) :
    Steers s top.comingFrom n (fun r => r.Firm ∧ r.frames = top :: below) Firm where
  conditions _ h := ⟨h.1.of_frames rfl rfl, h.2⟩
  enter _ first h := h.1.enter h.2 (first low).1
  finish v _ h := h.1.finish h.2 inside _ v

end Firm

end Transition

namespace Simulator

open Transition

variable {s : Simulator} {t r : Transition} {top : Frame} {below : List Frame} {e : Expr} {st : SmallStep}

/-- Processes keep their frames when their waits change, whether or not they run. -/
theorem frames_block {p : Process} {q : ProcessState} (found : t.state.procs[p.index]? = some q)
    (b : Option Blocker) : (t.setProc p (q.block b)).frames = t.frames := by
  unfold frames running? setProc State.setProc
  cases hp : t.proc with
  | none => rfl
  | some p' =>
      dsimp only
      by_cases same : p.index = p'.index
      · rw [← same, List.getElem?_set_self (List.getElem?_eq_some_iff.1 found).1, found]
        rfl
      · rw [List.getElem?_set_ne same]

/-- A notification changes neither the frames of the running code nor what is broken. -/
theorem notify_keeps_frames {ev : Event} {delay : Option Delay} (hr : (s.notify t ev delay).result = .ok r) :
    r.frames = t.frames ∧ r.fault = t.fault := by
  refine notify_induction (P := fun r => r.frames = t.frames ∧ r.fault = t.fault) ?_ ⟨rfl, rfl⟩
    (fun _ => ⟨rfl, rfl⟩) hr
  intro u v p kept told
  cases told with
  | deaf => exact kept
  | hears found => exact ⟨(frames_block found _).trans kept.1, kept.2⟩

theorem notify_frames {ev : Event} {delay : Option Delay} (hr : (s.notify t ev delay).result = .ok r) :
    r.frames = t.frames := (notify_keeps_frames hr).1

theorem stop_frames : (s.stop t).frames = t.frames := by
  unfold stop frames running?
  cases t.proc with
  | none => rfl
  | some p =>
      dsimp only
      rw [List.getElem?_map]
      cases t.state.procs[p.index]? with
      | none => rfl
      | some q =>
          rw [Option.map_some, Option.map_some, Option.map_some]
          split <;> rfl

theorem firm_one (h : t.Firm) : ∀ r ∈ [t], r.Firm := fun _ hr => List.mem_singleton.1 hr ▸ h

theorem endOfCode_firm (h : t.Firm) (ended : t.frames = []) : ∀ r ∈ (endOfCode t).results, r.Firm := by
  intro r hr
  obtain rfl := List.mem_singleton.1 hr
  split
  · exact h
  · split
    · exact h.mapRunning fun _ => rfl
    · refine ⟨fun f hf => ?_, (fault_mapRunning t _).trans h.unbroken⟩
      cases running : t.running? with
      | none => simp [frames, running?_mapRunning, running] at hf
      | some ps =>
          have stack : ps.stack = [] := by simpa [frames, running] using ended
          simp only [frames, running?_mapRunning, running, Option.map_some, Option.getD_some, ProcessState.push,
            ProcessState.block, stack] at hf
          exact List.mem_singleton.1 hf ▸ .start _ _

theorem returnFrom_firm (h : t.Firm) (hframes : t.frames = top :: below) (o : Option Expr) (i : Int) (v : Value) :
    ∀ r ∈ (s.returnFrom t o i v).results, r.Firm := by
  obtain ⟨popped, frames⟩ := h.pop hframes
  unfold returnFrom
  dsimp only
  rw [top?_eq_head?, frames]
  cases below with
  | nil => exact endOfCode_firm popped frames
  | cons caller rest =>
      have low := (popped.first frames).comingFrom
      have back := popped.comeFrom frames (by omega : 0 ≤ caller.comingFrom + 1) (some v)
      refine firm_one ?_
      split
      · exact (back.of_frames (r := Transition.mapConditions _ _) rfl rfl).mapRunning (dropParams_stack · _)
      · exact back.of_frames rfl rfl

theorem aggregate_firm (h : t.Firm) {v : Value} (hu : s.aggregate t top e = .ok (v, r)) :
    r.Firm ∧ r.frames = t.frames := by
  obtain rfl | ⟨_, _, _, w, -, -, rfl⟩ | rfl := aggregate_cases hu
  · exact ⟨h, rfl⟩
  · have noted : (t.addWritten w).Firm := h.of_frames rfl rfl
    exact ⟨noted.store s _ _, store_frames (t.addWritten w) _ _⟩
  · exact ⟨h.of_frames rfl rfl, rfl⟩

section Steps

variable (h : t.Firm) (hframes : t.frames = top :: below)

include h hframes

theorem bodyStep_firm : ∀ r ∈ (s.bodyStep t top).results, r.Firm := by
  have low := (h.first hframes).comingFrom
  unfold bodyStep
  dsimp only
  split
  · exact firm_one (h.enter hframes (by omega))
  · exact returnFrom_firm h hframes _ _ _

theorem exitStep_firm {label : String} (hst : s.exitStep t top e label = .ok st) : ∀ r ∈ st.results, r.Firm := by
  obtain ⟨levels, target, j, -, outermost, rfl⟩ := exitStep_cases hst
  obtain ⟨deep, mem⟩ := Frame.outermost?_eq_some outermost
  have noted : (t.mapConditions (·.dropThrough target.id)).Firm := h.of_frames rfl rfl
  have popped := noted.mapTop hframes (f := (·.pop (levels + 1))) ((h.first hframes).pop deep)
  have frames := frames_mapTop (t := t.mapConditions (·.dropThrough target.id)) hframes (·.pop (levels + 1))
  exact firm_one (popped.comeFrom frames ((h.first hframes).indices j mem) none)

theorem nextStep_firm {label : String} (hst : s.nextStep t top e label = .ok st) : ∀ r ∈ st.results, r.Firm := by
  obtain ⟨levels, target, _, -, outermost, rfl⟩ := nextStep_cases hst
  have popped := (h.first hframes).pop (Frame.outermost?_eq_some outermost).1
  have noted : (t.mapConditions (·.dropAbove target.id)).Firm := h.of_frames rfl rfl
  refine firm_one (noted.mapTop hframes (popped.back ?_))
  unfold roundEnd
  split <;> omega

variable (inside : top.path ≠ [])

include inside

theorem aggregateStep_firm (hst : s.aggregateStep t top e = .ok st) : ∀ r ∈ st.results, r.Firm := by
  have low := (h.first hframes).comingFrom
  obtain ⟨-, rfl⟩ | ⟨-, _, u, hu, rfl⟩ := aggregateStep_cases hst
  · exact firm_one (h.enter hframes (by omega))
  · obtain ⟨kept, frames⟩ := aggregate_firm h hu
    exact firm_one (kept.finish (frames.trans hframes) inside _ _)

theorem waitStep_firm {arity : Nat} (hst : s.waitStep t top e arity = .ok st) : ∀ r ∈ st.results, r.Firm := by
  obtain ⟨_, _, _, -, -, -, rfl⟩ := waitStep_cases hst
  exact firm_one ((h.finish hframes inside _ _).mapRunning fun _ => rfl)

theorem callStep_firm {ps : ProcessState} {f : Routine} {arity : Nat}
    (hst : s.callStep t ps top e f arity = .ok st) : ∀ r ∈ st.results, r.Firm := by
  have low := (h.first hframes).comingFrom
  cases callStep_cases hst with
  | argument => exact firm_one (h.enter hframes (by omega))
  | result => exact firm_one (h.finish hframes inside _ _)
  | wait _ hst => exact waitStep_firm h hframes inside hst
  | request =>
      have requested : ∀ i, (t.mapGlobal (·.requestUpdate i)).Firm := fun _ => h.of_frames rfl rfl
      exact firm_one ((requested _).finish (t := t.mapGlobal _) hframes inside _ _)
  | call =>
      refine firm_one (Firm.bindParams ?_ s _ _ _)
      refine Firm.of_frames (t := t.mapRunning _) ⟨?_, (fault_mapRunning t _).trans h.unbroken⟩ rfl rfl
      rw [frames_push hframes]
      exact List.forall_mem_cons.2 ⟨.start _ _, hframes ▸ h.frames⟩

theorem notifyStep_firm {target : Expr} {delays : List Expr}
    (hst : (s.notifyStep t top e target delays).result = .ok st) : ∀ r ∈ st.results, r.Firm := by
  have low := (h.first hframes).comingFrom
  obtain ⟨-, rfl⟩ | ⟨-, _, _, u, -, -, hu, rfl⟩ := notifyStep_cases hst
  · exact firm_one (h.enter hframes (by omega))
  · obtain ⟨frames, fault⟩ := notify_keeps_frames hu
    exact firm_one ((h.of_frames frames fault).finish (frames.trans hframes) inside _ _)

theorem exprStep_firm {ps : ProcessState} (hst : (s.exprStep t ps top e).result = .ok st) :
    ∀ r ∈ st.results, r.Firm := by
  have low := (h.first hframes).comingFrom
  have steers {n : Nat} : Steers s top.comingFrom n (fun r => r.Firm ∧ r.frames = top :: below) Firm :=
    Firm.steers low inside
  have given : ∀ {x : SmallStep}, (pure x : Step SmallStep).result = .ok st → (∀ r ∈ x.results, r.Firm) →
      ∀ r ∈ st.results, r.Firm := fun hx all => Run.pure_result_iff.1 hx ▸ all
  have all {x : SmallStep} (hx : x.All Firm) : ∀ r ∈ x.results, r.Firm := fun r hr => (hx r hr).1
  have finish (v : Value) : (t.finish s.program.system v).Firm := h.finish hframes inside _ v
  unfold exprStep at hst
  cases e with
  | const id l =>
      dsimp only at hst
      split at hst
      · cases hst
      · exact given hst (firm_one (finish _))
  | event id name => exact given hst (firm_one (finish _))
  | var id d =>
      have read : (s.readVariable t ps top d).2.Firm ∧ (s.readVariable t ps top d).2.frames = top :: below := by
        obtain same | same := s.readVariable_cases t ps top d <;> rw [same]
        · exact ⟨h, hframes⟩
        · exact ⟨h.of_frames rfl rfl, hframes⟩
      exact given hst (firm_one (read.1.finish read.2 inside _ _))
  | unary id op x | binary id op x y | access id x y | bracket id x | block id l | empty id =>
      exact aggregateStep_firm h hframes inside hst
  | branch id c yes no => exact given hst (all (steers.branchStep_all ⟨h, hframes⟩ rfl))
  | whileLoop id l c body => exact given hst (all (steers.loopStep_all ⟨h, hframes⟩ rfl true))
  | doLoop id l c body => exact given hst (all (steers.loopStep_all ⟨h, hframes⟩ rfl false))
  | forLoop id l i c p body => exact given hst (all (steers.forStep_all ⟨h, hframes⟩ rfl))
  | switch id l tag cases => exact given hst (all (steers.switchStep_all ⟨h, hframes⟩ rfl))
  | arm id value body => exact given hst (all (steers.armStep_all ⟨h, hframes⟩ rfl))
  | exit id label => exact exitStep_firm h hframes hst
  | next id label => exact nextStep_firm h hframes hst
  | ret id value =>
      dsimp only at hst
      split at hst
      · exact given hst (firm_one (h.enter hframes (Int.le_refl 0)))
      · exact given hst (returnFrom_firm h hframes _ _ _)
  | notify id target delays => exact notifyStep_firm h hframes inside hst
  | stop id => exact given hst (firm_one ((finish .unknown).of_frames stop_frames rfl))
  | call id f args => exact callStep_firm h hframes inside hst

end Steps

/-- Small steps leave all frames firm, and nothing breaks on the way. -/
theorem advance_firm (h : t.Firm) (hst : (s.advance t).result = .ok st) : ∀ r ∈ st.results, r.Firm := by
  obtain ⟨ps, top, hps, htop, ⟨-, rfl⟩ | ⟨i, up, e, sc, path, -, -, hst⟩⟩ := advance_cases hst
  · obtain ⟨below, -, hframes⟩ := frames_of_top hps htop
    exact bodyStep_firm h hframes
  · obtain ⟨below, -, hframes⟩ := frames_of_top hps htop
    exact exprStep_firm (t := { t with scratch := sc }) (h.of_frames rfl rfl) hframes (by simp [path]) hst

/-- From frames that can be edited, a small step is an advance of which the results are told. -/
theorem smallStep_eq (unfrozen : t.frozen = false) (firm : ∀ f ∈ t.frames, f.Firm) :
    (s.smallStep t).result = ((s.advance t.resetAccesses).result >>= fun st =>
      (s.observeResults st.expr st.comingFrom st.results).result >>= fun results => .ok { st with results }) := by
  unfold smallStep
  rw [unfrozen, if_neg Bool.false_ne_true, Run.result_bind]
  cases hst : (s.advance t.resetAccesses).result with
  | error f => rfl
  | ok st =>
      have whole := advance_firm (t := t.resetAccesses) ⟨firm, rfl⟩ hst
      have checked : st.checked = .ok st := SmallStep.checked_iff.2 ⟨rfl, fun r hr => (whole r hr).unbroken⟩
      change (Run.ofFault st.checked >>= fun st => s.observeResults st.expr st.comingFrom st.results >>= fun results =>
        pure { st with results }).result = _
      rw [Run.result_bind, Run.result_ofFault, checked]
      exact Run.result_bind _ _

/-- Firm frames stay firm. -/
theorem smallStep_firm (firm : ∀ f ∈ t.frames, f.Firm) (hst : (s.smallStep t).result = .ok st)
    (hr : r ∈ st.results) : ∀ f ∈ r.frames, f.Firm := by
  obtain ⟨st₀, rs, u, hadv, hu, -, same, rfl⟩ := smallStep_mem hst hr
  rw [same]
  exact (advance_firm (t := t.resetAccesses) ⟨firm, rfl⟩ hadv u hu).frames

end Simulator

end DeltaSlice

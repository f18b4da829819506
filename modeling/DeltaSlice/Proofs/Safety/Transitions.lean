import DeltaSlice.Proofs.Model.Numbered
import DeltaSlice.Proofs.Safety.Learning
import DeltaSlice.Proofs.Step.Bystanders

/-!
What holds of transitions under way. The state is sound, processes that do not run have a frame to go on with
unless they have come to their end, and the observer has learned what it expects. Edits of the running code
keep this.
-/

namespace DeltaSlice

open Pdg

/-- The system is proper, its cases are found, and its processes have their places and belong to instances with a
class. -/
structure Simulator.Proper (s : Simulator) : Prop where
  system : s.program.system.isProper = true
  cased : s.program.Cased
  placed : s.Placed
  instances : ∀ p ∈ s.procs, (s.program.system.classOf? p.inst).isSome = true

namespace State

variable {s : Simulator} {st : State} {ps : ProcessState} {g : GlobalState} {v : Variable} {x : Value}

/-- Every process has come to its end or has a frame to go on with. -/
def Framed (st : State) : Prop := ∀ ps ∈ st.procs, ps.Framed

namespace Sound

theorem setProc (h : st.Sound s) (i : Nat) (hps : ps.Sound s.program.system) : (st.setProc i ps).Sound s where
  length := (List.length_set ..).trans h.length
  procs q hq := (List.mem_or_eq_of_mem_set hq).elim (h.procs q) fun same => same ▸ hps
  update := h.update
  values := h.values
  updates := h.updates
  single := h.single

theorem setUpdate (h : st.Sound s) {u : Option ProcessState} (hu : ∀ ps, u = some ps → ps.Sound s.program.system) :
    State.Sound s { st with update := u } := ⟨h.length, h.procs, hu, h.values, h.updates, h.single⟩

/-- The scheduler's part may change in what is pending and in whether the simulation was stopped. -/
theorem setGlobal (h : st.Sound s) (values : g.values = st.global.values) (updates : ∀ i ∈ g.updates,
    i ∈ st.global.updates) (single : g.Single) : State.Sound s { st with global := g } where
  length := h.length
  procs := h.procs
  update := h.update
  values := values ▸ h.values
  updates i hi := h.updates i (updates i hi)
  single := single

theorem setPending (h : st.Sound s) (e : Event) (d : Option Delay) :
    State.Sound s { st with global := st.global.setPending e d } := by
  refine h.setGlobal ?_ ?_ h.single.setPending
  · cases d <;> rfl
  · cases d <;> exact fun _ hi => hi

theorem setValue (h : st.Sound s) (v : Variable) (hx : x.Classed s.program.system) :
    State.Sound s { st with global := st.global.setValue v x } := by
  refine ⟨h.length, h.procs, h.update, fun w y hy => ?_, h.updates, h.single⟩
  have hy : (st.global.values.insert v x).get? w = some y := hy
  rw [Table.get?_insert] at hy
  split at hy
  · exact Option.some.inj hy ▸ hx
  · exact h.values w y hy

theorem requestUpdate (h : st.Sound s) {i : Instance} (hi : (s.program.system.classOf? i).isSome = true) :
    State.Sound s { st with global := st.global.requestUpdate i } := by
  unfold GlobalState.requestUpdate
  split
  · exact h
  · refine ⟨h.length, h.procs, h.update, h.values, fun j hj => ?_, h.single⟩
    exact (List.mem_append.1 hj).elim (h.updates j) fun hj => List.mem_singleton.1 hj ▸ hi

theorem getElem?_isSome (h : st.Sound s) (placed : s.Placed) {p : Process} (hp : p ∈ s.procs) :
    ∃ ps, st.procs[p.index]? = some ps := by
  obtain ⟨i, hi⟩ := List.mem_iff_getElem?.1 hp
  obtain rfl := placed i p hi
  have lt := (List.getElem?_eq_some_iff.1 hi).1
  exact ⟨_, List.getElem?_eq_getElem (h.length ▸ lt)⟩

end Sound

end State

namespace Transition

/-- What holds of a transition, whether code runs or the simulation advances: the state is sound, the other
processes have frames, and what was learned fits. The state may be changed. -/
structure Held (s : Simulator) (entry : Option NodeId) (t : Transition) : Prop where
  state : t.state.Sound s
  proc : ∀ p, t.proc = some p → p ∈ s.procs
  others : ∀ (i : Nat) ps, t.proc.map (·.index) ≠ some i → t.state.procs[i]? = some ps → ps.Framed
  announced : t.scratch.Announced
  info : s.setup.observer.Fits entry t.info
  unfrozen : t.frozen = false

/-- What holds while code runs: it was started for an instance. -/
structure Runs (s : Simulator) (entry : Option NodeId) (t : Transition) : Prop extends t.Held s entry where
  origin : t.origin.isSome = true

variable {s : Simulator} {entry : Option NodeId} {t r : Transition} {top : Frame} {below : List Frame}
  {x : Value} {e : Expr}

theorem stack_of_frames (hframes : t.frames = top :: below) {ps : ProcessState} (hps : t.running? = some ps) :
    ps.stack = top :: below := by
  obtain ⟨q, hq, hstack⟩ := frames_eq_cons.1 hframes
  exact Option.some.inj (hps.symm.trans hq) ▸ hstack

namespace Held

theorem running (h : t.Held s entry) {ps : ProcessState} (hps : t.running? = some ps) :
    ps.Sound s.program.system := by
  unfold running? at hps
  split at hps
  · exact h.state.procs ps (List.mem_of_getElem? hps)
  · exact h.state.update ps hps

theorem sound_top (h : t.Held s entry) (hframes : t.frames = top :: below) : top.Sound s.program.system := by
  obtain ⟨ps, hps, hstack⟩ := frames_eq_cons.1 hframes
  exact (h.running hps).frames top (by rw [hstack]; exact List.mem_cons_self)

theorem callers (h : t.Held s entry) (hframes : t.frames = top :: below) :
    ∀ f ∈ below, f.Calls s.program.system := by
  obtain ⟨ps, hps, hstack⟩ := frames_eq_cons.1 hframes
  intro f hf
  exact (h.running hps).callers f (by rw [hstack]; exact hf)

theorem mapRunning (h : t.Held s entry) {f : ProcessState → ProcessState}
    (keeps : ∀ ps, t.running? = some ps → ps.Sound s.program.system → (f ps).Sound s.program.system) :
    (t.mapRunning f).Held s entry := by
  have same := (Keeps.refl t).mapRunning f
  refine ⟨?_, fun p hp => h.proc p (same.proc ▸ hp), ?_, ?_, same.info ▸ h.info, same.frozen.trans h.unfrozen⟩
  · unfold Transition.mapRunning
    split
    · rename_i ps hps
      have sound := keeps ps hps (h.running hps)
      unfold Transition.setRunning
      split
      · exact h.state.setProc _ sound
      · exact h.state.setUpdate fun q hq => Option.some.inj hq ▸ sound
    · exact h.state
  · rw [same.proc]
    intro i ps other hps
    refine h.others i ps other ?_
    unfold Transition.mapRunning Transition.setRunning at hps
    split at hps
    · split at hps
      · rename_i p hp
        have apart : p.index ≠ i := fun same => other (by rw [hp, ← same]; rfl)
        rwa [State.setProc, List.getElem?_set_ne apart] at hps
      · exact hps
    · exact hps
  · unfold Scratch.Announced
    rw [same.announced]
    exact h.announced

theorem mapScratch (h : t.Held s entry) {f : Scratch → Scratch}
    (announced : (f t.scratch).announced = t.scratch.announced) : (t.mapScratch f).Held s entry :=
  ⟨h.state, h.proc, h.others, fun stack hstack => h.announced stack (announced ▸ hstack), h.info, h.unfrozen⟩

theorem withGlobal (h : t.Held s entry) {g : GlobalState} (state : State.Sound s { t.state with global := g }) :
    Held s entry { t with state := { t.state with global := g } } :=
  ⟨state, h.proc, h.others, h.announced, h.info, h.unfrozen⟩

theorem note (h : t.Held s entry) (f : Option Fault) : (t.note f).Held s entry :=
  ⟨h.state, h.proc, h.others, h.announced, h.info, h.unfrozen⟩

/-- The frames of the running code can be edited. -/
theorem firm (h : t.Held s entry) : ∀ f ∈ t.frames, f.Firm := by
  intro f hf
  cases hps : t.running? with
  | none => simp [frames, hps] at hf
  | some ps => exact ((h.running hps).frames f (by simpa [frames, hps] using hf)).firm

/-- All processes have frames if the one that runs has. -/
theorem framed (h : t.Held s entry) (own : ∀ p ps, t.proc = some p → t.state.procs[p.index]? = some ps →
    ps.Framed) : t.state.Framed := by
  intro ps hps
  obtain ⟨i, hi⟩ := List.mem_iff_getElem?.1 hps
  by_cases other : t.proc.map (·.index) = some i
  · obtain ⟨p, hp, rfl⟩ := Option.map_eq_some_iff.1 other
    exact own p ps hp hi
  · exact h.others i ps other hi

end Held

theorem awake_of_frames (h : t.Held s entry) (hframes : t.frames = top :: below) :
    t.Awake s.program.system := ⟨top, top?_of_frames hframes, h.sound_top hframes⟩

theorem exists_frames_of_awake (h : t.Awake s.program.system) : ∃ top below, t.frames = top :: below := by
  obtain ⟨top, htop, -⟩ := h
  rw [top?_eq_head?] at htop
  exact ⟨top, List.head?_eq_some_iff.1 htop⟩

namespace Runs

theorem of_held (h : t.Runs s entry) (held : r.Held s entry) (origin : r.origin = t.origin) : r.Runs s entry :=
  ⟨held, origin ▸ h.origin⟩

theorem mapRunning (h : t.Runs s entry) {f : ProcessState → ProcessState}
    (keeps : ∀ ps, t.running? = some ps → ps.Sound s.program.system → (f ps).Sound s.program.system) :
    (t.mapRunning f).Runs s entry :=
  h.of_held (h.toHeld.mapRunning keeps) ((Keeps.refl t).mapRunning f).origin

theorem mapScratch (h : t.Runs s entry) {f : Scratch → Scratch}
    (announced : (f t.scratch).announced = t.scratch.announced) : (t.mapScratch f).Runs s entry :=
  h.of_held (h.toHeld.mapScratch announced) rfl

theorem note (h : t.Runs s entry) (f : Option Fault) : (t.note f).Runs s entry :=
  h.of_held (h.toHeld.note f) rfl

theorem withGlobal (h : t.Runs s entry) {g : GlobalState} (state : State.Sound s { t.state with global := g }) :
    Runs s entry { t with state := { t.state with global := g } } := h.of_held (h.toHeld.withGlobal state) rfl

/-- The frame on top of the stack changes. -/
theorem mapTop (h : t.Runs s entry) (hframes : t.frames = top :: below) {f : Frame → Frame}
    (sound : (f top).Sound s.program.system) :
    (t.mapTop f).Runs s entry ∧ (t.mapTop f).Awake s.program.system := by
  have runs : (t.mapTop f).Runs s entry := by
    refine h.mapRunning fun ps hps hsound => hsound.mapTop fun top' htop _ => ?_
    rw [ProcessState.top?, stack_of_frames hframes hps] at htop
    exact Option.some.inj htop ▸ sound
  exact ⟨runs, awake_of_frames runs.toHeld (frames_mapTop hframes f)⟩

theorem enter (h : t.Runs s entry) (hframes : t.frames = top :: below) {es : List Expr} {i : Int}
    (hes : s.program.system.scope? top.location = some es) (inside : 0 ≤ i ∧ i < es.length) :
    (t.enter i).Runs s entry ∧ (t.enter i).Awake s.program.system :=
  h.mapTop hframes ((h.sound_top hframes).enter hes inside.1 inside.2)

/-- An expression is left with a result that fits. -/
theorem finish (h : t.Runs s entry) (hframes : t.frames = top :: below)
    (he : s.program.system.at? top.location = some e) (hx : x.Classed s.program.system)
    (place : s.program.system.isAssigned top.location = true → x.IsPlace) :
    (t.finish s.program.system x).Runs s entry ∧
      (t.finish s.program.system x).Awake s.program.system := by
  obtain ⟨i, up, path⟩ := Frame.index_of_at? he
  have inside : top.path ≠ [] := fun body => by cases body.symm.trans path
  obtain ⟨runs, awake⟩ := h.mapTop hframes ((h.sound_top hframes).finish inside hx place)
  rw [finish_eq]
  exact ⟨runs.note _, awake⟩

/-- The expression above goes on with the result of a child. -/
theorem comeFrom (h : t.Runs s entry) (hframes : t.frames = top :: below) {i : Int} {x : Option Value}
    (sound : Frame.Sound s.program.system ({ top with comingFrom := i }.put i x)) :
    (t.editTop (Frame.editComeFrom i x)).Runs s entry ∧
      (t.editTop (Frame.editComeFrom i x)).Awake s.program.system := by
  obtain ⟨runs, awake⟩ := h.mapTop hframes (f := fun f => { f with comingFrom := i }.put i x) sound
  rw [comeFrom_eq]
  exact ⟨runs.note _, awake⟩

theorem store (h : t.Runs s entry) (v : Variable) (hx : x.Classed s.program.system) :
    (s.store t v x).Runs s entry := by
  unfold Simulator.store
  split
  · split
    · exact h.mapRunning fun ps _ hps => hps.setLocal v hx
    · exact h.withGlobal (h.state.setValue v hx)
  · exact h

theorem bindParams (stack : List Routine) {ds : List Decl} {xs : List Value} (h : t.Runs s entry)
    (hxs : ∀ x ∈ xs, x.Classed s.program.system) (hframes : t.frames = top :: below) :
    (s.bindParams stack t ds xs).Runs s entry ∧ (s.bindParams stack t ds xs).frames = top :: below :=
  Simulator.bindParams_induction (P := fun u => u.Runs s entry ∧ u.frames = top :: below)
    (fun _ h => ⟨h.1.mapScratch rfl, h.2⟩)
    (fun _ hx h => ⟨h.1.store _ (hxs _ hx), (Simulator.store_frames _ _ _).trans h.2⟩) ⟨h, hframes⟩

/-- What is loaded of a variable is sound. -/
theorem load (h : t.Runs s entry) {ps : ProcessState} (hps : t.running? = some ps) (v : Variable) :
    (Simulator.load t ps v).Classed s.program.system := by
  unfold Simulator.load
  split
  · cases hv : ps.locals.get? v with
    | none => exact .of_none rfl
    | some y => exact (h.running hps).locals v y hv
  · cases hv : t.state.global.values.get? v with
    | none => exact .of_none rfl
    | some y => exact h.state.values v y hv

/-- Steps that steer go on in a sound frame, if they are not on the target of an assignment. -/
theorem steers (he : s.program.system.at? top.location = some e)
    (other : e.isCall = false) (free : s.program.system.isAssigned top.location = false) :
    Steers s top.comingFrom e.children.length (fun r => r.Runs s entry ∧ r.frames = top :: below)
      (fun r => r.Runs s entry ∧ r.Awake s.program.system) where
  conditions _ h := ⟨h.1.mapScratch rfl, h.2⟩
  enter j inside h := by
    obtain ⟨low, high⟩ := (h.1.sound_top h.2).bounds he other
    exact h.1.enter h.2 (System.scope?_of_at? he) ⟨(inside low).1, (inside low).2 high⟩
  finish v plain h := h.1.finish h.2 he (.of_none (by rcases plain with rfl | ⟨b, rfl⟩ <;> rfl)) fun assigned => by
    rw [free] at assigned
    cases assigned

end Runs

end Transition

end DeltaSlice

/-!
Notices to processes that do not run: their waits change, and the running code is left alone. Such a process
has a frame at which it resumes, so the observer can be told of it.
-/

namespace DeltaSlice

/-- `r` comes from `t` by changes to what does not run. -/
structure Transition.Spares (t r : Transition) : Prop where
  proc : r.proc = t.proc
  origin : r.origin = t.origin
  running : r.running? = t.running?
  stack : ∀ i : Nat, r.state.procs[i]?.map (·.stack) = t.state.procs[i]?.map (·.stack)

namespace Transition

variable {s : Simulator} {entry : Option NodeId} {t u r : Transition} {p : Process} {ps : ProcessState}

namespace Spares

theorem refl (t : Transition) : t.Spares t := ⟨rfl, rfl, rfl, fun _ => rfl⟩

theorem trans (h : t.Spares u) (h' : u.Spares r) : t.Spares r :=
  ⟨h'.proc.trans h.proc, h'.origin.trans h.origin, h'.running.trans h.running,
    fun i => (h'.stack i).trans (h.stack i)⟩

theorem frames (h : t.Spares r) : r.frames = t.frames := by
  unfold Transition.frames
  rw [h.running]

end Spares

theorem block_spares (found : t.state.procs[p.index]? = some ps)
    (other : t.proc.map (·.index) ≠ some p.index) (b : Option Blocker) : t.Spares (t.setProc p (ps.block b)) := by
  refine ⟨rfl, rfl, ?_, fun i => ?_⟩
  · unfold running? setProc
    cases hq : t.proc with
    | none => rfl
    | some q =>
        have apart : p.index ≠ q.index := fun same => other (by rw [hq, same]; rfl)
        exact List.getElem?_set_ne apart
  · unfold setProc State.setProc
    rw [List.getElem?_set]
    split
    · rename_i same
      subst same
      have inside := (List.getElem?_eq_some_iff.1 found).1
      rw [if_pos inside, found]
      rfl
    · rfl

/-- The wait of a process that does not run changes. -/
theorem Held.block (h : t.Held s entry) (found : t.state.procs[p.index]? = some ps) (framed : ps.stack ≠ [])
    (b : Option Blocker) : (t.setProc p (ps.block b)).Held s entry := by
  refine ⟨h.state.setProc _ ((h.state.procs ps (List.mem_of_getElem? found)).block b), h.proc, ?_, h.announced,
    h.info, h.unfrozen⟩
  intro i q apart hq
  have hq : (t.state.procs.set p.index (ps.block b))[i]? = some q := hq
  rw [List.getElem?_set] at hq
  split at hq
  · split at hq
    · exact .inr (Option.some.inj hq ▸ framed)
    · cases hq
  · exact h.others i q apart hq

theorem Held.found (h : t.Held s entry) (placed : s.Placed) (hp : p ∈ s.procs) :
    ∃ ps, t.state.procs[p.index]? = some ps := h.state.getElem?_isSome placed hp

end Transition

open Transition

namespace Simulator

variable {s : Simulator} {entry : Option NodeId} {t : Transition} {p : Process} {ps : List Process}

theorem notifyProcess_unbroken (h : t.Held s entry) (placed : s.Placed) (hp : p ∈ s.procs)
    (other : t.proc.map (·.index) ≠ some p.index) (notified : List Event) :
    Unbroken (fun r => r.Held s entry ∧ t.Spares r) (s.notifyProcess t p notified).result := by
  obtain ⟨q, found⟩ := h.found placed hp
  unfold notifyProcess
  rw [found]
  dsimp only
  split
  · rename_i l waits
    split
    · exact .ok ⟨h, .refl t⟩
    · have framed := (h.others _ q other found).of_waiting waits (by simp)
      generalize (if (l.events.filter fun e => !notified.contains e).isEmpty || l.choice then none
        else some (Blocker.events (l.withEvents (l.events.filter fun e => !notified.contains e)))) = b
      have blocked := h.block found framed b
      have spares := block_spares found other b
      have resumes : (t.setProc p (q.block b)).state.procs[p.index]? = some (q.block b) :=
        List.getElem?_set_self (List.getElem?_eq_some_iff.1 found).1
      refine Unbroken.run_bind (Observer.waitedForEvents_unbroken blocked.info resumes framed) fun i fits => ?_
      exact .ok ⟨⟨blocked.state, blocked.proc, blocked.others, blocked.announced, fits,
        blocked.unfrozen⟩,
        spares.proc, spares.origin, spares.running, spares.stack⟩
  · exact .ok ⟨h, .refl t⟩

theorem notifyProcesses_unbroken (h : t.Held s entry) (placed : s.Placed) (hps : ∀ p ∈ ps, p ∈ s.procs)
    (others : ∀ p ∈ ps, t.proc.map (·.index) ≠ some p.index) (notified : List Event) :
    Unbroken (fun r => r.Held s entry ∧ t.Spares r) (s.notifyProcesses t notified ps).result := by
  induction ps generalizing t with
  | nil => exact .ok ⟨h, .refl t⟩
  | cons p ps ih =>
      obtain ⟨hp, hps⟩ := List.forall_mem_cons.1 hps
      obtain ⟨other, others⟩ := List.forall_mem_cons.1 others
      refine (notifyProcess_unbroken h placed hp other notified).run_bind fun u ⟨hu, first⟩ => ?_
      refine (ih hu hps fun q hq => ?_).mono fun r _ ⟨hr, rest⟩ => ⟨hr, first.trans rest⟩
      rw [first.proc]
      exact others q hq

theorem notify_unbroken (h : t.Held s entry) (placed : s.Placed) (e : Event) (delay : Option Delay) :
    Unbroken (fun r => r.Held s entry ∧ t.Spares r) (s.notify t e delay).result := by
  have pending : ∀ d, Held s entry (t.mapGlobal (·.setPending e d)) := fun d =>
    h.withGlobal (h.state.setPending e d)
  unfold notify
  split
  · exact .ok ⟨h, .refl t⟩
  · split
    · exact .ok ⟨pending _, rfl, rfl, rfl, fun _ => rfl⟩
    · refine (notifyProcesses_unbroken (pending _) placed (fun p hp => (List.mem_filter.1 hp).1) (fun p hp => ?_)
        [e]).mono fun r _ hr => ⟨hr.1, hr.2.proc, hr.2.origin, hr.2.running, hr.2.stack⟩
      exact fun same => (of_decide_eq_true (List.mem_filter.1 hp).2) same.symm

/-- Stopping the simulation leaves all frames where they are. -/
theorem stop_runs (h : t.Runs s entry) : (s.stop t).Runs s entry ∧ (s.stop t).frames = t.frames := by
  obtain ⟨halt, same, stack, framed, sound⟩ : ∃ halt : ProcessState → ProcessState,
      s.stop t = { t with state := { t.state with
        global := t.state.global.stop, procs := t.state.procs.map halt } } ∧
      (∀ ps, (halt ps).stack = ps.stack) ∧ (∀ ps, ps.Framed → (halt ps).Framed) ∧
      ∀ ps, ps.Sound s.program.system → (halt ps).Sound s.program.system := by
    refine ⟨_, rfl, fun ps => ?_, fun ps h => ?_, fun ps h => ?_⟩
    · split <;> rfl
    · split
      · exact h
      · exact h
      · exact .inl rfl
    · split
      · exact h
      · exact h
      · exact h.block _
  rw [same]
  refine ⟨⟨⟨⟨?_, ?_, h.state.update, h.state.values, h.state.updates, List.nodup_nil⟩, h.proc, ?_, h.announced,
    h.info, h.unfrozen⟩, h.origin⟩, ?_⟩
  · exact (List.length_map ..).trans h.state.length
  · intro ps hps
    obtain ⟨q, hq, rfl⟩ := List.mem_map.1 hps
    exact sound q (h.state.procs q hq)
  · intro i ps other hps
    obtain ⟨q, hq, rfl⟩ := Option.map_eq_some_iff.1 ((List.getElem?_map ..).symm.trans hps)
    exact framed q (h.others i q other hq)
  · unfold frames running?
    cases t.proc with
    | none => rfl
    | some p =>
        dsimp only
        rw [List.getElem?_map]
        cases t.state.procs[p.index]? with
        | none => rfl
        | some q => exact stack q

end Simulator

end DeltaSlice

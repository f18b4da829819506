import DeltaSlice.Proofs.Dependence.Transitions
import DeltaSlice.Proofs.Exploration.Schedules
import DeltaSlice.Proofs.Step.Bystanders
import DeltaSlice.Proofs.Step.Observed
import DeltaSlice.Proofs.Waits.Effects
import DeltaSlice.Proofs.Waits.Timing
import DeltaSlice.Proofs.Worklist.Distributive

/-!
What a small step does to the waits of other processes and to pending notifications: nothing but what it
notifies. This is known from the transition before the step alone.
-/

namespace DeltaSlice

namespace Simulator

variable {s : Simulator} {t r : Transition}

/-- A notification of an event, at once or later. -/
def notice (e : Event) (delay : Option Delay) : Happening :=
  match delay with
  | none => .notified e
  | some d => .planned e d

/-- What a small step on a notification notifies, once its operands are evaluated. -/
def noticesOf (top : Frame) (e : Expr) (delays : List Expr) : History :=
  if top.comingFrom < delays.length then []
  else match (top.value 0 0).asEvent?, delayOf top e delays with
    | some event, .ok delay => [notice event delay]
    | _, _ => []

/-- What the next small step notifies. -/
def notices (s : Simulator) (t : Transition) : History :=
  match t.top? with
  | none => []
  | some top =>
    match s.program.at? top.location with
    | some (.notify id target delays) => noticesOf top (.notify id target delays) delays
    | _ => []

/-- The transition `r` goes on from `t`, and all that happened to the other processes on the way is `h`. -/
structure Continues (s : Simulator) (h : History) (t r : Transition) : Prop where
  proc : r.proc = t.proc
  undergoes : s.Undergoes (t.proc.map (·.index)) h t.state r.state

namespace Continues

variable {h h' : History} {u : Transition}

theorem trans (first : s.Continues h t u) (next : s.Continues h' u r) : s.Continues (h' ++ h) t r := by
  refine ⟨next.proc.trans first.proc, first.undergoes.trans ?_⟩
  rw [← first.proc]
  exact next.undergoes

theorem silent (proc : r.proc = t.proc) (stopped : r.state.global.stopped = t.state.global.stopped)
    (pending : r.state.global.pending = t.state.global.pending)
    (waits : ∀ i, some i ≠ t.proc.map (·.index) → r.state.waitOf? i = t.state.waitOf? i) :
    s.Continues [] t r := ⟨proc, .nil stopped pending waits⟩

theorem refl (t : Transition) : s.Continues [] t t := silent rfl rfl rfl fun _ _ => rfl

/-- What else belongs to the running code is changed. -/
theorem edited (first : s.Continues h t u) (proc : r.proc = u.proc)
    (stopped : r.state.global.stopped = u.state.global.stopped)
    (pending : r.state.global.pending = u.state.global.pending)
    (procs : r.state.procs = u.state.procs) : s.Continues h t r :=
  have rest : s.Continues [] u r := silent proc stopped pending fun i _ => by rw [State.waitOf?, procs]; rfl
  first.trans rest

theorem mapRunning (f : ProcessState → ProcessState) : s.Continues [] t (t.mapRunning f) := by
  unfold Transition.mapRunning
  cases t.running? with
  | none => exact refl t
  | some ps =>
      unfold Transition.setRunning
      cases hp : t.proc with
      | none => exact silent hp.symm rfl rfl fun _ _ => rfl
      | some p =>
          refine silent hp.symm rfl rfl fun i other => ?_
          have other : i ≠ p.index := fun same => other (by rw [hp, same]; rfl)
          exact (State.waitOf?_setProc ..).trans (if_neg other)

theorem finish (sys : System) (v : Value) : s.Continues [] t (t.finish sys v) := by
  rw [Transition.finish_eq]
  exact (mapRunning _).edited rfl rfl rfl rfl

end Continues

end Simulator

theorem Evolves.continues {s : Simulator} {t r : Transition} {l : List Instance} (h : Evolves t l r) :
    s.Continues [] t r := by
  induction h with
  | refl => exact .refl t
  | running f _ ih => exact ih.trans (.mapRunning f)
  | scratch f _ ih => exact ih.edited rfl rfl rfl rfl
  | value v x _ ih => exact ih.edited rfl rfl rfl rfl
  | list _ ih => exact ih.edited rfl rfl rfl rfl
  | note f _ ih => exact ih.edited rfl rfl rfl rfl
  | @request _ r i _ ih =>
      have same : (r.state.global.requestUpdate i).stopped = r.state.global.stopped ∧
          (r.state.global.requestUpdate i).pending = r.state.global.pending := by
        unfold GlobalState.requestUpdate
        split <;> exact ⟨rfl, rfl⟩
      exact ih.edited rfl same.1 same.2 rfl

namespace Simulator

variable {s : Simulator} {t r : Transition}

/-- A notification of a tracked event, while the simulation goes on. -/
theorem notify_continues (apart : s.Apart) {e : Event} (tracked : s.setup.tracksEvent e = true)
    {delay : Option Delay} (hr : (s.notify t e delay).result = .ok r)
    (going : r.state.global.stopped = false) : s.Continues [notice e delay] t r := by
  obtain ⟨idle, rfl⟩ | ⟨d, rfl, rfl⟩ | ⟨rfl, told⟩ := notify_cases hr
  · simp [isHalted, going, tracked] at idle
  · refine ⟨rfl, .one ?_ ?_ (fun p _ _ => ?_) fun e' => ?_⟩
    · exact GlobalState.stopped_setPending
    · exact GlobalState.Single.setPending
    · have same (w : Option Blocker) : (Happening.planned e d).waitAfter w = w :=
        (Happening.waitAfter_within fun _ => rfl).trans Blocker.hear_nil
      cases h : t.state.waitOf? p.index with
      | none => exact h
      | some w => exact h.trans (congrArg some (same w).symm)
    · have set := t.state.global.get?_setPending e e' (Delay.earlier (t.state.global.pending.get? e) (some d))
      refine set.trans ?_
      by_cases same : e' = e
      · simp [notice, Happening.pendingAfter, State.pendingOf, same]
      · simp [notice, Happening.pendingAfter, State.pendingOf, same, Ne.symm same]
  · have nodup : ((s.procs.filter fun p => some p.index ≠ t.proc.map (·.index)).map (·.index)).Nodup :=
      apart.sublist (List.filter_sublist.map _)
    have heard := notifyProcesses_rewaits nodup told
    have global : r.state.global = t.state.global.setPending e none := heard.global
    refine ⟨heard.proc, .one ?_ ?_ (fun p hp other => ?_) fun e' => ?_⟩
    · rw [global]
      exact GlobalState.stopped_setPending
    · rw [global]
      exact GlobalState.Single.setPending
    · have listed : p.index ∈ (s.procs.filter fun p => some p.index ≠ t.proc.map (·.index)).map
          (·.index) := List.mem_map.2 ⟨p, List.mem_filter.2 ⟨hp, by simpa using other⟩, rfl⟩
      refine (heard.waits p.index).trans ((if_pos listed).trans ?_)
      congr 1
      exact funext fun w => (Happening.waitAfter_within (x := .notified e) fun _ => rfl).symm
    · rw [State.pendingOf, global, GlobalState.get?_setPending]
      by_cases same : e' = e
      · simp [notice, Happening.pendingAfter, same]
      · simp [notice, Happening.pendingAfter, State.pendingOf, same, Ne.symm same]

theorem notices_body {top : Frame} (htop : t.top? = some top) (body : top.path = []) :
    s.notices t = [] := by
  have bodyless : s.program.at? top.location = none := by
    rw [Program.at?, System.at?, show top.location.path = [] from body]
    rfl
  simp [notices, htop, bodyless]

theorem notices_quiet {top : Frame} {e : Expr} (htop : t.top? = some top)
    (hexpr : s.program.at? top.location = some e)
    (quiet : ∀ id target delays, e ≠ .notify id target delays) : s.notices t = [] := by
  simp only [notices, htop, hexpr]
  split
  · rename_i id target delays same
    exact absurd (Option.some.inj same) (quiet id target delays)
  · rfl

theorem notifyStep_continues (apart : s.Apart) (tracked : ∀ e, s.setup.tracksEvent e = true)
    {top : Frame} {id : Nat} {target : Expr} {delays : List Expr} {sc : Scratch} (htop : t.top? = some top)
    (hexpr : s.program.at? top.location = some (.notify id target delays)) {st : SmallStep}
    (hst : (s.notifyStep { t with scratch := sc } top (.notify id target delays) target delays).result = .ok st)
    (hr : r ∈ st.results) (going : r.state.global.stopped = false) : s.Continues (s.notices t) t r := by
  have same : s.Continues [] t { t with scratch := sc } := .silent rfl rfl rfl fun _ _ => rfl
  have told : s.notices t = noticesOf top (.notify id target delays) delays := by
    simp only [notices, htop, hexpr]
  rw [told, noticesOf]
  obtain ⟨early, rfl⟩ | ⟨late, event, delay, u, hevent, hdelay, hu, rfl⟩ := notifyStep_cases hst
  · obtain rfl := List.mem_singleton.1 hr
    rw [if_pos early]
    exact same.trans (.mapRunning _)
  · obtain rfl := List.mem_singleton.1 hr
    have finish : s.Continues [] u (u.finish s.program.system .unknown) := .finish _ _
    have notified := notify_continues apart (tracked event) hu (finish.undergoes.stopped.symm.trans going)
    rw [if_neg late, hevent, hdelay]
    exact (same.trans notified).trans finish

theorem advance_continues (apart : s.Apart) (tracked : ∀ e, s.setup.tracksEvent e = true)
    {st : SmallStep} (hst : (s.advance t).result = .ok st) (hr : r ∈ st.results)
    (going : r.state.global.stopped = false) : s.Continues (s.notices t) t r := by
  obtain ⟨ps, top, -, htop, ⟨hpath, rfl⟩ | ⟨i, up, e, sc, -, hexpr, -, hst⟩⟩ := advance_cases hst
  · rw [notices_body htop hpath]
    exact (s.bodyStep_evolves .refl top r hr).1.continues
  · by_cases quiet : ∀ id target delays, e ≠ .notify id target delays
    · have same : s.Continues [] t { t with scratch := sc } := .silent rfl rfl rfl fun _ _ => rfl
      rw [notices_quiet htop hexpr quiet]
      by_cases goes : ∀ id, e ≠ .stop id
      · exact same.trans (s.exprStep_evolves .refl ps top quiet goes st hst r hr).1.continues
      · -- A stop shows in the result.
        simp only [ne_eq, not_forall, not_not] at goes
        obtain ⟨id, rfl⟩ := goes
        obtain rfl := Run.pure_result_iff.1 hst
        obtain rfl := List.mem_singleton.1 hr
        cases going
    · simp only [ne_eq, not_forall, not_not] at quiet
      obtain ⟨id, target, delays, rfl⟩ := quiet
      exact notifyStep_continues apart tracked htop hexpr hst hr going

/-- A small step does to the other processes what it notifies. -/
theorem smallStep_continues (apart : s.Apart) (tracked : ∀ e, s.setup.tracksEvent e = true)
    {st : SmallStep} (hst : (s.smallStep t).result = .ok st) (hr : r ∈ st.results)
    (going : r.state.global.stopped = false) : s.Continues (s.notices t) t r := by
  obtain ⟨st₀, rs, r₀, hadv, hr₀, -, same, rfl⟩ := smallStep_mem hst hr
  have state : r.state = r₀.state := by rw [same]
  have proc : r.proc = r₀.proc := by rw [same]
  have main : s.Continues (s.notices t.resetAccesses) t.resetAccesses r₀ :=
    advance_continues apart tracked hadv hr₀ (state ▸ going)
  exact ⟨proc.trans main.proc, state ▸ main.undergoes⟩

end Simulator

end DeltaSlice

/-!
Chronicles: the transitions of a scheduler one after the other, with the history that they tell. Every
state that can be reached has a chronicle, and its waits and pending notifications are what its history
tells.
-/

namespace DeltaSlice

namespace Simulator

/-- What running code tells on the way to a transition; the flag says whether the code has ended. What is
learned on other ways to the same state tells nothing. -/
inductive Tells (s : Simulator) (start : Transition) : Bool → History → Transition → Prop
  | start : Tells s start false [] start
  | step {k : History} {t r : Transition} {st : SmallStep} : Tells s start false k t →
      (s.smallStep t).result = .ok st → r ∈ st.results → Tells s start st.ends (s.notices t ++ k) r
  | merge {b : Bool} {k : History} {t : Transition} {i : Info} : Tells s start b k t →
      Tells s start b k { t with info := i }

/-- What update routines tell that run one after the other. -/
inductive TellsUpdates (s : Simulator) : List Instance → Transition → History → Transition → Prop
  | nil {t : Transition} : TellsUpdates s [] t [] t
  | cons {i : Instance} {is : List Instance} {c : ClassDef} {f : Routine} {t start e u : Transition}
      {k k' : History} : s.program.system.classOf? i = some c → c.routine? "update" = some f →
      s.beginUpdate? i f t = .ok start → s.Tells start true k e →
      TellsUpdates s is e.afterUpdate k' u → TellsUpdates s (i :: is) t (k' ++ k) u

/-- Processes may wait before they ran. -/
def opening (s : Simulator) : History :=
  s.procs.filterMap fun p => (initProcess p).blocker.map (.blocks p.index)

/-- The history of a run of the scheduler: ready processes run until they wait, and evaluation phases
end, as a rule when no process is ready. -/
inductive Chronicle (s : Simulator) : History → State → Prop
  | start {st : State} : s.initial = .ok st → Chronicle s s.opening st
  | ran {h k : History} {st : State} {ps : List Process} {p : Process} {ts : List Transition}
      {start e r : Transition} {b : Blocker} : Chronicle s h st → s.ready st = .ok ps → p ∈ ps →
      (s.makeStep p st).result = .ok ts → r ∈ ts → s.begin? p st = .ok start → s.Tells start true k e →
      r.state = e.state → e.state.waitOf? p.index = some (some b) →
      Chronicle s (.blocks p.index b :: k ++ .runs p.index :: h) r.state
  | ended {h k : History} {st : State} {ts : List Transition} {u v r : Transition} :
      Chronicle s h st → (s.endEvaluation st).result = .ok ts → r ∈ ts →
      s.TellsUpdates st.global.updates (s.beginEnd st) k u → (s.advanceTime u).result = .ok v →
      r.state = v.state → Chronicle s (s.ending u.state :: k ++ h) r.state

variable {s : Simulator} {start t u r : Transition}

theorem exists_tells {b : Bool} (h : s.Occurs start b r) : ∃ k, s.Tells start b k r := by
  induction h with
  | start => exact ⟨[], .start⟩
  | step _ hst hr ih =>
      obtain ⟨k, hk⟩ := ih
      exact ⟨_, hk.step hst hr⟩
  | merge _ _ _ _ same iht ihu =>
      obtain ⟨k, hk⟩ := iht
      obtain ⟨k', hk'⟩ := ihu
      cases same with
      | inl same => exact ⟨k, same ▸ hk.merge⟩
      | inr same => exact ⟨k', same ▸ hk'.merge⟩

theorem exists_tells_of_run {e : Transition} (h : s.RunsTo start e) : ∃ k, s.Tells start true k e :=
  exists_tells h.occurs

theorem exists_tellsUpdates {is : List Instance} {runs : List (Transition × Transition)}
    (h : s.Updates is t runs u) : ∃ k, s.TellsUpdates is t k u := by
  induction h with
  | nil => exact ⟨[], .nil⟩
  | cons hc hf hbegin hrun _ ih =>
      obtain ⟨k, hk⟩ := exists_tells_of_run hrun
      obtain ⟨k', hk'⟩ := ih
      exact ⟨_, .cons hc hf hbegin hk hk'⟩

/-- The code of a transition goes on with its process, which exists, and ends where it may. -/
theorem Tells.stays {b : Bool} {k : History} (h : s.Tells start b k r) : (∃ l, Stays start l r) ∧
    (b = true → r.Rests ∧ ∀ p, r.proc = some p → p.index < r.state.procs.length) := by
  induction h with
  | start => exact ⟨⟨[], .refl _⟩, by simp⟩
  | @step k t r st _ hst hr ih =>
      obtain ⟨l, before⟩ := ih.1
      obtain ⟨all, running⟩ := smallStep_stays hst
      obtain ⟨stays, rests⟩ := all r hr
      refine ⟨⟨_, before.trans stays⟩, fun ends => ⟨rests ends, fun p hp => ?_⟩⟩
      rw [Transition.running?, ← stays.proc, hp] at running
      rw [stays.length]
      exact (List.getElem?_eq_some_iff.1 (Option.eq_some_of_isSome running)).1
  | merge _ ih =>
      obtain ⟨l, stays⟩ := ih.1
      refine ⟨⟨l, stays.andEdited rfl rfl rfl rfl rfl id⟩, fun ended => ?_⟩
      obtain ⟨rests, present⟩ := ih.2 ended
      exact ⟨⟨rests.waits, rests.spent⟩, present⟩

theorem Tells.proc {b : Bool} {k : History} (h : s.Tells start b k r) : r.proc = start.proc := by
  obtain ⟨l, stays⟩ := h.stays.1
  exact stays.proc

theorem Tells.frames {b : Bool} {k : History} (h : s.Tells start b k r) {i : Nat}
    (other : some i ≠ start.proc.map (·.index)) : r.state.framesOf? i = start.state.framesOf? i := by
  obtain ⟨l, stays⟩ := h.stays.1
  exact stays.frames i other

theorem begin?_start {p : Process} {st : State} (h : s.begin? p st = .ok start) :
    start.proc = some p ∧ start.state = st := by
  obtain ⟨i, -, rfl⟩ := Success.map_iff.1 h
  exact ⟨rfl, rfl⟩

/-- Code of a process that ends leaves the process waiting. -/
theorem Tells.waits {p : Process} {k : History} (h : s.Tells start true k r) (proc : start.proc = some p) :
    ∃ b, r.state.waitOf? p.index = some (some b) := by
  obtain ⟨rests, present⟩ := h.stays.2 rfl
  have proc := h.proc.trans proc
  have present := present p proc
  have blocked := rests.waits p proc _ (List.getElem?_eq_getElem present)
  obtain ⟨b, hb⟩ := Option.isSome_iff_exists.1 blocked
  exact ⟨b, by rw [State.waitOf?, List.getElem?_eq_getElem present, Option.map_some, hb]⟩

/-- Every state that can be reached has a chronicle. -/
theorem exists_chronicle {first st : State} (start : s.initial = .ok first)
    (h : s.Reachable first st) : ∃ h, s.Chronicle h st := by
  induction h with
  | start => exact ⟨_, .start start⟩
  | step _ hfound ht ih =>
      obtain ⟨h, chronicle⟩ := ih
      rcases successors_mem hfound ht with ⟨-, ts, hts, hr⟩ | ⟨ps, hps, p, hp, ts, hts, hr⟩
      · obtain ⟨runs, u, v, hruns, hadvance, hfin⟩ := endEvaluation_cases hts hr
        obtain ⟨k, hk⟩ := exists_tellsUpdates hruns
        exact ⟨_, chronicle.ended hts hr hk hadvance hfin.1⟩
      · obtain ⟨start, ended, hbegin, hrun, hfin⟩ := makeStep_cases hts
        obtain ⟨e, he, hstate, -⟩ := finalize_mem hfin hr
        obtain ⟨k, hk⟩ := exists_tells_of_run ⟨ended, hrun, he⟩
        obtain ⟨b, hb⟩ := hk.waits (begin?_start hbegin).1
        exact ⟨_, chronicle.ran hps hp hts hr hbegin hk hstate hb⟩

end Simulator

end DeltaSlice

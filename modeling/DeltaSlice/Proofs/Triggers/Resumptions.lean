import DeltaSlice.Proofs.Triggers.Steps
import DeltaSlice.Proofs.Waits.Bare
import DeltaSlice.Proofs.Waits.Chronicles

/-!
Triggers of the points at which processes resume. The trigger that a wait defines is that of the point at
which the process resumes, and it stays so until the process runs again: the frames of a process change in
steps of its own only. So every wakeup in between defines this trigger, and it controls the entry of the
next step of the process.
-/

namespace DeltaSlice

open Dependence Pdg

/-- The trigger of the point at which a process resumes. -/
def State.triggerOf? (st : State) (p : Process) : Option Variable :=
  ((st.procs[p.index]?).bind (·.resumption?)).map (.ofResumption p.inst ·)

theorem State.triggerOf?_eq {st st' : State} {p : Process} (same : st'.framesOf? p.index = st.framesOf? p.index) :
    st'.triggerOf? p = st.triggerOf? p := by
  have shown : ∀ st : State, st.triggerOf? p =
      ((st.framesOf? p.index).bind fun fs => (ProcessState.start none fs).resumption?).map
        (.ofResumption p.inst ·) := by
    intro st
    unfold triggerOf? framesOf?
    cases st.procs[p.index]? <;> rfl
  rw [shown, shown, same]

namespace Dependence.Site

variable {p : Program} {s : Site} {v w : Variable}

/-- A wait defines the trigger of the expression after it, and nothing else that outlives its frame. -/
theorem definitions_wait {id : Nat} {args : List Expr} (hexpr : s.expr = .call id .wait args)
    (finished : s.finished = true) (unwritten : s.after.scratch.written = []) (outer : w.isLocal = false) :
    w ∈ s.definitions p ↔ s.awaited? = some w := by
  rw [mem_definitions, trigger?, if_pos finished, hexpr]
  refine or_iff_right fun written => ?_
  have written := written_of_writes written outer
  rw [unwritten] at written
  cases written

end Dependence.Site

namespace Simulator

variable {s : Simulator} {t r : Transition} {g : Pdg} {p : Process}

section Wait

/-- A call of a wait that ends the code has its arguments, and the process is put to sleep. -/
theorem callStep_wait {ps : ProcessState} {top : Frame} {id : Nat} {args : List Expr} {st : SmallStep}
    (hst : s.callStep t ps top (.call id .wait args) .wait args.length = .ok st) (ends : st.ends = true)
    (hr : r ∈ st.results) : top.comingFrom = args.length - 1 ∧ ∃ b,
      r = (t.finish s.program.system .unknown).mapRunning (·.block (some b)) := by
  cases callStep_cases hst with
  | argument => cases ends
  | result => cases ends
  | wait last hst =>
      obtain ⟨_, _, b, -, -, -, rfl⟩ := waitStep_cases hst
      exact ⟨last, b, List.mem_singleton.1 hr⟩

/-- The process resumes at the expression after the one that it leaves. -/
theorem resumption?_finish {ps : ProcessState} {top : Frame} {below : List Frame} {i : Int} {up : Path}
    (running : t.running? = some ps) (stack : ps.stack = top :: below) (hpath : top.path = i :: up)
    (hi : i ≠ -1) (b : Option Blocker) :
    ((t.finish s.program.system .unknown).mapRunning (·.block b)).running?.bind (·.resumption?) =
      some (top.location.parent.child (i + 1) :: below.map (·.location)) := by
  have location := Frame.leave_location hpath .unknown (s.program.system.isUsed top.location)
  have comingFrom := Frame.leave_comingFrom hpath .unknown (s.program.system.isUsed top.location)
  rw [Transition.running?_mapRunning, Transition.running?_finish, running]
  simp only [Option.map_some, Option.bind_some, ProcessState.mapTop, stack, ProcessState.block,
    ProcessState.resumption?, System.finish, comingFrom, hi, if_false, location]

/-- A wait as the observer sees it: it is announced with the stack of its call, learns nothing on its way and
lets the process resume at the expression after it. -/
structure Waits (s : Simulator) (t r : Transition) (st : SmallStep) (e : Expr) (site : Site) : Prop where
  shown : (⟨st, r⟩ : Move).site? s.program = some site
  after : site.after = r
  expr : site.expr = e
  here : s.program.at? site.here = some site.expr
  finished : site.finished = true
  running : ∃ ps, t.running? = some ps ∧ ps.locations = site.stack
  resumes : r.running?.bind (·.resumption?) =
    some (site.here.parent.child (site.index + 1) :: site.callers)
  info : r.info = t.info
  written : r.scratch.written = t.scratch.written

theorem advance_waits (observes : s.setup.observer = .pdg true) {st : SmallStep}
    (hst : (s.advance t).result = .ok st) {id : Nat} {args : List Expr}
    (waits : st.expr = some (.call id .wait args)) (ends : st.ends = true) (hr : r ∈ st.results) :
    ∃ site, s.Waits t r st (.call id .wait args) site := by
  obtain ⟨ps, top, running, htop, ⟨-, rfl⟩ | ⟨i, up, e, sc, hpath, hexpr, hsc, hstep⟩⟩ := advance_cases hst
  · rw [bodyStep_expr] at waits
    cases waits
  obtain rfl : .call id .wait args = e := by
    rcases exprStep_expr hstep with reported | reported <;> rw [reported] at waits
    · cases waits
    · exact (Option.some.inj waits).symm
  obtain ⟨below, stack, -⟩ := Transition.frames_of_top running htop
  have inside : 0 ≤ i := by
    have : (Path.scope? (s.program.system.body top.location.routine) up).bind (elementAt? · i) = _ :=
      (congrArg (Path.resolve? _) hpath).symm.trans hexpr
    obtain ⟨es, -, he⟩ := Option.bind_eq_some_iff.1 this
    exact (elementAt?_lt he).1
  have hcall := (Run.result_of _).symm.trans hstep
  obtain ⟨back, b, rfl⟩ := callStep_wait hcall ends hr
  obtain ⟨-, comingFrom⟩ := callStep_about hcall
  have relevant : s.program.isRelevant top.location.routine (.call id .wait args) i top.comingFrom = true := by
    simp [Program.isRelevant, back, Expr.children]
  rw [observes] at hsc
  obtain ⟨event, -, hsc⟩ := announce_relevant running htop hpath relevant ((Run.result_of _).symm.trans hsc)
  have keeps : Keeps { t with scratch := sc } _ :=
    ((Keeps.refl _).editRunning (ProcessState.editTop (s.program.system.editFinish .unknown))).mapRunning
      (·.block (some b))
  have scratch : ((Transition.finish { t with scratch := sc } s.program.system .unknown).mapRunning
      (·.block (some b))).scratch = sc :=
    (Transition.scratch_mapRunning ..).trans (Transition.scratch_editRunning ..)
  have announced : sc.announced = some (top.location :: below.map (·.location)) := by
    rw [hsc, ProcessState.locations, stack]
    rfl
  have path : top.location.path = i :: up := hpath
  refine ⟨_, Move.site?_eq waits ((congrArg Scratch.announced scratch).trans announced) path, rfl, rfl, hexpr, ?_,
    ⟨ps, running, ?_⟩, resumption?_finish (s := s) (t := { t with scratch := sc }) running stack hpath (by omega) _,
    keeps.info, ?_⟩
  · simp [Site.finished, Site.arity, comingFrom, back, Expr.children]
  · rw [ProcessState.locations, stack]
    rfl
  · rw [scratch, hsc]

/-- The wait defines the trigger of the point at which the process resumes, and nothing else that outlives
its frame. -/
theorem wait_defines (observes : s.setup.observer = .pdg true) (graph : t.info = .pdg g) (hg : g.Unfinished)
    {o : Instance} (origin : t.origin = some o) {st : SmallStep} (hst : (s.smallStep t).result = .ok st)
    {id : Nat} {args : List Expr} (waits : st.expr = some (.call id .wait args)) (ends : st.ends = true)
    (hr : r ∈ st.results) : ∃ ps stack h, t.running? = some ps ∧
      r.running?.bind (·.resumption?) = some stack ∧ r.info = .pdg h ∧ Extends g h ∧
      (∀ d, .reaches (.ofResumption o stack) d ∈ h.facts ↔
        d = some (.statement (StatementId.point (some o) ps.locations).key)) ∧
      ∀ w d, w.isLocal = false → w ≠ .ofResumption o stack → (.reaches w d ∈ h.facts ↔ .reaches w d ∈ g.facts) := by
  obtain ⟨st₀, u, c, h, hadv, hu, sameExpr, sameEnds, rfl, -, here, hc, -, later, carried⟩ :=
    triggered_step observes graph hg hst hr
  rw [sameExpr] at waits
  rw [sameEnds] at ends
  obtain ⟨site, hwait⟩ := advance_waits observes hadv waits ends hu
  obtain rfl : g = c := Info.pdg.inj (graph.symm.trans (hwait.info.symm.trans hc))
  obtain ⟨ps, running, locations⟩ := hwait.running
  have signals : (⟨st₀, u⟩ : Move).signals s.program = site.signals s.program := by
    simp only [Move.signals, waits, hwait.shown, Option.map_some, Option.getD_some]
  have awaited : site.awaited? = some (.ofResumption o (site.here.parent.child (site.index + 1) :: site.callers)) := by
    rw [Site.awaited?, hwait.after, here, origin]
    rfl
  have defined : ∀ {w : Variable}, w.isLocal = false → (w ∈ site.definitions s.program ↔
      .ofResumption o (site.here.parent.child (site.index + 1) :: site.callers) = w) := by
    intro w outer
    rw [Site.definitions_wait hwait.expr hwait.finished (hwait.after ▸ hwait.written) outer, awaited, Option.some.injEq]
  have owner : site.owner s.program = .point (some o) ps.locations := by
    have own : s.program.formsOwnNode site.here.routine (s.program.at? site.here) = true := by
      rw [hwait.here, hwait.expr]
      rfl
    rw [Site.owner_eq own, Site.statement, hwait.after, here, origin, locations]
  have reached : ∀ {w d}, .reaches w d ∈ h.facts ↔
      .reaches w d ∈ (site.signals s.program).foldl Act.carry (flows g.facts) := by
    intro w d
    rw [← signals, ← carried]
    exact ⟨fun hf => ⟨hf, trivial⟩, And.left⟩
  refine ⟨ps, _, h, running, hwait.resumes, rfl, later, fun d => ?_, fun w d outer other => ?_⟩
  · rw [reached, reaches_of_defines _ (Site.signals_defines ((defined rfl).2 rfl)), owner]
  · rw [reached, reaches_of_unchanged (Site.signals_unchanged outer fun hw => other ((defined outer).1 hw).symm)]
    exact ⟨And.left, fun hf => ⟨hf, trivial⟩⟩

end Wait

section Frames

variable {i : Nat}

variable {start e u : Transition}

/-- Code changes the frames of its own process only. -/
theorem Occurs.frames {b : Bool} (h : s.Occurs start b t) (other : some i ≠ start.proc.map (·.index)) :
    t.state.framesOf? i = start.state.framesOf? i := by
  obtain ⟨k, hk⟩ := exists_tells h
  exact hk.frames other

theorem RunsTo.frames (h : s.RunsTo start e) (other : some i ≠ start.proc.map (·.index)) :
    e.state.framesOf? i = start.state.framesOf? i ∧ e.proc = start.proc := by
  obtain ⟨k, hk⟩ := exists_tells_of_run h
  exact ⟨hk.frames other, hk.proc⟩

theorem Updates.frames {is : List Instance} {runs : List (Transition × Transition)}
    (h : s.Updates is t runs u) (scheduler : t.proc = none) :
    u.state.framesOf? i = t.state.framesOf? i ∧ u.proc = none := by
  induction h with
  | nil => exact ⟨rfl, scheduler⟩
  | @cons j is c f t start e u runs _ _ hbegin hrun _ ih =>
      obtain ⟨info, -, rfl⟩ := Success.map_iff.1 hbegin
      obtain ⟨frames, proc⟩ := hrun.frames (i := i) (by simp [Transition.beforeUpdate, scheduler])
      obtain ⟨later, proc'⟩ := ih (proc.trans scheduler)
      exact ⟨later.trans frames, proc'⟩

theorem makeStep_frames {q : Process} {st : State} {ts : List Transition}
    (hstep : (s.makeStep q st).result = .ok ts) (hr : r ∈ ts) (other : i ≠ q.index) :
    r.state.framesOf? i = st.framesOf? i := by
  obtain ⟨start, ended, begins, hrun, hfin⟩ := makeStep_cases hstep
  obtain ⟨e, he, state, -⟩ := finalize_mem hfin hr
  obtain ⟨proc, begun⟩ := begin?_start begins
  rw [state, ← begun]
  exact (RunsTo.frames ⟨ended, hrun, he⟩ (by simpa [proc] using other)).1

theorem endEvaluation_frames {st : State} {ts : List Transition} (hstep : (s.endEvaluation st).result = .ok ts)
    (hr : r ∈ ts) : r.state.framesOf? i = st.framesOf? i := by
  obtain ⟨runs, u, v, hupdates, hadvance, hfin⟩ := endEvaluation_cases hstep hr
  rw [hfin.1]
  exact (State.framesOf?_of_bare (advanceTime_bare hadvance) i).trans (hupdates.frames (i := i) rfl).1

end Frames

/-- The process makes no step on the way from `st`: other processes run, and evaluation phases end. -/
inductive Idles (s : Simulator) (p : Process) (st : State) : State → Prop
  | refl : Idles s p st st
  | ran {u : State} {q : Process} {ts : List Transition} {r : Transition} : Idles s p st u →
      q.index ≠ p.index → (s.makeStep q u).result = .ok ts → r ∈ ts → Idles s p st r.state
  | ended {u : State} {ts : List Transition} {r : Transition} : Idles s p st u →
      (s.endEvaluation u).result = .ok ts → r ∈ ts → Idles s p st r.state

/-- The transitions that are under way while the process makes no step: code of other processes and of
update routines runs, processes are told of events, and other parts of states are edited. -/
inductive Meanwhile (s : Simulator) (p : Process) (st : State) : Transition → Prop
  | step {u : State} {q : Process} : s.Idles p st u → q.index ≠ p.index →
      Meanwhile s p st (.start u s.setup.observer.neutral (some q) (some q.inst))
  | ending {u : State} : s.Idles p st u → Meanwhile s p st (.start u s.setup.observer.neutral none none)
  | code {t r : Transition} {i : Info} {b : Bool} : Meanwhile s p st t →
      (s.setup.observer.start s.program t).result = .ok i → s.Occurs { t with info := i } b r → Meanwhile s p st r
  | told {t r : Transition} {q : Process} {notified : List Event} : Meanwhile s p st t →
      (s.notifyProcess t q notified).result = .ok r → Meanwhile s p st r
  | edited {t r : Transition} : Meanwhile s p st t → r.info = t.info → r.proc = t.proc →
      r.state.procs = t.state.procs → Meanwhile s p st r

theorem Idles.frames {st st' : State} (h : s.Idles p st st') :
    st'.framesOf? p.index = st.framesOf? p.index := by
  induction h with
  | refl => rfl
  | ran _ other hstep hr ih => exact (makeStep_frames hstep hr other.symm).trans ih
  | ended _ hstep hr ih => exact (endEvaluation_frames hstep hr).trans ih

/-- A process that does not wait for the events stays as it is. -/
theorem notifyProcess_untold {ps : ProcessState} {notified : List Event}
    (found : t.state.procs[p.index]? = some ps)
    (untold : ∀ before, ps.blocker = some (.events before) → ∀ e ∈ before.events, e ∉ notified)
    (hr : (s.notifyProcess t p notified).result = .ok r) : r = t := by
  unfold notifyProcess at hr
  simp only [found] at hr
  split at hr
  · rename_i before waits
    have whole : (before.events.filter fun e => !notified.contains e).length = before.events.length :=
      List.length_filter_eq_length_iff.2 fun e he => by simpa using untold before waits e he
    simp only [whole, if_true] at hr
    exact (Run.pure_result_iff.1 hr).symm
  · exact (Run.pure_result_iff.1 hr).symm

/-- A small step of the code that begins with `start` ends it with the transition `r`. -/
structure Finishes (s : Simulator) (start t : Transition) (st : SmallStep) (r : Transition) : Prop where
  occurs : s.Occurs start false t
  steps : (s.smallStep t).result = .ok st
  ends : st.ends = true
  result : r ∈ st.results

section Observed

variable (observes : s.setup.observer = .pdg true)

include observes

/-- The graph with which code begins. -/
theorem start_graph (graph : t.info = .pdg g) {i : Info}
    (hi : (s.setup.observer.start s.program t).result = .ok i) :
    ∃ h, i = .pdg h ∧ start true t g = .ok h := by
  rw [observes] at hi
  simp only [Observer.start, graph, Run.result_of] at hi
  obtain ⟨h, hh, rfl⟩ := Success.map_iff.1 hi
  exact ⟨h, rfl, hh⟩

/-- A step of a process begins with a graph that it has entered and in which nothing is defined. -/
theorem begin?_enters {st : State} {start : Transition} (begins : s.begin? p st = .ok start) :
    ∃ stack g, st.procs[p.index]?.bind (·.resumption?) = some stack ∧ start.proc = some p ∧
      start.origin = some p.inst ∧ start.info = .pdg g ∧ g.Unfinished ∧
      g.entryId? = some (.entry (StatementId.point (some p.inst) stack).key) ∧
      (∀ v, .reaches v none ∈ g.facts) ∧
      ∀ a n, .edge .control a (.entry n) ∈ g.facts ↔
        a = .input (.ofResumption p.inst stack) ∧ n = (StatementId.point (some p.inst) stack).key := by
  obtain ⟨i, hi, rfl⟩ := Success.map_iff.1 begins
  have neutral : s.setup.observer.neutral = .pdg .empty := by rw [observes]; rfl
  obtain ⟨g, rfl, hg⟩ := start_graph observes (g := .empty) neutral hi
  obtain ⟨stack, o, running, origin, unfinished, entered, facts⟩ := start_enters empty_unfinished hg
  obtain rfl : p.inst = o := Option.some.inj origin
  refine ⟨stack, g, running, rfl, rfl, rfl, unfinished, entered, fun v => ?_, fun a n => ?_⟩
  · rw [facts, empty_facts]
    simp [fresh]
  · rw [facts, empty_facts]
    simp [fresh, Transition.start]

/-- Code ends with what a last small step gives, perhaps merged with what others give. -/
theorem Occurs.finishes {start e : Transition} {g₀ : Pdg} {c : NodeId} (graph : start.info = .pdg g₀)
    (hg₀ : g₀.Unfinished) (entered : g₀.entryId? = some c) (h : s.Occurs start true e) :
    ∃ t st r g h, s.Finishes start t st r ∧ e.state = r.state ∧ r.info = .pdg g ∧ e.info = .pdg h ∧
      g.facts ⊆ h.facts := by
  generalize hb : true = b at h
  induction h with
  | start => cases hb
  | step occurs steps result =>
      obtain ⟨⟨g, info, -⟩, -⟩ := (Occurs.step occurs steps result).extends observes graph hg₀ entered
      exact ⟨_, _, _, g, g, ⟨occurs, steps, hb.symm, result⟩, rfl, info, info, subset_rfl⟩
  | merge ht hu _ hi same iht ihu =>
      obtain ⟨⟨k, hk, later⟩, -⟩ := ht.extends observes graph hg₀ entered
      obtain ⟨⟨k', hk', later'⟩, -⟩ := hu.extends observes graph hg₀ entered
      rw [hk, hk'] at hi
      obtain ⟨k'', hk'', rfl⟩ := Success.map_iff.1 hi
      have facts := (compose_extends entered later later' hk'').2
      rcases same with rfl | rfl
      · obtain ⟨t, st, r, g, h, finishes, state, info, info', kept⟩ := iht hb
        obtain rfl := Info.pdg.inj (hk.symm.trans info')
        exact ⟨t, st, r, g, _, finishes, state, info, rfl, facts ▸ kept.trans Set.subset_union_left⟩
      · obtain ⟨t, st, r, g, h, finishes, state, info, info', kept⟩ := ihu hb
        obtain rfl := Info.pdg.inj (hk'.symm.trans info')
        exact ⟨t, st, r, g, _, finishes, state, info, rfl, facts ▸ kept.trans Set.subset_union_right⟩

/-- Whatever is under way in the meantime has an unfinished graph and leaves the process where it is. -/
theorem Meanwhile.keeps {st : State} (h : s.Meanwhile p st t) : some p.index ≠ t.proc.map (·.index) ∧
    t.state.framesOf? p.index = st.framesOf? p.index ∧ ∃ k, t.info = .pdg k ∧ k.Unfinished := by
  have neutral : s.setup.observer.neutral = .pdg .empty := by rw [observes]; rfl
  induction h with
  | step idles other => exact ⟨by simpa [Transition.start] using other.symm, idles.frames, _, neutral, empty_unfinished⟩
  | ending idles => exact ⟨by simp [Transition.start], idles.frames, _, neutral, empty_unfinished⟩
  | code _ hi occurs ih =>
      obtain ⟨other, frames, k, graph, hk⟩ := ih
      obtain ⟨h, rfl, hh⟩ := start_graph observes graph hi
      obtain ⟨_, _, -, -, unfinished, entered, -⟩ := start_enters hk hh
      obtain ⟨⟨k', hk', later⟩, proc, -⟩ := occurs.extends observes rfl unfinished entered
      exact ⟨by rw [proc]; exact other, (occurs.frames other).trans frames, k', hk', later.becomes.unfinished⟩
  | told _ hr ih =>
      obtain ⟨other, frames, k, graph, hk⟩ := ih
      obtain ⟨h, hinfo, rouses⟩ := (notifyProcess_rouses observes graph hk hr).graph
      have stays := (notifyProcess_cases hr).stays
      exact ⟨by rw [stays.proc]; exact other, (stays.frames _ other).trans frames, h, hinfo, rouses.unfinished⟩
  | edited _ info proc procs ih =>
      obtain ⟨other, frames, k, graph, hk⟩ := ih
      refine ⟨by rw [proc]; exact other, ?_, k, info.trans graph, hk⟩
      rw [State.framesOf?, procs]
      exact frames

/-- A wakeup defines the trigger of the point at which the process resumes, and nothing else. -/
theorem notifyProcess_defines {v : Variable} {notified : List Event} (graph : t.info = .pdg g) (hg : g.Unfinished)
    (resumes : t.state.triggerOf? p = some v) (hr : (s.notifyProcess t p notified).result = .ok r) :
    r = t ∨ ∃ h, r.info = .pdg h ∧ ∀ w a, a ∈ (h.definitionsOf w).1 ↔
      a ∈ (g.definitionsOf w).1 ∨ (w = v ∧ a = .statement (t.waker p).key) := by
  obtain ⟨stack, hstack, rfl⟩ := Option.map_eq_some_iff.1 resumes
  obtain ⟨ps, found, resumes⟩ := Option.bind_eq_some_iff.1 hstack
  by_cases waits : ∃ before, ps.blocker = some (.events before) ∧ ∃ e ∈ before.events, e ∈ notified
  · obtain ⟨before, waits, told⟩ := waits
    obtain ⟨u, c, n, hu, learned, grows, -, name⟩ := notifyProcess_wakes observes graph hg found waits told resumes
    obtain rfl := Except.ok.inj (hu.symm.trans hr)
    refine .inr ⟨_, learned, fun w a => ?_⟩
    rw [mem_definitionsOf, mem_definitionsOf, addDefinition_facts name, Set.mem_ofPred_eq, grows.reaches_iff hg.valid]
    simp
  · exact .inl (notifyProcess_untold found (fun before hb => fun e he told => waits ⟨before, hb, e, he, told⟩) hr)

/-- A transition of a process step goes back to a last small step of its code. It leads to the same state and
leaves with the definitions made until then, and nothing but the trigger of the point at which the process
resumed controls its entry. -/
theorem makeStep_finishes {st : State} {start : Transition} {ts : List Transition}
    (begins : s.begin? p st = .ok start) (hstep : (s.makeStep p st).result = .ok ts) (hr : r ∈ ts) :
    ∃ t step u g f, s.Finishes start t step u ∧ r.state = u.state ∧ u.info = .pdg g ∧ r.info = .pdg f ∧
      (∀ v a, a ∈ (g.definitionsOf v).1 → f.edge? .data a (.output v) = .ok true) ∧
      ∀ v, st.triggerOf? p = some v → ∃ n, f.entryId? = some (.entry n) ∧
        ∀ a, f.edge? .control a (.entry n) = .ok true ↔ a = .input v := by
  obtain ⟨start', ended, begins', hrun, hfin⟩ := makeStep_cases hstep
  obtain rfl : start = start' := Except.ok.inj (begins.symm.trans begins')
  obtain ⟨e, he, state, learned⟩ := finalize_mem hfin hr
  have occurs : s.Occurs start true e := RunsTo.occurs ⟨ended, hrun, he⟩
  obtain ⟨stack, g₀, running, -, -, graph, unfinished, entered, -, control⟩ := begin?_enters observes begins
  obtain ⟨⟨k, hk, later⟩, -⟩ := occurs.extends observes graph unfinished entered
  obtain ⟨t, step, u, g, k', finishes, state', info, info', kept⟩ := occurs.finishes observes graph unfinished entered
  obtain rfl : k = k' := Info.pdg.inj (hk.symm.trans info')
  rw [observes, hk] at learned
  obtain ⟨f, hf, final⟩ := Success.map_iff.1 (Run.ofFault_result_iff.1 learned)
  obtain ⟨valid, edges⟩ := finalize_valid_edges later.becomes.unfinished.valid hf
  refine ⟨t, step, u, g, f, finishes, state.trans state', info, final.symm, fun v a ha => ?_, fun v resumes => ?_⟩
  · have reaches := kept (mem_definitionsOf.1 ha)
    obtain ⟨d, found, -⟩ := reaches
    have listed := List.mem_map_of_mem (f := (·.1)) (Table.mem_of_get? found)
    exact valid.edge?_eq_true.2
      ((edges _ _ _).2 (.inr ⟨rfl, v, some a, rfl, listed, kept (mem_definitionsOf.1 ha), rfl⟩))
  · obtain ⟨stack', hstack', rfl⟩ := Option.map_eq_some_iff.1 resumes
    obtain rfl : stack' = stack := Option.some.inj (hstack'.symm.trans running)
    refine ⟨_, finalize_entryId later.becomes.unfinished.valid hf (later.becomes.entryId entered),
      fun a => valid.edge?_eq_true.trans ?_⟩
    rw [edges, or_iff_left (by simp)]
    constructor
    · exact fun he => ((control _ _).1 (later.entries he)).1
    · rintro rfl
      exact later.kept ((control _ _).2 ⟨rfl, rfl⟩)

/-- Those who define and those who read triggers of waits agree. Whenever a step of a process comes to a wait
that ends it, the trigger that the wait defines is that of the point at which the process then resumes.
Until the process runs again this stays so, whatever other processes and the scheduler do: every wakeup of
the process in between defines this trigger, and it controls the entry of the next step of the process. -/
theorem wait_trigger_agrees {st : State} {start : Transition} (begins : s.begin? p st = .ok start) :
    (∀ ts r, (s.makeStep p st).result = .ok ts → r ∈ ts →
      ∃ t step u g f, s.Finishes start t step u ∧ r.state = u.state ∧ u.info = .pdg g ∧ r.info = .pdg f ∧
        ∀ v a, a ∈ (g.definitionsOf v).1 → f.edge? .data a (.output v) = .ok true) ∧
    ∀ t step r id args, s.Finishes start t step r → step.expr = some (.call id .wait args) →
      ∃ v, r.state.triggerOf? p = some v ∧
        (∃ ps g h, t.state.procs[p.index]? = some ps ∧ t.info = .pdg g ∧ r.info = .pdg h ∧
          h.definitionsOf v = ([.statement (StatementId.point (some p.inst) ps.locations).key], false) ∧
          ∀ w, w.isLocal = false → w ≠ v →
            (∀ a, a ∈ (h.definitionsOf w).1 ↔ a ∈ (g.definitionsOf w).1) ∧
            ((h.definitionsOf w).2 = true ↔ (g.definitionsOf w).2 = true)) ∧
        (∀ st', s.Idles p r.state st' → st'.triggerOf? p = some v ∧
          ∀ ts r', (s.makeStep p st').result = .ok ts → r' ∈ ts → ∃ f n, r'.info = .pdg f ∧
            f.entryId? = some (.entry n) ∧ ∀ a, f.edge? .control a (.entry n) = .ok true ↔ a = .input v) ∧
        ∀ u notified r', s.Meanwhile p r.state u → (s.notifyProcess u p notified).result = .ok r' →
          r' = u ∨ ∃ g h, u.info = .pdg g ∧ r'.info = .pdg h ∧ ∀ w a, a ∈ (h.definitionsOf w).1 ↔
            a ∈ (g.definitionsOf w).1 ∨ (w = v ∧ a = .statement (u.waker p).key) := by
  refine ⟨fun ts r hstep hr => ?_, fun t step r id args finishes waits => ?_⟩
  · obtain ⟨t, step, u, g, f, finishes, state, info, info', leaves, -⟩ := makeStep_finishes observes begins hstep hr
    exact ⟨t, step, u, g, f, finishes, state, info, info', leaves⟩
  obtain ⟨stack₀, g₀, -, proc, origin, graph, unfinished, entered, -⟩ := begin?_enters observes begins
  obtain ⟨⟨g, info, later⟩, proc', origin'⟩ := finishes.occurs.extends observes graph unfinished entered
  obtain ⟨-, proc'', -⟩ :=
    (Occurs.step finishes.occurs finishes.steps finishes.result).extends observes graph unfinished entered
  have own : ∀ {u : Transition}, u.proc = start.proc → u.running? = u.state.procs[p.index]? := by
    intro u hu
    rw [Transition.running?, hu, proc]
  obtain ⟨ps, stack, h, running, resumes, info', extended, defined, others⟩ := wait_defines observes info
    later.becomes.unfinished (origin'.trans origin) finishes.steps waits finishes.ends finishes.result
  rw [own proc'] at running
  rw [own proc''] at resumes
  have triggers : r.state.triggerOf? p = some (.ofResumption p.inst stack) := by
    rw [State.triggerOf?, resumes]
    rfl
  refine ⟨_, triggers, ⟨ps, g, h, running, info, info', ?_, fun w outer other => ?_⟩, fun st' idles => ?_,
    fun u notified r' meanwhile notifies => ?_⟩
  · exact extended.becomes.unfinished.valid.definitionsOf_eq defined
  · simp only [mem_definitionsOf, definitionsOf_outer, others w _ outer other, implies_true, and_self]
  · have resumes' := (State.triggerOf?_eq idles.frames).trans triggers
    refine ⟨resumes', fun ts r' hstep hr' => ?_⟩
    obtain ⟨start', ended, begins', -⟩ := makeStep_cases hstep
    obtain ⟨-, -, -, -, f, -, -, -, final, -, controlled⟩ := makeStep_finishes observes begins' hstep hr'
    obtain ⟨n, entry, control⟩ := controlled _ resumes'
    exact ⟨f, n, final, entry, control⟩
  · obtain ⟨-, frames, k, hk, unfinished'⟩ := meanwhile.keeps observes
    refine (notifyProcess_defines observes hk unfinished' ((State.triggerOf?_eq frames).trans triggers)
      notifies).imp_right fun defines => ?_
    obtain ⟨h', info'', definitions⟩ := defines
    exact ⟨k, h', hk, info'', definitions⟩

end Observed

end Simulator

/-- Whether an expression is a wait. -/
def Examples.isWait : Option Expr → Bool
  | some (.call _ .wait _) => true
  | _ => false

open Examples Simulator in
/-- The thread that waits for two events defines the trigger of its second statement, at which it still resumes
after another thread has notified one of the events. -/
theorem wait_trigger_agrees_joint : ∃ st start t step r r₁ ps h id args,
    (untracked joint (.pdg true)).initial = .ok st ∧ (untracked joint (.pdg true)).begin? waiter st = .ok start ∧
    (untracked joint (.pdg true)).Finishes start t step r ∧ step.expr = some (.call id .wait args) ∧
    t.state.procs[0]? = some ps ∧ r.info = .pdg h ∧
    h.definitionsOf afterJoint = ([.statement (StatementId.point (some top) ps.locations).key], false) ∧
    (untracked joint (.pdg true)).StepsTo 1 r.state r₁ ∧ r₁.state.triggerOf? waiter = some afterJoint := by
  obtain ⟨st, initial, h⟩ := Success.exists_of_yields (x := (untracked joint (.pdg true)).initial)
    (c := fun st => Success.yields ((untracked joint (.pdg true)).begin? waiter st) fun start =>
      ((untracked joint (.pdg true)).trail (List.replicate 20 0) [] start).any fun x =>
        x.2.1 && x.2.2.state.triggerOf? waiter = some afterJoint &&
          ((untracked joint (.pdg true)).stepsWith 1 x.2.2.state fun _ => true) &&
          x.1.getLast?.any fun m => isWait m.step.expr) (by decide +kernel)
  obtain ⟨start, begins, h⟩ := Success.exists_of_yields h
  obtain ⟨⟨ms, ends, r⟩, trail, h⟩ := (Option.any_eq_true _ _).1 h
  simp only [Bool.and_eq_true, decide_eq_true_eq] at h
  obtain ⟨⟨⟨rfl, resumes⟩, steps⟩, h⟩ := h
  obtain ⟨r₁, ⟨q, ts, hq, hts, hr₁⟩, -⟩ := exists_of_stepsWith steps
  have route : (untracked joint (.pdg true)).Route start true ms r := route_of_trail .nil trail
  obtain ⟨⟨⟩, -⟩ | ⟨pre, t, step, walk, small, ended, result, rfl⟩ := route.cases
  rw [List.getLast?_concat, Option.any_some] at h
  unfold isWait at h
  split at h
  · rename_i id args waits
    have finishes : (untracked joint (.pdg true)).Finishes start t step r := ⟨walk.occurs, small, ended, result⟩
    obtain ⟨v, triggers, ⟨ps, g, h, found, -, learned, defined, -⟩, later, -⟩ :=
      (wait_trigger_agrees (s := untracked joint (.pdg true)) rfl begins).2 t step r id args finishes waits
    obtain rfl : v = afterJoint := Option.some.inj (triggers.symm.trans resumes)
    have second : ((untracked joint (.pdg true)).procs[1]?).map (·.index) = some 1 := by decide +kernel
    have apart : q.index ≠ waiter.index := by
      rw [hq, Option.map_some, Option.some.injEq] at second
      rw [second]
      decide
    exact ⟨st, start, t, step, r, r₁, ps, h, id, args, initial, begins, finishes, waits, found, learned, defined,
      ⟨q, ts, hq, hts, hr₁⟩, (later _ (.ran .refl apart hts hr₁)).1⟩
  · cases h

end DeltaSlice

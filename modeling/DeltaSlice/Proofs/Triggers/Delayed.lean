import DeltaSlice.Proofs.Triggers.Resumptions
import DeltaSlice.Proofs.Triggers.Targets

/-!
Delayed notifications and the trigger of their event. A small step that makes one leaves its statement as the
only definition of the trigger, any other small step leaves the trigger alone, and when the event fires at the
end of an evaluation phase, the wakeups of the processes that wait for it read the trigger.
-/

namespace DeltaSlice

open Dependence Pdg

theorem Move.site?_cases {p : Program} {m : Move} {site : Site} (shown : m.site? p = some site) :
    m.step.expr = some site.expr ∧ site.comingFrom = m.step.comingFrom ∧ m.result = site.after := by
  unfold Move.site? at shown
  split at shown
  · rename_i expr announced
    split at shown
    · obtain rfl := Option.some.inj shown
      exact ⟨expr, rfl, rfl⟩
    · cases shown
  · cases shown

theorem Move.signals_eq {p : Program} {m : Move} {site : Site} (shown : m.site? p = some site) :
    m.signals p = site.signals p := by
  rw [Move.signals, (Move.site?_cases shown).1, shown]
  rfl

/-- The trigger of an event is defined by delayed notifications. -/
theorem Dependence.Site.trigger?_event {p : Program} {site : Site} {e : Event}
    (h : site.trigger? p = some (.event e)) : site.finished = true ∧
      ∃ id target d ds, site.expr = .notify id target (d :: ds) ∧ site.after.scratch.event = some e := by
  unfold trigger? at h
  split at h
  · rename_i finished
    refine ⟨finished, ?_⟩
    split at h
    · obtain ⟨_, -, h⟩ := Option.bind_eq_some_iff.1 h
      obtain ⟨_, -, h⟩ := Option.bind_eq_some_iff.1 h
      obtain ⟨_, -, h⟩ := Option.bind_eq_some_iff.1 h
      obtain ⟨_, -, h⟩ := Option.map_eq_some_iff.1 h
      cases h
    · obtain ⟨_, -, h⟩ := Option.map_eq_some_iff.1 h
      cases h
    · rename_i id target d ds expr
      obtain ⟨e', event, same⟩ := Option.map_eq_some_iff.1 h
      obtain rfl := Variable.event.inj same
      exact ⟨id, target, d, ds, expr, event⟩
    · cases h
  · cases h

namespace Simulator

variable {s : Simulator} {t r : Transition} {g : Pdg} {e : Event}

/-- The event of the delayed notification that the next small step makes, once its operands are evaluated. -/
def delayed? (s : Simulator) (t : Transition) : Option Event :=
  t.top?.bind fun top =>
    match s.program.at? top.location with
    | some (.notify _ _ (_ :: ds)) => if top.comingFrom = ds.length + 1 then (top.value 0 0).asEvent? else none
    | _ => none

theorem announcedEvent_eq {top : Frame} {id : Nat} {target : Expr} {delays : List Expr} {event : Option Event}
    (finished : top.comingFrom = ((Expr.notify id target delays).children.length : Int) - 1)
    (he : (top.value 0 0).asEvent? = some e)
    (announced : announcedEvent top (.notify id target delays) = .ok event) : event = some e := by
  unfold announcedEvent at announced
  simp only [finished, if_true] at announced
  split at announced
  · cases announced
  · rw [he] at announced
    exact (Except.ok.inj announced).symm

/-- A delayed notification as the observer sees it: it is announced with its event and the stack of its
locations. -/
structure Plans (s : Simulator) (t r : Transition) (st : SmallStep) (e : Event) (site : Site) : Prop where
  shown : (⟨st, r⟩ : Move).site? s.program = some site
  after : site.after = r
  expr : ∃ id target d ds, site.expr = .notify id target (d :: ds)
  here : s.program.at? site.here = some site.expr
  finished : site.finished = true
  running : ∃ ps, t.running? = some ps ∧ ps.locations = site.stack
  event : r.scratch.event = some e

section Step

variable (observes : s.setup.observer = .pdg true) (graph : t.info = .pdg g) (hg : g.Unfinished)

include observes graph hg

theorem advance_plans {st : SmallStep} {top : Frame} {id : Nat} {target d : Expr} {ds : List Expr}
    (htop : t.top? = some top) (hexpr : s.program.at? top.location = some (.notify id target (d :: ds)))
    (finished : top.comingFrom = ds.length + 1) (hst : (s.advance t).result = .ok st) (hr : r ∈ st.results) :
    ∃ e site, (top.value 0 0).asEvent? = some e ∧ s.Plans t r st e site := by
  obtain ⟨ps, top', running, htop', ⟨body, -⟩ | ⟨i, up, e₀, sc, hpath, hexpr', hsc, hstep⟩⟩ := advance_cases hst
  · obtain rfl : top = top' := Option.some.inj (htop.symm.trans htop')
    rw [Program.at?, System.at?, show top.location.path = [] from body] at hexpr
    cases hexpr
  obtain rfl : top = top' := Option.some.inj (htop.symm.trans htop')
  obtain rfl := Option.some.inj (hexpr.symm.trans hexpr')
  have arity : top.comingFrom = ((Expr.notify id target (d :: ds)).children.length : Int) - 1 := by
    simp [Expr.children, finished]
  have relevant : s.program.isRelevant top.location.routine (.notify id target (d :: ds)) i top.comingFrom = true := by
    simp [Program.isRelevant, arity]
  rw [observes] at hsc
  obtain ⟨event, announced, hsc⟩ := announce_relevant running htop hpath relevant ((Run.result_of _).symm.trans hsc)
  obtain ⟨below, stack, -⟩ := Transition.frames_of_top running htop
  have locations : ps.locations = top.location :: below.map (·.location) := by
    rw [ProcessState.locations, stack]
    rfl
  have roused := notifyStep_rouses observes (t := { t with scratch := sc }) graph hg hstep hr
  have scratch : r.scratch = sc := roused.scratch
  have shown : r.scratch.announced = some (top.location :: below.map (·.location)) := by
    rw [scratch, hsc, locations]
  change (s.notifyStep { t with scratch := sc } top (.notify id target (d :: ds)) target (d :: ds)).result = .ok st
    at hstep
  obtain ⟨early, -⟩ | ⟨-, e, _, u, he, -, -, rfl⟩ := notifyStep_cases hstep
  · simp [finished] at early
  · have told : event = some e := announcedEvent_eq arity he announced
    have path : top.location.path = i :: up := hpath
    refine ⟨e, _, he, Move.site?_eq rfl shown path, rfl, ⟨id, target, d, ds, rfl⟩, hexpr, ?_,
      ⟨ps, running, locations⟩, ?_⟩
    · simp [Site.finished, Site.arity, SmallStep.one, arity]
    · rw [scratch, hsc, told]
      rfl

/-- A delayed notification makes its statement the definition of the trigger. -/
theorem signals_delayed {st : SmallStep} (delayed : s.delayed? t = some e)
    (hst : (s.advance t).result = .ok st) (hr : r ∈ st.results) : ∃ ps, t.running? = some ps ∧
      Defines ((⟨st, r⟩ : Move).signals s.program) (.event e) (StatementId.point r.origin ps.locations).key := by
  obtain ⟨top, htop, delayed⟩ := Option.bind_eq_some_iff.1 delayed
  split at delayed
  · rename_i id target d ds hexpr
    split at delayed
    · rename_i finished
      obtain ⟨e', site, he', plans⟩ := advance_plans observes graph hg htop hexpr finished hst hr
      obtain rfl : e' = e := Option.some.inj (he'.symm.trans delayed)
      obtain ⟨id', target', d', ds', expr⟩ := plans.expr
      obtain ⟨ps, running, locations⟩ := plans.running
      have own : s.program.formsOwnNode site.here.routine (s.program.at? site.here) = true := by
        rw [plans.here, expr]
        rfl
      have trigger : site.trigger? s.program = some (.event e') := by
        rw [Site.trigger?, if_pos plans.finished, expr, plans.after]
        simp [plans.event]
      have owner : site.owner s.program = .point r.origin ps.locations := by
        rw [Site.owner_eq own, Site.statement, plans.after, locations]
      refine ⟨ps, running, ?_⟩
      rw [Move.signals_eq plans.shown, ← owner]
      exact Site.signals_defines (Site.mem_definitions.2 (.inr trigger))
    · cases delayed
  · cases delayed

/-- Any other step leaves the trigger alone. -/
theorem signals_undelayed (named : t.Nameable) {st : SmallStep} (undelayed : s.delayed? t ≠ some e)
    (hst : (s.advance t).result = .ok st) (hr : r ∈ st.results) :
    ∀ x ∈ (⟨st, r⟩ : Move).signals s.program, ¬ x.Changes (.event e) := by
  cases shown : (⟨st, r⟩ : Move).site? s.program with
  | none =>
      intro x hx
      unfold Move.signals at hx
      split at hx
      · split at hx
        · rw [List.mem_singleton.1 hx, changes_forget]
          simp [Forgetting.drops, Variable.isLocal]
        · cases hx
      · rw [shown] at hx
        cases hx
  | some site =>
      obtain ⟨expr, comingFrom, rfl⟩ := Move.site?_cases shown
      rw [Move.signals_eq shown]
      refine Site.signals_unchanged rfl fun defined => ?_
      rcases Site.mem_definitions.1 defined with writes | trigger
      · exact (advance_nameable named hst _ hr).written e (Site.written_of_writes writes rfl)
      obtain ⟨finished, id, target, d, ds, heq, event⟩ := Site.trigger?_event trigger
      obtain ⟨ps, top, -, htop, ⟨-, rfl⟩ | ⟨i, up, e₀, sc, -, hexpr, -, hstep⟩⟩ := advance_cases hst
      · rw [bodyStep_expr] at expr
        cases expr
      obtain rfl : site.expr = e₀ := by
        rcases exprStep_expr hstep with reported | reported <;> rw [reported] at expr
        · cases expr
        · exact (Option.some.inj expr).symm
      rw [heq] at hexpr hstep
      have about := (show About st top (.notify id target (d :: ds)) from notifyStep_about hstep).2
      have arity : top.comingFrom = ds.length + 1 := by
        simpa [Site.finished, Site.arity, heq, comingFrom, about, Expr.children] using finished
      obtain ⟨e', site', he', plans⟩ := advance_plans observes graph hg htop hexpr arity hst hr
      obtain rfl : e' = e := Option.some.inj (plans.event.symm.trans event)
      exact undelayed (by simp [delayed?, htop, hexpr, arity, he'])

/-- What small steps do to the definition of the trigger. -/
theorem smallStep_trigger (named : t.Nameable) {st : SmallStep} (hst : (s.smallStep t).result = .ok st)
    (hr : r ∈ st.results) : ∃ h, r.info = .pdg h ∧
      (s.delayed? t = some e → ∃ ps, t.running? = some ps ∧
        .reaches (.event e) (some (.statement (StatementId.point t.origin ps.locations).key)) ∈ h.facts) ∧
      (s.delayed? t ≠ some e → ∀ d, .reaches (.event e) d ∈ g.facts → .reaches (.event e) d ∈ h.facts) := by
  obtain ⟨st₀, u, c, h, hadv, hu, -, -, rfl, -, origin, -, rouses, -, carried⟩ :=
    triggered_step observes graph hg hst hr
  have unchanged : s.delayed? t.resetAccesses = s.delayed? t := rfl
  have reached : ∀ d, .reaches (.event e) d ∈ h.facts ↔
      .reaches (.event e) d ∈ ((⟨st₀, u⟩ : Move).signals s.program).foldl Act.carry (flows c.facts) := by
    intro d
    rw [← carried]
    exact ⟨fun hf => ⟨hf, trivial⟩, And.left⟩
  refine ⟨h, rfl, fun delayed => ?_, fun undelayed d hd => ?_⟩
  · obtain ⟨ps, running, defines⟩ := signals_delayed observes (t := t.resetAccesses) graph hg
      (unchanged.trans delayed) hadv hu
    refine ⟨ps, running, (reached _).2 ?_⟩
    rw [reaches_of_defines _ defines, origin]
  · have still := signals_undelayed observes (t := t.resetAccesses) graph hg
      ⟨named.state, fun e he => nomatch he⟩ (unchanged ▸ undelayed) hadv hu
    rw [reached, reaches_of_unchanged still]
    exact ⟨(rouses.others (by simp [Variable.kind])).2 hd, trivial⟩

end Step

section Firing

variable {p : Process} {before : EventList} {notified : List Event} {passed : Int64}

/-- A notification that is due when time has passed is among those that are made then. -/
theorem mem_due {global global' : GlobalState} {es due : List Event} (listed : e ∈ es)
    (planned : global.pending.get? e = some (.time passed))
    (h : passPending passed global es = .ok (due, global')) : e ∈ due := by
  induction es generalizing global due with
  | nil => cases listed
  | cons e' es ih =>
      unfold passPending at h
      by_cases here : e = e'
      · subst here
        simp only [planned, if_true] at h
        obtain ⟨⟨later, _⟩, -, same⟩ := Success.map_iff.1 h
        obtain ⟨rfl, -⟩ := Prod.mk.inj same
        exact List.mem_cons_self
      · have listed := (List.mem_cons.1 listed).resolve_left here
        have kept : ∀ d, (global.setPending e' d).pending.get? e = some (.time passed) := by
          intro d
          rw [GlobalState.get?_setPending, if_neg here, planned]
        split at h
        · split at h
          · obtain ⟨⟨later, _⟩, passes, same⟩ := Success.map_iff.1 h
            obtain ⟨rfl, rfl⟩ := Prod.mk.inj same
            exact List.mem_cons_of_mem _ (ih listed (kept _) passes)
          · split at h
            · exact ih listed (kept _) h
            · cases h
        · exact ih listed planned h

variable (observes : s.setup.observer = .pdg true) (graph : t.info = .pdg g) (hg : g.Unfinished)

include observes graph hg

omit hg in
/-- Only a process that has a frame can be told of what it waits for. -/
theorem notifyProcess_resumes {ps : ProcessState} (found : t.state.procs[p.index]? = some ps)
    (waits : ps.blocker = some (.events before)) (listens : e ∈ before.events) (told : e ∈ notified)
    (hr : (s.notifyProcess t p notified).result = .ok r) : ∃ stack, ps.resumption? = some stack := by
  unfold notifyProcess at hr
  rw [found] at hr
  simp only [waits, untold_fewer ⟨e, listens, told⟩, if_false] at hr
  obtain ⟨i, hi, -⟩ := Run.bind_result_iff.1 hr
  rw [observes] at hi
  simp only [Observer.waitedForEvents, Transition.setProc, graph] at hi
  obtain ⟨h, woke, -⟩ := Success.map_iff.1 (Run.ofFault_result_iff.1 hi)
  obtain ⟨stack, resumes⟩ := woken_resumes woke
  rw [State.setProc, List.getElem?_set_self (List.getElem?_eq_some_iff.1 found).1] at resumes
  exact ⟨stack, resumes⟩

/-- The wakeup of a process at the end of an evaluation phase reads the triggers that it heard. -/
theorem notifyProcess_reads (untold : t.scratch.event = none)
    (waits : t.state.waitOf? p.index = some (some (.events before))) (listens : e ∈ before.events)
    (told : e ∈ notified) (hr : (s.notifyProcess t p notified).result = .ok r) {d : Option NodeId}
    (hd : .reaches (.event e) d ∈ g.facts) : ∃ h, r.info = .pdg h ∧ Rouses g h ∧
      .edge .data (sourceOf (.event e) d) (.statement (StatementId.wakeup p).key) ∈ h.facts := by
  obtain ⟨h, learned, rouses⟩ := (notifyProcess_rouses observes graph hg hr).graph
  refine ⟨h, learned, rouses, ?_⟩
  obtain ⟨ps, found, blocker⟩ := Option.map_eq_some_iff.1 waits
  obtain ⟨stack, resumes⟩ := notifyProcess_resumes observes graph found blocker listens told hr
  obtain ⟨u, c, n, hu, learned', grows, becomes, name⟩ :=
    notifyProcess_wakes observes graph hg found blocker ⟨e, listens, told⟩ resumes
  obtain rfl := Except.ok.inj (hu.symm.trans hr)
  obtain rfl := Info.pdg.inj (learned.symm.trans learned')
  have waker : t.waker p = .wakeup p := by rw [Transition.waker, untold]
  refine (addDefinition_extends becomes.unfinished name).kept ?_
  rw [grows.facts]
  refine .inr (.inr ⟨e, ?_, .inr ⟨d, hd, ?_⟩⟩)
  · simp [Transition.heard, untold, EventList.contains, listens, told]
  · rw [waker]

theorem notifyProcesses_reads {ps : List Process} (nodup : (ps.map (·.index)).Nodup) (hp : p ∈ ps)
    (untold : t.scratch.event = none) (waits : t.state.waitOf? p.index = some (some (.events before)))
    (listens : e ∈ before.events) (told : e ∈ notified) (hr : (s.notifyProcesses t notified ps).result = .ok r)
    {d : Option NodeId} (hd : .reaches (.event e) d ∈ g.facts) : ∃ h, r.info = .pdg h ∧ Rouses g h ∧
      .edge .data (sourceOf (.event e) d) (.statement (StatementId.wakeup p).key) ∈ h.facts := by
  induction ps generalizing t g with
  | nil => cases hp
  | cons q ps ih =>
      obtain ⟨fresh, nodup⟩ := List.nodup_cons.1 nodup
      obtain ⟨u, hu, hrest⟩ := Run.bind_result_iff.1 hr
      rcases List.mem_cons.1 hp with rfl | hp
      · obtain ⟨k, hk, rouses, edge⟩ := notifyProcess_reads observes graph hg untold waits listens told hu hd
        obtain ⟨h, learned, later⟩ := (notifyProcesses_rouses observes hk rouses.unfinished hrest).graph
        exact ⟨h, learned, rouses.trans later, later.toExtends.kept edge⟩
      · have roused := notifyProcess_rouses observes graph hg hu
        obtain ⟨k, hk, rouses⟩ := roused.graph
        have apart : p.index ∉ [q.index] := by
          exact fun same => fresh (List.mem_map.2 ⟨p, hp, List.mem_singleton.1 same⟩)
        have still : u.state.waitOf? p.index = some (some (.events before)) := by
          rw [(notifyProcess_rewaits hu).waits, if_neg apart, waits]
        obtain ⟨h, learned, later, edge⟩ := ih hk rouses.unfinished nodup hp (roused.scratch ▸ untold) still hrest
          ((rouses.others (by simp [Variable.kind])).2 hd)
        exact ⟨h, learned, rouses.trans later, edge⟩

/-- A process that listens to an event that is due is woken when the simulation advances, and its wakeup reads
the trigger. -/
theorem advanceTime_reads (apart : s.Apart) (hp : p ∈ s.procs) (untold : t.scratch.event = none)
    (going : t.state.global.stopped = false) (due : e ∈ (s.ending t.state).due)
    (waits : t.state.waitOf? p.index = some (some (.events before))) (listens : e ∈ before.events)
    (hr : (s.advanceTime t).result = .ok r) {d : Option NodeId} (hd : .reaches (.event e) d ∈ g.facts) :
    ∃ h, r.info = .pdg h ∧ Rouses g h ∧
      .edge .data (sourceOf (.event e) d) (.statement (StatementId.wakeup p).key) ∈ h.facts := by
  obtain ⟨ps, found, blocker⟩ := Option.map_eq_some_iff.1 waits
  have listening : p ∈ s.processesWith t.state waitsForEvents :=
    List.mem_filter.2 ⟨hp, by simp [found, waitsForEvents, blocker]⟩
  unfold advanceTime at hr
  unfold ending at due
  simp only [going, Bool.false_eq_true, if_false] at hr
  simp only at due
  split at hr
  · rename_i quiet
    rw [if_pos quiet] at due
    split at hr
    · rename_i passed hd'
      simp only [hd'] at due
      obtain ⟨listed, planned⟩ := List.mem_filter.1 due
      obtain ⟨⟨made, global⟩, passes, hr⟩ := Run.bind_result_iff.1 hr
      have told := mem_due listed (of_decide_eq_true planned) (Run.ofFault_result_iff.1 passes)
      simp only at hr
      split at hr
      · rename_i none
        rw [List.isEmpty_iff.1 none] at told
        cases told
      · obtain ⟨u, hu, hr⟩ := Run.bind_result_iff.1 hr
        obtain ⟨h, learned, rouses, edge⟩ := notifyProcesses_reads observes
          (t := { t with state := { t.state with global } }) graph hg apart.processesWith listening untold waits
          listens told hu hd
        exact ⟨h, (passProcesses_info hr).trans learned, rouses, edge⟩
    · rename_i untimed
      split at due
      · rename_i d hd'
        exact absurd hd' (untimed d)
      · cases due
  · rename_i busy
    rw [if_neg busy] at due
    obtain ⟨u, hu, hr⟩ := Run.bind_result_iff.1 hr
    obtain ⟨h, learned, rouses, edge⟩ := notifyProcesses_reads observes
      (t := t.mapGlobal fun g => (deltaEvents t.state.global).foldl (fun g e => g.setPending e none) g) graph hg
      apart.processesWith listening untold waits listens due hu hd
    exact ⟨h, (wakeDelta_info hr).trans learned, rouses, edge⟩

/-- The advance of the simulation only rouses. -/
theorem advanceTime_rouses (hr : (s.advanceTime t).result = .ok r) : ∃ h, r.info = .pdg h ∧ Rouses g h := by
  unfold advanceTime at hr
  dsimp only at hr
  split at hr
  · exact Run.pure_result_iff.1 hr ▸ ⟨g, graph, .refl hg⟩
  · split at hr
    · split at hr
      · obtain ⟨⟨due, global⟩, -, hr⟩ := Run.bind_result_iff.1 hr
        simp only at hr
        split at hr
        · obtain ⟨u, hu, hr⟩ := Run.bind_result_iff.1 hr
          obtain rfl := Run.pure_result_iff.1 hu
          exact ⟨g, (passProcesses_info hr).trans graph, .refl hg⟩
        · obtain ⟨u, hu, hr⟩ := Run.bind_result_iff.1 hr
          obtain ⟨h, learned, rouses⟩ := (notifyProcesses_rouses observes
            (t := { t with state := { t.state with global } }) graph hg hu).graph
          exact ⟨h, (passProcesses_info hr).trans learned, rouses⟩
      · exact Run.pure_result_iff.1 hr ▸ ⟨g, graph, .refl hg⟩
    · obtain ⟨u, hu, hr⟩ := Run.bind_result_iff.1 hr
      obtain ⟨h, learned, rouses⟩ := (notifyProcesses_rouses observes
        (t := t.mapGlobal fun g => (deltaEvents t.state.global).foldl (fun g e => g.setPending e none) g)
        graph hg hu).graph
      exact ⟨h, (wakeDelta_info hr).trans learned, rouses⟩

end Firing

end Simulator

end DeltaSlice

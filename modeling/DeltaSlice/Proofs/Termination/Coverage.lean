import DeltaSlice.Proofs.Termination.Names

/-!
The graphs that are learned in one run of code use only the names that come up in it. Before a small step is told,
processes are woken; then the step is entered with what it is about.
-/

namespace DeltaSlice

open Pdg Dependence

theorem ProcessState.resumption?_unnumbered (ps : ProcessState) : ps.unnumbered.resumption? = ps.resumption? := by
  unfold resumption? unnumbered
  cases ps.stack with
  | nil => rfl
  | cons f fs => simp only [List.map_cons, List.map_map, Function.comp_def, Frame.unnumbered]

namespace Simulator

variable {s : Simulator} {G : Glossary} {t u r : Transition} {q : Process} {qs : List Process} {notified : List Event}
  {triggers : Bool}

/-- What is known is a graph that is not closed yet and uses the names. -/
def Sticks (G : Glossary) (t : Transition) : Prop := ∃ g, t.info = .pdg g ∧ g.Unfinished ∧ G.Covers g.facts

theorem Sticks.of_keeps (h : Sticks G t) (keeps : DeltaSlice.Keeps t r) : Sticks G r := by
  obtain ⟨g, hg, known⟩ := h
  exact ⟨g, keeps.info.trans hg, known⟩

/-- `r` goes on from `t` after processes were woken, in the names that come up. -/
structure WokenWithin (G : Glossary) (t r : Transition) : Prop where
  sticks : Sticks G t → Sticks G r
  origin : r.origin = t.origin
  scratch : r.scratch = t.scratch
  resumes : ∀ i : Nat, (r.state.procs[i]?).bind (·.resumption?) = (t.state.procs[i]?).bind (·.resumption?)

namespace WokenWithin

theorem refl (G : Glossary) (t : Transition) : WokenWithin G t t := ⟨id, rfl, rfl, fun _ => rfl⟩

theorem trans (h : WokenWithin G t u) (h' : WokenWithin G u r) : WokenWithin G t r :=
  ⟨h'.sticks ∘ h.sticks, h'.origin.trans h.origin, h'.scratch.trans h.scratch,
    fun i => (h'.resumes i).trans (h.resumes i)⟩

end WokenWithin

/-- The names of wakeups come up. -/
structure Names (s : Simulator) (G : Glossary) (t : Transition) : Prop where
  wakers : ∀ q ∈ s.procs, (t.waker q).key ∈ G.keys
  resumptions : ∀ q ∈ s.procs, ∀ stack, (t.state.procs[q.index]?).bind (·.resumption?) = some stack →
    .ofResumption q.inst stack ∈ G.vars

theorem Names.woken (h : s.Names G t) (woken : WokenWithin G t r) : s.Names G r where
  wakers q hq := by
    have same : r.waker q = t.waker q := by
      unfold Transition.waker
      rw [woken.scratch, woken.origin]
    exact same ▸ h.wakers q hq
  resumptions q hq stack := by
    rw [woken.resumes]
    exact h.resumptions q hq stack

section Wakeups

variable (observes : s.setup.observer = .pdg triggers) (heard : ∀ e ∈ notified, .event e ∈ G.vars)

include observes heard

theorem notifyProcess_within (names : s.Names G t) (hq : q ∈ s.procs)
    (hr : (s.notifyProcess t q notified).result = .ok r) : WokenWithin G t r := by
  cases notifyProcess_cases hr with
  | deaf => exact .refl G t
  | @hears ps _ _ found _ learned =>
      have resumes : ∀ (b : Option Blocker) (i : Nat), ((t.setProc q (ps.block b)).state.procs[i]?).bind
          (·.resumption?) = (t.state.procs[i]?).bind (·.resumption?) := by
        intro b i
        change ((t.state.procs.set q.index (ps.block b))[i]?).bind _ = _
        by_cases own : q.index = i
        · subst own
          rw [List.getElem?_set_self (List.getElem?_eq_some_iff.1 found).1, found]
          rfl
        · rw [List.getElem?_set_ne own]
      refine ⟨fun ⟨g, hg, unfinished, covers⟩ => ?_, rfl, rfl, resumes _⟩
      rw [observes] at learned
      obtain ⟨h, woken, rfl⟩ := Observer.waitedForEvents_graph (t := t.setProc q (ps.block _)) hg learned
      rcases woken with rfl | woken
      · exact ⟨h, rfl, unfinished, covers⟩
      · obtain ⟨becomes, -⟩ := woken_touches unfinished woken
        refine ⟨h, rfl, becomes.unfinished, woken_covers (t := t.setProc q (ps.block _)) covers unfinished
          (names.wakers q hq) (fun e he => ?_) (fun stack hstack => ?_) woken⟩
        · exact heard e (List.contains_iff_mem.1 (List.mem_filter.1 he).2)
        · rw [resumes] at hstack
          exact names.resumptions q hq stack hstack

theorem notifyProcesses_within (names : s.Names G t) (hqs : ∀ q ∈ qs, q ∈ s.procs)
    (hr : (s.notifyProcesses t notified qs).result = .ok r) : WokenWithin G t r := by
  induction qs generalizing t with
  | nil => exact Run.pure_result_iff.1 hr ▸ .refl G t
  | cons q qs ih =>
      obtain ⟨first, rest⟩ := List.forall_mem_cons.1 hqs
      obtain ⟨u, hu, hr⟩ := Run.bind_result_iff.1 hr
      have woken := notifyProcess_within observes heard names first hu
      exact woken.trans (ih (names.woken woken) rest hr)

end Wakeups

/-- Before a notification is told, processes are woken. -/
theorem notifyStep_within (observes : s.setup.observer = .pdg triggers) (names : s.Names G t) {top : Frame}
    {e target : Expr} {delays : List Expr} {st : SmallStep}
    (heard : ∀ ev, (top.value 0 0).asEvent? = some ev → .event ev ∈ G.vars) (sticks : Sticks G t)
    (hst : (s.notifyStep t top e target delays).result = .ok st) (hr : r ∈ st.results) :
    Sticks G r ∧ r.origin = t.origin ∧ r.scratch.announced = t.scratch.announced ∧
      r.scratch.event = t.scratch.event := by
  have edited : ∀ {u v : Transition}, DeltaSlice.Keeps u v → WokenWithin G t u →
      Sticks G v ∧ v.origin = t.origin ∧ v.scratch.announced = t.scratch.announced ∧
        v.scratch.event = t.scratch.event := by
    intro u v keeps woken
    exact ⟨(woken.sticks sticks).of_keeps keeps, keeps.origin.trans woken.origin,
      keeps.announced.trans (congrArg _ woken.scratch), keeps.event.trans (congrArg _ woken.scratch)⟩
  obtain ⟨-, rfl⟩ | ⟨-, event, delay, u, hevent, -, hu, rfl⟩ := notifyStep_cases hst
  · obtain rfl := List.mem_singleton.1 hr
    exact edited ((Keeps.refl t).mapRunning _) (.refl G t)
  · obtain rfl := List.mem_singleton.1 hr
    refine edited ((Keeps.refl u).editRunning _) ?_
    obtain ⟨-, rfl⟩ | ⟨d, -, rfl⟩ | ⟨-, told⟩ := notify_cases hu
    · exact .refl G _
    · exact ⟨id, rfl, rfl, fun _ => rfl⟩
    · have named : ∀ e ∈ [event], .event e ∈ G.vars := fun e he => List.mem_singleton.1 he ▸ heard event hevent
      have woken := notifyProcesses_within (t := t.mapGlobal (·.setPending event none)) observes named
        ⟨names.wakers, names.resumptions⟩ (fun q hq => List.mem_of_mem_filter hq) told
      exact ⟨woken.sticks, woken.origin, woken.scratch, woken.resumes⟩

/-- The step on an expression keeps to the names, and to what it was announced with. -/
theorem exprStep_sticks (observes : s.setup.observer = .pdg triggers) (names : s.Names G t) {ps : ProcessState}
    {top : Frame} {e : Expr} {st : SmallStep} (heard : ∀ ev, (top.value 0 0).asEvent? = some ev → .event ev ∈ G.vars)
    (sticks : Sticks G t) (hst : (s.exprStep t ps top e).result = .ok st) (hr : r ∈ st.results) :
    Sticks G r ∧ r.origin = t.origin ∧ r.scratch.announced = t.scratch.announced ∧
      r.scratch.event = t.scratch.event := by
  by_cases quiet : ∀ id target delays, e ≠ .notify id target delays
  · have keeps := exprStep_keeps_quiet quiet hst hr
    exact ⟨sticks.of_keeps keeps, keeps.origin, keeps.announced, keeps.event⟩
  · simp only [ne_eq, not_forall, not_not] at quiet
    obtain ⟨id, target, delays, rfl⟩ := quiet
    exact notifyStep_within observes names heard sticks hst hr

/-- The event that is announced is the value of the target. -/
theorem announcedEvent_some {top : Frame} {e : Expr} {ev : Event} (h : announcedEvent top e = .ok (some ev)) :
    (top.value 0 0).asEvent? = some ev := by
  unfold announcedEvent at h
  split at h
  · split at h
    · split at h
      · cases h
      · split at h
        · rename_i found
          exact Option.some.inj (Except.ok.inj h) ▸ found
        · cases h
    · cases h
  · cases h

/-- A step is announced with the frames, if it is, and with the event that it notifies. -/
theorem announce_cases (observes : s.setup.observer = .pdg triggers) (quiet : t.scratch.event = none)
    {ps : ProcessState} {top : Frame} {e : Expr} {sc : Scratch} (hps : t.running? = some ps)
    (htop : t.top? = some top) (hsc : (s.setup.observer.announce s.program t e).result = .ok sc) :
    (sc.announced = none ∨ sc.announced = some ps.locations) ∧ ∀ ev, sc.event = some ev →
      sc.announced = some ps.locations ∧ (top.value 0 0).asEvent? = some ev := by
  have silent : ∀ ev, t.scratch.event ≠ some ev := by
    intro ev hev
    cases quiet.symm.trans hev
  rw [observes] at hsc
  simp only [Observer.announce, Run.result_of, announce, hps, htop] at hsc
  split at hsc
  · cases hsc
  · split at hsc
    · split at hsc
      · obtain ⟨event, hevent, rfl⟩ := Success.map_iff.1 hsc
        cases event with
        | none => exact ⟨.inr rfl, fun ev hev => absurd hev (silent ev)⟩
        | some ev =>
            refine ⟨.inr rfl, fun ev' hev => ⟨rfl, ?_⟩⟩
            obtain rfl := Option.some.inj hev
            exact announcedEvent_some hevent
      · obtain rfl := Except.ok.inj hsc
        exact ⟨.inr rfl, fun ev hev => absurd hev (silent ev)⟩
    · obtain rfl := Except.ok.inj hsc
      exact ⟨.inl rfl, fun ev hev => absurd hev (silent ev)⟩

/-- The step that is told is the one that was announced. -/
theorem told_site {top : Frame} {below : List Frame} {i j : Int} {up up' : Path} {e x : Expr} {st : SmallStep}
    {sc : Scratch} {l : Location} {callers : List Location} (reports : st.expr = none ∨ About st top e)
    (path : top.path = i :: up)
    (whom : sc.announced = none ∨ sc.announced = some (top.location :: below.map (·.location)))
    (expr : st.expr = some x) (told : sc.announced = some (l :: callers)) (path' : l.path = j :: up') :
    (⟨u, x, st.comingFrom, j, s.program.parent? l.routine x, l, callers⟩ : Site) =
      ⟨u, e, top.comingFrom, i, s.program.parent? top.location.routine e, top.location, below.map (·.location)⟩ := by
  obtain ⟨rfl, comingFrom⟩ : x = e ∧ st.comingFrom = top.comingFrom := by
    rcases reports with none | about
    · cases none.symm.trans expr
    · exact ⟨Option.some.inj (expr.symm.trans about.1), about.2⟩
  obtain ⟨rfl, rfl⟩ : l = top.location ∧ callers = below.map (·.location) := by
    rcases whom with none | some
    · cases none.symm.trans told
    · exact List.cons.inj (Option.some.inj (told.symm.trans some))
  obtain rfl : j = i := (List.cons.inj (path'.symm.trans path)).1
  rw [comingFrom]

/-- No event is left over between small steps. -/
theorem Occurs.quiet {start : Transition} {b : Bool} (begun : start.scratch.event = none)
    (occurs : s.Occurs start b t) : t.scratch.event = none := by
  induction occurs with
  | start => exact begun
  | step _ hst hr _ =>
      obtain ⟨st₀, rs, u, -, -, -, same, rfl⟩ := smallStep_mem hst hr
      rw [same]
  | merge _ _ _ _ same iht ihu =>
      rcases same with rfl | rfl
      · exact iht
      · exact ihu

theorem Updates.quiet {is : List Instance} {runs : List (Transition × Transition)} (begun : t.scratch.event = none)
    (updates : s.Updates is t runs u) : u.scratch.event = none := by
  induction updates with
  | nil => exact begun
  | @cons i is c f t start e u runs _ _ hbegin runsTo _ ih =>
      obtain ⟨i, -, rfl⟩ := Success.map_iff.1 hbegin
      have ended : e.scratch.event = none := Occurs.quiet (by exact begun) runsTo.occurs
      exact ih ended

theorem Begins.quiet {first : State} {start : Transition} (begins : s.Begins first start) :
    start.scratch.event = none := by
  cases begins with
  | step _ _ _ hbegin =>
      obtain ⟨i, -, rfl⟩ := Success.map_iff.1 hbegin
      rfl
  | update _ _ _ before _ _ hbegin =>
      obtain ⟨i, -, rfl⟩ := Success.map_iff.1 hbegin
      have quiet := before.quiet rfl
      exact quiet

end Simulator

namespace Dependence.Site

variable {p : Program} {x : Site} {v : Variable} (u : Transition)

/-- Apart from what the evaluation reports, the accesses of a step depend on what it is about only. -/
theorem mem_reads_cases (hv : v ∈ x.reads p) : v ∈ x.after.scratch.read ∨ v ∈ Site.reads p { x with after := u } :=
  ((mem_foldl_addVariable _ _).1 hv).imp_right fun added => (mem_foldl_addVariable _ _).2 (.inr added)

theorem mem_writes_cases (hv : v ∈ x.writes) : v ∈ x.after.scratch.written ∨ v ∈ Site.writes { x with after := u } := by
  have moved : ∀ {vs : List Variable} {w : List Variable}, v ∈ vs.foldl Transition.addVariable x.after.scratch.written →
      v ∈ x.after.scratch.written ∨ v ∈ vs.foldl Transition.addVariable w := fun hv =>
    ((mem_foldl_addVariable _ _).1 hv).imp_right fun added => (mem_foldl_addVariable _ _).2 (.inr added)
  unfold writes at hv ⊢
  dsimp only at hv ⊢
  split at hv
  · split at hv
    · rename_i finished
      have finished : Site.finished { x with after := u } = true := finished
      rw [if_pos finished]
      exact .inr hv
    · rename_i inside
      have inside : ¬ Site.finished { x with after := u } = true := inside
      rw [if_neg inside]
      exact moved hv
  · exact moved hv
  · exact moved hv

end Dependence.Site

namespace Simulator

variable {s : Simulator} {first : State} {start t u r : Transition} {b : Bool} {triggers : Bool}

/-- What a step is about has names that come up. -/
theorem site_within {x : Site}
    (known : { x with after := .blank start.origin } ∈ (Stock.of s start).sites s.program start.origin)
    (origin : x.after.origin = start.origin)
    (read : ∀ v ∈ x.after.scratch.read, v ∈ (Stock.of s start).places s.program.system)
    (written : ∀ v ∈ x.after.scratch.written, v ∈ (Stock.of s start).places s.program.system)
    (event : ∀ e, x.after.scratch.event = some e → e ∈ (Stock.of s start).events s.program.system)
    (holds : ∀ top, x.after.top? = some top → top.Holds s.program.system (.of s start)) :
    x.Within s.program triggers (Glossary.of s start) := by
  have told : ∀ {v}, v ∈ Site.reads s.program { x with after := .blank start.origin } ++
      Site.definitions s.program { x with after := .blank start.origin } → v ∈ (Glossary.of s start).vars :=
    fun hv => .inl (.inr ⟨_, known, hv⟩)
  have wrote : ∀ v ∈ x.writes, v ∈ (Glossary.of s start).vars := by
    intro v hv
    rcases Site.mem_writes_cases (.blank start.origin) hv with hv | hv
    · exact .inl (.inl (.inl (written v hv)))
    · exact told (List.mem_append_right _ (Site.mem_definitions.2 (.inl hv)))
  refine ⟨?_, ?_, ?_, fun v hv => ?_, fun v hv => ?_⟩
  · refine .inl (.inl ⟨_, known, .inl ?_⟩)
    rw [Site.statement, origin]
    rfl
  · refine .inl (.inl ⟨_, known, .inr (.inl ?_)⟩)
    rw [Site.owner, origin]
    rfl
  · refine .inl (.inl ⟨_, known, .inr (.inr ?_)⟩)
    rw [callNode, origin]
    rfl
  · rcases Site.mem_reads_cases (.blank start.origin) hv with hv | hv
    · exact .inl (.inl (.inl (read v hv)))
    · exact told (List.mem_append_left _ hv)
  · cases triggers with
    | false => exact wrote v hv
    | true =>
        rcases Site.mem_definitions.1 hv with hv | hv
        · exact wrote v hv
        · unfold Site.trigger? at hv
          split at hv
          · rename_i finished
            split at hv
            · -- An update is requested of an instance at hand.
              obtain ⟨top, htop, hv⟩ := Option.bind_eq_some_iff.1 hv
              obtain ⟨i, hi, hv⟩ := Option.bind_eq_some_iff.1 hv
              obtain ⟨c, hc, hv⟩ := Option.bind_eq_some_iff.1 hv
              obtain ⟨q, hq, rfl⟩ := Option.map_eq_some_iff.1 hv
              refine .inl (.inl (.inr (.inl (.inr ⟨i, ?_, c, q, hc, hq, rfl⟩))))
              split at hi
              · exact Stock.mem_instances_of_value ((holds top htop).value_mem_all 0 0) hi
              · exact Stock.mem_instances_of_value (holds top htop).receiver hi
            · rename_i expr
              have awaited : Site.trigger? s.program { x with after := .blank start.origin } = some v := by
                have finished : Site.finished { x with after := .blank start.origin } = true := finished
                unfold Site.trigger?
                rw [if_pos finished]
                dsimp only
                rw [expr]
                dsimp only
                rw [← hv, Site.awaited?, Site.awaited?, origin]
                rfl
              exact told (List.mem_append_right _ (Site.mem_definitions.2 (.inr awaited)))
            · obtain ⟨e, he, rfl⟩ := Option.map_eq_some_iff.1 hv
              exact .inl (.inl (.inr (.inl (.inl ⟨e, event e he, rfl⟩))))
            · cases hv
          · cases hv

/-- A small step that is told uses the names of what it is about. -/
theorem evaluated_sticks {G : Glossary} (observes : s.setup.observer = .pdg triggers) (sticks : Sticks G u)
    {o : Option Expr} {c : Int} {i : Info}
    (within : ∀ x l callers j up, o = some x → u.scratch.announced = some (l :: callers) → l.path = j :: up →
      Site.Within s.program triggers G ⟨u, x, c, j, s.program.parent? l.routine x, l, callers⟩)
    (learned : (s.setup.observer.evaluated s.program u o c).result = .ok i) :
    ∃ k, i = .pdg k ∧ k.Unfinished ∧ G.Covers k.facts := by
  obtain ⟨g, hg, unfinished, covers⟩ := sticks
  rw [observes] at learned
  simp only [Observer.evaluated, hg] at learned
  obtain ⟨k, heval, rfl⟩ := Success.map_iff.1 learned
  refine ⟨k, rfl, (evaluated_becomes unfinished heval).unfinished, ?_⟩
  obtain rfl | rfl | ⟨x, l, callers, j, up, expr, announced, path, heval⟩ := evaluated_cases heval
  · exact covers
  · exact forget_facts (g := g) _ ▸ covers.forgetting
  · exact evaluatedAt_covers covers (within x l callers j up expr announced path) unfinished.valid heval

namespace Contained

variable (h : s.Contained first start) (observes : s.setup.observer = .pdg triggers)

section Announced

variable {top : Frame} {below : List Frame} {i : Int} {up : Path} {e : Expr} {sc : Scratch}

include h

/-- What the next step is about comes up. -/
theorem site_mem (occurs : s.Occurs start false t) (hframes : t.frames = top :: below) (path : top.path = i :: up)
    (he : s.program.at? top.location = some e) :
    ⟨.blank start.origin, e, top.comingFrom, i, s.program.parent? top.location.routine e, top.location,
      below.map (·.location)⟩ ∈ (Stock.of s start).sites s.program start.origin := by
  refine ⟨_, h.frames_mem occurs, ?_⟩
  rw [Site.at?_unnumbered, hframes]
  simp only [Site.at?, path, he]

/-- The names of the wakeups in a step that is announced come up. -/
theorem names (occurs : s.Occurs start false t) (origin : t.origin = start.origin) (hframes : t.frames = top :: below)
    (path : top.path = i :: up) (he : s.program.at? top.location = some e)
    (announced : sc.announced = none ∨ sc.announced = some (top.location :: below.map (·.location))) :
    s.Names (Glossary.of s start) { t.resetAccesses with scratch := sc } where
  wakers q hq := by
    unfold Transition.waker
    dsimp only
    split
    · rcases announced with none | some
      · refine .inl (.inr ?_)
        rw [none]
        exact congrArg (fun o => (StatementId.point o []).key) origin
      · refine .inl (.inl ⟨_, h.site_mem occurs hframes path he, .inl ?_⟩)
        rw [some]
        exact congrArg (fun o => (StatementId.point o _).key) origin
    · exact .inr ⟨q, hq, rfl⟩
  resumptions q hq stack resumes := by
    obtain ⟨ps, found, resumes⟩ := Option.bind_eq_some_iff.1 resumes
    have known := (h.states occurs).procs ps.unnumbered (List.mem_map_of_mem (List.mem_of_getElem? found))
    exact .inl (.inl (.inr (.inr ⟨q, hq, _, known, stack, ps.resumption?_unnumbered.trans resumes, rfl⟩)))

end Announced

include h observes

/-- While code runs, graphs have an entry. -/
theorem entered {g : Pdg} (occurs : s.Occurs start b t) (hg : t.info = .pdg g) : g.entry.isSome := by
  have knows := knows_graph observes
  obtain ⟨g', hg', -, entered⟩ := knows.occurs (knows.begins h.begins) occurs
  exact Info.pdg.inj (hg'.symm.trans hg) ▸ entered rfl

theorem start_sticks : Sticks (Glossary.of s start) start := by
  obtain ⟨g, hg, unfinished, -⟩ := (knows_graph observes).begins h.begins
  refine ⟨g, hg, unfinished, fun hn => .inl ⟨g, hg, mem_ids.2 hn⟩, fun hv => .inr ⟨g, hg, ?_⟩⟩
  obtain ⟨d, found, -⟩ := hv
  exact List.mem_map_of_mem (Table.mem_of_get? found)

/-- Small steps of code that does not end keep to the names that come up. -/
theorem step_sticks {st : SmallStep} (occurs : s.Occurs start false t) (known : Sticks (Glossary.of s start) t)
    (origin : t.origin = start.origin) (hst : (s.smallStep t).result = .ok st) (hr : r ∈ st.results)
    (goes : st.ends = false) : Sticks (Glossary.of s start) r ∧ r.origin = start.origin := by
  obtain ⟨holds, confined⟩ := h.stays_within occurs rfl
  obtain ⟨later, -⟩ := h.stays_within (.step occurs hst hr) goes
  have confined := smallStep_confined hst hr goes confined holds (h.obeys occurs) h.untracked fun _ => .inr
  obtain ⟨st₀, rs, u, hadv, hu, learned, same, rfl⟩ := smallStep_mem hst hr
  have read := confined.read
  have written := confined.written
  rw [same] at read written later ⊢
  -- It is enough that the step is told with names that come up.
  suffices stuck : Sticks (Glossary.of s start) u ∧ u.origin = start.origin ∧
      ∀ x l callers j up, st₀.expr = some x → u.scratch.announced = some (l :: callers) → l.path = j :: up →
        Site.Within s.program triggers (Glossary.of s start)
          ⟨u, x, st₀.comingFrom, j, s.program.parent? l.routine x, l, callers⟩ by
    obtain ⟨sticks, origin, within⟩ := stuck
    obtain ⟨k, hk, known⟩ := evaluated_sticks observes sticks within learned
    exact ⟨⟨k, hk, known⟩, origin⟩
  obtain ⟨ps, top, hps, htop, step⟩ := advance_cases hadv
  obtain ⟨below, stack, hframes⟩ := Transition.frames_of_top (t := t) hps htop
  obtain ⟨-, rfl⟩ | ⟨i, up, e, sc, path, he, announced, step⟩ := step
  · have keeps := bodyStep_keeps hu
    have known : Sticks (Glossary.of s start) t.resetAccesses := known
    have silent : (s.bodyStep t.resetAccesses top).expr = none := bodyStep_expr
    refine ⟨known.of_keeps keeps, keeps.origin.trans origin, fun x l callers j up expr => ?_⟩
    cases silent.symm.trans expr
  · have quiet := occurs.quiet h.begins.quiet
    obtain ⟨whom, what⟩ := announce_cases (t := t.resetAccesses) observes quiet hps htop announced
    rw [ProcessState.locations, stack, List.map_cons] at whom
    have heard : ∀ ev, (top.value 0 0).asEvent? = some ev → ev ∈ (Stock.of s start).events s.program.system :=
      fun ev => (holds top (hframes ▸ List.mem_cons_self)).event_mem
    have named := fun ev hev => Glossary.event_mem (heard ev hev)
    obtain ⟨sticks, from', whose, which⟩ :=
      exprStep_sticks observes (h.names occurs origin hframes path he whom) named known step hu
    refine ⟨sticks, from'.trans origin, fun x l callers j up' expr told path' => ?_⟩
    rw [told_site (exprStep_reports step) path whom expr (whose ▸ told) path']
    refine site_within (h.site_mem occurs hframes path he) (from'.trans origin) read written ?_ ?_
    · exact fun ev hev => heard ev (what ev (which.symm.trans hev)).2
    · intro top' htop'
      obtain ⟨ps', hps', -⟩ := Option.bind_eq_some_iff.1 htop'
      obtain ⟨below', -, frames⟩ := Transition.frames_of_top hps' htop'
      exact later top' (show top' ∈ u.frames from frames ▸ List.mem_cons_self)

/-- Graphs that are composed keep to the names. -/
theorem merge_sticks {i : Info} (ht : s.Occurs start false t) (hu : s.Occurs start false u)
    (known : Sticks (Glossary.of s start) t) (known' : Sticks (Glossary.of s start) u)
    (composed : t.info.compose u.info = .ok i) :
    ∃ k, i = .pdg k ∧ k.Unfinished ∧ (Glossary.of s start).Covers k.facts := by
  obtain ⟨g, hg, unfinished, covers⟩ := known
  obtain ⟨g', hg', unfinished', covers'⟩ := known'
  have entry := h.entered observes ht hg
  have entry' := h.entered observes hu hg'
  rw [hg, hg'] at composed
  obtain ⟨k, hk, rfl⟩ := Success.map_iff.1 composed
  obtain ⟨done, -⟩ := compose_writes unfinished unfinished' entry entry' hk
  obtain ⟨-, -, facts, -⟩ := compose_facts unfinished.valid unfinished'.valid entry entry' hk
  exact ⟨k, rfl, done, facts ▸ covers.union covers'⟩

/-- The graphs of code that does not end use the names that come up. -/
theorem sticks (occurs : s.Occurs start b t) (goes : b = false) :
    Sticks (Glossary.of s start) t ∧ t.origin = start.origin := by
  induction occurs with
  | start => exact ⟨h.start_sticks observes, rfl⟩
  | step occurs hst hr ih =>
      obtain ⟨known, origin⟩ := ih rfl
      exact h.step_sticks observes occurs known origin hst hr goes
  | merge ht hu _ composed same iht ihu =>
      subst goes
      obtain ⟨known, origin⟩ := iht rfl
      obtain ⟨known', origin'⟩ := ihu rfl
      refine ⟨h.merge_sticks observes ht hu known known' composed, ?_⟩
      rcases same with rfl | rfl
      · exact origin
      · exact origin'

end Contained

end Simulator

end DeltaSlice

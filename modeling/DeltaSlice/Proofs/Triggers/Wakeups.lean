import DeltaSlice.Proofs.Safety.Learning

/-!
Wakeups in dependence graphs. The node of a wakeup joins the definitions of the trigger of the point at
which the process resumes. Earlier definitions stay, but a trigger that the transition has not defined so
far is no longer reached from before the transition.
-/

namespace DeltaSlice

open Pdg

theorem Pdg.Grows.reaches_iff {g h : Pdg} {A : Set Fact} (hg : g.Valid) (grows : Grows g h A)
    {v : Variable} {d : Option NodeId} : .reaches v d ∈ h.facts ↔ .reaches v d ∈ g.facts := by
  cases d with
  | none => simp [Says, grows.reaching]
  | some a =>
      simp only [mem_facts, Says, grows.reaching]
      refine exists_congr fun d => and_congr_right fun found => exists_congr fun n => and_congr_right fun hn => ?_
      rw [grows.idOf?_eq ((hg.definitions v d (Table.mem_of_get? found)).2.2 n hn)]

/-- The statement on behalf of which a process is woken: an immediate notification, or the wakeup itself at
the end of a cycle. -/
def Transition.waker (t : Transition) (p : Process) : StatementId :=
  match t.scratch.event with
  | some _ => .point t.origin (t.scratch.announced.getD [])
  | none => .wakeup p

/-- The events whose triggers a wakeup reads. -/
def Transition.heard (t : Transition) (events : List Event) (before : EventList) : List Event :=
  match t.scratch.event with
  | some _ => []
  | none => events.filter before.contains

namespace Dependence

variable {g : Pdg} {t : Transition} {p : Process} {events : List Event} {before : EventList}

/-- The node of a wakeup and what it reads. -/
def wakeupFacts (g : Pdg) (t : Transition) (p : Process) (events : List Event) (before : EventList) : Set Fact :=
  {.node (.statement (t.waker p).key)} ∪
    {f | ∃ e ∈ t.heard events before, f ∈ readFacts g.facts (.event e) (.statement (t.waker p).key)}

/-- Either way the wakeup has a node, on behalf of which triggers are read. -/
theorem woken_eq : woken t p events before g =
    ((t.heard events before).foldlM
      (fun (c : Pdg) e => c.readBy (.event e) (g.statementNode (t.waker p)).1)
      (g.statementNode (t.waker p)).2).bind fun c =>
        match (t.state.procs[p.index]?).bind (·.resumption?) with
        | none => .error .undefined
        | some stack => .ok (c.addDefinition (.ofResumption p.inst stack) (g.statementNode (t.waker p)).1) := by
  unfold woken Transition.heard Transition.waker
  cases t.scratch.event with
  | some _ => rfl
  | none =>
      dsimp only
      generalize (events.filter before.contains).foldlM (m := Except Fault) _ _ = x
      cases x <;> rfl

/-- A wakeup reads triggers for its node and adds the node to the definitions of the trigger of the point at
which the process resumes. -/
theorem woken_defines (events : List Event) (before : EventList) (hg : g.Unfinished) {stack : Stack}
    (resumes : (t.state.procs[p.index]?).bind (·.resumption?) = some stack) :
    ∃ c n, woken t p events before g = .ok (c.addDefinition (.ofResumption p.inst stack) n) ∧
      Grows g c (wakeupFacts g t p events before) ∧ Becomes g c ∧
      c.idOf? n = some (.statement (t.waker p).key) := by
  obtain ⟨made, name⟩ := node_grows hg.valid (.statement (t.waker p).key) (some (t.waker p))
  obtain ⟨becomes, -⟩ := statementNode_becomes hg (t.waker p)
  have reads : Succeeds (Becomes (g.statementNode (t.waker p)).2) ((t.heard events before).foldlM
      (fun (c : Pdg) e => c.readBy (.event e) (g.statementNode (t.waker p)).1)
      (g.statementNode (t.waker p)).2) :=
    .foldlM (.refl becomes.unfinished) fun e _ c hc =>
      (readBy_succeeds hc.unfinished (hc.lt (idOf?_isSome.1 ⟨_, name⟩))).mono fun _ _ hd => hc.trans hd
  obtain ⟨c, hc, later⟩ := reads
  -- Reading defines nothing, so every read sees what reached the wakeup at first.
  have told := foldlM_grows (F := fun e => readFacts g.facts (.event e) (.statement (t.waker p).key))
    made.valid (fun e _ b d _ hb hd => ?_) hc
  · refine ⟨c, _, ?_, made.trans told, becomes.trans later, told.names name⟩
    rw [woken_eq, hc, resumes]
    rfl
  · refine (readBy_grows hb.valid (hb.names name) hd).congr ?_
    simp only [readFacts, (made.trans hb).reaches_iff hg.valid]

end Dependence

open Dependence

namespace Simulator

variable {s : Simulator} {t : Transition} {p : Process} {ps : ProcessState} {before : EventList}
variable {notified : List Event} {g : Pdg}

/-- Whoever is told of an event waits for fewer of them then. -/
theorem untold_fewer {es : List Event} (told : ∃ e ∈ es, e ∈ notified) :
    (es.filter fun e => !notified.contains e).length ≠ es.length := by
  obtain ⟨e, he, hn⟩ := told
  rw [Ne, List.length_filter_eq_length_iff]
  intro untold
  simpa [hn] using untold e he

/-- A process that waits for one of the events is woken, at least in part, and the observer learns of it. -/
theorem notifyProcess_wakes (observes : s.setup.observer = .pdg true) (graph : t.info = .pdg g)
    (hg : g.Unfinished) (found : t.state.procs[p.index]? = some ps)
    (waits : ps.blocker = some (.events before)) (told : ∃ e ∈ before.events, e ∈ notified) {stack : Stack}
    (resumes : ps.resumption? = some stack) :
    ∃ r c n, (s.notifyProcess t p notified).result = .ok r ∧
      r.info = .pdg (c.addDefinition (.ofResumption p.inst stack) n) ∧
      Pdg.Grows g c (wakeupFacts g t p (before.events.filter notified.contains) before) ∧ Becomes g c ∧
      c.idOf? n = some (.statement (t.waker p).key) := by
  unfold notifyProcess
  rw [found]
  simp only [waits, untold_fewer told, if_false]
  generalize (if (before.events.filter fun e => !notified.contains e).isEmpty || before.choice then none
    else some (Blocker.events (before.withEvents (before.events.filter fun e => !notified.contains e)))) = b
  have resumes : ((t.setProc p (ps.block b)).state.procs[p.index]?).bind (·.resumption?) = some stack := by
    rw [Transition.setProc, State.setProc, List.getElem?_set_self (List.getElem?_eq_some_iff.1 found).1]
    exact resumes
  obtain ⟨c, n, woken, grows, becomes, name⟩ := woken_defines (t := t.setProc p (ps.block b)) (p := p)
    (before.events.filter notified.contains) before hg resumes
  refine ⟨_, c, n, Run.bind_result_iff.2 ⟨_, ?_, rfl⟩, rfl, grows, becomes, name⟩
  simp only [observes, Observer.waitedForEvents, show (t.setProc p (ps.block b)).info = .pdg g from graph,
    Run.result_ofFault, woken]
  rfl

/-- A wakeup is a weak update of the trigger of the point at which the process resumes: definitions made
before stay and reach the end of the transition. A definition from before the transition stays as well, but
only if the transition has an entry for the trigger. -/
theorem wakeup_keeps_definitions (observes : s.setup.observer = .pdg true) (graph : t.info = .pdg g)
    (hg : g.Unfinished) (found : t.state.procs[p.index]? = some ps) (framed : ps.stack ≠ [])
    (waits : ps.blocker = some (.events before)) (told : ∃ e ∈ before.events, e ∈ notified) :
    ∃ stack r h f, ps.resumption? = some stack ∧ (s.notifyProcess t p notified).result = .ok r ∧
      r.info = .pdg h ∧ h.finalize = .ok f ∧
      (∀ w a, a ∈ (h.definitionsOf w).1 ↔ a ∈ (g.definitionsOf w).1 ∨
        (w = .ofResumption p.inst stack ∧ a = .statement (t.waker p).key)) ∧
      (∀ w, (h.definitionsOf w).2 = true ↔ (g.definitionsOf w).2 = true ∧
        (w = .ofResumption p.inst stack → g.Lists w)) ∧
      (∀ a ∈ (h.definitionsOf (.ofResumption p.inst stack)).1,
        f.edge? .data a (.output (.ofResumption p.inst stack)) = .ok true) ∧
      ((h.definitionsOf (.ofResumption p.inst stack)).2 = true →
        f.edge? .data (.input (.ofResumption p.inst stack)) (.output (.ofResumption p.inst stack)) = .ok true) := by
  obtain ⟨stack, resumes⟩ := ProcessState.resumption?_isSome framed
  obtain ⟨r, c, n, notifies, learned, grows, becomes, name⟩ :=
    notifyProcess_wakes observes graph hg found waits told resumes
  have joined : Becomes g (c.addDefinition (.ofResumption p.inst stack) n) :=
    becomes.trans (addDefinition_becomes becomes.unfinished name)
  obtain ⟨f, closes, -⟩ := finalize_succeeds joined.unfinished
  refine ⟨stack, r, _, f, resumes, notifies, learned, closes, ?_⟩
  generalize Variable.ofResumption p.inst stack = v at joined closes ⊢
  obtain ⟨valid, edges⟩ := finalize_valid_edges joined.unfinished.valid closes
  have facts := addDefinition_facts (v := v) name
  have entries : c.Lists v ↔ g.Lists v := by rw [Pdg.Lists, Pdg.Lists, grows.reaching]
  have reaches {w : Variable} {d : Option NodeId} : .reaches w d ∈ (c.addDefinition v n).facts ↔
      (.reaches w d ∈ g.facts ∧ (w = v → d = none → g.Lists v)) ∨
        (w = v ∧ d = some (.statement (t.waker p).key)) := by
    rw [facts]
    simp only [Set.mem_ofPred_eq, grows.reaches_iff hg.valid, Fact.reaches.injEq, entries, and_imp]
  have closed : ∀ d, .reaches v d ∈ (c.addDefinition v n).facts →
      f.edge? .data (sourceOf v d) (.output v) = .ok true := by
    intro d hd
    have listed : v ∈ (c.addDefinition v n).reaching.entries.map (·.1) := by
      have : ((c.addDefinition v n).reaching.get? v).isSome = true := by
        rw [addDefinition, Table.get?_insert_self]
        rfl
      obtain ⟨d, found⟩ := Option.isSome_iff_exists.1 this
      exact List.mem_map_of_mem (Table.mem_of_get? found)
    exact valid.edge?_eq_true.2 ((edges _ _ _).2 (.inr ⟨rfl, v, d, rfl, listed, hd, rfl⟩))
  refine ⟨fun w a => ?_, fun w => ?_, fun a ha => ?_, fun outer => ?_⟩
  · rw [mem_definitionsOf, mem_definitionsOf, reaches]
    simp
  · rw [definitionsOf_outer, definitionsOf_outer, reaches]
    simp only [reduceCtorEq, and_false, or_false, true_implies]
    exact and_congr_right fun _ => forall_congr' fun same => same ▸ Iff.rfl
  · exact closed (some a) (mem_definitionsOf.1 ha)
  · exact closed none (definitionsOf_outer.1 outer)

/-- The process with the given number runs from the state, which gives the transition, among others. -/
def StepsTo (s : Simulator) (i : Nat) (st : State) (r : Transition) : Prop :=
  ∃ p ts, s.procs[i]? = some p ∧ (s.makeStep p st).result = .ok ts ∧ r ∈ ts

/-- Whether a step of the process with the given number passes a check. -/
def stepsWith (s : Simulator) (i : Nat) (st : State) (c : Transition → Bool) : Bool :=
  (s.procs[i]?).any fun p => Success.yields (s.makeStep p st).result fun ts => ts.any c

theorem exists_of_stepsWith {i : Nat} {st : State} {c : Transition → Bool}
    (h : s.stepsWith i st c = true) : ∃ r, s.StepsTo i st r ∧ c r = true := by
  obtain ⟨p, hp, h⟩ := (Option.any_eq_true _ _).1 h
  obtain ⟨ts, hts, h⟩ := Success.exists_of_yields h
  obtain ⟨r, hr, h⟩ := List.any_eq_true.1 h
  exact ⟨r, ⟨p, ts, hp, hts, hr⟩, h⟩

end Simulator

namespace Examples

def eventE : Event := ⟨some top, "e"⟩

def eventF : Event := ⟨some top, "f"⟩

/-- One thread waits for two events, two others notify one of them each. -/
def joint : System :=
  let x := field 0 "x"
  single [x] ["e", "f"]
    [⟨"waiter", [wait [.binary 0 .both (.event 0 "e") (.event 0 "f")], assign x (number 1)], [], false⟩,
     ⟨"first", [.notify 0 (.event 0 "e") []], [], false⟩,
     ⟨"second", [.notify 0 (.event 0 "f") []], [], false⟩]

def waiter : Process := ⟨0, "waiter", top, .member ⟨0, "Top", "waiter", [], false⟩, [], false⟩

/-- The thread waits with its first statement. -/
def halfAsleep : ProcessState :=
  ⟨some (.events ⟨[eventE, eventF], false, none⟩), [⟨⟨waiter.routine, []⟩, 0, [[]], .lit (.inst top)⟩], .empty⟩

/-- The trigger of the point at which the thread goes on. -/
def afterJoint : Variable := .ofResumption top [⟨waiter.routine, [1]⟩]

/-- The statement with the given number of the second thread. -/
def secondly (i : Int) : StatementId := .point (some top) [⟨.member ⟨1, "Top", "first", [], false⟩, [i]⟩]

/-- The second thread has notified an event and is about to notify the other one. -/
def halfway : Transition :=
  ⟨⟨.start, [halfAsleep], none, 0⟩,
    .pdg ((Pdg.empty.statementNode (secondly 0)).2.define afterJoint (Pdg.empty.statementNode (secondly 0)).1),
    none, some top, ⟨[], [], some [⟨.member ⟨1, "Top", "first", [], false⟩, [1]⟩], some eventF, .start⟩, false, none⟩

end Examples

open Examples Simulator in
theorem wakeup_keeps_definitions_joint : ∃ r h,
    ((untracked joint (.pdg true)).notifyProcess halfway waiter [eventF]).result = .ok r ∧ r.info = .pdg h ∧
      .statement (secondly 0).key ∈ (h.definitionsOf afterJoint).1 ∧
      .statement (secondly 1).key ∈ (h.definitionsOf afterJoint).1 := by
  obtain ⟨becomes, name⟩ := statementNode_becomes empty_unfinished (secondly 0)
  obtain ⟨stack, r, h, -, resumes, notifies, learned, -, joined, -⟩ :=
    wakeup_keeps_definitions (s := untracked joint (.pdg true)) (t := halfway) (p := waiter)
      rfl rfl (define_becomes becomes.unfinished name).unfinished (show _ = some halfAsleep from rfl)
      (by simp [halfAsleep]) rfl (show ∃ e ∈ _, e ∈ [eventF] from ⟨eventF, by simp, by simp⟩)
  obtain rfl := Option.some.inj resumes
  refine ⟨r, h, notifies, learned, (joined _ _).2 (.inl ?_), (joined _ _).2 (.inr ⟨rfl, rfl⟩)⟩
  rw [mem_definitionsOf, define_facts name]
  exact .inr rfl

/-- Whether both graphs have the trigger of the third thread as an output, but the second one no edge through it. -/
def Examples.losesJoint : Info → Info → Bool
  | .pdg g₁, .pdg g₂ => g₁.has (.output afterJoint) && g₂.has (.output afterJoint) &&
    !Success.yields (g₂.edge? .data (.input afterJoint) (.output afterJoint)) id
  | _, _ => false

open Examples Simulator in
/-- Two threads wake a third one together. The graph of the second of them has no edge over which the
definitions of the trigger that were made before come through. -/
theorem wakeup_loses_definitions_joint : ∃ s st r₀ r₁ r₂ g₁ g₂,
    make joint ⟨.pdg true, .immediate, fun _ => true, fun _ => true⟩ = .ok s ∧ s.initial = .ok st ∧
    s.StepsTo 0 st r₀ ∧ s.StepsTo 1 r₀.state r₁ ∧ s.StepsTo 2 r₁.state r₂ ∧
    r₂.state.procs[0]?.bind (·.resumption?) = some [⟨waiter.routine, [1]⟩] ∧
    r₀.state.procs[0]?.bind (·.blocker) = some (.events ⟨[eventE, eventF], false, none⟩) ∧
    r₁.state.procs[0]?.bind (·.blocker) = some (.events ⟨[eventF], false, none⟩) ∧
    r₂.state.procs[0]?.map (·.blocker) = some none ∧
    r₁.info = .pdg g₁ ∧ r₂.info = .pdg g₂ ∧
    g₁.has (.output afterJoint) = true ∧ g₂.has (.output afterJoint) = true ∧
    g₂.edge? .data (.input afterJoint) (.output afterJoint) ≠ .ok true := by
  obtain ⟨s, made, h⟩ := Success.exists_of_yields
    (x := make joint ⟨.pdg true, .immediate, fun _ => true, fun _ => true⟩)
    (c := fun s => Success.yields s.initial fun st => s.stepsWith 0 st fun r₀ =>
      s.stepsWith 1 r₀.state fun r₁ => s.stepsWith 2 r₁.state fun r₂ =>
        (r₂.state.procs[(0 : Nat)]?).bind ProcessState.resumption? = some [⟨waiter.routine, [1]⟩] &&
        (r₀.state.procs[(0 : Nat)]?).bind ProcessState.blocker = some (.events ⟨[eventE, eventF], false, none⟩) &&
        (r₁.state.procs[(0 : Nat)]?).bind ProcessState.blocker = some (.events ⟨[eventF], false, none⟩) &&
        (r₂.state.procs[(0 : Nat)]?).map ProcessState.blocker = some none &&
        losesJoint r₁.info r₂.info) (by decide +kernel)
  obtain ⟨st, start, h⟩ := Success.exists_of_yields h
  obtain ⟨r₀, step₀, h⟩ := exists_of_stepsWith h
  obtain ⟨r₁, step₁, h⟩ := exists_of_stepsWith h
  obtain ⟨r₂, step₂, h⟩ := exists_of_stepsWith h
  simp only [Bool.and_eq_true, decide_eq_true_eq] at h
  obtain ⟨⟨⟨⟨resumes, waits₀⟩, waits₁⟩, waits₂⟩, h⟩ := h
  unfold losesJoint at h
  split at h
  · rename_i g₁ g₂ learned₁ learned₂
    simp only [Bool.and_eq_true, Bool.not_eq_true'] at h
    obtain ⟨⟨has₁, has₂⟩, lost⟩ := h
    refine ⟨s, st, r₀, r₁, r₂, g₁, g₂, made, start, step₀, step₁, step₂, resumes, waits₀, waits₁, waits₂,
      learned₁, learned₂, has₁, has₂, fun kept => ?_⟩
    rw [kept] at lost
    cases lost
  · cases h

end DeltaSlice

import DeltaSlice.Proofs.Dependence.Cases
import DeltaSlice.Proofs.Triggers.Signals
import DeltaSlice.Proofs.Triggers.Wakeups

/-!
Small steps under the observer of dependence graphs with triggers. Before the observer is told of the
results, notifications may have woken processes, which touches the definitions of blocks only. Then the
observer makes the accesses of the step. Either way edges stay, and nothing new controls the entry.
-/

namespace DeltaSlice

namespace Pdg

variable {g h k : Pdg} {v : Variable} {n : Nat}

/-- `h` is a later version of the graph `g`: edges stay, and nothing else controls the entries. -/
structure Extends (g h : Pdg) : Prop where
  becomes : Becomes g h
  kept : ∀ {k a b}, .edge k a b ∈ g.facts → .edge k a b ∈ h.facts
  entries : ∀ {a n}, .edge .control a (.entry n) ∈ h.facts → .edge .control a (.entry n) ∈ g.facts

namespace Extends

theorem refl (hg : g.Unfinished) : Extends g g := ⟨.refl hg, id, id⟩

theorem trans (hgh : Extends g h) (hhk : Extends h k) : Extends g k :=
  ⟨hgh.becomes.trans hhk.becomes, fun he => hhk.kept (hgh.kept he), fun he => hgh.entries (hhk.entries he)⟩

theorem of_grows (becomes : Becomes g h) {A : Set Fact} (grows : Grows g h A)
    (entries : ∀ a n, .edge .control a (.entry n) ∉ A) : Extends g h := by
  refine ⟨becomes, fun he => ?_, fun he => ?_⟩
  · rw [grows.facts]
    exact .inl he
  · rw [grows.facts] at he
    exact he.resolve_right (entries _ _)

end Extends

theorem addDefinition_extends (hg : g.Unfinished) {key : String} (hn : g.idOf? n = some (.statement key)) :
    Extends g (g.addDefinition v n) := by
  have facts := addDefinition_facts (v := v) hn
  refine ⟨addDefinition_becomes hg hn, fun he => ?_, fun he => ?_⟩
  · rw [facts]
    exact .inl ⟨he, by simp⟩
  · rw [facts] at he
    rcases he with ⟨he, -⟩ | he
    · exact he
    · cases he

/-- `h` is a later version of the graph `g` after processes were woken: only definitions of blocks are
new. -/
structure Rouses (g h : Pdg) : Prop where
  toExtends : Extends g h
  others : ∀ {v d}, v.kind ≠ "block" → (.reaches v d ∈ h.facts ↔ .reaches v d ∈ g.facts)

namespace Rouses

theorem refl (hg : g.Unfinished) : Rouses g g := ⟨.refl hg, fun _ => Iff.rfl⟩

theorem trans (hgh : Rouses g h) (hhk : Rouses h k) : Rouses g k :=
  ⟨hgh.toExtends.trans hhk.toExtends, fun other => (hhk.others other).trans (hgh.others other)⟩

theorem unfinished (hgh : Rouses g h) : h.Unfinished := hgh.toExtends.becomes.unfinished

end Rouses

end Pdg

namespace Dependence

open Pdg

variable {p : Program} {s : Site} {g h : Pdg} {f : Focus} {t : Transition}

section Acts

variable {X : Set Fact} {k : EdgeKind} {a b : NodeId} {v : Variable}

theorem kept_mem_foldl (xs : List Act) (he : .edge k a b ∈ X) : .edge k a b ∈ xs.foldl Act.apply X := by
  induction xs generalizing X with
  | nil => exact he
  | cons x xs ih =>
      refine ih ?_
      cases x with
      | make c => exact .inl he
      | read v c => exact .inl he
      | write v c => exact .inl ⟨he, by simp⟩
      | forget what => exact .inl ⟨he, by simp⟩

theorem reaches_of_unchanged {xs : List Act} (unchanged : ∀ x ∈ xs, ¬ x.Changes v) (d : Option NodeId) :
    .reaches v d ∈ xs.foldl Act.carry X ↔ .reaches v d ∈ X := by
  induction xs generalizing X with
  | nil => rfl
  | cons x xs ih =>
      obtain ⟨first, rest⟩ := List.forall_mem_cons.1 unchanged
      rw [List.foldl_cons, ih rest, carry_reaches]
      refine ⟨fun h => (h.resolve_left fun sets => first ?_).2, fun h => .inr ⟨first, h⟩⟩
      exact sets.imp (fun ⟨a, hx, _⟩ => ⟨a, hx⟩) fun ⟨what, hx, drops, _⟩ => ⟨what, hx, drops⟩

/-- Acts make no output nodes. -/
theorem output_mem_foldl (xs : List Act) :
    .node (.output v) ∈ xs.foldl Act.apply X ↔ .node (.output v) ∈ X := by
  induction xs generalizing X with
  | nil => rfl
  | cons x xs ih =>
      rw [List.foldl_cons, ih]
      cases x with
      | make c => simp [Act.apply]
      | read v c => simp [Act.apply, readFacts]
      | write v c => simp [Act.apply]
      | forget what => simp [Act.apply]

theorem Performs.extends {acts : List Act} {c : Option String} (hg : g.Unfinished)
    (h : Performs g acts c f) : Extends g f.graph := by
  refine ⟨⟨⟨h.valid, fun v => ?_, fun v d hd => ?_⟩, h.entry, h.names⟩, fun he => ?_, fun he => ?_⟩
  · rw [h.facts, output_mem_foldl]
    exact hg.unclosed v
  · have statements : Statements (flows g.facts) := fun w c hc => hg.statements w c hc.1
    rw [h.facts] at hd
    exact statements.carried acts v d (flows_foldl _ _ ▸ ⟨hd, trivial⟩)
  · rw [h.facts]
    exact kept_mem_foldl acts he
  · rw [h.facts, control_mem_foldl] at he
    exact he

end Acts

/-- Connecting the node of a step tells nothing about data. -/
theorem connect_extends (hg : g.Unfinished) {n : Nat} {key : String}
    (hn : g.idOf? n = some (.statement key)) (hc : connect p s n g = .ok h) :
    Extends g h ∧ flows h.facts = flows g.facts := by
  have becomes := connect_becomes hg (idOf?_isSome.1 ⟨_, hn⟩) hc
  have grows := connect_grows hg.valid hn hc
  refine ⟨.of_grows becomes grows fun a m he => ?_, ?_⟩
  · split at he
    · rcases he with he | he <;> cases he
    · obtain ⟨-, c, -, b, -, he⟩ := he
      cases he
  · rw [grows.facts]
    ext f
    refine ⟨fun ⟨hf, flow⟩ => ⟨hf.resolve_right fun hf => ?_, flow⟩, fun ⟨hf, flow⟩ => ⟨.inl hf, flow⟩⟩
    split at hf
    · rcases hf with rfl | rfl <;> cases flow
    · obtain ⟨-, c, -, b, -, rfl⟩ := hf
      cases flow

end Dependence

open Dependence Pdg

/-- The accesses of a small step before the observer was told of its result, triggers included. -/
def Move.signals (p : Program) (m : Move) : List Act :=
  match m.step.expr with
  | none => if m.step.comingFrom = -2 then [.forget .locals] else []
  | some _ => ((m.site? p).map (Site.signals p)).getD []

theorem Move.site?_eq {p : Program} {m : Move} {e : Expr} {l : Location} {callers : Stack} {i : Int} {up : Path}
    (hexpr : m.step.expr = some e) (announced : m.result.scratch.announced = some (l :: callers))
    (hpath : l.path = i :: up) :
    m.site? p = some ⟨m.result, e, m.step.comingFrom, i, p.parent? l.routine e, l, callers⟩ := by
  simp [Move.site?, hexpr, announced, hpath]

namespace Dependence

variable {p : Program} {g h : Pdg} {m : Move}

theorem evaluatedAt_extends {s : Site} (hg : g.Unfinished) (heval : evaluatedAt p true s g = .ok h) :
    Extends g h ∧ flows h.facts = (s.signals p).foldl Act.carry (flows g.facts) := by
  obtain ⟨acts, a, f, performs, signals, final⟩ := evaluatedAt_signals hg.valid heval
  have later := performs.extends hg
  have carried : flows f.graph.facts = (s.signals p).foldl Act.carry (flows g.facts) := by
    rw [performs.facts, flows_foldl, carry_accesses, signals]
  cases hn : f.node with
  | none =>
      simp only [hn] at final
      subst final
      exact ⟨later, carried⟩
  | some n =>
      simp only [hn] at final
      obtain ⟨key, -, name⟩ : ∃ key, a = some key ∧ f.graph.idOf? n = some (.statement key) := by
        have node := performs.node
        rw [hn, Option.map_some] at node
        obtain ⟨key, rfl, name⟩ := Option.map_eq_some_iff.1 node.symm
        exact ⟨key, rfl, name.symm⟩
      obtain ⟨connected, same⟩ := connect_extends later.becomes.unfinished name final
      exact ⟨later.trans connected, same.trans carried⟩

/-- The observer makes the accesses of a small step. -/
theorem evaluated_extends (hg : g.Unfinished)
    (heval : evaluated p true m.result m.step.expr m.step.comingFrom g = .ok h) :
    Extends g h ∧ flows h.facts = (m.signals p).foldl Act.carry (flows g.facts) := by
  cases hexpr : m.step.expr with
  | none =>
    have acts : m.signals p = if m.step.comingFrom = -2 then [.forget .locals] else [] := by
      rw [Move.signals, hexpr]
    rw [hexpr] at heval
    obtain rfl := Except.ok.inj heval
    rw [acts]
    split
    · have facts := forget_facts (g := g) (·.isLocal)
      refine ⟨⟨forget_becomes hg _, fun he => ?_, fun he => ?_⟩, ?_⟩
      · rw [facts]
        exact .inl ⟨he, by simp⟩
      · rw [facts] at he
        rcases he with ⟨he, -⟩ | ⟨_, -, he⟩
        · exact he
        · cases he
      · have dropped : (g.forget (·.isLocal)).facts = (Act.forget .locals).apply g.facts := facts
        rw [dropped, flows_apply]
        rfl
    · exact ⟨.refl hg, rfl⟩
  | some e =>
    have acts : m.signals p = ((m.site? p).map (Site.signals p)).getD [] := by
      rw [Move.signals, hexpr]
    rw [hexpr] at heval
    rw [acts]
    unfold evaluated at heval
    dsimp only at heval
    split at heval
    · rename_i unannounced
      obtain rfl := Except.ok.inj heval
      have nowhere : m.site? p = none := by simp [Move.site?, hexpr, unannounced]
      rw [nowhere]
      exact ⟨.refl hg, rfl⟩
    · cases heval
    · rename_i l callers announced
      split at heval
      · cases heval
      · rename_i i up hpath
        rw [Move.site?_eq hexpr announced hpath]
        exact evaluatedAt_extends hg heval

/-- Code that starts enters the graph, under the control of the trigger of the point at which it starts. -/
theorem start_enters {t : Transition} (hg : g.Unfinished) (hs : start true t g = .ok h) :
    ∃ stack o, t.running?.bind (·.resumption?) = some stack ∧ t.origin = some o ∧ h.Unfinished ∧
      h.entryId? = some (.entry (StatementId.point t.origin stack).key) ∧
      h.facts = g.facts ∪ {.node (.entry (StatementId.point t.origin stack).key),
        .node (.input (.ofResumption o stack)),
        .edge .control (.input (.ofResumption o stack)) (.entry (StatementId.point t.origin stack).key)} := by
  unfold start at hs
  cases hstack : t.running?.bind (·.resumption?) with
  | none => simp [hstack] at hs
  | some stack =>
      cases ho : t.origin with
      | none => simp [hstack, ho] at hs
      | some o =>
          simp only [hstack, ho, if_true] at hs
          obtain ⟨entered, entry, name⟩ := enter_unfinished hg (.point (some o) stack)
          have facts : (g.enter (.point (some o) stack)).2.facts =
              g.facts ∪ {.node (.entry (StatementId.point (some o) stack).key)} :=
            (node_grows hg.valid (.entry (StatementId.point (some o) stack).key) _).1.facts
          obtain ⟨becomes, input⟩ := inputNode_becomes entered (.ofResumption o stack)
          have grows := (inputNode_grows entered.valid (.ofResumption o stack)).1
          obtain ⟨k, hk, later⟩ := addEdge_succeeds (k := .control) becomes.unfinished
            (idOf?_isSome.1 ⟨_, input⟩) (becomes.lt (idOf?_isSome.1 ⟨_, name⟩))
          obtain rfl : k = h := Except.ok.inj ((hk ▸ hs : (Except.ok k).mapError Halt.broken = .ok h))
          have edge := addEdge_grows becomes.unfinished.valid input (becomes.names name) hk
          refine ⟨stack, o, rfl, rfl, later.unfinished, later.entryId (becomes.entryId entry), ?_⟩
          rw [edge.facts, grows.facts, facts]
          simp only [Set.union_assoc, Set.singleton_union, Set.insert_union]

/-- A relevant step is announced with the stack of locations, and with the event that it notifies. -/
theorem announce_relevant {t : Transition} {e : Expr} {sc : Scratch} {ps : ProcessState} {top : Frame} {i : Int}
    {up : Path} (running : t.running? = some ps) (htop : t.top? = some top) (hpath : top.path = i :: up)
    (relevant : p.isRelevant top.location.routine e i top.comingFrom = true)
    (ha : announce p true t e = .ok sc) : ∃ event, announcedEvent top e = .ok event ∧
      sc = { t.scratch with announced := some ps.locations, event := event.or t.scratch.event } := by
  unfold announce at ha
  simp only [running, htop, Frame.index?, hpath, List.head?_cons, relevant, if_true] at ha
  obtain ⟨event, hevent, rfl⟩ := Success.map_iff.1 ha
  refine ⟨event, hevent, ?_⟩
  cases event <;> rfl

/-- Only a process that has a frame can be woken. -/
theorem woken_resumes {t : Transition} {q : Process} {events : List Event} {before : EventList}
    (hw : woken t q events before g = .ok h) :
    ∃ stack, (t.state.procs[q.index]?).bind (·.resumption?) = some stack := by
  refine Option.ne_none_iff_exists'.1 fun frameless => ?_
  rw [woken_eq, frameless] at hw
  obtain ⟨c, -, hw⟩ := Success.bind_method_iff.1 hw
  cases hw

theorem woken_rouses {t : Transition} {q : Process} {events : List Event} {before : EventList}
    (hg : g.Unfinished) (hw : woken t q events before g = .ok h) : Rouses g h := by
  obtain ⟨stack, resumes⟩ := woken_resumes hw
  obtain ⟨c, n, made, grows, becomes, name⟩ := woken_defines events before hg resumes
  obtain rfl : c.addDefinition (.ofResumption q.inst stack) n = h := Except.ok.inj (made.symm.trans hw)
  have read : Extends g c := by
    refine .of_grows becomes grows fun a n he => ?_
    rcases he with he | ⟨e, -, ⟨-, he⟩ | ⟨d, -, he⟩⟩ <;> cases he
  refine ⟨read.trans (addDefinition_extends becomes.unfinished name), fun {v d} other => ?_⟩
  have apart : v ≠ .ofResumption q.inst stack := by
    rintro rfl
    exact other rfl
  rw [addDefinition_facts name]
  simpa [apart] using grows.reaches_iff hg.valid

end Dependence

namespace Simulator

variable {s : Simulator} {t r : Transition} {g : Pdg}

/-- `r` goes on from `t`, whose graph is `g`, after processes were woken. -/
structure Roused (g : Pdg) (t r : Transition) : Prop where
  graph : ∃ h, r.info = .pdg h ∧ Rouses g h
  proc : r.proc = t.proc
  origin : r.origin = t.origin
  scratch : r.scratch = t.scratch

theorem Roused.refl (graph : t.info = .pdg g) (hg : g.Unfinished) : Roused g t t :=
  ⟨⟨g, graph, .refl hg⟩, rfl, rfl, rfl⟩

theorem Roused.trans {u : Transition} {h : Pdg} (first : Roused g t u) (graph : u.info = .pdg h)
    (next : Roused h u r) : Roused g t r := by
  obtain ⟨h', hinfo, rouses⟩ := first.graph
  obtain rfl : h' = h := Info.pdg.inj (hinfo.symm.trans graph)
  obtain ⟨k, hk, rouses'⟩ := next.graph
  exact ⟨⟨k, hk, rouses.trans rouses'⟩, next.proc.trans first.proc, next.origin.trans first.origin,
    next.scratch.trans first.scratch⟩

section Notify

variable (observes : s.setup.observer = .pdg true) (graph : t.info = .pdg g) (hg : g.Unfinished)

include observes graph hg

theorem notifyProcess_rouses {p : Process} {notified : List Event}
    (hr : (s.notifyProcess t p notified).result = .ok r) : Roused g t r := by
  cases notifyProcess_cases hr with
  | deaf => exact .refl graph hg
  | hears found waits learned =>
      rw [observes] at learned
      simp only [Observer.waitedForEvents, Transition.setProc, graph] at learned
      obtain ⟨h, woke, rfl⟩ := Success.map_iff.1 (Run.ofFault_result_iff.1 learned)
      exact ⟨⟨h, rfl, woken_rouses hg woke⟩, rfl, rfl, rfl⟩

theorem notifyProcesses_rouses {ps : List Process} {notified : List Event}
    (hr : (s.notifyProcesses t notified ps).result = .ok r) : Roused g t r := by
  induction ps generalizing t g with
  | nil =>
      obtain rfl := Run.pure_result_iff.1 hr
      exact .refl graph hg
  | cons p ps ih =>
      obtain ⟨u, hu, hr⟩ := Run.bind_result_iff.1 hr
      have first := notifyProcess_rouses observes graph hg hu
      obtain ⟨h, hinfo, rouses⟩ := first.graph
      exact first.trans hinfo (ih hinfo rouses.unfinished hr)

theorem notify_rouses {e : Event} {delay : Option Delay} (hr : (s.notify t e delay).result = .ok r) :
    Roused g t r := by
  obtain ⟨-, rfl⟩ | ⟨d, -, rfl⟩ | ⟨-, told⟩ := notify_cases hr
  · exact .refl graph hg
  · exact ⟨⟨g, graph, .refl hg⟩, rfl, rfl, rfl⟩
  · have roused := notifyProcesses_rouses observes (t := t.mapGlobal (·.setPending e none)) graph hg told
    exact ⟨roused.graph, roused.proc, roused.origin, roused.scratch⟩

theorem notifyStep_rouses {top : Frame} {e target : Expr} {delays : List Expr} {st : SmallStep}
    (hst : (s.notifyStep t top e target delays).result = .ok st) (hr : r ∈ st.results) : Roused g t r := by
  have edited : ∀ {u v : Transition}, Keeps u v → v.scratch = u.scratch → Roused g t u → Roused g t v := by
    intro u v keeps scratch h
    obtain ⟨k, hk, rouses⟩ := h.graph
    exact ⟨⟨k, keeps.info.trans hk, rouses⟩, keeps.proc.trans h.proc, keeps.origin.trans h.origin,
      scratch.trans h.scratch⟩
  obtain ⟨-, rfl⟩ | ⟨-, _, _, u, -, -, hu, rfl⟩ := notifyStep_cases hst
  · obtain rfl := List.mem_singleton.1 hr
    exact edited ((Keeps.refl t).mapRunning _) (Transition.scratch_mapRunning ..) (.refl graph hg)
  · obtain rfl := List.mem_singleton.1 hr
    exact edited ((Keeps.refl u).editRunning _) (Transition.scratch_editRunning ..)
      (notify_rouses observes graph hg hu)

end Notify

/-- The transition `r` of a step from `t`, whose graph is `g`, before the observer is told of it. -/
structure Advances (g : Pdg) (t r : Transition) : Prop where
  graph : ∃ h, r.info = .pdg h ∧ Rouses g h
  proc : r.proc = t.proc
  origin : r.origin = t.origin

theorem advance_rouses (observes : s.setup.observer = .pdg true) (graph : t.info = .pdg g) (hg : g.Unfinished)
    {st : SmallStep} (hst : (s.advance t).result = .ok st) (hr : r ∈ st.results) : Advances g t r := by
  have kept : ∀ {u : Transition}, u.info = .pdg g → u.proc = t.proc → u.origin = t.origin → Keeps u r →
      Advances g t r := fun info proc origin keeps =>
    ⟨⟨g, keeps.info.trans info, .refl hg⟩, keeps.proc.trans proc, keeps.origin.trans origin⟩
  obtain ⟨ps, top, -, -, ⟨-, rfl⟩ | ⟨i, up, e, sc, -, -, -, hst⟩⟩ := advance_cases hst
  · exact kept graph rfl rfl (bodyStep_keeps hr)
  · by_cases quiet : ∀ id target delays, e ≠ .notify id target delays
    · exact kept (u := { t with scratch := sc }) graph rfl rfl (exprStep_keeps_quiet quiet hst hr)
    · simp only [ne_eq, not_forall, not_not] at quiet
      obtain ⟨id, target, delays, rfl⟩ := quiet
      have roused := notifyStep_rouses observes (t := { t with scratch := sc }) graph hg hst hr
      exact ⟨roused.graph, roused.proc, roused.origin⟩

/-- A small step wakes processes, and then its accesses are made. -/
theorem triggered_step (observes : s.setup.observer = .pdg true) (graph : t.info = .pdg g) (hg : g.Unfinished)
    {st : SmallStep} (hst : (s.smallStep t).result = .ok st) (hr : r ∈ st.results) :
    ∃ st₀ u c h, (s.advance t.resetAccesses).result = .ok st₀ ∧ u ∈ st₀.results ∧
      st.expr = st₀.expr ∧ st.ends = st₀.ends ∧
      r = { u with info := .pdg h, scratch := { u.scratch with event := none } } ∧
      u.proc = t.proc ∧ u.origin = t.origin ∧ u.info = .pdg c ∧ Rouses g c ∧ Extends c h ∧
      flows h.facts = ((⟨st₀, u⟩ : Move).signals s.program).foldl Act.carry (flows c.facts) := by
  obtain ⟨st₀, rs, u, hadv, hu, heval, heq, rfl⟩ := smallStep_mem hst hr
  obtain ⟨⟨c, hc, rouses⟩, proc, origin⟩ := advance_rouses observes (t := t.resetAccesses) graph hg hadv hu
  rw [observes] at heval
  simp only [Observer.evaluated, hc, Run.result_of] at heval
  obtain ⟨h, hh, learned⟩ := Success.map_iff.1 heval
  obtain ⟨later, carried⟩ := evaluated_extends (m := ⟨st₀, u⟩) rouses.unfinished hh
  rw [← learned] at heq
  exact ⟨st₀, u, c, h, hadv, hu, rfl, rfl, heq, proc, origin, hc, rouses, later, carried⟩

/-- Merging keeps what extends a graph. -/
theorem compose_extends {g₀ h k : Pdg} {c : NodeId} (entered : g₀.entryId? = some c) (hg : Extends g₀ g)
    (hh : Extends g₀ h) (hk : g.compose h = .ok k) :
    Extends g₀ k ∧ k.facts = g.facts ∪ h.facts := by
  have hgc := hg.becomes.entryId entered
  have hhc := hh.becomes.entryId entered
  obtain ⟨k', hk', becomes⟩ := compose_succeeds hg.becomes.unfinished hh.becomes.unfinished hgc hhc
  obtain rfl : k' = k := Except.ok.inj (hk'.symm.trans hk)
  obtain ⟨-, -, facts, -⟩ := compose_facts hg.becomes.unfinished.valid hh.becomes.unfinished.valid
    (isSome_entry hgc) (isSome_entry hhc) hk
  refine ⟨⟨hg.becomes.trans becomes, fun he => ?_, fun he => ?_⟩, facts⟩
  · rw [facts]
    exact .inl (hg.kept he)
  · rw [facts] at he
    exact he.elim hg.entries hh.entries

section Occurs

variable {start : Transition} {g₀ : Pdg} {c : NodeId}

/-- Whatever occurs in a run of code carries a later version of the graph with which the run began. -/
theorem Occurs.extends (observes : s.setup.observer = .pdg true) (graph : start.info = .pdg g₀)
    (hg₀ : g₀.Unfinished) (entered : g₀.entryId? = some c) {b : Bool} (h : s.Occurs start b t) :
    (∃ k, t.info = .pdg k ∧ Extends g₀ k) ∧ t.proc = start.proc ∧ t.origin = start.origin := by
  induction h with
  | start => exact ⟨⟨g₀, graph, .refl hg₀⟩, rfl, rfl⟩
  | step _ hst hr ih =>
      obtain ⟨⟨k, hk, later⟩, proc, origin⟩ := ih
      obtain ⟨st₀, u, k', h, -, -, -, -, rfl, sameProc, sameOrigin, -, rouses, extended, -⟩ :=
        triggered_step observes hk later.becomes.unfinished hst hr
      exact ⟨⟨h, rfl, later.trans (rouses.toExtends.trans extended)⟩, sameProc.trans proc,
        sameOrigin.trans origin⟩
  | merge _ _ _ hi same iht ihu =>
      obtain ⟨⟨k, hk, later⟩, proc, origin⟩ := iht
      obtain ⟨⟨k', hk', later'⟩, proc', origin'⟩ := ihu
      rw [hk, hk'] at hi
      obtain ⟨k'', hk'', rfl⟩ := Success.map_iff.1 hi
      refine ⟨⟨k'', rfl, (compose_extends entered later later' hk'').1⟩, ?_⟩
      rcases same with rfl | rfl
      · exact ⟨proc, origin⟩
      · exact ⟨proc', origin'⟩

end Occurs

end Simulator

end DeltaSlice

import DeltaSlice.Proofs.Pdg.Invariant
import DeltaSlice.Proofs.Termination.Knowledge
import DeltaSlice.Proofs.Termination.Occurrences

/-!
The names that dependence graphs use. A small step and a wakeup add nodes for statements and for the variables that
are read, and definitions of the variables that are written. So the facts of graphs are made from the names at hand.
In one run of code these are the names of what its steps are about, of the points at which processes resume, and of
the events and updates that the values at hand allow; there are finitely many.
-/

namespace DeltaSlice

open Pdg Dependence

/-- The names at hand: keys of statements, variables, and nodes that are there from the beginning. -/
structure Glossary where
  keys : Set String
  vars : Set Variable
  given : Set NodeId

namespace Glossary

def nodes (G : Glossary) : Set NodeId :=
  {a | a ∈ G.given ∨ (∃ k ∈ G.keys, a = .statement k) ∨ ∃ v ∈ G.vars, a = .input v}

/-- What can be said with the names. -/
def facts (G : Glossary) : Set Fact
  | .node a => a ∈ G.nodes
  | .edge _ a b => a ∈ G.nodes ∧ b ∈ G.nodes
  | .reaches v (some a) => v ∈ G.vars ∧ a ∈ G.nodes
  | .reaches v none => v ∈ G.vars

structure Finite (G : Glossary) : Prop where
  keys : G.keys.Finite
  vars : G.vars.Finite
  given : G.given.Finite

/-- Nodes and definitions are named with the names. -/
structure Covers (G : Glossary) (X : Set Fact) : Prop where
  nodes {a : NodeId} : .node a ∈ X → a ∈ G.nodes
  vars {v : Variable} {a : NodeId} : .reaches v (some a) ∈ X → v ∈ G.vars

variable {G : Glossary} {X : Set Fact} {g h : Pdg} {f : Fact}

namespace Finite

variable (finite : G.Finite)

include finite

theorem nodes : G.nodes.Finite := by
  refine (finite.given.union ((finite.keys.image NodeId.statement).union (finite.vars.image NodeId.input))).subset ?_
  rintro a (given | ⟨k, hk, rfl⟩ | ⟨v, hv, rfl⟩)
  · exact .inl given
  · exact .inr (.inl ⟨k, hk, rfl⟩)
  · exact .inr (.inr ⟨v, hv, rfl⟩)

theorem facts : G.facts.Finite := by
  have kinds : (Set.univ : Set EdgeKind).Finite := EdgeKind.all.finite_toSet.subset fun k _ => by cases k <;> decide
  have nodes := finite.nodes.image Fact.node
  have edges := (kinds.prod (finite.nodes.prod finite.nodes)).image fun w => Fact.edge w.1 w.2.1 w.2.2
  have reaches := (finite.vars.prod ((finite.nodes.image some).insert none)).image fun w => Fact.reaches w.1 w.2
  refine (nodes.union (edges.union reaches)).subset fun f hf => ?_
  cases f with
  | node a => exact .inl ⟨a, hf, rfl⟩
  | edge k a b => exact .inr (.inl ⟨(k, a, b), ⟨trivial, hf.1, hf.2⟩, rfl⟩)
  | reaches v d =>
      cases d with
      | none => exact .inr (.inr ⟨(v, none), ⟨hf, .inl rfl⟩, rfl⟩)
      | some a => exact .inr (.inr ⟨(v, some a), ⟨hf.1, .inr ⟨a, hf.2, rfl⟩⟩, rfl⟩)

end Finite

namespace Covers

/-- What a graph says is said with the names, unless it is that a variable without a name has no definition. -/
theorem mem_facts (covers : G.Covers g.facts) (hf : f ∈ g.facts) :
    f ∈ G.facts ∨ ∃ v, f = .reaches v none ∧ v ∉ G.vars := by
  cases f with
  | node a => exact .inl (covers.nodes hf)
  | edge k a b =>
      obtain ⟨m, n, hm, hn, -⟩ := hf
      exact .inl ⟨covers.nodes ⟨m, hm⟩, covers.nodes ⟨n, hn⟩⟩
  | reaches v d =>
      cases d with
      | none =>
          by_cases known : v ∈ G.vars
          · exact .inl known
          · exact .inr ⟨v, rfl, known⟩
      | some a =>
          have known := covers.vars hf
          obtain ⟨d, -, n, -, hn⟩ := hf
          exact .inl ⟨known, covers.nodes ⟨n, hn⟩⟩

theorem union {Y : Set Fact} (hX : G.Covers X) (hY : G.Covers Y) : G.Covers (X ∪ Y) :=
  ⟨fun hf => hf.elim hX.nodes hY.nodes, fun hf => hf.elim hX.vars hY.vars⟩

theorem node {a : NodeId} (ha : a ∈ G.nodes) : G.Covers {.node a} :=
  ⟨fun hf => Fact.node.inj hf ▸ ha, fun hf => nomatch hf⟩

theorem forgetting {q : Variable → Prop} (h : G.Covers X) :
    G.Covers {f | (f ∈ X ∧ ∀ v, q v → ¬ f.Tells v) ∨ ∃ v, q v ∧ f = .reaches v none} := by
  refine ⟨fun hf => ?_, fun hf => ?_⟩
  · rcases hf with ⟨hf, -⟩ | ⟨v, -, same⟩
    · exact h.nodes hf
    · cases same
  · rcases hf with ⟨hf, -⟩ | ⟨v, -, same⟩
    · exact h.vars hf
    · cases same

theorem reading {v : Variable} (hv : v ∈ G.vars) (b : NodeId) : G.Covers (readFacts X v b) := by
  refine ⟨fun hf => ?_, fun hf => ?_⟩
  · rcases hf with ⟨-, same⟩ | ⟨d, -, same⟩
    · exact Fact.node.inj same ▸ .inr (.inr ⟨v, hv, rfl⟩)
    · cases same
  · rcases hf with ⟨-, same⟩ | ⟨d, -, same⟩ <;> cases same

end Covers

end Glossary

namespace Dependence

variable {G : Glossary} {X : Set Fact} {p : Program} {triggers : Bool} {s : Site} {f f' : Focus} {g h : Pdg}

/-- The act uses the names. -/
def Act.Within (G : Glossary) : Act → Prop
  | make k => k ∈ G.keys
  | read v _ | write v _ => v ∈ G.vars
  | forget _ => True

theorem Act.covers {a : Act} (covers : G.Covers X) (within : a.Within G) : G.Covers (a.apply X) := by
  cases a with
  | make k => exact covers.union (.node (.inr (.inl ⟨k, within, rfl⟩)))
  | read v k => exact covers.union (.reading within _)
  | write v k =>
      refine ⟨fun hf => ?_, fun hf => ?_⟩
      · rcases hf with ⟨hf, -⟩ | same
        · exact covers.nodes hf
        · cases same
      · rcases hf with ⟨hf, -⟩ | same
        · exact covers.vars hf
        · exact (Fact.reaches.inj same).1 ▸ within
  | forget what => exact covers.forgetting

theorem covers_foldl {acts : List Act} (covers : G.Covers X) (within : ∀ a ∈ acts, a.Within G) :
    G.Covers (acts.foldl Act.apply X) := by
  induction acts generalizing X with
  | nil => exact covers
  | cons a acts ih =>
      obtain ⟨first, rest⟩ := List.forall_mem_cons.1 within
      exact ih (Act.covers covers first) rest

/-- What a step is about has names. -/
structure Site.Within (p : Program) (triggers : Bool) (G : Glossary) (s : Site) : Prop where
  statement : s.statement.key ∈ G.keys
  owner : (s.owner p).key ∈ G.keys
  call : (callNode s).key ∈ G.keys
  reads : ∀ v ∈ s.reads p, v ∈ G.vars
  written : ∀ v ∈ s.written p triggers, v ∈ G.vars

/-- The accesses of a step use its names. -/
theorem Site.Within.accesses (within : s.Within p triggers G) :
    ∀ a ∈ s.accessesOf p (s.reads p) (s.written p triggers), a.Within G := by
  have some : ∀ (vs : List Variable) (act : Variable → String → Act), (∀ v ∈ vs, ∀ k, (act v k).Within G) →
      ∀ a ∈ (if vs = [] then [] else .make (s.owner p).key :: vs.map (act · (s.owner p).key)), a.Within G := by
    intro vs act each a ha
    split at ha
    · cases ha
    · rcases List.mem_cons.1 ha with rfl | ha
      · exact within.owner
      · obtain ⟨v, hv, rfl⟩ := List.mem_map.1 ha
        exact each v hv _
  intro a ha
  rcases List.mem_append.1 ha with ha | ha
  · rcases List.mem_append.1 ha with ha | ha
    · exact some _ Act.read (fun v hv _ => within.reads v hv) a ha
    · obtain ⟨v, -, rfl⟩ := List.mem_map.1 ha
      trivial
  · exact some _ Act.write (fun v hv _ => within.written v hv) a ha

theorem connect_covers {n : Nat} {a : NodeId} (covers : G.Covers g.facts) (within : s.Within p triggers G)
    (hg : g.Valid) (hn : g.idOf? n = some a) (hc : connect p s n g = .ok h) : G.Covers h.facts := by
  rw [(connect_grows hg hn hc).facts]
  refine covers.union ⟨fun hf => ?_, fun hf => ?_⟩
  · split at hf
    · rcases hf with same | same
      · exact Fact.node.inj same ▸ .inr (.inl ⟨_, within.call, rfl⟩)
      · cases same
    · obtain ⟨-, c, -, b, -, same⟩ := hf
      cases same
  · split at hf
    · rcases hf with same | same <;> cases same
    · obtain ⟨-, c, -, b, -, same⟩ := hf
      cases same

/-- Before the accesses of a relevant small step, nodes are made and variables are forgotten. -/
theorem evaluatedAt_opens (covers : G.Covers g.facts) (within : s.Within p triggers G) (hg : g.Valid)
    (heval : evaluatedAt p triggers s g = .ok h) : ∃ f, concluded p s f = .ok h ∧ G.Covers f.graph.facts ∧
      f.read = s.reads p ∧ f.written = s.written p triggers ∧ ∃ a, Performs f.graph [] a f := by
  unfold evaluatedAt at heval
  obtain ⟨f, hf, heval⟩ := Success.bind_iff.1 heval
  have made : ∀ {c : Pdg}, c.Valid ∧ G.Covers c.facts →
      (c.statementNode s.statement).2.Valid ∧ G.Covers (c.statementNode s.statement).2.facts := by
    rintro c ⟨valid, covers⟩
    obtain ⟨grows, -⟩ := node_grows valid (.statement s.statement.key) (some s.statement)
    refine ⟨grows.valid, ?_⟩
    have more := covers.union (.node (.inr (.inl ⟨_, within.statement, rfl⟩)))
    rwa [← grows.facts] at more
  have forgotten : ∀ {c : Pdg} (q : Variable → Bool), c.Valid ∧ G.Covers c.facts →
      (c.forget q).Valid ∧ G.Covers (c.forget q).facts := by
    rintro c q ⟨valid, covers⟩
    exact ⟨forget_valid valid q, forget_facts (g := c) q ▸ covers.forgetting⟩
  have called : f.graph.Valid ∧ G.Covers f.graph.facts := by
    refine callEffect_kept (P := fun c => c.Valid ∧ G.Covers c.facts) made forgotten ?_ hf
    rw [bindArgument_graph]
    exact ⟨hg, covers⟩
  have notified : ∀ {f' : Focus}, f'.graph = f.graph → G.Covers (notifyEffect triggers s f').graph.facts := fun same =>
    (notifyEffect_kept (P := fun c => c.Valid ∧ G.Covers c.facts) made (same ▸ called)).2
  cases triggers with
  | false =>
      have opens := opened_of_callEffect hg hf
      refine ⟨opened p s f, heval, ?_, opens.read, opens.written, _, opens.performs.valid, rfl, rfl, id,
        opens.performs.node⟩
      rw [opened_eq]
      exact notified returnEffect_graph
  | true =>
      have signals := signalled_of_callEffect hg hf
      obtain ⟨acts, a, performs, -⟩ := signals.performs
      refine ⟨signalled p s f, heval, ?_, signals.read, signals.written, a, performs.valid, rfl, rfl, id,
        performs.node⟩
      rw [signalled_eq]
      exact notified returnEffect_graph

/-- A relevant small step uses the names of what it is about. -/
theorem evaluatedAt_covers (covers : G.Covers g.facts) (within : s.Within p triggers G) (hg : g.Valid)
    (heval : evaluatedAt p triggers s g = .ok h) : G.Covers h.facts := by
  obtain ⟨f, heval, begun, read, written, a, performs⟩ := evaluatedAt_opens covers within hg heval
  obtain ⟨f', done, final⟩ := performs.concluded heval
  rw [read, written, List.nil_append] at done
  have accessed : G.Covers f'.graph.facts := by
    rw [done.facts]
    refine covers_foldl begun fun a ha => ?_
    rcases List.mem_append.1 ha with ha | ha
    · exact within.accesses a ha
    · exact List.mem_singleton.1 (List.mem_ite_nil_right.1 ha).2 ▸ within.owner
  cases hn : f'.node with
  | none =>
      simp only [hn] at final
      exact final ▸ accessed
  | some n =>
      simp only [hn] at final
      obtain ⟨a, name⟩ : ∃ a, f'.graph.idOf? n = some a := by
        have node := done.node
        rw [hn, Option.map_some] at node
        obtain ⟨k, -, name⟩ := Option.map_eq_some_iff.1 node.symm
        exact ⟨_, name.symm⟩
      exact connect_covers accessed within done.valid name final

/-- A wakeup uses the names of the events that are heard, of the waker and of the trigger of the process. -/
theorem woken_covers {t : Transition} {q : Process} {events : List Event} {before : EventList}
    (covers : G.Covers g.facts) (hg : g.Unfinished) (waker : (t.waker q).key ∈ G.keys)
    (heard : ∀ e ∈ events, .event e ∈ G.vars)
    (trigger : ∀ stack, (t.state.procs[q.index]?).bind (·.resumption?) = some stack →
      .ofResumption q.inst stack ∈ G.vars)
    (woken : woken t q events before g = .ok h) : G.Covers h.facts := by
  obtain ⟨stack, resumes⟩ := woken_resumes woken
  obtain ⟨c, n, woken', grows, becomes, name⟩ := woken_defines events before hg resumes
  obtain rfl := Except.ok.inj (woken.symm.trans woken')
  have told : G.Covers c.facts := by
    rw [grows.facts]
    have each : ∀ e ∈ t.heard events before, e ∈ events := by
      intro e he
      unfold Transition.heard at he
      split at he
      · cases he
      · exact List.mem_of_mem_filter he
    refine covers.union (.union (.node (.inr (.inl ⟨_, waker, rfl⟩))) ⟨fun hf => ?_, fun hf => ?_⟩)
    · obtain ⟨e, he, hf⟩ := hf
      exact (Glossary.Covers.reading (heard e (each e he)) _).nodes hf
    · obtain ⟨e, he, hf⟩ := hf
      exact (Glossary.Covers.reading (heard e (each e he)) _).vars hf
  rw [addDefinition_facts name]
  refine ⟨fun hf => ?_, fun hf => ?_⟩
  · rcases hf with ⟨hf, -⟩ | same
    · exact told.nodes hf
    · cases same
  · rcases hf with ⟨hf, -⟩ | same
    · exact told.vars hf
    · exact (Fact.reaches.inj same).1 ▸ trigger stack resumes

end Dependence

/-- A transition of which only the origin matters. -/
def Transition.blank (origin : Option Instance) : Transition := .start ⟨.start, [], none, 0⟩ .none none origin

/-- What the next step is about that frames lead to. -/
def Dependence.Site.at? (p : Program) (after : Transition) : List Frame → Option Site
  | [] => none
  | top :: below =>
    match top.path, p.at? top.location with
    | i :: _, some e =>
      some ⟨after, e, top.comingFrom, i, p.parent? top.location.routine e, top.location, below.map (·.location)⟩
    | _, _ => none

theorem Dependence.Site.at?_unnumbered (p : Program) (after : Transition) (fs : List Frame) :
    Site.at? p after (fs.map Frame.unnumbered) = Site.at? p after fs := by
  cases fs with
  | nil => rfl
  | cons top below =>
      simp only [Site.at?, List.map_cons, List.map_map, Function.comp_def, Frame.unnumbered]
      rfl

namespace Stock

/-- What the steps may be about. -/
def sites (K : Stock) (p : Program) (origin : Option Instance) : Set Site :=
  {x | ∃ fs ∈ K.frameStacks p.system, Site.at? p (.blank origin) fs = some x}

/-- The triggers that may be defined besides those of waits: of events, updates and processes that resume. -/
def triggers (K : Stock) (s : Simulator) (start : State) : Set Variable :=
  Variable.event '' K.events s.program.system ∪
    {v | ∃ i ∈ K.instances s.program.system, ∃ c r, s.program.system.classOf? i = some c ∧
      c.routine? "update" = some r ∧ v = .ofResumption i [⟨r, []⟩]} ∪
    {v | ∃ q ∈ s.procs, ∃ ps ∈ K.processes s.program.system start, ∃ stack, ps.resumption? = some stack ∧
      v = .ofResumption q.inst stack}

variable {K : Stock} {s : Simulator}

theorem Finite.sites (finite : K.Finite) (p : Program) (origin : Option Instance) : (K.sites p origin).Finite := by
  have frames : (K.frameStacks p.system).Finite := finite.frameStacks
  have all := (frames.image (Site.at? p (.blank origin))).preimage (Option.some_injective _).injOn
  exact all.subset fun _ ⟨fs, hfs, hx⟩ => ⟨fs, hfs, hx⟩

theorem Finite.triggers (finite : K.Finite) (start : State) : (K.triggers s start).Finite := by
  have instances : (K.instances s.program.system).Finite := finite.instances
  have processes : (K.processes s.program.system start).Finite := finite.processes
  refine ((finite.events.image _).union ?_).union ?_
  · have updates := (instances.image fun i =>
      ((s.program.system.classOf? i).bind (·.routine? "update")).map fun r =>
        Variable.ofResumption i [⟨r, []⟩]).preimage (Option.some_injective _).injOn
    refine updates.subset ?_
    rintro v ⟨i, hi, c, r, hc, hr, rfl⟩
    exact ⟨i, hi, by simp [hc, hr]⟩
  · have resumptions := ((s.procs.finite_toSet.prod processes).image fun
      w => w.2.resumption?.map (Variable.ofResumption w.1.inst)).preimage (Option.some_injective _).injOn
    refine resumptions.subset ?_
    rintro v ⟨q, hq, ps, hps, stack, resumes, rfl⟩
    exact ⟨(q, ps), ⟨hq, hps⟩, by simp [resumes]⟩

end Stock

/-- The names that come up in the run of code that begins with a transition. -/
def Glossary.of (s : Simulator) (start : Transition) : Glossary where
  keys := {k | ∃ x ∈ (Stock.of s start).sites s.program start.origin,
      k = x.statement.key ∨ k = (x.owner s.program).key ∨ k = (callNode x).key} ∪
    {(StatementId.point start.origin []).key} ∪ {k | ∃ q ∈ s.procs, k = (StatementId.wakeup q).key}
  vars := (Stock.of s start).places s.program.system ∪ (Stock.of s start).triggers s start.state ∪
    {v | ∃ x ∈ (Stock.of s start).sites s.program start.origin, v ∈ x.reads s.program ++ x.definitions s.program} ∪
    {v | ∃ g, start.info = .pdg g ∧ v ∈ g.reaching.keys}
  given := {a | ∃ g, start.info = .pdg g ∧ a ∈ g.nodes.map (·.id)}

namespace Glossary

variable {s : Simulator} {start : Transition}

/-- The events at hand come up. -/
theorem event_mem {e : Event} (he : e ∈ (Stock.of s start).events s.program.system) :
    .event e ∈ (Glossary.of s start).vars :=
  .inl (.inl (.inr (.inl (.inl ⟨e, he, rfl⟩))))

theorem of_finite (start : Transition) (acyclic : s.program.system.Acyclic) : (Glossary.of s start).Finite := by
  have finite := Stock.of_finite (s := s) start acyclic
  have sites := finite.sites s.program start.origin
  have begun : ∀ {α : Type} (f : Pdg → List α), {a | ∃ g, start.info = .pdg g ∧ a ∈ f g}.Finite := by
    intro α f
    by_cases known : ∃ g, start.info = .pdg g
    · obtain ⟨g, hg⟩ := known
      refine (f g).finite_toSet.subset ?_
      rintro a ⟨g', same, ha⟩
      exact Info.pdg.inj (hg.symm.trans same) ▸ ha
    · exact Set.finite_empty.subset fun a ⟨g, hg, _⟩ => (known ⟨g, hg⟩).elim
  refine ⟨?_, ?_, ?_⟩
  · refine (Set.Finite.union ?_ (Set.finite_singleton _)).union ?_
    · have keys := sites.biUnion fun x _ => Set.toFinite {x.statement.key, (x.owner s.program).key, (callNode x).key}
      exact keys.subset fun k ⟨x, hx, hk⟩ => Set.mem_biUnion hx hk
    · exact (s.procs.finite_toSet.image fun q => (StatementId.wakeup q).key).subset
        fun k ⟨q, hq, hk⟩ => ⟨q, hq, hk.symm⟩
  · refine ((finite.places.union (finite.triggers start.state)).union ?_).union ?_
    · have vars := sites.biUnion fun x _ => (x.reads s.program ++ x.definitions s.program).finite_toSet
      exact vars.subset fun v ⟨x, hx, hv⟩ => Set.mem_biUnion hx hv
    · exact begun fun g => g.reaching.keys
  · exact begun fun g => g.nodes.map (·.id)

end Glossary

end DeltaSlice

import DeltaSlice.Proofs.Pdg.Algebra
import DeltaSlice.Proofs.Triggers.Wakeups

/-!
The representation of dependence graphs. Whatever operations make of a graph, also those that break on the way, its
names are an index of its nodes, both ends of an edge know it, and its entry and definitions are nodes. What each
operation keeps is said once, so that the bookkeeping of whole steps keeps it as well.
-/

namespace DeltaSlice

namespace Pdg

/-- The nodes without a statement are those for the values of variables. -/
def Stated (g : Pdg) : Prop := ∀ x ∈ g.nodes, x.statement = none ↔ ∃ v, x.id = .input v ∨ x.id = .output v

/-- The representation invariant: besides being consistent, a graph knows the statements of its nodes. -/
structure WellFormed (g : Pdg) : Prop extends Consistent g where
  stated : g.Stated

variable {g h other : Pdg} {a b : NodeId} {s : Option StatementId} {k : EdgeKind} {m n : Nat} {v : Variable}

section Operations

theorem node_cases (g : Pdg) (a : NodeId) (s : Option StatementId) :
    (∃ n, g.find? a = some n ∧ g.node a s = (n, g)) ∨
      g.find? a = none ∧ g.node a s = (g.nodes.length, g.push a s) := by
  unfold node
  cases g.find? a with
  | some n => exact .inl ⟨n, rfl, rfl⟩
  | none => exact .inr ⟨rfl, rfl⟩

theorem node_idOf? (g : Pdg) (a : NodeId) (s : Option StatementId) :
    (g.node a s).2.idOf? (g.node a s).1 = some a := by
  rcases node_cases g a s with ⟨n, found, same⟩ | ⟨-, same⟩
  · rw [same]
    exact find?_idOf? found
  · rw [same]
    exact push_idOf?.2 (.inr ⟨rfl, rfl⟩)

theorem node_names (h : g.idOf? n = some b) : (g.node a s).2.idOf? n = some b := by
  rcases node_cases g a s with ⟨m, -, same⟩ | ⟨-, same⟩
  · rw [same]
    exact h
  · rw [same]
    exact push_idOf?.2 (.inl h)

theorem addEdge_names (hadd : g.addEdge k m n = .ok h) (i : Nat) : h.idOf? i = g.idOf? i := by
  obtain ⟨⟨c, h'⟩, hins, rfl⟩ := Success.map_iff.1 hadd
  obtain ⟨-, -, ⟨-, rfl, -⟩ | ⟨-, -, -, hnodes⟩⟩ := insertEdge_cases hins
  · rfl
  · exact linked_idOf? hnodes i

theorem idOf?_lt (h : g.idOf? n = some a) : n < g.nodes.length := idOf?_isSome.1 ⟨a, h⟩

/-- What a change of nodes and edges leaves of the invariant: definitions still are nodes. -/
theorem Consistent.grown (hg : g.Consistent) (grown : h.bare.Valid) (reaching : h.reaching = g.reaching)
    (le : g.nodes.length ≤ h.nodes.length) : h.Consistent where
  ids := grown.ids
  mirrored := grown.mirrored
  ascending := grown.ascending
  entry := grown.entry
  keys := reaching ▸ hg.keys
  definitions v d hd := by
    obtain ⟨ascending, inside⟩ := hg.definitions v d (reaching ▸ hd)
    exact ⟨ascending, fun n hn => (inside n hn).trans_le le⟩

theorem Stated.node (hg : g.Stated) (fits : s = none ↔ ∃ v, a = .input v ∨ a = .output v) :
    (g.node a s).2.Stated := by
  rcases node_cases g a s with ⟨n, -, same⟩ | ⟨-, same⟩
  · rw [same]
    exact hg
  · rw [same]
    intro x hx
    rcases List.mem_append.1 hx with hx | hx
    · exact hg x hx
    · rw [List.mem_singleton.1 hx]
      exact fits

theorem Stated.insertEdge {c : Bool} (hg : g.Stated) (hins : g.insertEdge k m n = .ok (c, h)) : h.Stated := by
  obtain ⟨-, -, ⟨-, rfl, -⟩ | ⟨-, -, -, hnodes⟩⟩ := insertEdge_cases hins
  · exact hg
  · intro x hx
    obtain ⟨i, hi⟩ := List.mem_iff_getElem?.1 hx
    rw [hnodes] at hi
    obtain ⟨z, hz, rfl⟩ := Option.map_eq_some_iff.1 hi
    exact hg z (List.mem_of_getElem? hz)

/-- Nodes are taken over with their statements. -/
theorem Stated.unite (hg : g.Stated) (ho : other.Stated) (united : g.unite other = .ok h) : h.Stated := by
  have imported : ∀ (xs : List PdgNode) (ns : List Nat) (c : Pdg), (∀ x ∈ xs, x ∈ other.nodes) → c.Stated →
      (xs.foldl (fun (found : List Nat × Pdg) x =>
        (found.1 ++ [(found.2.node x.id x.statement).1], (found.2.node x.id x.statement).2)) (ns, c)).2.Stated := by
    intro xs
    induction xs with
    | nil => exact fun _ _ _ hc => hc
    | cons x xs ih =>
        exact fun ns c inside hc => ih _ _ (fun y hy => inside y (List.mem_cons_of_mem x hy))
          (hc.node (ho x (inside x List.mem_cons_self)))
  refine Success.foldlM_induction (fun _ c => c.Stated) (imported other.nodes [] g (fun _ hx => hx) hg) ?_ united
  intro _ nx c d hc _ hd
  refine Success.foldlM_induction (fun _ c => c.Stated) hc (fun _ k c d hc _ hd => ?_) hd
  refine Success.foldlM_induction (fun _ c => c.Stated) hc (fun _ m c d hc _ hd => ?_) hd
  split at hd
  · obtain ⟨⟨b, d'⟩, hins, rfl⟩ := Success.map_iff.1 hd
    exact hc.insertEdge hins
  · cases hd

theorem WellFormed.node (hg : g.WellFormed) (fits : s = none ↔ ∃ v, a = .input v ∨ a = .output v) :
    (g.node a s).2.WellFormed := by
  refine ⟨?_, hg.stated.node fits⟩
  have grows := (node_grows hg.toConsistent.bare a s).1
  rw [bare_node] at grows
  rcases node_cases g a s with ⟨n, -, same⟩ | ⟨-, same⟩
  · rw [same]
    exact hg.toConsistent
  · rw [same] at grows ⊢
    exact hg.toConsistent.grown grows.valid rfl (by simp [push])

theorem WellFormed.statementNode (hg : g.WellFormed) (s : StatementId) : (g.statementNode s).2.WellFormed :=
  hg.node (by simp)

theorem WellFormed.inputNode (hg : g.WellFormed) (v : Variable) : (g.inputNode v).2.WellFormed :=
  hg.node (by simp)

theorem WellFormed.outputNode (hg : g.WellFormed) (v : Variable) : (g.outputNode v).2.WellFormed :=
  hg.node (by simp)

theorem WellFormed.enter (hg : g.WellFormed) (s : StatementId) : (g.enter s).2.WellFormed := by
  have entered : (g.node (.entry s.key) (some s)).2.WellFormed := hg.node (by simp)
  refine ⟨⟨entered.ids, entered.mirrored, entered.ascending, fun n hn => ?_, entered.keys, entered.definitions⟩,
    entered.stated⟩
  obtain rfl := Option.some.inj hn
  exact idOf?_lt (node_idOf? g (.entry s.key) (some s))

theorem WellFormed.insertEdge (hg : g.WellFormed) {c : Bool} (hins : g.insertEdge k m n = .ok (c, h)) :
    h.WellFormed := by
  refine ⟨?_, hg.stated.insertEdge hins⟩
  obtain ⟨hm, hn, ⟨-, rfl, -⟩ | ⟨-, -, reaching, hnodes⟩⟩ := insertEdge_cases hins
  · exact hg.toConsistent
  · obtain ⟨a, ha⟩ := idOf?_isSome.2 hm
    obtain ⟨b, hb⟩ := idOf?_isSome.2 hn
    have bare : g.bare.insertEdge k m n = .ok (c, h.bare) := by
      rw [bare_insertEdge, hins]
      rfl
    have grows := insertEdge_grows hg.toConsistent.bare ha hb bare
    exact hg.toConsistent.grown grows.valid reaching (linked_length hnodes).ge

theorem WellFormed.addEdge (hg : g.WellFormed) (hadd : g.addEdge k m n = .ok h) : h.WellFormed := by
  obtain ⟨⟨c, h'⟩, hins, rfl⟩ := Success.map_iff.1 hadd
  exact hg.insertEdge hins

theorem WellFormed.insertNewEdge (hg : g.WellFormed) (hins : g.insertNewEdge k m n = .ok h) : h.WellFormed := by
  unfold Pdg.insertNewEdge at hins
  split at hins
  · rename_i hins'
    obtain rfl := Except.ok.inj hins
    exact hg.insertEdge hins'
  · split at hins <;> cases hins
  · cases hins

/-- The invariant of a graph with other definitions. -/
theorem WellFormed.redefine (hg : g.WellFormed) {r : Table Variable Definitions}
    (keys : (r.entries.map (·.1)).Nodup)
    (definitions : ∀ v d, (v, d) ∈ r.entries → d.nodes.Pairwise (· < ·) ∧ ∀ n ∈ d.nodes, n < g.nodes.length) :
    WellFormed { g with reaching := r } :=
  ⟨⟨hg.ids, hg.mirrored, hg.ascending, hg.entry, keys, definitions⟩, hg.stated⟩

theorem WellFormed.insertDefinitions (hg : g.WellFormed) {d : Definitions} (ascending : d.nodes.Pairwise (· < ·))
    (inside : ∀ n ∈ d.nodes, n < g.nodes.length) : WellFormed { g with reaching := g.reaching.insert v d } := by
  refine hg.redefine (Table.nodup_insert hg.keys) fun w e he => ?_
  rcases Table.mem_insert he with new | old
  · obtain ⟨-, rfl⟩ := Prod.mk.inj new
    exact ⟨ascending, inside⟩
  · exact hg.definitions w e old

theorem WellFormed.define (hg : g.WellFormed) (v : Variable) (hn : n < g.nodes.length) :
    (g.define v n).WellFormed :=
  hg.insertDefinitions (by simp) (by simpa using hn)

theorem WellFormed.addDefinition (hg : g.WellFormed) (v : Variable) (hn : n < g.nodes.length) :
    (g.addDefinition v n).WellFormed := by
  have known : ((g.reaching.get? v).getD ⟨[], false⟩).nodes.Pairwise (· < ·) ∧
      ∀ m ∈ ((g.reaching.get? v).getD ⟨[], false⟩).nodes, m < g.nodes.length := by
    cases hget : g.reaching.get? v with
    | none => simp
    | some d => exact hg.definitions v d (Table.mem_of_get? hget)
  refine hg.insertDefinitions (NodeSet.pairwise_insert known.1) fun m hm => ?_
  rcases NodeSet.mem_insert.1 hm with rfl | hm
  · exact hn
  · exact known.2 m hm

theorem WellFormed.forget (hg : g.WellFormed) (q : Variable → Bool) : (g.forget q).WellFormed :=
  hg.redefine (Table.nodup_keep _ hg.keys) fun w d hd => hg.definitions w d (List.mem_filter.1 hd).1

theorem wellFormed_empty : Pdg.empty.WellFormed := ⟨empty_consistent, by simp [Stated, empty]⟩

/-- Merging two graphs takes nodes with their statements from the second one and adds edges. -/
theorem WellFormed.compose (hg : g.WellFormed) (ho : other.WellFormed) (hcomp : g.compose other = .ok h) :
    h.WellFormed := by
  by_cases hon : other.isNeutral = true
  · rw [Pdg.compose, if_pos hon] at hcomp
    exact Except.ok.inj hcomp ▸ hg
  by_cases hgn : g.isNeutral = true
  · rw [Pdg.compose, if_neg hon, if_pos hgn] at hcomp
    exact Except.ok.inj hcomp ▸ ho
  rw [Bool.not_eq_true] at hon hgn
  have entries : g.entryId? = other.entryId? := by
    by_contra apart
    obtain ⟨f, fails⟩ := compose_fails hgn hon apart
    rw [fails] at hcomp
    cases hcomp
  obtain ⟨number, k, joins⟩ := compose_joins hg.toConsistent ho.toConsistent hgn hon hcomp
  refine ⟨joins.consistent hg.toConsistent, ?_⟩
  rw [compose_eq hgn hon entries] at hcomp
  obtain ⟨c, united, hcomp⟩ := Success.bind_method_iff.1 hcomp
  obtain ⟨r, -, rfl⟩ := Success.map_iff.1 hcomp
  exact show c.Stated from hg.stated.unite ho.stated united

end Operations

/-- A property of graphs that lasts while a step is entered. -/
structure Lasting (P : Pdg → Prop) : Prop where
  statement {g : Pdg} (hg : P g) (s : StatementId) : P (g.statementNode s).2
  input {g : Pdg} (hg : P g) (v : Variable) : P (g.inputNode v).2
  enter {g : Pdg} (hg : P g) (s : StatementId) : P (g.enter s).2
  edge {g h : Pdg} {k : EdgeKind} {m n : Nat} (hg : P g) (hadd : g.addEdge k m n = .ok h) : P h
  define {g : Pdg} {n : Nat} {key : String} (hg : P g) (v : Variable) (hn : g.idOf? n = some (.statement key)) :
    P (g.define v n)
  addDefinition {g : Pdg} {n : Nat} {key : String} (hg : P g) (v : Variable)
    (hn : g.idOf? n = some (.statement key)) : P (g.addDefinition v n)
  forget {g : Pdg} (hg : P g) (q : Variable → Bool) : P (g.forget q)

theorem WellFormed.lasting : Lasting WellFormed where
  statement hg s := hg.statementNode s
  input hg v := hg.inputNode v
  enter hg s := hg.enter s
  edge hg hadd := hg.addEdge hadd
  define hg v hn := hg.define v (idOf?_lt hn)
  addDefinition hg v hn := hg.addDefinition v (idOf?_lt hn)
  forget hg q := hg.forget q

section Notes

open Dependence

variable {p : Program} {s : Site} {f f' : Focus}

/-- What is only noted down leaves the graph as it is. -/
theorem bindArgument_graph : (bindArgument s f).graph = f.graph := by
  unfold bindArgument
  split
  · split
    · rfl
    · split <;> rfl
    · rfl
  · rfl

theorem returnEffect_graph : (returnEffect s f).graph = f.graph := by
  unfold returnEffect
  split
  · split <;> rfl
  · rfl

theorem updateTrigger_graph (heffect : updateTrigger p s f = .ok f') : f'.graph = f.graph := by
  unfold updateTrigger at heffect
  repeat' split at heffect
  all_goals cases heffect
  rfl

theorem waitTrigger_graph (heffect : waitTrigger s f = .ok f') : f'.graph = f.graph := by
  unfold waitTrigger at heffect
  split at heffect
  · cases heffect
  · exact Except.ok.inj heffect ▸ rfl

section Kept

variable {triggers : Bool} {o : StatementId} {P : Pdg → Prop}

theorem ensureNode_kept (made : ∀ {c : Pdg}, P c → P (c.statementNode o).2) (hf : P f.graph) :
    P (f.ensureNode o).graph := by
  unfold Focus.ensureNode
  split
  · exact hf
  · exact made hf

variable (made : ∀ {c : Pdg}, P c → P (c.statementNode s.statement).2)
  (forgotten : ∀ {c : Pdg} (q : Variable → Bool), P c → P (c.forget q))

include made

/-- The effects before the accesses of a step keep what its node and what is forgotten keep. -/
theorem notifyEffect_kept (hf : P f.graph) : P (notifyEffect triggers s f).graph := by
  unfold notifyEffect
  split
  · split
    · split
      · split
        · split <;> exact hf
        · dsimp only
          split <;> exact ensureNode_kept made hf
      · exact ensureNode_kept made hf
    · exact hf
  · exact hf

include forgotten

theorem callEffect_kept (hf : P f.graph) (heffect : callEffect p triggers s f = .ok f') : P f'.graph := by
  unfold callEffect at heffect
  split at heffect
  · split at heffect
    · split at heffect
      · split at heffect
        · exact updateTrigger_graph heffect ▸ ensureNode_kept made hf
        · exact Except.ok.inj heffect ▸ ensureNode_kept made hf
      · split at heffect
        · exact waitTrigger_graph heffect ▸ ensureNode_kept made hf
        · exact Except.ok.inj heffect ▸ ensureNode_kept made hf
      · obtain rfl := Except.ok.inj heffect
        split <;> exact hf
    · split at heffect
      · exact Except.ok.inj heffect ▸ forgotten _ hf
      · exact Except.ok.inj heffect ▸ hf
  · exact Except.ok.inj heffect ▸ hf

end Kept

end Notes

namespace Lasting

open Dependence

variable {P : Pdg → Prop} (hP : Lasting P)

include hP

/-- Nodes keep their names. -/
theorem named (n : Nat) (a : NodeId) : Lasting fun g => P g ∧ g.idOf? n = some a where
  statement hg s := ⟨hP.statement hg.1 s, node_names hg.2⟩
  input hg v := ⟨hP.input hg.1 v, node_names hg.2⟩
  enter hg s := ⟨hP.enter hg.1 s, node_names (a := .entry s.key) (s := some s) hg.2⟩
  edge hg hadd := ⟨hP.edge hg.1 hadd, (addEdge_names hadd _).trans hg.2⟩
  define hg v hn := ⟨hP.define hg.1 v hn, hg.2⟩
  addDefinition hg v hn := ⟨hP.addDefinition hg.1 v hn, hg.2⟩
  forget hg q := ⟨hP.forget hg.1 q, hg.2⟩

theorem addDataEdges (hg : P g) {sources : List Nat} (hadd : g.addDataEdges n sources = .ok h) : P h :=
  Success.foldlM_induction (fun _ c => P c) hg (fun _ _ _ _ hc _ hd => hP.edge hc hd) hadd

theorem readBy (hg : P g) (hread : g.readBy v n = .ok h) : P h := by
  unfold Pdg.readBy at hread
  split at hread
  · exact hP.edge (hP.input hg v) hread
  · split at hread
    · obtain ⟨c, hc, hread⟩ := Success.bind_method_iff.1 hread
      exact hP.addDataEdges (hP.edge (hP.input hg v) hc) hread
    · exact hP.addDataEdges hg hread

theorem reads {α : Type} {w : α → Variable} {as : List α} (hg : P g)
    (hread : as.foldlM (fun g a => g.readBy (w a) n) g = .ok h) : P h :=
  Success.foldlM_induction (fun _ c => P c) hg (fun _ _ _ _ hc _ hd => hP.readBy hc hd) hread

section Bookkeeping

variable {p : Program} {triggers : Bool} {s : Site} {f f' : Focus} {o : StatementId}

theorem ensureNode (hf : P f.graph) (o : StatementId) : P (f.ensureNode o).graph :=
  ensureNode_kept (fun hc => hP.statement hc o) hf

theorem callEffect (hf : P f.graph) (heffect : callEffect p triggers s f = .ok f') : P f'.graph :=
  callEffect_kept (fun hc => hP.statement hc _) (fun q hc => hP.forget hc q) hf heffect

theorem notifyEffect (hf : P f.graph) : P (notifyEffect triggers s f).graph :=
  notifyEffect_kept (fun hc => hP.statement hc _) hf

theorem applyReads (hf : P f.graph) (hreads : applyReads o f = .ok f') : P f'.graph := by
  unfold Dependence.applyReads at hreads
  split at hreads
  · exact Except.ok.inj hreads ▸ hf
  · obtain ⟨c, hc, rfl⟩ := Success.map_iff.1 hreads
    exact hP.reads (w := id) (hP.statement hf o) hc

theorem applyWrites (hf : P f.graph) : P (applyWrites o f).graph := by
  unfold Dependence.applyWrites
  split
  · exact hf
  · -- The node of the writes keeps its name, so it stays a statement.
    have written : ∀ (vs : List Variable) (c : Pdg), P c ∧
        c.idOf? (f.graph.statementNode o).1 = some (.statement o.key) →
        P (vs.foldl (fun (g : Pdg) v => g.define v (f.graph.statementNode o).1) c) := by
      intro vs
      induction vs with
      | nil => exact fun _ hc => hc.1
      | cons v vs ih => exact fun c hc => ih _ ⟨hP.define hc.1 v hc.2, hc.2⟩
    exact written f.written _ ⟨hP.statement hf o, node_idOf? ..⟩

theorem controllerNode (hf : P f.graph) : P (controllerNode s o f).graph := by
  unfold Dependence.controllerNode
  split
  · split
    · exact hP.ensureNode hf o
    · exact hf
  · exact hf

theorem connect (hg : P g) (hconnect : connect p s n g = .ok h) : P h := by
  unfold Dependence.connect at hconnect
  split at hconnect
  · exact hP.edge (hP.statement hg _) hconnect
  · split at hconnect
    · cases hconnect
    · exact Except.ok.inj hconnect ▸ hg
    · obtain ⟨-, -, hconnect⟩ := Success.bind_iff.1 hconnect
      refine Success.foldlM_induction (fun _ c => P c) hg (fun _ x c d hc _ hd => ?_) hconnect
      split at hd
      · exact hP.edge hc hd
      · exact Except.ok.inj hd ▸ hc

/-- In the end the node of the step is connected, if it has one. -/
theorem completed (hf : P f.graph) (final : (match f.node with
    | none => Except.ok f.graph
    | some n => (Dependence.connect p s n f.graph).mapError Halt.broken) = .ok h) : P h := by
  split at final
  · exact Except.ok.inj final ▸ hf
  · exact hP.connect hf (Success.mapError_iff.1 final)

theorem evaluatedAt (hg : P g) (heval : evaluatedAt p triggers s g = .ok h) : P h := by
  unfold Dependence.evaluatedAt at heval
  obtain ⟨f, hf, heval⟩ := Success.bind_iff.1 heval
  obtain ⟨f', hf', heval⟩ := Success.bind_iff.1 heval
  rw [Success.mapError_iff] at hf'
  have called : P f.graph := by
    refine hP.callEffect ?_ hf
    rw [bindArgument_graph]
    exact hg
  have returned : P (Dependence.returnEffect s f).graph := by
    rw [returnEffect_graph]
    exact called
  have accessed : P f'.graph := by
    refine hP.applyReads (hP.notifyEffect ?_) hf'
    split <;> exact returned
  split at heval
  · exact hP.completed (hP.controllerNode (hP.applyWrites (hP.forget accessed _))) heval
  · exact hP.completed (hP.controllerNode (hP.applyWrites accessed)) heval

end Bookkeeping

section Handlers

variable {triggers : Bool} {t : Transition}

theorem start (hg : P g) (starts : start triggers t g = .ok h) : P h := by
  unfold Dependence.start at starts
  split at starts
  · cases starts
  · rename_i stack _
    have entered := hP.enter hg (.point t.origin stack)
    dsimp only at starts
    split at starts
    · split at starts
      · cases starts
      · exact hP.edge (hP.input entered _) (Success.mapError_iff.1 starts)
    · exact Except.ok.inj starts ▸ entered

theorem evaluated {p : Program} {e : Option Expr} {i : Int} (hg : P g)
    (heval : evaluated p triggers t e i g = .ok h) : P h := by
  unfold Dependence.evaluated at heval
  split at heval
  · obtain rfl := Except.ok.inj heval
    split
    · exact hP.forget hg _
    · exact hg
  · split at heval
    · exact Except.ok.inj heval ▸ hg
    · cases heval
    · split at heval
      · cases heval
      · exact hP.evaluatedAt hg heval

theorem woken {q : Process} {events : List Event} {before : EventList} (hg : P g)
    (wakes : woken t q events before g = .ok h) : P h := by
  rw [woken_eq] at wakes
  obtain ⟨c, hc, wakes⟩ := Success.bind_method_iff.1 wakes
  have awake := hP.named (g.statementNode (t.waker q)).1 (.statement (t.waker q).key)
  obtain ⟨kept, name⟩ := awake.reads ⟨hP.statement hg _, node_idOf? ..⟩ hc
  split at wakes
  · cases wakes
  · exact Except.ok.inj wakes ▸ hP.addDefinition kept _ name

end Handlers

end Lasting

section Edits

variable {β γ : Type} {e : Edit Pdg β} {f : β → Edit Pdg γ} {P : Pdg → Prop}

/-- The edit keeps a property, also when it breaks. -/
def Keeps (P : Pdg → Prop) (e : Edit Pdg β) : Prop := ∀ g, P g → P (e.run.run g).2

theorem Keeps.bind (he : Keeps P e) (hf : ∀ b, Keeps P (f b)) : Keeps P (e >>= f) := by
  intro g hg
  have first := he g hg
  rw [ExceptT.run_bind, StateT.run_bind]
  generalize e.run.run g = r at first
  obtain ⟨b | b, h⟩ := r
  · exact first
  · exact hf b h first

theorem Keeps.pure (b : β) : Keeps P (Pure.pure b : Edit Pdg β) := fun _ hg => hg

theorem Keeps.discard (he : Keeps P e) : Keeps P (Functor.discard e) := he.bind fun _ => .pure _

theorem Keeps.forM {α : Type} {as : List α} {f : α → Edit Pdg PUnit} (hf : ∀ a ∈ as, Keeps P (f a)) :
    Keeps P (forIn as PUnit.unit fun a _ => do f a; Pure.pure (.yield PUnit.unit)) := by
  induction as with
  | nil => exact .pure _
  | cons a as ih =>
      rw [List.forIn_cons]
      refine ((hf a List.mem_cons_self).bind fun _ => .pure _).bind fun r => ?_
      cases r with
      | done b => exact .pure b
      | yield b => exact ih fun b hb => hf b (List.mem_cons_of_mem a hb)

/-- Whether an edge is added or not, an edit is the insertion, and it breaks only before anything is changed. -/
theorem editEdge_run (k : EdgeKind) (m n : Nat) (g : Pdg) : (editEdge k m n).run.run g =
    match g.insertEdge k m n with
    | .ok (b, h) => (.ok b, h)
    | .error f => (.error f, g) := by
  change StateT.run (ExceptT.run (match g.insertEdge k m n with
    | .ok (b, h) => do set h; return b
    | .error f => throw f)) g = _
  cases g.insertEdge k m n <;> rfl

theorem editNewEdge_run (k : EdgeKind) (m n : Nat) (g : Pdg) : (editNewEdge k m n).run.run g =
    match g.insertNewEdge k m n with
    | .ok h => (.ok (), h)
    | .error f => (.error f, g) := by
  change StateT.run (ExceptT.run (match g.insertNewEdge k m n with
    | .ok h => set h
    | .error f => throw f)) g = _
  cases g.insertNewEdge k m n <;> rfl

theorem keeps_editEdge (k : EdgeKind) (m n : Nat) : Keeps WellFormed (editEdge k m n) := by
  intro g hg
  rw [editEdge_run]
  split
  · rename_i hins
    exact hg.insertEdge hins
  · exact hg

theorem keeps_editNewEdge (k : EdgeKind) (m n : Nat) : Keeps WellFormed (editNewEdge k m n) := by
  intro g hg
  rw [editNewEdge_run]
  split
  · rename_i hins
    exact hg.insertNewEdge hins
  · exact hg

/-- The definitions of a variable are those of the graph before its input node is made. -/
theorem editRead_run (v : Variable) (n : Nat) (g : Pdg) : (editRead v n).run.run g = StateT.run (ExceptT.run (do
    if ((g.reaching.get? v).map (·.outer)).getD true then
      let g ← get
      set (g.inputNode v).2
      Functor.discard (editEdge .data (g.inputNode v).1 n)
    for m in ((g.reaching.get? v).map (·.nodes)).getD [] do Functor.discard (editEdge .data m n))) g := rfl

/-- The output node of the first variable is made before its edges and all others. -/
theorem editClose_cons (v : Variable) (d : Definitions) (order : List (Variable × Definitions)) (g : Pdg) :
    (editClose ((v, d) :: order)).run.run g = StateT.run (ExceptT.run (do
      if d.outer then
        let h ← get
        set (h.inputNode v).2
        editNewEdge .data (h.inputNode v).1 (g.outputNode v).1
      for n in d.nodes do editNewEdge .data n (g.outputNode v).1
      editClose order)) (g.outputNode v).2 := rfl

theorem keeps_editRead (v : Variable) (n : Nat) : Keeps WellFormed (editRead v n) := by
  intro g hg
  have links : ∀ ms : List Nat, Keeps WellFormed (do for m in ms do Functor.discard (editEdge .data m n)) :=
    fun ms => Keeps.bind (.forM fun m _ => (keeps_editEdge .data m n).discard) .pure
  rw [editRead_run]
  split
  · exact ((keeps_editEdge .data _ n).discard.bind fun _ => links _) _ (hg.inputNode v)
  · exact links _ g hg

theorem keeps_editClose (order : List (Variable × Definitions)) : Keeps WellFormed (editClose order) := by
  induction order with
  | nil => exact fun g hg => hg.redefine .nil fun _ _ hd => absurd hd List.not_mem_nil
  | cons r order ih =>
      obtain ⟨v, d⟩ := r
      intro g hg
      have links : ∀ o : Nat, Keeps WellFormed (do
          for n in d.nodes do editNewEdge .data n o
          editClose order) :=
        fun o => Keeps.bind (.forM fun n _ => keeps_editNewEdge .data n o) fun _ => ih
      have opened := hg.outputNode v
      rw [editClose_cons]
      split
      · exact ((keeps_editNewEdge .data _ _).bind fun _ => links _) _ (opened.inputNode v)
      · exact links _ _ opened

theorem keeps_editFinalize : Keeps WellFormed editFinalize := fun g hg =>
  keeps_editClose (sortByText (fun (r : Variable × Definitions) => r.1.text) g.reaching.entries) g hg

end Edits

/-- The graphs that operations make of an empty graph, or of graphs that satisfy the representation invariant
already. Definitions are nodes that exist. -/
inductive Built : Guarded Pdg → Prop where
  | given {g : Guarded Pdg} (hg : g.value.WellFormed) : Built g
  | empty : Built (.fresh .empty)
  | freeze {g : Guarded Pdg} (hg : Built g) : Built g.freeze
  | copy {g : Guarded Pdg} (hg : Built g) : Built g.copy
  | enter {g : Guarded Pdg} (hg : Built g) (s : StatementId) : Built (g.makeNode (·.enter s)).2
  | statement {g : Guarded Pdg} (hg : Built g) (s : StatementId) : Built (g.makeNode (·.statementNode s)).2
  | input {g : Guarded Pdg} (hg : Built g) (v : Variable) : Built (g.makeNode (·.inputNode v)).2
  | output {g : Guarded Pdg} (hg : Built g) (v : Variable) : Built (g.makeNode (·.outputNode v)).2
  | edge {g : Guarded Pdg} (hg : Built g) (k : EdgeKind) (m n : Nat) : Built (g.edit (editEdge k m n)).2
  | newEdge {g : Guarded Pdg} (hg : Built g) (k : EdgeKind) (m n : Nat) : Built (g.edit (editNewEdge k m n)).2
  | define {g : Guarded Pdg} (hg : Built g) (v : Variable) {n : Nat} (hn : n < g.value.nodes.length) :
      Built (g.edit (modify (·.define v n))).2
  | addDefinition {g : Guarded Pdg} (hg : Built g) (v : Variable) {n : Nat} (hn : n < g.value.nodes.length) :
      Built (g.edit (modify (·.addDefinition v n))).2
  | read {g : Guarded Pdg} (hg : Built g) (v : Variable) (n : Nat) : Built (g.edit (editRead v n)).2
  | forget {g : Guarded Pdg} (hg : Built g) (q : Variable → Bool) : Built (g.edit (modify (·.forget q))).2
  | compose {g other h : Guarded Pdg} (hg : Built g) (ho : Built other) (hcomp : g.compose other = .ok h) : Built h
  | finalize {g h : Guarded Pdg} (hg : Built g) (hfin : g.finalize.1 = .ok h) : Built h
  /-- What finalizing leaves of the graph itself. -/
  | finalized {g : Guarded Pdg} (hg : Built g) : Built g.finalize.2
  | start {g : Guarded Pdg} {triggers : Bool} {t : Transition} {h : Pdg} (hg : Built g)
      (hstart : Dependence.start triggers t g.value = .ok h) : Built (.fresh h)
  | evaluated {g : Guarded Pdg} {p : Program} {triggers : Bool} {t : Transition} {e : Option Expr} {i : Int} {h : Pdg}
      (hg : Built g) (heval : Dependence.evaluated p triggers t e i g.value = .ok h) : Built (.fresh h)
  | woken {g : Guarded Pdg} {t : Transition} {q : Process} {events : List Event} {before : EventList} {h : Pdg}
      (hg : Built g) (hwoken : Dependence.woken t q events before g.value = .ok h) : Built (.fresh h)

section Objects

variable {β : Type} {x : Guarded Pdg}

/-- Edits of a frozen graph break and leave it as it is. -/
theorem Keeps.edit {P : Pdg → Prop} {e : Edit Pdg β} (he : Keeps P e) (hx : P x.value) : P (x.edit e).2.value := by
  unfold Guarded.edit
  split
  · exact hx
  · exact he x.value hx

theorem makeNode_kept {P : Pdg → Prop} {make : Pdg → Nat × Pdg} (hx : P x.value) (made : P (make x.value).2) :
    P (x.makeNode make).2.value := by
  unfold Guarded.makeNode
  dsimp only
  split
  · exact hx
  · exact made

theorem modify_kept {P : Pdg → Prop} {f : Pdg → Pdg} (hx : P x.value) (modified : P (f x.value)) :
    P (x.edit (modify f)).2.value := by
  unfold Guarded.edit
  split
  · exact hx
  · exact modified

/-- A graph is finalized by an edit of a copy, which leaves the graph itself alone if that is frozen. -/
theorem finalize_kept {P : Pdg → Prop} (he : Keeps P editFinalize) (hx : P x.value) :
    P x.finalize.2.value ∧ ∀ y, x.finalize.1 = .ok y → P y.value := by
  have edited : P (x.copy.edit editFinalize).2.value := he.edit hx
  unfold Guarded.finalize
  generalize x.copy.edit editFinalize = r at edited
  obtain ⟨f | u, y⟩ := r
  · refine ⟨?_, fun y hy => by cases hy⟩
    dsimp only
    split
    · exact hx
    · exact edited
  · refine ⟨?_, fun y hy => ?_⟩
    · dsimp only
      split
      · exact hx
      · exact edited
    · obtain rfl := Except.ok.inj hy
      exact edited

theorem Built.wellFormed (built : Built x) : x.value.WellFormed := by
  induction built with
  | given hg => exact hg
  | empty => exact wellFormed_empty
  | freeze _ ih | copy _ ih => exact ih
  | enter _ s ih => exact makeNode_kept ih (ih.enter s)
  | statement _ s ih => exact makeNode_kept ih (ih.statementNode s)
  | input _ v ih => exact makeNode_kept ih (ih.inputNode v)
  | output _ v ih => exact makeNode_kept ih (ih.outputNode v)
  | edge _ k m n ih => exact (keeps_editEdge k m n).edit ih
  | newEdge _ k m n ih => exact (keeps_editNewEdge k m n).edit ih
  | define _ v hn ih => exact modify_kept ih (ih.define v hn)
  | addDefinition _ v hn ih => exact modify_kept ih (ih.addDefinition v hn)
  | read _ v n ih => exact (keeps_editRead v n).edit ih
  | forget _ q ih => exact modify_kept ih (ih.forget q)
  | @compose g other h _ _ hcomp ihg iho =>
      have value : g.value.compose other.value = .ok h.value := by
        rw [← Guarded.compose_value, hcomp]
        rfl
      exact ihg.compose iho value
  | finalize _ hfin ih => exact (finalize_kept keeps_editFinalize ih).2 _ hfin
  | finalized _ ih => exact (finalize_kept keeps_editFinalize ih).1
  | start _ hstart ih => exact WellFormed.lasting.start ih hstart
  | evaluated _ heval ih => exact WellFormed.lasting.evaluated ih heval
  | woken _ hwoken ih => exact WellFormed.lasting.woken ih hwoken

end Objects

/-- The index of the nodes by name is the inverse of their names. -/
theorem Consistent.find?_iff (hg : g.Consistent) {a : NodeId} : g.find? a = some n ↔ g.idOf? n = some a := by
  refine ⟨find?_idOf?, fun name => ?_⟩
  cases found : g.find? a with
  | none => exact absurd name (find?_eq_none.1 found n)
  | some m => rw [hg.bare.idOf?_inj (g := g.bare) (find?_idOf? found) name]

/-- Neither end has an edge before it is inserted. -/
theorem insertEdge_new (hins : g.insertEdge k m n = .ok (true, h)) : ¬ g.Out k m n ∧ ¬ g.In k m n := by
  unfold Pdg.insertEdge at hins
  cases hx : g.nodes[m]? with
  | none => simp [hx] at hins
  | some x =>
      cases hy : g.nodes[n]? with
      | none => simp [hx, hy] at hins
      | some y =>
          simp only [hx, hy] at hins
          split at hins
          · cases hins
          · rename_i absent
            simpa [Out, In, hx, hy] using absent

/-- An edge is inserted at both ends or at neither, whatever the ends know of it before. -/
theorem insertEdge_atomic (hm : m < g.nodes.length) (hn : n < g.nodes.length) :
    ∃ b h, g.insertEdge k m n = .ok (b, h) ∧ (b = false ∧ h = g ∧ (g.Out k m n ∨ g.In k m n) ∨
      b = true ∧ ¬ g.Out k m n ∧ ¬ g.In k m n ∧
        (∀ l i j, h.Out l i j ↔ g.Out l i j ∨ (l = k ∧ i = m ∧ j = n)) ∧
        ∀ l i j, h.In l i j ↔ g.In l i j ∨ (l = k ∧ i = m ∧ j = n)) := by
  obtain ⟨⟨b, h⟩, hins, -⟩ := insertEdge_succeeds (k := k) hm hn
  refine ⟨b, h, hins, ?_⟩
  obtain ⟨-, -, old | ⟨rfl, -, -, hnodes⟩⟩ := insertEdge_cases hins
  · exact .inl old
  · obtain ⟨out, inc⟩ := insertEdge_new hins
    exact .inr ⟨rfl, out, inc, fun l i j => linked_out hm hnodes, fun l i j => linked_in hn hnodes⟩

/-- The representation invariant as users of a graph see it. -/
structure Represented (g : Pdg) : Prop where
  index : ∀ a n, g.find? a = some n ↔ g.idOf? n = some a
  numbers : ∀ n, n < g.nodes.length ↔ ∃ a, g.find? a = some n
  mirrored : ∀ k m n, g.Out k m n ↔ g.In k m n
  definitions : ∀ v d, g.reaching.get? v = some d → ∀ n ∈ d.nodes, n < g.nodes.length
  entry : ∀ n, g.entry = some n → n < g.nodes.length
  stated : ∀ x ∈ g.nodes, x.statement = none ↔ ∃ v, x.id = .input v ∨ x.id = .output v

theorem WellFormed.represented (hg : g.WellFormed) : g.Represented where
  index a n := hg.find?_iff
  numbers n := by
    simp only [hg.find?_iff]
    exact idOf?_isSome.symm
  mirrored := hg.mirrored
  definitions v d hd := (hg.definitions v d (Table.mem_of_get? hd)).2
  entry := hg.entry
  stated := hg.stated

/-- Whatever operations make a graph of, its names are an index of its nodes, both ends of an edge know it, its
entry and its definitions are nodes, and only the nodes for values of variables have no statement. In any graph,
also one in which the ends of edges disagree, an edge is inserted at both ends or at neither. -/
theorem Built.represents {x : Guarded Pdg} (built : Built x) (hm : m < g.nodes.length) (hn : n < g.nodes.length) :
    x.value.Represented ∧
      ∃ b h, g.insertEdge k m n = .ok (b, h) ∧ (b = false ∧ h = g ∧ (g.Out k m n ∨ g.In k m n) ∨
        b = true ∧ ¬ g.Out k m n ∧ ¬ g.In k m n ∧
          (∀ l i j, h.Out l i j ↔ g.Out l i j ∨ (l = k ∧ i = m ∧ j = n)) ∧
          ∀ l i j, h.In l i j ↔ g.In l i j ∨ (l = k ∧ i = m ∧ j = n)) :=
  ⟨built.wellFormed.represented, insertEdge_atomic hm hn⟩

end Pdg

namespace Examples

def atPlace (i : Int) : StatementId := .point none [⟨.wait, [i]⟩]

def entered : Guarded Pdg := ((Guarded.fresh .empty).makeNode (·.enter (atPlace 0))).2

/-- The second node defines a variable. -/
def defining : Guarded Pdg := ((entered.makeNode (·.statementNode (atPlace 1))).2.edit (modify
  (·.define (.event ⟨none, "e"⟩) 1))).2

/-- The second node reads the variable, as it was before. -/
def reading : Guarded Pdg := ((entered.makeNode (·.statementNode (atPlace 2))).2.edit
  (Pdg.editRead (.event ⟨none, "e"⟩) 1)).2

/-- Two statements, the second of which claims an edge from the first. -/
def claimed : Pdg := ⟨[⟨.statement "a", some (atPlace 1), .empty, .empty⟩,
  ⟨.statement "b", some (atPlace 2), .empty, ⟨[], [0], []⟩⟩], none, .empty⟩

end Examples

open Examples in
/-- Two alternatives are merged, of which the first is frozen, and the result is finalized. -/
theorem represents_alternatives : ∃ x y, defining.freeze.compose reading = .ok x ∧ x.finalize.1 = .ok y ∧
    y.value.nodes.length = 5 ∧ y.value.Represented ∧
    ∃ b h, claimed.insertEdge .data 0 1 = .ok (b, h) ∧ (b = false ∧ h = claimed ∧ (claimed.Out .data 0 1 ∨
      claimed.In .data 0 1) ∨ b = true ∧ ¬ claimed.Out .data 0 1 ∧ ¬ claimed.In .data 0 1 ∧
        (∀ l i j, h.Out l i j ↔ claimed.Out l i j ∨ (l = .data ∧ i = 0 ∧ j = 1)) ∧
        ∀ l i j, h.In l i j ↔ claimed.In l i j ∨ (l = .data ∧ i = 0 ∧ j = 1)) := by
  obtain ⟨y, hy, nodes⟩ := Success.exists_of_yields (x := (defining.freeze.compose reading).bind (·.finalize.1))
    (c := fun y => y.value.nodes.length == 5) (by decide +kernel)
  obtain ⟨x, hx, hy⟩ := Success.bind_method_iff.1 hy
  have built : Pdg.Built x := .compose (.freeze (.define (.statement (.enter .empty _) _) _ (by decide +kernel)))
    (.read (.statement (.enter .empty _) _) _ _) hx
  exact ⟨x, y, hx, hy, of_decide_eq_true nodes, (built.finalize hy).represents (by decide) (by decide)⟩

end DeltaSlice

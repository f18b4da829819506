import DeltaSlice.Analysis
import DeltaSlice.Proofs.Flow.Search
import DeltaSlice.Proofs.Pdg.Compose
import DeltaSlice.Proofs.Text

/-!
System graphs only grow: nodes keep their numbers and edges stay. So what one graph or one chain
brings in is still there when the graph is complete, and a backwards slice holds every node from which
edges lead to its start.
-/

namespace DeltaSlice

theorem EdgeKind.mem_all (k : EdgeKind) : k ∈ all := by
  cases k <;> decide

namespace Pdg

variable {p : Pdg} {a b : NodeId} {k : EdgeKind}

theorem mem_nodeIds : a ∈ p.nodeIds ↔ p.has a = true := by
  unfold nodeIds
  rw [(sortByText_perm _ _).mem_iff]
  simp [has, find?]

theorem nodup_nodeIds (unique : (p.nodes.map (·.id)).Nodup) : p.nodeIds.Nodup :=
  (sortByText_perm _ _).nodup_iff.2 unique

/-- Every edge of a graph is listed. -/
theorem mem_edges (h : p.edge? k a b = .ok true) : ⟨k, a, b⟩ ∈ p.edges := by
  unfold edge? at h
  split at h
  · cases h
  · cases h
  · rename_i m n hm hn
    obtain ⟨x, hx, hxa⟩ := idOf?_eq_some.1 (find?_idOf? hm)
    have hout : n ∈ x.outgoing.get k := by simpa [hx] using h
    unfold edges
    rw [(sortByText_perm _ _).mem_iff]
    refine List.mem_flatMap.2 ⟨x, List.mem_of_getElem? hx, ?_⟩
    refine List.mem_flatMap.2 ⟨k, EdgeKind.mem_all k, ?_⟩
    refine List.mem_filterMap.2 ⟨n, hout, ?_⟩
    rw [find?_idOf? hn, Option.map_some, hxa]

/-- The ends of a listed edge are nodes. -/
theorem has_of_mem_edges {e : PdgEdge} (h : e ∈ p.edges) :
    e.source ∈ p.nodeIds ∧ e.target ∈ p.nodeIds := by
  unfold edges at h
  rw [(sortByText_perm _ _).mem_iff] at h
  obtain ⟨x, hx, h⟩ := List.mem_flatMap.1 h
  obtain ⟨k, -, h⟩ := List.mem_flatMap.1 h
  obtain ⟨n, -, h⟩ := List.mem_filterMap.1 h
  obtain ⟨b, hb, rfl⟩ := Option.map_eq_some_iff.1 h
  obtain ⟨y, hy, rfl⟩ := idOf?_eq_some.1 hb
  unfold nodeIds
  rw [(sortByText_perm _ _).mem_iff, (sortByText_perm _ _).mem_iff]
  exact ⟨List.mem_map_of_mem hx, List.mem_map_of_mem (List.mem_of_getElem? hy)⟩

end Pdg

namespace SystemGraph

def idOf? (g : SystemGraph) (n : Nat) : Option SystemNodeId := (g.nodes[n]?).map (·.id)

def Out (g : SystemGraph) (k : EdgeKind) (m n : Nat) : Prop :=
  ∃ x, g.nodes[m]? = some x ∧ n ∈ x.outgoing.get k

def In (g : SystemGraph) (k : EdgeKind) (m n : Nat) : Prop :=
  ∃ y, g.nodes[n]? = some y ∧ m ∈ y.incoming.get k

/-- The representation invariant: names are unique and belong to an integrated graph, and the target
of an edge knows its source, which is a node. -/
structure Valid (g : SystemGraph) : Prop where
  ids : g.nodeIds.Nodup
  integrated : ∀ i ∈ g.nodeIds, g.graphs.contains i.graph = true
  known : ∀ k m n, g.Out k m n → g.In k m n
  source : ∀ k m n, g.In k m n → m < g.nodes.length

/-- An edge of any kind, by the names of its ends. -/
def Edge (g : SystemGraph) (a b : SystemNodeId) : Prop :=
  ∃ k m n, g.idOf? m = some a ∧ g.idOf? n = some b ∧ g.In k m n

/-- Nodes keep their numbers and edges stay. -/
structure Grows (g h : SystemGraph) : Prop where
  valid : h.Valid
  names : ∀ {n i}, g.idOf? n = some i → h.idOf? n = some i
  kept : ∀ {k m n}, g.In k m n → h.In k m n

variable {g h : SystemGraph} {i j : SystemNodeId} {k : EdgeKind} {m n : Nat} {number : Int}
  {p : Pdg} {r : Interleaving}

theorem idOf?_eq_some : g.idOf? n = some i ↔ ∃ x, g.nodes[n]? = some x ∧ x.id = i := by
  simp [idOf?]

theorem idOf?_lt (h : g.idOf? n = some i) : n < g.nodes.length := by
  obtain ⟨x, hx, -⟩ := idOf?_eq_some.1 h
  exact (List.getElem?_eq_some_iff.1 hx).1

theorem mem_nodeIds : i ∈ g.nodeIds ↔ ∃ n, g.idOf? n = some i := by
  unfold nodeIds idOf?
  rw [List.mem_iff_getElem?]
  simp

theorem idOf?_inj (ids : g.nodeIds.Nodup) (hm : g.idOf? m = some i) (hn : g.idOf? n = some i) :
    m = n := by
  have lt : m < g.nodeIds.length := by simpa [nodeIds] using idOf?_lt hm
  refine (List.getElem?_inj lt ids).1 ?_
  rw [nodeIds, List.getElem?_map, List.getElem?_map]
  exact hm.trans hn.symm

theorem find?_idOf? (h : g.find? i = some n) : g.idOf? n = some i := by
  unfold find? at h
  obtain ⟨lt, hid, -⟩ := List.findIdx?_eq_some_iff_getElem.1 h
  exact idOf?_eq_some.2 ⟨g.nodes[n], List.getElem?_eq_getElem lt, by simpa using hid⟩

theorem has_iff : g.has i = true ↔ i ∈ g.nodeIds := by
  simp [has, find?, nodeIds]

theorem find?_of_mem (hi : i ∈ g.nodeIds) : ∃ n, g.find? i = some n ∧ g.idOf? n = some i := by
  obtain ⟨n, hn⟩ := Option.isSome_iff_exists.1 (has_iff.2 hi)
  exact ⟨n, hn, find?_idOf? hn⟩

namespace Grows

theorem refl (hg : g.Valid) : Grows g g := ⟨hg, id, id⟩

theorem trans {l : SystemGraph} (hgh : Grows g h) (hhl : Grows h l) : Grows g l :=
  ⟨hhl.valid, fun hn => hhl.names (hgh.names hn), fun he => hhl.kept (hgh.kept he)⟩

theorem mem (hgh : Grows g h) (hi : i ∈ g.nodeIds) : i ∈ h.nodeIds := by
  obtain ⟨n, hn⟩ := mem_nodeIds.1 hi
  exact mem_nodeIds.2 ⟨n, hgh.names hn⟩

theorem edge (hgh : Grows g h) (he : g.Edge i j) : h.Edge i j := by
  obtain ⟨k, m, n, hm, hn, hin⟩ := he
  exact ⟨k, m, n, hgh.names hm, hgh.names hn, hgh.kept hin⟩

end Grows

section Insert

/-- A node after an edge between `m` and `n` was added to the graph in which it is number `i`. -/
def linked (k : EdgeKind) (m n i : Nat) (x : SystemNode) : SystemNode :=
  { x with
    outgoing := if i = m then x.outgoing.insert k n else x.outgoing
    incoming := if i = n then x.incoming.insert k m else x.incoming }

theorem insert_cases (hm : m < g.nodes.length) :
    (g.Out k m n ∧ (g.insert k m n).2 = g) ∨ ((g.insert k m n).2.graphs = g.graphs ∧
      ∀ i : Nat, (g.insert k m n).2.nodes[i]? = (g.nodes[i]?).map (linked k m n i)) := by
  unfold insert
  split
  · rename_i present
    refine .inl ⟨⟨g.nodes[m], List.getElem?_eq_getElem hm, ?_⟩, rfl⟩
    simpa [List.getElem?_eq_getElem hm] using present
  · refine .inr ⟨rfl, fun i => ?_⟩
    simp only [List.getElem?_modify]
    cases hi : g.nodes[i]? with
    | none => simp
    | some z =>
        by_cases him : m = i <;> by_cases hin : n = i <;> simp [linked, him, hin, eq_comm]

variable (hnodes : ∀ i : Nat, h.nodes[i]? = (g.nodes[i]?).map (linked k m n i))

include hnodes in
theorem linked_idOf? (i : Nat) : h.idOf? i = g.idOf? i := by
  simp only [idOf?, hnodes, Option.map_map]
  rfl

include hnodes in
theorem linked_nodeIds : h.nodeIds = g.nodeIds := by
  refine List.ext_getElem? fun i => ?_
  rw [nodeIds, nodeIds, List.getElem?_map, List.getElem?_map]
  exact linked_idOf? hnodes i

theorem mem_get_insert {e : EdgeSets} {k k' : EdgeKind} {m l : Nat} :
    l ∈ (e.insert k m).get k' ↔ (k' = k ∧ l = m) ∨ l ∈ e.get k' := by
  rw [Pdg.EdgeSets.get_insert]
  split
  · rename_i hk
    rw [NodeSet.mem_insert, hk]
    simp
  · rename_i hk
    simp [hk]

include hnodes in
theorem linked_out (hm : m < g.nodes.length) {k' : EdgeKind} {i l : Nat} :
    h.Out k' i l ↔ g.Out k' i l ∨ (k' = k ∧ i = m ∧ l = n) := by
  unfold Out
  simp only [hnodes, Option.map_eq_some_iff]
  constructor
  · rintro ⟨x, ⟨z, hz, rfl⟩, hl⟩
    by_cases him : i = m
    · simp only [linked, him, if_true, mem_get_insert] at hl
      rcases hl with ⟨hk, hl⟩ | hl
      · exact .inr ⟨hk, him, hl⟩
      · exact .inl ⟨z, hz, hl⟩
    · simp only [linked, him, if_false] at hl
      exact .inl ⟨z, hz, hl⟩
  · rintro (⟨z, hz, hl⟩ | ⟨rfl, rfl, rfl⟩)
    · refine ⟨_, ⟨z, hz, rfl⟩, ?_⟩
      by_cases him : i = m
      · simp only [linked, him, if_true, mem_get_insert]
        exact .inr hl
      · simpa only [linked, him, if_false] using hl
    · refine ⟨_, ⟨_, List.getElem?_eq_getElem hm, rfl⟩, ?_⟩
      simp only [linked, if_true, mem_get_insert]
      exact .inl ⟨trivial, trivial⟩

include hnodes in
theorem linked_in (hn : n < g.nodes.length) {k' : EdgeKind} {i l : Nat} :
    h.In k' i l ↔ g.In k' i l ∨ (k' = k ∧ i = m ∧ l = n) := by
  unfold In
  simp only [hnodes, Option.map_eq_some_iff]
  constructor
  · rintro ⟨x, ⟨z, hz, rfl⟩, hi⟩
    by_cases hln : l = n
    · simp only [linked, hln, if_true, mem_get_insert] at hi
      rcases hi with ⟨hk, hi⟩ | hi
      · exact .inr ⟨hk, hi, hln⟩
      · exact .inl ⟨z, hz, hi⟩
    · simp only [linked, hln, if_false] at hi
      exact .inl ⟨z, hz, hi⟩
  · rintro (⟨z, hz, hi⟩ | ⟨rfl, rfl, rfl⟩)
    · refine ⟨_, ⟨z, hz, rfl⟩, ?_⟩
      by_cases hln : l = n
      · simp only [linked, hln, if_true, mem_get_insert]
        exact .inr hi
      · simpa only [linked, hln, if_false] using hi
    · refine ⟨_, ⟨_, List.getElem?_eq_getElem hn, rfl⟩, ?_⟩
      simp only [linked, if_true, mem_get_insert]
      exact .inl ⟨trivial, trivial⟩

end Insert

/-- An edge between two nodes is there after it was inserted, and no node is new. -/
theorem insert_grows (hg : g.Valid) (hm : m < g.nodes.length) (hn : n < g.nodes.length) :
    Grows g (g.insert k m n).2 ∧ (g.insert k m n).2.In k m n ∧
      (g.insert k m n).2.nodeIds = g.nodeIds ∧ (g.insert k m n).2.graphs = g.graphs := by
  rcases insert_cases (k := k) (n := n) hm with ⟨present, same⟩ | ⟨graphs, hnodes⟩
  · rw [same]
    exact ⟨.refl hg, hg.known k m n present, rfl, rfl⟩
  · have ids := linked_nodeIds hnodes
    have edges : ∀ {k' : EdgeKind} {i l : Nat}, (g.insert k m n).2.In k' i l ↔
        g.In k' i l ∨ k' = k ∧ i = m ∧ l = n := linked_in hnodes hn
    have length : (g.insert k m n).2.nodes.length = g.nodes.length := by
      simpa [nodeIds] using congrArg List.length ids
    refine ⟨⟨⟨ids ▸ hg.ids, ?_, ?_, ?_⟩, ?_, ?_⟩, edges.2 (.inr ⟨rfl, rfl, rfl⟩), ids, graphs⟩
    · rw [ids, graphs]
      exact hg.integrated
    · intro k' i l ho
      exact edges.2 (((linked_out hnodes hm).1 ho).imp_left (hg.known k' i l))
    · intro k' i l hi
      rw [length]
      rcases edges.1 hi with hi | ⟨-, rfl, -⟩
      · exact hg.source k' i l hi
      · exact hm
    · intro i a hi
      rw [linked_idOf? hnodes]
      exact hi
    · exact fun hi => edges.2 (.inl hi)

section Push

/-- The graph with one more node. -/
def push (g : SystemGraph) (i : SystemNodeId) : SystemGraph :=
  { g with nodes := g.nodes ++ [⟨i, .empty, .empty⟩] }

theorem push_out : (g.push i).Out k m n ↔ g.Out k m n := by
  constructor
  · rintro ⟨x, hx, hn⟩
    rcases Pdg.getElem?_push.1 hx with hx | ⟨-, rfl⟩
    · exact ⟨x, hx, hn⟩
    · cases k <;> cases hn
  · rintro ⟨x, hx, hn⟩
    exact ⟨x, Pdg.getElem?_push.2 (.inl hx), hn⟩

theorem push_in : (g.push i).In k m n ↔ g.In k m n := by
  constructor
  · rintro ⟨x, hx, hm⟩
    rcases Pdg.getElem?_push.1 hx with hx | ⟨-, rfl⟩
    · exact ⟨x, hx, hm⟩
    · cases k <;> cases hm
  · rintro ⟨x, hx, hm⟩
    exact ⟨x, Pdg.getElem?_push.2 (.inl hx), hm⟩

theorem push_nodeIds : (g.push i).nodeIds = g.nodeIds ++ [i] := by
  simp [push, nodeIds]

theorem push_grows (hg : g.Valid) (fresh : i ∉ g.nodeIds) (hi : g.graphs.contains i.graph = true) :
    Grows g (g.push i) := by
  refine ⟨⟨?_, ?_, ?_, ?_⟩, ?_, push_in.2⟩
  · rw [push_nodeIds]
    refine List.nodup_append.2 ⟨hg.ids, by simp, fun a ha b hb hab => ?_⟩
    rw [List.mem_singleton.1 hb] at hab
    exact fresh (hab ▸ ha)
  · intro j hj
    rw [push_nodeIds] at hj
    rcases List.mem_append.1 hj with hj | hj
    · exact hg.integrated j hj
    · rw [List.mem_singleton.1 hj]
      exact hi
  · intro k m n ho
    exact push_in.2 (hg.known k m n (push_out.1 ho))
  · intro k m n hin
    have := hg.source k m n (push_in.1 hin)
    simp only [push, List.length_append, List.length_singleton]
    omega
  · intro n a hn
    obtain ⟨x, hx, rfl⟩ := idOf?_eq_some.1 hn
    exact idOf?_eq_some.2 ⟨x, Pdg.getElem?_push.2 (.inl hx), rfl⟩

end Push

theorem addNodes_grows {is : List NodeId} (hg : g.Valid) (nodup : is.Nodup)
    (fresh : ∀ a ∈ is, ⟨number, a⟩ ∉ g.nodeIds) (hn : g.graphs.contains number = true) :
    ∃ h, addNodes number g is = .ok h ∧ Grows g h ∧ h.graphs = g.graphs ∧
      ∀ a ∈ is, ⟨number, a⟩ ∈ h.nodeIds := by
  induction is generalizing g with
  | nil => exact ⟨g, rfl, .refl hg, rfl, by simp⟩
  | cons a is ih =>
      obtain ⟨ha, his⟩ := List.nodup_cons.1 nodup
      have absent : ⟨number, a⟩ ∉ g.nodeIds := fresh a (by simp)
      have grown := push_grows hg absent hn
      have later : ∀ b ∈ is, ⟨number, b⟩ ∉ (g.push ⟨number, a⟩).nodeIds := by
        intro b hb hmem
        rw [push_nodeIds] at hmem
        rcases List.mem_append.1 hmem with hmem | hmem
        · exact fresh b (by simp [hb]) hmem
        · have : b = a := by simpa using hmem
          exact ha (this ▸ hb)
      obtain ⟨h, hh, hgrows, graphs, mem⟩ := ih grown.valid his later hn
      refine ⟨h, ?_, grown.trans hgrows, graphs, ?_⟩
      · have : g.has ⟨number, a⟩ = false := by
          rw [Bool.eq_false_iff]
          exact fun hhas => absent (has_iff.1 hhas)
        simpa [addNodes, this, push] using hh
      · intro b hb
        rcases List.mem_cons.1 hb with rfl | hb
        · exact hgrows.mem (by simp [push_nodeIds])
        · exact mem b hb

/-- The graph `p` is part of the system graph under a number. -/
structure Holds (g : SystemGraph) (number : Int) (p : Pdg) : Prop where
  node : ∀ a ∈ p.nodeIds, ⟨number, a⟩ ∈ g.nodeIds
  edge : ∀ e ∈ p.edges, g.Edge ⟨number, e.source⟩ ⟨number, e.target⟩

theorem Holds.mono (hp : g.Holds number p) (hgh : Grows g h) : h.Holds number p :=
  ⟨fun a ha => hgh.mem (hp.node a ha), fun e he => hgh.edge (hp.edge e he)⟩

/-- Copies edges of a graph under a number. -/
def copyEdges (number : Int) (g : SystemGraph) (es : List PdgEdge) : SystemGraph :=
  es.foldl (fun g e =>
    match g.find? ⟨number, e.source⟩, g.find? ⟨number, e.target⟩ with
    | some a, some b => (g.insert e.kind a b).2
    | _, _ => g) g

theorem copyEdges_grows {es : List PdgEdge} (hg : g.Valid)
    (ends : ∀ e ∈ es, ⟨number, e.source⟩ ∈ g.nodeIds ∧ ⟨number, e.target⟩ ∈ g.nodeIds) :
    Grows g (g.copyEdges number es) ∧ (g.copyEdges number es).graphs = g.graphs ∧
      ∀ e ∈ es, (g.copyEdges number es).Edge ⟨number, e.source⟩ ⟨number, e.target⟩ := by
  induction es generalizing g with
  | nil => exact ⟨.refl hg, rfl, by simp⟩
  | cons e es ih =>
      obtain ⟨hsource, htarget⟩ := ends e (by simp)
      obtain ⟨m, hm, hmi⟩ := find?_of_mem hsource
      obtain ⟨n, hn, hni⟩ := find?_of_mem htarget
      obtain ⟨grown, hin, ids, graphs⟩ :=
        insert_grows (k := e.kind) hg (idOf?_lt hmi) (idOf?_lt hni)
      have first : g.copyEdges number (e :: es) = (g.insert e.kind m n).2.copyEdges number es := by
        simp [copyEdges, hm, hn]
      obtain ⟨rest, graphs', edges⟩ := ih grown.valid fun e' he' => by
        rw [ids]
        exact ends e' (by simp [he'])
      rw [first]
      refine ⟨grown.trans rest, graphs'.trans graphs, fun e' he' => ?_⟩
      rcases List.mem_cons.1 he' with rfl | he'
      · exact rest.edge ⟨_, m, n, grown.names hmi, grown.names hni, hin⟩
      · exact edges e' he'

/-- A number that is not in use takes any graph with unique names. -/
theorem integrate_grows (hg : g.Valid) (fresh : g.graphs.contains number = false)
    (unique : (p.nodes.map (·.id)).Nodup) :
    ∃ h, g.integrate number p = .ok h ∧ Grows g h ∧ h.Holds number p ∧
      h.graphs = g.graphs.insert number p := by
  let named : SystemGraph := { g with graphs := g.graphs.insert number p }
  have inserted : ∀ n, (g.graphs.contains n = true ∨ n = number) → named.graphs.contains n = true := by
    intro n hn
    rw [Table.contains_iff, Table.keys_insert]
    rcases hn with hn | rfl
    · have := Table.contains_iff.1 hn
      split <;> simp [this]
    · split
      · assumption
      · simp
  have start : Grows g named :=
    ⟨⟨hg.ids, fun i hi => inserted _ (.inl (hg.integrated i hi)), hg.known, hg.source⟩, id, id⟩
  have unused : ∀ a ∈ p.nodeIds, ⟨number, a⟩ ∉ named.nodeIds := by
    intro a _ hmem
    have := hg.integrated _ hmem
    rw [fresh] at this
    cases this
  obtain ⟨l, hl, grown, graphs, mem⟩ := addNodes_grows start.valid
    (Pdg.nodup_nodeIds unique) unused (inserted number (.inr rfl))
  have ends : ∀ e ∈ p.edges, ⟨number, e.source⟩ ∈ l.nodeIds ∧ ⟨number, e.target⟩ ∈ l.nodeIds :=
    fun e he => ⟨mem _ (Pdg.has_of_mem_edges he).1, mem _ (Pdg.has_of_mem_edges he).2⟩
  obtain ⟨copied, graphs', edges⟩ := copyEdges_grows grown.valid ends
  refine ⟨l.copyEdges number p.edges, ?_, (start.trans grown).trans copied,
    ⟨fun a ha => copied.mem (mem a ha), edges⟩, graphs'.trans graphs⟩
  unfold integrate
  rw [if_neg (by simp [fresh]), hl]
  rfl

theorem integrateAll_grows {ns : List Nat} (hg : g.Valid) (nodup : ns.Nodup)
    (unused : ∀ n ∈ ns, g.graphs.contains (n : Int) = false)
    (unique : ∀ n p, r.pdg? n = some p → (p.nodes.map (·.id)).Nodup) :
    ∃ h, integrateAll r g ns = .ok h ∧ Grows g h ∧
      ∀ n ∈ ns, ∀ p, r.pdg? n = some p → h.Holds n p := by
  induction ns generalizing g with
  | nil => exact ⟨g, rfl, .refl hg, by simp⟩
  | cons n ns ih =>
      obtain ⟨hn, hns⟩ := List.nodup_cons.1 nodup
      have rest : ∀ m ∈ ns, g.graphs.contains (m : Int) = false := fun m hm =>
        unused m (by simp [hm])
      cases hp : r.pdg? n with
      | none =>
          obtain ⟨h, hh, grown, holds⟩ := ih hg hns rest
          refine ⟨h, by simpa [integrateAll, hp] using hh, grown, fun m hm p hpm => ?_⟩
          rcases List.mem_cons.1 hm with rfl | hm
          · rw [hp] at hpm
            cases hpm
          · exact holds m hm p hpm
      | some p =>
          obtain ⟨l, hl, added, held, graphs⟩ := integrate_grows hg (unused n (by simp)) (unique n p hp)
          have later : ∀ m ∈ ns, l.graphs.contains (m : Int) = false := by
            intro m hm
            have hmn : (m : Int) ≠ n := by
              intro heq
              exact hn (Int.ofNat.inj heq ▸ hm)
            have absent := rest m hm
            rw [Bool.eq_false_iff, Ne, Table.contains_iff] at absent ⊢
            rw [graphs, Table.keys_insert]
            split
            · exact absent
            · simpa [hmn] using absent
          obtain ⟨h, hh, grown, holds⟩ := ih added.valid hns later
          refine ⟨h, by simpa [integrateAll, hp, hl] using hh, added.trans grown, fun m hm q hq => ?_⟩
          rcases List.mem_cons.1 hm with rfl | hm
          · obtain rfl : p = q := by
              rw [hp] at hq
              injection hq
            exact held.mono grown
          · exact holds m hm q hq

/-- Every chain between existing nodes becomes an edge. -/
theorem connectAll_grows {cs : List (Chain Variable)} (hg : g.Valid)
    (ends : ∀ c ∈ cs, ⟨c.source, .output c.var⟩ ∈ g.nodeIds ∧ ⟨c.use, .input c.var⟩ ∈ g.nodeIds) :
    ∃ h, connectAll g cs = .ok h ∧ Grows g h ∧
      ∀ c ∈ cs, h.Edge ⟨c.source, .output c.var⟩ ⟨c.use, .input c.var⟩ := by
  induction cs generalizing g with
  | nil => exact ⟨g, rfl, .refl hg, by simp⟩
  | cons c cs ih =>
      obtain ⟨hsource, huse⟩ := ends c (by simp)
      obtain ⟨m, hm, hmi⟩ := find?_of_mem hsource
      obtain ⟨n, hn, hni⟩ := find?_of_mem huse
      obtain ⟨grown, hin, ids, -⟩ :=
        insert_grows (k := .data) hg (idOf?_lt hmi) (idOf?_lt hni)
      have added : g.addEdge .data ⟨c.source, .output c.var⟩ ⟨c.use, .input c.var⟩ =
          .ok (g.insert .data m n) := by
        simp [addEdge, lookup, hm, hn, bind, Except.bind, pure, Except.pure]
      obtain ⟨h, hh, rest, edges⟩ := ih grown.valid fun d hd => by
        rw [ids]
        exact ends d (by simp [hd])
      refine ⟨h, ?_, grown.trans rest, fun d hd => ?_⟩
      · rw [connectAll, added]
        exact hh
      · rcases List.mem_cons.1 hd with rfl | hd
        · exact rest.edge ⟨_, m, n, grown.names hmi, grown.names hni, hin⟩
        · exact edges d hd

section Slice

/-- The nodes from which an edge leads to a node. -/
def above (g : SystemGraph) (x : Nat) : NodeSet := ((g.nodes[x]?).map (·.incoming.union)).getD []

theorem sliceFrom_eq (fuel : Nat) (visited : NodeSet) (queue : List Nat) :
    g.sliceFrom fuel visited queue = search g.above (· ++ ·) fuel visited queue := by
  induction fuel generalizing visited queue with
  | zero => rfl
  | succ fuel ih =>
      cases queue with
      | nil => rfl
      | cons x queue => simp only [sliceFrom, search, ih, above]

theorem mem_above : m ∈ g.above n ↔ ∃ k, g.In k m n := by
  unfold above In
  cases hy : g.nodes[n]? with
  | none => simp
  | some y =>
      simp only [Option.map_some, Option.getD_some, EdgeSets.union, NodeSet.mem_union, Option.some.injEq,
        exists_eq_left']
      constructor
      · rintro ((hm | hm) | hm)
        · exact ⟨.control, hm⟩
        · exact ⟨.data, hm⟩
        · exact ⟨.member, hm⟩
      · rintro ⟨k, hm⟩
        cases k with
        | control => exact .inl (.inl hm)
        | data => exact .inl (.inr hm)
        | member => exact .inr hm

theorem Valid.path (hg : g.Valid) (hn : g.idOf? n = some i) (path : Relation.ReflTransGen g.Edge j i) :
    ∃ m, g.idOf? m = some j ∧ Relation.ReflTransGen (fun a b => b ∈ g.above a) n m := by
  induction path using Relation.ReflTransGen.head_induction_on with
  | refl => exact ⟨n, hn, .refl⟩
  | head edge _ ih =>
      obtain ⟨l, hl, path⟩ := ih
      obtain ⟨k, m', l', hm, hl', hin⟩ := edge
      obtain rfl := idOf?_inj hg.ids hl hl'
      exact ⟨m', hm, path.tail (mem_above.2 ⟨k, hin⟩)⟩

/-- The slice of a node holds every node from which edges lead to it. -/
theorem mem_slice (hg : g.Valid) (hi : i ∈ g.nodeIds) (path : Relation.ReflTransGen g.Edge j i) :
    ∃ slice, g.slice i = .ok slice ∧ j ∈ slice := by
  obtain ⟨n, hfind, hn⟩ := find?_of_mem hi
  obtain ⟨m, hm, path⟩ := hg.path hn path
  have within : ∀ x < g.nodes.length, ∀ y ∈ g.above x, y < g.nodes.length := by
    intro x _ y hy
    obtain ⟨k, hin⟩ := mem_above.1 hy
    exact hg.source k y x hin
  refine ⟨g.idsOf (g.sliceFrom (g.nodes.length + 1) [n] [n]), ?_, ?_⟩
  · simp [slice, lookup, hfind, Except.map]
  · refine List.mem_filterMap.2 ⟨m, ?_, hm⟩
    rw [sliceFrom_eq]
    exact mem_search_of_reaches (fun _ _ _ => .refl _) within (.refl _) (by simp)
      (by simpa using idOf?_lt hn) (Nat.lt_succ_self _) (by simp) path

end Slice

end SystemGraph

end DeltaSlice

import DeltaSlice.Pdg.Compose
import DeltaSlice.Proofs.Success
import DeltaSlice.Proofs.Table
import Mathlib.Data.Set.Insert

/-!
What a dependence graph says, by the names of its nodes: which nodes it has, which edges, and which
definitions reach. Every operation on a well-formed graph is described by what it does to these
facts, so later proofs need no node numbers.
-/

namespace DeltaSlice

namespace Pdg

def Out (g : Pdg) (k : EdgeKind) (m n : Nat) : Prop :=
  ∃ x, g.nodes[m]? = some x ∧ n ∈ x.outgoing.get k

def In (g : Pdg) (k : EdgeKind) (m n : Nat) : Prop :=
  ∃ y, g.nodes[n]? = some y ∧ m ∈ y.incoming.get k

/-- The representation invariant: names are unique, both ends of an edge know it, neighbours are
kept in order, and the entry and all definitions are nodes of the graph. -/
structure Valid (g : Pdg) : Prop where
  ids : (g.nodes.map (·.id)).Nodup
  mirrored : ∀ k m n, g.Out k m n ↔ g.In k m n
  ascending : ∀ x ∈ g.nodes, ∀ k,
    (x.outgoing.get k).Pairwise (· < ·) ∧ (x.incoming.get k).Pairwise (· < ·)
  entry : ∀ n, g.entry = some n → n < g.nodes.length
  keys : (g.reaching.entries.map (·.1)).Nodup
  definitions : ∀ v d, (v, d) ∈ g.reaching.entries →
    d.nodes ≠ [] ∧ d.nodes.Pairwise (· < ·) ∧ ∀ n ∈ d.nodes, n < g.nodes.length

/-- The representation invariant of graphs among whose definitions may be some without nodes. -/
structure Consistent (g : Pdg) : Prop where
  ids : (g.nodes.map (·.id)).Nodup
  mirrored : ∀ k m n, g.Out k m n ↔ g.In k m n
  ascending : ∀ x ∈ g.nodes, ∀ k,
    (x.outgoing.get k).Pairwise (· < ·) ∧ (x.incoming.get k).Pairwise (· < ·)
  entry : ∀ n, g.entry = some n → n < g.nodes.length
  keys : (g.reaching.entries.map (·.1)).Nodup
  definitions : ∀ v d, (v, d) ∈ g.reaching.entries →
    d.nodes.Pairwise (· < ·) ∧ ∀ n ∈ d.nodes, n < g.nodes.length

/-- The nodes and edges of a graph, without its definitions. -/
def bare (g : Pdg) : Pdg := { g with reaching := .empty }

theorem Valid.consistent {g : Pdg} (h : g.Valid) : g.Consistent :=
  ⟨h.ids, h.mirrored, h.ascending, h.entry, h.keys, fun v d hd => (h.definitions v d hd).2⟩

namespace Consistent

variable {g : Pdg}

theorem valid (h : g.Consistent) (filled : ∀ v d, (v, d) ∈ g.reaching.entries → d.nodes ≠ []) : g.Valid :=
  ⟨h.ids, h.mirrored, h.ascending, h.entry, h.keys, fun v d hd => ⟨filled v d hd, h.definitions v d hd⟩⟩

theorem bare (h : g.Consistent) : g.bare.Valid :=
  ⟨h.ids, h.mirrored, h.ascending, h.entry, .nil, fun _ _ hd => absurd hd List.not_mem_nil⟩

end Consistent

/-- One thing that a graph can say. A variable may be reached by the definition of a node, or from
before the transition. -/
inductive Fact where
  | node (a : NodeId)
  | edge (k : EdgeKind) (a b : NodeId)
  | reaches (v : Variable) (d : Option NodeId)

def Says (g : Pdg) : Fact → Prop
  | .node a => ∃ n, g.idOf? n = some a
  | .edge k a b => ∃ m n, g.idOf? m = some a ∧ g.idOf? n = some b ∧ g.Out k m n
  | .reaches v (some a) => ∃ d, g.reaching.get? v = some d ∧ ∃ n ∈ d.nodes, g.idOf? n = some a
  | .reaches v none => ∀ d, g.reaching.get? v = some d → d.outer = true

def facts (g : Pdg) : Set Fact := {f | g.Says f}

@[simp] theorem mem_facts {g : Pdg} {f : Fact} : f ∈ g.facts ↔ g.Says f := Iff.rfl

section Names

variable {g : Pdg} {a b : NodeId} {m n : Nat} {k : EdgeKind}

theorem idOf?_eq_some : g.idOf? n = some a ↔ ∃ x, g.nodes[n]? = some x ∧ x.id = a := by
  simp [idOf?]

theorem idOf?_isSome : (∃ a, g.idOf? n = some a) ↔ n < g.nodes.length := by
  simp only [idOf?_eq_some]
  constructor
  · rintro ⟨a, x, hx, -⟩
    exact (List.getElem?_eq_some_iff.1 hx).1
  · intro h
    exact ⟨_, g.nodes[n], List.getElem?_eq_getElem h, rfl⟩

theorem find?_idOf? (h : g.find? a = some n) : g.idOf? n = some a := by
  unfold find? at h
  obtain ⟨x, hx⟩ := List.findIdx?_eq_some_iff_getElem.1 h
  refine idOf?_eq_some.2 ⟨g.nodes[n], List.getElem?_eq_getElem x, ?_⟩
  simpa using hx.1

theorem find?_eq_none : g.find? a = none ↔ ∀ n, g.idOf? n ≠ some a := by
  unfold find?
  rw [List.findIdx?_eq_none_iff]
  constructor
  · intro h n hn
    obtain ⟨x, hx, rfl⟩ := idOf?_eq_some.1 hn
    simpa using h x (List.mem_of_getElem? hx)
  · intro h x hx
    obtain ⟨n, hn⟩ := List.mem_iff_getElem?.1 hx
    have := h n
    rw [Ne, idOf?_eq_some] at this
    simp only [decide_eq_false_iff_not]
    intro hid
    exact this ⟨x, hn, hid⟩

theorem has_iff : g.has a = true ↔ .node a ∈ g.facts := by
  constructor
  · intro h
    obtain ⟨n, hn⟩ := Option.isSome_iff_exists.1 h
    exact ⟨n, find?_idOf? hn⟩
  · rintro ⟨n, hn⟩
    refine Option.isSome_iff_ne_none.2 fun absent => ?_
    exact find?_eq_none.1 absent n hn

theorem Valid.idOf?_inj (h : g.Valid) (hm : g.idOf? m = some a) (hn : g.idOf? n = some a) :
    m = n := by
  obtain ⟨x, hx, hxa⟩ := idOf?_eq_some.1 hm
  obtain ⟨y, hy, hya⟩ := idOf?_eq_some.1 hn
  have hm' : m < (g.nodes.map (·.id)).length := by
    simpa using (List.getElem?_eq_some_iff.1 hx).1
  refine (List.getElem?_inj hm' h.ids).1 ?_
  rw [List.getElem?_map, List.getElem?_map, hx, hy]
  simp [hxa, hya]

theorem Out.source (h : g.Out k m n) : ∃ a, g.idOf? m = some a := by
  obtain ⟨x, hx, -⟩ := h
  exact ⟨x.id, idOf?_eq_some.2 ⟨x, hx, rfl⟩⟩

theorem Valid.target (h : g.Valid) (hout : g.Out k m n) : ∃ b, g.idOf? n = some b := by
  obtain ⟨y, hy, -⟩ := (h.mirrored k m n).1 hout
  exact ⟨y.id, idOf?_eq_some.2 ⟨y, hy, rfl⟩⟩

theorem Valid.edge_mem_facts (h : g.Valid) (hm : g.idOf? m = some a) (hn : g.idOf? n = some b) :
    .edge k a b ∈ g.facts ↔ g.Out k m n := by
  constructor
  · rintro ⟨m', n', hm', hn', hout⟩
    rwa [h.idOf?_inj hm hm', h.idOf?_inj hn hn']
  · intro hout
    exact ⟨m, n, hm, hn, hout⟩

/-- The public question for an edge. -/
theorem Valid.edge?_eq_true (h : g.Valid) :
    g.edge? k a b = .ok true ↔ .edge k a b ∈ g.facts := by
  unfold edge?
  cases ha : g.find? a with
  | none =>
      simp only [reduceCtorEq, false_iff]
      rintro ⟨m, n, hm, -, -⟩
      exact find?_eq_none.1 ha m hm
  | some m =>
      cases hb : g.find? b with
      | none =>
          simp only [reduceCtorEq, false_iff]
          rintro ⟨m, n, -, hn, -⟩
          exact find?_eq_none.1 hb n hn
      | some n =>
          rw [h.edge_mem_facts (find?_idOf? ha) (find?_idOf? hb)]
          unfold Out
          cases hx : g.nodes[m]? with
          | none => simp [hx]
          | some x => simp [hx]

end Names

/-- The code has been entered: the entry is the node of an entry. -/
def Entered (g : Pdg) : Prop := ∃ n a, g.entry = some n ∧ g.idOf? n = some (.entry a)

namespace Entered

variable {g h : Pdg}

theorem entryId (hg : g.Entered) : ∃ a, g.entryId? = some (.entry a) := by
  obtain ⟨n, a, hn, ha⟩ := hg
  exact ⟨a, by simp [entryId?, hn, ha]⟩

theorem isSome (hg : g.Entered) : g.entry.isSome := by
  obtain ⟨n, a, hn, -⟩ := hg
  simp [hn]

theorem keeps (hg : g.Entered) (entry : h.entry = g.entry)
    (names : ∀ {n a}, g.idOf? n = some a → h.idOf? n = some a) : h.Entered := by
  obtain ⟨n, a, hn, ha⟩ := hg
  exact ⟨n, a, entry.trans hn, names ha⟩

end Entered

/-- `h` says what `g` says and the nodes and edges in `A`. -/
structure Grows (g h : Pdg) (A : Set Fact) : Prop where
  valid : h.Valid
  names : ∀ {n a}, g.idOf? n = some a → h.idOf? n = some a
  facts : h.facts = g.facts ∪ A
  entry : h.entry = g.entry
  reaching : h.reaching = g.reaching

namespace Grows

variable {g h i : Pdg} {A B : Set Fact}

theorem refl (hg : g.Valid) : Grows g g ∅ := ⟨hg, id, by simp, rfl, rfl⟩

theorem trans (hgh : Grows g h A) (hhi : Grows h i B) : Grows g i (A ∪ B) :=
  ⟨hhi.valid, fun hn => hhi.names (hgh.names hn), by rw [hhi.facts, hgh.facts, Set.union_assoc],
    hhi.entry.trans hgh.entry, hhi.reaching.trans hgh.reaching⟩

theorem idOf?_eq (hgh : Grows g h A) {n : Nat} (hn : n < g.nodes.length) :
    h.idOf? n = g.idOf? n := by
  obtain ⟨a, ha⟩ := idOf?_isSome.2 hn
  rw [ha, hgh.names ha]

theorem length_le (hgh : Grows g h A) : g.nodes.length ≤ h.nodes.length := by
  by_contra hlt
  have := hgh.idOf?_eq (Nat.lt_of_not_le hlt)
  obtain ⟨a, ha⟩ := idOf?_isSome.2 (Nat.lt_of_not_le hlt)
  rw [ha] at this
  have := idOf?_isSome.1 ⟨a, this⟩
  omega

theorem congr (hgh : Grows g h A) (hAB : g.facts ∪ A = g.facts ∪ B) : Grows g h B :=
  ⟨hgh.valid, hgh.names, hgh.facts.trans hAB, hgh.entry, hgh.reaching⟩

end Grows

section Node

variable {g : Pdg} {a : NodeId} {s : Option StatementId}

theorem getElem?_push {α : Type} {l : List α} {x y : α} {n : Nat} :
    (l ++ [x])[n]? = some y ↔ l[n]? = some y ∨ (n = l.length ∧ y = x) := by
  rcases Nat.lt_trichotomy n l.length with h | h | h
  · rw [List.getElem?_append_left h]
    constructor
    · exact .inl
    · rintro (hy | ⟨rfl, -⟩)
      · exact hy
      · omega
  · subst h
    simp [eq_comm]
  · have long : (l ++ [x])[n]? = none := List.getElem?_eq_none (by simp; omega)
    simp only [long, List.getElem?_eq_none (Nat.le_of_lt h), reduceCtorEq, false_or, false_iff]
    rintro ⟨hn, -⟩
    omega

/-- The graph with a new node that has no edges. -/
def push (g : Pdg) (a : NodeId) (s : Option StatementId) : Pdg :=
  { g with nodes := g.nodes ++ [⟨a, s, .empty, .empty⟩] }

theorem push_idOf? {n : Nat} {b : NodeId} :
    (g.push a s).idOf? n = some b ↔ g.idOf? n = some b ∨ (n = g.nodes.length ∧ b = a) := by
  simp only [idOf?_eq_some, push, getElem?_push]
  constructor
  · rintro ⟨x, hx | ⟨hn, rfl⟩, hb⟩
    · exact .inl ⟨x, hx, hb⟩
    · exact .inr ⟨hn, hb.symm⟩
  · rintro (⟨x, hx, hb⟩ | ⟨hn, rfl⟩)
    · exact ⟨x, .inl hx, hb⟩
    · exact ⟨_, .inr ⟨hn, rfl⟩, rfl⟩

theorem push_idOf?_old {n : Nat} (hn : n < g.nodes.length) :
    (g.push a s).idOf? n = g.idOf? n := by
  simp [idOf?, push, List.getElem?_append_left hn]

theorem push_out {k : EdgeKind} {m n : Nat} : (g.push a s).Out k m n ↔ g.Out k m n := by
  simp only [Out, push, getElem?_push]
  constructor
  · rintro ⟨x, hx | ⟨-, rfl⟩, hn⟩
    · exact ⟨x, hx, hn⟩
    · cases k <;> simp [EdgeSets.get, EdgeSets.empty] at hn
  · rintro ⟨x, hx, hn⟩
    exact ⟨x, .inl hx, hn⟩

theorem push_in {k : EdgeKind} {m n : Nat} : (g.push a s).In k m n ↔ g.In k m n := by
  simp only [In, push, getElem?_push]
  constructor
  · rintro ⟨x, hx | ⟨-, rfl⟩, hn⟩
    · exact ⟨x, hx, hn⟩
    · cases k <;> simp [EdgeSets.get, EdgeSets.empty] at hn
  · rintro ⟨x, hx, hn⟩
    exact ⟨x, .inl hx, hn⟩

theorem Valid.push (hg : g.Valid) (absent : g.find? a = none) : (g.push a s).Valid where
  ids := by
    have fresh : ∀ x ∈ g.nodes, x.id ≠ a := by
      intro x hx hid
      obtain ⟨n, hn⟩ := List.mem_iff_getElem?.1 hx
      exact find?_eq_none.1 absent n (idOf?_eq_some.2 ⟨x, hn, hid⟩)
    rw [Pdg.push, List.map_append, List.nodup_append]
    refine ⟨hg.ids, by simp, ?_⟩
    intro b hb c hc
    obtain ⟨x, hx, rfl⟩ := List.mem_map.1 hb
    obtain rfl : c = a := by simpa using hc
    exact fresh x hx
  mirrored := fun k m n => by rw [push_out, push_in, hg.mirrored]
  ascending := by
    intro x hx k
    rcases List.mem_append.1 hx with hx | hx
    · exact hg.ascending x hx k
    · obtain rfl := List.mem_singleton.1 hx
      cases k <;> simp [EdgeSets.get, EdgeSets.empty]
  entry := by
    intro n hn
    have := hg.entry n hn
    simp only [Pdg.push, List.length_append]
    omega
  keys := hg.keys
  definitions := by
    intro v d hd
    obtain ⟨ne, asc, lt⟩ := hg.definitions v d hd
    refine ⟨ne, asc, ?_⟩
    intro n hn
    have := lt n hn
    simp only [Pdg.push, List.length_append]
    omega

theorem push_facts_iff (hg : g.Valid) {f : Fact} :
    (g.push a s).Says f ↔ g.Says f ∨ f = .node a := by
  cases f with
  | node b =>
      simp only [Says, push_idOf?, Fact.node.injEq]
      constructor
      · rintro ⟨n, hn | ⟨-, rfl⟩⟩
        · exact .inl ⟨n, hn⟩
        · exact .inr rfl
      · rintro (⟨n, hn⟩ | rfl)
        · exact ⟨n, .inl hn⟩
        · exact ⟨g.nodes.length, .inr ⟨rfl, rfl⟩⟩
  | edge k b c =>
      simp only [Says, push_out, reduceCtorEq, or_false]
      constructor
      · rintro ⟨m, n, hm, hn, hout⟩
        rw [push_idOf?_old (idOf?_isSome.1 hout.source)] at hm
        rw [push_idOf?_old (idOf?_isSome.1 (hg.target hout))] at hn
        exact ⟨m, n, hm, hn, hout⟩
      · rintro ⟨m, n, hm, hn, hout⟩
        exact ⟨m, n, push_idOf?.2 (.inl hm), push_idOf?.2 (.inl hn), hout⟩
  | reaches v d =>
      cases d with
      | none => simp [Says, push]
      | some b =>
          simp only [Says, reduceCtorEq, or_false]
          constructor
          · rintro ⟨d, hd, n, hn, hb⟩
            have lt := (hg.definitions v d (Table.mem_of_get? hd)).2.2 n hn
            rw [push_idOf?_old lt] at hb
            exact ⟨d, hd, n, hn, hb⟩
          · rintro ⟨d, hd, n, hn, hb⟩
            exact ⟨d, hd, n, hn, push_idOf?.2 (.inl hb)⟩

theorem node_grows (hg : g.Valid) (a : NodeId) (s : Option StatementId) :
    Grows g (g.node a s).2 {.node a} ∧ (g.node a s).2.idOf? (g.node a s).1 = some a := by
  cases hfind : g.find? a with
  | some n =>
      have same : g.node a s = (n, g) := by simp [node, hfind]
      rw [same]
      have hn := find?_idOf? hfind
      refine ⟨(Grows.refl hg).congr ?_, hn⟩
      rw [Set.union_empty, Set.union_eq_self_of_subset_right]
      rintro f rfl
      exact ⟨n, hn⟩
  | none =>
      have new : g.node a s = (g.nodes.length, g.push a s) := by simp [node, hfind, push]
      rw [new]
      refine ⟨⟨hg.push hfind, fun hn => push_idOf?.2 (.inl hn), ?_, rfl, rfl⟩,
        push_idOf?.2 (.inr ⟨rfl, rfl⟩)⟩
      ext f
      exact push_facts_iff hg

end Node

section Edge

variable {g h : Pdg} {k : EdgeKind} {m n : Nat}

theorem EdgeSets.get_insert (e : EdgeSets) (k k' : EdgeKind) (n : Nat) :
    (e.insert k n).get k' = if k' = k then NodeSet.insert n (e.get k') else e.get k' := by
  cases k <;> cases k' <;> rfl

/-- A node after an edge between `m` and `n` was added to the graph in which it is number `i`. -/
def linked (k : EdgeKind) (m n i : Nat) (x : PdgNode) : PdgNode :=
  { x with
    outgoing := if i = m then x.outgoing.insert k n else x.outgoing
    incoming := if i = n then x.incoming.insert k m else x.incoming }

theorem insertEdge_cases {b : Bool} (hins : g.insertEdge k m n = .ok (b, h)) :
    m < g.nodes.length ∧ n < g.nodes.length ∧
      ((b = false ∧ h = g ∧ (g.Out k m n ∨ g.In k m n)) ∨
        (b = true ∧ h.entry = g.entry ∧ h.reaching = g.reaching ∧
          ∀ i : Nat, h.nodes[i]? = (g.nodes[i]?).map (linked k m n i))) := by
  unfold insertEdge at hins
  cases hx : g.nodes[m]? with
  | none => simp [hx] at hins
  | some x =>
      cases hy : g.nodes[n]? with
      | none => simp [hx, hy] at hins
      | some y =>
          simp only [hx, hy] at hins
          refine ⟨(List.getElem?_eq_some_iff.1 hx).1, (List.getElem?_eq_some_iff.1 hy).1, ?_⟩
          split at hins
          · rename_i present
            simp only [Except.ok.injEq, Prod.mk.injEq] at hins
            obtain ⟨rfl, rfl⟩ := hins
            refine .inl ⟨rfl, rfl, ?_⟩
            simpa [Out, In, hx, hy] using present
          · simp only [Except.ok.injEq, Prod.mk.injEq] at hins
            obtain ⟨rfl, rfl⟩ := hins
            refine .inr ⟨rfl, rfl, rfl, ?_⟩
            intro i
            simp only [List.getElem?_modify]
            cases hi : g.nodes[i]? with
            | none => simp
            | some z =>
                by_cases him : m = i <;> by_cases hin : n = i <;>
                  simp [linked, him, hin, eq_comm]

section Linked

variable (hm : m < g.nodes.length) (hn : n < g.nodes.length)
variable (hnodes : ∀ i : Nat, h.nodes[i]? = (g.nodes[i]?).map (linked k m n i))

include hnodes in
theorem linked_idOf? (i : Nat) : h.idOf? i = g.idOf? i := by
  simp only [idOf?, hnodes, Option.map_map]
  rfl

include hnodes in
theorem linked_length : h.nodes.length = g.nodes.length := by
  refine Nat.le_antisymm ?_ ?_
  · rw [← List.getElem?_eq_none_iff, hnodes, List.getElem?_eq_none (Nat.le_refl _)]
    rfl
  · have := hnodes h.nodes.length
    rw [List.getElem?_eq_none (Nat.le_refl _)] at this
    exact List.getElem?_eq_none_iff.1 (Option.map_eq_none_iff.1 this.symm)

include hm hnodes in
theorem linked_out {k' : EdgeKind} {i j : Nat} :
    h.Out k' i j ↔ g.Out k' i j ∨ (k' = k ∧ i = m ∧ j = n) := by
  simp only [Out, hnodes, Option.map_eq_some_iff]
  constructor
  · rintro ⟨x, ⟨z, hz, rfl⟩, hj⟩
    simp only [linked] at hj
    split at hj
    · rename_i him
      rw [EdgeSets.get_insert] at hj
      split at hj
      · rename_i hk
        rcases NodeSet.mem_insert.1 hj with rfl | hj
        · exact .inr ⟨hk, him, rfl⟩
        · exact .inl ⟨z, hz, hj⟩
      · exact .inl ⟨z, hz, hj⟩
    · exact .inl ⟨z, hz, hj⟩
  · rintro (⟨z, hz, hj⟩ | ⟨rfl, rfl, rfl⟩)
    · refine ⟨_, ⟨z, hz, rfl⟩, ?_⟩
      simp only [linked]
      split
      · rw [EdgeSets.get_insert]
        split
        · exact NodeSet.mem_insert.2 (.inr hj)
        · exact hj
      · exact hj
    · refine ⟨_, ⟨_, List.getElem?_eq_getElem hm, rfl⟩, ?_⟩
      simp only [linked, if_true, EdgeSets.get_insert]
      exact NodeSet.mem_insert.2 (.inl rfl)

include hn hnodes in
theorem linked_in {k' : EdgeKind} {i j : Nat} :
    h.In k' i j ↔ g.In k' i j ∨ (k' = k ∧ i = m ∧ j = n) := by
  simp only [In, hnodes, Option.map_eq_some_iff]
  constructor
  · rintro ⟨x, ⟨z, hz, rfl⟩, hi⟩
    simp only [linked] at hi
    split at hi
    · rename_i hjn
      rw [EdgeSets.get_insert] at hi
      split at hi
      · rename_i hk
        rcases NodeSet.mem_insert.1 hi with rfl | hi
        · exact .inr ⟨hk, rfl, hjn⟩
        · exact .inl ⟨z, hz, hi⟩
      · exact .inl ⟨z, hz, hi⟩
    · exact .inl ⟨z, hz, hi⟩
  · rintro (⟨z, hz, hi⟩ | ⟨rfl, rfl, rfl⟩)
    · refine ⟨_, ⟨z, hz, rfl⟩, ?_⟩
      simp only [linked]
      split
      · rw [EdgeSets.get_insert]
        split
        · exact NodeSet.mem_insert.2 (.inr hi)
        · exact hi
      · exact hi
    · refine ⟨_, ⟨_, List.getElem?_eq_getElem hn, rfl⟩, ?_⟩
      simp only [linked, if_true, EdgeSets.get_insert]
      exact NodeSet.mem_insert.2 (.inl rfl)

include hnodes in
theorem linked_ascending (hg : g.Valid) {x : PdgNode} (hx : x ∈ h.nodes) (k' : EdgeKind) :
    (x.outgoing.get k').Pairwise (· < ·) ∧ (x.incoming.get k').Pairwise (· < ·) := by
  obtain ⟨i, hi⟩ := List.mem_iff_getElem?.1 hx
  rw [hnodes] at hi
  obtain ⟨z, hz, rfl⟩ := Option.map_eq_some_iff.1 hi
  obtain ⟨out, inc⟩ := hg.ascending z (List.mem_of_getElem? hz) k'
  constructor
  · simp only [linked]
    split
    · rw [EdgeSets.get_insert]
      split
      · exact NodeSet.pairwise_insert out
      · exact out
    · exact out
  · simp only [linked]
    split
    · rw [EdgeSets.get_insert]
      split
      · exact NodeSet.pairwise_insert inc
      · exact inc
    · exact inc

end Linked

theorem insertEdge_grows (hg : g.Valid) {c : Bool} {a b : NodeId} (ha : g.idOf? m = some a)
    (hb : g.idOf? n = some b) (hins : g.insertEdge k m n = .ok (c, h)) :
    Grows g h {.edge k a b} := by
  obtain ⟨hm, hn, ⟨-, rfl, hold⟩ | ⟨-, hentry, hreaching, hnodes⟩⟩ := insertEdge_cases hins
  · refine (Grows.refl hg).congr ?_
    rw [Set.union_empty, Set.union_eq_self_of_subset_right]
    rintro f rfl
    refine ⟨m, n, ha, hb, ?_⟩
    rcases hold with hold | hold
    · exact hold
    · exact (hg.mirrored k m n).2 hold
  · have hids := linked_idOf? hnodes
    have hlength := linked_length hnodes
    have same : h.nodes.map (·.id) = g.nodes.map (·.id) := by
      refine List.ext_getElem? ?_
      intro i
      rw [List.getElem?_map, List.getElem?_map]
      exact hids i
    refine ⟨⟨same ▸ hg.ids, ?_, ?_, ?_, ?_, ?_⟩, ?_, ?_, hentry, hreaching⟩
    · intro k' i j
      rw [linked_out hm hnodes, linked_in hn hnodes, hg.mirrored]
    · intro x hx k'
      exact linked_ascending hnodes hg hx k'
    · rw [hentry, hlength]
      exact hg.entry
    · rw [hreaching]
      exact hg.keys
    · rw [hreaching, hlength]
      exact hg.definitions
    · intro i c hi
      rw [hids]
      exact hi
    · ext f
      cases f with
      | node c => simp [Says, hids]
      | reaches v d => cases d <;> simp [Says, hids, hreaching]
      | edge k' c d =>
          simp only [mem_facts, Says, hids, linked_out hm hnodes, Set.mem_union,
            Set.mem_singleton_iff, Fact.edge.injEq]
          constructor
          · rintro ⟨i, j, hi, hj, hout | ⟨rfl, rfl, rfl⟩⟩
            · exact .inl ⟨i, j, hi, hj, hout⟩
            · rw [ha] at hi
              rw [hb] at hj
              injection hi with hi
              injection hj with hj
              exact .inr ⟨rfl, hi.symm, hj.symm⟩
          · rintro (⟨i, j, hi, hj, hout⟩ | ⟨rfl, rfl, rfl⟩)
            · exact ⟨i, j, hi, hj, .inl hout⟩
            · exact ⟨m, n, ha, hb, .inr ⟨rfl, rfl, rfl⟩⟩

theorem addEdge_grows (hg : g.Valid) {a b : NodeId} (ha : g.idOf? m = some a)
    (hb : g.idOf? n = some b) (hadd : g.addEdge k m n = .ok h) : Grows g h {.edge k a b} := by
  obtain ⟨⟨c, h'⟩, hins, rfl⟩ := Success.map_iff.1 hadd
  exact insertEdge_grows hg ha hb hins

theorem insertNewEdge_grows (hg : g.Valid) {a b : NodeId} (ha : g.idOf? m = some a)
    (hb : g.idOf? n = some b) (hadd : g.insertNewEdge k m n = .ok h) :
    Grows g h {.edge k a b} := by
  unfold insertNewEdge at hadd
  split at hadd
  · rename_i h' hins
    injection hadd with hadd
    subst hadd
    exact insertEdge_grows hg ha hb hins
  · split at hadd
    · cases hadd
    · cases hadd
  · cases hadd

end Edge

end Pdg

end DeltaSlice

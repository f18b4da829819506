import DeltaSlice.Proofs.Slices

/-!
The system graph of a record holds the graphs of its transitions and one edge for every chain, and
nothing else. Each operation that builds it adds known nodes and known edges; what the graph holds in
the end is their union. Since every edge is known at both of its ends, a search along the incoming ones
finds all nodes from which listed edges lead to its start, the nearest first.
-/

namespace DeltaSlice

namespace SystemEdge

/-- An edge of the graph that is integrated under a number. -/
def within (number : Int) (e : PdgEdge) : SystemEdge :=
  ⟨e.kind, ⟨number, e.source⟩, ⟨number, e.target⟩⟩

/-- The edge for a chain, from the value after its definition to the value before its use. -/
def along (c : Chain Variable) : SystemEdge :=
  ⟨.data, ⟨c.source, .output c.var⟩, ⟨c.use, .input c.var⟩⟩

end SystemEdge

namespace SystemGraph

/-- An edge by the names of its ends. -/
def Leads (g : SystemGraph) (e : SystemEdge) : Prop :=
  ∃ m n, g.idOf? m = some e.source ∧ g.idOf? n = some e.target ∧ g.Out e.kind m n

/-- The ends of an edge know each other, and no node lists a neighbour twice. -/
structure Mirrored (g : SystemGraph) : Prop where
  mirrored : ∀ k m n, g.Out k m n ↔ g.In k m n
  ascending : ∀ x ∈ g.nodes, ∀ k,
    (x.outgoing.get k).Pairwise (· < ·) ∧ (x.incoming.get k).Pairwise (· < ·)

/-- `h` holds the nodes `is` and the edges `es` besides those of `g`. -/
structure Extends (g h : SystemGraph) (is : Set SystemNodeId) (es : Set SystemEdge) : Prop where
  nodes : ∀ i, i ∈ h.nodeIds ↔ i ∈ g.nodeIds ∨ i ∈ is
  leads : ∀ e, h.Leads e ↔ g.Leads e ∨ e ∈ es
  valid : h.Mirrored

variable {g h : SystemGraph} {i j : SystemNodeId} {e : SystemEdge} {k : EdgeKind} {m n : Nat}
  {number : Int} {p : Pdg} {r : Interleaving}

theorem Mirrored.lt (hg : g.Mirrored) (ho : g.Out k m n) : m < g.nodes.length ∧ n < g.nodes.length := by
  obtain ⟨y, hy, -⟩ := (hg.mirrored k m n).1 ho
  obtain ⟨x, hx, -⟩ := ho
  exact ⟨(List.getElem?_eq_some_iff.1 hx).1, (List.getElem?_eq_some_iff.1 hy).1⟩

section Lists

theorem mem_idsOf {ns : NodeSet} : i ∈ g.idsOf ns ↔ ∃ n ∈ ns, g.idOf? n = some i := by
  simp [idsOf, idOf?]

theorem mem_edges : e ∈ g.edges ↔ g.Leads e := by
  obtain ⟨k, a, b⟩ := e
  unfold edges Leads Out
  simp only [List.mem_flatMap, List.mem_map, mem_idsOf, SystemEdge.mk.injEq, idOf?_eq_some]
  constructor
  · rintro ⟨x, hx, _, -, _, ⟨n, hn, hb⟩, rfl, rfl, rfl⟩
    obtain ⟨m, hm⟩ := List.mem_iff_getElem?.1 hx
    exact ⟨m, n, ⟨x, hm, rfl⟩, hb, x, hm, hn⟩
  · rintro ⟨m, n, ⟨x, hm, rfl⟩, hb, y, hy, hn⟩
    obtain rfl : x = y := Option.some.inj (hm.symm.trans hy)
    exact ⟨x, List.mem_of_getElem? hm, k, EdgeKind.mem_all k, b, ⟨n, hn, hb⟩, rfl, rfl, rfl⟩

theorem nodup_idsOf (ids : g.nodeIds.Nodup) {ns : NodeSet} (ascending : ns.Pairwise (· < ·)) :
    (g.idsOf ns).Nodup := by
  refine List.Nodup.filterMap ?_ (ascending.imp Nat.ne_of_lt)
  exact fun m n i hm hn => idOf?_inj ids hm hn

/-- No edge is listed twice: the list goes by its source, then by its kind, then by its target. -/
theorem nodup_edges (hg : g.Mirrored) (ids : g.nodeIds.Nodup) : g.edges.Nodup := by
  refine List.nodup_flatMap.2 ⟨?_, ?_⟩
  · intro x hx
    refine List.nodup_flatMap.2 ⟨?_, ?_⟩
    · intro k _
      refine (nodup_idsOf ids (hg.ascending x hx k).1).map ?_
      intro a b hab
      exact (SystemEdge.mk.inj hab).2.2
    · refine List.Pairwise.imp ?_ (by decide : EdgeKind.all.Pairwise (· ≠ ·))
      intro k k' hk e he he'
      obtain ⟨a, -, rfl⟩ := List.mem_map.1 he
      obtain ⟨b, -, heq⟩ := List.mem_map.1 he'
      exact hk (SystemEdge.mk.inj heq).1.symm
  · refine List.Pairwise.imp ?_ (List.pairwise_map.1 ids)
    intro x y hxy e he he'
    obtain ⟨k, -, hk⟩ := List.mem_flatMap.1 he
    obtain ⟨k', -, hk'⟩ := List.mem_flatMap.1 he'
    obtain ⟨a, -, rfl⟩ := List.mem_map.1 hk
    obtain ⟨b, -, heq⟩ := List.mem_map.1 hk'
    exact hxy (SystemEdge.mk.inj heq).2.1.symm

theorem edgesAt_eq {x : SystemNode} (hfind : g.find? i = some n) (hx : g.nodes[n]? = some x) :
    g.edgesAt i = .ok
      (EdgeKind.all.flatMap fun k => (g.idsOf (x.incoming.get k)).map fun a => ⟨k, a, i⟩,
        EdgeKind.all.flatMap fun k => (g.idsOf (x.outgoing.get k)).map fun b => ⟨k, i, b⟩) := by
  simp [edgesAt, lookup, hfind, hx, bind, Except.bind, pure, Except.pure]

/-- The edges at a node are those that the whole list has there. -/
theorem edgesAt_of_mem (hg : g.Mirrored) (ids : g.nodeIds.Nodup) (hi : i ∈ g.nodeIds) :
    ∃ ins outs, g.edgesAt i = .ok (ins, outs) ∧ (∀ e, e ∈ ins ↔ e ∈ g.edges ∧ e.target = i) ∧
      ∀ e, e ∈ outs ↔ e ∈ g.edges ∧ e.source = i := by
  obtain ⟨n, hfind, hn⟩ := find?_of_mem hi
  obtain ⟨x, hx, -⟩ := idOf?_eq_some.1 hn
  refine ⟨_, _, edgesAt_eq hfind hx, ?_, ?_⟩
  · rintro ⟨k, a, b⟩
    rw [mem_edges]
    simp only [List.mem_flatMap, List.mem_map, mem_idsOf, SystemEdge.mk.injEq]
    constructor
    · rintro ⟨_, -, _, ⟨m, hm, ha⟩, rfl, rfl, rfl⟩
      exact ⟨⟨m, n, ha, hn, (hg.mirrored _ m n).2 ⟨x, hx, hm⟩⟩, rfl⟩
    · rintro ⟨⟨m, l, ha, hb, ho⟩, rfl⟩
      obtain rfl := idOf?_inj ids hb hn
      obtain ⟨y, hy, hm⟩ := (hg.mirrored k m l).1 ho
      obtain rfl : x = y := Option.some.inj (hx.symm.trans hy)
      exact ⟨k, EdgeKind.mem_all k, a, ⟨m, hm, ha⟩, rfl, rfl, rfl⟩
  · rintro ⟨k, a, b⟩
    rw [mem_edges]
    simp only [List.mem_flatMap, List.mem_map, mem_idsOf, SystemEdge.mk.injEq]
    constructor
    · rintro ⟨_, -, _, ⟨m, hm, hb⟩, rfl, rfl, rfl⟩
      exact ⟨⟨n, m, hn, hb, x, hx, hm⟩, rfl⟩
    · rintro ⟨⟨l, m, ha, hb, y, hy, hm⟩, rfl⟩
      obtain rfl := idOf?_inj ids ha hn
      obtain rfl : x = y := Option.some.inj (hx.symm.trans hy)
      exact ⟨k, EdgeKind.mem_all k, b, ⟨m, hm, hb⟩, rfl, rfl, rfl⟩

end Lists

namespace Extends

variable {l : SystemGraph} {is js : Set SystemNodeId} {es fs : Set SystemEdge}

theorem refl (hg : g.Mirrored) : Extends g g ∅ ∅ := ⟨by simp, by simp, hg⟩

theorem trans (hgh : Extends g h is es) (hhl : Extends h l js fs) : Extends g l (is ∪ js) (es ∪ fs) where
  nodes i := by rw [hhl.nodes, hgh.nodes, or_assoc, Set.mem_union]
  leads e := by rw [hhl.leads, hgh.leads, or_assoc, Set.mem_union]
  valid := hhl.valid

theorem congr (hgh : Extends g h is es) (nodes : is = js) (edges : es = fs) : Extends g h js fs :=
  nodes ▸ edges ▸ hgh

end Extends

theorem push_extends (hg : g.Mirrored) : Extends g (g.push i) {i} ∅ where
  nodes j := by simp [push_nodeIds]
  leads e := by
    unfold Leads
    simp only [push_out, Set.mem_empty_iff_false, or_false]
    have old : ∀ {n}, n < g.nodes.length → (g.push i).idOf? n = g.idOf? n := by
      intro n hn
      simp [push, idOf?, List.getElem?_append_left hn]
    constructor
    · rintro ⟨m, n, ha, hb, ho⟩
      obtain ⟨hm, hn⟩ := hg.lt ho
      exact ⟨m, n, old hm ▸ ha, old hn ▸ hb, ho⟩
    · rintro ⟨m, n, ha, hb, ho⟩
      obtain ⟨hm, hn⟩ := hg.lt ho
      exact ⟨m, n, (old hm).trans ha, (old hn).trans hb, ho⟩
  valid :=
    { mirrored := fun k m n => by rw [push_out, push_in, hg.mirrored]
      ascending := by
        intro x hx k
        rcases List.mem_append.1 hx with hx | hx
        · exact hg.ascending x hx k
        · rw [List.mem_singleton.1 hx]
          cases k <;> exact ⟨.nil, .nil⟩ }

theorem linked_ascending (hg : g.Mirrored)
    (hnodes : ∀ i : Nat, h.nodes[i]? = (g.nodes[i]?).map (linked k m n i)) {x : SystemNode}
    (hx : x ∈ h.nodes) (k' : EdgeKind) :
    (x.outgoing.get k').Pairwise (· < ·) ∧ (x.incoming.get k').Pairwise (· < ·) := by
  obtain ⟨i, hi⟩ := List.mem_iff_getElem?.1 hx
  rw [hnodes] at hi
  obtain ⟨z, hz, rfl⟩ := Option.map_eq_some_iff.1 hi
  have inserted : ∀ (s : EdgeSets) (l : Nat), (s.get k').Pairwise (· < ·) →
      ((s.insert k l).get k').Pairwise (· < ·) := by
    intro s l hs
    rw [Pdg.EdgeSets.get_insert]
    split
    · rename_i hk
      exact NodeSet.pairwise_insert (hk ▸ hs)
    · exact hs
  obtain ⟨out, inc⟩ := hg.ascending z (List.mem_of_getElem? hz) k'
  constructor
  · simp only [linked]
    split
    · exact inserted _ _ out
    · exact out
  · simp only [linked]
    split
    · exact inserted _ _ inc
    · exact inc

theorem insert_extends (hg : g.Mirrored) (hm : g.idOf? m = some i) (hn : g.idOf? n = some j) :
    Extends g (g.insert k m n).2 ∅ {⟨k, i, j⟩} := by
  rcases insert_cases (k := k) (n := n) (idOf?_lt hm) with ⟨present, same⟩ | ⟨-, hnodes⟩
  · rw [same]
    refine ⟨by simp, fun e => ⟨.inl, ?_⟩, hg⟩
    rintro (he | rfl)
    · exact he
    · exact ⟨m, n, hm, hn, present⟩
  · refine ⟨?_, ?_, ?_, ?_⟩
    · simp [linked_nodeIds hnodes]
    · rintro ⟨k', a, b⟩
      simp only [Leads, linked_idOf? hnodes, linked_out hnodes (idOf?_lt hm), Set.mem_singleton_iff,
        SystemEdge.mk.injEq]
      constructor
      · rintro ⟨m', n', ha, hb, ho | ⟨rfl, rfl, rfl⟩⟩
        · exact .inl ⟨m', n', ha, hb, ho⟩
        · exact .inr ⟨rfl, Option.some.inj (ha.symm.trans hm), Option.some.inj (hb.symm.trans hn)⟩
      · rintro (⟨m', n', ha, hb, ho⟩ | ⟨rfl, rfl, rfl⟩)
        · exact ⟨m', n', ha, hb, .inl ho⟩
        · exact ⟨m, n, hm, hn, .inr ⟨rfl, rfl, rfl⟩⟩
    · intro k' a b
      rw [linked_out hnodes (idOf?_lt hm), linked_in hnodes (idOf?_lt hn), hg.mirrored]
    · exact fun x hx k' => linked_ascending hg hnodes hx k'

theorem addNodes_extends {is : List NodeId} (hg : g.Mirrored) (hadd : addNodes number g is = .ok h) :
    Extends g h {i | ∃ a ∈ is, i = ⟨number, a⟩} ∅ := by
  induction is generalizing g with
  | nil =>
      obtain rfl : g = h := by simpa [addNodes] using hadd
      exact (Extends.refl hg).congr (by simp) rfl
  | cons a is ih =>
      rw [addNodes] at hadd
      split at hadd
      · cases hadd
      · have first : Extends g (g.push ⟨number, a⟩) {⟨number, a⟩} ∅ := push_extends hg
        refine (first.trans (ih first.valid hadd)).congr ?_ (by simp)
        ext i
        simp

theorem copyEdges_extends {es : List PdgEdge} (hg : g.Mirrored)
    (ends : ∀ e ∈ es, ⟨number, e.source⟩ ∈ g.nodeIds ∧ ⟨number, e.target⟩ ∈ g.nodeIds) :
    Extends g (g.copyEdges number es) ∅ {e | ∃ f ∈ es, e = .within number f} := by
  induction es generalizing g with
  | nil => exact (Extends.refl hg).congr rfl (by simp)
  | cons f es ih =>
      obtain ⟨hsource, htarget⟩ := ends f (by simp)
      obtain ⟨m, hm, hmi⟩ := find?_of_mem hsource
      obtain ⟨n, hn, hni⟩ := find?_of_mem htarget
      have added := insert_extends (k := f.kind) hg hmi hni
      have first : g.copyEdges number (f :: es) = (g.insert f.kind m n).2.copyEdges number es := by
        simp [copyEdges, hm, hn]
      have rest := ih added.valid fun e he => by
        simp only [added.nodes]
        exact ⟨.inl (ends e (by simp [he])).1, .inl (ends e (by simp [he])).2⟩
      rw [first]
      refine (added.trans rest).congr (by simp) ?_
      ext e
      simp [SystemEdge.within]

theorem integrate_extends (hg : g.Mirrored) (hint : g.integrate number p = .ok h) :
    Extends g h {i | ∃ a ∈ p.nodeIds, i = ⟨number, a⟩} {e | ∃ f ∈ p.edges, e = .within number f} := by
  unfold integrate at hint
  split at hint
  · cases hint
  · obtain ⟨l, hl, rfl⟩ := Success.map_iff.1 hint
    -- Noting the graph under its number leaves the nodes as they are.
    have noted : Mirrored { g with graphs := g.graphs.insert number p } := ⟨hg.mirrored, hg.ascending⟩
    have added := addNodes_extends noted hl
    have start : Extends g l {i | ∃ a ∈ p.nodeIds, i = ⟨number, a⟩} ∅ :=
      ⟨added.nodes, added.leads, added.valid⟩
    have copied : Extends l (l.copyEdges number p.edges) ∅ {e | ∃ f ∈ p.edges, e = .within number f} := by
      refine copyEdges_extends start.valid fun e he => ?_
      obtain ⟨source, target⟩ := Pdg.has_of_mem_edges he
      exact ⟨(start.nodes _).2 (.inr ⟨_, source, rfl⟩), (start.nodes _).2 (.inr ⟨_, target, rfl⟩)⟩
    exact (start.trans copied).congr (by simp) (by simp)

theorem integrateAll_extends {ns : List Nat} (hg : g.Mirrored) (hint : integrateAll r g ns = .ok h) :
    Extends g h {i | ∃ n ∈ ns, ∃ p, r.pdg? n = some p ∧ ∃ a ∈ p.nodeIds, i = ⟨n, a⟩}
      {e | ∃ n ∈ ns, ∃ p, r.pdg? n = some p ∧ ∃ f ∈ p.edges, e = .within n f} := by
  induction ns generalizing g with
  | nil =>
      obtain rfl : g = h := by simpa [integrateAll] using hint
      exact (Extends.refl hg).congr (by simp) (by simp)
  | cons n ns ih =>
      rw [integrateAll] at hint
      cases hp : r.pdg? n with
      | none =>
          rw [hp] at hint
          exact (ih hg hint).congr (by simp [hp]) (by simp [hp])
      | some p =>
          cases hl : g.integrate n p with
          | error f => simp [hp, hl] at hint
          | ok l =>
              simp only [hp, hl] at hint
              have first := integrate_extends hg hl
              refine (first.trans (ih first.valid hint)).congr ?_ ?_
              · ext i
                simp [hp]
              · ext e
                simp [hp]

theorem connectAll_extends {cs : List (Chain Variable)} (hg : g.Mirrored)
    (hconnect : connectAll g cs = .ok h) : Extends g h ∅ {e | ∃ c ∈ cs, e = .along c} := by
  induction cs generalizing g with
  | nil =>
      obtain rfl : g = h := by simpa [connectAll] using hconnect
      exact (Extends.refl hg).congr rfl (by simp)
  | cons c cs ih =>
      rw [connectAll] at hconnect
      split at hconnect
      · rename_i new l hadd
        simp only [addEdge, Success.bind_iff] at hadd
        obtain ⟨m, hm, n, hn, hadd⟩ := hadd
        have named : ∀ {i : SystemNodeId} {n}, g.lookup "AddEdge" i = .ok n → g.idOf? n = some i := by
          intro i n hlookup
          unfold lookup at hlookup
          split at hlookup
          · rename_i hfind
            cases hlookup
            exact find?_idOf? hfind
          · cases hlookup
        obtain rfl : (g.insert .data m n).2 = l := congrArg Prod.snd (Except.ok.inj hadd)
        have first := insert_extends (k := .data) hg (named hm) (named hn)
        refine (first.trans (ih first.valid hconnect)).congr (by simp) ?_
        ext e
        simp [SystemEdge.along]
      · cases hconnect

end SystemGraph

section Views

/-- Without read and write conditions, the first part that knows accesses is the first graph. -/
theorem Info.accesses?_eq {info : Info} (h : info.readWrite? = Option.none) :
    info.accesses? = info.pdg?.map .ofPdg := by
  induction info with
  | none | pdg _ => rfl
  | readWrite _ => cases h
  | pair a b iha ihb =>
      simp only [readWrite?, Option.or_eq_none_iff] at h
      rw [accesses?, pdg?, iha h.1, ihb h.2]
      cases a.pdg? <;> rfl

theorem Interleaving.pdgFlow_eq_flow {r : Interleaving}
    (h : ∀ n x info, r.node? n = some x → x.info = some info → info.readWrite? = none) :
    r.pdgFlow = r.flow := by
  unfold pdgFlow flow
  congr 1
  funext n
  unfold pdg? accesses
  cases hx : r.node? n with
  | none => rfl
  | some x =>
      cases hi : x.info with
      | none => simp [hi]
      | some info => simp [hi, Info.accesses?_eq (h n x info hx hi)]

end Views

namespace SystemGraph

theorem empty_mirrored : Mirrored empty := ⟨by simp [Out, In, empty], by simp [empty]⟩

/-- The graph of a record is built, and it holds what the record holds: the nodes and the edges of the
graph of each transition under the number of the transition, and one edge for every chain. -/
theorem build_exact {r : Interleaving} (recorded : r.Recorded) :
    ∃ g chains, build r = .ok (g, chains) ∧ chains = r.pdgFlow.followChains Variable.text ∧
      g.nodeIds.Nodup ∧ g.edges.Nodup ∧
      (∀ i, i ∈ g.nodeIds ↔ ∃ n p, r.pdg? n = some p ∧ ∃ a ∈ p.nodeIds, i = ⟨n, a⟩) ∧
      (∀ e, e ∈ g.edges ↔ (∃ n p, r.pdg? n = some p ∧ ∃ f ∈ p.edges, e = .within n f) ∨
        ∃ c ∈ chains, e = .along c) ∧
      (∀ i ∈ g.nodeIds, ∃ ins outs, g.edgesAt i = .ok (ins, outs) ∧
        (∀ e, e ∈ ins ↔ e ∈ g.edges ∧ e.target = i) ∧
        ∀ e, e ∈ outs ↔ e ∈ g.edges ∧ e.source = i) ∧
      ((∀ n x info, r.node? n = some x → x.info = some info → info.readWrite? = none) →
        r.pdgFlow = r.flow) := by
  obtain ⟨g, chains, hbuild, assembled⟩ := build_assembles recorded
  have steps := hbuild
  simp only [build, Success.bind_iff] at steps
  obtain ⟨l, hl, h, hh, heq⟩ := steps
  obtain ⟨rfl, hchains⟩ : h = g ∧ r.pdgFlow.followChains Variable.text = chains := by
    simpa [pure, Except.pure] using heq
  rw [hchains] at hh
  have integrated := integrateAll_extends empty_mirrored hl
  have all := integrated.trans (connectAll_extends integrated.valid hh)
  have inside : ∀ {n p}, r.pdg? n = some p → n ∈ List.range r.size := by
    intro n p hp
    obtain ⟨x, info, hx, -, -⟩ := Interleaving.pdg?_eq_some.1 hp
    exact List.mem_range.2 (Interleaving.node?_lt hx)
  refine ⟨h, chains, hbuild, assembled.chains, assembled.valid.ids,
    nodup_edges all.valid assembled.valid.ids, ?_, ?_,
    fun i hi => edgesAt_of_mem all.valid assembled.valid.ids hi, Interleaving.pdgFlow_eq_flow⟩
  · intro i
    rw [all.nodes]
    constructor
    · rintro (hi | ⟨n, -, p, hp, ha⟩ | hi)
      · simp [empty, nodeIds] at hi
      · exact ⟨n, p, hp, ha⟩
      · cases hi
    · rintro ⟨n, p, hp, ha⟩
      exact .inr (.inl ⟨n, inside hp, p, hp, ha⟩)
  · intro e
    rw [mem_edges, all.leads]
    constructor
    · rintro (⟨m, n, -, -, x, hx, -⟩ | ⟨n, -, p, hp, hf⟩ | hc)
      · simp [empty] at hx
      · exact .inl ⟨n, p, hp, hf⟩
      · exact .inr hc
    · rintro (⟨n, p, hp, hf⟩ | hc)
      · exact .inr (.inl ⟨n, inside hp, p, hp, hf⟩)
      · exact .inr (.inr hc)

end SystemGraph

namespace Examples

/-- Like `tank`, with nothing learned about one of two ways back, and with what was learned about the
other transitions in pairs: the tank is filled first, and measured next to nothing. -/
def pairedTank : Except Fault Interleaving := do
  let fill ← (filling false).finalize
  let measure ← measuring.finalize
  let (_, _, r) ← (Interleaving.start idle).add idle
    (.start busy (.pair .none (.pair (.pdg fill) (.pdg measure))) none none)
  let (_, _, r) ← r.add busy (.start idle (.pair (.pair .none (.pdg measure)) .none) none none)
  let (_, _, r) ← r.add busy (.start idle .none none none)
  pure r

theorem pairedTank_recorded {r : Interleaving} (h : pairedTank = .ok r) : r.Recorded := by
  unfold pairedTank at h
  simp only [Success.bind_iff] at h
  obtain ⟨fill, hfill, measure, hmeasure, ⟨_, _, r₁⟩, h₁, ⟨_, _, r₂⟩, h₂, ⟨_, _, r₃⟩, h₃, h⟩ := h
  obtain rfl : r₃ = r := by simpa [pure, Except.pure] using h
  have filled : fill.Finalized := ⟨_, lone_valid (by simp) (by simp), hfill⟩
  have measured : measure.Finalized := ⟨_, lone_valid (by simp) (by simp), hmeasure⟩
  have first : r₁.Recorded := by
    refine (Interleaving.Recorded.start idle).add (fun p hp => ?_) h₁
    obtain rfl : fill = p := by simpa [Transition.start, Info.pdg?] using hp
    exact filled
  have second : r₂.Recorded := by
    refine first.add (fun p hp => ?_) h₂
    obtain rfl : measure = p := by simpa [Transition.start, Info.pdg?] using hp
    exact measured
  exact second.add (fun p hp => by cases hp) h₃

end Examples

open Examples in
theorem build_exact_pairedTank : ∃ r g chains, r.Recorded ∧ SystemGraph.build r = .ok (g, chains) ∧
    chains = [⟨1, level, 2⟩] ∧ g.nodeIds.Nodup ∧ g.edges.Nodup ∧
    (∀ i, i ∈ g.nodeIds ↔ ∃ n p, r.pdg? n = some p ∧ ∃ a ∈ p.nodeIds, i = ⟨n, a⟩) ∧
    ∀ e, e ∈ g.edges ↔ (∃ n p, r.pdg? n = some p ∧ ∃ f ∈ p.edges, e = .within n f) ∨
      e = .along ⟨1, level, 2⟩ := by
  obtain ⟨r, hr, h⟩ := Success.exists_of_yields (x := pairedTank) (c := fun r =>
    r.pdgFlow.followChains Variable.text == [⟨1, level, 2⟩]) (by decide +kernel)
  obtain ⟨g, chains, hbuild, hchains, ids, nodup, nodes, edges, -⟩ :=
    SystemGraph.build_exact (pairedTank_recorded hr)
  obtain rfl : chains = [⟨1, level, 2⟩] := hchains.trans (by simpa using h)
  refine ⟨r, g, _, pairedTank_recorded hr, hbuild, rfl, ids, nodup, nodes, fun e => ?_⟩
  rw [edges]
  simp

namespace SystemGraph

variable {g h : SystemGraph} {i j : SystemNodeId} {e : SystemEdge} {k : EdgeKind} {m n : Nat}
  {number : Int} {p : Pdg} {r : Interleaving}

/-- A call that adds to a system graph. -/
inductive Addition
  | graph (number : Int) (p : Pdg)
  | edge (k : EdgeKind) (source target : SystemNodeId)

/-- Makes an addition. An edge between nodes of which one is not there is refused. -/
def addition (g : SystemGraph) : Addition → Except Fault SystemGraph
  | .graph number p => g.integrate number p
  | .edge k source target =>
    match g.addEdge k source target with
    | .ok (_, h) => .ok h
    | .error _ => .ok g

/-- Makes additions one after the other. -/
def additions (g : SystemGraph) (as : List Addition) : Except Fault SystemGraph := as.foldlM addition g

/-- A listed edge of any kind, by the names of its ends. -/
def Listed (g : SystemGraph) (a b : SystemNodeId) : Prop := ∃ e ∈ g.edges, e.source = a ∧ e.target = b

/-- A graph in which a node is found by its name and an edge from both of its ends. -/
structure Sound (g : SystemGraph) : Prop where
  ids : g.nodeIds.Nodup
  mirrored : g.Mirrored

section Additions

theorem nodeIds_insert : (g.insert k m n).2.nodeIds = g.nodeIds := by
  by_cases hm : m < g.nodes.length
  · rcases insert_cases (k := k) (n := n) hm with ⟨-, same⟩ | ⟨-, hnodes⟩
    · rw [same]
    · exact linked_nodeIds hnodes
  · simp [insert, List.getElem?_eq_none (Nat.not_lt.1 hm)]

theorem nodeIds_copyEdges {es : List PdgEdge} : (g.copyEdges number es).nodeIds = g.nodeIds := by
  induction es generalizing g with
  | nil => rfl
  | cons e es ih =>
      rw [copyEdges, List.foldl_cons]
      refine ih.trans ?_
      split
      · exact nodeIds_insert
      · rfl

theorem addNodes_nodup {is : List NodeId} (ids : g.nodeIds.Nodup) (hadd : addNodes number g is = .ok h) :
    h.nodeIds.Nodup := by
  induction is generalizing g with
  | nil =>
      obtain rfl : g = h := by simpa [addNodes] using hadd
      exact ids
  | cons a is ih =>
      rw [addNodes] at hadd
      split at hadd
      · cases hadd
      · rename_i absent
        refine ih (g := g.push ⟨number, a⟩) ?_ hadd
        rw [push_nodeIds]
        refine List.nodup_append.2 ⟨ids, by simp, fun b hb c hc hbc => absent (has_iff.2 ?_)⟩
        rwa [← List.mem_singleton.1 hc, ← hbc]

theorem Sound.integrate (hg : g.Sound) (hint : g.integrate number p = .ok h) : h.Sound := by
  refine ⟨?_, (integrate_extends hg.mirrored hint).valid⟩
  unfold SystemGraph.integrate at hint
  split at hint
  · cases hint
  · obtain ⟨l, hl, rfl⟩ := Success.map_iff.1 hint
    have added : l.nodeIds.Nodup := addNodes_nodup (g := { g with graphs := g.graphs.insert number p }) hg.ids hl
    change (l.copyEdges number p.edges).nodeIds.Nodup
    rw [nodeIds_copyEdges]
    exact added

theorem lookup_of_mem (operation : String) (hi : i ∈ g.nodeIds) :
    ∃ n, g.lookup operation i = .ok n ∧ g.idOf? n = some i := by
  obtain ⟨n, hfind, hn⟩ := find?_of_mem hi
  exact ⟨n, by rw [lookup, hfind], hn⟩

theorem lookup_of_not_mem {operation : String} (hi : i ∉ g.nodeIds) :
    g.lookup operation i = .error (.mismatch operation ("no node " ++ i.text)) := by
  have absent : g.find? i = none := by
    rw [← Option.not_isSome_iff_eq_none]
    exact fun there => hi (has_iff.1 there)
  rw [lookup, absent]

/-- Adding an edge fails if one of its ends is not there, and then nothing is added. -/
theorem addEdge_refused (absent : i ∉ g.nodeIds ∨ j ∉ g.nodeIds) :
    ∃ detail, g.addEdge k i j = .error (.mismatch "AddEdge" detail) := by
  unfold addEdge
  by_cases hi : i ∈ g.nodeIds
  · obtain ⟨n, hn, -⟩ := lookup_of_mem "AddEdge" hi
    rw [hn, lookup_of_not_mem (absent.resolve_left (not_not.2 hi))]
    exact ⟨_, rfl⟩
  · rw [lookup_of_not_mem hi]
    exact ⟨_, rfl⟩

theorem Sound.addEdge (hg : g.Sound) {new : Bool} (hadd : g.addEdge k i j = .ok (new, h)) : h.Sound := by
  by_cases ends : i ∈ g.nodeIds ∧ j ∈ g.nodeIds
  · obtain ⟨m, hm, hmi⟩ := lookup_of_mem "AddEdge" ends.1
    obtain ⟨n, hn, hnj⟩ := lookup_of_mem "AddEdge" ends.2
    have same : g.insert k m n = (new, h) := by
      simpa [SystemGraph.addEdge, hm, hn, bind, Except.bind, pure, Except.pure] using hadd
    obtain rfl : (g.insert k m n).2 = h := congrArg Prod.snd same
    refine ⟨?_, (insert_extends hg.mirrored hmi hnj).valid⟩
    rw [nodeIds_insert]
    exact hg.ids
  · obtain ⟨detail, refused⟩ := addEdge_refused (k := k) (not_and_or.1 ends)
    rw [hadd] at refused
    cases refused

theorem Sound.addition (hg : g.Sound) {a : Addition} (hadd : g.addition a = .ok h) : h.Sound := by
  cases a with
  | graph number p => exact hg.integrate hadd
  | edge k i j =>
      rw [SystemGraph.addition] at hadd
      split at hadd
      · rename_i added
        obtain rfl := Except.ok.inj hadd
        exact hg.addEdge added
      · obtain rfl := Except.ok.inj hadd
        exact hg

theorem Sound.additions (hg : g.Sound) {as : List Addition} (hadd : g.additions as = .ok h) : h.Sound :=
  Success.foldlM_induction (fun _ g => g.Sound) hg (fun _ _ _ _ sound _ hadd => sound.addition hadd) hadd

end Additions

section Slice

theorem Listed.named (h : g.Listed i j) : ∃ m n, g.idOf? m = some i ∧ g.idOf? n = some j := by
  obtain ⟨e, he, rfl, rfl⟩ := h
  obtain ⟨m, n, hm, hn, -⟩ := mem_edges.1 he
  exact ⟨m, n, hm, hn⟩

variable (hg : g.Sound)

include hg in
/-- The nodes above a node are those from which a listed edge leads to it. -/
theorem Sound.mem_above (hn : g.idOf? n = some i) :
    m ∈ g.above n ↔ ∃ j, g.idOf? m = some j ∧ g.Listed j i := by
  rw [SystemGraph.mem_above]
  constructor
  · rintro ⟨k, hin⟩
    obtain ⟨x, hx, hout⟩ := (hg.mirrored.mirrored k m n).2 hin
    have hm : g.idOf? m = some x.id := idOf?_eq_some.2 ⟨x, hx, rfl⟩
    exact ⟨x.id, hm, ⟨k, x.id, i⟩, mem_edges.2 ⟨m, n, hm, hn, x, hx, hout⟩, rfl, rfl⟩
  · rintro ⟨j, hm, e, he, rfl, rfl⟩
    obtain ⟨m', n', hm', hn', hout⟩ := mem_edges.1 he
    obtain rfl := idOf?_inj hg.ids hm hm'
    obtain rfl := idOf?_inj hg.ids hn hn'
    exact ⟨e.kind, (hg.mirrored.mirrored _ _ _).1 hout⟩

/-- How far a node is from the start of a slice. -/
noncomputable def level (g : SystemGraph) (i : SystemNodeId) (n : Nat) : Nat :=
  ((g.idOf? n).map fun j => distance g.Listed j i).getD 0

/-- A node from which listed edges lead to the start of a slice. -/
def Leading (g : SystemGraph) (i : SystemNodeId) (n : Nat) : Prop :=
  ∃ j, g.idOf? n = some j ∧ Relation.ReflTransGen g.Listed j i

theorem level_eq (hn : g.idOf? n = some j) : g.level i n = distance g.Listed j i := by
  rw [level, hn, Option.map_some, Option.getD_some]

include hg in
theorem Sound.levels : Levels g.above (g.level i) (g.Leading i) where
  after := by
    rintro x ⟨a, hx, path⟩ y hy
    obtain ⟨b, hy, listed⟩ := (hg.mem_above hx).1 hy
    refine ⟨⟨b, hy, .head listed path⟩, ?_⟩
    rw [level_eq hx, level_eq hy]
    exact distance_le_succ listed path
  before := by
    rintro y ⟨b, hy, path⟩ away
    rw [level_eq hy] at away ⊢
    obtain ⟨a, listed, path, one⟩ := exists_next_of_distance path away
    obtain ⟨-, x, -, hx⟩ := listed.named
    refine ⟨x, ⟨a, hx, path⟩, (hg.mem_above hx).2 ⟨b, hy, listed⟩, ?_⟩
    rw [one, level_eq hx]

include hg in
/-- At the start of a slice its first node waits, and all others are further away. -/
theorem Sound.layered (hn : g.idOf? n = some i) : Layered (g.level i) (g.Leading i) [n] [n] where
  met := by
    intro y hy
    exact List.mem_singleton.1 hy ▸ ⟨i, hn, .refl⟩
  sorted := by simp
  near := by
    rintro _ _ ⟨⟩ y hy
    rw [List.mem_singleton.1 hy]
    exact Nat.le_succ _
  far := by
    rintro _ _ ⟨⟩ y ⟨j, hj, path⟩ hy
    rw [level_eq hn, level_eq hj, (Steps.refl i).distance_le.antisymm (Nat.zero_le _)]
    refine Nat.pos_of_ne_zero fun none => ?_
    have here := steps_distance path
    rw [none] at here
    cases here
    exact hy (List.mem_singleton.2 (idOf?_inj hg.ids hj hn))

include hg in
/-- The search upwards from a node meets those from which listed edges lead to it. -/
theorem Sound.reaches_iff (hn : g.idOf? n = some i) :
    Relation.ReflTransGen (fun a b => b ∈ g.above a) n m ↔ g.Leading i m := by
  constructor
  · intro path
    induction path with
    | refl => exact ⟨i, hn, .refl⟩
    | tail _ above ih => exact (hg.levels.after _ ih _ above).1
  · rintro ⟨j, hm, path⟩
    induction path using Relation.ReflTransGen.head_induction_on generalizing m with
    | refl => exact idOf?_inj hg.ids hn hm ▸ .refl
    | @head j b listed _ ih =>
        obtain ⟨-, l, -, hl⟩ := listed.named
        exact (ih hl).tail ((hg.mem_above hl).2 ⟨j, hm, listed⟩)

/-- The slice of a node is the search upwards from its number. -/
theorem slice_eq (hfind : g.find? i = some n) :
    g.slice i = .ok (g.idsOf (search g.above (· ++ ·) (g.nodes.length + 1) [n] [n])) := by
  rw [slice, lookup, hfind, ← sliceFrom_eq]
  rfl

include hg in
/-- The slice of a node is complete, has no node twice, and goes by the distance to the node. -/
theorem Sound.slice (hi : i ∈ g.nodeIds) : ∃ n ns slice, g.find? i = some n ∧
    SearchMeets g.above (· ++ ·) [n] [n] ns ∧ slice = g.idsOf ns ∧ g.slice i = .ok slice ∧ slice.Nodup ∧
    slice.head? = some i ∧ (∀ j, j ∈ slice ↔ Relation.ReflTransGen g.Listed j i) ∧
    slice.Pairwise fun a b => distance g.Listed a i ≤ distance g.Listed b i := by
  obtain ⟨n, hfind, hn⟩ := find?_of_mem hi
  have joins : ∀ a b : List Nat, (a ++ b).Nodup → (a ++ b).Perm (a ++ b) := fun _ _ _ => .refl _
  have within : ∀ x < g.nodes.length, ∀ y ∈ g.above x, y < g.nodes.length := by
    intro x hx y hy
    obtain ⟨j, hj, -⟩ := (hg.mem_above (i := g.nodes[x].id) (by simp [idOf?, hx])).1 hy
    exact idOf?_lt hj
  have inside : ∀ x ∈ [n], x < g.nodes.length := by simpa using idOf?_lt hn
  have start : Searching g.above g.nodes.length [n] [n] := .start (.refl _) (by simp) inside
  have meets : SearchMeets g.above (· ++ ·) [n] [n] (search g.above (· ++ ·) (g.nodes.length + 1) [n] [n]) :=
    start.meets joins within (by simp)
  have nodup : (search g.above (· ++ ·) (g.nodes.length + 1) [n] [n]).Nodup := (start.nodup_search within joins).1
  have order : (search g.above (· ++ ·) (g.nodes.length + 1) [n] [n]).Pairwise
      (fun x y => g.level i x ≤ g.level i y) := ((hg.layered hn).search within hg.levels start).1
  refine ⟨n, _, _, hfind, meets, rfl, slice_eq hfind, ?_, ?_, fun j => ?_, ?_⟩
  · exact nodup.filterMap fun a b j ha hb => idOf?_inj hg.ids ha hb
  · have first : ∀ ns, (g.idsOf (n :: ns)).head? = some i := fun ns =>
      congrArg List.head? (List.filterMap_cons_some (f := g.idOf?) hn)
    exact first _
  · rw [mem_idsOf]
    constructor
    · rintro ⟨m, hm, hj⟩
      obtain ⟨x, hx, path⟩ := reaches_of_mem_search (fun a b x hx => List.mem_append.1 hx) hm
      rw [List.mem_singleton.1 hx] at path
      obtain ⟨j', hj', leads⟩ := (hg.reaches_iff hn).1 path
      rwa [Option.some.inj (hj.symm.trans hj')]
    · intro leads
      obtain ⟨m, hm⟩ : ∃ m, g.idOf? m = some j := by
        cases leads using Relation.ReflTransGen.head_induction_on with
        | refl => exact ⟨n, hn⟩
        | head listed _ =>
            obtain ⟨m, -, hm, -⟩ := listed.named
            exact ⟨m, hm⟩
      exact ⟨m, mem_search_of_reaches joins within (.refl _) (by simp) inside (Nat.lt_succ_self _)
        (by simp) ((hg.reaches_iff hn).2 ⟨j, hm, leads⟩), hm⟩
  · rw [idsOf, List.pairwise_filterMap]
    refine order.imp fun le a ha b hb => ?_
    rwa [← level_eq ha, ← level_eq hb]

end Slice

/-- However a system graph was put together, the slice of a node is complete, goes by the distance to the node
and names each node once; other names have no slice. -/
theorem slice_exact {as : List Addition} (h : empty.additions as = .ok g) :
    (∀ i ∈ g.nodeIds, ∃ n ns slice, g.find? i = some n ∧ SearchMeets g.above (· ++ ·) [n] [n] ns ∧
      slice = g.idsOf ns ∧ g.slice i = .ok slice ∧ slice.Nodup ∧ slice.head? = some i ∧
      (∀ j, j ∈ slice ↔ Relation.ReflTransGen g.Listed j i) ∧
      slice.Pairwise fun a b => distance g.Listed a i ≤ distance g.Listed b i) ∧
    (∀ i, i ∉ g.nodeIds → g.slice i = .error (.mismatch "BackwardsSlice" ("no node " ++ i.text))) ∧
    ∀ k i j, i ∉ g.nodeIds ∨ j ∉ g.nodeIds →
      (∃ detail, g.addEdge k i j = .error (.mismatch "AddEdge" detail)) ∧ g.addition (.edge k i j) = .ok g := by
  have sound : g.Sound := Sound.additions ⟨by simp [empty, nodeIds], empty_mirrored⟩ h
  refine ⟨fun i hi => sound.slice hi, fun i hi => ?_, fun k i j absent => ?_⟩
  · rw [slice, lookup_of_not_mem hi]
    rfl
  · obtain ⟨detail, refused⟩ := addEdge_refused (k := k) absent
    exact ⟨⟨detail, refused⟩, by rw [addition, refused]⟩

end SystemGraph

namespace Examples

/-- A graph in which the value before goes into a statement. -/
def draining : Pdg :=
  ⟨[⟨.input level, none, EdgeSets.empty.insert .data 1, .empty⟩,
    ⟨.statement "drain", none, .empty, EdgeSets.empty.insert .data 0⟩], none, .empty⟩

/-- Two graphs with edges in both directions between them, and an edge that is refused. -/
def pumping : List SystemGraph.Addition :=
  [.graph 1 draining, .graph (-2) (filling false),
    .edge .data ⟨-2, .statement "fill"⟩ ⟨1, .input level⟩,
    .edge .control ⟨1, .statement "drain"⟩ ⟨-2, .statement "fill"⟩,
    .edge .member ⟨1, .statement "drain"⟩ ⟨3, .input level⟩]

end Examples

open Examples in
theorem slice_exact_pumping : ∃ g, SystemGraph.empty.additions pumping = .ok g ∧
    ⟨1, .statement "drain"⟩ ∈ g.nodeIds ∧ ∃ slice, g.slice ⟨1, .statement "drain"⟩ = .ok slice ∧
      slice.Nodup ∧ slice.head? = some ⟨1, .statement "drain"⟩ ∧
      (∀ j, j ∈ slice ↔ Relation.ReflTransGen g.Listed j ⟨1, .statement "drain"⟩) ∧
      slice.Pairwise fun a b => distance g.Listed a ⟨1, .statement "drain"⟩ ≤
        distance g.Listed b ⟨1, .statement "drain"⟩ := by
  obtain ⟨g, hg, h⟩ := Success.exists_of_yields (x := SystemGraph.empty.additions pumping)
    (c := fun g => g.nodeIds.contains ⟨1, .statement "drain"⟩) (by decide +kernel)
  have inside : ⟨1, .statement "drain"⟩ ∈ g.nodeIds := List.contains_iff_mem.1 h
  obtain ⟨-, -, slice, -, -, -, hslice, nodup, head, mem, order⟩ := (SystemGraph.slice_exact hg).1 _ inside
  exact ⟨g, hg, inside, slice, hslice, nodup, head, mem, order⟩

end DeltaSlice

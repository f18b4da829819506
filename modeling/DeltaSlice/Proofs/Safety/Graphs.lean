import DeltaSlice.Proofs.Dependence.Graphs
import DeltaSlice.Proofs.Success

/-!
Operations on dependence graphs succeed. Edges are added between nodes of the graph, alternatives that
are merged have the same entry, and a graph is closed once, so no edge is added twice.
-/

namespace DeltaSlice

namespace Pdg

variable {g h other : Pdg} {a b : NodeId} {m n : Nat} {k : EdgeKind} {v : Variable}

/-- A graph that is not closed yet: it has no output nodes, and only statements define variables. -/
structure Unfinished (g : Pdg) : Prop where
  valid : g.Valid
  unclosed : ∀ v, .node (.output v) ∉ g.facts
  statements : ∀ v a, .reaches v (some a) ∈ g.facts → ∃ key, a = .statement key

/-- `h` is a later, unfinished version of the graph `g`. -/
structure Becomes (g h : Pdg) : Prop where
  unfinished : h.Unfinished
  entry : h.entry = g.entry
  names : ∀ {n a}, g.idOf? n = some a → h.idOf? n = some a

namespace Becomes

theorem refl (hg : g.Unfinished) : Becomes g g := ⟨hg, rfl, id⟩

theorem trans {i : Pdg} (hgh : Becomes g h) (hhi : Becomes h i) : Becomes g i :=
  ⟨hhi.unfinished, hhi.entry.trans hgh.entry, fun hn => hhi.names (hgh.names hn)⟩

theorem of_grows (hg : g.Unfinished) {A : Set Fact} (grows : Grows g h A)
    (unclosed : ∀ v, .node (.output v) ∉ A) (plain : ∀ v d, .reaches v d ∉ A) : Becomes g h where
  unfinished := by
    refine ⟨grows.valid, fun v => ?_, fun v a hf => ?_⟩
    · rw [grows.facts, Set.mem_union]
      exact not_or.2 ⟨hg.unclosed v, unclosed v⟩
    · rw [grows.facts, Set.mem_union] at hf
      exact hg.statements v a (hf.resolve_right (plain v _))
  entry := grows.entry
  names := grows.names

theorem lt (hgh : Becomes g h) (hn : n < g.nodes.length) : n < h.nodes.length := by
  obtain ⟨a, ha⟩ := idOf?_isSome.2 hn
  exact idOf?_isSome.1 ⟨a, hgh.names ha⟩

theorem entryId (hgh : Becomes g h) (ha : g.entryId? = some a) : h.entryId? = some a := by
  unfold entryId? at ha ⊢
  obtain ⟨n, hn, ha⟩ := Option.bind_eq_some_iff.1 ha
  rw [hgh.entry, hn]
  exact hgh.names ha

end Becomes

theorem node_becomes (hg : g.Unfinished) (a : NodeId) (s : Option StatementId)
    (inner : ∀ v, a ≠ .output v) :
    Becomes g (g.node a s).2 ∧ (g.node a s).2.idOf? (g.node a s).1 = some a := by
  obtain ⟨grows, name⟩ := node_grows hg.valid a s
  refine ⟨.of_grows hg grows (fun v hv => inner v ?_) (by simp), name⟩
  exact (Fact.node.inj (Set.mem_singleton_iff.1 hv)).symm

theorem statementNode_becomes (hg : g.Unfinished) (s : StatementId) :
    Becomes g (g.statementNode s).2 ∧ (g.statementNode s).2.idOf? (g.statementNode s).1 =
      some (.statement s.key) :=
  node_becomes hg _ _ (by simp)

theorem inputNode_becomes (hg : g.Unfinished) (v : Variable) :
    Becomes g (g.inputNode v).2 ∧ (g.inputNode v).2.idOf? (g.inputNode v).1 = some (.input v) :=
  node_becomes hg _ _ (by simp)

theorem addEdge_succeeds (hg : g.Unfinished) (hm : m < g.nodes.length) (hn : n < g.nodes.length) :
    Succeeds (Becomes g) (g.addEdge k m n) := by
  obtain ⟨a, ha⟩ := idOf?_isSome.2 hm
  obtain ⟨b, hb⟩ := idOf?_isSome.2 hn
  refine (insertEdge_succeeds hm hn).map (Q := fun _ => True) (fun _ _ => trivial) |>.mono fun h hh _ => ?_
  exact .of_grows hg (addEdge_grows hg.valid ha hb hh) (by simp) (by simp)

theorem addDataEdges_succeeds (hg : g.Unfinished) (hn : n < g.nodes.length) {sources : List Nat}
    (hs : ∀ m ∈ sources, m < g.nodes.length) : Succeeds (Becomes g) (g.addDataEdges n sources) :=
  .foldlM (.refl hg) fun m hm _ hc =>
    (addEdge_succeeds hc.unfinished (hc.lt (hs m hm)) (hc.lt hn)).mono fun _ _ hd => hc.trans hd

theorem readBy_succeeds (hg : g.Unfinished) (hn : n < g.nodes.length) :
    Succeeds (Becomes g) (g.readBy v n) := by
  obtain ⟨input, name⟩ := inputNode_becomes hg v
  have lt := idOf?_isSome.1 ⟨_, name⟩
  have opened : Succeeds (Becomes g) ((g.inputNode v).2.addEdge .data (g.inputNode v).1 n) :=
    (addEdge_succeeds input.unfinished lt (input.lt hn)).mono fun _ _ hd => input.trans hd
  unfold readBy
  cases hget : g.reaching.get? v with
  | none => exact opened
  | some d =>
      have hlt := (hg.valid.definitions v d (Table.mem_of_get? hget)).2.2
      dsimp only
      split
      · refine opened.bind fun c hc => ?_
        exact (addDataEdges_succeeds hc.unfinished (hc.lt hn) fun m hm => hc.lt (hlt m hm)).mono
          fun _ _ hd => hc.trans hd
      · exact addDataEdges_succeeds hg hn hlt

theorem define_becomes (hg : g.Unfinished) {key : String} (hn : g.idOf? n = some (.statement key)) :
    Becomes g (g.define v n) where
  unfinished := by
    have facts := define_facts (v := v) hn
    refine ⟨define_valid hg.valid (idOf?_isSome.1 ⟨_, hn⟩), fun w hw => ?_, fun w a hf => ?_⟩
    · rw [facts] at hw
      rcases hw with ⟨hw, -⟩ | hw
      · exact hg.unclosed w hw
      · cases hw
    · rw [facts] at hf
      rcases hf with ⟨hf, -⟩ | hf
      · exact hg.statements w a hf
      · obtain ⟨-, same⟩ := Fact.reaches.inj hf
        exact ⟨key, Option.some.inj same⟩
  entry := rfl
  names := id

theorem forget_becomes (hg : g.Unfinished) (p : Variable → Bool) : Becomes g (g.forget p) where
  unfinished := by
    have facts := forget_facts (g := g) p
    refine ⟨forget_valid hg.valid p, fun w hw => ?_, fun w a hf => ?_⟩
    · rw [facts] at hw
      rcases hw with ⟨hw, -⟩ | ⟨_, -, hw⟩
      · exact hg.unclosed w hw
      · cases hw
    · rw [facts] at hf
      rcases hf with ⟨hf, -⟩ | ⟨_, -, hf⟩
      · exact hg.statements w a hf
      · cases (Fact.reaches.inj hf).2
  entry := rfl
  names := id

/-- One more definition of a variable. -/
theorem addDefinition_becomes (hg : g.Unfinished) {key : String}
    (hn : g.idOf? n = some (.statement key)) : Becomes g (g.addDefinition v n) where
  unfinished := by
    have lt := idOf?_isSome.1 ⟨_, hn⟩
    have old : ∀ d, (g.reaching.get? v).getD ⟨[], false⟩ = d → d.nodes.Pairwise (· < ·) ∧
        ∀ m ∈ d.nodes, m < g.nodes.length ∧ ∃ key, g.idOf? m = some (.statement key) := by
      rintro d rfl
      cases hget : g.reaching.get? v with
      | none => simp
      | some d =>
          obtain ⟨-, ascending, inside⟩ := hg.valid.definitions v d (Table.mem_of_get? hget)
          refine ⟨ascending, fun m hm => ⟨inside m hm, ?_⟩⟩
          obtain ⟨a, ha⟩ := idOf?_isSome.2 (inside m hm)
          obtain ⟨key, rfl⟩ := hg.statements v a ⟨d, hget, m, hm, ha⟩
          exact ⟨key, ha⟩
    obtain ⟨ascending, inside⟩ := old _ rfl
    refine ⟨⟨hg.valid.ids, hg.valid.mirrored, hg.valid.ascending, hg.valid.entry,
      Table.nodup_insert hg.valid.keys, fun w d hd => ?_⟩, fun w => hg.unclosed w, fun w a hf => ?_⟩
    · rcases Table.mem_insert hd with new | kept
      · obtain ⟨rfl, rfl⟩ := Prod.mk.inj new
        refine ⟨List.ne_nil_of_mem (NodeSet.mem_insert.2 (.inl rfl)), NodeSet.pairwise_insert ascending, ?_⟩
        intro m hm
        rcases NodeSet.mem_insert.1 hm with rfl | hm
        · exact lt
        · exact (inside m hm).1
      · exact hg.valid.definitions w d kept
    · obtain ⟨d, hd, m, hm, ha⟩ := hf
      have ha : g.idOf? m = some a := ha
      by_cases own : w = v
      · obtain rfl : _ = d := Option.some.inj ((Table.get?_insert.trans (if_pos own)).symm.trans hd)
        rcases NodeSet.mem_insert.1 hm with rfl | hm
        · exact ⟨key, Option.some.inj (ha.symm.trans hn)⟩
        · obtain ⟨key, named⟩ := (inside m hm).2
          exact ⟨key, Option.some.inj (ha.symm.trans named)⟩
      · have kept : g.reaching.get? w = some d := (Table.get?_insert.trans (if_neg own)).symm.trans hd
        exact hg.statements w a ⟨d, kept, m, hm, ha⟩
  entry := rfl
  names := id

theorem empty_unfinished : Pdg.empty.Unfinished where
  valid := Simulator.empty_valid
  unclosed v := by simp [Says, Pdg.empty, idOf?]
  statements v a := by simp [Says, Pdg.empty, Table.empty, Table.get?]

theorem enter_unfinished (hg : g.Unfinished) (s : StatementId) :
    (g.enter s).2.Unfinished ∧ (g.enter s).2.entryId? = some (.entry s.key) ∧
      (g.enter s).2.idOf? (g.enter s).1 = some (.entry s.key) := by
  obtain ⟨⟨⟨valid, unclosed, statements⟩, -, -⟩, name⟩ := node_becomes hg (.entry s.key) (some s) (by simp)
  refine ⟨⟨⟨valid.ids, valid.mirrored, valid.ascending, fun n hn => ?_, valid.keys, valid.definitions⟩,
    unclosed, statements⟩, name, name⟩
  obtain rfl := Option.some.inj hn
  exact idOf?_isSome.1 ⟨_, name⟩

section Merge

theorem isSome_entry {c : NodeId} (hc : g.entryId? = some c) : g.entry.isSome := by
  unfold entryId? at hc
  obtain ⟨n, hn, -⟩ := Option.bind_eq_some_iff.1 hc
  simp [hn]

theorem not_neutral {c : NodeId} (hc : g.entryId? = some c) : g.isNeutral = false :=
  not_neutral_of_entry (isSome_entry hc)

/-- Alternatives with the same entry can be merged. -/
theorem compose_succeeds (hg : g.Unfinished) (ho : other.Unfinished) {c : NodeId}
    (hgc : g.entryId? = some c) (hoc : other.entryId? = some c) :
    Succeeds (Becomes g) (g.compose other) := by
  obtain ⟨i, hi⟩ := compose_succeeds_of_entry hg.valid.consistent ho.valid.consistent (not_neutral hgc)
    (not_neutral hoc) (hgc.trans hoc.symm)
  refine ⟨i, hi, ?_⟩
  obtain ⟨valid, entry, facts, names⟩ :=
    compose_facts hg.valid ho.valid (isSome_entry hgc) (isSome_entry hoc) hi
  refine ⟨⟨valid, fun v => ?_, fun v a hf => ?_⟩, entry, names⟩
  · rw [facts, Set.mem_union]
    exact not_or.2 ⟨hg.unclosed v, ho.unclosed v⟩
  · rw [facts, Set.mem_union] at hf
    exact hf.elim (hg.statements v a) (ho.statements v a)

end Merge

section Close

theorem insertNewEdge_succeeds (hg : g.Valid) (ha : g.idOf? m = some a) (hb : g.idOf? n = some b)
    (new : .edge k a b ∉ g.facts) : Succeeds (fun h => Grows g h {.edge k a b}) (g.insertNewEdge k m n) := by
  obtain ⟨⟨added, h⟩, hins, -⟩ :=
    insertEdge_succeeds (k := k) (idOf?_isSome.1 ⟨a, ha⟩) (idOf?_isSome.1 ⟨b, hb⟩)
  obtain ⟨-, -, ⟨rfl, rfl, present⟩ | ⟨rfl, -, -, -⟩⟩ := insertEdge_cases hins
  · refine absurd ((hg.edge_mem_facts ha hb).2 ?_) new
    exact present.elim id (hg.mirrored k m n).2
  · refine ⟨h, ?_, insertEdge_grows hg ha hb hins⟩
    unfold insertNewEdge
    rw [hins]

/-- The ends of an edge are nodes. -/
theorem target_mem {c : NodeId} (h : .edge k a c ∈ g.facts) : .node c ∈ g.facts := by
  obtain ⟨-, n, -, hn, -⟩ := h
  exact ⟨n, hn⟩

theorem output_mem_closing {r : Variable × Definitions} (h : .node (.output v) ∈ g.closing r) : v = r.1 := by
  obtain same | ⟨-, same | same⟩ | ⟨n, -, a, -, same⟩ := h
  · exact NodeId.output.inj (Fact.node.inj same)
  · cases Fact.node.inj same
  · cases same
  · cases same

theorem bare_insertNewEdge (g : Pdg) (k : EdgeKind) (m n : Nat) :
    g.bare.insertNewEdge k m n = (g.insertNewEdge k m n).map bare := by
  unfold insertNewEdge
  rw [bare_insertEdge]
  cases g.insertEdge k m n with
  | error f => rfl
  | ok r =>
      obtain ⟨b | b, h⟩ := r
      · have same : ∀ i, g.bare.idOf? i = g.idOf? i := fun _ => rfl
        simp only [Except.map, same]
        split <;> rfl
      · rfl

theorem bare_close (g : Pdg) (v : Variable) (d : Definitions) : g.bare.close v d = (g.close v d).map bare := by
  have links : ∀ (c : Pdg) (o : Nat), d.nodes.foldlM (fun (c : Pdg) n => c.insertNewEdge .data n o) c.bare =
      (d.nodes.foldlM (fun (c : Pdg) n => c.insertNewEdge .data n o) c).map bare :=
    fun c o => foldlM_map (fun c n => bare_insertNewEdge c .data n o) d.nodes c
  unfold close outputNode inputNode
  rw [bare_node]
  dsimp only
  split
  · rw [bare_node]
    dsimp only
    rw [bare_insertNewEdge]
    cases ((g.node (.output v) none).2.node (.input v) none).2.insertNewEdge .data
      ((g.node (.output v) none).2.node (.input v) none).1 (g.node (.output v) none).1 with
    | error f => rfl
    | ok c => exact links c _
  · exact links _ _

/-- Definitions can be dropped before they are closed. -/
theorem finalize_eq (g : Pdg) : g.finalize = (sortByText (fun (r : Variable × Definitions) => r.1.text)
    g.reaching.entries).foldlM (fun c r => c.close r.1 r.2) g.bare :=
  (foldlM_map (fun c r => bare_close c r.1 r.2) _ g).symm

/-- A variable that has no output node yet gets one, with edges from its definitions, unless its input node is among
them. -/
theorem close_succeeds {c : Pdg} {A : Set Fact} (hc : Grows g c A) {d : Definitions}
    (ascending : d.nodes.Pairwise (· < ·)) (inside : ∀ n ∈ d.nodes, n < g.nodes.length)
    (inner : ∀ n ∈ d.nodes, g.idOf? n ≠ some (.input v)) (fresh : .node (.output v) ∉ c.facts) :
    Succeeds (fun h => Grows c h (g.closing (v, d))) (c.close v d) := by
  obtain ⟨outGrows, output⟩ : Grows c (c.outputNode v).2 {Fact.node (.output v)} ∧
      (c.outputNode v).2.idOf? (c.outputNode v).1 = some (.output v) :=
    node_grows hc.valid (.output v) none
  have unlinked : ∀ x, .edge .data x (.output v) ∉ (c.outputNode v).2.facts := by
    intro x hx
    rw [outGrows.facts, Set.mem_union] at hx
    rcases hx with hx | hx
    · exact fresh (target_mem hx)
    · cases hx
  have closes : Succeeds (fun _ => True) (c.close v d) := by
    unfold close
    -- Before the definitions are connected, the input node is the only one with an edge to the output node.
    have opened : Succeeds (fun i => ∃ B, Grows (c.outputNode v).2 i B ∧
        ∀ x, .edge .data x (.output v) ∈ i.facts → x = .input v)
        (if d.outer then ((c.outputNode v).2.inputNode v).2.insertNewEdge .data
          ((c.outputNode v).2.inputNode v).1 (c.outputNode v).1 else .ok (c.outputNode v).2) := by
      split
      · obtain ⟨inGrows, input⟩ := inputNode_grows outGrows.valid v
        have unlinked : ∀ x, .edge .data x (.output v) ∉ ((c.outputNode v).2.inputNode v).2.facts := by
          intro x hx
          rw [inGrows.facts, Set.mem_union] at hx
          rcases hx with hx | hx
          · exact unlinked x hx
          · cases hx
        refine (insertNewEdge_succeeds inGrows.valid input (inGrows.names output) (unlinked _)).mono
          fun i _ hi => ⟨_, inGrows.trans hi, fun x hx => ?_⟩
        rw [hi.facts, Set.mem_union] at hx
        exact (Fact.edge.inj (hx.resolve_left (unlinked x))).2.1
      · exact .ok ⟨_, .refl outGrows.valid, fun x hx => absurd hx (unlinked x)⟩
    refine opened.bind fun i ⟨B, hi, only⟩ => ?_
    refine Succeeds.mono (P := fun h => ∃ B, Grows i h B ∧ ∀ x, .edge .data x (.output v) ∈ h.facts →
      x = .input v ∨ ∃ n ∈ d.nodes, g.idOf? n = some x) ?_ fun _ _ _ => trivial
    refine .foldlM_along (I := fun pre h => ∃ B, Grows i h B ∧ ∀ x, .edge .data x (.output v) ∈ h.facts →
      x = .input v ∨ ∃ n ∈ pre, g.idOf? n = some x) ?_ ?_
    · exact ⟨_, .refl hi.valid, fun x hx => .inl (only x hx)⟩
    · intro pre n post whole e ⟨C, he, known⟩
      have mem : n ∈ d.nodes := by simp [← whole]
      obtain ⟨a, hn⟩ := idOf?_isSome.2 (inside n mem)
      have later : ∀ m ∈ pre, m ≠ n := by
        intro m hm
        rw [← whole] at ascending
        exact Nat.ne_of_lt ((List.pairwise_append.1 ascending).2.2 m hm n List.mem_cons_self)
      refine (insertNewEdge_succeeds he.valid (he.names (hi.names (outGrows.names (hc.names hn))))
        (he.names (hi.names output)) fun present => ?_).mono fun h _ hh => ⟨_, he.trans hh, fun x hx => ?_⟩
      · obtain rfl | ⟨m, hm, same⟩ := known _ present
        · exact inner n mem hn
        · exact later m hm (hc.valid.idOf?_inj (hc.names same) (hc.names hn))
      · rw [hh.facts, Set.mem_union] at hx
        rcases hx with hx | hx
        · exact (known x hx).imp_right fun ⟨m, hm, same⟩ => ⟨m, List.mem_append_left _ hm, same⟩
        · obtain ⟨-, rfl, -⟩ := Fact.edge.inj hx
          exact .inr ⟨n, by simp, hn⟩
  exact closes.mono fun h hh _ => close_grows hc inside hh

/-- A graph without output nodes can be closed if no definition is an input node. -/
theorem closing_succeeds (hg : g.Consistent) (unclosed : ∀ v, .node (.output v) ∉ g.facts)
    (inner : ∀ v d, (v, d) ∈ g.reaching.entries → ∀ n ∈ d.nodes, ∀ w, g.idOf? n ≠ some (.input w)) :
    Succeeds (fun h => Grows g.bare h {f | ∃ r ∈ g.reaching.entries, f ∈ g.closing r}) g.finalize := by
  have perm := sortByText_perm (fun (r : Variable × Definitions) => r.1.text) g.reaching.entries
  have distinct := (perm.map (·.1)).nodup_iff.2 hg.keys
  rw [finalize_eq]
  refine Succeeds.mono (P := fun c => Grows g.bare c {f | ∃ r ∈ sortByText (fun (r : Variable × Definitions) =>
    r.1.text) g.reaching.entries, f ∈ g.closing r}) ?_ fun h _ hh => by simpa only [perm.mem_iff] using hh
  refine .foldlM_along (I := fun pre c => Grows g.bare c {f | ∃ r ∈ pre, f ∈ g.closing r}) ?_ ?_
  · exact (Grows.refl hg.bare).congr (by simp)
  · intro pre r post whole c hc
    have hr : (r.1, r.2) ∈ g.reaching.entries := perm.mem_iff.1 (by rw [← whole]; simp)
    obtain ⟨ascending, inside⟩ := hg.definitions r.1 r.2 hr
    refine (close_succeeds hc ascending inside (fun n hn => inner r.1 r.2 hr n hn r.1) fun closed => ?_).mono
      fun h _ hh => (hc.trans hh).congr ?_
    · rw [hc.facts, Set.mem_union, mem_bare_facts (by simp)] at closed
      obtain old | ⟨q, hq, closed⟩ := closed
      · exact unclosed r.1 old
      · have same := output_mem_closing closed
        rw [← whole, List.map_append, List.nodup_append] at distinct
        exact distinct.2.2 q.1 (List.mem_map_of_mem hq) r.1 (by simp) same.symm
    · congr 1
      ext f
      simp only [Set.mem_union, Set.mem_ofPred_eq, List.mem_append, List.mem_singleton, or_and_right, exists_or,
        exists_eq_left]
      rfl

theorem finalize_succeeds (hg : g.Unfinished) : Succeeds (fun _ => True) g.finalize := by
  refine (closing_succeeds hg.valid.consistent hg.unclosed fun v d hd n hn w input => ?_).mono fun _ _ _ => trivial
  obtain ⟨key, same⟩ := hg.statements v _ ⟨d, Table.get?_of_mem hg.valid.keys hd, n, hn, input⟩
  cases same

/-- Only variables with definitions get an output node when the graph is closed. -/
theorem mem_reaching_of_output (hg : g.Unfinished) (hfin : g.finalize = .ok h)
    (closed : h.has (.output v) = true) : v ∈ g.reaching.entries.map (·.1) := by
  obtain ⟨c, grows, rfl⟩ := finalize_grows hg.valid hfin
  have closed : .node (.output v) ∈ c.facts := has_iff.1 closed
  rw [grows.facts] at closed
  obtain ⟨r, hr, closed⟩ := closed.resolve_left (hg.unclosed v)
  rw [output_mem_closing closed]
  exact List.mem_map_of_mem ((sortByText_perm _ _).mem_iff.1 hr)

end Close

end Pdg

end DeltaSlice

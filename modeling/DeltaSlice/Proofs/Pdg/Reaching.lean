import DeltaSlice.Proofs.Pdg.Facts
import DeltaSlice.Proofs.Text

/-!
Definitions and reads. A write makes a node the only definition of a variable, forgetting leaves the
one from before the transition, and a read connects a node with all that reaches it.
-/

namespace DeltaSlice

namespace Pdg

/-- What a fact says about reaching definitions concerns the variable. -/
def Fact.Tells (f : Fact) (v : Variable) : Prop := ∃ d, f = .reaches v d

@[simp] theorem tells_node {a : NodeId} {v : Variable} : ¬ (Fact.node a).Tells v := by
  simp [Fact.Tells]

@[simp] theorem tells_edge {k : EdgeKind} {a b : NodeId} {v : Variable} :
    ¬ (Fact.edge k a b).Tells v := by
  simp [Fact.Tells]

@[simp] theorem tells_reaches {v w : Variable} {d : Option NodeId} :
    (Fact.reaches w d).Tells v ↔ w = v := by
  simp [Fact.Tells]

/-- Definitions aside, a graph says the same without them. -/
theorem mem_bare_facts {g : Pdg} {f : Fact} (plain : ∀ v, ¬ f.Tells v) : f ∈ g.bare.facts ↔ f ∈ g.facts := by
  cases f with
  | node a | edge k a b => exact Iff.rfl
  | reaches v d => exact absurd ⟨d, rfl⟩ (plain v)

/-- The node that stands for a definition of `v`. -/
def sourceOf (v : Variable) (d : Option NodeId) : NodeId := d.getD (.input v)

section

variable {g h : Pdg} {v : Variable} {n : Nat} {a b : NodeId}

theorem define_valid (hg : g.Valid) (hn : n < g.nodes.length) : (g.define v n).Valid where
  ids := hg.ids
  mirrored := hg.mirrored
  ascending := hg.ascending
  entry := hg.entry
  keys := Table.nodup_insert hg.keys
  definitions := by
    intro w d hd
    rcases Table.mem_insert hd with hnew | hold
    · obtain ⟨rfl, rfl⟩ := Prod.mk.inj hnew
      refine ⟨by simp, by simp, ?_⟩
      intro m hm
      rw [List.mem_singleton.1 hm]
      exact hn
    · exact hg.definitions w d hold

theorem define_facts (ha : g.idOf? n = some a) :
    (g.define v n).facts = {f | (f ∈ g.facts ∧ ¬ f.Tells v) ∨ f = .reaches v (some a)} := by
  have hget : ∀ w, (g.define v n).reaching.get? w =
      if w = v then some ⟨[n], false⟩ else g.reaching.get? w := fun w => Table.get?_insert
  have hid : (g.define v n).idOf? = g.idOf? := rfl
  ext f
  cases f with
  | node c =>
      change g.Says (.node c) ↔ _
      simp
  | edge k c d =>
      change g.Says (.edge k c d) ↔ _
      simp
  | reaches w d =>
      by_cases hw : w = v
      · subst hw
        cases d with
        | none => simp [Says, hget]
        | some c =>
            simp only [mem_facts, Says, hget, if_true, hid, Option.some.injEq, exists_eq_left',
              List.mem_singleton, exists_eq_left, ha, Set.mem_ofPred_eq, tells_reaches,
              not_true_eq_false, and_false, false_or, Fact.reaches.injEq, true_and]
            exact eq_comm
      · cases d with
        | none => simp [Says, hget, hw]
        | some c => simp [Says, hget, hw, hid]

/-- The variable has an entry among the reaching definitions. One without an entry is reached from
before the transition only. -/
def Lists (g : Pdg) (v : Variable) : Prop := (g.reaching.get? v).isSome = true

/-- A definition is added to those that have an entry; what an absent entry says is lost. -/
theorem addDefinition_facts (ha : g.idOf? n = some a) :
    (g.addDefinition v n).facts =
      {f | (f ∈ g.facts ∧ (f = .reaches v none → g.Lists v)) ∨ f = .reaches v (some a)} := by
  have hget : ∀ w, (g.addDefinition v n).reaching.get? w =
      if w = v then some { (g.reaching.get? v).getD ⟨[], false⟩ with
        nodes := NodeSet.insert n ((g.reaching.get? v).getD ⟨[], false⟩).nodes }
      else g.reaching.get? w := fun w => Table.get?_insert
  have hid : (g.addDefinition v n).idOf? = g.idOf? := rfl
  ext f
  cases f with
  | node c =>
      change g.Says (.node c) ↔ _
      simp
  | edge k c d =>
      change g.Says (.edge k c d) ↔ _
      simp
  | reaches w d =>
      by_cases hw : w = v
      · subst hw
        cases d with
        | none => cases old : g.reaching.get? w <;> simp [Says, Lists, hget, old]
        | some c =>
            cases old : g.reaching.get? w with
            | none =>
                simp only [mem_facts, Says, hget, hid, old, if_true, Option.some.injEq, exists_eq_left',
                  Option.getD_none, NodeSet.mem_insert, List.not_mem_nil, or_false, exists_eq_left, ha,
                  Set.mem_ofPred_eq, Fact.reaches.injEq, true_and, reduceCtorEq, false_and, exists_false,
                  false_or]
                exact eq_comm
            | some d =>
                simp only [mem_facts, Says, hget, hid, old, if_true, Option.some.injEq, exists_eq_left',
                  Option.getD_some, NodeSet.mem_insert, or_and_right, exists_or, exists_eq_left, ha,
                  Set.mem_ofPred_eq, Fact.reaches.injEq, reduceCtorEq, and_false, false_implies, and_true,
                  true_and]
                rw [or_comm, eq_comm]
      · cases d with
        | none => simp [Says, hget, hw]
        | some c => simp [Says, hget, hw, hid]

/-- The public question for the definitions of a variable. -/
theorem mem_definitionsOf : a ∈ (g.definitionsOf v).1 ↔ .reaches v (some a) ∈ g.facts := by
  unfold definitionsOf
  cases hget : g.reaching.get? v with
  | none => simp [Says, hget]
  | some d => simp [Says, hget, (sortByText_perm _ _).mem_iff]

theorem definitionsOf_outer : (g.definitionsOf v).2 = true ↔ .reaches v none ∈ g.facts := by
  unfold definitionsOf
  cases hget : g.reaching.get? v <;> simp [Says, hget]

/-- A single definition is all that is told about the variable. -/
theorem Valid.definitionsOf_eq (h : g.Valid)
    (hv : ∀ d, .reaches v d ∈ g.facts ↔ d = some a) : g.definitionsOf v = ([a], false) := by
  cases hget : g.reaching.get? v with
  | none =>
      have houter : Fact.reaches v none ∈ g.facts := by simp [Says, hget]
      cases (hv none).1 houter
  | some d =>
      obtain ⟨nodes, outer⟩ := d
      obtain ⟨hne, hsorted, hbound⟩ := h.definitions v _ (Table.mem_of_get? hget)
      have hinner : outer = false := by
        cases outer with
        | false => rfl
        | true =>
            have houter : Fact.reaches v none ∈ g.facts := by simp [Says, hget]
            cases (hv none).1 houter
      have hnamed : ∀ n ∈ nodes, g.idOf? n = some a := by
        intro n hn
        obtain ⟨b, hb⟩ := idOf?_isSome.2 (hbound n hn)
        have hreach : Fact.reaches v (some b) ∈ g.facts := ⟨_, hget, n, hn, hb⟩
        rw [hb, (hv _).1 hreach]
      have hone : ∃ n, nodes = [n] := by
        cases nodes with
        | nil => exact absurd rfl hne
        | cons n nodes =>
            cases nodes with
            | nil => exact ⟨n, rfl⟩
            | cons m nodes =>
                have hlt := List.rel_of_pairwise_cons hsorted (List.mem_cons_self (a := m))
                exact absurd (h.idOf?_inj (hnamed n (by simp)) (hnamed m (by simp))) (Nat.ne_of_lt hlt)
      obtain ⟨n, rfl⟩ := hone
      subst hinner
      simp [definitionsOf, hget, hnamed n (by simp), sortByText, insertByText]

theorem forget_valid (hg : g.Valid) (p : Variable → Bool) : (g.forget p).Valid where
  ids := hg.ids
  mirrored := hg.mirrored
  ascending := hg.ascending
  entry := hg.entry
  keys := Table.nodup_keep _ hg.keys
  definitions := fun w d hd => hg.definitions w d (List.mem_filter.1 hd).1

theorem forget_facts (p : Variable → Bool) :
    (g.forget p).facts = {f | (f ∈ g.facts ∧ ∀ v, p v = true → ¬ f.Tells v) ∨
      ∃ v, p v = true ∧ f = .reaches v none} := by
  have hget : ∀ w, (g.forget p).reaching.get? w =
      if !p w then g.reaching.get? w else none := fun w => Table.get?_keep _
  have hid : (g.forget p).idOf? = g.idOf? := rfl
  ext f
  cases f with
  | node c =>
      change g.Says (.node c) ↔ _
      simp
  | edge k c d =>
      change g.Says (.edge k c d) ↔ _
      simp
  | reaches w d =>
      by_cases hw : p w = true
      · cases d with
        | none => simp [Says, hget, hw]
        | some c => simp [Says, hget, hw]
      · cases d with
        | none =>
            simp only [Bool.not_eq_true] at hw
            simp only [mem_facts, Says, hget, hw, Bool.not_false, if_true, Set.mem_ofPred_eq,
              tells_reaches, Fact.reaches.injEq, and_true]
            constructor
            · intro hholds
              refine .inl ⟨hholds, ?_⟩
              rintro v hv rfl
              simp [hw] at hv
            · rintro (⟨hholds, -⟩ | ⟨v, hv, rfl⟩)
              · exact hholds
              · simp [hw] at hv
        | some c =>
            simp only [Bool.not_eq_true] at hw
            simp only [mem_facts, Says, hget, hw, Bool.not_false, if_true, hid, Set.mem_ofPred_eq,
              tells_reaches, Fact.reaches.injEq, reduceCtorEq, and_false, exists_false, or_false]
            refine (and_iff_left ?_).symm
            rintro v hv rfl
            simp [hw] at hv

/-- A series of additions adds what each of them adds. -/
theorem foldlM_grows {α : Type} {f : Pdg → α → Except Fault Pdg} {F : α → Set Fact} {l : List α}
    (hg : g.Valid)
    (step : ∀ x ∈ l, ∀ c d (pre : List α), Grows g c {e | ∃ y ∈ pre, e ∈ F y} →
      f c x = .ok d → Grows c d (F x))
    (hfold : l.foldlM f g = .ok h) : Grows g h {e | ∃ x ∈ l, e ∈ F x} := by
  refine Success.foldlM_induction (fun pre c => Grows g c {e | ∃ x ∈ pre, e ∈ F x}) ?_ ?_ hfold
  · refine (Grows.refl hg).congr ?_
    simp
  · intro pre x c d hc hx hd
    refine (hc.trans (step x hx c d pre hc hd)).congr ?_
    congr 1
    ext e
    constructor
    · rintro (⟨y, hy, he⟩ | he)
      · exact ⟨y, by simp [hy], he⟩
      · exact ⟨x, by simp, he⟩
    · rintro ⟨y, hy, he⟩
      rcases List.mem_append.1 hy with hy | hy
      · exact .inl ⟨y, hy, he⟩
      · exact .inr (List.mem_singleton.1 hy ▸ he)

theorem addDataEdges_grows (hg : g.Valid) (hb : g.idOf? n = some b) {sources : List Nat}
    (hs : ∀ m ∈ sources, m < g.nodes.length) (hadd : g.addDataEdges n sources = .ok h) :
    Grows g h {f | ∃ m ∈ sources, ∃ a, g.idOf? m = some a ∧ f = .edge .data a b} := by
  refine foldlM_grows (F := fun m => {f | ∃ a, g.idOf? m = some a ∧ f = .edge .data a b}) hg ?_ hadd
  intro m hm c d _ hc hd
  obtain ⟨a, ha⟩ := idOf?_isSome.2 (hs m hm)
  refine (addEdge_grows hc.valid (hc.names ha) (hc.names hb) hd).congr ?_
  congr 1
  ext f
  simp [ha]

theorem inputNode_grows (hg : g.Valid) (v : Variable) :
    Grows g (g.inputNode v).2 {.node (.input v)} ∧
      (g.inputNode v).2.idOf? (g.inputNode v).1 = some (.input v) :=
  node_grows hg _ _

/-- What a read of `v` by the node `b` adds. -/
def readFacts (X : Set Fact) (v : Variable) (b : NodeId) : Set Fact :=
  {f | (.reaches v none ∈ X ∧ f = .node (.input v)) ∨
    ∃ d, .reaches v d ∈ X ∧ f = .edge .data (sourceOf v d) b}

theorem readFacts_of_none (hget : g.reaching.get? v = none) :
    readFacts g.facts v b = {.node (.input v)} ∪ {.edge .data (.input v) b} := by
  ext f
  simp only [readFacts, Set.mem_union, Set.mem_singleton_iff, Set.mem_ofPred_eq, mem_facts]
  constructor
  · rintro (⟨-, rfl⟩ | ⟨d, hd, rfl⟩)
    · exact .inl rfl
    · cases d with
      | none => exact .inr rfl
      | some a => simp [Says, hget] at hd
  · rintro (rfl | rfl)
    · exact .inl ⟨by simp [Says, hget], rfl⟩
    · exact .inr ⟨none, by simp [Says, hget], rfl⟩

theorem readFacts_of_some {d : Definitions} (hget : g.reaching.get? v = some d) :
    readFacts g.facts v b = (if d.outer then {.node (.input v)} ∪ {.edge .data (.input v) b} else ∅) ∪
      {f | ∃ m ∈ d.nodes, ∃ a, g.idOf? m = some a ∧ f = .edge .data a b} := by
  have inner : ∀ a, g.Says (.reaches v (some a)) ↔ ∃ m ∈ d.nodes, g.idOf? m = some a := by
    intro a
    simp [Says, hget]
  have outer : g.Says (.reaches v none) ↔ d.outer = true := by simp [Says, hget]
  ext f
  simp only [readFacts, Set.mem_union, Set.mem_ofPred_eq, mem_facts, outer]
  constructor
  · rintro (⟨houter, rfl⟩ | ⟨c, hc, rfl⟩)
    · exact .inl (by simp [houter])
    · cases c with
      | none => exact .inl (by simp [outer.1 hc, sourceOf])
      | some a =>
          obtain ⟨m, hm, ha⟩ := (inner a).1 hc
          exact .inr ⟨m, hm, a, ha, rfl⟩
  · rintro (hinput | ⟨m, hm, a, ha, rfl⟩)
    · split at hinput
      · rename_i houter
        rcases hinput with rfl | rfl
        · exact .inl ⟨houter, rfl⟩
        · exact .inr ⟨none, outer.2 houter, rfl⟩
      · exact hinput.elim
    · exact .inr ⟨some a, (inner a).2 ⟨m, hm, ha⟩, rfl⟩

theorem readBy_grows (hg : g.Valid) (hb : g.idOf? n = some b) (hread : g.readBy v n = .ok h) :
    Grows g h (readFacts g.facts v b) := by
  unfold readBy at hread
  obtain ⟨hin, hinput⟩ := inputNode_grows hg v
  cases hget : g.reaching.get? v with
  | none =>
      simp only [hget] at hread
      rw [readFacts_of_none hget]
      exact hin.trans (addEdge_grows hin.valid hinput (hin.names hb) hread)
  | some d =>
      simp only [hget] at hread
      have hlt := (hg.definitions v d (Table.mem_of_get? hget)).2.2
      rw [readFacts_of_some hget]
      split at hread
      · rename_i houter
        obtain ⟨i, hi, hread⟩ := Success.bind_method_iff.1 hread
        have hgi := hin.trans (addEdge_grows hin.valid hinput (hin.names hb) hi)
        have hlti : ∀ m ∈ d.nodes, m < i.nodes.length := fun m hm =>
          Nat.lt_of_lt_of_le (hlt m hm) hgi.length_le
        rw [if_pos houter]
        refine (hgi.trans (addDataEdges_grows hgi.valid (hgi.names hb) hlti hread)).congr ?_
        congr 2
        ext f
        refine exists_congr fun m => and_congr_right fun hm => ?_
        rw [hgi.idOf?_eq (hlt m hm)]
      · rename_i houter
        rw [if_neg houter, Set.empty_union]
        exact addDataEdges_grows hg hb hlt hread

end

end Pdg

end DeltaSlice

/-!
Closing a graph: every variable with definitions gets an output node with an edge from each of them,
and nothing else changes.
-/

namespace DeltaSlice

namespace Pdg

variable {g h : Pdg}

/-- What the output node of a variable adds, with the nodes numbered as in `g`. -/
def closing (g : Pdg) (r : Variable × Definitions) : Set Fact :=
  {f | f = .node (.output r.1) ∨
    (r.2.outer = true ∧ (f = .node (.input r.1) ∨ f = .edge .data (.input r.1) (.output r.1))) ∨
    ∃ n ∈ r.2.nodes, ∃ a, g.idOf? n = some a ∧ f = .edge .data a (.output r.1)}

theorem close_grows {c : Pdg} {A : Set Fact} (hc : Grows g c A) {v : Variable} {d : Definitions}
    (hd : ∀ n ∈ d.nodes, n < g.nodes.length) (hclose : c.close v d = .ok h) :
    Grows c h (g.closing (v, d)) := by
  obtain ⟨hout, houtput⟩ := node_grows hc.valid (.output v) none
  unfold close at hclose
  obtain ⟨i, hi, hclose⟩ := Success.bind_method_iff.1 hclose
  -- The input node, if a definition from before the transition reaches the end.
  have opened : Grows (c.outputNode v).2 i {f | d.outer = true ∧
      (f = .node (.input v) ∨ f = .edge .data (.input v) (.output v))} := by
    cases houter : d.outer with
    | false =>
        simp only [houter, Bool.false_eq_true, if_false, Except.ok.injEq] at hi
        subst hi
        exact (Grows.refl hout.valid).congr (by simp)
    | true =>
        simp only [houter, if_true] at hi
        obtain ⟨hin, hinput⟩ := inputNode_grows hout.valid v
        refine (hin.trans (insertNewEdge_grows hin.valid hinput (hin.names houtput) hi)).congr ?_
        congr 1
        ext f
        simp only [Set.mem_union, Set.mem_singleton_iff, Set.mem_ofPred_eq, true_and]
  have hstart := hout.trans opened
  have edges := foldlM_grows (F := fun n => {f | ∃ a, g.idOf? n = some a ∧
    f = .edge .data a (.output v)}) hstart.valid ?_ hclose
  · refine (hstart.trans edges).congr ?_
    congr 1
    ext f
    simp only [closing, Set.mem_union, Set.mem_singleton_iff, Set.mem_ofPred_eq, or_assoc]
  · intro n hn e e' _ he he'
    obtain ⟨a, ha⟩ := idOf?_isSome.2 (hd n hn)
    have hname := he.names (hstart.names (hc.names ha))
    have htarget := he.names (opened.names houtput)
    refine (insertNewEdge_grows he.valid hname htarget he').congr ?_
    congr 1
    ext f
    simp [ha]

/-- Closing adds to the graph and then drops the reaching definitions. -/
theorem finalize_grows (hg : g.Valid) (hfin : g.finalize = .ok h) :
    ∃ c, Grows g c {f | ∃ r ∈ sortByText (fun (r : Variable × Definitions) => r.1.text) g.reaching.entries,
      f ∈ g.closing r} ∧ h = { c with reaching := .empty } := by
  obtain ⟨c, hc, rfl⟩ := Success.map_iff.1 hfin
  have perm := sortByText_perm (fun (r : Variable × Definitions) => r.1.text) g.reaching.entries
  refine ⟨c, foldlM_grows (F := g.closing) hg ?_ hc, rfl⟩
  rintro ⟨v, d⟩ hr c' d' _ hc' hd'
  exact close_grows hc' (hg.definitions v d (perm.mem_iff.1 hr)).2.2 hd'

theorem finalize_entryId {a : NodeId} (hg : g.Valid) (hfin : g.finalize = .ok h) (ha : g.entryId? = some a) :
    h.entryId? = some a := by
  obtain ⟨c, hgrow, rfl⟩ := finalize_grows hg hfin
  obtain ⟨n, hn, ha⟩ := Option.bind_eq_some_iff.1 ha
  exact Option.bind_eq_some_iff.2 ⟨n, hgrow.entry.trans hn, hgrow.names ha⟩

theorem finalize_valid_edges (hg : g.Valid) (hfin : g.finalize = .ok h) :
    h.Valid ∧ ∀ k a b, .edge k a b ∈ h.facts ↔ .edge k a b ∈ g.facts ∨
      (k = .data ∧ ∃ v d, b = .output v ∧ v ∈ g.reaching.entries.map (·.1) ∧
        .reaches v d ∈ g.facts ∧ a = sourceOf v d) := by
  obtain ⟨c, hgrow, rfl⟩ := finalize_grows hg hfin
  have perm := sortByText_perm (fun (r : Variable × Definitions) => r.1.text) g.reaching.entries
  refine ⟨⟨hgrow.valid.ids, hgrow.valid.mirrored, hgrow.valid.ascending, hgrow.valid.entry,
    by simp [Table.empty], by simp [Table.empty]⟩, ?_⟩
  intro k a b
  have same : Fact.edge k a b ∈ facts { c with reaching := .empty } ↔
      Fact.edge k a b ∈ c.facts := Iff.rfl
  rw [same, hgrow.facts, Set.mem_union]
  refine or_congr_right ?_
  simp only [closing, Set.mem_ofPred_eq, reduceCtorEq, false_or]
  constructor
  · rintro ⟨⟨v, d⟩, hr, hf⟩
    have hmem := perm.mem_iff.1 hr
    have hget := Table.get?_of_mem hg.keys hmem
    have hdom : v ∈ g.reaching.entries.map (·.1) := List.mem_map.2 ⟨(v, d), hmem, rfl⟩
    rcases hf with ⟨houter, hf⟩ | ⟨n, hn, a', ha, hf⟩
    · obtain ⟨rfl, rfl, rfl⟩ := Fact.edge.inj hf
      refine ⟨rfl, v, none, rfl, hdom, ?_, rfl⟩
      simpa [Says, hget] using houter
    · obtain ⟨rfl, rfl, rfl⟩ := Fact.edge.inj hf
      exact ⟨rfl, v, some a, rfl, hdom, ⟨d, hget, n, hn, ha⟩, rfl⟩
  · rintro ⟨rfl, v, d, rfl, hdom, hf, rfl⟩
    obtain ⟨⟨w, e⟩, hmem, rfl⟩ := List.mem_map.1 hdom
    have hget := Table.get?_of_mem hg.keys hmem
    refine ⟨(w, e), perm.mem_iff.2 hmem, ?_⟩
    cases d with
    | none => exact .inl ⟨hf e hget, rfl⟩
    | some a =>
        obtain ⟨e', he', n, hn, ha⟩ := hf
        obtain rfl : e = e' := by
          rw [hget] at he'
          injection he'
        exact .inr ⟨n, hn, a, ha, rfl⟩

end Pdg

end DeltaSlice

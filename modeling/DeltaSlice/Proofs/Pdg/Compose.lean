import DeltaSlice.Proofs.Pdg.Reaching
import DeltaSlice.Proofs.Success
import Mathlib.Data.List.Forall2

/-!
Merging graphs unites what they say. A variable without a definition on one of the two alternatives
is reached from before the transition. Nodes and edges are united whatever definitions reach, so that this part
is known from graphs without definitions.
-/

namespace DeltaSlice

theorem mem_of_mapM {α β : Type} {f : α → Option β} {l : List α} {l' : List β}
    (h : l.mapM f = some l') {b : β} : b ∈ l' ↔ ∃ a ∈ l, f a = some b := by
  induction l generalizing l' with
  | nil =>
      obtain rfl : [] = l' := by simpa using h
      simp
  | cons a l ih =>
      simp only [List.mapM_cons, Option.pure_def, Option.bind_eq_bind, Option.bind_eq_some_iff,
        Option.some.injEq] at h
      obtain ⟨c, hc, cs, hcs, rfl⟩ := h
      simp [ih hcs, hc, eq_comm]

theorem forall₂_getElem? {α β : Type} {R : α → β → Prop} {l : List α} {l' : List β}
    (h : List.Forall₂ R l l') {i : Nat} {a : α} {b : β} (ha : l[i]? = some a)
    (hb : l'[i]? = some b) : R a b := by
  induction h generalizing i with
  | nil => simp at ha
  | cons hab _ ih =>
      cases i with
      | zero =>
          simp only [List.getElem?_cons_zero, Option.some.injEq] at ha hb
          exact ha ▸ hb ▸ hab
      | succ i => exact ih ha hb

namespace Pdg

variable {g h other : Pdg}

theorem importNodes_grows (hg : g.Valid) (xs : List PdgNode) :
    Grows g (g.importNodes xs).2 {f | ∃ x ∈ xs, f = .node x.id} ∧
      List.Forall₂ (fun n x => (g.importNodes xs).2.idOf? n = some x.id) (g.importNodes xs).1 xs := by
  -- The numbers found so far keep their names while further nodes are made.
  have general : ∀ (xs : List PdgNode) (ns : List Nat) (g : Pdg), g.Valid →
      ∃ more h, xs.foldl (fun (found : List Nat × Pdg) x =>
          (found.1 ++ [(found.2.node x.id x.statement).1], (found.2.node x.id x.statement).2))
          (ns, g) = (ns ++ more, h) ∧
        Grows g h {f | ∃ x ∈ xs, f = .node x.id} ∧
        List.Forall₂ (fun n x => h.idOf? n = some x.id) more xs := by
    intro xs
    induction xs with
    | nil =>
        intro ns g hg
        exact ⟨[], g, by simp, (Grows.refl hg).congr (by simp), .nil⟩
    | cons x xs ih =>
        intro ns g hg
        obtain ⟨hx, hname⟩ := node_grows hg x.id x.statement
        obtain ⟨more, h, heq, hrest, hall⟩ :=
          ih (ns ++ [(g.node x.id x.statement).1]) (g.node x.id x.statement).2 hx.valid
        refine ⟨(g.node x.id x.statement).1 :: more, h, ?_, (hx.trans hrest).congr ?_,
          .cons (hrest.names hname) hall⟩
        · rw [List.foldl_cons, heq]
          simp
        · congr 1
          ext f
          simp
  obtain ⟨more, h, heq, hgrows, hall⟩ := general xs [] g hg
  have : g.importNodes xs = (more, h) := by
    rw [List.nil_append] at heq
    exact heq
  rw [this]
  exact ⟨hgrows, hall⟩

/-- `number` gives the numbers in `h` of the nodes of `other`. -/
def Renumbers (number : List Nat) (other h : Pdg) : Prop :=
  number.length = other.nodes.length ∧
    ∀ m n, number[m]? = some n → h.idOf? n = other.idOf? m

theorem Renumbers.grows {number : List Nat} {A : Set Fact} {i : Pdg}
    (hn : Renumbers number other h) (hhi : Grows h i A) : Renumbers number other i := by
  refine ⟨hn.1, ?_⟩
  intro m n hm
  have hname := hn.2 m n hm
  have hlt : m < other.nodes.length := by
    rw [← hn.1]
    exact (List.getElem?_eq_some_iff.1 hm).1
  obtain ⟨a, ha⟩ := idOf?_isSome.2 hlt
  rw [ha] at hname ⊢
  exact hhi.names hname

theorem Renumbers.lt {number : List Nat} (hn : Renumbers number other h) {m n : Nat}
    (hm : number[m]? = some n) : m < other.nodes.length := by
  rw [← hn.1]
  exact (List.getElem?_eq_some_iff.1 hm).1

theorem importEdges_grows {number : List Nat} {n : Nat} {x : PdgNode} (hg : g.Valid)
    (hn : Renumbers number other g) (hx : g.idOf? n = some x.id)
    (himport : g.importEdges number n x = .ok h) :
    Grows g h {f | ∃ k, ∃ m ∈ x.outgoing.get k, ∃ b, other.idOf? m = some b ∧
      f = .edge k x.id b} := by
  have all : ∀ k, k ∈ EdgeKind.all := by
    intro k
    cases k <;> simp [EdgeKind.all]
  have main := foldlM_grows (F := fun k => {f | ∃ m ∈ x.outgoing.get k,
    ∃ b, other.idOf? m = some b ∧ f = .edge k x.id b}) hg ?_ himport
  · refine main.congr ?_
    congr 1
    ext f
    simp [all]
  · intro k _ c d _ hc hd
    refine foldlM_grows (F := fun m => {f | ∃ b, other.idOf? m = some b ∧ f = .edge k x.id b})
      hc.valid ?_ hd
    intro m _ c' d' _ hc' hd'
    cases hnum : number[m]? with
    | none => simp [hnum] at hd'
    | some m' =>
        simp only [hnum] at hd'
        obtain ⟨b, hb⟩ := idOf?_isSome.2 (hn.lt hnum)
        have hname := ((hn.grows hc).grows hc').2 m m' hnum
        rw [hb] at hname
        refine (addEdge_grows hc'.valid (hc'.names (hc.names hx)) hname hd').congr ?_
        congr 1
        ext f
        simp [hb]

/-- Definitions of a variable in the numbers of another graph. -/
theorem renumber?_cases {number : List Nat} {d d' : Definitions}
    (h : Definitions.renumber? number d = some d') :
    d'.outer = d.outer ∧ d'.nodes.Pairwise (· < ·) ∧
      ∀ n, n ∈ d'.nodes ↔ ∃ m ∈ d.nodes, number[m]? = some n := by
  obtain ⟨ns, hns, rfl⟩ := Option.map_eq_some_iff.1 h
  refine ⟨rfl, NodeSet.pairwise_union .nil, ?_⟩
  intro n
  rw [NodeSet.mem_union, mem_of_mapM hns]
  simp

/-- The definitions of one variable after a merge. -/
def mergedAt (number : List Nat) (r other : Table Variable Definitions) (v : Variable) :
    Option Definitions :=
  match r.get? v, (other.get? v).bind (Definitions.renumber? number) with
  | some e, some d => some (e.merge d)
  | some e, none => some { e with outer := true }
  | none, some d => some { d with outer := true }
  | none, none => none

theorem mergeReaching_get? {number : List Nat} {r other t : Table Variable Definitions}
    (hr : (r.entries.map (·.1)).Nodup) (hother : (other.entries.map (·.1)).Nodup)
    (hmerge : mergeReaching number r other = .ok t) :
    (t.entries.map (·.1)).Nodup ∧ (∀ v, t.get? v = mergedAt number r other v) ∧
      ∀ v d, other.get? v = some d → ∃ d', Definitions.renumber? number d = some d' := by
  have inv := Success.foldlM_induction (P := fun pre t =>
    (t.entries.map (·.1)).Nodup ∧
    (∀ v, t.get? v = if v ∈ pre.map (·.1) then mergedAt number r other v else
      (r.mapValues fun v d => if other.contains v then d else { d with outer := true }).get? v) ∧
    ∀ v d, (v, d) ∈ pre → ∃ d', Definitions.renumber? number d = some d') ?_ ?_ hmerge
  · obtain ⟨nodup, hget, hdefined⟩ := inv
    refine ⟨nodup, ?_, fun v d hd => hdefined v d (Table.mem_of_get? hd)⟩
    intro v
    rw [hget]
    split
    · rfl
    · rename_i hv
      have absent : other.contains v = false := by
        rw [Bool.eq_false_iff]
        exact fun hc => hv (Table.contains_iff.1 hc)
      rw [Table.get?_mapValues, mergedAt, Table.get?_eq_none.2 hv]
      cases r.get? v <;> simp [absent]
  · refine ⟨by rw [Table.keys_mapValues]; exact hr, ?_, by simp⟩
    intro v
    simp
  · rintro pre ⟨v, d⟩ c t ⟨nodup, hget, hdefined⟩ hmem hstep
    have hd : other.get? v = some d := Table.get?_of_mem hother hmem
    cases hren : Definitions.renumber? number d with
    | none => simp [hren] at hstep
    | some d' =>
        have hmerged : t = c.insert v ((mergedAt number r other v).getD d') := by
          simp only [hren] at hstep
          cases hrv : r.get? v with
          | none =>
              simp only [hrv, Except.ok.injEq] at hstep
              simp [← hstep, mergedAt, hrv, hd, hren]
          | some e =>
              simp only [hrv, Except.ok.injEq] at hstep
              simp [← hstep, mergedAt, hrv, hd, hren]
        have hsome : mergedAt number r other v = some ((mergedAt number r other v).getD d') := by
          cases hrv : r.get? v <;> simp [mergedAt, hrv, hd, hren]
        subst hmerged
        refine ⟨Table.nodup_insert nodup, ?_, ?_⟩
        · intro w
          rw [Table.get?_insert, hget]
          by_cases hw : w = v
          · subst hw
            rw [if_pos rfl, ← hsome]
            simp
          · have same : w ∈ (pre ++ [(v, d)]).map (·.1) ↔ w ∈ pre.map (·.1) := by
              rw [List.map_append, List.mem_append]
              simp [hw]
            rw [if_neg hw]
            simp only [same]
        · intro w e he
          rcases List.mem_append.1 he with he | he
          · exact hdefined w e he
          · obtain ⟨rfl, rfl⟩ := Prod.mk.inj (List.mem_singleton.1 he)
            exact ⟨d', hren⟩

section Bare

variable {a : NodeId} {s : Option StatementId} {k : EdgeKind} {m n : Nat}

/-- Two folds correspond if their steps do. -/
theorem foldlM_map {α σ τ ε : Type} {f : σ → α → Except ε σ} {f' : τ → α → Except ε τ} {φ : σ → τ}
    (step : ∀ c a, f' (φ c) a = (f c a).map φ) (l : List α) (c : σ) : l.foldlM f' (φ c) = (l.foldlM f c).map φ := by
  induction l generalizing c with
  | nil => rfl
  | cons a l ih =>
      rw [List.foldlM_cons, List.foldlM_cons, step]
      cases f c a with
      | error e => rfl
      | ok d => exact ih d

theorem bare_node (g : Pdg) (a : NodeId) (s : Option StatementId) :
    g.bare.node a s = ((g.node a s).1, (g.node a s).2.bare) := by
  have same : g.bare.find? a = g.find? a := rfl
  unfold node
  rw [same]
  cases g.find? a <;> rfl

theorem bare_importNodes (g : Pdg) (xs : List PdgNode) :
    g.bare.importNodes xs = ((g.importNodes xs).1, (g.importNodes xs).2.bare) := by
  have general : ∀ (ns : List Nat) (g : Pdg),
      xs.foldl (fun (found : List Nat × Pdg) x =>
          (found.1 ++ [(found.2.node x.id x.statement).1], (found.2.node x.id x.statement).2)) (ns, g.bare) =
        ((xs.foldl (fun (found : List Nat × Pdg) x =>
          (found.1 ++ [(found.2.node x.id x.statement).1], (found.2.node x.id x.statement).2)) (ns, g)).1,
        (xs.foldl (fun (found : List Nat × Pdg) x =>
          (found.1 ++ [(found.2.node x.id x.statement).1], (found.2.node x.id x.statement).2)) (ns, g)).2.bare) := by
    induction xs with
    | nil => exact fun _ _ => rfl
    | cons x xs ih =>
        intro ns g
        simp only [List.foldl_cons, bare_node]
        exact ih _ _
  exact general [] g

theorem bare_insertEdge (g : Pdg) (k : EdgeKind) (m n : Nat) :
    g.bare.insertEdge k m n = (g.insertEdge k m n).map fun r => (r.1, r.2.bare) := by
  unfold insertEdge
  rw [show g.bare.nodes = g.nodes from rfl]
  cases g.nodes[m]? with
  | none => rfl
  | some x =>
      cases g.nodes[n]? with
      | none => rfl
      | some y =>
          dsimp only
          split <;> rfl

theorem bare_addEdge (g : Pdg) (k : EdgeKind) (m n : Nat) : g.bare.addEdge k m n = (g.addEdge k m n).map bare := by
  unfold addEdge
  rw [bare_insertEdge]
  cases g.insertEdge k m n <;> rfl

theorem bare_importEdges (g : Pdg) (number : List Nat) (n : Nat) (x : PdgNode) :
    g.bare.importEdges number n x = (g.importEdges number n x).map bare := by
  refine foldlM_map (fun c k => ?_) EdgeKind.all g
  refine foldlM_map (fun d m => ?_) (x.outgoing.get k) c
  cases number[m]? with
  | none => rfl
  | some m => exact bare_addEdge d k n m

end Bare

section Unite

/-- The nodes and edges of both graphs, with the definitions of the first. -/
def unite (g other : Pdg) : Except Fault Pdg :=
  ((g.importNodes other.nodes).1.zip other.nodes).foldlM
    (fun h nx => h.importEdges (g.importNodes other.nodes).1 nx.1 nx.2) (g.importNodes other.nodes).2

theorem unite_bare (g other : Pdg) : g.bare.unite other = (g.unite other).map bare := by
  unfold unite
  rw [bare_importNodes]
  dsimp only
  refine foldlM_map (fun c nx => ?_) _ _
  exact bare_importEdges c _ nx.1 nx.2

theorem importNodes_renumbers (hg : g.Valid) (other : Pdg) :
    Renumbers (g.importNodes other.nodes).1 other (g.importNodes other.nodes).2 := by
  obtain ⟨-, all⟩ := importNodes_grows hg other.nodes
  refine ⟨all.length_eq, fun m n hm => ?_⟩
  have lt : m < other.nodes.length := all.length_eq ▸ (List.getElem?_eq_some_iff.1 hm).1
  rw [forall₂_getElem? all hm (List.getElem?_eq_getElem lt)]
  exact (idOf?_eq_some.2 ⟨_, List.getElem?_eq_getElem lt, rfl⟩).symm

theorem unite_grows (hg : g.Valid) (united : g.unite other = .ok h) :
    Grows g h {f | f ∈ other.facts ∧ ∀ v, ¬ f.Tells v} ∧ Renumbers (g.importNodes other.nodes).1 other h := by
  obtain ⟨hnodes, hall⟩ := importNodes_grows hg other.nodes
  have hnumbers := importNodes_renumbers hg other
  have hgrow := foldlM_grows (F := fun nx => {f | ∃ k, ∃ m ∈ nx.2.outgoing.get k,
    ∃ b, other.idOf? m = some b ∧ f = .edge k nx.2.id b}) hnodes.valid ?_ united
  · refine ⟨(hnodes.trans hgrow).congr ?_, hnumbers.grows hgrow⟩
    congr 1
    ext f
    cases f with
    | reaches v d => simp [Fact.Tells]
    | node a =>
        simp only [Set.mem_union, Set.mem_ofPred_eq, Fact.node.injEq, mem_facts, Says,
          idOf?_eq_some, tells_node, not_false_eq_true, implies_true, and_true, reduceCtorEq,
          and_false, exists_false, or_false]
        constructor
        · rintro ⟨x, hx, rfl⟩
          obtain ⟨n, hn⟩ := List.mem_iff_getElem?.1 hx
          exact ⟨n, x, hn, rfl⟩
        · rintro ⟨n, x, hn, rfl⟩
          exact ⟨x, List.mem_of_getElem? hn, rfl⟩
    | edge k a b =>
        simp only [Set.mem_union, Set.mem_ofPred_eq, reduceCtorEq, and_false, exists_false,
          false_or, mem_facts, Says, tells_edge, not_false_eq_true, implies_true, and_true]
        constructor
        · rintro ⟨⟨n, x⟩, hmem, k', m, hm, c, hc, heq⟩
          obtain ⟨rfl, rfl, rfl⟩ := Fact.edge.inj heq
          obtain ⟨j, hj⟩ := List.mem_iff_getElem?.1 hmem
          obtain ⟨-, hx⟩ := List.getElem?_zip_eq_some.1 hj
          exact ⟨j, m, idOf?_eq_some.2 ⟨x, hx, rfl⟩, hc, x, hx, hm⟩
        · rintro ⟨j, m, ha, hb, x, hx, hm⟩
          obtain ⟨n, hn⟩ : ∃ n, (g.importNodes other.nodes).1[j]? = some n := by
            refine ⟨_, List.getElem?_eq_getElem ?_⟩
            rw [hall.length_eq]
            exact (List.getElem?_eq_some_iff.1 hx).1
          obtain rfl : x.id = a := by simpa [idOf?, hx] using ha
          exact ⟨(n, x), List.mem_of_getElem? (List.getElem?_zip_eq_some.2 ⟨hn, hx⟩), k, m, hm, b,
            hb, rfl⟩
  · rintro ⟨n, x⟩ hmem c d _ hc hd
    obtain ⟨m, hm⟩ := List.mem_iff_getElem?.1 hmem
    obtain ⟨hn, hx⟩ := List.getElem?_zip_eq_some.1 hm
    exact importEdges_grows hc.valid (hnumbers.grows hc)
      (hc.names (forall₂_getElem? hall hn hx)) hd

theorem insertEdge_succeeds {k : EdgeKind} {m n : Nat} (hm : m < g.nodes.length) (hn : n < g.nodes.length) :
    Succeeds (fun _ => True) (g.insertEdge k m n) := by
  unfold insertEdge
  rw [List.getElem?_eq_getElem hm, List.getElem?_eq_getElem hn]
  dsimp only
  split <;> exact .ok trivial

/-- Adding an edge adds no nodes. -/
theorem addEdge_length {k : EdgeKind} {m n : Nat} (hadd : g.addEdge k m n = .ok h) :
    h.nodes.length = g.nodes.length := by
  obtain ⟨⟨b, h'⟩, hins, rfl⟩ := Success.map_iff.1 hadd
  obtain ⟨-, -, ⟨-, rfl, -⟩ | ⟨-, -, -, hnodes⟩⟩ := insertEdge_cases hins
  · rfl
  · exact linked_length hnodes

theorem Renumbers.exists_lt {number : List Nat} {m : Nat} (hn : Renumbers number other g)
    (hm : m < other.nodes.length) : ∃ n, number[m]? = some n ∧ n < g.nodes.length := by
  have lt : m < number.length := hn.1.symm ▸ hm
  refine ⟨number[m], List.getElem?_eq_getElem lt, ?_⟩
  obtain ⟨a, ha⟩ := idOf?_isSome.2 hm
  exact idOf?_isSome.1 ⟨a, (hn.2 m _ (List.getElem?_eq_getElem lt)).trans ha⟩

/-- Graphs whose edges lead to nodes can be united. -/
theorem unite_succeeds (hg : g.Valid) (inside : ∀ {k m n}, other.Out k m n → n < other.nodes.length) :
    Succeeds (fun _ => True) (g.unite other) := by
  have numbers := importNodes_renumbers hg other
  -- The numbers stay within the graph, since no nodes are added.
  let I : Pdg → Prop := fun h => h.nodes.length = (g.importNodes other.nodes).2.nodes.length
  refine Succeeds.mono (P := I) (.foldlM rfl fun nx hnx c hc => ?_) fun _ _ _ => trivial
  obtain ⟨j, hj⟩ := List.mem_iff_getElem?.1 hnx
  obtain ⟨hnumber, hnode⟩ := List.getElem?_zip_eq_some.1 hj
  have lt : nx.1 < (g.importNodes other.nodes).2.nodes.length :=
    idOf?_isSome.1 ⟨_, (numbers.2 j nx.1 hnumber).trans (idOf?_eq_some.2 ⟨nx.2, hnode, rfl⟩)⟩
  refine Succeeds.foldlM (I := I) hc fun k _ d hd => .foldlM hd fun m hm d' hd' => ?_
  obtain ⟨m', hm', lt'⟩ := numbers.exists_lt (inside ⟨nx.2, hnode, hm⟩)
  simp only [hm']
  have edge := insertEdge_succeeds (g := d') (k := k) (hd'.symm ▸ lt) (hd'.symm ▸ lt')
  exact (edge.map (Q := fun _ => True) fun _ _ => trivial).mono fun d'' hadd _ => (addEdge_length hadd).trans hd'

theorem renumber?_isSome {number : List Nat} {d : Definitions}
    (hd : ∀ n ∈ d.nodes, n < number.length) : ∃ e, d.renumber? number = some e := by
  have all : ∀ l : List Nat, (∀ n ∈ l, n < number.length) → ∃ ns, l.mapM (fun n => number[n]?) = some ns := by
    intro l
    induction l with
    | nil => exact fun _ => ⟨[], rfl⟩
    | cons n l ih =>
        intro hl
        obtain ⟨ns, hns⟩ := ih fun m hm => hl m (List.mem_cons_of_mem n hm)
        refine ⟨number.get ⟨n, hl n List.mem_cons_self⟩ :: ns, ?_⟩
        simp [List.mapM_cons, hns, List.getElem?_eq_getElem (hl n List.mem_cons_self)]
  obtain ⟨ns, hns⟩ := all d.nodes hd
  exact ⟨_, Option.map_eq_some_iff.2 ⟨ns, hns, rfl⟩⟩

theorem mergeReaching_succeeds {number : List Nat} {r t : Table Variable Definitions}
    (ht : ∀ v d, (v, d) ∈ t.entries → ∀ n ∈ d.nodes, n < number.length) :
    Succeeds (fun _ => True) (mergeReaching number r t) := by
  refine .foldlM trivial fun x hx c _ => ?_
  obtain ⟨e, he⟩ := renumber?_isSome (ht x.1 x.2 hx)
  simp only [he]
  split <;> exact .ok trivial

end Unite

section Alternatives

variable (hgn : g.isNeutral = false) (hon : other.isNeutral = false)

include hgn hon

/-- Unless one of the graphs is empty, their nodes and edges are united, and then the definitions are merged. -/
theorem compose_eq (entries : g.entryId? = other.entryId?) :
    g.compose other = (g.unite other).bind fun h =>
      (mergeReaching (g.importNodes other.nodes).1 g.reaching other.reaching).map
        fun r => { h with reaching := r } := by
  unfold compose
  rw [if_neg (by simp [hon]), if_neg (by simp [hgn]), if_neg (by simp [entries])]
  rfl

theorem compose_fails (entries : g.entryId? ≠ other.entryId?) : ∃ f, g.compose other = .error f := by
  unfold compose
  rw [if_neg (by simp [hon]), if_neg (by simp [hgn]), if_pos entries]
  exact ⟨_, rfl⟩

end Alternatives

/-- The graph `h` of the nodes and edges of `g` and `other`, with their merged definitions. -/
structure Joins (number : List Nat) (g other h i : Pdg) : Prop where
  grows : Grows g.bare h {f | f ∈ other.facts ∧ ∀ v, ¬ f.Tells v}
  numbers : Renumbers number other h
  nodes : i.nodes = h.nodes
  entry : i.entry = h.entry
  keys : (i.reaching.entries.map (·.1)).Nodup
  reaching : ∀ v, i.reaching.get? v = mergedAt number g.reaching other.reaching v
  defined : ∀ v d, other.reaching.get? v = some d → ∃ d', Definitions.renumber? number d = some d'

section Joining

variable (hg : g.Consistent) (hother : other.Consistent) (hgn : g.isNeutral = false) (hon : other.isNeutral = false)

include hg hother hgn hon

theorem compose_joins {i : Pdg} (hcomp : g.compose other = .ok i) : ∃ number h, Joins number g other h i := by
  by_cases entries : g.entryId? = other.entryId?
  · rw [compose_eq hgn hon entries] at hcomp
    obtain ⟨h, united, hcomp⟩ := Success.bind_method_iff.1 hcomp
    obtain ⟨t, ht, rfl⟩ := Success.map_iff.1 hcomp
    obtain ⟨hkeys, hget, hdefined⟩ := mergeReaching_get? hg.keys hother.keys ht
    have bare : g.bare.unite other = .ok h.bare := by
      rw [unite_bare, united]
      rfl
    obtain ⟨grows, numbers⟩ := unite_grows hg.bare bare
    rw [bare_importNodes] at numbers
    exact ⟨_, h.bare, grows, numbers, rfl, rfl, hkeys, hget, hdefined⟩
  · obtain ⟨f, fails⟩ := compose_fails hgn hon entries
    rw [fails] at hcomp
    cases hcomp

/-- Alternatives with the same entry can be merged. -/
theorem compose_succeeds_of_entry (entries : g.entryId? = other.entryId?) : ∃ i, g.compose other = .ok i := by
  have inside : ∀ {k m n}, other.Out k m n → n < other.nodes.length := by
    intro k m n out
    obtain ⟨b, hb⟩ := hother.bare.target (g := other.bare) out
    exact idOf?_isSome.1 ⟨b, hb⟩
  obtain ⟨h', bare, -⟩ := unite_succeeds hg.bare inside
  rw [unite_bare] at bare
  obtain ⟨h, united, -⟩ := Success.map_iff.1 bare
  have numbers := (importNodes_renumbers hg.bare other).1
  rw [bare_importNodes] at numbers
  have inside' : ∀ v d, (v, d) ∈ other.reaching.entries → ∀ n ∈ d.nodes, n < (g.importNodes other.nodes).1.length :=
    fun v d hd n hn => Nat.lt_of_lt_of_eq ((hother.definitions v d hd).2 n hn) numbers.symm
  obtain ⟨r, merged, -⟩ := mergeReaching_succeeds (r := g.reaching) inside'
  refine ⟨{ h with reaching := r }, ?_⟩
  rw [compose_eq hgn hon entries, united]
  change (mergeReaching _ _ _).map _ = _
  rw [merged]
  rfl

end Joining

namespace Joins

variable {number : List Nat} {i : Pdg} {v : Variable}

/-- Which definitions a merge leaves. -/
theorem cases (hj : Joins number g other h i) {d : Definitions}
    (hd : i.reaching.get? v = some d) :
    (∀ n, n ∈ d.nodes ↔ (∃ e, g.reaching.get? v = some e ∧ n ∈ e.nodes) ∨
      ∃ e m, other.reaching.get? v = some e ∧ m ∈ e.nodes ∧ number[m]? = some n) ∧
    (d.outer = true ↔ (∀ e, g.reaching.get? v = some e → e.outer = true) ∨
      ∀ e, other.reaching.get? v = some e → e.outer = true) := by
  rw [hj.reaching] at hd
  cases hgv : g.reaching.get? v with
  | none =>
      cases hov : other.reaching.get? v with
      | none => simp [mergedAt, hgv, hov] at hd
      | some e =>
          obtain ⟨e', he'⟩ := hj.defined v e hov
          obtain ⟨-, -, hmem⟩ := renumber?_cases he'
          simp only [mergedAt, hgv, hov, Option.bind_some, he', Option.some.injEq] at hd
          subst hd
          simp [hmem]
  | some e =>
      cases hov : other.reaching.get? v with
      | none =>
          simp only [mergedAt, hgv, hov, Option.bind_none, Option.some.injEq] at hd
          subst hd
          simp
      | some e₂ =>
          obtain ⟨e', he'⟩ := hj.defined v e₂ hov
          obtain ⟨houter, -, hmem⟩ := renumber?_cases he'
          simp only [mergedAt, hgv, hov, Option.bind_some, he', Option.some.injEq] at hd
          subst hd
          simp [Definitions.merge, NodeSet.mem_union, hmem, houter]

theorem get?_eq_none (hj : Joins number g other h i) :
    i.reaching.get? v = none ↔ g.reaching.get? v = none ∧ other.reaching.get? v = none := by
  rw [hj.reaching]
  cases hgv : g.reaching.get? v with
  | none =>
      cases hov : other.reaching.get? v with
      | none => simp [mergedAt, hgv, hov]
      | some e =>
          obtain ⟨e', he'⟩ := hj.defined v e hov
          simp [mergedAt, hgv, hov, he']
  | some e =>
      cases hov : (other.reaching.get? v).bind (Definitions.renumber? number) with
      | none => simp [mergedAt, hgv, hov]
      | some e' => simp [mergedAt, hgv, hov]

theorem idOf?_eq (hj : Joins number g other h i) (n : Nat) : i.idOf? n = h.idOf? n := by
  simp [idOf?, hj.nodes]

theorem facts (hj : Joins number g other h i) (hg : g.Consistent) (hother : other.Consistent) :
    i.facts = g.facts ∪ other.facts := by
  have hids := hj.idOf?_eq
  have hout : ∀ k m n, i.Out k m n ↔ h.Out k m n := by
    intro k m n
    simp [Out, hj.nodes]
  -- Nodes and edges are those of `h`; the definitions are the merged ones.
  have plain : ∀ f, (∀ v, ¬ Fact.Tells f v) → (f ∈ h.facts ↔ f ∈ g.facts ∪ other.facts) := by
    intro f hf
    rw [hj.grows.facts, Set.mem_union, mem_bare_facts hf]
    simp [hf]
  ext f
  cases f with
  | node a =>
      rw [← plain _ (by simp)]
      simp [Says, hids]
  | edge k a b =>
      rw [← plain _ (by simp)]
      simp [Says, hids, hout]
  | reaches v d =>
      cases d with
      | none =>
          simp only [mem_facts, Says, Set.mem_union]
          cases hd : i.reaching.get? v with
          | none =>
              obtain ⟨hgv, -⟩ := hj.get?_eq_none.1 hd
              simp [hgv]
          | some d => simp [(hj.cases hd).2]
      | some a =>
          simp only [mem_facts, Says, Set.mem_union, hids]
          constructor
          · rintro ⟨d, hd, n, hn, ha⟩
            rcases ((hj.cases hd).1 n).1 hn with ⟨e, he, hne⟩ | ⟨e, m, he, hm, hnum⟩
            · have lt := (hg.definitions v e (Table.mem_of_get? he)).2 n hne
              rw [hj.grows.idOf?_eq (g := g.bare) lt] at ha
              exact .inl ⟨e, he, n, hne, ha⟩
            · rw [hj.numbers.2 m n hnum] at ha
              exact .inr ⟨e, he, m, hm, ha⟩
          · rintro (⟨e, he, n, hn, ha⟩ | ⟨e, he, m, hm, ha⟩)
            · cases hd : i.reaching.get? v with
              | none =>
                  rw [(hj.get?_eq_none.1 hd).1] at he
                  cases he
              | some d =>
                  exact ⟨d, rfl, n, ((hj.cases hd).1 n).2 (.inl ⟨e, he, hn⟩), hj.grows.names ha⟩
            · cases hd : i.reaching.get? v with
              | none =>
                  rw [(hj.get?_eq_none.1 hd).2] at he
                  cases he
              | some d =>
                  have lt := (hother.definitions v e (Table.mem_of_get? he)).2 m hm
                  rw [← hj.numbers.1] at lt
                  have hnum := List.getElem?_eq_getElem lt
                  refine ⟨d, rfl, number[m], ((hj.cases hd).1 _).2 (.inr ⟨e, m, he, hm, hnum⟩), ?_⟩
                  rw [hj.numbers.2 m _ hnum]
                  exact ha

theorem ascending (hj : Joins number g other h i) (hg : g.Consistent) {d : Definitions}
    (hd : i.reaching.get? v = some d) : d.nodes.Pairwise (· < ·) := by
  rw [hj.reaching, mergedAt] at hd
  cases hren : (other.reaching.get? v).bind (Definitions.renumber? number) with
  | none =>
      cases hgv : g.reaching.get? v with
      | none => simp [hgv, hren] at hd
      | some e =>
          simp only [hgv, hren, Option.some.injEq] at hd
          subst hd
          exact (hg.definitions v e (Table.mem_of_get? hgv)).1
  | some e' =>
      obtain ⟨e, -, he'⟩ := Option.bind_eq_some_iff.1 hren
      cases hgv : g.reaching.get? v with
      | none =>
          simp only [hgv, hren, Option.some.injEq] at hd
          subst hd
          exact (renumber?_cases he').2.1
      | some e =>
          simp only [hgv, hren, Option.some.injEq] at hd
          subst hd
          exact NodeSet.pairwise_union (hg.definitions v e (Table.mem_of_get? hgv)).1

theorem consistent (hj : Joins number g other h i) (hg : g.Consistent) : i.Consistent where
  ids := hj.nodes ▸ hj.grows.valid.ids
  mirrored := by
    simpa only [Out, In, hj.nodes] using hj.grows.valid.mirrored
  ascending := hj.nodes ▸ hj.grows.valid.ascending
  entry := by
    rw [hj.entry, hj.nodes]
    exact hj.grows.valid.entry
  keys := hj.keys
  definitions := by
    intro v d hmem
    have hd := Table.get?_of_mem hj.keys hmem
    refine ⟨hj.ascending hg hd, fun n hn => ?_⟩
    rw [hj.nodes]
    rcases ((hj.cases hd).1 n).1 hn with ⟨e, he, hne⟩ | ⟨e, m, he, hm, hnum⟩
    · exact Nat.lt_of_lt_of_le ((hg.definitions v e (Table.mem_of_get? he)).2 n hne) hj.grows.length_le
    · obtain ⟨a, ha⟩ := idOf?_isSome.2 (hj.numbers.lt hnum)
      exact idOf?_isSome.1 ⟨a, (hj.numbers.2 m n hnum).trans ha⟩

/-- Where all definitions of two graphs have nodes, those of the merged graph have. -/
theorem valid (hj : Joins number g other h i) (hg : g.Valid) (hother : other.Valid) : i.Valid := by
  refine (hj.consistent hg.consistent).valid fun v d hmem hnil => ?_
  have hd := Table.get?_of_mem hj.keys hmem
  have hcases := (hj.cases hd).1
  have empty : ∀ n, n ∉ d.nodes := by simp [hnil]
  cases hgv : g.reaching.get? v with
  | some e =>
      obtain ⟨n, hn⟩ := List.exists_mem_of_ne_nil _ (hg.definitions v e (Table.mem_of_get? hgv)).1
      exact empty n ((hcases n).2 (.inl ⟨e, hgv, hn⟩))
  | none =>
      cases hov : other.reaching.get? v with
      | none =>
          rw [hj.get?_eq_none.2 ⟨hgv, hov⟩] at hd
          cases hd
      | some e =>
          obtain ⟨hne, -, hlt⟩ := hother.definitions v e (Table.mem_of_get? hov)
          obtain ⟨m, hm⟩ := List.exists_mem_of_ne_nil _ hne
          have lt := hlt m hm
          rw [← hj.numbers.1] at lt
          exact empty _ ((hcases _).2 (.inr ⟨e, m, hov, hm, List.getElem?_eq_getElem lt⟩))

end Joins

theorem not_neutral_of_entry (hg : g.entry.isSome) : g.isNeutral = false := by
  simp [isNeutral, Option.isNone_eq_false_iff.2 hg]

theorem compose_facts (hg : g.Valid) (hother : other.Valid) (hge : g.entry.isSome)
    (hoe : other.entry.isSome) {i : Pdg} (hcomp : g.compose other = .ok i) :
    i.Valid ∧ i.entry = g.entry ∧ i.facts = g.facts ∪ other.facts ∧
      ∀ {n a}, g.idOf? n = some a → i.idOf? n = some a := by
  obtain ⟨number, h, hj⟩ := compose_joins hg.consistent hother.consistent (not_neutral_of_entry hge)
    (not_neutral_of_entry hoe) hcomp
  refine ⟨hj.valid hg hother, hj.entry.trans hj.grows.entry, hj.facts hg.consistent hother.consistent, ?_⟩
  intro n a hn
  rw [hj.idOf?_eq]
  exact hj.grows.names hn

end Pdg

end DeltaSlice

import DeltaSlice.Proofs.Pdg.Invariant
import DeltaSlice.Proofs.Globals.Agreement

/-!
Finalizing is exact. A graph that can be closed gets the output nodes and the edges that its definitions ask for, and
no edge is repeated. All graphs that simulators pass on to be finalized can be closed, whatever the observer: this is
a property that lasts through the operations on graphs, and so through small steps, wakeups, merges and updates.
-/

namespace DeltaSlice

namespace Pdg

variable {g h c : Pdg} {a b : NodeId} {m n : Nat} {k : EdgeKind} {v : Variable}

/-- A graph that can be closed: it satisfies the representation invariant, and it has no output nodes and no
definitions by input nodes. -/
structure Closable (g : Pdg) : Prop extends WellFormed g where
  unclosed : ∀ v, .node (.output v) ∉ g.facts
  inner : ∀ v w, .reaches v (some (.input w)) ∉ g.facts

/-- The node is a definition of the variable at the end, or its input node if one before the transition is. -/
def Feeds (g : Pdg) (a : NodeId) (v : Variable) : Prop :=
  ∃ d, g.reaching.get? v = some d ∧ ((∃ n ∈ d.nodes, g.idOf? n = some a) ∨ d.outer = true ∧ a = .input v)

/-- All nodes of `g` are the same in `h`, but for their edges. -/
def Retains (g h : Pdg) : Prop :=
  ∀ (n : Nat) (x : PdgNode), g.nodes[n]? = some x →
    ∃ y, h.nodes[n]? = some y ∧ y.id = x.id ∧ y.statement = x.statement

/-- `h` is what closing makes of `g`. -/
structure Closes (g h : Pdg) : Prop where
  wellFormed : h.WellFormed
  retains : Retains g h
  entry : h.entry = g.entry
  output : ∀ v, h.has (.output v) = true ↔ g.Lists v
  sources : ∀ v a, .edge .data a (.output v) ∈ h.facts ↔ g.Feeds a v
  nodes : ∀ a, .node a ∈ h.facts ↔ .node a ∈ g.facts ∨ (∃ v, a = .output v ∧ g.Lists v) ∨
    ∃ v d, a = .input v ∧ g.reaching.get? v = some d ∧ d.outer = true
  edges : ∀ k a b, .edge k a b ∈ h.facts ↔ .edge k a b ∈ g.facts ∨ k = .data ∧ ∃ v, b = .output v ∧ g.Feeds a v
  unreached : ∀ v, ¬ h.Lists v

/-- A variable is closed by an edge from its input node, if need be, and then one from each of its definitions. -/
theorem close_cases {d : Definitions} (hclose : g.close v d = .ok h) : ∃ c,
    (if d.outer then ((g.outputNode v).2.inputNode v).2.insertNewEdge .data ((g.outputNode v).2.inputNode v).1
      (g.outputNode v).1 else .ok (g.outputNode v).2) = .ok c ∧
    d.nodes.foldlM (fun c n => c.insertNewEdge .data n (g.outputNode v).1) c = .ok h :=
  Success.bind_method_iff.1 hclose

section Retains

theorem Retains.refl (g : Pdg) : Retains g g := fun _ x hx => ⟨x, hx, rfl, rfl⟩

theorem Retains.trans (first : Retains g h) (next : Retains h c) : Retains g c := by
  intro n x hx
  obtain ⟨y, hy, id, statement⟩ := first n x hx
  obtain ⟨z, hz, id', statement'⟩ := next n y hy
  exact ⟨z, hz, id'.trans id, statement'.trans statement⟩

theorem retains_node (g : Pdg) (a : NodeId) (s : Option StatementId) : Retains g (g.node a s).2 := by
  rcases node_cases g a s with ⟨m, -, same⟩ | ⟨-, same⟩
  · rw [same]
    exact .refl g
  · rw [same]
    refine fun n x hx => ⟨x, ?_, rfl, rfl⟩
    rw [push, List.getElem?_append_left (List.getElem?_eq_some_iff.1 hx).1]
    exact hx

theorem retains_insertNewEdge (hins : g.insertNewEdge k m n = .ok h) : Retains g h := by
  unfold insertNewEdge at hins
  split at hins
  · rename_i hins'
    obtain rfl := Except.ok.inj hins
    obtain ⟨-, -, ⟨-, rfl, -⟩ | ⟨-, -, -, hnodes⟩⟩ := insertEdge_cases hins'
    · exact .refl _
    · exact fun i x hx => ⟨linked k m n i x, (hnodes i).trans (congrArg _ hx), rfl, rfl⟩
  · split at hins <;> cases hins
  · cases hins

theorem retains_close {d : Definitions} (hclose : g.close v d = .ok h) : Retains g h := by
  obtain ⟨c, opened, hclose⟩ := close_cases hclose
  have first : Retains g c := by
    refine (retains_node g (.output v) none).trans ?_
    split at opened
    · exact (retains_node _ (.input v) none).trans (retains_insertNewEdge opened)
    · exact Except.ok.inj opened ▸ .refl _
  exact Success.foldlM_induction (fun _ i => Retains g i) first
    (fun _ _ _ _ hc _ hd => hc.trans (retains_insertNewEdge hd)) hclose

theorem retains_finalize (hfin : g.finalize = .ok h) : Retains g h := by
  rw [finalize_eq] at hfin
  exact Success.foldlM_induction (fun _ i => Retains g i) (show Retains g g.bare from .refl g)
    (fun _ _ _ _ hc _ hd => hc.trans (retains_close hd)) hfin

end Retains

section Edits

theorem run_bind_of_ok {β γ : Type} {e : Edit Pdg β} {f : β → Edit Pdg γ} {b : β} (he : e.run.run g = (.ok b, h)) :
    (e >>= f).run.run g = (f b).run.run h := by
  rw [ExceptT.run_bind, StateT.run_bind, he]
  rfl

/-- Edges that can be inserted one after the other. -/
theorem links_run {ns : List Nat} {o : Nat}
    (linked : ns.foldlM (fun (c : Pdg) n => c.insertNewEdge .data n o) g = .ok h) :
    (forIn ns PUnit.unit fun n _ => do editNewEdge .data n o; return ForInStep.yield PUnit.unit :
      Edit Pdg PUnit).run.run g = (.ok PUnit.unit, h) := by
  induction ns generalizing g with
  | nil =>
      obtain rfl := Except.ok.inj linked
      rfl
  | cons n ns ih =>
      rw [List.foldlM_cons] at linked
      obtain ⟨c, hc, linked⟩ := Success.bind_iff.1 linked
      have first : (editNewEdge .data n o).run.run g = (.ok (), c) := by
        rw [editNewEdge_run, hc]
      rw [List.forIn_cons]
      have step : (do editNewEdge .data n o; return ForInStep.yield PUnit.unit :
          Edit Pdg (ForInStep PUnit)).run.run g = (.ok (.yield PUnit.unit), c) := run_bind_of_ok first
      rw [run_bind_of_ok step]
      exact ih linked

/-- The edit that closes variables goes through where they can be closed. -/
theorem editClose_run {order : List (Variable × Definitions)}
    (closes : order.foldlM (fun c r => c.close r.1 r.2) g = .ok h) :
    (editClose order).run.run g = (.ok (), h.bare) := by
  induction order generalizing g with
  | nil =>
      obtain rfl := Except.ok.inj closes
      rfl
  | cons r order ih =>
      obtain ⟨v, d⟩ := r
      rw [List.foldlM_cons] at closes
      obtain ⟨c, hc, closes⟩ := Success.bind_iff.1 closes
      obtain ⟨i, opened, linked⟩ := close_cases hc
      have rest : (do
          for n in d.nodes do editNewEdge .data n (g.outputNode v).1
          editClose order : Edit Pdg Unit).run.run i = (.ok (), h.bare) :=
        (run_bind_of_ok (links_run linked)).trans (ih closes)
      rw [editClose_cons]
      split at opened
      · rename_i outer
        rw [if_pos outer]
        have first : (editNewEdge .data ((g.outputNode v).2.inputNode v).1 (g.outputNode v).1).run.run
            ((g.outputNode v).2.inputNode v).2 = (.ok (), i) := by
          rw [editNewEdge_run, opened]
        exact (run_bind_of_ok first).trans rest
      · rename_i outer
        rw [if_neg outer]
        obtain rfl := Except.ok.inj opened
        exact rest

theorem finalize_run (hfin : g.finalize = .ok h) : editFinalize.run.run g = (.ok (), h) := by
  obtain ⟨c, closes, rfl⟩ := Success.map_iff.1 hfin
  exact editClose_run closes

end Edits

section Closing

theorem node_mem_closing {r : Variable × Definitions} :
    .node a ∈ g.closing r ↔ a = .output r.1 ∨ r.2.outer = true ∧ a = .input r.1 := by
  simp [closing]

theorem edge_mem_closing {r : Variable × Definitions} : .edge k a b ∈ g.closing r ↔
    k = .data ∧ b = .output r.1 ∧ ((∃ n ∈ r.2.nodes, g.idOf? n = some a) ∨ r.2.outer = true ∧ a = .input r.1) := by
  simp only [closing, Set.mem_ofPred_eq, reduceCtorEq, false_or, Fact.edge.injEq]
  constructor
  · rintro (⟨outer, rfl, rfl, rfl⟩ | ⟨n, hn, a', name, rfl, rfl, rfl⟩)
    · exact ⟨rfl, rfl, .inr ⟨outer, rfl⟩⟩
    · exact ⟨rfl, rfl, .inl ⟨n, hn, name⟩⟩
  · rintro ⟨rfl, rfl, ⟨n, hn, name⟩ | ⟨outer, rfl⟩⟩
    · exact .inr ⟨n, hn, a, name, rfl, rfl, rfl⟩
    · exact .inl ⟨outer, rfl, rfl, rfl⟩

/-- Closing a closable graph adds the nodes and edges that its definitions ask for, and nothing else. -/
theorem Closable.closes (hg : g.Closable) : ∃ h, g.finalize = .ok h ∧ Closes g h := by
  have entries : ∀ {v d}, (v, d) ∈ g.reaching.entries ↔ g.reaching.get? v = some d :=
    ⟨Table.get?_of_mem hg.keys, Table.mem_of_get?⟩
  obtain ⟨h, hfin, grows⟩ := closing_succeeds hg.toConsistent hg.unclosed
    fun v d hd n hn w name => hg.inner v w ⟨d, entries.1 hd, n, hn, name⟩
  refine ⟨h, hfin, ?_⟩
  have node : ∀ a, .node a ∈ h.facts ↔ .node a ∈ g.facts ∨ (∃ v, a = .output v ∧ g.Lists v) ∨
      ∃ v d, a = .input v ∧ g.reaching.get? v = some d ∧ d.outer = true := by
    intro a
    rw [grows.facts, Set.mem_union, mem_bare_facts (by simp)]
    refine or_congr_right ?_
    simp only [Set.mem_ofPred_eq, node_mem_closing]
    constructor
    · rintro ⟨⟨v, d⟩, hr, rfl | ⟨outer, rfl⟩⟩
      · exact .inl ⟨v, rfl, Option.isSome_iff_exists.2 ⟨d, entries.1 hr⟩⟩
      · exact .inr ⟨v, d, rfl, entries.1 hr, outer⟩
    · rintro (⟨v, rfl, listed⟩ | ⟨v, d, rfl, hd, outer⟩)
      · obtain ⟨d, hd⟩ := Option.isSome_iff_exists.1 listed
        exact ⟨(v, d), entries.2 hd, .inl rfl⟩
      · exact ⟨(v, d), entries.2 hd, .inr ⟨outer, rfl⟩⟩
  have edge : ∀ k a b, .edge k a b ∈ h.facts ↔
      .edge k a b ∈ g.facts ∨ k = .data ∧ ∃ v, b = .output v ∧ g.Feeds a v := by
    intro k a b
    rw [grows.facts, Set.mem_union, mem_bare_facts (by simp)]
    refine or_congr_right ?_
    simp only [Set.mem_ofPred_eq, edge_mem_closing]
    constructor
    · rintro ⟨⟨v, d⟩, hr, rfl, rfl, feeds⟩
      exact ⟨rfl, v, rfl, d, entries.1 hr, feeds⟩
    · rintro ⟨rfl, v, rfl, d, hd, feeds⟩
      exact ⟨(v, d), entries.2 hd, rfl, rfl, feeds⟩
  refine { wellFormed := ?_, retains := retains_finalize hfin, entry := grows.entry, output := fun v => ?_,
           sources := fun v a => ?_, nodes := node, edges := edge, unreached := fun v => ?_ }
  · have kept := keeps_editFinalize g hg.toWellFormed
    rw [finalize_run hfin] at kept
    exact kept
  · rw [has_iff, node]
    simp [hg.unclosed v]
  · rw [edge]
    constructor
    · rintro (old | ⟨-, w, same, feeds⟩)
      · exact absurd (target_mem old) (hg.unclosed v)
      · obtain rfl := NodeId.output.inj same
        exact feeds
    · exact fun feeds => .inr ⟨rfl, v, rfl, feeds⟩
  · simp [Lists, grows.reaching, bare, Table.empty, Table.get?]

end Closing

section Objects

variable {x : Guarded Pdg}

/-- The result of finalizing is frozen. -/
theorem finalize_value (hfin : x.value.finalize = .ok h) : x.finalize.1 = .ok ⟨h, true⟩ := by
  have edited : x.copy.edit editFinalize = (.ok (), .fresh h) := by
    change (((editFinalize.run.run x.value).1, Guarded.fresh (editFinalize.run.run x.value).2) : _ × Guarded Pdg) = _
    rw [finalize_run hfin]
  unfold Guarded.finalize
  rw [edited]
  rfl

/-- Without definitions, closing changes nothing. -/
theorem finalize_unreached (unreached : ∀ v, ¬ g.Lists v) : g.finalize = .ok g := by
  have none : g.reaching = .empty := by
    obtain ⟨nodes, entry, ⟨entries⟩⟩ := g
    cases entries with
    | nil => rfl
    | cons r entries =>
        refine absurd ?_ (unreached r.1)
        simp [Lists, Table.get?]
  rw [finalize_eq, none]
  exact congrArg Except.ok (by rw [bare, ← none])

end Objects

section Closable

/-- A graph stays closable while nodes and edges are added, but no output nodes. -/
theorem Closable.grown (hg : g.Closable) (hh : h.WellFormed) (reaching : h.reaching = g.reaching)
    (names : ∀ {n b}, g.idOf? n = some b → h.idOf? n = some b)
    (inside : ∀ v, .node (.output v) ∈ h.facts → .node (.output v) ∈ g.facts) : h.Closable where
  toWellFormed := hh
  unclosed v output := hg.unclosed v (inside v output)
  inner v w := by
    rintro ⟨d, hd, n, hn, name⟩
    rw [reaching] at hd
    obtain ⟨b, hb⟩ := idOf?_isSome.2 ((hg.definitions v d (Table.mem_of_get? hd)).2 n hn)
    obtain rfl := Option.some.inj ((names hb).symm.trans name)
    exact hg.inner v w ⟨d, hd, n, hn, hb⟩

theorem Closable.node (hg : g.Closable) {s : Option StatementId} (hh : (g.node a s).2.WellFormed)
    (inner : ∀ v, a ≠ .output v) : (g.node a s).2.Closable := by
  rcases node_cases g a s with ⟨m, -, same⟩ | ⟨-, same⟩
  · rw [same]
    exact hg
  · rw [same] at hh ⊢
    refine hg.grown hh rfl (fun name => push_idOf?.2 (.inl name)) fun v ⟨n, hn⟩ => ?_
    obtain old | ⟨-, new⟩ := push_idOf?.1 hn
    · exact ⟨n, old⟩
    · exact absurd new.symm (inner v)

theorem Closable.addEdge (hg : g.Closable) (hadd : g.addEdge k m n = .ok h) : h.Closable := by
  have same := addEdge_names hadd
  refine hg.grown (hg.toWellFormed.addEdge hadd) ?_ (fun {n _} name => (same n).trans name)
    fun v ⟨n, hn⟩ => ⟨n, (same n).symm.trans hn⟩
  obtain ⟨⟨c, h'⟩, hins, rfl⟩ := Success.map_iff.1 hadd
  obtain ⟨-, -, ⟨-, rfl, -⟩ | ⟨-, -, reaching, -⟩⟩ := insertEdge_cases hins
  · rfl
  · exact reaching

theorem Closable.lasting : Lasting Closable where
  statement hg s := hg.node (hg.statementNode s) (by simp)
  input hg v := hg.node (hg.inputNode v) (by simp)
  enter hg s := by
    have entered := hg.node (hg.toWellFormed.node (a := .entry s.key) (s := some s) (by simp)) (by simp)
    exact ⟨hg.enter s, entered.unclosed, entered.inner⟩
  edge hg hadd := hg.addEdge hadd
  define {g n key} hg v hn := by
    have facts := define_facts (v := v) hn
    refine ⟨hg.toWellFormed.define v (idOf?_lt hn), fun w output => ?_, fun u w input => ?_⟩
    · rw [facts] at output
      exact hg.unclosed w (output.resolve_right (by simp)).1
    · rw [facts] at input
      exact hg.inner u w (input.resolve_right (by simp)).1
  addDefinition {g n key} hg v hn := by
    have facts := addDefinition_facts (v := v) hn
    refine ⟨hg.toWellFormed.addDefinition v (idOf?_lt hn), fun w output => ?_, fun u w input => ?_⟩
    · rw [facts] at output
      exact hg.unclosed w (output.resolve_right (by simp)).1
    · rw [facts] at input
      exact hg.inner u w (input.resolve_right (by simp)).1
  forget {g} hg q := by
    have facts := forget_facts (g := g) q
    refine ⟨hg.toWellFormed.forget q, fun w output => ?_, fun u w input => ?_⟩
    · rw [facts] at output
      exact hg.unclosed w (output.resolve_right (by simp)).1
    · rw [facts] at input
      exact hg.inner u w (input.resolve_right (by simp)).1

theorem closable_empty : Pdg.empty.Closable :=
  ⟨wellFormed_empty, fun v ⟨n, hn⟩ => by simp [idOf?, empty] at hn, fun v w ⟨d, hd, _⟩ => by cases hd⟩

theorem Closable.compose {other : Pdg} (hg : g.Closable) (ho : other.Closable) (hcomp : g.compose other = .ok h) :
    h.Closable := by
  have whole := hg.toWellFormed.compose ho.toWellFormed hcomp
  cases hon : other.isNeutral with
  | true =>
      rw [Pdg.compose, if_pos hon] at hcomp
      exact Except.ok.inj hcomp ▸ hg
  | false =>
      cases hgn : g.isNeutral with
      | true =>
          rw [Pdg.compose, if_neg (by simp [hon]), if_pos hgn] at hcomp
          exact Except.ok.inj hcomp ▸ ho
      | false =>
          obtain ⟨number, c, joins⟩ := compose_joins hg.toConsistent ho.toConsistent hgn hon hcomp
          have facts := joins.facts hg.toConsistent ho.toConsistent
          refine ⟨whole, fun v output => ?_, fun v w input => ?_⟩
          · rw [facts] at output
            exact output.elim (hg.unclosed v) (ho.unclosed v)
          · rw [facts] at input
            exact input.elim (hg.inner v w) (ho.inner v w)

end Closable

end Pdg

open Pdg

/-- All dependence graphs among what is learned, side by side. -/
def Info.graphs : Info → List Pdg
  | .pdg g => [g]
  | .pair a b => a.graphs ++ b.graphs
  | _ => []

/-- All dependence graphs among what is learned have the property. -/
def Info.Each (P : Pdg → Prop) (i : Info) : Prop := ∀ g ∈ i.graphs, P g

section Learning

variable {P : Pdg → Prop} {i j x y : Info} {p : Program} {t : Transition}

@[simp] theorem Info.each_pdg {g : Pdg} : (Info.pdg g).Each P ↔ P g := by simp [Each, graphs]

@[simp] theorem Info.each_pair : (Info.pair x y).Each P ↔ x.Each P ∧ y.Each P := by
  simp [Each, graphs, or_imp, forall_and]

/-- Parts are composed with parts. -/
theorem Info.Each.compose (merge : ∀ {g h k : Pdg}, P g → P h → g.compose h = .ok k → P k) (hi : i.Each P)
    (hj : j.Each P) (hcomp : i.compose j = .ok x) : x.Each P := by
  induction i generalizing j x with
  | none =>
      cases j <;> exact Except.ok.inj hcomp ▸ hi
  | readWrite a =>
      cases j <;> simp only [Info.compose, reduceCtorEq, Except.ok.injEq] at hcomp
      subst hcomp
      exact fun g hg => absurd hg List.not_mem_nil
  | pdg g =>
      cases j <;> simp only [Info.compose, reduceCtorEq] at hcomp
      obtain ⟨k, hk, rfl⟩ := Success.map_iff.1 hcomp
      exact Info.each_pdg.2 (merge (Info.each_pdg.1 hi) (Info.each_pdg.1 hj) hk)
  | pair a b iha ihb =>
      cases j <;> simp only [Info.compose, reduceCtorEq] at hcomp
      obtain ⟨ha, hb⟩ := Info.each_pair.1 hi
      obtain ⟨hc, hd⟩ := Info.each_pair.1 hj
      split at hcomp
      · rename_i first
        obtain ⟨second, hsecond, rfl⟩ := Success.map_iff.1 hcomp
        exact Info.each_pair.2 ⟨iha ha hc first, ihb hb hd hsecond⟩
      · cases hcomp

namespace Observer

variable {o : Observer}

theorem neutral_each (none : P .empty) (o : Observer) : o.neutral.Each P := by
  induction o with
  | none | readWrite => exact fun g hg => absurd hg List.not_mem_nil
  | pdg => exact Info.each_pdg.2 none
  | pair _ _ iha ihb => exact Info.each_pair.2 ⟨iha, ihb⟩
  | recording _ ih => exact ih

/-- How observers are told of something: pairs tell their parts, and whoever records passes it on. What is left keeps
a property of graphs. -/
structure Tells (P : Pdg → Prop) (tell : Observer → Transition → Step Info) : Prop where
  none {t : Transition} {x : Info} (known : t.info.Each P) (h : (tell none t).result = .ok x) : x.Each P
  readWrite {track : Variable → Bool} {t : Transition} {x : Info} (known : t.info.Each P)
    (h : (tell (readWrite track) t).result = .ok x) : x.Each P
  pdg {triggers : Bool} {t : Transition} {x : Info} (known : t.info.Each P)
    (h : (tell (pdg triggers) t).result = .ok x) : x.Each P
  pair {a b : Observer} {t : Transition} {x : Info} (h : (tell (pair a b) t).result = .ok x) : ∃ y z y' z',
    t.info = .pair y z ∧ (tell a { t with info := y }).result = .ok y' ∧
      (tell b { t with info := z }).result = .ok z' ∧ x = .pair y' z'
  recording {o : Observer} {t : Transition} {x : Info} (h : (tell (recording o) t).result = .ok x) :
    (tell o t).result = .ok x

theorem Tells.each {tell : Observer → Transition → Step Info} (tells : Tells P tell) (known : t.info.Each P)
    (h : (tell o t).result = .ok x) : x.Each P := by
  induction o generalizing t x with
  | none => exact tells.none known h
  | readWrite => exact tells.readWrite known h
  | pdg => exact tells.pdg known h
  | pair a b iha ihb =>
      obtain ⟨y, z, y', z', info, first, second, rfl⟩ := tells.pair h
      obtain ⟨hy, hz⟩ := Info.each_pair.1 (info ▸ known)
      exact Info.each_pair.2
        ⟨iha (t := { t with info := y }) hy first, ihb (t := { t with info := z }) hz second⟩
  | recording o ih => exact ih known (tells.recording h)

variable (hP : Lasting P)

include hP

theorem start_tells : Tells P fun o t => o.start p t where
  none known h := Run.pure_result_iff.1 h ▸ known
  readWrite known h := Run.pure_result_iff.1 h ▸ known
  pdg {_ t _} known h := by
    cases info : t.info <;> simp only [start, info] at h
    case pdg g =>
      obtain ⟨k, hk, rfl⟩ := Success.map_iff.1 h
      exact Info.each_pdg.2 (hP.start (Info.each_pdg.1 (info ▸ known)) hk)
    all_goals cases h
  pair {a b t x} h := by
    cases info : t.info
    case pair y z =>
      obtain ⟨y', z', first, second, rfl⟩ := start_pair info h
      exact ⟨y, z, y', z', rfl, first, second, rfl⟩
    all_goals
      simp only [start, info] at h
      cases h
  recording h := by
    obtain ⟨-, -, h⟩ := Run.bind_result_iff.1 h
    exact h

theorem evaluated_tells {e : Option Expr} {c : Int} : Tells P fun o t => o.evaluated p t e c where
  none known h := Run.pure_result_iff.1 h ▸ known
  readWrite {_ t _} _ h := by
    cases info : t.info <;> simp only [evaluated, info] at h
    case readWrite i =>
      obtain rfl := Run.pure_result_iff.1 h
      exact fun g hg => absurd hg List.not_mem_nil
    all_goals cases h
  pdg {_ t _} known h := by
    cases info : t.info <;> simp only [evaluated, info] at h
    case pdg g =>
      obtain ⟨k, hk, rfl⟩ := Success.map_iff.1 h
      exact Info.each_pdg.2 (hP.evaluated (Info.each_pdg.1 (info ▸ known)) hk)
    all_goals cases h
  pair {a b t x} h := by
    cases info : t.info
    case pair y z =>
      obtain ⟨y', z', first, second, rfl⟩ := evaluated_pair info h
      exact ⟨y, z, y', z', rfl, first, second, rfl⟩
    all_goals
      simp only [evaluated, info] at h
      cases h
  recording h := by
    obtain ⟨-, -, h⟩ := Run.bind_result_iff.1 h
    obtain ⟨i, hi, h⟩ := Run.bind_result_iff.1 h
    obtain ⟨-, -, h⟩ := Run.bind_result_iff.1 h
    exact Run.pure_result_iff.1 h ▸ hi

theorem waitedForEvents_tells {q : Process} {events : List Event} {before : EventList} :
    Tells P fun o t => o.waitedForEvents t q events before where
  none known h := Run.pure_result_iff.1 h ▸ known
  readWrite known h := Run.pure_result_iff.1 h ▸ known
  pdg {triggers t _} known h := by
    cases info : t.info
    case pdg g =>
      obtain ⟨k, rfl | woken, rfl⟩ := waitedForEvents_graph info h
      · exact info ▸ known
      · exact Info.each_pdg.2 (hP.woken (Info.each_pdg.1 (info ▸ known)) woken)
    all_goals
      simp only [waitedForEvents, info] at h
      cases triggers with
      | false => exact Run.pure_result_iff.1 h ▸ info ▸ known
      | true => cases h
  pair {a b t x} h := by
    cases info : t.info
    case pair y z =>
      obtain ⟨y', z', first, second, rfl⟩ := waitedForEvents_pair info h
      exact ⟨y, z, y', z', rfl, first, second, rfl⟩
    all_goals
      simp only [waitedForEvents, info] at h
      cases h
  recording h := by
    obtain ⟨-, -, h⟩ := Run.bind_result_iff.1 h
    exact h

end Observer

end Learning

namespace Simulator

variable {s : Simulator} {P : Pdg → Prop} {start t u r e : Transition} {st : State}

/-- The transitions that are passed on to be finalized: where the run of a process ends, or where the simulation has
advanced at the end of an evaluation phase. -/
def Finalizing (s : Simulator) (st : State) (ts : List Transition) : Prop :=
  (∃ p start, s.begin? p st = .ok start ∧ (s.run start).result = .ok ts) ∨
    ∃ us, (s.updateAll st.global.updates [s.beginEnd st]).result = .ok us ∧ (s.advanceAll us).result = .ok ts

section Lasting

variable (hP : Lasting P)

include hP

theorem heeds_each : s.Heeds (·.Each P) where
  woken known learned := (Observer.waitedForEvents_tells hP).each known learned

theorem smallStep_each (known : t.info.Each P) {x : SmallStep} (hx : (s.smallStep t).result = .ok x)
    (hr : r ∈ x.results) : r.info.Each P := by
  obtain ⟨x₀, rs, u, hadv, hu, learned, -, rfl⟩ := smallStep_mem hx hr
  exact (Observer.evaluated_tells hP).each ((heeds_each hP).advance (t := t.resetAccesses) known hadv hu) learned

variable (merge : ∀ {g h k : Pdg}, P g → P h → g.compose h = .ok k → P k)

include merge

theorem Occurs.each (known : start.info.Each P) {b : Bool} (h : s.Occurs start b t) : t.info.Each P := by
  induction h with
  | start => exact known
  | step _ hst hr ih => exact smallStep_each hP ih hst hr
  | merge _ _ _ composed _ iht ihu => exact iht.compose merge ihu composed

theorem RunsTo.each (known : start.info.Each P) (h : s.RunsTo start e) : e.info.Each P :=
  h.occurs.each hP merge known

theorem Updates.each {is : List Instance} {runs : List (Transition × Transition)} (h : s.Updates is t runs u)
    (known : t.info.Each P) : u.info.Each P := by
  induction h with
  | nil => exact known
  | @cons i _ _ f t _ _ _ _ _ _ begins runsTo _ ih =>
      obtain ⟨info, learned, rfl⟩ := Success.map_iff.1 begins
      have begun := (Observer.start_tells hP).each (t := t.beforeUpdate i f) known learned
      have ended := runsTo.each hP merge begun
      exact ih ended

/-- Whatever the observer, the graphs that are passed on to be finalized have the property if all operations that
make them keep it. -/
theorem finalizing_each (none : P .empty) {ts : List Transition} (h : s.Finalizing st ts) (ht : t ∈ ts) :
    t.info.Each P := by
  have neutral := Observer.neutral_each none s.setup.observer
  obtain ⟨p, start, begins, hrun⟩ | ⟨us, updates, advances⟩ := h
  · obtain ⟨info, learned, rfl⟩ := Success.map_iff.1 begins
    have begun := (Observer.start_tells hP).each
      (t := .start st s.setup.observer.neutral (some p) (some p.inst)) neutral
      learned
    exact RunsTo.each hP merge begun ⟨ts, hrun, ht⟩
  · obtain ⟨u, hu, advance⟩ := advanceAll_mem advances ht
    obtain ⟨v, hv, runs, updates⟩ := updates_of_updateAll updates hu
    obtain rfl := List.mem_singleton.1 hv
    exact (heeds_each hP).advanceTime (updates.each hP merge neutral) advance

end Lasting

/-- Finalizing is exact. A graph that satisfies the representation invariant, without output nodes and definitions by
input nodes, is closed without an edge being repeated, and the result is frozen; finalizing that again gives the same
key. All graphs that simulators pass on to be finalized are of that kind. -/
theorem finalize_exact :
    (∀ x : Guarded Pdg, x.value.Closable → ∃ y, x.finalize.1 = .ok y ∧ x.value.finalize = .ok y.value ∧
      y.frozen = true ∧ Closes x.value y.value ∧
      ∃ z key, y.finalize.1 = .ok z ∧ y.value.key? = .ok key ∧ z.value.key? = .ok key) ∧
    ∀ (s : Simulator) (st : State) (ts : List Transition), s.Finalizing st ts →
      ∀ t ∈ ts, ∀ g ∈ t.info.graphs, g.Closable := by
  refine ⟨fun x hx => ?_, fun s st ts h t ht =>
    finalizing_each Closable.lasting Closable.compose closable_empty h ht⟩
  obtain ⟨h, hfin, closes⟩ := hx.closes
  have again := finalize_value (x := ⟨h, true⟩) (finalize_unreached closes.unreached)
  have key := closes.wellFormed.key?_eq
  exact ⟨⟨h, true⟩, finalize_value hfin, hfin, rfl, closes, ⟨h, true⟩, h.key, again, key, key⟩

open Examples in
/-- The graph of a run that may assign a field: it is closed with an output node for the field, which both the
assignment and the value from before reach. -/
theorem finalize_exact_copying : ∃ s first ts t g y,
    make copying ⟨.pair (.readWrite fun _ => true) (.pdg true), .immediate, fun _ => true, fun _ => false⟩ = .ok s ∧
    s.initial = .ok first ∧ s.Finalizing first ts ∧ t ∈ ts ∧ g ∈ t.info.graphs ∧ g.Closable ∧
    (Guarded.fresh g).finalize.1 = .ok y ∧ y.frozen = true ∧ Closes g y.value ∧
    .edge .data (.statement body) (.output (topField 1 "x")) ∈ y.value.facts ∧
    .edge .data (.input (topField 1 "x")) (.output (topField 1 "x")) ∈ y.value.facts ∧
    ∃ z key, y.finalize.1 = .ok z ∧ y.value.key? = .ok key ∧ z.value.key? = .ok key := by
  obtain ⟨s, made, h⟩ := Success.exists_of_yields
    (x := make copying ⟨.pair (.readWrite fun _ => true) (.pdg true), .immediate, fun _ => true, fun _ => false⟩)
    (c := fun s => Success.yields s.initial fun first => Success.yields (s.begin? runner first) fun start =>
      Success.yields (s.run start).result fun ts => ts.any fun t => t.info.graphs.any fun g =>
        (g.reaching.get? (topField 1 "x")).any fun d =>
          d.outer && d.nodes.any fun n => g.idOf? n = some (.statement body)) (by decide +kernel)
  obtain ⟨first, initial, h⟩ := Success.exists_of_yields h
  obtain ⟨start, begins, h⟩ := Success.exists_of_yields h
  obtain ⟨ts, hrun, h⟩ := Success.exists_of_yields h
  obtain ⟨t, ht, h⟩ := List.any_eq_true.1 h
  obtain ⟨g, hg, h⟩ := List.any_eq_true.1 h
  obtain ⟨d, hd, h⟩ := (Option.any_eq_true _ _).1 h
  obtain ⟨outer, h⟩ := Bool.and_eq_true_iff.1 h
  obtain ⟨n, hn, name⟩ := List.any_eq_true.1 h
  have finalizing : s.Finalizing first ts := .inl ⟨runner, start, begins, hrun⟩
  obtain ⟨closing, passed⟩ := finalize_exact
  have closable := passed s first ts finalizing t ht g hg
  obtain ⟨y, hy, -, frozen, closes, again⟩ := closing (.fresh g) closable
  exact ⟨s, first, ts, t, g, y, made, initial, finalizing, ht, hg, closable, hy, frozen, closes,
    (closes.sources _ _).2 ⟨d, hd, .inl ⟨n, hn, of_decide_eq_true name⟩⟩,
    (closes.sources _ _).2 ⟨d, hd, .inr ⟨outer, rfl⟩⟩, again⟩

end Simulator

end DeltaSlice

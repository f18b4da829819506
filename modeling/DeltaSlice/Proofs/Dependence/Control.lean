import DeltaSlice.Proofs.Dependence.Connect
import Mathlib.Data.List.Induction

/-!
Control along a single sequence of small steps. A step makes nodes, and it evaluates at most one that
is not an argument. Which expressions control that one is a matter of the code alone; which of them
have a node by then is a matter of the sequence.
-/

namespace DeltaSlice

namespace Dependence

open Pdg

def Act.made? : Act → Option String
  | make a => some a
  | _ => none

namespace Site

/-- The nodes that are to control the step; `none` is the entry of the code. -/
def controlledBy (p : Program) (s : Site) : List (Option String) :=
  (p.controllers s.here.routine s.callers s.here.path s.expr).map
    (Option.map fun st => (StatementId.point s.after.origin st).key)

/-- An argument that has a node gives one to its call. -/
def calls (p : Program) (s : Site) : List String :=
  if s.isArgument then ((s.node? p).map fun _ => (callNode s).key).toList else []

end Site

/-- What a small step means for control: the nodes that there are after it, and the one that is
evaluated and no argument, with the nodes that are to control it. -/
structure Evaluation where
  made : List String
  node : Option (String × List (Option String))
deriving DecidableEq

end Dependence

open Dependence Pdg

def Move.evaluation (p : Program) (m : Move) : Evaluation where
  made := (m.acts p).filterMap Act.made? ++ ((m.site? p).map (Site.calls p)).getD []
  node := (m.site? p).bind fun s =>
    if s.isArgument then none else (s.node? p).map fun a => (a, s.controlledBy p)

namespace Dependence

section Sequences

variable {p : Program} {ms : List Move} {m : Move} {c n : String}

/-- The node `c` was made on the way. -/
def Made (p : Program) (ms : List Move) (c : String) : Prop :=
  ∃ m ∈ ms, c ∈ (m.evaluation p).made

/-- The node `n` was evaluated on the way, not as an argument. -/
def Evaluated (p : Program) (ms : List Move) (n : String) : Prop :=
  ∃ m ∈ ms, ∃ cs, (m.evaluation p).node = some (n, cs)

/-- The step evaluates `n` under the control of `c`. -/
def EvaluatesUnder (p : Program) (m : Move) (c n : String) : Prop :=
  ∃ cs, (m.evaluation p).node = some (n, cs) ∧ some c ∈ cs

/-- When `n` was evaluated for the first time, `c` was to control it and had a node. -/
def Linked (p : Program) (ms : List Move) (c n : String) : Prop :=
  ∃ before m after, ms = before ++ m :: after ∧ ¬ Evaluated p before n ∧
    EvaluatesUnder p m c n ∧ Made p (before ++ [m]) c

instance : Decidable (Made p ms c) :=
  inferInstanceAs (Decidable (∃ m ∈ ms, c ∈ (m.evaluation p).made))

instance : Decidable (Evaluated p ms n) :=
  decidable_of_iff (∃ m ∈ ms, (m.evaluation p).node.map (·.1) = some n) (by
    simp only [Evaluated, Option.map_eq_some_iff, Prod.exists, exists_and_right, exists_eq_right])

instance : Decidable (EvaluatesUnder p m c n) :=
  match h : (m.evaluation p).node with
  | none => isFalse (by simp [EvaluatesUnder, h])
  | some (n', cs) => decidable_of_iff (n' = n ∧ some c ∈ cs) (by simp [EvaluatesUnder, h])

theorem made_snoc : Made p (ms ++ [m]) c ↔ Made p ms c ∨ c ∈ (m.evaluation p).made := by
  simp [Made, or_and_right, exists_or]

theorem evaluated_snoc : Evaluated p (ms ++ [m]) n ↔
    Evaluated p ms n ∨ ∃ cs, (m.evaluation p).node = some (n, cs) := by
  simp [Evaluated, or_and_right, exists_or]

theorem linked_snoc : Linked p (ms ++ [m]) c n ↔
    Linked p ms c n ∨ (¬ Evaluated p ms n ∧ EvaluatesUnder p m c n ∧ Made p (ms ++ [m]) c) := by
  constructor
  · intro h
    obtain ⟨before, m', after, heq, hfirst, hunder, hmade⟩ := h
    induction after using List.reverseRecOn with
    | nil =>
        obtain ⟨hpre, hlast⟩ := List.append_inj' heq rfl
        obtain rfl := List.singleton_inj.1 hlast
        subst hpre
        exact .inr ⟨hfirst, hunder, hmade⟩
    | append_singleton after y _ =>
        rw [← List.cons_append, ← List.append_assoc] at heq
        obtain ⟨hpre, -⟩ := List.append_inj' heq rfl
        exact .inl ⟨before, m', after, hpre, hfirst, hunder, hmade⟩
  · intro h
    cases h with
    | inl h =>
        obtain ⟨before, m', after, rfl, h⟩ := h
        exact ⟨before, m', after ++ [m], by simp, h⟩
    | inr h => exact ⟨ms, m, [], rfl, h⟩

theorem Linked.evaluated (h : Linked p ms c n) : Evaluated p ms n := by
  obtain ⟨before, m, after, rfl, -, ⟨cs, hcs, -⟩, -⟩ := h
  exact ⟨m, by simp, cs, hcs⟩

/-- Whether a node is linked is settled when it is evaluated for the first time. -/
theorem Linked.of_snoc (h : Linked p (ms ++ [m]) c n) (hn : Evaluated p ms n) :
    Linked p ms c n := by
  cases linked_snoc.1 h with
  | inl h => exact h
  | inr h => exact absurd hn h.1

end Sequences

section Facts

variable {p : Program} {s : Site} {g : Pdg} {a : NodeId} {c : String}

theorem node_mem_foldl (X : Set Fact) (xs : List Act) :
    .node (.statement c) ∈ xs.foldl Act.apply X ↔
      .node (.statement c) ∈ X ∨ c ∈ xs.filterMap Act.made? := by
  induction xs generalizing X with
  | nil => simp
  | cons x xs ih =>
      rw [List.foldl_cons, ih]
      cases x with
      | make b =>
          have hmade : (Act.make b :: xs).filterMap Act.made? = b :: xs.filterMap Act.made? := rfl
          simp only [hmade, Act.apply, Set.mem_union, Set.mem_singleton_iff, Fact.node.injEq,
            NodeId.statement.injEq, List.mem_cons, or_assoc]
      | read v b => simp [Act.apply, Act.made?, readFacts]
      | write v b => simp [Act.apply, Act.made?]
      | forget what => simp [Act.apply, Act.made?]

/-- Acts add data edges only. -/
theorem control_mem_foldl (X : Set Fact) (xs : List Act) (b : NodeId) :
    .edge .control b a ∈ xs.foldl Act.apply X ↔ .edge .control b a ∈ X := by
  induction xs generalizing X with
  | nil => rfl
  | cons x xs ih =>
      rw [List.foldl_cons, ih]
      cases x with
      | make b => simp [Act.apply]
      | read v b => simp [Act.apply, readFacts]
      | write v b => simp [Act.apply]
      | forget what => simp [Act.apply]

theorem controllers_ne_nil (p : Program) (r : Routine) (rest : Stack) (path : Path)
    (e : Option Expr) : p.controllers r rest path e ≠ [] := by
  induction path generalizing e with
  | nil => simp [Program.controllers]
  | cons i up ih =>
      cases e with
      | none => simp [Program.controllers]
      | some e =>
          intro h
          unfold Program.controllers at h
          have hrest := (List.append_eq_nil_iff.1 h).2
          split at hrest
          · exact ih _ hrest
          · split at hrest
            · cases hrest
            · cases hrest

/-- A statement controls a node through a stack that has its node. -/
theorem statement_mem_controlFacts (entry : ∃ e, g.entryId? = some (.entry e)) :
    .edge .control (.statement c) a ∈ controlFacts p s g a ↔
      some c ∈ s.controlledBy p ∧ .node (.statement c) ∈ g.facts := by
  obtain ⟨e, he⟩ := entry
  constructor
  · intro h
    obtain ⟨st?, hst, b, hb, heq⟩ := h
    obtain rfl : NodeId.statement c = b := (Fact.edge.inj heq).2.1
    cases st? with
    | none =>
        rw [StandsFor, he] at hb
        cases hb
    | some st =>
        cases hb with
        | inl hb => exact ⟨List.mem_map.2 ⟨some st, hst, by rw [NodeId.statement.inj hb.1]; rfl⟩, hb.2⟩
        | inr hb =>
            rw [he] at hb
            cases hb.2
  · intro h
    obtain ⟨st?, hst, hc⟩ := List.mem_map.1 h.1
    obtain ⟨st, rfl, rfl⟩ := Option.map_eq_some_iff.1 hc
    exact ⟨some st, hst, _, .inl ⟨rfl, h.2⟩, rfl⟩

/-- Something controls every node, if only the entry. -/
theorem exists_mem_controlFacts (entry : ∃ e, g.entryId? = some (.entry e)) :
    ∃ b, .edge .control b a ∈ controlFacts p s g a := by
  obtain ⟨e, he⟩ := entry
  obtain ⟨st?, hst⟩ := List.exists_mem_of_ne_nil _
    (controllers_ne_nil p s.here.routine s.callers s.here.path s.expr)
  cases st? with
  | none => exact ⟨_, none, hst, _, he, rfl⟩
  | some st =>
      by_cases hnode : Fact.node (.statement (StatementId.point s.after.origin st).key) ∈ g.facts
      · exact ⟨_, some st, hst, _, .inl ⟨rfl, hnode⟩, rfl⟩
      · exact ⟨_, some st, hst, _, .inr ⟨hnode, he⟩, rfl⟩

end Facts

end Dependence

namespace Simulator

variable {p : Program} {m : Move} {g h : Pdg} {c n : String}

theorem node_mem_links : .node (.statement c) ∈ links p m g ↔
    c ∈ ((m.site? p).map (Site.calls p)).getD [] := by
  unfold links
  cases hsite : m.site? p with
  | none => simp
  | some s =>
      cases hnode : s.node? p with
      | none => simp [Site.calls, hnode]
      | some a =>
          cases harg : s.isArgument with
          | true => simp [Site.calls, hnode, harg]
          | false => simp [Site.calls, hnode, harg, controlFacts]

theorem control_mem_links {b : NodeId} : .edge .control b (.statement n) ∈ links p m g ↔
    (∀ b, .edge .control b (.statement n) ∉ g.facts) ∧ ∃ s, m.site? p = some s ∧
      s.isArgument = false ∧ s.node? p = some n ∧
      .edge .control b (.statement n) ∈ controlFacts p s g (.statement n) := by
  unfold links
  cases hsite : m.site? p with
  | none => simp
  | some s =>
      cases hnode : s.node? p with
      | none => simp [hnode]
      | some a =>
          cases harg : s.isArgument with
          | true => simp [hnode, harg]
          | false =>
              simp only [Bool.false_eq_true, if_false, Set.mem_ofPred_eq, Option.some.injEq,
                exists_eq_left', harg, hnode, true_and]
              constructor
              · intro hf
                obtain rfl : n = a := by
                  obtain ⟨-, st, -, b', -, heq⟩ := hf
                  exact NodeId.statement.inj (Fact.edge.inj heq).2.2
                exact ⟨hf.1, rfl, hf.2⟩
              · intro hf
                obtain ⟨hfree, rfl, hf⟩ := hf
                exact ⟨hfree, hf⟩

theorem evaluation_node_eq_some {cs : List (Option String)} :
    (m.evaluation p).node = some (n, cs) ↔ ∃ s, m.site? p = some s ∧ s.isArgument = false ∧
      s.node? p = some n ∧ cs = s.controlledBy p := by
  simp only [Move.evaluation, Option.bind_eq_some_iff]
  refine exists_congr fun s => and_congr_right fun _ => ?_
  cases harg : s.isArgument with
  | true => simp
  | false =>
      simp only [Bool.false_eq_true, if_false, Option.map_eq_some_iff, Prod.mk.injEq, true_and]
      constructor
      · intro h
        obtain ⟨a, ha, rfl, hcs⟩ := h
        exact ⟨ha, hcs.symm⟩
      · intro h
        exact ⟨n, h.1, rfl, h.2.symm⟩

namespace Learns

/-- The graph on which the acts of a move were performed has the same entry. -/
theorem graph (hl : Learns p m g h) (entry : g.Entered) : ∃ k : Pdg, k.Valid ∧
      k.facts = (m.acts p).foldl Act.apply g.facts ∧ (∃ a, k.entryId? = some (.entry a)) ∧
      Pdg.Grows k h (links p m k) := by
  obtain ⟨k, hk, hfacts, hentry, hnames, hgrow⟩ := hl.middle
  exact ⟨k, hk, hfacts, (entry.keeps hentry hnames).entryId, hgrow⟩

/-- The nodes of statements after a move. -/
theorem node_iff (hl : Learns p m g h) : .node (.statement c) ∈ h.facts ↔
    .node (.statement c) ∈ g.facts ∨ c ∈ (m.evaluation p).made := by
  obtain ⟨k, -, hfacts, -, -, hgrow⟩ := hl.middle
  rw [hgrow.facts, Set.mem_union, node_mem_links, hfacts, node_mem_foldl, Move.evaluation,
    List.mem_append, or_assoc]

/-- A statement gets control over a node when the node is evaluated and has no control edge. -/
theorem control_iff (hl : Learns p m g h) (entry : g.Entered) : .edge .control (.statement c) (.statement n) ∈ h.facts ↔
      .edge .control (.statement c) (.statement n) ∈ g.facts ∨
        ((∀ b, .edge .control b (.statement n) ∉ g.facts) ∧ EvaluatesUnder p m c n ∧
          .node (.statement c) ∈ h.facts) := by
  obtain ⟨k, -, hfacts, hentry, hgrow⟩ := hl.graph entry
  have hnode : ∀ s, m.site? p = some s → s.isArgument = false →
      (.node (.statement c) ∈ k.facts ∪ links p m k ↔ .node (.statement c) ∈ k.facts) := by
    intro s hs harg
    rw [Set.mem_union, node_mem_links, hs]
    simp [Site.calls, harg]
  rw [hgrow.facts, Set.mem_union, control_mem_links, hfacts, control_mem_foldl, ← hfacts]
  simp only [hfacts ▸ control_mem_foldl g.facts (m.acts p)]
  refine or_congr_right (and_congr_right fun _ => ?_)
  constructor
  · intro hf
    obtain ⟨s, hs, harg, hn, hf⟩ := hf
    obtain ⟨hc, hk⟩ := (statement_mem_controlFacts hentry).1 hf
    exact ⟨⟨_, evaluation_node_eq_some.2 ⟨s, hs, harg, hn, rfl⟩, hc⟩, (hnode s hs harg).2 hk⟩
  · intro hf
    obtain ⟨⟨cs, hcs, hc⟩, hk⟩ := hf
    obtain ⟨s, hs, harg, hn, rfl⟩ := evaluation_node_eq_some.1 hcs
    exact ⟨s, hs, harg, hn, (statement_mem_controlFacts hentry).2 ⟨hc, (hnode s hs harg).1 hk⟩⟩

theorem controlled_iff (hl : Learns p m g h) (entry : g.Entered) : (∃ b, .edge .control b (.statement n) ∈ h.facts) ↔
      (∃ b, .edge .control b (.statement n) ∈ g.facts) ∨
        ∃ cs, (m.evaluation p).node = some (n, cs) := by
  obtain ⟨k, -, hfacts, hentry, hgrow⟩ := hl.graph entry
  simp only [hgrow.facts, Set.mem_union, control_mem_links, hfacts, control_mem_foldl, exists_or]
  constructor
  · intro hf
    cases hf with
    | inl hf => exact .inl hf
    | inr hf =>
        obtain ⟨b, -, s, hs, harg, hn, -⟩ := hf
        exact .inr ⟨_, evaluation_node_eq_some.2 ⟨s, hs, harg, hn, rfl⟩⟩
  · intro hf
    by_cases hold : ∃ b, Fact.edge .control b (.statement n) ∈ g.facts
    · exact .inl hold
    · obtain ⟨cs, hcs⟩ := hf.resolve_left hold
      obtain ⟨s, hs, harg, hn, -⟩ := evaluation_node_eq_some.1 hcs
      obtain ⟨b, hb⟩ := exists_mem_controlFacts (p := p) (s := s) (a := .statement n) hentry
      exact .inr ⟨b, not_exists.1 hold, s, hs, harg, hn, hb⟩

end Learns

end Simulator

end DeltaSlice

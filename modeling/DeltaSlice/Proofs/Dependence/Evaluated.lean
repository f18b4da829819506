import DeltaSlice.Proofs.Dependence.Acts

/-!
The observer performs the acts of a small step. Each stage of its bookkeeping is followed on what the
graph says; connecting the node of the step comes last and touches no definitions and no data edges.
-/

namespace DeltaSlice

namespace Dependence

open Pdg

/-- The bookkeeping has performed `acts` on `g`, and the step belongs to the node `a`. -/
structure Performs (g : Pdg) (acts : List Act) (a : Option String) (f : Focus) : Prop where
  valid : f.graph.Valid
  facts : f.graph.facts = acts.foldl Act.apply g.facts
  entry : f.graph.entry = g.entry
  names : ∀ {n b}, g.idOf? n = some b → f.graph.idOf? n = some b
  node : f.node.map f.graph.idOf? = a.map fun b => some (.statement b)

namespace Performs

variable {g : Pdg} {acts : List Act} {a : Option String} {f f' : Focus}

theorem start (hg : g.Valid) (r w : List Variable) : Performs g [] none ⟨g, none, r, w⟩ :=
  ⟨hg, rfl, rfl, id, rfl⟩

theorem of_eq (h : Performs g acts a f) {acts' : List Act} {a' : Option String}
    (hacts : acts = acts') (ha : a = a') : Performs g acts' a' f :=
  hacts ▸ ha ▸ h

/-- Reads and writes that are only noted down change nothing yet. -/
theorem noted (h : Performs g acts a f) (graph : f'.graph = f.graph) (node : f'.node = f.node) :
    Performs g acts a f' := by
  refine ⟨graph ▸ h.valid, graph ▸ h.facts, graph ▸ h.entry, graph ▸ h.names, ?_⟩
  rw [graph, node]
  exact h.node

theorem statementNode (h : Performs g acts a f) (s : StatementId) :
    Performs g (acts ++ [.make s.key]) (some s.key)
      { f with graph := (f.graph.statementNode s).2, node := some (f.graph.statementNode s).1 } := by
  obtain ⟨hn, hname⟩ := node_grows h.valid (.statement s.key) (some s)
  refine ⟨hn.valid, ?_, hn.entry.trans h.entry, fun hb => hn.names (h.names hb), ?_⟩
  · rw [List.foldl_append, ← h.facts]
    exact hn.facts
  · change some ((f.graph.statementNode s).2.idOf? (f.graph.statementNode s).1) = _
    exact congrArg some hname

theorem ensureNode (h : Performs g acts none f) (s : StatementId) :
    Performs g (acts ++ [.make s.key]) (some s.key) (f.ensureNode s) := by
  have free : f.node = none := by
    cases hnode : f.node with
    | none => rfl
    | some n =>
        have := h.node
        rw [hnode] at this
        cases this
  unfold Focus.ensureNode
  rw [free]
  exact h.statementNode s

theorem forget (h : Performs g acts a f) (what : Forgetting) {p : Variable → Bool}
    (hp : ∀ v, p v = what.drops v) :
    Performs g (acts ++ [.forget what]) a { f with graph := f.graph.forget p } := by
  refine ⟨forget_valid h.valid p, ?_, h.entry, h.names, h.node⟩
  rw [List.foldl_append, ← h.facts, forget_facts]
  simp only [List.foldl_cons, List.foldl_nil, Act.apply, hp]

theorem applyReads {s : StatementId} (h : Performs g acts a f)
    (hreads : Dependence.applyReads s f = .ok f') :
    Performs g (acts ++ if f.read = [] then [] else .make s.key :: f.read.map (.read · s.key))
        (if f.read = [] then a else some s.key) f' ∧
      f'.read = f.read ∧ f'.written = f.written := by
  unfold Dependence.applyReads at hreads
  cases hr : f.read with
  | nil =>
      simp only [hr, List.isEmpty_nil, if_true, Except.ok.injEq] at hreads
      subst hreads
      simpa [hr] using h
  | cons v vs =>
      rw [← hr]
      have hne : f.read ≠ [] := by simp [hr]
      simp only [List.isEmpty_iff, hne, if_false] at hreads ⊢
      obtain ⟨k, hk, rfl⟩ := Success.map_iff.1 hreads
      have made := h.statementNode s
      refine ⟨?_, rfl, rfl⟩
      -- The reads are performed one after the other on behalf of the same node.
      have inv := Success.foldlM_induction (P := fun (pre : List Variable) (c : Pdg) =>
        Performs g (acts ++ .make s.key :: pre.map (.read · s.key)) (some s.key)
          { f with graph := c, node := some (f.graph.statementNode s).1 }) made ?_ hk
      · exact inv
      · intro pre v c d hc _ hd
        have hname : c.idOf? (f.graph.statementNode s).1 = some (.statement s.key) := by
          have := hc.node
          injection this
        have hread := readBy_grows hc.valid hname hd
        refine ⟨hread.valid, ?_, hread.entry.trans hc.entry, fun hb => hread.names (hc.names hb), ?_⟩
        · change d.facts = _
          rw [hread.facts, List.map_append, List.map_singleton, ← List.cons_append,
            ← List.append_assoc, List.foldl_append, ← hc.facts]
          rfl
        · change some (d.idOf? _) = _
          rw [hread.names hname]
          rfl

theorem applyWrites {s : StatementId} (h : Performs g acts a f) :
    Performs g (acts ++ if f.written = [] then [] else .make s.key :: f.written.map (.write · s.key))
        (if f.written = [] then a else some s.key) (Dependence.applyWrites s f) := by
  unfold Dependence.applyWrites
  cases hw : f.written with
  | nil => simpa [hw] using h
  | cons v vs =>
      rw [← hw]
      have hne : f.written ≠ [] := by simp [hw]
      simp only [List.isEmpty_iff, hne, if_false]
      have made := h.statementNode s
      have main : ∀ (vs : List Variable) (acts : List Act) (c : Pdg),
          Performs g acts (some s.key)
            { f with graph := c, node := some (f.graph.statementNode s).1 } →
          Performs g (acts ++ vs.map (.write · s.key)) (some s.key)
            { f with
              graph := vs.foldl (fun (g : Pdg) v => g.define v (f.graph.statementNode s).1) c
              node := some (f.graph.statementNode s).1 } := by
        intro vs
        induction vs with
        | nil =>
            intro acts c hc
            simpa using hc
        | cons v vs ih =>
            intro acts c hc
            have hname : c.idOf? (f.graph.statementNode s).1 = some (.statement s.key) := by
              have := hc.node
              injection this
            have hdef : Performs g (acts ++ [.write v s.key]) (some s.key)
                { f with
                  graph := c.define v (f.graph.statementNode s).1
                  node := some (f.graph.statementNode s).1 } := by
              refine ⟨define_valid hc.valid (idOf?_isSome.1 ⟨_, hname⟩), ?_, hc.entry, hc.names,
                hc.node⟩
              rw [List.foldl_append, ← hc.facts, define_facts hname]
              rfl
            have := ih _ _ hdef
            rw [List.append_assoc] at this
            exact this
      have := main f.written _ _ made
      rw [List.append_assoc] at this
      exact this

theorem controllerNode {s : Site} {o : StatementId} (h : Performs g acts a f) :
    Performs g (acts ++ if s.controls && a.isNone then [.make o.key] else [])
      (if s.controls && a.isNone then some o.key else a) (Dependence.controllerNode s o f) := by
  have same : Dependence.controllerNode s o f = if s.controls then f.ensureNode o else f := by
    unfold Dependence.controllerNode Site.controls
    cases s.parent with
    | none => rfl
    | some q => rfl
  rw [same]
  cases hc : s.controls with
  | false => simpa using h
  | true =>
      cases a with
      | none => simpa using h.ensureNode o
      | some b =>
          have taken : f.ensureNode o = f := by
            unfold Focus.ensureNode
            cases hnode : f.node with
            | none =>
                have := h.node
                rw [hnode] at this
                cases this
            | some n => rfl
          simpa [taken] using h

end Performs

theorem bindArgument_eq (s : Site) (f : Focus) :
    bindArgument s f = { f with written := s.bound.foldl Transition.addVariable f.written } := by
  unfold bindArgument Site.bound
  cases s.finished with
  | false => rfl
  | true =>
      simp only [if_true]
      cases s.parent with
      | none => rfl
      | some q =>
          cases q with
          | call id r args => rfl
          | access id x m =>
              cases m with
              | call id r args => by_cases hi : s.index = 0 <;> simp [hi, Focus.addWritten]
              | _ => rfl
          | _ => rfl

/-- The bookkeeping up to the first access. -/
def opened (p : Program) (s : Site) (f : Focus) : Focus :=
  notifyEffect false s
    (match usedResult? p s with
    | some v => (returnEffect s f).addRead v
    | none => returnEffect s f)

theorem opened_eq (p : Program) (s : Site) (f : Focus) : opened p s f =
    notifyEffect false s { returnEffect s f with
      read := (usedResult? p s).toList.foldl Transition.addVariable f.read } := by
  have hread : (returnEffect s f).read = f.read := by
    unfold returnEffect
    split
    · split <;> rfl
    · rfl
  unfold opened
  cases usedResult? p s with
  | none => rw [← hread]; rfl
  | some v => rw [← hread]; rfl

/-- What the bookkeeping has come to when the first access is made. -/
structure Opened (p : Program) (s : Site) (g : Pdg) (f : Focus) : Prop where
  performs : Performs g
    ((s.released p).map .forget ++ if s.asksForNode then [.make s.statement.key] else [])
    (if s.asksForNode then some s.statement.key else none) f
  read : f.read = s.reads p
  written : f.written = s.writes

/-- The expressions that are neither calls nor returns nor notifications only report accesses. -/
def Plain : Expr → Prop
  | .call .. | .ret .. | .notify .. => False
  | _ => True

theorem opened_plain {p : Program} {s : Site} {g : Pdg} (hg : g.Valid) (hs : Plain s.expr)
    {f : Focus} (hf : callEffect p false s
      (bindArgument s ⟨g, none, s.after.scratch.read, s.after.scratch.written⟩) = .ok f) :
    Opened p s g (opened p s f) := by
  have hcall : ∀ f', callEffect p false s f' = .ok f' := by
    intro f'
    unfold callEffect
    cases hexpr : s.expr <;> simp only [hexpr, Plain] at hs ⊢
  rw [hcall, bindArgument_eq] at hf
  injection hf with hf
  subst hf
  rw [opened_eq]
  have hret : ∀ f', returnEffect s f' = f' := by
    intro f'
    unfold returnEffect
    cases hexpr : s.expr <;> simp only [hexpr, Plain] at hs ⊢
  have hnotify : ∀ f', notifyEffect false s f' = f' := by
    intro f'
    unfold notifyEffect
    cases hexpr : s.expr <;> simp only [hexpr, Plain] at hs ⊢
  have hreleased : s.released p = [] := by
    unfold Site.released
    cases hexpr : s.expr <;> simp only [hexpr, Plain] at hs ⊢
  have hasks : s.asksForNode = false := by
    unfold Site.asksForNode
    cases hexpr : s.expr <;> simp only [hexpr, Plain] at hs ⊢
  have hpassed : s.passed = [] := by
    unfold Site.passed
    cases hexpr : s.expr <;> simp only [hexpr, Plain] at hs ⊢
  have hwrites : s.writes = s.bound.foldl Transition.addVariable s.after.scratch.written := by
    unfold Site.writes
    cases hexpr : s.expr <;> simp only [hexpr, Plain] at hs ⊢
  rw [hret, hnotify]
  refine ⟨?_, ?_, hwrites.symm⟩
  · rw [hreleased, hasks]
    exact (Performs.start hg s.after.scratch.read s.after.scratch.written).noted rfl rfl
  · rw [Site.reads, hpassed]
    rfl

section Opening

variable {p : Program} {s : Site} {g : Pdg} {f : Focus}

theorem opened_ret (hg : g.Valid) {id : Nat} {value : Option Expr} (hs : s.expr = .ret id value)
    (hf : callEffect p false s
      (bindArgument s ⟨g, none, s.after.scratch.read, s.after.scratch.written⟩) = .ok f) :
    Opened p s g (opened p s f) := by
  rw [bindArgument_eq] at hf
  simp only [callEffect, hs, Except.ok.injEq] at hf
  subst hf
  rw [opened_eq]
  refine ⟨?_, ?_, ?_⟩
  · simp only [notifyEffect, hs, returnEffect, Site.released, Site.asksForNode]
    by_cases hc : s.comingFrom = 0
    · simp only [hc, if_true]
      exact (Performs.start hg s.after.scratch.read s.after.scratch.written).noted rfl rfl
    · simp only [hc, if_false]
      exact (Performs.start hg s.after.scratch.read s.after.scratch.written).noted rfl rfl
  · simp only [notifyEffect, hs, Site.reads, Site.passed]
    rfl
  · simp only [notifyEffect, hs, returnEffect, Site.writes, List.foldl_append]
    by_cases hc : s.comingFrom = 0
    · simp only [hc, if_true]
      rfl
    · simp only [hc, if_false]
      rfl

theorem opened_notify (hg : g.Valid) {id : Nat} {target : Expr} {delays : List Expr}
    (hs : s.expr = .notify id target delays)
    (hf : callEffect p false s
      (bindArgument s ⟨g, none, s.after.scratch.read, s.after.scratch.written⟩) = .ok f) :
    Opened p s g (opened p s f) := by
  rw [bindArgument_eq] at hf
  simp only [callEffect, hs, Except.ok.injEq] at hf
  subst hf
  rw [opened_eq]
  have start := Performs.start hg s.after.scratch.read s.after.scratch.written
  simp only [notifyEffect, hs, returnEffect, Bool.false_eq_true, if_false]
  cases hfin : s.finished with
  | false =>
      refine ⟨?_, ?_, ?_⟩
      · simp only [hs, hfin, Site.released, Site.asksForNode]
        exact start.noted rfl rfl
      · simp only [hs, Site.reads, Site.passed]
        rfl
      · simp only [hs, Site.writes]
        rfl
  | true =>
      refine ⟨?_, ?_, ?_⟩
      · simp only [hs, hfin, Site.released, Site.asksForNode, if_true]
        exact (Performs.ensureNode (start.noted rfl rfl) s.statement).noted rfl rfl
      · simp only [hs, Site.reads, Site.passed]
        rfl
      · simp only [hs, Site.writes]
        rfl

/-- A call that has not been performed yet or has not returned yet only reports accesses. -/
theorem opened_call_inside (hg : g.Valid) {id : Nat} {r : Routine} {args : List Expr}
    (hs : s.expr = .call id r args) (hfin : s.finished = false) (hret : s.comingFrom ≠ s.arity)
    (hf : callEffect p false s
      (bindArgument s ⟨g, none, s.after.scratch.read, s.after.scratch.written⟩) = .ok f) :
    Opened p s g (opened p s f) := by
  rw [bindArgument_eq] at hf
  simp only [callEffect, hs, hfin, Bool.false_eq_true, if_false, hret, Except.ok.injEq] at hf
  subst hf
  rw [opened_eq]
  simp only [notifyEffect, returnEffect, hs]
  refine ⟨?_, ?_, ?_⟩
  · have quiet : s.asksForNode = false := by
      unfold Site.asksForNode
      cases r <;> simp only [hs, hfin]
    simp only [quiet, hs, hret, Site.released, if_false]
    exact (Performs.start hg s.after.scratch.read s.after.scratch.written).noted rfl rfl
  · have hpassed : s.passed = [] := by
      unfold Site.passed
      cases r <;> simp [hs, hfin]
    rw [Site.reads, hpassed]
    rfl
  · unfold Site.writes
    cases r <;> simp [hs, hfin]

theorem opened_call_return (hg : g.Valid) {id : Nat} {r : Routine} {args : List Expr}
    (hs : s.expr = .call id r args) (hret : s.comingFrom = s.arity)
    (hf : callEffect p false s
      (bindArgument s ⟨g, none, s.after.scratch.read, s.after.scratch.written⟩) = .ok f) :
    Opened p s g (opened p s f) := by
  have hfin : s.finished = false := by
    simp only [Site.finished, hret, decide_eq_false_iff_not]
    omega
  rw [bindArgument_eq] at hf
  simp only [callEffect, hs, hfin, Bool.false_eq_true, if_false, hret, if_true, Except.ok.injEq] at hf
  subst hf
  rw [opened_eq]
  simp only [notifyEffect, returnEffect, hs]
  refine ⟨?_, ?_, ?_⟩
  · have quiet : s.asksForNode = false := by
      unfold Site.asksForNode
      cases r <;> simp only [hs, hfin]
    simp only [quiet, hs, hret, Site.released, if_true]
    have start := Performs.start hg s.after.scratch.read s.after.scratch.written
    refine ((start.forget _ ?_).noted rfl rfl)
    intro v
    cases v with
    | frame scope d name =>
        simp only [Forgetting.drops]
        cases r.returns && !p.isTopOfStatement s.here.routine (.call id r args) with
        | false => simp
        | true => simp [eq_comm]
    | _ => rfl
  · have hpassed : s.passed = [] := by
      unfold Site.passed
      cases r <;> simp [hs, hfin]
    rw [Site.reads, hpassed]
    rfl
  · unfold Site.writes
    cases r <;> simp [hs, hfin]

theorem opened_call_performed (hg : g.Valid) {id : Nat} {r : Routine} {args : List Expr}
    (hs : s.expr = .call id r args) (hfin : s.finished = true)
    (hf : callEffect p false s
      (bindArgument s ⟨g, none, s.after.scratch.read, s.after.scratch.written⟩) = .ok f) :
    Opened p s g (opened p s f) := by
  have hret : s.comingFrom ≠ s.arity := by
    have := of_decide_eq_true hfin
    omega
  have start := Performs.start hg s.after.scratch.read s.after.scratch.written
  rw [bindArgument_eq] at hf
  rw [opened_eq]
  simp only [notifyEffect, returnEffect, hs]
  cases r with
  | wait =>
      simp only [callEffect, hs, hfin, if_true, Bool.false_eq_true, if_false, Except.ok.injEq] at hf
      subst hf
      refine ⟨?_, ?_, ?_⟩
      · simp only [hs, hfin, hret, Site.released, Site.asksForNode, if_false, if_true]
        exact (Performs.ensureNode (start.noted rfl rfl) s.statement).noted rfl rfl
      · simp only [hs, Site.reads, Site.passed]
        rfl
      · simp only [hs, Site.writes]
        rfl
  | requestUpdate =>
      simp only [callEffect, hs, hfin, if_true, Bool.false_eq_true, if_false, Except.ok.injEq] at hf
      subst hf
      refine ⟨?_, ?_, ?_⟩
      · simp only [hs, hfin, hret, Site.released, Site.asksForNode, if_false, if_true]
        exact (Performs.ensureNode (start.noted rfl rfl) s.statement).noted rfl rfl
      · simp only [hs, Site.reads, Site.passed]
        rfl
      · simp only [hs, Site.writes]
        rfl
  | member m =>
      simp only [callEffect, hs, hfin, if_true, Except.ok.injEq] at hf
      subst hf
      cases hmem : s.isMember with
      | true =>
          refine ⟨?_, ?_, ?_⟩
          · simp only [hs, hret, Site.released, Site.asksForNode, if_false]
            exact start.noted rfl rfl
          · simp only [hs, hfin, hmem, Site.reads, Site.passed, if_true]
            rfl
          · simp only [hs, hfin, hmem, Site.writes, if_true]
            rfl
      | false =>
          refine ⟨?_, ?_, ?_⟩
          · simp only [hs, hret, Site.released, Site.asksForNode, if_false]
            exact start.noted rfl rfl
          · simp only [hs, hfin, hmem, Site.reads, Site.passed, if_true]
            rfl
          · simp only [hs, hfin, hmem, Site.writes, if_true]
            rfl

theorem opened_of_callEffect (hg : g.Valid)
    (hf : callEffect p false s
      (bindArgument s ⟨g, none, s.after.scratch.read, s.after.scratch.written⟩) = .ok f) :
    Opened p s g (opened p s f) := by
  cases hs : s.expr with
  | call id r args =>
      cases hfin : s.finished with
      | true => exact opened_call_performed hg hs hfin hf
      | false =>
          by_cases hret : s.comingFrom = s.arity
          · exact opened_call_return hg hs hret hf
          · exact opened_call_inside hg hs hfin hret hf
  | ret id value => exact opened_ret hg hs hf
  | notify id target delays => exact opened_notify hg hs hf
  | _ => exact opened_plain hg (by simp [hs, Plain]) hf

end Opening

/-- The acts of the accesses for given reads and writes of a site. -/
def Site.accessesOf (p : Program) (s : Site) (rs ws : List Variable) : List Act :=
  (if rs = [] then [] else .make (s.owner p).key :: rs.map (.read · (s.owner p).key)) ++
    (usedResult? p s).toList.map (fun v => .forget (.only v)) ++
    (if ws = [] then [] else .make (s.owner p).key :: ws.map (.write · (s.owner p).key))

/-- The part of the bookkeeping that makes the accesses, after which the node of the step is connected. -/
def concluded (p : Program) (s : Site) (f : Focus) : Except Halt Pdg := do
  let f ← (applyReads (s.owner p) f).mapError .broken
  let f := match usedResult? p s with
    | some v => { f with graph := f.graph.forget (· = v) }
    | none => f
  let f := Dependence.controllerNode s (s.owner p) (applyWrites (s.owner p) f)
  match f.node with
  | none => .ok f.graph
  | some n => (connect p s n f.graph).mapError .broken

theorem Performs.concluded {p : Program} {s : Site} {g h : Pdg} {acts : List Act} {a : Option String} {f : Focus}
    (performs : Performs g acts a f) (heval : Dependence.concluded p s f = .ok h) :
    ∃ f', let b := if f.read ≠ [] ∨ f.written ≠ [] then some (s.owner p).key else a
      Performs g (acts ++ s.accessesOf p f.read f.written ++
          if s.controls && b.isNone then [.make (s.owner p).key] else [])
        (if s.controls && b.isNone then some (s.owner p).key else b) f' ∧
      match f'.node with
      | none => h = f'.graph
      | some n => connect p s n f'.graph = .ok h := by
  unfold Dependence.concluded at heval
  obtain ⟨f₂, hf₂, heval⟩ := Success.bind_iff.1 heval
  obtain ⟨hreads, -, hwritten⟩ := performs.applyReads (Success.mapError_iff.1 hf₂)
  -- A result that was just read is forgotten before the writes are made.
  have hused : ∀ {acts a}, Performs g acts a f₂ →
      Performs g (acts ++ (usedResult? p s).toList.map fun v => .forget (.only v)) a
        (match usedResult? p s with
        | some v => { f₂ with graph := f₂.graph.forget (· = v) }
        | none => f₂) := by
    intro acts a h
    cases usedResult? p s with
    | none => simpa using h
    | some v => exact h.forget (.only v) fun _ => rfl
  have hkept : (match usedResult? p s with
      | some v => { f₂ with graph := f₂.graph.forget (· = v) }
      | none => f₂).written = f.written := by
    cases usedResult? p s <;> exact hwritten
  have hdone := ((hused hreads).applyWrites (s := s.owner p)).controllerNode (s := s)
    (o := s.owner p)
  rw [hkept] at hdone
  refine ⟨_, hdone.of_eq ?_ ?_, ?_⟩
  · by_cases hr : f.read = [] <;> by_cases hw : f.written = [] <;> simp [Site.accessesOf, hr, hw]
  · by_cases hr : f.read = [] <;> by_cases hw : f.written = [] <;> simp [hr, hw]
  · have final : ∀ F : Focus, (match F.node with
        | none => Except.ok F.graph
        | some n => (connect p s n F.graph).mapError Halt.broken) = .ok h →
        match F.node with
        | none => h = F.graph
        | some n => connect p s n F.graph = .ok h := by
      intro F hF
      cases hn : F.node with
      | none =>
          simp only [hn, Except.ok.injEq] at hF
          exact hF.symm
      | some n =>
          simp only [hn] at hF
          exact Success.mapError_iff.1 hF
    exact final _ heval

/-- The observer performs the acts of a site and then connects the node of the step. -/
theorem evaluatedAt_performs {p : Program} {s : Site} {g h : Pdg} (hg : g.Valid)
    (heval : evaluatedAt p false s g = .ok h) :
    ∃ f, Performs g (s.acts p) (s.node? p) f ∧
      match f.node with
      | none => h = f.graph
      | some n => connect p s n f.graph = .ok h := by
  unfold evaluatedAt at heval
  obtain ⟨f₁, hf₁, heval⟩ := Success.bind_iff.1 heval
  have hopen := opened_of_callEffect hg hf₁
  obtain ⟨f, hdone, hfinal⟩ := hopen.performs.concluded (p := p) heval
  rw [hopen.read, hopen.written] at hdone
  refine ⟨f, hdone.of_eq ?_ ?_, hfinal⟩
  · by_cases hr : s.reads p = [] <;> by_cases hw : s.writes = [] <;>
      cases ha : s.asksForNode <;> simp [Site.acts, Site.accessActs, Site.accessesOf, hr, hw, ha]
  · by_cases hr : s.reads p = [] <;> by_cases hw : s.writes = [] <;>
      cases ha : s.asksForNode <;> simp [Site.node?, hr, hw, ha]

end Dependence

end DeltaSlice

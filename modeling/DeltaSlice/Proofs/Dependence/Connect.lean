import DeltaSlice.Observer.Dependence
import DeltaSlice.Proofs.Dependence.Evaluated
import DeltaSlice.Proofs.Pdg.Reaching
import DeltaSlice.Proofs.Step.Observed

/-!
Connecting the node of a small step. An argument becomes a member of its call; any other node gets
its control edges once, from the nodes that its controlling expressions have by then, or from the
entry in their place.
-/

namespace DeltaSlice

namespace Dependence

open Pdg

/-- The node `b` stands for the controlling stack `c`: it is the node of that stack, or the entry
while there is none. -/
def StandsFor (g : Pdg) (origin : Option Instance) (c : Option Stack) (b : NodeId) : Prop :=
  match c with
  | none => g.entryId? = some b
  | some st =>
    (b = .statement (StatementId.point origin st).key ∧ .node b ∈ g.facts) ∨
      (.node (.statement (StatementId.point origin st).key) ∉ g.facts ∧ g.entryId? = some b)

/-- The control edges of a node `a` of a step that had none before. -/
def controlFacts (p : Program) (s : Site) (g : Pdg) (a : NodeId) : Set Fact :=
  {f | ∃ c ∈ p.controllers s.here.routine s.callers s.here.path s.expr,
    ∃ b, StandsFor g s.after.origin c b ∧ f = .edge .control b a}

def callNode (s : Site) : StatementId := .point s.after.origin (s.here.parent :: s.callers)

/-- Whether the step finishes the evaluation of an argument. -/
def Site.isArgument (s : Site) : Bool :=
  match s.parent with
  | some (.call ..) => s.finished
  | _ => false

variable {p : Program} {s : Site} {g h : Pdg} {n : Nat} {a : NodeId}

theorem entryId?_eq_some (hg : g.Valid) {m : Nat} (hm : g.entry = some m) :
    ∃ b, g.entryId? = some b ∧ g.idOf? m = some b := by
  obtain ⟨b, hb⟩ := idOf?_isSome.2 (hg.entry m hm)
  exact ⟨b, by simp [entryId?, hm, hb], hb⟩

theorem controlSource_cases (hg : g.Valid) (origin : Option Instance) (c : Option Stack) :
    (controlSource g origin c = none ∧ ∀ b, ¬ StandsFor g origin c b) ∨
      ∃ m b, controlSource g origin c = some m ∧ g.idOf? m = some b ∧
        ∀ b', StandsFor g origin c b' ↔ b' = b := by
  cases c with
  | none =>
      simp only [controlSource, StandsFor]
      cases hentry : g.entry with
      | none => exact .inl ⟨rfl, by simp [entryId?, hentry]⟩
      | some m =>
          obtain ⟨b, hid, hb⟩ := entryId?_eq_some hg hentry
          exact .inr ⟨m, b, rfl, hb, by simp [hid, eq_comm]⟩
  | some st =>
      simp only [controlSource, StandsFor]
      cases hfind : g.find? (.statement (StatementId.point origin st).key) with
      | some m =>
          have hm := find?_idOf? hfind
          refine .inr ⟨m, _, rfl, hm, ?_⟩
          intro b'
          have present : Fact.node (.statement (StatementId.point origin st).key) ∈ g.facts := ⟨m, hm⟩
          constructor
          · intro hb
            cases hb with
            | inl hb => exact hb.1
            | inr hb => exact absurd present hb.1
          · intro hb
            subst hb
            exact .inl ⟨rfl, present⟩
      | none =>
          have absent : Fact.node (.statement (StatementId.point origin st).key) ∉ g.facts := by
            intro hf
            obtain ⟨m, hm⟩ := hf
            exact find?_eq_none.1 hfind m hm
          have only : ∀ b', ((b' = .statement (StatementId.point origin st).key ∧
              Fact.node b' ∈ g.facts) ∨ (Fact.node (.statement
                (StatementId.point origin st).key) ∉ g.facts ∧ g.entryId? = some b')) ↔
              g.entryId? = some b' := by
            intro b'
            constructor
            · intro hb
              cases hb with
              | inl hb => exact absurd (hb.1 ▸ hb.2) absent
              | inr hb => exact hb.2
            · intro hb
              exact .inr ⟨absent, hb⟩
          simp only [only, Option.none_or]
          cases hentry : g.entry with
          | none => exact .inl ⟨rfl, by simp [entryId?, hentry]⟩
          | some m =>
              obtain ⟨b, hid, hb⟩ := entryId?_eq_some hg hentry
              exact .inr ⟨m, b, rfl, hb, by simp [hid, eq_comm]⟩

/-- Which node stands for a stack does not change while edges are added. -/
theorem StandsFor.congr (hg : g.Valid) {A : Set Fact} (hgrow : Grows g h A)
    (edges : ∀ b, Fact.node b ∉ A) (origin : Option Instance) (c : Option Stack) (b : NodeId) :
    StandsFor h origin c b ↔ StandsFor g origin c b := by
  have nodes : ∀ b, Fact.node b ∈ h.facts ↔ Fact.node b ∈ g.facts := by
    intro b
    rw [hgrow.facts, Set.mem_union]
    exact or_iff_left (edges b)
  have entry : h.entryId? = g.entryId? := by
    simp only [entryId?, hgrow.entry]
    cases hentry : g.entry with
    | none => rfl
    | some m => exact hgrow.idOf?_eq (hg.entry m hentry)
  cases c with
  | none => simp only [StandsFor, entry]
  | some st => simp only [StandsFor, entry, nodes]

theorem hasControl?_eq (hg : g.Valid) (hn : g.idOf? n = some a) {b : Bool}
    (hb : g.hasControl? n = some b) : b = true ↔ ∃ c, .edge .control c a ∈ g.facts := by
  obtain ⟨y, hy, rfl⟩ := idOf?_eq_some.1 hn
  simp only [hasControl?, hy, Option.map_some, Option.some.injEq] at hb
  subst hb
  simp only [Bool.not_eq_true', List.isEmpty_eq_false_iff]
  constructor
  · intro hne
    obtain ⟨m, hm⟩ := List.exists_mem_of_ne_nil _ hne
    have hout := (hg.mirrored .control m n).2 ⟨y, hy, hm⟩
    obtain ⟨c, hc⟩ := hout.source
    exact ⟨c, m, n, hc, hn, hout⟩
  · intro hc
    obtain ⟨c, m, n', hm, hn', hout⟩ := hc
    rw [hg.idOf?_inj hn' hn] at hout
    obtain ⟨y', hy', hmem⟩ := (hg.mirrored .control m n).1 hout
    rw [hy] at hy'
    injection hy' with hy'
    subst hy'
    exact List.ne_nil_of_mem hmem

theorem connect_argument (hs : s.isArgument = true) : connect p s n g =
    (g.statementNode (callNode s)).2.addEdge .member (g.statementNode (callNode s)).1 n := by
  unfold Site.isArgument at hs
  unfold connect
  cases hp : s.parent with
  | none => simp [hp] at hs
  | some q =>
      cases q with
      | call id r args =>
          simp only [hp] at hs
          simp only [hs]
          rfl
      | _ => simp [hp] at hs

theorem connect_other (hs : s.isArgument = false) : connect p s n g =
    match g.hasControl? n with
    | none => .error .undefined
    | some true => .ok g
    | some false => (do
      p.checkCases s.here.routine s.here.path s.expr
      (p.controllers s.here.routine s.callers s.here.path s.expr).foldlM (fun (g : Pdg) c =>
        match controlSource g s.after.origin c with
        | some m => g.addEdge .control m n
        | none => .ok g) g) := by
  unfold Site.isArgument at hs
  unfold connect
  cases hp : s.parent with
  | none => rfl
  | some q =>
      cases q with
      | call id r args =>
          simp only [hp] at hs
          cases hfin : s.finished with
          | true => simp [hfin] at hs
          | false => rfl
      | _ => rfl

/-- What connecting adds: an edge from the call to an argument, or all control edges at once. -/
theorem connect_grows (hg : g.Valid) (hn : g.idOf? n = some a) (hc : connect p s n g = .ok h) :
    Grows g h (if s.isArgument then
        {.node (.statement (callNode s).key), .edge .member (.statement (callNode s).key) a}
      else {f | (∀ c, .edge .control c a ∉ g.facts) ∧ f ∈ controlFacts p s g a}) := by
  cases hs : s.isArgument with
  | true =>
      rw [connect_argument hs] at hc
      obtain ⟨hnode, hname⟩ := node_grows hg (.statement (callNode s).key) (some (callNode s))
      refine (hnode.trans (addEdge_grows hnode.valid hname (hnode.names hn) hc)).congr ?_
      simp only [if_true, Set.insert_eq]
  | false =>
      rw [connect_other hs] at hc
      simp only [Bool.false_eq_true, if_false]
      cases hcon : g.hasControl? n with
      | none => simp [hcon] at hc
      | some b =>
          have hiff := hasControl?_eq hg hn hcon
          simp only [hcon] at hc
          cases b with
          | true =>
              injection hc with hc
              subst hc
              refine (Grows.refl hg).congr ?_
              congr 1
              ext f
              obtain ⟨c, hcon⟩ := hiff.1 rfl
              simp only [Set.mem_empty_iff_false, Set.mem_ofPred_eq, false_iff]
              intro hf
              exact hf.1 c hcon
          | false =>
              obtain ⟨-, -, hc⟩ := Success.bind_iff.1 hc
              have free : ∀ c, Fact.edge .control c a ∉ g.facts := by
                intro c hc
                exact Bool.false_ne_true (hiff.2 ⟨c, hc⟩)
              have main := foldlM_grows (F := fun c => {f | ∃ b, StandsFor g s.after.origin c b ∧
                f = .edge .control b a}) hg ?_ hc
              · refine main.congr ?_
                congr 1
                ext f
                simp only [controlFacts, Set.mem_ofPred_eq]
                exact (and_iff_right free).symm
              · intro c _ k k' pre hk hk'
                have same := StandsFor.congr hg hk (fun b hb => by
                  obtain ⟨c, -, b', -, hb⟩ := hb
                  cases hb) s.after.origin c
                cases controlSource_cases hk.valid s.after.origin c with
                | inl hnone =>
                    obtain ⟨hsource, hno⟩ := hnone
                    simp only [hsource, Except.ok.injEq] at hk'
                    subst hk'
                    refine (Grows.refl hk.valid).congr ?_
                    congr 1
                    ext f
                    simp only [Set.mem_empty_iff_false, Set.mem_ofPred_eq, false_iff]
                    intro hf
                    obtain ⟨b, hb, -⟩ := hf
                    exact hno b ((same b).2 hb)
                | inr hsome =>
                    obtain ⟨m, b, hsource, hb, honly⟩ := hsome
                    simp only [hsource] at hk'
                    refine (addEdge_grows hk.valid hb (hk.names hn) hk').congr ?_
                    congr 1
                    ext f
                    simp [← same, honly]

end Dependence

end DeltaSlice

/-!
Small steps under the observer of plain dependence graphs. The graph of a result is the one before
the step, with the acts of the step performed and its node connected.
-/

namespace DeltaSlice

open Dependence Pdg

namespace Simulator

variable {s : Simulator} {t r : Transition}

theorem silent_of_plain (plain : s.setup.observer = .pdg false) : s.setup.observer.Silent :=
  plain ▸ Observer.silent_pdg

/-- The edges that a move adds to the graph `c` on which its acts were performed. -/
def links (p : Program) (m : Move) (c : Pdg) : Set Fact :=
  match m.site? p with
  | none => ∅
  | some s =>
    match s.node? p with
    | none => ∅
    | some a =>
      if s.isArgument then
        {.node (.statement (callNode s).key),
          .edge .member (.statement (callNode s).key) (.statement a)}
      else {f | (∀ b, .edge .control b (.statement a) ∉ c.facts) ∧
        f ∈ controlFacts p s c (.statement a)}

/-- What a move does to a graph. -/
structure Learns (p : Program) (m : Move) (g h : Pdg) : Prop where
  middle : ∃ c : Pdg, c.Valid ∧ c.facts = (m.acts p).foldl Act.apply g.facts ∧
    c.entry = g.entry ∧ (∀ {n b}, g.idOf? n = some b → c.idOf? n = some b) ∧
    Grows c h (links p m c)

section Learns

variable {p : Program} {m : Move} {g h : Pdg}

/-- A move without acts leaves the graph alone. -/
theorem Learns.nothing (hg : g.Valid) (hsite : m.site? p = none) (hacts : m.acts p = []) : Learns p m g g := by
  refine ⟨g, hg, ?_, rfl, id, ?_⟩
  · rw [hacts]
    rfl
  · unfold links
    rw [hsite]
    exact .refl hg

/-- At the end of the code its variables are forgotten, and a step on a body does nothing else. -/
theorem Learns.body (hg : g.Valid) (hexpr : m.step.expr = none) :
    Learns p m g (if m.step.comingFrom = -2 then g.forget (·.isLocal) else g) := by
  have hsite : m.site? p = none := by simp [Move.site?, hexpr]
  split
  · rename_i hend
    refine ⟨g.forget (·.isLocal), forget_valid hg _, ?_, rfl, id, ?_⟩
    · simp only [Move.acts, hexpr, hend, if_true, List.foldl_cons, List.foldl_nil, Act.apply]
      exact forget_facts _
    · unfold links
      rw [hsite]
      exact .refl (forget_valid hg _)
  · rename_i hother
    exact .nothing hg hsite (by simp [Move.acts, hexpr, hother])

/-- At a site the acts are performed and the node of the site is connected. -/
theorem Learns.site {x : Site} (hg : g.Valid) (hexpr : m.step.expr = some x.expr)
    (hsite : m.site? p = some
      { x with after := { x.after with info := .pdg h, scratch := { x.after.scratch with event := none } } })
    (heval : evaluatedAt p false x g = .ok h) : Learns p m g h := by
  obtain ⟨f, hf, hnode⟩ := evaluatedAt_performs hg heval
  refine ⟨f.graph, hf.valid, ?_, hf.entry, hf.names, ?_⟩
  · rw [hf.facts]
    simp only [Move.acts, hexpr, hsite, Option.map_some, Option.getD_some]
    rfl
  · have hattr := hf.node
    simp only [links, hsite]
    -- the site before the event was taken away has the same node
    change Grows _ _ (match x.node? p with
      | none => ∅
      | some a => _)
    cases hn : f.node with
    | none =>
        simp only [hn] at hnode hattr
        subst hnode
        rw [Option.map_eq_none_iff.1 hattr.symm]
        exact .refl hf.valid
    | some n =>
        simp only [hn, Option.map_some] at hnode hattr
        obtain ⟨a, ha, hname⟩ := Option.map_eq_some_iff.1 hattr.symm
        rw [ha]
        exact connect_grows hf.valid hname.symm hnode

theorem learns_of_evaluated {u : Transition} (hg : g.Valid)
    (hu : m.result = { u with info := .pdg h, scratch := { u.scratch with event := none } })
    (heval : Dependence.evaluated p false u m.step.expr m.step.comingFrom g = .ok h) :
    Learns p m g h := by
  unfold Dependence.evaluated at heval
  cases hexpr : m.step.expr with
  | none =>
      rw [hexpr] at heval
      obtain rfl := Except.ok.inj heval
      exact .body hg hexpr
  | some e =>
      simp only [hexpr] at heval
      split at heval
      · rename_i hann
        obtain rfl := Except.ok.inj heval
        have hsite : m.site? p = none := by simp [Move.site?, hexpr, hu, hann]
        exact .nothing hg hsite (by simp [Move.acts, hexpr, hsite])
      · cases heval
      · rename_i l callers hann
        split at heval
        · cases heval
        · rename_i i up hpath
          exact .site hg hexpr (by simp [Move.site?, hexpr, hu, hann, hpath]) heval

end Learns

/-- A small step under the observer of plain graphs takes the graph on. -/
theorem plain_step (plain : s.setup.observer = .pdg false) {st : SmallStep} {g : Pdg}
    (hg : g.Valid) (hinfo : t.info = .pdg g) (hst : (s.smallStep t).result = .ok st)
    (hr : r ∈ st.results) :
    ∃ h, r.info = .pdg h ∧ Learns s.program ⟨st, r⟩ g h ∧ r.proc = t.proc ∧ r.origin = t.origin := by
  obtain ⟨st₀, rs, u, hadv, hu, heval, heq, rfl⟩ := smallStep_mem hst hr
  obtain ⟨huinfo, hproc, horigin⟩ := advance_keeps (silent_of_plain plain) hadv hu
  have hpdg : u.info = .pdg g := huinfo.trans hinfo
  rw [plain] at heval
  simp only [Observer.evaluated, hpdg, Run.result_of] at heval
  obtain ⟨h, hh, hrinfo⟩ := Success.map_iff.1 heval
  refine ⟨h, hrinfo.symm, learns_of_evaluated hg ?_ hh, ?_, ?_⟩
  · rw [← hrinfo] at heq
    exact heq
  · rw [heq]
    exact hproc
  · rw [heq]
    exact horigin

end Simulator

end DeltaSlice

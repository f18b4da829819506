import DeltaSlice.Proofs.Dependence.Connect
import DeltaSlice.Proofs.Dependence.Traces
import DeltaSlice.Proofs.Pdg.Compose
import DeltaSlice.Proofs.Pdg.Key
import DeltaSlice.Proofs.Pdg.Reaching
import DeltaSlice.Proofs.Worklist.Distributive
import DeltaSlice.Proofs.Worklist.ProcessStep
import DeltaSlice.Proofs.Worklist.Walk

/-!
Plain dependence graphs in a run of code: whatever occurs carries a well-formed graph with an entry,
merging unites what the graphs say, and a branch that is dropped for its key had nothing new to say.
-/

namespace DeltaSlice

open Dependence Pdg

/-- What the graph of an information says. -/
def Info.facts : Info → Set Fact
  | .pdg g => g.facts
  | _ => ∅

namespace Simulator

variable {s : Simulator} {start t r : Transition}

/-- A well-formed graph of code that has been entered. -/
structure Carries (t : Transition) (g : Pdg) : Prop where
  info : t.info = .pdg g
  valid : g.Valid
  entered : g.Entered

theorem Carries.facts {g : Pdg} (h : Carries t g) : t.info.facts = g.facts := by
  rw [h.info]
  rfl

theorem Carries.step (plain : s.setup.observer = .pdg false) {g : Pdg} (h : Carries t g)
    {st : SmallStep} (hst : (s.smallStep t).result = .ok st) (hr : r ∈ st.results) :
    ∃ g', Carries r g' ∧ Learns s.program ⟨st, r⟩ g g' := by
  obtain ⟨g', hinfo, hlearn, -, -⟩ := plain_step plain h.valid h.info hst hr
  obtain ⟨c, -, -, hentry, hnames, hgrow⟩ := hlearn.middle
  have hentered := (h.entered.keeps hentry hnames).keeps hgrow.entry hgrow.names
  exact ⟨g', ⟨hinfo, hgrow.valid, hentered⟩, hlearn⟩

theorem Carries.merge {u v : Transition} {i : Info} {g g' : Pdg} (ht : Carries t g)
    (hu : Carries u g') (hi : t.info.compose u.info = .ok i) :
    ∃ h, Carries { v with info := i } h ∧ h.facts = g.facts ∪ g'.facts := by
  rw [ht.info, hu.info] at hi
  obtain ⟨h, hcomp, rfl⟩ := Success.map_iff.1 hi
  obtain ⟨hvalid, hentry, hfacts, hnames⟩ :=
    compose_facts ht.valid hu.valid ht.entered.isSome hu.entered.isSome hcomp
  exact ⟨h, ⟨rfl, hvalid, ht.entered.keeps hentry hnames⟩, hfacts⟩

theorem Occurs.carries (plain : s.setup.observer = .pdg false) {g₀ : Pdg}
    (hstart : Carries start g₀) {b : Bool} (h : s.Occurs start b t) : ∃ g, Carries t g := by
  induction h with
  | start => exact ⟨g₀, hstart⟩
  | step _ hst hr ih =>
      obtain ⟨g, hg⟩ := ih
      obtain ⟨g', hg', -⟩ := hg.step plain hst hr
      exact ⟨g', hg'⟩
  | merge _ _ _ hi _ iht ihu =>
      obtain ⟨g, hg⟩ := iht
      obtain ⟨g', hg'⟩ := ihu
      obtain ⟨h, hh, -⟩ := hg.merge hg' hi
      exact ⟨h, hh⟩

theorem facts_merge (plain : s.setup.observer = .pdg false) {g₀ : Pdg} (hstart : Carries start g₀)
    {b : Bool} {u : Transition} {i : Info} (ht : s.Occurs start b t) (hu : s.Occurs start b u)
    (hi : t.info.compose u.info = .ok i) : i.facts = t.info.facts ∪ u.info.facts := by
  obtain ⟨g, hg⟩ := ht.carries plain hstart
  obtain ⟨g', hg'⟩ := hu.carries plain hstart
  obtain ⟨h, hh, hfacts⟩ := hg.merge (v := t) hg' hi
  rw [hg.facts, hg'.facts, ← hfacts]
  exact hh.facts

/-- Graphs are ordered by what they say. -/
theorem merging_facts (plain : s.setup.observer = .pdg false) {g₀ : Pdg}
    (hstart : Carries start g₀) : s.Merging start fun i j => i.facts ⊆ j.facts where
  refl := fun _ => Set.Subset.rfl
  trans := fun h h' => h.trans h'
  left := by
    intro b t u i ht hu _ hi
    rw [facts_merge plain hstart ht hu hi]
    exact Set.subset_union_left
  right := by
    intro b t u i ht hu _ hi
    rw [facts_merge plain hstart ht hu hi]
    exact Set.subset_union_right
  settled := by
    intro t u i ht hu hkey hi hsame
    obtain ⟨g, hg⟩ := ht.carries plain hstart
    obtain ⟨h, hh⟩ := (ht.merge hu hkey hi (.inl rfl)).carries plain hstart
    have hsub : t.info.facts ⊆ i.facts := by
      rw [facts_merge plain hstart ht hu hi]
      exact Set.subset_union_left
    have hinfo : i = .pdg h := hh.info
    rw [hg.facts, hinfo] at hsub
    rw [hg.info, hinfo] at hsame
    rw [hg.facts, hinfo]
    exact facts_subset_of_key_eq hg.valid hh.valid hsub hsame

theorem empty_valid : Pdg.empty.Valid where
  ids := by simp [Pdg.empty]
  mirrored := by simp [Pdg.empty, Out, In]
  ascending := by simp [Pdg.empty]
  entry := by simp [Pdg.empty]
  keys := by simp [Pdg.empty, Table.empty]
  definitions := by simp [Pdg.empty, Table.empty]

theorem empty_facts : Pdg.empty.facts = fresh := by
  ext f
  cases f with
  | node a => simp [fresh, Says, Pdg.empty, idOf?]
  | edge k a b => simp [fresh, Says, Pdg.empty, idOf?]
  | reaches v d => cases d <;> simp [fresh, Says, Pdg.empty, Table.empty, Table.get?]

/-- Code that starts on a well-formed graph enters it, and says nothing else. -/
theorem start_carries (plain : s.setup.observer = .pdg false) {g : Pdg} {i : Info}
    (hinfo : t.info = .pdg g) (hg : g.Valid)
    (hi : (s.setup.observer.start s.program t).result = .ok i) :
    ∃ g' a, Carries { t with info := i } g' ∧ g'.facts = g.facts ∪ {.node (.entry a)} := by
  rw [plain] at hi
  simp only [Observer.start, hinfo] at hi
  obtain ⟨g', hg', rfl⟩ := Success.map_iff.1 hi
  unfold Dependence.start at hg'
  cases hstack : t.running?.bind (·.resumption?) with
  | none => simp [hstack] at hg'
  | some stack =>
      simp only [hstack, Bool.false_eq_true, if_false, Except.ok.injEq] at hg'
      subst hg'
      let e := StatementId.point t.origin stack
      obtain ⟨hgrow, hname⟩ := node_grows hg (.entry e.key) (some e)
      refine ⟨_, e.key, ⟨rfl, ⟨hgrow.valid.ids, hgrow.valid.mirrored, hgrow.valid.ascending, ?_,
        hgrow.valid.keys, hgrow.valid.definitions⟩, _, e.key, rfl, hname⟩, hgrow.facts⟩
      intro n hn
      obtain rfl := Option.some.inj hn
      exact idOf?_isSome.1 ⟨_, hname⟩

theorem begin?_carries (plain : s.setup.observer = .pdg false) {p : Process} {st : State}
    (hbegin : s.begin? p st = .ok start) :
    ∃ g a, Carries start g ∧ g.facts = fresh ∪ {.node (.entry a)} := by
  obtain ⟨i, hi, rfl⟩ := Success.map_iff.1 hbegin
  rw [← empty_facts]
  exact start_carries plain (by rw [plain]; rfl) empty_valid hi

/-- A completed transition of a process comes from an ended one of an exhaustive run. -/
theorem makeStep_explored (plain : s.setup.observer = .pdg false) {p : Process} {st : State}
    (hbegin : s.begin? p st = .ok start) {ts : List Transition}
    (hstep : (s.makeStep p st).result = .ok ts) (hr : r ∈ ts) :
    ∃ taken ended, s.Explored start (fun i j => i.facts ⊆ j.facts) taken ended ∧
      ∃ e ∈ ended, r.state = e.state ∧
        ∃ g h, Carries e g ∧ r.info = .pdg h ∧ g.finalize = .ok h := by
  obtain ⟨g₀, -, hstart, -⟩ := begin?_carries plain hbegin
  obtain ⟨taken, ended, hx, e, he, hstate, hinfo⟩ :=
    explored_of_makeStep hbegin (merging_facts plain hstart) hstep hr
  obtain ⟨g, hg⟩ := (hx.occurs e he).carries plain hstart
  rw [plain, hg.info] at hinfo
  obtain ⟨h, hh, hpdg⟩ := Success.map_iff.1 (Run.ofFault_result_iff.1 hinfo)
  exact ⟨taken, ended, hx, e, he, hstate, g, h, hg, hpdg.symm, hh⟩

/-- Whether the small steps of the given numbers lead to a completed transition of the process such
that they and its graph pass a check. -/
def arrives (s : Simulator) (p : Process) (t : State) (l : List Nat)
    (c : Transition → List Move → Pdg → Bool) : Bool :=
  Success.yields (s.begin? p t) fun start =>
    Success.yields (s.makeStep p t).result fun ts => ts.any fun r =>
      match s.trail l [] start, r.info with
      | some (ms, true, u), .pdg g => u.state.key = r.state.key && c start ms g
      | _, _ => false

theorem exists_of_arrives {p : Process} {t : State} {l : List Nat}
    {c : Transition → List Move → Pdg → Bool} (h : s.arrives p t l c = true) :
    ∃ start ts r g ms, s.begin? p t = .ok start ∧ (s.makeStep p t).result = .ok ts ∧ r ∈ ts ∧
      r.info = .pdg g ∧ s.Leads start ms r ∧ c start ms g = true := by
  obtain ⟨start, hbegin, h⟩ := Success.exists_of_yields h
  obtain ⟨ts, hts, h⟩ := Success.exists_of_yields h
  obtain ⟨r, hr, h⟩ := List.any_eq_true.1 h
  split at h
  · rename_i ms u g htrail hinfo
    simp only [Bool.and_eq_true, decide_eq_true_eq] at h
    exact ⟨start, ts, r, g, ms, hbegin, hts, hr, hinfo, ⟨u, route_of_trail .nil htrail, h.1⟩, h.2⟩
  · cases h

end Simulator

end DeltaSlice

/-!
Data edges of plain dependence graphs. The graph of a transition collects over all sequences of small
steps to its state what each of them says about data, no more and no less: forks, merges and dropped
branches lose no definition and invent none.
-/

namespace DeltaSlice

open Dependence Pdg

namespace Simulator

variable {s : Simulator} {start t r : Transition}

def flowContent : Content (List Act) Fact :=
  ⟨fun i => flows i.facts, fun acts X => acts.foldl Act.carry X⟩

theorem flows_union (X Y : Set Fact) : flows (X ∪ Y) = flows X ∪ flows Y := by
  ext f
  simp only [flows, Set.mem_union, Set.mem_ofPred_eq]
  exact or_and_right

/-- Connecting nodes touches no data. -/
theorem flows_links (p : Program) (m : Move) (c : Pdg) : flows (links p m c) = ∅ := by
  ext f
  simp only [flows, Set.mem_ofPred_eq, Set.mem_empty_iff_false, iff_false, not_and]
  intro hf hflow
  unfold links at hf
  cases hsite : m.site? p with
  | none => simp [hsite] at hf
  | some x =>
      cases hnode : x.node? p with
      | none => simp [hsite, hnode] at hf
      | some a =>
          simp only [hsite, hnode] at hf
          split at hf
          · cases hf with
            | inl hf =>
                rw [hf] at hflow
                exact hflow
            | inr hf =>
                rw [hf] at hflow
                cases hflow
          · obtain ⟨-, c, -, b, -, rfl⟩ := hf
            cases hflow

theorem Learns.flows {p : Program} {m : Move} {g h : Pdg} (hl : Learns p m g h) :
    flows h.facts = (m.accesses p).foldl Act.carry (Dependence.flows g.facts) := by
  obtain ⟨c, -, hfacts, -, -, hgrow⟩ := hl.middle
  rw [hgrow.facts, flows_union, flows_links, Set.union_empty, hfacts, flows_foldl, carry_accesses]
  rfl

theorem distributive_flows (plain : s.setup.observer = .pdg false) {g₀ : Pdg}
    (hstart : Carries start g₀) :
    s.Distributive start (Move.accesses s.program) flowContent where
  step := by
    intro t st r hocc hst hr
    obtain ⟨g, hg⟩ := hocc.carries plain hstart
    obtain ⟨g', hg', hlearn⟩ := hg.step plain hst hr
    change flows r.info.facts = List.foldl Act.carry (flows t.info.facts) _
    rw [hg.facts, hg'.facts]
    exact hlearn.flows
  union := fun acts F hF => foldl_carry_union acts F hF
  merge := by
    intro b t u i ht hu _ hi
    change flows i.facts = flows t.info.facts ∪ flows u.info.facts
    rw [facts_merge plain hstart ht hu hi, flows_union]

/-- The accesses along a sequence of small steps. -/
def traceOf (p : Program) (ms : List Move) : List Act := ms.flatMap (Move.accesses p)

theorem Route.flows (plain : s.setup.observer = .pdg false) {g₀ : Pdg} (hstart : Carries start g₀)
    {b : Bool} {ms : List Move} (h : s.Route start b ms t) :
    flows t.info.facts = (traceOf s.program ms).foldl Act.carry (Dependence.flows start.info.facts) := by
  rw [traceOf, List.foldl_flatMap]
  exact (distributive_flows plain hstart).along h

/-- What the graph of an ended transition says about data is what the sequences to it say. -/
theorem flows_of_ended (plain : s.setup.observer = .pdg false) {g₀ : Pdg}
    (hstart : Carries start g₀) (keys : s.KeysDecide start (Move.accesses s.program))
    {taken ended : List Transition}
    (hx : s.Explored start (fun i j => i.facts ⊆ j.facts) taken ended) {e : Transition}
    (he : e ∈ ended) (f : Fact) :
    f ∈ flows e.info.facts ↔ ∃ ms, s.Leads start ms e ∧
      f ∈ (traceOf s.program ms).foldl Act.carry (flows start.info.facts) := by
  have hmono : ∀ {i j : Info}, i.facts ⊆ j.facts → flowContent.of i ⊆ flowContent.of j :=
    fun hsub f hf => ⟨hsub hf.1, hf.2⟩
  refine ((distributive_flows plain hstart).of_ended keys hmono hx he f).trans ?_
  constructor
  · intro h
    obtain ⟨ms, t, hc, hkey, hf⟩ := h
    exact ⟨ms, ⟨t, hc, hkey⟩, Route.flows plain hstart (b := true) hc ▸ hf⟩
  · intro h
    obtain ⟨ms, ⟨t, hc, hkey⟩, hf⟩ := h
    refine ⟨ms, t, hc, hkey, ?_⟩
    change f ∈ flows t.info.facts
    rw [Route.flows plain hstart (b := true) hc]
    exact hf

theorem begin?_flows (plain : s.setup.observer = .pdg false) {p : Process} {st : State}
    (hbegin : s.begin? p st = .ok start) : flows start.info.facts = fresh := by
  obtain ⟨g₀, a, hstart, hfresh⟩ := begin?_carries plain hbegin
  rw [hstart.facts, hfresh, flows_union]
  ext f
  cases f <;> simp [flows, fresh, IsFlow]

/-- The completed graph of a transition of a process has a data edge exactly where, on some sequence
of small steps to its state, a node reads a variable that another one wrote last, or that comes from
before the transition, or where a write is the last one at the end. -/
theorem dataEdges_iff_of_makeStep (plain : s.setup.observer = .pdg false) {p : Process}
    {st : State} (hbegin : s.begin? p st = .ok start)
    (keys : s.KeysDecide start (Move.accesses s.program)) {ts : List Transition}
    (hstep : (s.makeStep p st).result = .ok ts) (hr : r ∈ ts) :
    ∃ g, r.info = .pdg g ∧
      (∀ a b, g.edge? .data (.statement a) (.statement b) = .ok true ↔
        ∃ ms, s.Leads start ms r ∧ ∃ v before after,
          traceOf s.program ms = before ++ .read v b :: after ∧ Defines before v a) ∧
      (∀ v b, g.edge? .data (.input v) (.statement b) = .ok true ↔
        ∃ ms, s.Leads start ms r ∧ ∃ before after,
          traceOf s.program ms = before ++ .read v b :: after ∧ Untouched before v) ∧
      ∀ a v, g.edge? .data (.statement a) (.output v) = .ok true ↔
        ∃ ms, s.Leads start ms r ∧ Defines (traceOf s.program ms) v a := by
  obtain ⟨taken, ended, hx, e, he, hstate, g, h, hg, hinfo, hfin⟩ :=
    makeStep_explored plain hbegin hstep hr
  obtain ⟨hvalid, hedges⟩ := finalize_valid_edges hg.valid hfin
  obtain ⟨g₀, -, hstart, -⟩ := begin?_carries plain hbegin
  have hflows := flows_of_ended plain hstart keys hx he
  rw [begin?_flows plain hbegin, hg.facts] at hflows
  have hleads : ∀ ms, s.Leads start ms e ↔ s.Leads start ms r := by
    intro ms
    simp only [Leads, hstate]
  simp only [hleads] at hflows
  have hdata : ∀ a b, Fact.edge .data a b ∈ g.facts ↔ ∃ ms, s.Leads start ms r ∧
      ∃ v d n, a = sourceOf v d ∧ b = .statement n ∧ ReadsFrom (traceOf s.program ms) v d n := by
    intro a b
    have := hflows (.edge .data a b)
    simp only [edge_iff, true_and] at this
    exact ⟨fun hf => this.1 ⟨hf, rfl⟩, fun hf => (this.2 hf).1⟩
  refine ⟨h, hinfo, ?_, ?_, ?_⟩
  · intro a b
    rw [hvalid.edge?_eq_true, hedges, hdata]
    simp only [readsFrom_statement, reduceCtorEq, false_and, and_false, exists_false, or_false]
  · intro v b
    rw [hvalid.edge?_eq_true, hedges, hdata]
    simp only [readsFrom_input, reduceCtorEq, false_and, and_false, exists_false, or_false]
  · intro a v
    have hreach := hflows (.reaches v (some (.statement a)))
    simp only [reaches_iff, Reaches, NodeId.statement.injEq, exists_eq_left'] at hreach
    rw [hvalid.edge?_eq_true, hedges, hdata, ← hreach]
    simp only [reduceCtorEq, false_and, and_false, exists_false, false_or, true_and]
    constructor
    · intro h
      obtain ⟨w, d, hw, -, hf, ha⟩ := h
      obtain rfl := NodeId.output.inj hw
      obtain rfl := sourceOf_eq_statement.1 ha.symm
      exact ⟨hf, trivial⟩
    · intro h
      obtain ⟨d, hd, -⟩ := h.1
      exact ⟨v, _, rfl, List.mem_map.2 ⟨_, Table.mem_of_get? hd, rfl⟩, h.1, rfl⟩

end Simulator

open Examples Simulator in
theorem dataEdges_iff_of_makeStep_guarded :
    ∃ start, (untracked guarded (.pdg false)).begin? runner atStart = .ok start ∧
      (untracked guarded (.pdg false)).KeysDecide start (Move.accesses (.ofSystem guarded)) ∧
      ∃ ts, ((untracked guarded (.pdg false)).makeStep runner atStart).result = .ok ts ∧
        ∃ r ∈ ts, ∃ g, r.info = .pdg g ∧
          ∀ a v, g.edge? .data (.statement a) (.output v) = .ok true ↔
            ∃ ms, (untracked guarded (.pdg false)).Leads start ms r ∧
              Defines (traceOf (.ofSystem guarded) ms) v a := by
  obtain ⟨start, ts, r, -, -, hbegin, hts, hr, -, -, h⟩ := exists_of_arrives
    (s := untracked guarded (.pdg false)) (p := runner) (t := atStart) (l := List.replicate 11 0)
    (c := fun start _ _ => (untracked guarded (.pdg false)).surveys
      (Move.accesses (.ofSystem guarded)) start
      ((untracked guarded (.pdg false)).survey 100 [] [(false, start)])) (by decide +kernel)
  have keys := keysDecide_of_surveys h
  obtain ⟨g, hg, -, -, houts⟩ := dataEdges_iff_of_makeStep rfl hbegin keys hts hr
  exact ⟨start, hbegin, keys, ts, hts, r, hr, g, hg, houts⟩

end DeltaSlice

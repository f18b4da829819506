import DeltaSlice.Proofs.Dependence.Graphs
import DeltaSlice.Simulator.Cycle

/-!
The code that a transition runs. A step of a process runs its code once. The end of an evaluation
phase runs the requested update routines one after the other on one graph, and then lets the
simulation advance, from which plain graphs learn nothing. Whatever a graph says about data after one
of these runs, the completed graph says too, and its edges from input nodes come from these runs.
-/

namespace DeltaSlice

open Dependence Pdg

namespace Transition

/-- The transition in which the update routine of an instance is about to run. -/
def beforeUpdate (t : Transition) (i : Instance) (r : Routine) : Transition :=
  { t with
    state := { t.state with update := some (.start none [.start r (.lit (.inst i))]) }
    origin := some i }

/-- The transition after an update routine. -/
def afterUpdate (t : Transition) : Transition :=
  { t with state := { t.state with update := none }, origin := none }

end Transition

namespace Simulator

variable {s : Simulator} {start t r u v : Transition}

/-- One run of the code at `start` ends with `e`, among others. -/
def RunsTo (s : Simulator) (start e : Transition) : Prop :=
  ∃ ended, (s.run start).result = .ok ended ∧ e ∈ ended

theorem RunsTo.occurs {e : Transition} (h : s.RunsTo start e) : s.Occurs start true e := by
  obtain ⟨ended, hrun, he⟩ := h
  obtain ⟨taken, explored⟩ := explored_of_run (s.merging_trivial start) hrun
  exact explored.occurs e he

/-- The transition with which an update routine begins, as the observer sees it. -/
def beginUpdate? (s : Simulator) (i : Instance) (r : Routine) (t : Transition) :
    Except Halt Transition :=
  let t := t.beforeUpdate i r
  (s.setup.observer.start s.program t).result.map fun info => { t with info }

/-- The update routines of the instances run one after the other; `runs` lists where each of them
begins and ends. -/
inductive Updates (s : Simulator) :
    List Instance → Transition → List (Transition × Transition) → Transition → Prop
  | nil {t : Transition} : Updates s [] t [] t
  | cons {i : Instance} {is : List Instance} {c : ClassDef} {r : Routine} {t start e u : Transition}
      {runs : List (Transition × Transition)} : s.program.system.classOf? i = some c →
      c.routine? "update" = some r → s.beginUpdate? i r t = .ok start → s.RunsTo start e →
      Updates s is e.afterUpdate runs u → Updates s (i :: is) t ((start, e) :: runs) u

/-- The transition with which the end of an evaluation phase begins. -/
def beginEnd (s : Simulator) (st : State) : Transition :=
  (Transition.start st s.setup.observer.neutral none none).mapGlobal (·.clearUpdates)

/-- `r` is `t`, completed. -/
def Finalizes (s : Simulator) (t r : Transition) : Prop :=
  r.state = t.state ∧ (s.setup.observer.finalize t.info).result = .ok r.info

/-- The transition `r` from a state consists of the given runs of code. -/
inductive Consists (s : Simulator) (st : State) :
    List (Transition × Transition) → Transition → Prop
  | step {p : Process} {start e r : Transition} : s.begin? p st = .ok start → s.RunsTo start e →
      s.Finalizes e r → Consists s st [(start, e)] r
  | ending {runs : List (Transition × Transition)} {u v r : Transition} :
      s.Updates st.global.updates (s.beginEnd st) runs u → (s.advanceTime u).result = .ok v →
      s.Finalizes v r → Consists s st runs r

theorem consists_of_makeStep {p : Process} {st : State} {ts : List Transition}
    (hstep : (s.makeStep p st).result = .ok ts) (hr : r ∈ ts) : ∃ runs, s.Consists st runs r := by
  obtain ⟨start, ended, hbegin, hrun, hfin⟩ := makeStep_cases hstep
  obtain ⟨e, he, hstate, hinfo⟩ := finalize_mem hfin hr
  exact ⟨_, .step hbegin ⟨ended, hrun, he⟩ ⟨hstate, hinfo⟩⟩

theorem updateBranches_mem {i : Instance} {f : Routine} {ts us : List Transition}
    (h : (s.updateBranches i f ts).result = .ok us) (hu : u ∈ us) :
    ∃ t ∈ ts, ∃ start e, s.beginUpdate? i f t = .ok start ∧ s.RunsTo start e ∧
      u = e.afterUpdate := by
  induction ts generalizing us with
  | nil =>
      obtain rfl := Run.pure_result_iff.1 h
      cases hu
  | cons t ts ih =>
      obtain ⟨info, hinfo, h⟩ := Run.bind_result_iff.1 h
      obtain ⟨ended, hrun, h⟩ := Run.bind_result_iff.1 h
      obtain ⟨rest, hrest, h⟩ := Run.bind_result_iff.1 h
      obtain rfl := Run.pure_result_iff.1 h
      cases List.mem_append.1 hu with
      | inl hu =>
          obtain ⟨e, he, rfl⟩ := List.mem_map.1 hu
          exact ⟨t, by simp, _, e, Success.map_iff.2 ⟨info, hinfo, rfl⟩, ⟨ended, hrun, he⟩, rfl⟩
      | inr hu =>
          obtain ⟨t', ht', h⟩ := ih hrest hu
          exact ⟨t', by simp [ht'], h⟩

theorem updates_of_updateAll {is : List Instance} {ts us : List Transition}
    (h : (s.updateAll is ts).result = .ok us) (hu : u ∈ us) :
    ∃ t ∈ ts, ∃ runs, s.Updates is t runs u := by
  induction is generalizing ts with
  | nil =>
      obtain rfl := Run.pure_result_iff.1 h
      exact ⟨u, hu, [], .nil⟩
  | cons i is ih =>
      unfold updateAll at h
      cases hc : s.program.system.classOf? i with
      | none =>
          simp only [hc] at h
          cases h
      | some c =>
          cases hf : c.routine? "update" with
          | none =>
              simp only [hc, hf] at h
              cases h
          | some f =>
              simp only [hc, hf] at h
              obtain ⟨done, hdone, h⟩ := Run.bind_result_iff.1 h
              obtain ⟨w, hw, runs, hruns⟩ := ih h
              obtain ⟨t, ht, start, e, hbegin, hrun, rfl⟩ := updateBranches_mem hdone hw
              exact ⟨t, ht, _, .cons hc hf hbegin hrun hruns⟩

theorem advanceAll_mem {ts us : List Transition} (h : (s.advanceAll ts).result = .ok us)
    (hu : u ∈ us) : ∃ t ∈ ts, (s.advanceTime t).result = .ok u := by
  induction ts generalizing us with
  | nil =>
      obtain rfl := Run.pure_result_iff.1 h
      cases hu
  | cons t ts ih =>
      obtain ⟨w, hw, h⟩ := Run.bind_result_iff.1 h
      obtain ⟨rest, hrest, h⟩ := Run.bind_result_iff.1 h
      obtain rfl := Run.pure_result_iff.1 h
      split at hw
      · cases hw
      cases List.mem_cons.1 hu with
      | inl hu => exact ⟨t, by simp, hu ▸ hw⟩
      | inr hu =>
          obtain ⟨t', ht', h⟩ := ih hrest hu
          exact ⟨t', by simp [ht'], h⟩

theorem endEvaluation_cases {st : State} {ts : List Transition}
    (hstep : (s.endEvaluation st).result = .ok ts) (hr : r ∈ ts) :
    ∃ runs u v, s.Updates st.global.updates (s.beginEnd st) runs u ∧
      (s.advanceTime u).result = .ok v ∧ s.Finalizes v r := by
  unfold endEvaluation at hstep
  split at hstep
  · cases hstep
  · obtain ⟨us, hupdated, hstep⟩ := Run.bind_result_iff.1 hstep
    obtain ⟨vs, hadvanced, hfin⟩ := Run.bind_result_iff.1 hstep
    obtain ⟨v, hv, hstate, hinfo⟩ := finalize_mem hfin hr
    obtain ⟨u, hu, hadvance⟩ := advanceAll_mem hadvanced hv
    obtain ⟨t, ht, runs, hruns⟩ := updates_of_updateAll hupdated hu
    obtain rfl := List.mem_singleton.1 ht
    exact ⟨runs, u, v, hruns, hadvance, hstate, hinfo⟩

theorem consists_of_endEvaluation {st : State} {ts : List Transition}
    (hstep : (s.endEvaluation st).result = .ok ts) (hr : r ∈ ts) :
    ∃ runs, s.Consists st runs r := by
  obtain ⟨runs, u, v, hruns, hadvance, hfin⟩ := endEvaluation_cases hstep hr
  exact ⟨runs, .ending hruns hadvance hfin⟩

section Advance

theorem wakeDelta_info {ps : List Process} (h : (s.wakeDelta t ps).result = .ok u) :
    u.info = t.info := by
  induction ps generalizing t with
  | nil =>
      obtain rfl := Run.pure_result_iff.1 h
      rfl
  | cons p ps ih =>
      unfold wakeDelta at h
      cases hq : t.state.procs[p.index]? with
      | none =>
          simp only [hq] at h
          cases h
      | some q =>
          simp only [hq] at h
          split at h
          · exact ih h
          · obtain ⟨_, -, h⟩ := Run.bind_result_iff.1 h
            have hinfo := ih h
            exact hinfo

theorem passProcesses_info {passed : Int64} {ps : List Process}
    (h : (s.passProcesses passed t ps).result = .ok u) : u.info = t.info := by
  induction ps generalizing t with
  | nil =>
      obtain rfl := Run.pure_result_iff.1 h
      rfl
  | cons p ps ih =>
      unfold passProcesses at h
      cases hq : t.state.procs[p.index]? with
      | none =>
          simp only [hq] at h
          cases h
      | some q =>
          simp only [hq] at h
          split at h
          · exact ih h
          · split at h
            · obtain ⟨_, -, h⟩ := Run.bind_result_iff.1 h
              have hinfo := ih h
              exact hinfo
            · obtain ⟨_, -, h⟩ := Run.bind_result_iff.1 h
              have hinfo := ih h
              exact hinfo
          · cases h

variable (plain : s.setup.observer = .pdg false)

include plain

theorem deltaCycle_info {events : List Event} (h : (s.deltaCycle t events).result = .ok u) :
    u.info = t.info := by
  obtain ⟨w, hw, h⟩ := Run.bind_result_iff.1 h
  exact (wakeDelta_info h).trans (notifyProcesses_keeps (silent_of_plain plain) hw).info

theorem letTimePass_info {passed : Int64} (h : (s.letTimePass t passed).result = .ok u) :
    u.info = t.info := by
  obtain ⟨⟨due, g⟩, -, h⟩ := Run.bind_result_iff.1 h
  simp only at h
  split at h
  · obtain ⟨w, hw, h⟩ := Run.bind_result_iff.1 h
    obtain rfl := Run.pure_result_iff.1 hw
    exact passProcesses_info (t := { t with state := { t.state with global := g } }) h
  · obtain ⟨w, hw, h⟩ := Run.bind_result_iff.1 h
    exact (passProcesses_info h).trans (notifyProcesses_keeps (silent_of_plain plain) hw).info

/-- Plain graphs learn nothing from the advance of the simulation. -/
theorem advanceTime_info (h : (s.advanceTime t).result = .ok u) : u.info = t.info := by
  have unchanged : (pure t : Step Transition).result = .ok u → u.info = t.info := by
    intro h
    obtain rfl := Run.pure_result_iff.1 h
    rfl
  unfold advanceTime at h
  simp only at h
  split at h
  · exact unchanged h
  · split at h
    · split at h
      · exact letTimePass_info plain h
      · exact unchanged h
    · exact deltaCycle_info plain h

end Advance

section Graphs

/-- A run of code from a graph of `start`, whose data edges at the end `e` are in the graph `g`. -/
structure Contributes (s : Simulator) (start e : Transition) (g : Pdg) : Prop where
  carries : ∃ g₀, Carries start g₀
  run : s.RunsTo start e
  edges : ∀ a b, .edge .data a b ∈ e.info.facts → .edge .data a b ∈ g.facts

variable (plain : s.setup.observer = .pdg false)

include plain

theorem Occurs.keeps_edge {g₀ : Pdg} (hstart : Carries start g₀) {a b : NodeId}
    (he : .edge .data a b ∈ start.info.facts) {ended : Bool} (h : s.Occurs start ended t) :
    .edge .data a b ∈ t.info.facts := by
  induction h with
  | start => exact he
  | @step t r st hocc hst hr ih =>
      have hflows : flows r.info.facts = _ := (distributive_flows plain hstart).step hocc hst hr
      have hkept : Fact.edge .data a b ∈ flows r.info.facts := by
        rw [hflows]
        exact edge_mem_foldl _ ⟨ih, rfl⟩
      exact hkept.1
  | merge ht hu _ hi _ iht _ =>
      rw [facts_merge plain hstart ht hu hi]
      exact .inl iht

theorem RunsTo.grows {g₀ : Pdg} (hstart : Carries start g₀) {e : Transition}
    (h : s.RunsTo start e) : ∃ g, Carries e g ∧
      ∀ a b, .edge .data a b ∈ start.info.facts → .edge .data a b ∈ g.facts := by
  have hocc := h.occurs
  obtain ⟨g, hg⟩ := hocc.carries plain hstart
  refine ⟨g, hg, ?_⟩
  intro a b hab
  rw [← hg.facts]
  exact hocc.keeps_edge plain hstart hab

/-- Update routines add to the graph, and every one of them contributes to it. -/
theorem Updates.contributes {is : List Instance} {runs : List (Transition × Transition)}
    (h : s.Updates is t runs u) {g : Pdg} (hinfo : t.info = .pdg g) (hg : g.Valid) :
    ∃ g', u.info = .pdg g' ∧ g'.Valid ∧
      (∀ a b, .edge .data a b ∈ g.facts → .edge .data a b ∈ g'.facts) ∧
      ∀ start e, (start, e) ∈ runs → s.Contributes start e g' := by
  induction h generalizing g with
  | nil => exact ⟨g, hinfo, hg, fun _ _ h => h, by simp⟩
  | cons _ _ hbegin hrun _ ih =>
      obtain ⟨info, hstart, rfl⟩ := Success.map_iff.1 hbegin
      obtain ⟨g₀, a, hcarries, hfacts⟩ := start_carries plain (by exact hinfo) hg hstart
      obtain ⟨g₁, hg₁, hkept⟩ := hrun.grows plain hcarries
      obtain ⟨g', hinfo', hg', hlater, hruns⟩ := ih (by exact hg₁.info) hg₁.valid
      refine ⟨g', hinfo', hg', ?_, ?_⟩
      · intro a b hab
        refine hlater a b (hkept a b ?_)
        rw [hcarries.facts, hfacts]
        exact .inl hab
      · intro start e hmem
        cases List.mem_cons.1 hmem with
        | inl heq =>
            obtain ⟨rfl, rfl⟩ := Prod.mk.inj heq
            exact ⟨⟨g₀, hcarries⟩, hrun, fun a b hab => hlater a b (hg₁.facts ▸ hab)⟩
        | inr hmem => exact hruns start e hmem

theorem Finalizes.grows (h : s.Finalizes t r) {g : Pdg} (hinfo : t.info = .pdg g) (hg : g.Valid) :
    ∃ g', r.info = .pdg g' ∧ g'.Valid ∧
      ∀ a b, .edge .data a b ∈ g.facts → .edge .data a b ∈ g'.facts := by
  have hfin := h.2
  rw [plain, hinfo] at hfin
  obtain ⟨g', hg', hpdg⟩ := Success.map_iff.1 (Run.ofFault_result_iff.1 hfin)
  obtain ⟨hvalid, hedges⟩ := finalize_valid_edges hg hg'
  exact ⟨g', hpdg.symm, hvalid, fun a b hab => (hedges .data a b).2 (.inl hab)⟩

/-- Every run of code that a transition consists of contributes to its completed graph. -/
theorem Consists.contributes {st : State} {runs : List (Transition × Transition)}
    (h : s.Consists st runs r) : ∃ g, r.info = .pdg g ∧ g.Valid ∧
      ∀ start e, (start, e) ∈ runs → s.Contributes start e g := by
  cases h with
  | step hbegin hrun hfin =>
      obtain ⟨g₀, a, hstart, -⟩ := begin?_carries plain hbegin
      obtain ⟨g₁, hg₁, -⟩ := hrun.grows plain hstart
      obtain ⟨g, hinfo, hg, hkept⟩ := hfin.grows plain hg₁.info hg₁.valid
      refine ⟨g, hinfo, hg, ?_⟩
      intro start e hmem
      obtain ⟨rfl, rfl⟩ := Prod.mk.inj (List.mem_singleton.1 hmem)
      exact ⟨⟨g₀, hstart⟩, hrun, fun a b hab => hkept a b (hg₁.facts ▸ hab)⟩
  | ending hupdates hadvance hfin =>
      obtain ⟨g₁, hinfo₁, hg₁, -, hruns⟩ :=
        hupdates.contributes plain (g := .empty) (by rw [beginEnd, plain]; rfl) empty_valid
      obtain ⟨g, hinfo, hg, hkept⟩ :=
        hfin.grows plain ((advanceTime_info plain hadvance).trans hinfo₁) hg₁
      refine ⟨g, hinfo, hg, ?_⟩
      intro start e hmem
      obtain ⟨hcarries, hrun, hedges⟩ := hruns start e hmem
      exact ⟨hcarries, hrun, fun a b hab => hkept a b (hedges a b hab)⟩

end Graphs

section Inputs

variable {runs : List (Transition × Transition)} {x : Variable} {b : String}

/-- On a sequence of small steps of one of the runs, `b` reads `x` with no definition of it. -/
def ReadsInput (s : Simulator) (runs : List (Transition × Transition)) (x : Variable) (b : String) :
    Prop :=
  ∃ start e, (start, e) ∈ runs ∧ ∃ ms before after, s.Leads start ms e ∧
    traceOf s.program ms = before ++ .read x b :: after ∧ Untouched before x

theorem ReadsInput.mono {more : List (Transition × Transition)} (h : s.ReadsInput runs x b)
    (hsub : runs ⊆ more) : s.ReadsInput more x b := by
  obtain ⟨start, e, hmem, h⟩ := h
  exact ⟨start, e, hsub hmem, h⟩

variable (plain : s.setup.observer = .pdg false)

include plain

theorem RunsTo.input {g₀ : Pdg} (hstart : Carries start g₀)
    (keys : s.KeysDecide start (Move.accesses s.program)) {e : Transition} (h : s.RunsTo start e)
    (hstatements : Statements start.info.facts) : Statements e.info.facts ∧
      (.edge .data (.input x) (.statement b) ∈ e.info.facts →
        .edge .data (.input x) (.statement b) ∈ start.info.facts ∨ s.ReadsInput [(start, e)] x b) := by
  obtain ⟨ended, hrun, he⟩ := h
  obtain ⟨taken, hx⟩ := explored_of_run (merging_facts plain hstart) hrun
  have hflows := flows_of_ended plain hstart keys hx he
  have hfrom : Statements (flows start.info.facts) := fun v c hc => hstatements v c hc.1
  refine ⟨?_, ?_⟩
  · intro v c hc
    obtain ⟨ms, -, hc⟩ := (hflows _).1 ⟨hc, trivial⟩
    exact hfrom.carried _ v c hc
  · intro hedge
    obtain ⟨ms, hleads, hedge⟩ := (hflows _).1 ⟨hedge, rfl⟩
    refine (edge_input_cases hfrom hedge).imp And.left ?_
    rintro ⟨before, after, htrace, hbefore⟩
    exact ⟨start, e, by simp, ms, before, after, hleads, htrace, hbefore⟩

theorem Updates.input {is : List Instance} (h : s.Updates is t runs u) {g : Pdg}
    (hinfo : t.info = .pdg g) (hg : g.Valid)
    (keys : ∀ start e, (start, e) ∈ runs → s.KeysDecide start (Move.accesses s.program))
    (hstatements : Statements t.info.facts)
    (hedge : .edge .data (.input x) (.statement b) ∈ u.info.facts) :
    .edge .data (.input x) (.statement b) ∈ t.info.facts ∨ s.ReadsInput runs x b := by
  induction h generalizing g with
  | nil => exact .inl hedge
  | cons _ _ hbegin hrun _ ih =>
      obtain ⟨info, hstart, rfl⟩ := Success.map_iff.1 hbegin
      obtain ⟨g₀, a, hcarries, hfacts⟩ := start_carries plain (by exact hinfo) hg hstart
      obtain ⟨g₁, hg₁, -⟩ := hrun.grows plain hcarries
      rw [hinfo] at hstatements
      have hbegun : Statements info.facts := by
        intro v c hc
        rw [hcarries.facts, hfacts] at hc
        exact hstatements v c (hc.resolve_right (by simp))
      obtain ⟨hended, hrun⟩ := hrun.input plain hcarries (keys _ _ List.mem_cons_self) hbegun
      rcases ih (by exact hg₁.info) hg₁.valid (fun start e hmem => keys start e (by simp [hmem]))
        hended hedge with hedge | hlater
      · rcases hrun hedge with hedge | hread
        · rw [hcarries.facts, hfacts] at hedge
          rw [hinfo]
          exact .inl (hedge.resolve_right (by simp))
        · exact .inr (hread.mono (by simp))
      · exact .inr (hlater.mono (by simp))

theorem Finalizes.input (h : s.Finalizes t r) {g g' : Pdg} (hinfo : t.info = .pdg g) (hg : g.Valid)
    (hinfo' : r.info = .pdg g') (hedge : g'.edge? .data (.input x) (.statement b) = .ok true) :
    .edge .data (.input x) (.statement b) ∈ t.info.facts := by
  have hfin := h.2
  rw [plain, hinfo] at hfin
  obtain ⟨k, hk, hpdg⟩ := Success.map_iff.1 (Run.ofFault_result_iff.1 hfin)
  obtain rfl : k = g' := Info.pdg.inj (hpdg.trans hinfo')
  obtain ⟨hvalid, hedges⟩ := finalize_valid_edges hg hk
  rw [hvalid.edge?_eq_true, hedges] at hedge
  rw [hinfo]
  rcases hedge with hedge | ⟨-, v, d, hb, -⟩
  · exact hedge
  · cases hb

/-- An edge of the completed graph from an input node to a statement comes from a sequence on which
the statement reads the variable with no definition of it. -/
theorem Consists.input {st : State} (h : s.Consists st runs r)
    (keys : ∀ start e, (start, e) ∈ runs → s.KeysDecide start (Move.accesses s.program)) {g : Pdg}
    (hinfo : r.info = .pdg g)
    (hedge : g.edge? .data (.input x) (.statement b) = .ok true) : s.ReadsInput runs x b := by
  cases h with
  | @step p start e r hbegin hrun hfin =>
      obtain ⟨g₀, a, hstart, hfacts⟩ := begin?_carries plain hbegin
      obtain ⟨g₁, hg₁, -⟩ := hrun.grows plain hstart
      have hstatements : Statements start.info.facts := by
        intro v c hc
        simp [hstart.facts, hfacts, fresh] at hc
      obtain ⟨-, hcases⟩ := hrun.input plain hstart (keys _ _ List.mem_cons_self) hstatements
      refine (hcases (hfin.input plain hg₁.info hg₁.valid hinfo hedge)).resolve_left ?_
      simp [hstart.facts, hfacts, fresh]
  | @ending runs u v r hupdates hadvance hfin =>
      have hempty : (s.beginEnd st).info = .pdg .empty := by
        rw [beginEnd, plain]
        rfl
      have hfacts : (s.beginEnd st).info.facts = fresh := by
        rw [hempty]
        exact empty_facts
      have hstatements : Statements (s.beginEnd st).info.facts := by
        intro v c hc
        simp [hfacts, fresh] at hc
      obtain ⟨g₁, hinfo₁, hg₁, -⟩ := hupdates.contributes plain hempty empty_valid
      have hadvanced := advanceTime_info plain hadvance
      have hended := hfin.input plain (hadvanced.trans hinfo₁) hg₁ hinfo hedge
      rw [hadvanced] at hended
      refine (hupdates.input plain hempty empty_valid keys hstatements hended).resolve_left ?_
      simp [hfacts, fresh]

end Inputs

end Simulator

end DeltaSlice

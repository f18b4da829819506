import DeltaSlice.Proofs.Accesses.Possible
import DeltaSlice.Proofs.Dependence.Cases
import DeltaSlice.Proofs.Globals.Graphs
import DeltaSlice.Proofs.Globals.Writes
import DeltaSlice.Proofs.Step.Seats

/-!
Read and write conditions and dependence graphs agree about global variables. The two are kept side by side by
one observer: every small step, wakeup and merge keeps them in agreement, and so do all transitions that can be
explored. Completed graphs have output nodes for the global variables that are possibly written, and statements
depend on the input nodes of those only that are possibly read.
-/

namespace DeltaSlice

open Pdg

/-- Observes the read and write conditions of all variables and dependence graphs, side by side. -/
def Observer.joint (triggers graphFirst : Bool) : Observer :=
  if graphFirst then .pair (.pdg triggers) (.readWrite fun _ => true)
  else .pair (.readWrite fun _ => true) (.pdg triggers)

def Info.joint (graphFirst : Bool) (i : ReadWrite) (g : Pdg) : Info :=
  if graphFirst then .pair (.pdg g) (.readWrite i) else .pair (.readWrite i) (.pdg g)

namespace Observer

variable {p : Program} {t : Transition} {x : Info}

section Pairs

variable {a b : Observer} {y z : Info} (known : t.info = .pair y z)

include known

theorem start_pair (h : ((pair a b).start p t).result = .ok x) :
    ∃ y' z', (a.start p { t with info := y }).result = .ok y' ∧
      (b.start p { t with info := z }).result = .ok z' ∧ x = .pair y' z' := by
  simp only [start, known] at h
  obtain ⟨y', hy, h⟩ := Run.bind_result_iff.1 h
  obtain ⟨z', hz, h⟩ := Run.bind_result_iff.1 h
  exact ⟨y', z', hy, hz, (Run.pure_result_iff.1 h).symm⟩

theorem evaluated_pair {e : Option Expr} {c : Int} (h : ((pair a b).evaluated p t e c).result = .ok x) :
    ∃ y' z', (a.evaluated p { t with info := y } e c).result = .ok y' ∧
      (b.evaluated p { t with info := z } e c).result = .ok z' ∧ x = .pair y' z' := by
  simp only [evaluated, known] at h
  obtain ⟨y', hy, h⟩ := Run.bind_result_iff.1 h
  obtain ⟨z', hz, h⟩ := Run.bind_result_iff.1 h
  exact ⟨y', z', hy, hz, (Run.pure_result_iff.1 h).symm⟩

theorem waitedForEvents_pair {q : Process} {events : List Event} {before : EventList}
    (h : ((pair a b).waitedForEvents t q events before).result = .ok x) :
    ∃ y' z', (a.waitedForEvents { t with info := y } q events before).result = .ok y' ∧
      (b.waitedForEvents { t with info := z } q events before).result = .ok z' ∧ x = .pair y' z' := by
  simp only [waitedForEvents, known] at h
  obtain ⟨y', hy, h⟩ := Run.bind_result_iff.1 h
  obtain ⟨z', hz, h⟩ := Run.bind_result_iff.1 h
  exact ⟨y', z', hy, hz, (Run.pure_result_iff.1 h).symm⟩

end Pairs

variable {triggers graphFirst : Bool} {i : ReadWrite} {g : Pdg}

theorem neutral_joint : (joint triggers graphFirst).neutral = .joint graphFirst .empty .empty := by
  cases graphFirst <;> rfl

theorem start_joint (known : t.info = .joint graphFirst i g)
    (h : ((joint triggers graphFirst).start p t).result = .ok x) :
    ∃ u h, Dependence.start triggers u g = .ok h ∧ x = .joint graphFirst i h := by
  cases graphFirst with
  | false =>
      obtain ⟨y, z, hy, hz, rfl⟩ := start_pair known h
      obtain rfl := Run.pure_result_iff.1 hy
      obtain ⟨k, hk, rfl⟩ := Success.map_iff.1 hz
      exact ⟨_, k, hk, rfl⟩
  | true =>
      obtain ⟨y, z, hy, hz, rfl⟩ := start_pair known h
      obtain rfl := Run.pure_result_iff.1 hz
      obtain ⟨k, hk, rfl⟩ := Success.map_iff.1 hy
      exact ⟨_, k, hk, rfl⟩

/-- Only graphs have to be prepared for a small step. -/
theorem announce_joint {e : Expr} {sc : Scratch} (h : ((joint triggers graphFirst).announce p t e).result = .ok sc) :
    Dependence.announce p triggers t e = .ok sc := by
  cases graphFirst with
  | false =>
      obtain ⟨first, hfirst, h⟩ := Run.bind_result_iff.1 h
      obtain rfl := Run.pure_result_iff.1 hfirst
      exact h
  | true =>
      obtain ⟨first, hfirst, h⟩ := Run.bind_result_iff.1 h
      obtain rfl := Run.pure_result_iff.1 h
      exact hfirst

theorem evaluated_joint {e : Option Expr} {c : Int} (known : t.info = .joint graphFirst i g)
    (h : ((joint triggers graphFirst).evaluated p t e c).result = .ok x) :
    ∃ h, Dependence.evaluated p triggers { t with info := .pdg g } e c g = .ok h ∧
      x = .joint graphFirst (observeAccesses (fun _ => true) { t with info := .readWrite i } i) h := by
  cases graphFirst with
  | false =>
      obtain ⟨y, z, hy, hz, rfl⟩ := evaluated_pair known h
      obtain rfl := Run.pure_result_iff.1 hy
      obtain ⟨k, hk, rfl⟩ := Success.map_iff.1 hz
      exact ⟨k, hk, rfl⟩
  | true =>
      obtain ⟨y, z, hy, hz, rfl⟩ := evaluated_pair known h
      obtain rfl := Run.pure_result_iff.1 hz
      obtain ⟨k, hk, rfl⟩ := Success.map_iff.1 hy
      exact ⟨k, hk, rfl⟩

/-- What a graph learns from a wakeup, if it minds triggers. -/
theorem waitedForEvents_graph {q : Process} {events : List Event} {before : EventList} (known : t.info = .pdg g)
    (h : ((pdg triggers).waitedForEvents t q events before).result = .ok x) :
    ∃ h, (h = g ∨ Dependence.woken t q events before g = .ok h) ∧ x = .pdg h := by
  cases triggers with
  | false =>
      obtain rfl := Run.pure_result_iff.1 h
      exact ⟨g, .inl rfl, known⟩
  | true =>
      simp only [waitedForEvents, known] at h
      obtain ⟨k, hk, rfl⟩ := Success.map_iff.1 (Run.ofFault_result_iff.1 h)
      exact ⟨k, .inr hk, rfl⟩

theorem waitedForEvents_joint {q : Process} {events : List Event} {before : EventList}
    (known : t.info = .joint graphFirst i g)
    (h : ((joint triggers graphFirst).waitedForEvents t q events before).result = .ok x) :
    ∃ u h, (h = g ∨ Dependence.woken u q events before g = .ok h) ∧ x = .joint graphFirst i h := by
  cases graphFirst with
  | false =>
      obtain ⟨y, z, hy, hz, rfl⟩ := waitedForEvents_pair known h
      obtain rfl := Run.pure_result_iff.1 hy
      obtain ⟨k, learned, rfl⟩ := waitedForEvents_graph rfl hz
      exact ⟨_, k, learned, rfl⟩
  | true =>
      obtain ⟨y, z, hy, hz, rfl⟩ := waitedForEvents_pair known h
      obtain rfl := Run.pure_result_iff.1 hz
      obtain ⟨k, learned, rfl⟩ := waitedForEvents_graph rfl hy
      exact ⟨_, k, learned, rfl⟩

theorem finalize_joint (h : ((joint triggers graphFirst).finalize (.joint graphFirst i g)).result = .ok x) :
    ∃ h, g.finalize = .ok h ∧ x = .joint graphFirst i h := by
  cases graphFirst with
  | false =>
      obtain ⟨y, hy, h⟩ := Run.bind_result_iff.1 h
      obtain ⟨z, hz, h⟩ := Run.bind_result_iff.1 h
      obtain rfl := Run.pure_result_iff.1 hy
      obtain ⟨k, hk, rfl⟩ := Success.map_iff.1 (Run.ofFault_result_iff.1 hz)
      exact ⟨k, hk, (Run.pure_result_iff.1 h).symm⟩
  | true =>
      obtain ⟨y, hy, h⟩ := Run.bind_result_iff.1 h
      obtain ⟨z, hz, h⟩ := Run.bind_result_iff.1 h
      obtain rfl := Run.pure_result_iff.1 hz
      obtain ⟨k, hk, rfl⟩ := Success.map_iff.1 (Run.ofFault_result_iff.1 hy)
      exact ⟨k, hk, (Run.pure_result_iff.1 h).symm⟩

end Observer

/-- The conditions and the graph agree about global variables: the same are written, and the conditions know of
all that the graph says to be read. -/
structure AgreeOnGlobals (i : ReadWrite) (g : Pdg) : Prop where
  live : ∀ k, ReadWrite.Live (i.store k)
  unfinished : g.Unfinished
  writes : ∀ o d, g.Writes (.global o d) ↔ .global o d ∈ (i.store .writing).keys
  reads : ∀ o d, g.Reads (.global o d) → .global o d ∈ (i.store .reading).keys

namespace AgreeOnGlobals

variable {i j : ReadWrite} {g h k : Pdg}

theorem empty : AgreeOnGlobals .empty .empty where
  live k := by cases k <;> exact ReadWrite.live_empty
  unfinished := empty_unfinished
  writes o d := by
    simp [Writes, Says, Pdg.empty, Table.get?, ReadWrite.empty, ReadWrite.store, Table.keys, Table.empty]
  reads o d hr := by simp [Reads, Says, Pdg.empty, idOf?] at hr

/-- The graph changes without any global variable being touched. -/
theorem untouched (agree : AgreeOnGlobals i g) (hh : h.Unfinished) (touches : Touches [] [] g h) :
    AgreeOnGlobals i h where
  live := agree.live
  unfinished := hh
  writes o d := by simpa [touches.writes] using agree.writes o d
  reads o d hr := agree.reads o d ((touches.reads hr).resolve_right (by simp))

/-- Both are told of the same accesses. -/
theorem observe (agree : AgreeOnGlobals i g) {t : Transition} (ht : t.Open) (hh : h.Unfinished)
    (touches : Touches t.scratch.read t.scratch.written g h) :
    AgreeOnGlobals (Observer.observeAccesses (fun _ => true) t i) h := by
  have noted := @Simulator.observeAccesses_live (fun _ => true) t i agree.live ht ⟨none, 0, [], false, false⟩
  refine ⟨fun k => (noted k).1, hh, fun o d => ?_, fun o d hr => ?_⟩
  · rw [touches.writes, agree.writes, (noted .writing).2]
    exact or_congr_right (and_iff_left rfl).symm
  · rw [(noted .reading).2]
    exact (touches.reads hr).imp (agree.reads o d) fun read => ⟨read, rfl⟩

theorem merge (hg : AgreeOnGlobals i g) (hh : AgreeOnGlobals j h) (entered : g.entry.isSome)
    (entered' : h.entry.isSome) (composed : g.compose h = .ok k) :
    AgreeOnGlobals (i.compose j) k ∧ k.entry.isSome := by
  obtain ⟨unfinished, entry, writes, reads⟩ :=
    compose_writes hg.unfinished hh.unfinished entered entered' composed
  refine ⟨⟨fun k => ?_, unfinished, fun o d => ?_, fun o d hr => ?_⟩, entry⟩
  · rw [Simulator.store_compose]
    exact (hg.live k).merge (hh.live k)
  · rw [writes, hg.writes, hh.writes, Simulator.store_compose]
    exact ((hg.live _).mem_keys_merge (hh.live _)).symm
  · rw [Simulator.store_compose]
    refine ((hg.live _).mem_keys_merge (hh.live _)).2 ?_
    exact ((reads _).1 hr).imp (hg.reads o d) (hh.reads o d)

end AgreeOnGlobals

/-- What is known is conditions and a graph that agree; if code has started, the graph has an entry. -/
def Info.Agrees (graphFirst started : Bool) (x : Info) : Prop :=
  ∃ i g, x = .joint graphFirst i g ∧ AgreeOnGlobals i g ∧ (started = true → g.entry.isSome = true)

theorem Info.Agrees.merge {graphFirst : Bool} {x y z : Info} (hx : x.Agrees graphFirst true)
    (hy : y.Agrees graphFirst true) (composed : x.compose y = .ok z) : z.Agrees graphFirst true := by
  obtain ⟨i, g, rfl, hg, entered⟩ := hx
  obtain ⟨j, h, rfl, hh, entered'⟩ := hy
  have : ∃ k, g.compose h = .ok k ∧ z = .joint graphFirst (i.compose j) k := by
    cases graphFirst with
    | false =>
        simp only [joint, Bool.false_eq_true, if_false, compose] at composed ⊢
        obtain ⟨x, hx, rfl⟩ := Success.map_iff.1 composed
        obtain ⟨k, hk, rfl⟩ := Success.map_iff.1 hx
        exact ⟨k, hk, rfl⟩
    | true =>
        simp only [joint, if_true, compose] at composed ⊢
        split at composed
        · rename_i x hx
          obtain ⟨k, hk, rfl⟩ := Success.map_iff.1 hx
          exact ⟨k, hk, (Except.ok.inj composed).symm⟩
        · cases composed
  obtain ⟨k, hk, rfl⟩ := this
  obtain ⟨agree, entry⟩ := hg.merge hh (entered rfl) (entered' rfl) hk
  exact ⟨_, k, rfl, agree, fun _ => entry⟩

namespace Simulator

variable {s : Simulator} {triggers graphFirst : Bool} {t r u start e : Transition} {st : SmallStep}

section Announcements

variable {p : Program} {x y : Expr} {id : Nat} {sc : Scratch}

/-- A complete assignment is announced. -/
theorem announced_of_assign {ps : ProcessState} {top : Frame} (hps : t.running? = some ps) (htop : t.top? = some top)
    (complete : top.comingFrom = 1) (h : Dependence.announce p triggers t (.binary id .assign x y) = .ok sc) :
    sc.announced ≠ none := by
  unfold Dependence.announce at h
  rw [hps, htop] at h
  dsimp only at h
  split at h
  · cases h
  · rename_i i _
    have relevant : p.isRelevant top.location.routine (.binary id .assign x y) i top.comingFrom = true := by
      simp [Program.isRelevant, complete, Expr.children]
    rw [if_pos relevant] at h
    split at h
    · obtain ⟨event, -, rfl⟩ := Success.map_iff.1 h
      split <;> simp
    · obtain rfl := Except.ok.inj h
      simp

end Announcements

section Steps

variable (observed : s.setup.observer = .joint triggers graphFirst)

include observed

/-- Wakeups keep the agreement. -/
theorem heeds_agreement {started : Bool} : s.Heeds (·.Agrees graphFirst started) where
  woken known learned := by
    obtain ⟨i, g, same, agree, entered⟩ := known
    rw [observed] at learned
    obtain ⟨u, h, woken, rfl⟩ := Observer.waitedForEvents_joint same learned
    refine ⟨i, h, rfl, ?_⟩
    rcases woken with rfl | woken
    · exact ⟨agree, entered⟩
    · obtain ⟨becomes, touches⟩ := Dependence.woken_touches agree.unfinished woken
      exact ⟨agree.untouched becomes.unfinished touches, fun begun => becomes.entry ▸ entered begun⟩

/-- Whoever writes a global variable is an assignment that was announced. -/
theorem advance_reported (seated : Seated s.program.system t.frames) (writes : t.WritesLocals)
    (hst : (s.advance t).result = .ok st) (hr : r ∈ st.results) : Dependence.Reported r st.expr := by
  have locally : r.WritesLocals → Dependence.Reported r st.expr := by
    intro locals o d hw
    have outer := locals _ hw
    cases outer
  obtain ⟨ps, top, hps, htop, ⟨-, rfl⟩ | ⟨i, up, e, sc, -, he, hsc, hst⟩⟩ := advance_cases hst
  · exact locally (bodyStep_writes writes r hr)
  · have announced : Transition.WritesLocals { t with scratch := sc } := by
      unfold Transition.WritesLocals at writes ⊢
      rw [(announce_accesses _ hsc).2.1]
      exact writes
    by_cases assigns : ∃ id x y, e = .binary id .assign x y
    · obtain ⟨id, x, y, rfl⟩ := assigns
      obtain ⟨expr, locals | late⟩ := assignStep_writes announced hst hr
      · exact locally locals
      · obtain ⟨below, -, hframes⟩ := Transition.frames_of_top hps htop
        have high := ((hframes ▸ seated).first.bounds he rfl).2
        have complete : top.comingFrom = 1 := by
          simp only [Expr.children, List.length_cons, List.length_nil] at high
          omega
        rw [observed] at hsc
        have told := announced_of_assign hps htop complete (Observer.announce_joint hsc)
        have keeps := exprStep_keeps_quiet (fun _ _ _ h => by cases h) hst hr
        intro o d _
        exact ⟨keeps.announced ▸ told, id, x, y, expr⟩
    · simp only [not_exists] at assigns
      exact locally (exprStep_writes announced assigns hst r hr)

/-- A small step keeps the agreement. -/
theorem smallStep_agrees (known : t.info.Agrees graphFirst true) (isOpen : t.Open)
    (seated : Seated s.program.system t.frames) (hst : (s.smallStep t).result = .ok st) (hr : r ∈ st.results) :
    r.info.Agrees graphFirst true ∧ r.Open := by
  obtain ⟨st₀, rs, u, hadv, hu, learned, same, rfl⟩ := smallStep_mem hst hr
  have opened : u.Open := advance_open (t := t.resetAccesses) isOpen hadv u hu
  have reported := advance_reported (t := t.resetAccesses) observed seated 
    (fun _ hv => absurd hv List.not_mem_nil) hadv hu
  obtain ⟨i, g, info, agree, entered⟩ := (heeds_agreement observed).advance (t := t.resetAccesses) known hadv hu
  rw [observed] at learned
  obtain ⟨h, heval, hx⟩ := Observer.evaluated_joint info learned
  obtain ⟨becomes, touches⟩ :=
    Dependence.evaluated_touches (t := { u with info := .pdg g }) agree.unfinished reported heval
  refine ⟨⟨_, h, hx, ?_, fun begun => becomes.entry ▸ entered begun⟩, ?_⟩
  · exact agree.observe (t := { u with info := .readWrite i }) opened becomes.unfinished touches
  · rw [same]
    exact opened

theorem Occurs.agrees (known : start.info.Agrees graphFirst true) (isOpen : start.Open)
    (seated : Seated s.program.system start.frames) {b : Bool} (h : s.Occurs start b t) :
    t.info.Agrees graphFirst true ∧ t.Open := by
  induction h with
  | start => exact ⟨known, isOpen⟩
  | step ht hst hr ih => exact smallStep_agrees observed ih.1 ih.2 (ht.seated seated) hst hr
  | merge _ _ _ composed same iht ihu =>
      refine ⟨iht.1.merge ihu.1 composed, ?_⟩
      rcases same with rfl | rfl
      · exact iht.2
      · exact ihu.2

theorem RunsTo.agrees (known : start.info.Agrees graphFirst true) (isOpen : start.Open)
    (seated : Seated s.program.system start.frames) (h : s.RunsTo start e) :
    e.info.Agrees graphFirst true ∧ e.Open := h.occurs.agrees observed known isOpen seated

/-- Code starts with an agreement. -/
theorem start_agrees {started : Bool} {x : Info} (known : t.info.Agrees graphFirst started)
    (h : (s.setup.observer.start s.program t).result = .ok x) : x.Agrees graphFirst true := by
  obtain ⟨i, g, same, agree, -⟩ := known
  rw [observed] at h
  obtain ⟨u, k, starts, rfl⟩ := Observer.start_joint same h
  obtain ⟨unfinished, entry, touches⟩ := Dependence.start_touches agree.unfinished starts
  exact ⟨i, k, rfl, agree.untouched unfinished touches, fun _ => entry⟩

theorem neutral_agrees : s.setup.observer.neutral.Agrees graphFirst false := by
  rw [observed, Observer.neutral_joint]
  exact ⟨_, _, rfl, .empty, by simp⟩

theorem Updates.agrees {is : List Instance} {runs : List (Transition × Transition)}
    (h : s.Updates is t runs u) {started : Bool} (known : t.info.Agrees graphFirst started) (isOpen : t.Open)
    (scheduler : t.proc = none) : ∃ started, u.info.Agrees graphFirst started := by
  induction h generalizing started with
  | nil => exact ⟨started, known⟩
  | @cons i is c f t start e u runs _ _ begins runsTo _ ih =>
      have seated := s.seated_invariant.beginUpdate? scheduler begins
      have proc : e.proc = none := by
        obtain ⟨info, -, rfl⟩ := Success.map_iff.1 begins
        exact (runsTo.frames (i := 0) (by simp [Transition.beforeUpdate, scheduler])).2.trans scheduler
      obtain ⟨info, learned, rfl⟩ := Success.map_iff.1 begins
      have begun := start_agrees observed (t := t.beforeUpdate i f) known learned
      have starts : Transition.Open { t.beforeUpdate i f with info } := isOpen
      obtain ⟨ended, opened⟩ := runsTo.agrees observed begun starts seated
      exact ih ended opened proc

/-- Completing a transition shows the agreement. -/
theorem finalizes_agrees {started : Bool} (known : e.info.Agrees graphFirst started) (h : s.Finalizes e r) :
    ∃ i g, r.info.readWrite? = some i ∧ r.info.pdg? = some g ∧ ∀ o d,
      (g.has (.output (.global o d)) = true ↔ (i.writtenOf (.global o d)).possibly = true) ∧
        ∀ key, g.edge? .data (.input (.global o d)) (.statement key) = .ok true →
          (i.readOf (.global o d)).possibly = true := by
  obtain ⟨i, g, same, agree, -⟩ := known
  obtain ⟨-, finalized⟩ := h
  rw [observed, same] at finalized
  obtain ⟨k, closes, info⟩ := Observer.finalize_joint finalized
  refine ⟨i, k, ?_, ?_, fun o d => ?_⟩
  · rw [info]
    cases graphFirst <;> rfl
  · rw [info]
    cases graphFirst <;> rfl
  · obtain ⟨output, reads⟩ := finalize_touches (v := .global o d) agree.unfinished closes
    refine ⟨?_, fun key read => ?_⟩
    · exact output.trans ((agree.writes o d).trans (agree.live .writing).possibly_iff.symm)
    · exact (agree.live .reading).possibly_iff.2 (agree.reads o d (reads read))

theorem makeStep_agrees {p : Process} {st : State} {ts : List Transition}
    (seated : st.AllFrames (Seated s.program.system)) (hstep : (s.makeStep p st).result = .ok ts) (hr : r ∈ ts) :
    ∃ e, e.info.Agrees graphFirst true ∧ s.Finalizes e r := by
  obtain ⟨start, ended, begins, hrun, hfin⟩ := makeStep_cases hstep
  obtain ⟨e, he, finalizes⟩ := finalize_mem hfin hr
  have placed := s.seated_invariant.begin? seated begins
  obtain ⟨info, learned, rfl⟩ := Success.map_iff.1 begins
  have begun := start_agrees (t := .start st s.setup.observer.neutral (some p) (some p.inst)) observed
    (neutral_agrees observed) learned
  have runs : s.RunsTo { Transition.start st s.setup.observer.neutral (some p) (some p.inst) with info } e :=
    ⟨ended, hrun, he⟩
  have opened : Transition.Open
      { Transition.start st s.setup.observer.neutral (some p) (some p.inst) with info } := Conditions.Open.start
  exact ⟨e, (runs.agrees observed begun opened placed).1, finalizes⟩

theorem endEvaluation_agrees {st : State} {ts : List Transition} (hstep : (s.endEvaluation st).result = .ok ts)
    (hr : r ∈ ts) : ∃ e started, e.info.Agrees graphFirst started ∧ s.Finalizes e r := by
  obtain ⟨runs, u, v, updates, advances, finalizes⟩ := endEvaluation_cases hstep hr
  obtain ⟨started, known⟩ := updates.agrees observed (neutral_agrees observed) Conditions.Open.start rfl
  exact ⟨v, started, (heeds_agreement observed).advanceTime known advances, finalizes⟩

end Steps

/-- Conditions and graphs agree about the global variables that a transition reads and writes: whatever step of a
process or end of an evaluation phase is explored, its graph has an output node for a global variable exactly if
the variable is possibly written, and a statement depends on the input of one only if it is possibly read. -/
theorem globals_agree (observed : s.setup.observer = .pair (.readWrite fun _ => true) (.pdg triggers) ∨
      s.setup.observer = .pair (.pdg triggers) (.readWrite fun _ => true))
    {first st : State} (start : s.initial = .ok first) (reached : s.Reachable first st) {ts : List Transition}
    (hstep : (∃ p, (s.makeStep p st).result = .ok ts) ∨ (s.endEvaluation st).result = .ok ts) (hr : r ∈ ts) :
    ∃ i g, r.info.readWrite? = some i ∧ r.info.pdg? = some g ∧ ∀ o d,
      (g.has (.output (.global o d)) = true ↔ (i.writtenOf (.global o d)).possibly = true) ∧
        ∀ key, g.edge? .data (.input (.global o d)) (.statement key) = .ok true →
          (i.readOf (.global o d)).possibly = true := by
  obtain ⟨graphFirst, observed⟩ : ∃ graphFirst, s.setup.observer = .joint triggers graphFirst :=
    observed.elim (fun h => ⟨false, h⟩) fun h => ⟨true, h⟩
  have seated := s.seated_invariant.reachable start reached
  rcases hstep with ⟨p, hstep⟩ | hstep
  · obtain ⟨e, known, finalizes⟩ := makeStep_agrees observed seated hstep hr
    exact finalizes_agrees observed known finalizes
  · obtain ⟨e, started, known, finalizes⟩ := endEvaluation_agrees observed hstep hr
    exact finalizes_agrees observed known finalizes

end Simulator

namespace Examples

/-- One thread, with the body `if (c) { x = y; }`. -/
def copying : System :=
  single [field 0 "c", field 1 "x", field 2 "y"] []
    [⟨"run", [.branch 0 (ref (field 0 "c")) [assign (field 1 "x") (ref (field 2 "y"))] []], [], false⟩]

/-- A field of `top`. -/
def topField (index : Nat) (name : String) : Variable := .global (.inst top) (field index name)

end Examples

open Examples Simulator in
theorem globals_agree_copying : ∃ s first ts r i g,
    make copying ⟨.pair (.readWrite fun _ => true) (.pdg true), .immediate, fun _ => true, fun _ => false⟩ =
      .ok s ∧
    s.initial = .ok first ∧ (s.makeStep runner first).result = .ok ts ∧ r ∈ ts ∧
    r.info.readWrite? = some i ∧ r.info.pdg? = some g ∧
    g.has (.output (topField 1 "x")) = true ∧ (i.writtenOf (topField 1 "x")).possibly = true ∧
    g.has (.output (topField 2 "y")) = false ∧ (i.writtenOf (topField 2 "y")).possibly = false ∧
    g.edge? .data (.input (topField 2 "y")) (.statement body) = .ok true ∧
    (i.readOf (topField 2 "y")).possibly = true := by
  obtain ⟨s, made, h⟩ := Success.exists_of_yields
    (x := make copying ⟨.pair (.readWrite fun _ => true) (.pdg true), .immediate, fun _ => true, fun _ => false⟩)
    (c := fun s => Success.yields s.initial fun first => Success.yields (s.makeStep runner first).result fun ts =>
      ts.any fun r => r.info.pdg?.any fun g => g.has (.output (topField 1 "x")) &&
        !g.has (.output (topField 2 "y")) &&
        Success.yields (g.edge? .data (.input (topField 2 "y")) (.statement body)) id) (by decide +kernel)
  have observed : s.setup.observer = .pair (.readWrite fun _ => true) (.pdg true) := by
    obtain ⟨-, rfl⟩ := make_cases made
    rfl
  obtain ⟨first, start, h⟩ := Success.exists_of_yields h
  obtain ⟨ts, hstep, h⟩ := Success.exists_of_yields h
  obtain ⟨r, hr, h⟩ := List.any_eq_true.1 h
  obtain ⟨i, g, hi, hg, agree⟩ := globals_agree (.inl observed) start .start (.inl ⟨runner, hstep⟩) hr
  rw [hg] at h
  simp only [Option.any_some, Bool.and_eq_true, Bool.not_eq_true'] at h
  obtain ⟨⟨output, none⟩, reads⟩ := h
  obtain ⟨b, edge, rfl⟩ := Success.exists_of_yields reads
  refine ⟨s, first, ts, r, i, g, made, start, hstep, hr, hi, hg, output, (agree _ _).1.1 output, none, ?_, edge,
    (agree _ _).2 _ edge⟩
  refine Bool.eq_false_iff.2 fun written => Bool.eq_false_iff.1 none ?_
  exact (agree _ _).1.2 written

end DeltaSlice

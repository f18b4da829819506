import DeltaSlice.Proofs.Dependence.Transitions
import DeltaSlice.Proofs.Exploration.Schedules
import DeltaSlice.Proofs.Safety.Cycles
import DeltaSlice.Proofs.Safety.Runs

/-!
Exploring a well-formed system does not break. From a sound state in which every process has a frame to go on
with, all steps lead to such states or fail for a reason, and the exploration starts in one.
-/

namespace DeltaSlice

open Transition

/-- The simulation can go on from the state. -/
structure State.Safe (s : Simulator) (st : State) : Prop where
  sound : st.Sound s
  framed : st.Framed

namespace Simulator

variable {s : Simulator} {st : State} {t : Transition} {ts : List Transition} {p : Process} {i : Instance}

theorem frame_of_ready {ps : ProcessState} (framed : ps.Framed) (ready : s.isReady ps = true) : ps.stack ≠ [] := by
  refine framed.resolve_left fun ended => ?_
  unfold isReady at ready
  rw [ended] at ready
  cases ready

/-- Completing transitions keeps their states. -/
theorem finalize_safe {entry : Option NodeId} (h : ∀ t ∈ ts, s.setup.observer.Fits entry t.info)
    (safe : ∀ t ∈ ts, t.state.Safe s) : Unbroken (fun rs => ∀ r ∈ rs, r.state.Safe s) (s.finalize ts).result := by
  refine (finalize_unbroken h).mono fun rs hrs _ r hr => ?_
  obtain ⟨t, ht, same, -⟩ := finalize_mem hrs hr
  exact same ▸ safe t ht

/-- A step of a process that is ready. -/
theorem makeStep_safe (proper : s.Proper) (safe : st.Safe s) (hp : p ∈ s.procs) {ps : ProcessState}
    (found : st.procs[p.index]? = some ps) (ready : s.isReady ps = true) :
    Unbroken (fun ts => ∀ r ∈ ts, r.state.Safe s) (s.makeStep p st).result := by
  have runs : (Transition.start st s.setup.observer.neutral (some p) (some p.inst)).Runs s none := by
    refine ⟨⟨safe.sound, fun q hq => Option.some.inj hq ▸ hp, fun j q _ hq => ?_, fun _ h => (nomatch h),
      Observer.fits_neutral _, rfl⟩, rfl⟩
    exact safe.framed q (List.mem_of_getElem? hq)
  have running : (Transition.start st s.setup.observer.neutral (some p) (some p.inst)).running? = some ps := found
  obtain ⟨top, below, hstack⟩ := List.exists_cons_of_ne_nil
    (frame_of_ready (safe.framed ps (List.mem_of_getElem? found)) ready)
  have awake := awake_of_frames runs.toHeld (frames_eq_cons.2 ⟨ps, running, hstack⟩)
  unfold makeStep
  split
  · exact .failed
  · refine (started_unbroken runs awake).run_bind fun info ⟨a, begun⟩ => ?_
    refine (run_unbroken proper begun awake).run_bind fun ended hended => ?_
    exact finalize_safe (fun t ht => (hended t ht).1.info) fun t ht => ⟨(hended t ht).1.state, (hended t ht).2.1⟩

/-- Between update routines no code runs. -/
def Pauses (s : Simulator) (t : Transition) : Prop := t.Held s none ∧ t.proc = none

theorem updateBranches_unbroken (proper : s.Proper) (hi : (s.program.system.classOf? i).isSome = true) (r : Routine)
    (h : ∀ t ∈ ts, s.Pauses t) : Unbroken (fun us => ∀ u ∈ us, s.Pauses u) (s.updateBranches i r ts).result := by
  induction ts with
  | nil => exact .ok fun u hu => nomatch hu
  | cons t ts ih =>
      obtain ⟨⟨held, unowned⟩, rest⟩ := List.forall_mem_cons.1 h
      have frame : (Frame.start r (.lit (.inst i))).Sound s.program.system := .start r (Value.classed_lit hi)
      have own : ∀ ps, (t.beforeUpdate i r).state.update = some ps → ps.Sound s.program.system := fun ps hps =>
        Option.some.inj hps ▸ .start none frame
      have runs : (t.beforeUpdate i r).Runs s none :=
        ⟨⟨held.state.setUpdate own, held.proc, held.others, held.announced, held.info, held.unfrozen⟩, rfl⟩
      have frames : (t.beforeUpdate i r).frames = [Frame.start r (.lit (.inst i))] :=
        frames_eq_cons.2 ⟨_, by unfold running? beforeUpdate; rw [unowned], rfl⟩
      have awake := awake_of_frames runs.toHeld frames
      refine (started_unbroken runs awake).run_bind fun info ⟨a, begun⟩ => ?_
      refine (run_unbroken proper begun awake).run_bind fun ended hended => ?_
      refine (ih rest).run_bind fun us hus => .ok fun u hu => ?_
      rcases List.mem_append.1 hu with hu | hu
      · obtain ⟨e, he, rfl⟩ := List.mem_map.1 hu
        obtain ⟨eruns, -, same⟩ := hended e he
        exact ⟨⟨eruns.state.setUpdate fun _ h => (nomatch h), eruns.proc, eruns.others, eruns.announced,
          eruns.info.anywhere, eruns.unfrozen⟩, same.trans unowned⟩
      · exact hus u hu

theorem updateAll_unbroken (proper : s.Proper) {is : List Instance}
    (classed : ∀ i ∈ is, (s.program.system.classOf? i).isSome = true) (h : ∀ t ∈ ts, s.Pauses t) :
    Unbroken (fun us => ∀ u ∈ us, s.Pauses u) (s.updateAll is ts).result := by
  induction is generalizing ts with
  | nil => exact .ok h
  | cons i is ih =>
      obtain ⟨hi, rest⟩ := List.forall_mem_cons.1 classed
      obtain ⟨c, hc⟩ := Option.isSome_iff_exists.1 hi
      unfold updateAll
      simp only [hc]
      split
      · exact .failed
      · exact (updateBranches_unbroken proper hi _ h).run_bind fun us hus => ih rest hus

theorem advanceAll_unbroken (placed : s.Placed) (h : ∀ t ∈ ts, s.Pauses t) :
    Unbroken (fun us => ∀ u ∈ us, s.Pauses u) (s.advanceAll ts).result := by
  induction ts with
  | nil => exact .ok fun u hu => nomatch hu
  | cons t ts ih =>
      obtain ⟨⟨held, unowned⟩, rest⟩ := List.forall_mem_cons.1 h
      unfold advanceAll
      rw [if_neg (Bool.eq_false_iff.1 held.unfrozen)]
      refine (advanceTime_unbroken held unowned placed).run_bind fun u hu => ?_
      exact (ih rest).run_bind fun us hus => .ok (List.forall_mem_cons.2 ⟨hu, hus⟩)

/-- The end of an evaluation phase. -/
theorem endEvaluation_safe (proper : s.Proper) (safe : st.Safe s) :
    Unbroken (fun ts => ∀ r ∈ ts, r.state.Safe s) (s.endEvaluation st).result := by
  have begun : s.Pauses (s.beginEnd st) := by
    refine ⟨⟨safe.sound.setGlobal rfl (fun i hi => (nomatch hi)) safe.sound.single, fun p hp => (nomatch hp),
      fun j q _ hq => safe.framed q (List.mem_of_getElem? hq), fun _ h => (nomatch h),
      Observer.fits_neutral _, rfl⟩, rfl⟩
  unfold endEvaluation
  split
  · exact .failed
  · refine (updateAll_unbroken proper safe.sound.updates (List.forall_mem_singleton.2 begun)).run_bind
      fun us hus => ?_
    refine (advanceAll_unbroken proper.placed hus).run_bind fun vs hvs => ?_
    exact finalize_safe (fun t ht => (hvs t ht).1.info) fun t ht =>
      ⟨(hvs t ht).1.state, (hvs t ht).1.framed fun p ps hp => by simp [(hvs t ht).2] at hp⟩

/-- A step adds what it leads to. -/
theorem collect_safe {found : Successors} (before : ∀ t ∈ found.transitions, t.state.Safe s) (activity : String)
    {step : Step (List Transition)} (h : Unbroken (fun ts => ∀ r ∈ ts, r.state.Safe s) step.result) :
    Unbroken (fun next : Successors => ∀ t ∈ next.transitions, t.state.Safe s)
      (collect found activity step).result := by
  unfold collect
  split
  · rename_i ts hts
    exact .ok (List.forall_mem_append.2 ⟨before, h.result hts⟩)
  · exact .ok before
  · rename_i halt _ hhalt
    rw [hhalt] at h
    cases halt with
    | broken f => exact h
    | failed f | exhausted => trivial

theorem collectSteps_safe (proper : s.Proper) (safe : st.Safe s) {found : Successors} {ps : List Process}
    (before : ∀ t ∈ found.transitions, t.state.Safe s)
    (hps : ∀ p ∈ ps, p ∈ s.procs ∧ ∃ q, st.procs[p.index]? = some q ∧ s.isReady q = true) :
    Unbroken (fun next : Successors => ∀ t ∈ next.transitions, t.state.Safe s) (s.collectSteps st found ps).result := by
  induction ps generalizing found with
  | nil => exact .ok before
  | cons p ps ih =>
      obtain ⟨⟨known, q, hq, ready⟩, rest⟩ := List.forall_mem_cons.1 hps
      exact (collect_safe before _ (makeStep_safe proper safe known hq ready)).run_bind fun next hnext => ih hnext rest

/-- Every process has its state, so it can be asked whether it is ready. -/
theorem ready_succeeds (placed : s.Placed) (sound : st.Sound s) : Succeeds (fun _ => True) (s.ready st) := by
  unfold ready
  split
  · exact .ok trivial
  · refine Succeeds.filterMapM fun p hp => ?_
    obtain ⟨ps, hps⟩ := sound.getElem?_isSome placed hp
    rw [hps]
    exact .ok trivial

/-- All that leaves a safe state leads to safe ones. -/
theorem successors_safe (proper : s.Proper) (safe : st.Safe s) :
    Unbroken (fun found => ∀ t ∈ found.transitions, t.state.Safe s) (s.successors st).result := by
  have steps : ∀ found : Successors, (∀ t ∈ found.transitions, t.state.Safe s) →
      Unbroken (fun found => ∀ t ∈ found.transitions, t.state.Safe s)
        ((Run.ofFault (s.ready st) : Step _) >>= fun ps => s.collectSteps st found ps).result := fun found before =>
    (((ready_succeeds proper.placed safe.sound).mono fun ps hps _ p hp => ready_mem hps hp).unbroken).run_bind
      fun ps hps => collectSteps_safe proper safe before hps
  unfold successors
  split
  · exact (collect_safe (List.forall_mem_nil _) _ (endEvaluation_safe proper safe)).run_bind steps
  · exact steps ⟨[], []⟩ (List.forall_mem_nil _)

section Beginnings

/-- What the simulator knows before any process ran. -/
structure Fresh (sys : System) (g : GlobalState) : Prop where
  classed : ∀ v x, g.values.get? v = some x → x.Classed sys
  keyed : ∀ e ∈ g.values.entries, e.2.hasKey = true
  updates : g.updates = []
  pending : g.pending = .empty

variable {g : GlobalState}

theorem fresh_initGlobals {owner : Owner} {ds : List Global} (h : Fresh s.program.system g)
    (written : ∀ d ∈ ds, d.init.all (fun l => l.hasText && l.isClassed s.program.system) = true) :
    Fresh s.program.system (s.initGlobals g owner ds) := by
  unfold initGlobals
  induction ds generalizing g with
  | nil => exact h
  | cons d ds ih =>
      obtain ⟨hd, rest⟩ := List.forall_mem_cons.1 written
      refine ih ?_ rest
      change Fresh s.program.system (s.initGlobal g owner d)
      unfold initGlobal
      split
      · exact h
      · rename_i l hinit
        obtain ⟨text, classed⟩ : l.hasText = true ∧ l.isClassed s.program.system = true := by
          simpa [hinit] using hd
        dsimp only
        split
        · refine ⟨fun w y hy => ?_, fun e he => ?_, h.updates, h.pending⟩
          · have hy : (g.values.insert (Variable.ofOwner owner d.decl) (.lit l)).get? w = some y := hy
            rw [Table.get?_insert] at hy
            split at hy
            · exact Option.some.inj hy ▸ Value.classed_lit classed
            · exact h.classed w y hy
          · rcases Table.mem_insert he with rfl | he
            · exact text
            · exact h.keyed e he
        · exact h

theorem fresh_initInstances {ds : List InstanceDef} (proper : s.program.system.isProper = true)
    (classed : ∀ d ∈ ds, (s.program.system.classOf? d.inst).isSome = true) (h : Fresh s.program.system g) :
    Succeeds (Fresh s.program.system) (s.initInstances g ds) := by
  induction ds generalizing g with
  | nil => exact .ok h
  | cons d ds ih =>
      obtain ⟨hd, rest⟩ := List.forall_mem_cons.1 classed
      obtain ⟨c, hc⟩ := Option.isSome_iff_exists.1 hd
      unfold initInstances
      rw [hc]
      refine ih rest (fresh_initGlobals h fun f hf => System.written_of_proper proper ?_)
      exact List.mem_append_right _ (List.mem_flatMap.2 ⟨c, System.mem_classes_of_classOf? hc, hf⟩)

/-- The exploration starts in a safe state. -/
theorem initial_safe (proper : s.Proper) : Succeeds (State.Safe s) s.initial := by
  have begun : Fresh s.program.system (s.initGlobals .start .system s.program.system.globals) :=
    fresh_initGlobals ⟨fun _ _ h => (nomatch h), fun _ h => (nomatch h), rfl, rfl⟩ fun d hd =>
      System.written_of_proper proper.system (List.mem_append_left _ hd)
  unfold initial
  refine (fresh_initInstances proper.system (fun d hd => System.classed_of_proper proper.system
    (List.mem_append_left _ (List.mem_map_of_mem hd))) begun).bind fun g fresh => ?_
  rw [if_pos (List.all_eq_true.2 fresh.keyed)]
  have started : ∀ p ∈ s.procs, (initProcess p).Sound s.program.system ∧ (initProcess p).Framed := fun p hp =>
    ⟨.start _ (.start p.routine (Value.classed_lit (proper.instances p hp))), .inr (List.cons_ne_nil _ _)⟩
  refine .ok ⟨⟨List.length_map _, List.forall_mem_map.2 fun p hp => (started p hp).1, fun _ h => (nomatch h),
    fresh.classed, fun i hi => ?_, ?_⟩, List.forall_mem_map.2 fun p hp => (started p hp).2⟩
  · rw [fresh.updates] at hi
    cases hi
  · rw [GlobalState.Single, fresh.pending]
    exact List.nodup_nil

end Beginnings

/-- The processes of a proper system belong to instances with a class. -/
theorem proper_of_make {sys : System} {setup : Setup} (made : make sys setup = .ok s)
    (proper : sys.isProper = true) (distinct : sys.Distinct) (fit : sys.casesFit = true) : s.Proper := by
  have placed := placed_of_make made
  obtain ⟨-, rfl⟩ := make_cases made
  refine ⟨proper, ⟨⟨rfl, distinct⟩, fit⟩, placed, fun p hp =>
    System.classed_of_proper proper (List.mem_append_right _ ?_)⟩
  obtain ⟨⟨d, i⟩, hd, checked⟩ := List.mem_filterMap.1 hp
  refine List.mem_filterMap.2 ⟨d, (List.mem_zipIdx hd).2.2 ▸ List.getElem_mem _, ?_⟩
  unfold ProcessDef.check? at checked
  split at checked
  · rename_i j r hinst hroutine
    obtain rfl := Option.some.inj checked
    exact hinst
  · cases checked

theorem reachable_safe (proper : s.Proper) {first : State} (safe : first.Safe s) (h : s.Reachable first st) :
    st.Safe s := by
  induction h with
  | start => exact safe
  | step _ hfound ht ih => exact (successors_safe proper ih).result hfound _ ht

/-- The failures of steps are collected; none of them ends the collection. -/
theorem collect_unfailed {found : Successors} {activity : String} {step : Step (List Transition)} {f : Failure} :
    (collect found activity step).result ≠ .error (.failed f) := by
  unfold collect
  split
  · exact fun h => nomatch h
  · exact fun h => nomatch h
  · rename_i other _
    exact fun h => other f (Except.error.inj h)

theorem collectSteps_unfailed {found : Successors} {ps : List Process} {f : Failure} :
    (s.collectSteps st found ps).result ≠ .error (.failed f) := by
  induction ps generalizing found with
  | nil => exact fun h => nomatch h
  | cons p ps ih =>
      unfold collectSteps
      rw [Run.result_bind]
      cases h : (collect found ("step of " ++ p.text) (s.makeStep p st)).result with
      | ok next => exact ih
      | error e => exact fun same => collect_unfailed (h.trans same)

theorem successors_unfailed {f : Failure} : (s.successors st).result ≠ .error (.failed f) := by
  have steps : ∀ found : Successors,
      ((Run.ofFault (s.ready st) : Step _) >>= fun ps => s.collectSteps st found ps).result ≠ .error (.failed f) := by
    intro found
    rw [Run.result_bind]
    unfold Run.ofFault
    cases s.ready st with
    | ok ps => exact collectSteps_unfailed
    | error e => exact fun h => nomatch h
  unfold successors
  split
  · rw [Run.result_bind]
    cases h : (collect ⟨[], []⟩ "end of evaluation" (s.endEvaluation st)).result with
    | ok found => exact steps found
    | error e => exact fun same => collect_unfailed (h.trans same)
  · exact steps ⟨[], []⟩

end Simulator

/-- `x = t;` where the constant `t` is a time unit with a code before those of the units. -/
def Examples.untimely : System :=
  let x := field 0 "x"
  single [x] [] [⟨"run", [assign x (const (.unit ⟨-1⟩))], [], false⟩]

/-- Whether a computation broke. -/
def Examples.isBroken {α : Type} : Except Halt α → Bool
  | .error (.broken _) => true
  | _ => false

end DeltaSlice

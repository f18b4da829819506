import DeltaSlice.Proofs.Step.Locals
import DeltaSlice.Proofs.Termination.Confinement

/-!
The states of one run of code, from a state that can be reached. The frames of running code, the waits of all
processes, notifications and requests are made from what is there when the code begins. So there are only finitely
many states, up to the numbers of event lists, and the code has finitely many positions in them. Every small step goes
ahead to a later position, but for those whose results may be reached again.
-/

namespace DeltaSlice

/-- A table without values is empty. -/
theorem Table.eq_empty {κ α : Type} [DecidableEq κ] {t : Table κ α} (h : ∀ k, t.get? k = none) : t = .empty := by
  obtain ⟨entries⟩ := t
  cases entries with
  | nil => rfl
  | cons e es => exact absurd List.mem_cons_self (Table.get?_eq_none.1 (h e.1))

namespace ProcessState

/-- The process without the numbers of event lists. -/
def unnumbered (ps : ProcessState) : ProcessState := { ps with stack := ps.stack.map Frame.unnumbered }

theorem key_unnumbered (ps : ProcessState) : ps.unnumbered.key = ps.key := by
  unfold key unnumbered
  simp only [← List.map_reverse, List.map_map, Function.comp_def, Frame.key_unnumbered]

end ProcessState

namespace State

/-- The state without the numbers of event lists. -/
def unnumbered (st : State) : State :=
  { st with
    procs := st.procs.map ProcessState.unnumbered
    update := st.update.map ProcessState.unnumbered
    nextList := 0 }

theorem procKeys_unnumbered (i : Nat) (l : List ProcessState) :
    procKeys i (l.map ProcessState.unnumbered) = procKeys i l := by
  induction l generalizing i with
  | nil => rfl
  | cons ps l ih => rw [List.map_cons, procKeys, procKeys, ih, ProcessState.key_unnumbered]

theorem key_unnumbered (st : State) : st.unnumbered.key = st.key := by
  unfold key unnumbered
  dsimp only
  rw [procKeys_unnumbered]
  cases st.update with
  | none => rfl
  | some ps => rw [Option.map_some]; dsimp only; rw [ProcessState.key_unnumbered]

end State

namespace Transition

/-- The frames without the numbers of event lists, as the state has them. -/
def framesIn (proc : Option Process) (st : State) : List Frame :=
  match proc with
  | some p => ((st.procs[p.index]?).map (·.stack)).getD []
  | none => (st.update.map (·.stack)).getD []

theorem framesIn_unnumbered (t : Transition) :
    framesIn t.proc t.state.unnumbered = t.frames.map Frame.unnumbered := by
  unfold framesIn frames running? State.unnumbered
  cases t.proc with
  | none => cases t.state.update <;> rfl
  | some p =>
      simp only [List.getElem?_map]
      cases t.state.procs[p.index]? <;> rfl

end Transition

/-- A call stack is no longer than routines can call each other, and has only called ones in it. -/
theorem Structured.Called.bounded {sys : System} (acyclic : sys.Acyclic) {main : Routine} {c : List Routine}
    (h : Called sys main c) : ∃ r rest, c = r :: rest ∧ c.length + sys.depth r ≤ sys.depth main + 1 ∧
      ∀ q ∈ c, q = main ∨ q ∈ sys.called := by
  induction h with
  | start => exact ⟨main, [], rfl, by simp; omega, by simp⟩
  | @call r rest path id q args _ site ih =>
      obtain ⟨_, _, same, short, known⟩ := ih
      obtain ⟨rfl, rfl⟩ := List.cons.inj same
      have calls : sys.Calls r q := ⟨path, id, args, site⟩
      have lower := System.depth_lt acyclic calls
      refine ⟨q, _, rfl, ?_, List.forall_mem_cons.2 ⟨.inr calls.mem, known⟩⟩
      rw [List.length_cons]
      omega

namespace Simulator

variable {s : Simulator}

theorem starts_finite (s : Simulator) : {r | s.Starts r}.Finite := by
  have processes := s.procs.finite_toSet.image Process.routine
  have updates := (s.program.system.classes.finite_toSet.image (·.routine? "update")).preimage
    (Option.some_injective Routine).injOn
  refine (processes.union updates).subset fun r hr => ?_
  cases hr with
  | process hp => exact .inl ⟨_, hp, rfl⟩
  | update hc hf => exact .inr ⟨_, System.mem_classes_of_classOf? hc, hf⟩

/-- Only so many call stacks may come up. -/
theorem arises_finite (acyclic : s.program.system.Acyclic) : {c | s.Arises c}.Finite := by
  refine (finite_lists (s.starts_finite.union s.program.system.called_finite)
    (s.program.system.called.ncard + 1)).subset ?_
  rintro c ⟨main, starts, called⟩
  obtain ⟨r, rest, -, short, known⟩ := called.bounded acyclic
  have deep := s.program.system.depth_le main
  refine ⟨by omega, fun q hq => ?_⟩
  rcases known q hq with rfl | hq
  · exact .inl starts
  · exact .inr hq

end Simulator

namespace Transition

/-- The events that something waits for, or that are pending. -/
def eventsInSight (t : Transition) : List Event :=
  t.state.global.pending.keys ++ (t.state.procs ++ t.state.update.toList).flatMap fun ps =>
    match ps.blocker with
    | some (.events l) => l.events
    | _ => []

/-- The values that are there in the beginning. -/
def valuesInSight (t : Transition) : List Value :=
  (t.frames.flatMap fun f => f.receiver.unnumbered :: f.levels.flatMap fun l => l.filterMap (·.map Value.unnumbered)) ++
    t.proc.toList.map (fun p => .lit (.inst p.inst)) ++ t.eventsInSight.map (fun e => .lit (.event e)) ++
    t.state.global.updates.map (fun i => .lit (.inst i))

/-- At least the length of every list that is there in the beginning. -/
def widthInSight (t : Transition) : Nat :=
  ((t.frames.flatMap (·.levels)).map List.length).sum + t.eventsInSight.length

end Transition

/-- What is at hand for the run of code that begins with a transition. -/
def Stock.of (s : Simulator) (start : Transition) : Stock where
  values := {x | x ∈ start.valuesInSight}
  calls := {c | c = [] ∨ s.Arises c}
  width := start.widthInSight

namespace Stock

variable {s : Simulator} {start t : Transition} {K : Stock} {sys : System}

theorem of_finite (start : Transition) (acyclic : s.program.system.Acyclic) : (Stock.of s start).Finite where
  values := start.valuesInSight.finite_toSet
  calls := (Simulator.arises_finite acyclic).insert []

theorem event_of_mem {e : Event} (h : e ∈ start.eventsInSight) : e ∈ (Stock.of s start).events sys :=
  values_subset_all (List.mem_append_left _ (List.mem_append_right _ (List.mem_map_of_mem h)))

/-- The frames that are there in the beginning hold what is there in the beginning. -/
theorem of_holds {f : Frame} (h : f ∈ start.frames) : f.Holds sys (Stock.of s start) := by
  have inSight : ∀ {x}, x ∈ f.receiver.unnumbered :: f.levels.flatMap (fun l => l.filterMap (·.map Value.unnumbered)) →
      x ∈ (Stock.of s start).values := fun hx =>
    List.mem_append_left _ (List.mem_append_left _ (List.mem_append_left _ (List.mem_flatMap.2 ⟨f, h, hx⟩)))
  refine ⟨values_subset_all (inSight List.mem_cons_self), fun k c x hx => ?_, fun l hl => ?_⟩
  · refine base_subset_below (.inl (.inl (inSight (List.mem_cons_of_mem _ ?_))))
    unfold Frame.slot? at hx
    obtain ⟨l, hl, hc⟩ := Option.bind_eq_some_iff.1 (Option.join_eq_some_iff.1 hx)
    exact List.mem_flatMap.2 ⟨l, mem_of_elementAt? hl, List.mem_filterMap.2 ⟨_, mem_of_elementAt? hc, rfl⟩⟩
  · have listed : l ∈ start.frames.flatMap (·.levels) := List.mem_flatMap.2 ⟨f, h, hl⟩
    have short := List.single_le_sum (l := (start.frames.flatMap (·.levels)).map List.length) (by simp) _
      (List.mem_map_of_mem listed)
    have wide : (Stock.of s start).width = start.widthInSight := rfl
    unfold Transition.widthInSight at wide
    omega

theorem of_waits {ps : ProcessState} (h : ps ∈ start.state.procs ++ start.state.update.toList) :
    ps.blocker ∈ (Stock.of s start).waits sys := by
  intro l hl
  have listed : ∀ e ∈ l.events, e ∈ start.eventsInSight := fun e he =>
    List.mem_append_right _ (List.mem_flatMap.2 ⟨ps, h, by rw [hl]; exact he⟩)
  refine ⟨?_, fun e he => event_of_mem (listed e he)⟩
  have sub : l.events.length ≤ start.eventsInSight.length := by
    unfold Transition.eventsInSight
    obtain ⟨before, after, split⟩ := List.append_of_mem h
    rw [split]
    simp only [List.length_append, List.flatMap_append, List.flatMap_cons, hl]
    omega
  exact sub.trans (Nat.le_add_left _ _)

/-- The beginning is within what is at hand. -/
theorem of_confined : start.resetAccesses.Confined sys (Stock.of s start) start.state.global.values where
  values := rfl
  procs _ hps := of_waits (List.mem_append_left _ hps)
  update ps hps := of_waits (List.mem_append_right _ (by
    have hps : start.state.update = some ps := hps
    rw [hps]
    exact List.mem_singleton.2 rfl))
  pending e d hd := event_of_mem (List.mem_append_left _ (List.mem_map_of_mem (Table.mem_of_get? hd)))
  updates i hi := .inl (List.mem_append_right _ (List.mem_map_of_mem hi))
  read _ hv := nomatch hv
  written _ hv := nomatch hv

/-- The parts of states that processes have, without numbers. -/
def processes (K : Stock) (sys : System) (start : State) : Set ProcessState :=
  {ps | ps.blocker ∈ K.waits sys ∧ ps.locals = .empty ∧ (ps.stack ∈ K.frameStacks sys ∨
    ∃ q ∈ start.procs ++ start.update.toList, ps.stack = q.stack.map Frame.unnumbered)}

/-- The states that may come up, without numbers. -/
structure States (K : Stock) (sys : System) (start st : State) : Prop where
  values : st.global.values = start.global.values
  single : st.global.Single
  pending : ∀ w ∈ st.global.pending.entries, w.1 ∈ K.events sys
  nodup : st.global.updates.Nodup
  updates : ∀ i ∈ st.global.updates, i ∈ K.instances sys
  length : st.procs.length = start.procs.length
  procs : ∀ ps ∈ st.procs, ps ∈ K.processes sys start
  update : ∀ ps, st.update = some ps → ps ∈ K.processes sys start
  nextList : st.nextList = 0

namespace Finite

variable {st : State}

theorem processes (finite : K.Finite) : (K.processes sys st).Finite := by
  have waits : (K.waits sys).Finite := finite.waits
  have frames : (K.frameStacks sys).Finite := finite.frameStacks
  have others := (List.finite_toSet (st.procs ++ st.update.toList)).image fun q => q.stack.map Frame.unnumbered
  refine ((waits.prod (frames.union others)).image fun w => (⟨w.1, w.2, .empty⟩ : ProcessState)).subset ?_
  rintro ⟨w, fs, locals⟩ ⟨hw, rfl, hfs⟩
  refine ⟨(w, fs), ⟨hw, hfs.imp_right ?_⟩, rfl⟩
  rintro ⟨q, hq, same⟩
  exact ⟨q, hq, same.symm⟩

theorem states (finite : K.Finite) : {st' | K.States sys st st'}.Finite := by
  have events : (K.events sys).Finite := finite.events
  have instances : (K.instances sys).Finite := finite.instances
  have processes : (K.processes sys st).Finite := finite.processes
  have pending := (nodup_lists (events.prod Delay.finite)).image fun l => (⟨l⟩ : Table Event Delay)
  have updates := nodup_lists instances
  have procs := finite_lists processes st.procs.length
  have update := (processes.image some).insert none
  refine ((pending.prod (updates.prod ((Set.finite_univ (α := Bool)).prod (procs.prod update)))).image fun w =>
    (⟨⟨st.global.values, w.1, w.2.1, w.2.2.1⟩, w.2.2.2.1, w.2.2.2.2, 0⟩ : State)).subset ?_
  rintro ⟨⟨values, pending, updates, stopped⟩, procs, update, next⟩ h
  obtain ⟨rfl, single, events, nodup, known, length, inside, last, rfl⟩ := h
  refine ⟨(pending, updates, stopped, procs, update), ⟨⟨pending.entries, ⟨.of_map _ single, fun w hw =>
    ⟨events w hw, trivial⟩⟩, rfl⟩, ⟨nodup, known⟩, trivial, ⟨length.le, inside⟩, ?_⟩, rfl⟩
  cases update with
  | none => exact .inl rfl
  | some ps => exact .inr ⟨ps, last ps rfl, rfl⟩

end Finite

end Stock

namespace Simulator

variable {s : Simulator} {first : State} {start t r : Transition} {b : Bool} {st : SmallStep}

/-- Code begins in a state that can be reached, of a system in which no routine calls itself, and no variable is
tracked. -/
structure Contained (s : Simulator) (first : State) (start : Transition) : Prop where
  placed : s.Placed
  initial : s.initial = .ok first
  begins : s.Begins first start
  acyclic : s.program.system.Acyclic
  untracked : ∀ v, s.setup.tracksVariable v = false

/-- When code begins, no update is requested twice and no event has two pending notifications. -/
theorem Begins.single (placed : s.Placed) (initial : s.initial = .ok first) (h : s.Begins first start) :
    start.state.global.updates.Nodup ∧ start.state.global.Single := by
  cases h with
  | step reached _ _ hbegin =>
      obtain ⟨-, rfl⟩ := begin?_start hbegin
      have tidy := reached.tidy placed initial
      exact ⟨tidy.updates, tidy.single⟩
  | update reached _ _ before _ _ hbegin =>
      obtain ⟨info, -, rfl⟩ := Success.map_iff.1 hbegin
      have tidy := before.tidy (reached.tidy placed initial)
      exact ⟨tidy.updates, tidy.single⟩

namespace Contained

variable (h : s.Contained first start)

include h

theorem obeys (occurs : s.Occurs start b t) : t.state.Obeys s.scoping := by
  refine (s.scoping.invariant h.initial (fun v x hx => ?_) (Discipline.measures_of_all _ fun _ => trivial)
    (Discipline.passes_of_all _ fun _ => trivial)).occurs h.placed h.initial h.begins occurs
  obtain ⟨l, rfl⟩ := initial_literals h.initial hx
  intro w hw
  cases hw

theorem seated (occurs : s.Occurs start b t) : Seated s.program.system t.frames :=
  occurs.seated (s.seated_invariant.begins h.initial h.begins)

/-- Without tracked variables no local variable has a value. -/
theorem locals {ps : ProcessState} (obeys : ps.Obeys s.scoping) : ps.locals = .empty := by
  refine Table.eq_empty fun v => Option.eq_none_iff_forall_not_mem.2 fun x hx => ?_
  obtain ⟨-, tracked, -, -⟩ := (obeys.locals v x hx).2
  rw [h.untracked] at tracked
  cases tracked

end Contained

section Frames

variable {K : Stock} {ps : ProcessState} {top : Frame} {below : List Frame}

/-- Frames are where they can be, and they obey. -/
theorem smallStep_holds (hst : (s.smallStep t).result = .ok st) (hr : r ∈ st.results)
    (holds : ∀ f ∈ t.frames, f.Holds s.program.system K) (seated : Seated s.program.system t.frames)
    (obeys : t.state.Obeys s.scoping) (acyclic : s.program.system.Acyclic)
    (untracked : ∀ v, s.setup.tracksVariable v = false) (calls : ∀ c, s.Arises c → c ∈ K.calls)
    (own : ∀ p, t.proc = some p → .lit (.inst p.inst) ∈ K.values) :
    ∀ f ∈ r.frames, f.Holds s.program.system K := by
  obtain ⟨ps, top, below, o, es, hps, hframes, shifts, -, here, -⟩ := smallStep_shifts hst hr
  rw [hframes] at holds seated
  have obey : Obey s.scoping (top :: below) := Transition.top_obeys obeys hframes
  have called : ∀ f, below.head? = some f → f.CallsFor s.program.system top.location.routine := by
    cases obey with
    | cons _ _ called _ => exact called
  have arises : ps.routines ∈ K.calls := by
    obtain ⟨q, hq, stack⟩ := Transition.frames_eq_cons.1 hframes
    obtain rfl := Option.some.inj (hps.symm.trans hq)
    rw [ProcessState.routines, stack]
    exact calls _ obey.arises
  exact shifts.holds holds seated acyclic here called untracked arises own

/-- A small step stays within what is at hand, unless the code ends. -/
theorem smallStep_confined {values : Store} (hst : (s.smallStep t).result = .ok st) (hr : r ∈ st.results)
    (goes : st.ends = false) (confined : t.resetAccesses.Confined s.program.system K values)
    (holds : ∀ f ∈ t.frames, f.Holds s.program.system K) (obeys : t.state.Obeys s.scoping)
    (untracked : ∀ v, s.setup.tracksVariable v = false) (calls : ∀ c, s.Arises c → c ∈ K.calls) :
    r.Confined s.program.system K values := by
  obtain ⟨st₀, rs, u, hadv, hu, -, same, rfl⟩ := smallStep_mem hst hr
  refine Transition.Confined.congr (t := u) ?_ (by rw [same]) (by rw [same]) (by rw [same])
  obtain ⟨ps, top, hps, htop, step⟩ := advance_cases hadv
  have hps : t.running? = some ps := hps
  obtain ⟨below, stack, hframes⟩ := Transition.frames_of_top hps htop
  have routines : ps.routines = (top :: below).map (·.location.routine) := by rw [ProcessState.routines, stack]
  have arises := (Transition.top_obeys obeys hframes).arises
  have first : top.Holds s.program.system K := holds top (hframes ▸ List.mem_cons_self)
  obtain ⟨-, rfl⟩ | ⟨i, up, e, sc, -, he, announced, step⟩ := step
  · exact bodyStep_confined confined goes u hu
  · obtain ⟨read, written, -⟩ := announce_accesses _ announced
    have confined : Transition.Confined s.program.system K values { t.resetAccesses with scratch := sc } :=
      confined.congr rfl read written
    refine exprStep_confined confined untracked first (routines ▸ calls _ arises) he ?_ step goes u hu
    rintro id f args rfl
    refine calls _ ?_
    obtain ⟨main, starts, caller⟩ := arises
    have site : s.program.system.at? ⟨top.location.routine, top.location.path⟩ = some (.call id f args) := he
    rw [routines]
    exact ⟨main, starts, .call caller site⟩

/-- A small step goes ahead, if its results are not reached again and the code does not end. -/
theorem smallStep_position_lt (hst : (s.smallStep t).result = .ok st) (hr : r ∈ st.results) (goes : st.ends = false)
    (once : st.repeats = false) (seated : Seated s.program.system t.frames)
    (apart : ¬ s.program.system.RepeatsInPost) : position t.frames < position r.frames := by
  obtain ⟨ps, top, below, o, es, -, hframes, shifts, body, here, hes⟩ := smallStep_shifts hst hr
  rw [hframes] at seated ⊢
  rw [once] at shifts
  refine shifts.position_lt seated body here hes apart fun alone returns => ?_
  by_contra spent
  simp only [not_exists, not_and, not_not] at spent
  obtain ⟨st₀, rs, u, hadv, hu, -, same, rfl⟩ := smallStep_mem hst hr
  have frames : r.frames = u.frames := by
    rw [same]
    rfl
  have returns : ∀ x, s.program.system.at? top.location = some x → x.isReturn = true := by
    intro x hx
    cases o with
    | none =>
        obtain ⟨i, up, path⟩ := Frame.index_of_at? hx
        cases (body rfl).symm.trans path
    | some y => exact returns x ((here y rfl).symm.trans hx)
  have ends := ends_of_spent hadv hu (alone ▸ hframes) returns (frames ▸ spent)
  cases goes.symm.trans ends

end Frames

namespace Contained

variable (h : s.Contained first start)

include h

/-- What code that does not end holds and does stays within what was there when it began. -/
theorem stays_within (occurs : s.Occurs start b t) (goes : b = false) :
    (∀ f ∈ t.frames, f.Holds s.program.system (.of s start)) ∧
      t.resetAccesses.Confined s.program.system (.of s start) start.state.global.values := by
  induction occurs with
  | start => exact ⟨fun f hf => Stock.of_holds hf, Stock.of_confined⟩
  | @step t r st occurs hst hr ih =>
      obtain ⟨holds, confined⟩ := ih rfl
      obtain ⟨k, tells⟩ := exists_tells occurs
      have own : ∀ p, t.proc = some p → .lit (.inst p.inst) ∈ (Stock.of s start).values := by
        intro p hp
        rw [tells.proc] at hp
        refine List.mem_append_left _ (List.mem_append_left _ (List.mem_append_right _ ?_))
        rw [hp]
        exact List.mem_singleton.2 rfl
      have confined := smallStep_confined hst hr goes confined holds (h.obeys occurs) h.untracked fun _ => .inr
      exact ⟨smallStep_holds hst hr holds (h.seated occurs) (h.obeys occurs) h.acyclic h.untracked (fun _ => .inr) own,
        confined.resetAccesses⟩
  | merge _ _ _ _ same iht ihu =>
      rcases same with rfl | rfl
      · exact ⟨(iht goes).1, (iht goes).2.congr rfl rfl rfl⟩
      · exact ⟨(ihu goes).1, (ihu goes).2.congr rfl rfl rfl⟩

/-- The frames of code that does not end are among those that may come up. -/
theorem frames_mem (occurs : s.Occurs start false t) :
    t.frames.map Frame.unnumbered ∈ (Stock.of s start).frameStacks s.program.system := by
  refine frames_mem_frameStacks (h.stays_within occurs rfl).1 (h.seated occurs) ?_
  cases hframes : t.frames with
  | nil => exact .inl rfl
  | cons top below => exact .inr (Transition.top_obeys (h.obeys occurs) hframes).arises

/-- The states of code that does not end are among finitely many. -/
theorem states (occurs : s.Occurs start false t) :
    (Stock.of s start).States s.program.system start.state t.state.unnumbered := by
  obtain ⟨-, confined⟩ := h.stays_within occurs rfl
  obtain ⟨k, tells⟩ := exists_tells occurs
  obtain ⟨l, stays⟩ := tells.stays.1
  obtain ⟨nodup, single⟩ := h.begins.single h.placed h.initial
  have obeys := h.obeys occurs
  have running := h.frames_mem occurs
  refine ⟨confined.values, stays.single single, fun w hw => ?_, stays.updates ▸ nodup_requested nodup,
    confined.updates, ?_, ?_, ?_, rfl⟩
  · exact confined.pending w.1 w.2 (Table.get?_of_mem (stays.single single) hw)
  · rw [← stays.length]
    exact List.length_map _
  · refine List.forall_mem_map.2 fun ps hps => ?_
    have cleared := h.locals (obeys.procs ps hps)
    refine ⟨confined.procs ps hps, cleared, ?_⟩
    obtain ⟨i, found⟩ := List.getElem?_of_mem hps
    by_cases own : some i = t.proc.map (·.index)
    · refine .inl ?_
      obtain ⟨p, hp, rfl⟩ := Option.map_eq_some_iff.1 own.symm
      have frames : t.frames = ps.stack := by
        rw [Transition.frames, Transition.running?, hp]
        dsimp only
        rw [found]
        rfl
      rw [frames] at running
      exact running
    · refine .inr ?_
      have present : i < start.state.procs.length := stays.length ▸ (List.getElem?_eq_some_iff.1 found).1
      have before := List.getElem?_eq_getElem present
      obtain ⟨ps', found', same⟩ := stays.others i (stays.proc ▸ own) _ before
      obtain rfl := Option.some.inj (found.symm.trans found')
      exact ⟨_, List.mem_append_left _ (List.mem_of_getElem? before), congrArg _ same.stack⟩
  · intro ps hps
    obtain ⟨q, hq, rfl⟩ := Option.map_eq_some_iff.1 hps
    have cleared := h.locals (obeys.update q hq)
    refine ⟨confined.update q hq, cleared, ?_⟩
    cases hp : t.proc with
    | none =>
        refine .inl ?_
        have frames : t.frames = q.stack := by
          rw [Transition.frames, Transition.running?, hp]
          dsimp only
          rw [hq]
          rfl
        rw [frames] at running
        exact running
    | some p =>
        have busy : start.proc ≠ none := by
          rw [← tells.proc, hp]
          exact Option.some_ne_none p
        rw [stays.update busy] at hq
        exact .inr ⟨q, List.mem_append_right _ (by rw [hq]; exact List.mem_singleton.2 rfl), rfl⟩

theorem states_finite : {st | (Stock.of s start).States s.program.system start.state st}.Finite :=
  (Stock.of_finite start h.acyclic).states

/-- States come up with finitely many keys. -/
theorem keys_finite : {k | ∃ t, s.Occurs start false t ∧ t.state.key = k}.Finite := by
  refine (h.states_finite.image State.key).subset ?_
  rintro k ⟨t, occurs, rfl⟩
  exact ⟨_, h.states occurs, State.key_unnumbered _⟩

/-- The code has finitely many positions. -/
theorem positions_finite : {w | ∃ t, s.Occurs start false t ∧ position t.frames = w}.Finite := by
  refine (h.states_finite.image fun st => position (Transition.framesIn start.proc st)).subset ?_
  rintro w ⟨t, occurs, rfl⟩
  obtain ⟨k, tells⟩ := exists_tells occurs
  refine ⟨_, h.states occurs, ?_⟩
  dsimp only
  rw [← tells.proc, Transition.framesIn_unnumbered, position_unnumbered]

end Contained

end Simulator

end DeltaSlice

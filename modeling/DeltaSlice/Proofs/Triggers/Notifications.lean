import DeltaSlice.Proofs.Slices
import DeltaSlice.Proofs.Triggers.Delayed

/-!
Notifications in system graphs. A delayed notification makes its statement the only definition of the trigger
of its event, and nothing else defines this trigger. So the last delayed notification before the event fires
is in the slice of every wakeup that follows, whether or not the notification that fires is another one.
-/

namespace DeltaSlice

open Dependence Pdg

namespace Simulator

variable {s : Simulator} {t r : Transition} {g : Pdg} {e : Event}

/-- The ways through code on which `n` is the statement that made the last delayed notification of an event, if
there was one. Where branches meet, the run goes on from one that is at least as well informed as any of them. -/
inductive Ways (s : Simulator) (e : Event) (start : Transition) : Bool → Option String → Transition → Prop
  | start : Ways s e start false none start
  | notifies {n : Option String} {t r : Transition} {st : SmallStep} {ps : ProcessState} :
      Ways s e start false n t → (s.smallStep t).result = .ok st → r ∈ st.results → s.delayed? t = some e →
      t.running? = some ps → Ways s e start st.ends (some (StatementId.point t.origin ps.locations).key) r
  | passes {n : Option String} {t r : Transition} {st : SmallStep} :
      Ways s e start false n t → (s.smallStep t).result = .ok st → r ∈ st.results → s.delayed? t ≠ some e →
      Ways s e start st.ends n r
  | meets {b : Bool} {n : Option String} {t u : Transition} : Ways s e start b n t → s.Occurs start b u →
      u.state.key = t.state.key → t.info.facts ⊆ u.info.facts → Ways s e start b n u

theorem Ways.occurs {start : Transition} {b : Bool} {n : Option String} (h : s.Ways e start b n t) :
    s.Occurs start b t := by
  induction h with
  | start => exact .start
  | notifies _ hst hr _ _ ih => exact ih.step hst hr
  | passes _ hst hr _ ih => exact ih.step hst hr
  | meets _ occurs => exact occurs

section Observed

variable (observes : s.setup.observer = .pdg true)

include observes

/-- The last delayed notification on a way, or else what reached its start, reaches its end. -/
theorem Ways.reaches {start : Transition} {c : NodeId} {b : Bool} {n : Option String}
    (graph : start.info = .pdg g) (hg : g.Unfinished) (entered : g.entryId? = some c) (named : start.Nameable)
    (h : s.Ways e start b n t) {d : Option NodeId} (hd : .reaches (.event e) d ∈ g.facts) :
    .reaches (.event e) ((n.map .statement).or d) ∈ t.info.facts := by
  induction h with
  | start =>
      rw [graph]
      exact hd
  | @notifies n t r st ps before hst hr delayed running ih =>
      obtain ⟨⟨k, info, later⟩, -⟩ := before.occurs.extends observes graph hg entered
      obtain ⟨h, info', defines, -⟩ :=
        smallStep_trigger observes info later.becomes.unfinished (before.occurs.nameable named) hst hr
      obtain ⟨ps', running', hf⟩ := defines delayed
      obtain rfl := Option.some.inj (running.symm.trans running')
      rw [info']
      exact hf
  | passes before hst hr undelayed ih =>
      obtain ⟨⟨k, info, later⟩, -⟩ := before.occurs.extends observes graph hg entered
      obtain ⟨h, info', -, keeps⟩ :=
        smallStep_trigger observes info later.becomes.unfinished (before.occurs.nameable named) hst hr
      rw [info] at ih
      rw [info']
      exact keeps undelayed _ ih
  | meets _ _ _ informed ih => exact informed ih

end Observed

/-- The same for update routines that run one after the other. -/
inductive WaysOfUpdates (s : Simulator) (e : Event) : List Instance → Transition → Option String → Transition → Prop
  | nil {t : Transition} : WaysOfUpdates s e [] t none t
  | cons {i : Instance} {is : List Instance} {c : ClassDef} {f : Routine} {t start v u : Transition}
      {n n' : Option String} : s.program.system.classOf? i = some c → c.routine? "update" = some f →
      s.beginUpdate? i f t = .ok start → s.Ways e start true n v →
      WaysOfUpdates s e is v.afterUpdate n' u → WaysOfUpdates s e (i :: is) t (n'.or n) u

/-- Between small steps no notification is under way. -/
theorem Occurs.untold {start : Transition} {b : Bool} (untold : start.scratch.event = none)
    (h : s.Occurs start b t) : t.scratch.event = none := by
  induction h with
  | start => exact untold
  | step _ hst hr =>
      obtain ⟨st₀, rs, u, -, -, -, same, rfl⟩ := smallStep_mem hst hr
      rw [same]
  | merge _ _ _ _ same iht ihu =>
      rcases same with rfl | rfl
      · exact iht
      · exact ihu

/-- What stands between the runs of update routines and the advance of the simulation. -/
structure Between (t : Transition) (g : Pdg) : Prop where
  graph : t.info = .pdg g
  unfinished : g.Unfinished
  scheduler : t.proc = none
  untold : t.scratch.event = none
  named : t.Nameable

section Updates

variable (observes : s.setup.observer = .pdg true)

include observes

theorem beginEnd_between {st : State} (named : st.Nameable) : Between (s.beginEnd st) .empty where
  graph := by
    rw [beginEnd, observes]
    rfl
  unfinished := empty_unfinished
  scheduler := rfl
  untold := rfl
  named := beginEnd_nameable named

/-- The last delayed notification of update routines, or else what reached the first of them, reaches the end
of the last one. -/
theorem WaysOfUpdates.reaches {is : List Instance} {n : Option String} {u : Transition}
    (h : s.WaysOfUpdates e is t n u) (before : Between t g) {d : Option NodeId}
    (hd : .reaches (.event e) d ∈ g.facts) : ∃ k, Between u k ∧
      .reaches (.event e) ((n.map .statement).or d) ∈ k.facts := by
  induction h generalizing g d with
  | nil => exact ⟨g, before, hd⟩
  | @cons i is c f t start v u n n' _ _ begins ways _ ih =>
      have named := beginUpdate?_nameable before.named begins
      obtain ⟨info, learned, rfl⟩ := Success.map_iff.1 begins
      obtain ⟨k, rfl, hk⟩ := start_graph observes (t := t.beforeUpdate i f) before.graph learned
      obtain ⟨stack, o, -, -, unfinished, entered, facts⟩ := start_enters before.unfinished hk
      obtain ⟨⟨k', graph, later⟩, proc, -⟩ := ways.occurs.extends observes rfl unfinished entered
      have ended := ways.occurs.nameable named
      have reached := ways.reaches observes rfl unfinished entered named (d := d) (by rw [facts]; exact .inl hd)
      have untold := ways.occurs.untold (by exact before.untold)
      rw [graph] at reached
      obtain ⟨l, after, hl⟩ := ih (g := k') ⟨graph, later.becomes.unfinished, proc.trans before.scheduler, untold,
        ended.state.setUpdate (fun _ hps => nomatch hps), ended.written⟩ reached
      refine ⟨l, after, ?_⟩
      cases n' <;> exact hl

end Updates

/-- A transition from a state to `r`, on a way on which `n` is the statement that made the last delayed
notification of an event, if there was one. -/
inductive Transits (s : Simulator) (e : Event) (st : State) (n : Option String) (r : Transition) : Prop
  | step {p : Process} {start v : Transition} : s.begin? p st = .ok start → s.Ways e start true n v →
      s.Finalizes v r → Transits s e st n r
  | ending {u v : Transition} : s.WaysOfUpdates e st.global.updates (s.beginEnd st) n u →
      (s.advanceTime u).result = .ok v → s.Finalizes v r → Transits s e st n r

/-- The end of an evaluation phase at which an event fires that a process waits for. The last delayed
notification of the event by an update routine was made by `n`, if there was one. -/
structure Fires (s : Simulator) (e : Event) (p : Process) (st : State) (n : Option String) (r : Transition) :
    Prop where
  fires : ∃ u v before, s.WaysOfUpdates e st.global.updates (s.beginEnd st) n u ∧
    u.state.global.stopped = false ∧ e ∈ (s.ending u.state).due ∧
    u.state.waitOf? p.index = some (some (.events before)) ∧ e ∈ before.events ∧
    (s.advanceTime u).result = .ok v ∧ s.Finalizes v r

theorem Fires.transits {p : Process} {st : State} {n : Option String} (h : s.Fires e p st n r) :
    s.Transits e st n r := by
  obtain ⟨u, v, before, ways, -, -, -, -, advances, final⟩ := h.fires
  exact .ending ways advances final

section Graphs

variable {st : State} {n : Option String} {f : Pdg} (observes : s.setup.observer = .pdg true)
  (named : st.Nameable)

include observes

/-- What was learned of a transition is closed in the end. -/
theorem Finalizes.graph (h : s.Finalizes t r) (graph : t.info = .pdg g) :
    ∃ f, r.info = .pdg f ∧ g.finalize = .ok f := by
  have learned := h.2
  rw [observes, graph] at learned
  obtain ⟨f, hf, same⟩ := Success.map_iff.1 (Run.ofFault_result_iff.1 learned)
  exact ⟨f, same.symm, hf⟩

include named

/-- The last delayed notification on a way through a transition reaches its end, and if there was none, what
reached the transition does. -/
theorem Transits.reaches (h : s.Transits e st n r) : ∃ k f : Pdg, k.Unfinished ∧ r.info = .pdg f ∧
    k.finalize = .ok f ∧ .reaches (.event e) (n.map .statement) ∈ k.facts := by
  cases h with
  | @step p start v begins ways final =>
      obtain ⟨stack, g₀, -, -, -, graph, unfinished, entered, outer, -⟩ := begin?_enters observes begins
      obtain ⟨⟨k, hk, later⟩, -⟩ := ways.occurs.extends observes graph unfinished entered
      have reached := ways.reaches observes graph unfinished entered (begin?_nameable named begins) (outer (.event e))
      rw [hk, Option.or_none] at reached
      obtain ⟨f, learned, closes⟩ := final.graph observes hk
      exact ⟨k, f, later.becomes.unfinished, learned, closes, reached⟩
  | @ending u v ways advances final =>
      obtain ⟨k, between, reached⟩ := ways.reaches observes (beginEnd_between observes named) (d := none) (by
        rw [empty_facts]
        simp [fresh])
      rw [Option.or_none] at reached
      obtain ⟨h, hh, rouses⟩ := advanceTime_rouses observes between.graph between.unfinished advances
      obtain ⟨f, learned, closes⟩ := final.graph observes hh
      exact ⟨h, f, rouses.unfinished, learned, closes, (rouses.others (by simp [Variable.kind])).2 reached⟩

theorem Transits.finalized (h : s.Transits e st n r) : ∀ f, r.info.pdg? = some f → f.Finalized := by
  obtain ⟨k, f, unfinished, learned, closes, -⟩ := h.reaches observes named
  intro f' hf'
  obtain rfl : f = f' := by
    rw [learned] at hf'
    exact Option.some.inj hf'
  exact ⟨k, unfinished.valid, closes⟩

/-- A transition in which the event is notified leaves with the last notification. -/
theorem Transits.defines {key : String} (h : s.Transits e st (some key) r) (graph : r.info = .pdg f) :
    f.edge? .data (.statement key) (.output (.event e)) = .ok true := by
  obtain ⟨k, f', unfinished, learned, closes, reached⟩ := h.reaches observes named
  obtain rfl := Info.pdg.inj (graph.symm.trans learned)
  obtain ⟨valid, edges⟩ := finalize_valid_edges unfinished.valid closes
  obtain ⟨d, found, -⟩ := id reached
  exact valid.edge?_eq_true.2 ((edges _ _ _).2
    (.inr ⟨rfl, _, _, rfl, List.mem_map_of_mem (Table.mem_of_get? found), reached, rfl⟩))

/-- A transition in which the event is not notified, at least on some way, may leave its trigger as it was. -/
theorem Transits.carries (h : s.Transits e st none r) (graph : r.info = .pdg f)
    (closed : f.has (.output (.event e)) = true) :
    f.edge? .data (.input (.event e)) (.output (.event e)) = .ok true := by
  obtain ⟨k, f', unfinished, learned, closes, reached⟩ := h.reaches observes named
  obtain rfl := Info.pdg.inj (graph.symm.trans learned)
  obtain ⟨valid, edges⟩ := finalize_valid_edges unfinished.valid closes
  exact valid.edge?_eq_true.2 ((edges _ _ _).2
    (.inr ⟨rfl, _, _, rfl, mem_reaching_of_output unfinished closes closed, reached, rfl⟩))

/-- The wakeup of a process reads the trigger of the event that fires. -/
theorem Fires.reads {p : Process} (apart : s.Apart) (hp : p ∈ s.procs) (h : s.Fires e p st n r) :
    ∃ f, r.info = .pdg f ∧ f.edge? .data (sourceOf (.event e) (n.map .statement))
      (.statement (StatementId.wakeup p).key) = .ok true := by
  obtain ⟨u, v, before, ways, going, due, waits, listens, advances, final⟩ := h.fires
  obtain ⟨k, between, reached⟩ := ways.reaches observes (beginEnd_between observes named) (d := none) (by
    rw [empty_facts]
    simp [fresh])
  rw [Option.or_none] at reached
  obtain ⟨h, hh, rouses, edge⟩ := advanceTime_reads observes between.graph between.unfinished apart hp between.untold
    going due waits listens advances reached
  obtain ⟨f, learned, closes⟩ := final.graph observes hh
  obtain ⟨valid, edges⟩ := finalize_valid_edges rouses.unfinished.valid closes
  exact ⟨f, learned, valid.edge?_eq_true.2 ((edges _ _ _).2 (.inl edge))⟩

end Graphs

/-- Node `i` of a record is such a transition from a state that can be reached. -/
def Records (s : Simulator) (first : State) (rec : Interleaving) (e : Event) (i : Nat) (n : Option String) : Prop :=
  ∃ st r, s.Reachable first st ∧ s.Transits e st n r ∧ rec.pdg? i = r.info.pdg?

/-- Node `i` of a record is an end of the evaluation phase at which the event fires for the process. -/
def RecordsFiring (s : Simulator) (first : State) (rec : Interleaving) (e : Event) (p : Process) (i : Nat)
    (n : Option String) : Prop :=
  ∃ st r, s.Reachable first st ∧ s.Fires e p st n r ∧ rec.pdg? i = r.info.pdg?

section Records

variable {first : State} {rec : Interleaving} {i m : Nat} {n : Option String} {key : String} {p : Process}
variable (observes : s.setup.observer = .pdg true) (start : s.initial = .ok first)

include observes start

theorem Records.defines (h : s.Records first rec e i (some key)) : ∃ f, rec.pdg? i = some f ∧
    f.edge? .data (.statement key) (.output (.event e)) = .ok true := by
  obtain ⟨st, r, reached, transits, recorded⟩ := h
  have named := reached.nameable start
  obtain ⟨k, f, -, learned, -⟩ := transits.reaches observes named
  exact ⟨f, by rw [recorded, learned]; rfl, transits.defines observes named learned⟩

theorem Records.carries (h : s.Records first rec e i none) : rec.Carries (.event e) i := by
  obtain ⟨st, r, reached, transits, recorded⟩ := h
  have named := reached.nameable start
  obtain ⟨k, f, -, learned, -⟩ := transits.reaches observes named
  intro f' hf' closed
  obtain rfl : f = f' := by
    rw [recorded, learned] at hf'
    exact Option.some.inj hf'
  exact transits.carries observes named learned closed

theorem RecordsFiring.reads (apart : s.Apart) (hp : p ∈ s.procs) (h : s.RecordsFiring first rec e p i n) :
    ∃ f, rec.pdg? i = some f ∧ f.edge? .data (sourceOf (.event e) (n.map .statement))
      (.statement (StatementId.wakeup p).key) = .ok true := by
  obtain ⟨st, r, reached, fires, recorded⟩ := h
  obtain ⟨f, learned, reads⟩ := fires.reads observes (reached.nameable start) apart hp
  exact ⟨f, by rw [recorded, learned]; rfl, reads⟩

/-- The last notification of an event for later, before the event fires, is in the slice of every wakeup that
follows. It may be made in an earlier transition, where no transition on the path from there notifies the event
for later, or in the one in which the event fires. -/
theorem last_notification_mem_slice (apart : s.Apart) (hp : p ∈ s.procs) (recorded : rec.Recorded)
    (last : s.RecordsFiring first rec e p m (some key) ∧ i = m ∨
      s.RecordsFiring first rec e p m none ∧ s.Records first rec e i (some key) ∧
        ∃ between, (i :: (between ++ [m])).IsChain (fun a b => b ∈ rec.succs a) ∧
          ∀ j ∈ between, s.Records first rec e j none) :
    ∃ g chains slice, SystemGraph.build rec = .ok (g, chains) ∧
      g.slice ⟨m, .statement (StatementId.wakeup p).key⟩ = .ok slice ∧ ⟨i, .statement key⟩ ∈ slice := by
  obtain ⟨g, chains, built, hg⟩ := SystemGraph.build_assembles recorded
  -- Whatever the wakeup reads is in its slice with all from which edges lead there.
  have sliced : ∀ {f : Pdg} {a : NodeId} {b : SystemNodeId}, rec.pdg? m = some f →
      f.edge? .data a (.statement (StatementId.wakeup p).key) = .ok true →
      Relation.ReflTransGen g.Edge b ⟨m, a⟩ → ∃ slice,
        g.slice ⟨m, .statement (StatementId.wakeup p).key⟩ = .ok slice ∧ b ∈ slice := by
    intro f a b hf reads path
    have listed := mem_edges reads
    have held := hg.holds m f hf
    exact SystemGraph.mem_slice hg.valid (held.node _ (has_of_mem_edges listed).2) (path.tail (held.edge _ listed))
  rcases last with ⟨fires, rfl⟩ | ⟨fires, notifies, between, path, passes⟩
  · obtain ⟨f, hf, reads⟩ := fires.reads observes start apart hp
    obtain ⟨slice, hslice, mem⟩ := sliced hf reads .refl
    exact ⟨g, chains, slice, built, hslice, mem⟩
  · obtain ⟨f, hf, defines⟩ := notifies.defines observes start
    obtain ⟨f', hf', reads⟩ := fires.reads observes start apart hp
    have defined := mem_edges defines
    have brings := hg.brings_of_path recorded hf (mem_nodeIds.1 (has_of_mem_edges defined).2) path
      fun l hl => (passes l hl).carries observes start
    have uses : f'.has (.input (.event e)) = true := mem_nodeIds.1 (has_of_mem_edges (mem_edges reads)).1
    have arrives := hg.path recorded brings hf' uses
    obtain ⟨slice, hslice, mem⟩ := sliced hf' reads (arrives.head ((hg.holds i f hf).edge _ defined))
    exact ⟨g, chains, slice, built, hslice, mem⟩

end Records

section Checks

variable {st : State} {p : Process}

/-- The way on which every small step goes on with its first result, up to the end of the code. -/
def wayAhead (s : Simulator) (e : Event) : Nat → Option String → Transition → Option (Option String × Transition)
  | 0, _, _ => none
  | fuel + 1, n, t =>
    match (s.smallStep t).result with
    | .error _ => none
    | .ok st => st.results.head?.bind fun r =>
      let n := if s.delayed? t = some e then
        t.running?.map fun ps => (StatementId.point t.origin ps.locations).key else n
      if st.ends then some (n, r) else s.wayAhead e fuel n r

theorem ways_of_wayAhead {start : Transition} {fuel : Nat} {n : Option String} {x : Option String × Transition}
    (before : s.Ways e start false n t) (h : s.wayAhead e fuel n t = some x) : s.Ways e start true x.1 x.2 := by
  induction fuel generalizing n t with
  | zero => cases h
  | succ fuel ih =>
      unfold wayAhead at h
      split at h
      · cases h
      · rename_i st hst
        obtain ⟨r, hr, h⟩ := Option.bind_eq_some_iff.1 h
        have hr := List.mem_of_mem_head? hr
        have next : s.Ways e start st.ends (if s.delayed? t = some e then
            t.running?.map fun ps => (StatementId.point t.origin ps.locations).key else n) r := by
          split
          · rename_i delayed
            obtain ⟨ps, running⟩ := Option.isSome_iff_exists.1 (smallStep_stays hst).2
            rw [running]
            exact before.notifies hst hr delayed running
          · rename_i undelayed
            exact before.passes hst hr undelayed
        dsimp only at h
        split at h
        · rename_i ends
          rw [ends] at next
          exact Option.some.inj h ▸ next
        · rename_i going
          rw [Bool.eq_false_iff.2 going] at next
          exact ih next h

/-- Whether a step of the process with the given number passes a check. -/
def transitsWith (s : Simulator) (e : Event) (i : Nat) (st : State) (c : Option String → Transition → Bool) : Bool :=
  (s.procs[i]?).any fun p => Success.yields (s.begin? p st) fun start =>
    (s.wayAhead e 100 none start).any fun x => Success.yields (s.successors st).result fun found =>
      found.transitions.any fun r => r.state = x.2.state &&
        Success.yields (s.setup.observer.finalize x.2.info).result (· = r.info) && c x.1 r

theorem exists_of_transitsWith {i : Nat} {c : Option String → Transition → Bool} (h : s.transitsWith e i st c = true) :
    ∃ n r, s.Transits e st n r ∧ (∃ found, (s.successors st).result = .ok found ∧ r ∈ found.transitions) ∧
      c n r = true := by
  obtain ⟨p, -, h⟩ := (Option.any_eq_true _ _).1 h
  obtain ⟨start, begins, h⟩ := Success.exists_of_yields h
  obtain ⟨⟨n, v⟩, way, h⟩ := (Option.any_eq_true _ _).1 h
  obtain ⟨found, hfound, h⟩ := Success.exists_of_yields h
  obtain ⟨r, hr, h⟩ := List.any_eq_true.1 h
  simp only [Bool.and_eq_true, decide_eq_true_eq] at h
  obtain ⟨⟨state, h⟩, passes⟩ := h
  obtain ⟨i, learned, same⟩ := Success.exists_of_yields h
  obtain rfl := of_decide_eq_true same
  exact ⟨n, r, .step begins (ways_of_wayAhead .start way) ⟨state, learned⟩, ⟨found, hfound, hr⟩, passes⟩

/-- Whether the end of the evaluation phase, without updates, fires the event for a process and passes a check. -/
def firesWith (s : Simulator) (e : Event) (p : Process) (st : State) (c : Transition → Bool) : Bool :=
  st.global.updates = [] && (s.beginEnd st).state.global.stopped = false &&
    (s.ending (s.beginEnd st).state).due.contains e &&
    (((s.beginEnd st).state.waitOf? p.index).any fun w => match w with
      | some (.events before) => before.events.contains e
      | _ => false) &&
    Success.yields (s.advanceTime (s.beginEnd st)).result fun v =>
      Success.yields (s.successors st).result fun found => found.transitions.any fun r => r.state = v.state &&
        Success.yields (s.setup.observer.finalize v.info).result (· = r.info) && c r

theorem exists_of_firesWith {c : Transition → Bool} (h : s.firesWith e p st c = true) :
    ∃ r, s.Fires e p st none r ∧ (∃ found, (s.successors st).result = .ok found ∧ r ∈ found.transitions) ∧
      c r = true := by
  simp only [firesWith, Bool.and_eq_true, decide_eq_true_eq, List.contains_iff_mem] at h
  obtain ⟨⟨⟨⟨idle, going⟩, due⟩, waits⟩, h⟩ := h
  obtain ⟨w, waits, listens⟩ := (Option.any_eq_true _ _).1 waits
  obtain ⟨v, advances, h⟩ := Success.exists_of_yields h
  obtain ⟨found, hfound, h⟩ := Success.exists_of_yields h
  obtain ⟨r, hr, h⟩ := List.any_eq_true.1 h
  simp only [Bool.and_eq_true, decide_eq_true_eq] at h
  obtain ⟨⟨state, h⟩, passes⟩ := h
  obtain ⟨i, learned, same⟩ := Success.exists_of_yields h
  obtain rfl := of_decide_eq_true same
  split at listens
  · rename_i before
    refine ⟨r, ⟨s.beginEnd st, v, before, ?_, going, due, waits, List.contains_iff_mem.1 listens, advances,
      state, learned⟩, ⟨found, hfound, hr⟩, passes⟩
    rw [idle]
    exact .nil
  · cases listens

/-- Two processes step one after the other, and the evaluation phase ends so that the event fires for a process. -/
structure Relays (s : Simulator) (e : Event) (p : Process) (first : State) (n n' : Option String)
    (r₁ r₂ r₃ : Transition) (rec : Interleaving) : Prop where
  transits₁ : s.Transits e first n r₁
  transits₂ : s.Transits e r₁.state n' r₂
  fires : s.Fires e p r₂.state none r₃
  reached₁ : s.Reachable first r₁.state
  reached₂ : s.Reachable first r₂.state
  recorded : rec.Recorded
  path : [1, 2, 3].IsChain fun a b => b ∈ rec.succs a
  graphs : rec.pdg? 1 = r₁.info.pdg? ∧ rec.pdg? 2 = r₂.info.pdg? ∧ rec.pdg? 3 = r₃.info.pdg?

/-- Whether the steps of two processes and the end of the evaluation phase after them pass a check with their
record. -/
def relaysWith (s : Simulator) (e : Event) (p : Process) (i j : Nat) (first : State)
    (c : Option String → Option String → Transition → Transition → Transition → Interleaving → Bool) : Bool :=
  s.transitsWith e i first fun n r₁ => s.transitsWith e j r₁.state fun n' r₂ => s.firesWith e p r₂.state fun r₃ =>
    Success.yields ((Interleaving.start first).add first r₁) fun x₁ =>
      Success.yields (x₁.2.2.add r₁.state r₂) fun x₂ => Success.yields (x₂.2.2.add r₂.state r₃) fun x₃ =>
        (x₃.2.2.succs 1).contains 2 && (x₃.2.2.succs 2).contains 3 &&
          (x₃.2.2.pdg? 1 = r₁.info.pdg? && x₃.2.2.pdg? 2 = r₂.info.pdg? && x₃.2.2.pdg? 3 = r₃.info.pdg?) &&
          c n n' r₁ r₂ r₃ x₃.2.2

theorem exists_of_relaysWith (observes : s.setup.observer = .pdg true) {first : State} (start : s.initial = .ok first)
    {i j : Nat} {c : Option String → Option String → Transition → Transition → Transition → Interleaving → Bool}
    (h : s.relaysWith e p i j first c = true) :
    ∃ n n' r₁ r₂ r₃ rec, s.Relays e p first n n' r₁ r₂ r₃ rec ∧ c n n' r₁ r₂ r₃ rec = true := by
  obtain ⟨n, r₁, transits₁, ⟨found₁, hfound₁, hr₁⟩, h⟩ := exists_of_transitsWith h
  obtain ⟨n', r₂, transits₂, ⟨found₂, hfound₂, hr₂⟩, h⟩ := exists_of_transitsWith h
  obtain ⟨r₃, fires, -, h⟩ := exists_of_firesWith h
  obtain ⟨x₁, hx₁, h⟩ := Success.exists_of_yields h
  obtain ⟨x₂, hx₂, h⟩ := Success.exists_of_yields h
  obtain ⟨x₃, hx₃, h⟩ := Success.exists_of_yields h
  simp only [Bool.and_eq_true, decide_eq_true_eq, List.contains_iff_mem] at h
  obtain ⟨⟨⟨after₁, after₂⟩, ⟨graph₁, graph₂⟩, graph₃⟩, passes⟩ := h
  have reached₁ := Reachable.start.step hfound₁ hr₁
  have reached₂ := reached₁.step hfound₂ hr₂
  have recorded₁ := (Interleaving.Recorded.start first).add (transits₁.finalized observes (initial_nameable start)) hx₁
  have recorded₂ := recorded₁.add (transits₂.finalized observes (reached₁.nameable start)) hx₂
  have recorded₃ := recorded₂.add (fires.transits.finalized observes (reached₂.nameable start)) hx₃
  exact ⟨n, n', r₁, r₂, r₃, x₃.2.2, ⟨transits₁, transits₂, fires, reached₁, reached₂, recorded₃,
    by simp [after₁, after₂], graph₁, graph₂, graph₃⟩, passes⟩

end Checks

end Simulator

namespace Examples

/-- One thread notifies an event twice, to fire first for the first notification, and another one waits for it. -/
def twice : System :=
  let x := field 0 "x"
  let notify := fun n => Expr.notify 0 (.event 0 "e") [number n, const (.unit .ns)]
  single [x] ["e"]
    [⟨"waiter", [wait [.event 0 "e"], assign x (number 1)], [], false⟩,
     ⟨"notifier", [notify 1, notify 5], [], false⟩]

/-- The statement with the given number of the thread that notifies. -/
def notifier (i : Int) : StatementId := .point (some top) [⟨.member ⟨1, "Top", "notifier", [], false⟩, [i]⟩]

end Examples

open Examples Simulator in
/-- A thread notifies an event in the next delta cycle, and another one waits for it. -/
theorem last_notification_mem_slice_notification : ∃ s first rec g chains slice,
    make notification ⟨.pdg true, .immediate, fun _ => true, fun _ => true⟩ = .ok s ∧ s.initial = .ok first ∧
    rec.Recorded ∧ [1, 2, 3].IsChain (fun a b => b ∈ rec.succs a) ∧
    s.Records first rec eventE 1 (some (notifier 0).key) ∧ s.Records first rec eventE 2 none ∧
    s.RecordsFiring first rec eventE waiter 3 none ∧ SystemGraph.build rec = .ok (g, chains) ∧
    g.slice ⟨3, .statement (StatementId.wakeup waiter).key⟩ = .ok slice ∧
    ⟨1, .statement (notifier 0).key⟩ ∈ slice := by
  obtain ⟨s, made, h⟩ := Success.exists_of_yields
    (x := make notification ⟨.pdg true, .immediate, fun _ => true, fun _ => true⟩)
    (c := fun s => s.procs.contains waiter && Success.yields s.initial fun first =>
      s.relaysWith eventE waiter 1 0 first fun n n' _ _ _ _ => n = some (notifier 0).key && n' = none)
    (by decide +kernel)
  obtain ⟨hp, h⟩ := (Bool.and_eq_true _ _).mp h
  obtain ⟨first, start, h⟩ := Success.exists_of_yields h
  have observes : s.setup.observer = .pdg true := by
    obtain ⟨-, rfl⟩ := make_cases made
    rfl
  obtain ⟨n, n', r₁, r₂, r₃, rec, relays, h⟩ := exists_of_relaysWith observes start h
  obtain ⟨rfl, rfl⟩ : n = some (notifier 0).key ∧ n' = none := by simpa using h
  obtain ⟨graph₁, graph₂, graph₃⟩ := relays.graphs
  have notifies : s.Records first rec eventE 1 (some (notifier 0).key) := ⟨_, _, .start, relays.transits₁, graph₁⟩
  have passes : s.Records first rec eventE 2 none := ⟨_, _, relays.reached₁, relays.transits₂, graph₂⟩
  have fires : s.RecordsFiring first rec eventE waiter 3 none := ⟨_, _, relays.reached₂, relays.fires, graph₃⟩
  obtain ⟨g, chains, slice, built, sliced, mem⟩ := last_notification_mem_slice observes start
    (placed_of_make made).apart (List.contains_iff_mem.1 hp) relays.recorded
    (.inr ⟨fires, notifies, [2], relays.path, by simpa using passes⟩)
  exact ⟨s, first, rec, g, chains, slice, made, start, relays.recorded, relays.path, notifies, passes, fires, built,
    sliced, mem⟩

open Examples Simulator in
/-- A thread notifies an event twice, and the first notification is the one that is kept and fires. The slice of
the wakeup that follows does not have its statement. -/
theorem firing_notification_not_in_slice_twice :
    ∃ s first start t st r ps d r₁ r₂ r₃ rec g chains slice,
    make twice ⟨.pdg true, .immediate, fun _ => true, fun _ => true⟩ = .ok s ∧ s.initial = .ok first ∧
    (s.procs[1]?).map (s.begin? · first) = some (.ok start) ∧ s.Occurs start false t ∧
    s.delayed? t = some eventE ∧ t.running? = some ps ∧ StatementId.point t.origin ps.locations = notifier 0 ∧
    (s.smallStep t).result = .ok st ∧ r ∈ st.results ∧ t.state.pendingOf eventE = none ∧
    r.state.pendingOf eventE = some d ∧ r₁.state.pendingOf eventE = some d ∧ r₂.state.pendingOf eventE = some d ∧
    r₃.state.waitOf? 0 = some none ∧ s.Relays eventE waiter first (some (notifier 1).key) none r₁ r₂ r₃ rec ∧
    SystemGraph.build rec = .ok (g, chains) ∧ g.slice ⟨3, .statement (StatementId.wakeup waiter).key⟩ = .ok slice ∧
    ⟨1, .statement (notifier 0).key⟩ ∈ g.nodeIds ∧ ⟨1, .statement (notifier 0).key⟩ ∉ slice := by
  obtain ⟨s, made, h⟩ := Success.exists_of_yields
    (x := make twice ⟨.pdg true, .immediate, fun _ => true, fun _ => true⟩)
    (c := fun s => Success.yields s.initial fun first =>
      ((s.procs[1]?).any fun p => Success.yields (s.begin? p first) fun start =>
        (s.trail (List.replicate 7 0) [] start).any fun x => x.2.1 = false && s.delayed? x.2.2 = some eventE &&
          ((x.2.2.running?).any fun ps => StatementId.point x.2.2.origin ps.locations = notifier 0) &&
          x.2.2.state.pendingOf eventE = none && Success.yields (s.smallStep x.2.2).result fun st =>
            st.results.any fun r => r.state.pendingOf eventE = some (.time 1000000)) &&
      s.relaysWith eventE waiter 1 0 first fun n n' r₁ r₂ r₃ rec =>
        n = some (notifier 1).key && n' = none &&
        r₁.state.pendingOf eventE = some (.time 1000000) && r₂.state.pendingOf eventE = some (.time 1000000) &&
        r₃.state.waitOf? 0 = some none && Success.yields (SystemGraph.build rec) fun x =>
          Success.yields (x.1.slice ⟨3, .statement (StatementId.wakeup waiter).key⟩) fun slice =>
            x.1.nodeIds.contains ⟨1, .statement (notifier 0).key⟩ &&
              !slice.contains ⟨1, .statement (notifier 0).key⟩) (by decide +kernel)
  have observes : s.setup.observer = .pdg true := by
    obtain ⟨-, rfl⟩ := make_cases made
    rfl
  obtain ⟨first, initial, h⟩ := Success.exists_of_yields h
  obtain ⟨notifies, h⟩ := (Bool.and_eq_true _ _).mp h
  obtain ⟨p, hp, notifies⟩ := (Option.any_eq_true _ _).1 notifies
  obtain ⟨start, begins, notifies⟩ := Success.exists_of_yields notifies
  obtain ⟨⟨ms, b, t⟩, trail, notifies⟩ := (Option.any_eq_true _ _).1 notifies
  simp only [Bool.and_eq_true, decide_eq_true_eq] at notifies
  obtain ⟨⟨⟨⟨rfl, delayed⟩, statement⟩, before⟩, steps⟩ := notifies
  obtain ⟨ps, running, statement⟩ := (Option.any_eq_true _ _).1 statement
  obtain ⟨st, small, results⟩ := Success.exists_of_yields steps
  obtain ⟨r, hr, after⟩ := List.any_eq_true.1 results
  obtain ⟨n, n', r₁, r₂, r₃, rec, relays, h⟩ := exists_of_relaysWith observes initial h
  simp only [Bool.and_eq_true, decide_eq_true_eq] at h
  obtain ⟨⟨⟨⟨⟨rfl, rfl⟩, kept₁⟩, kept₂⟩, woken⟩, h⟩ := h
  obtain ⟨⟨g, chains⟩, built, h⟩ := Success.exists_of_yields h
  obtain ⟨slice, sliced, h⟩ := Success.exists_of_yields h
  simp only [Bool.and_eq_true, Bool.not_eq_true', List.contains_iff_mem, Bool.eq_false_iff, ne_eq] at h
  have route : s.Route start false ms t := route_of_trail .nil trail
  exact ⟨s, first, start, t, st, r, ps, _, r₁, r₂, r₃, rec, g, chains, slice, made, initial,
    by rw [hp, Option.map_some, begins], route.occurs, delayed, running, of_decide_eq_true statement, small, hr,
    before, of_decide_eq_true after, kept₁, kept₂, woken, relays, built, sliced, h.1, h.2⟩

end DeltaSlice

import DeltaSlice.Proofs.Step.Evolution
import DeltaSlice.Proofs.Waits.Effects
import DeltaSlice.Proofs.Waits.Timing

/-!
What running code does to the rest of a state. Other processes keep their frames and variables, and their
waits only lose events that are notified, unless the simulation is stopped. Update requests are added and
never dropped, and a stop is final.
-/

namespace DeltaSlice

/-- What may become of the wait of a process while another one runs: events are missing from it, or enough
of them are; a stop ends it for good. -/
def Blocker.Disturbed (stopped : Bool) (w w' : Option Blocker) : Prop :=
  w' = w ∨
  (∃ l, w = some (.events l) ∧ (w' = none ∨ ∃ l', w' = some (.events l') ∧ l'.choice = l.choice ∧
    l'.timeout = l.timeout ∧ l'.events ⊆ l.events)) ∨
  (w' = some .terminated ∧ stopped = true)

namespace Blocker.Disturbed

variable {stopped stopped' : Bool} {w w' w'' : Option Blocker}

theorem refl (stopped : Bool) (w : Option Blocker) : Disturbed stopped w w := .inl rfl

theorem trans (h : Disturbed stopped w w') (h' : Disturbed stopped' w' w'')
    (final : stopped = true → stopped' = true) : Disturbed stopped' w w'' := by
  rcases h with rfl | ⟨l, rfl, rfl | ⟨l', rfl, choice, timeout, fewer⟩⟩ | ⟨rfl, ended⟩
  · exact h'
  · rcases h' with rfl | ⟨_, ⟨⟩, -⟩ | h'
    · exact .inr (.inl ⟨l, rfl, .inl rfl⟩)
    · exact .inr (.inr h')
  · rcases h' with rfl | ⟨l₁, same, rfl | ⟨l'', rfl, choice', timeout', fewer'⟩⟩ | h'
    · exact .inr (.inl ⟨l, rfl, .inr ⟨l', rfl, choice, timeout, fewer⟩⟩)
    · exact .inr (.inl ⟨l, rfl, .inl rfl⟩)
    · obtain rfl : l' = l₁ := by simpa using same
      exact .inr (.inl ⟨l, rfl, .inr ⟨l'', rfl, choice'.trans choice, timeout'.trans timeout,
        List.Subset.trans fewer' fewer⟩⟩)
    · exact .inr (.inr h')
  · rcases h' with rfl | ⟨_, ⟨⟩, -⟩ | h'
    · exact .inr (.inr ⟨rfl, final ended⟩)
    · exact .inr (.inr h')

/-- Notified events go missing. -/
theorem hear (notified : List Event) (w : Option Blocker) : Disturbed stopped w (hear notified w) := by
  cases w with
  | none => exact refl _ _
  | some b =>
      cases b with
      | terminated | delay _ => exact refl _ _
      | events l =>
          rcases hear_cases notified l with ⟨past, -⟩ | ⟨rest, more, choice, timeout, events, -⟩
          · rw [past]
            exact .inr (.inl ⟨l, rfl, .inl rfl⟩)
          · rw [more]
            exact .inr (.inl ⟨l, rfl, .inr ⟨rest, rfl, choice, timeout, fun e he => ((events e).1 he).1⟩⟩)

end Blocker.Disturbed

/-- A process that does not run keeps its code and its variables. -/
structure ProcessState.Stays (stopped : Bool) (ps ps' : ProcessState) : Prop where
  stack : ps'.stack = ps.stack
  locals : ps'.locals = ps.locals
  wait : Blocker.Disturbed stopped ps.blocker ps'.blocker

theorem ProcessState.Stays.block {stopped : Bool} {ps : ProcessState} {w : Option Blocker}
    (wait : Blocker.Disturbed stopped ps.blocker w) : ps.Stays stopped (ps.block w) := ⟨rfl, rfl, wait⟩

theorem ProcessState.Stays.refl (stopped : Bool) (ps : ProcessState) : ps.Stays stopped ps :=
  ⟨rfl, rfl, .refl _ _⟩

/-- The requested updates after one more request. -/
def Instance.request (i : Instance) (us : List Instance) : List Instance :=
  if us.contains i then us else us ++ [i]

/-- The requested updates after requests, the latest first. -/
def requested (l us : List Instance) : List Instance := l.foldr Instance.request us

theorem requested_append (l l' us : List Instance) : requested (l' ++ l) us = requested l' (requested l us) :=
  List.foldr_append

theorem prefix_requested (l us : List Instance) : us <+: requested l us := by
  induction l with
  | nil => exact List.prefix_refl _
  | cons i l ih =>
      refine ih.trans ?_
      change requested l us <+: Instance.request i (requested l us)
      unfold Instance.request
      split
      · exact List.prefix_refl _
      · exact List.prefix_append _ _

theorem nodup_requested {l us : List Instance} (nodup : us.Nodup) : (requested l us).Nodup := by
  induction l with
  | nil => exact nodup
  | cons i l ih =>
      change (Instance.request i (requested l us)).Nodup
      unfold Instance.request
      split
      · exact ih
      · rename_i fresh
        refine List.nodup_append.2 ⟨ih, List.nodup_singleton i, fun a ha b hb same => fresh ?_⟩
        rw [← List.mem_singleton.1 hb, ← same]
        exact List.contains_iff_mem.2 ha

/-- The same process runs, among as many, and leaves alone what is not its own; it asks for the given
updates. -/
structure Stays (t : Transition) (l : List Instance) (r : Transition) : Prop where
  proc : r.proc = t.proc
  length : r.state.procs.length = t.state.procs.length
  others : ∀ i, some i ≠ t.proc.map (·.index) → ∀ ps, t.state.procs[i]? = some ps →
    ∃ ps', r.state.procs[i]? = some ps' ∧ ps.Stays r.state.global.stopped ps'
  update : t.proc ≠ none → r.state.update = t.state.update
  scratch : t.state.update.isSome = true → r.state.update.isSome = true
  updates : r.state.global.updates = requested l t.state.global.updates
  stopped : t.state.global.stopped = true → r.state.global.stopped = true
  single : t.state.global.Single → r.state.global.Single

namespace Stays

variable {t u r : Transition} {l l' : List Instance}

theorem trans (h : Stays t l u) (h' : Stays u l' r) : Stays t (l' ++ l) r where
  proc := h'.proc.trans h.proc
  length := h'.length.trans h.length
  others i other ps hps := by
    obtain ⟨q, hq, first⟩ := h.others i other ps hps
    obtain ⟨ps', hps', next⟩ := h'.others i (h.proc ▸ other) q hq
    exact ⟨ps', hps', next.stack.trans first.stack, next.locals.trans first.locals,
      first.wait.trans next.wait h'.stopped⟩
  update busy := (h'.update (h.proc ▸ busy)).trans (h.update busy)
  scratch some := h'.scratch (h.scratch some)
  updates := by rw [h'.updates, h.updates, requested_append]
  stopped stopped := h'.stopped (h.stopped stopped)
  single single := h'.single (h.single single)

theorem frames (h : Stays t l r) (i : Nat) (other : some i ≠ t.proc.map (·.index)) :
    r.state.framesOf? i = t.state.framesOf? i := by
  unfold State.framesOf?
  cases hps : t.state.procs[i]? with
  | some ps =>
      obtain ⟨ps', hps', stays⟩ := h.others i other ps hps
      rw [hps', Option.map_some, Option.map_some, stays.stack]
  | none =>
      rw [List.getElem?_eq_none_iff] at hps
      rw [List.getElem?_eq_none (by rw [h.length]; exact hps)]

/-- The values of global variables, what is learned and what is noted on the way may change. -/
theorem edited (proc : r.proc = t.proc) (procs : r.state.procs = t.state.procs)
    (update : r.state.update = t.state.update) (updates : r.state.global.updates = t.state.global.updates)
    (stopped : r.state.global.stopped = t.state.global.stopped)
    (single : t.state.global.Single → r.state.global.Single) : Stays t [] r where
  proc := proc
  length := by rw [procs]
  others i _ ps hps := ⟨ps, by rw [procs]; exact hps, .refl _ _⟩
  update _ := update
  scratch := update ▸ id
  updates := updates
  stopped := stopped ▸ id
  single := single

theorem andEdited (h : Stays t l u) (proc : r.proc = u.proc) (procs : r.state.procs = u.state.procs)
    (update : r.state.update = u.state.update) (updates : r.state.global.updates = u.state.global.updates)
    (stopped : r.state.global.stopped = u.state.global.stopped)
    (single : u.state.global.Single → r.state.global.Single) : Stays t l r :=
  h.trans (edited proc procs update updates stopped single)

theorem refl (t : Transition) : Stays t [] t := edited rfl rfl rfl rfl rfl id

theorem mapRunning (f : ProcessState → ProcessState) : Stays t [] (t.mapRunning f) := by
  unfold Transition.mapRunning
  cases t.running? with
  | none => exact refl t
  | some ps =>
      unfold Transition.setRunning
      cases hp : t.proc with
      | none => exact ⟨hp.symm, rfl, fun i _ ps hps => ⟨ps, hps, .refl _ _⟩, fun busy => absurd hp busy,
          fun _ => rfl, rfl, id, id⟩
      | some p =>
          refine ⟨hp.symm, List.length_set, fun i other ps hps => ⟨ps, ?_, .refl _ _⟩, fun _ => rfl, id,
            rfl, id, id⟩
          have apart : p.index ≠ i := fun same => other (by rw [hp, ← same]; rfl)
          exact (List.getElem?_set_ne apart).trans hps

theorem request (i : Instance) : Stays t [i] (t.mapGlobal (·.requestUpdate i)) := by
  have asked : ∀ g : GlobalState, (g.requestUpdate i).updates = requested [i] g.updates ∧
      (g.requestUpdate i).stopped = g.stopped ∧ (g.requestUpdate i).pending = g.pending := by
    intro g
    unfold GlobalState.requestUpdate requested
    rw [List.foldr_cons, List.foldr_nil, Instance.request]
    split <;> exact ⟨rfl, rfl, rfl⟩
  obtain ⟨updates, stopped, pending⟩ := asked t.state.global
  refine ⟨rfl, rfl, fun i _ ps hps => ⟨ps, hps, .refl _ _⟩, fun _ => rfl, id, updates,
    fun h => stopped.trans h, ?_⟩
  unfold GlobalState.Single
  exact pending ▸ id

theorem of_evolves (h : Evolves t l r) : Stays t l r := by
  induction h with
  | refl => exact refl t
  | running f _ ih => exact ih.trans (.mapRunning f)
  | scratch f _ ih | value v x _ ih | list _ ih | note f _ ih => exact ih.andEdited rfl rfl rfl rfl rfl id
  | request i _ ih => exact ih.trans (.request i)

/-- The wait of one process changes. -/
theorem block {p : Process} {ps : ProcessState} {w : Option Blocker} {i : Info}
    (found : t.state.procs[p.index]? = some ps)
    (wait : Blocker.Disturbed t.state.global.stopped ps.blocker w) :
    Stays t [] { t.setProc p (ps.block w) with info := i } where
  proc := rfl
  length := List.length_set
  others j _ q hq := by
    by_cases own : p.index = j
    · subst own
      obtain rfl := Option.some.inj (found.symm.trans hq)
      exact ⟨_, List.getElem?_set_self (List.getElem?_eq_some_iff.1 found).1, .block wait⟩
    · exact ⟨q, (List.getElem?_set_ne own).trans hq, .refl _ _⟩
  update _ := rfl
  scratch := id
  updates := rfl
  stopped := id
  single := id

end Stays

namespace Simulator

variable {s : Simulator} {t r : Transition}

theorem Notifies.stays {p : Process} {notified : List Event} (h : s.Notifies t p notified r) : Stays t [] r := by
  cases h with
  | deaf => exact .refl t
  | hears found => exact .block found (.hear notified _)

theorem setPending_stays (e : Event) (d : Option Delay) : Stays t [] (t.mapGlobal (·.setPending e d)) :=
  .edited rfl rfl rfl (by cases d <;> rfl) GlobalState.stopped_setPending fun single => single.setPending

theorem notify_stays {e : Event} {delay : Option Delay} (hr : (s.notify t e delay).result = .ok r) :
    Stays t [] r :=
  notify_induction (fun stays told => stays.trans told.stays) (.refl _) (setPending_stays e) hr

theorem notifyStep_stays {top : Frame} {e target : Expr} {delays : List Expr} {st : SmallStep}
    (hst : (s.notifyStep t top e target delays).result = .ok st) : st.All (Stays t []) := by
  obtain ⟨-, rfl⟩ | ⟨-, _, _, u, -, -, hu, rfl⟩ := notifyStep_cases hst
  · exact .one (.of_evolves (Evolves.refl.enter _))
  · exact .one ((notify_stays hu).trans (.of_evolves (Evolves.refl.finish _ _)))

/-- A stop only ends waits, and leaves nothing pending. -/
theorem stop_stays : Stays t [] (s.stop t) where
  proc := rfl
  length := List.length_map _
  others i _ ps hps := by
    refine ⟨_, (List.getElem?_map).trans (congrArg (Option.map _) hps), ?_⟩
    dsimp only
    split
    · exact .refl _ _
    · exact .refl _ _
    · exact .block (.inr (.inr ⟨rfl, rfl⟩))
  update _ := rfl
  scratch := id
  updates := rfl
  stopped _ := rfl
  single _ := List.nodup_nil

theorem exprStep_stays {ps : ProcessState} {top : Frame} {e : Expr} {st : SmallStep}
    (hst : (s.exprStep t ps top e).result = .ok st) : st.All (Stays t (s.requestsOf top e)) := by
  cases e with
  | notify id target delays => exact notifyStep_stays hst
  | stop id =>
      obtain rfl := Run.pure_result_iff.1 hst
      exact .one ((Stays.of_evolves (Evolves.refl.finish _ _)).trans stop_stays)
  | _ =>
      intro r hr
      have all := s.exprStep_evolves .refl ps top (by simp) (by simp) st hst
      rw [List.append_nil] at all
      exact (all r hr).imp_left .of_evolves

/-- What the next small step asks for. -/
def requests (s : Simulator) (t : Transition) : List Instance :=
  match t.top? with
  | none => []
  | some top =>
    match s.program.at? top.location with
    | none => []
    | some e => s.requestsOf top e

theorem requests_body {top : Frame} (htop : t.top? = some top) (body : top.path = []) :
    s.requests t = [] := by
  have bodyless : s.program.at? top.location = none := by
    rw [Program.at?, System.at?, show top.location.path = [] from body]
    rfl
  simp [requests, htop, bodyless]

theorem advance_stays {st : SmallStep} (hst : (s.advance t).result = .ok st) :
    st.All (Stays t (s.requests t)) ∧ t.running?.isSome = true := by
  obtain ⟨ps, top, hps, htop, ⟨hpath, rfl⟩ | ⟨i, up, e, sc, -, hexpr, -, hst⟩⟩ := advance_cases hst
  · rw [requests_body htop hpath]
    exact ⟨fun r hr => (s.bodyStep_evolves .refl top r hr).imp_left .of_evolves, by rw [hps]; rfl⟩
  · have scratched : Stays t [] { t with scratch := sc } := .edited rfl rfl rfl rfl rfl id
    have asks : s.requests t = s.requestsOf top e := by simp only [requests, htop, hexpr]
    rw [asks]
    refine ⟨fun r hr => (exprStep_stays hst r hr).imp_left fun stays => ?_, by rw [hps]; rfl⟩
    simpa using scratched.trans stays

/-- A small step goes on with the same process, among as many, and leaves it where it may end if its code
ends. -/
theorem smallStep_stays {st : SmallStep} (hst : (s.smallStep t).result = .ok st) :
    st.All (Stays t (s.requests t)) ∧ t.running?.isSome = true := by
  obtain ⟨st₀, rs, hadv, hobs, rfl⟩ := smallStep_cases hst
  obtain ⟨all, running⟩ := advance_stays hadv
  refine ⟨fun r hr => ?_, running⟩
  obtain ⟨r₀, hr₀, -, same⟩ := observeResults_mem hobs hr
  have state : r.state = r₀.state := by rw [same]
  have proc : r.proc = r₀.proc := by rw [same]
  obtain ⟨stays, rests⟩ := all r₀ hr₀
  have reset : Stays t [] t.resetAccesses := .edited rfl rfl rfl rfl rfl id
  have asks : s.requests t.resetAccesses ++ [] = s.requests t := List.append_nil _
  refine ⟨(asks ▸ reset.trans stays).andEdited proc (by rw [state]) (by rw [state]) (by rw [state])
    (by rw [state]) (by rw [state]; exact id), fun ends => ⟨?_, ?_⟩⟩
  · rw [proc, state]
    exact (rests ends).waits
  · rw [proc, state]
    exact (rests ends).spent

end Simulator

end DeltaSlice

import DeltaSlice.Proofs.Waits.Bare
import DeltaSlice.Proofs.Waits.Chronicles
import DeltaSlice.Proofs.Waits.Stops
import DeltaSlice.Proofs.Waits.Timers

/-!
Requests for updates. The running code asks for updates of instances, once or several times; the update
routines that are requested then run one after the other, each of them to its end. A state keeps the
requested updates without repetition, and between the runs of code no update routine is under way.
-/

namespace DeltaSlice

/-- Every request is kept, once, where it was made first. -/
theorem requested_nil (l : List Instance) : requested l [] = l.reverse.eraseDups := by
  induction l with
  | nil => rfl
  | cons i l ih =>
      change Instance.request i (requested l []) = _
      rw [ih, Instance.request, List.reverse_cons, List.eraseDups_append, List.removeAll, List.filter_singleton]
      simp only [List.contains_iff_mem, List.mem_eraseDups, List.elem_eq_contains]
      by_cases before : i ∈ l.reverse
      · simp [before]
      · simp [before, List.eraseDups_cons]

namespace Simulator

variable {s : Simulator} {start t u r v : Transition} {st first : State}

/-- What running code asks for on the way to a transition, the latest request first; the flag says whether
the code has ended. -/
inductive Asks (s : Simulator) (start : Transition) : Bool → List Instance → Transition → Prop
  | start : Asks s start false [] start
  | step {l : List Instance} {t r : Transition} {st : SmallStep} : Asks s start false l t →
      (s.smallStep t).result = .ok st → r ∈ st.results → Asks s start st.ends (s.requests t ++ l) r
  | merge {b : Bool} {l : List Instance} {t : Transition} {i : Info} : Asks s start b l t →
      Asks s start b l { t with info := i }

/-- The update routines of instances run one after the other on one branch, each of them until it has no
frame left. On the way they ask for updates, the latest request first. -/
inductive AsksUpdates (s : Simulator) : List Instance → Transition → List Instance → Transition → Prop
  | nil {t : Transition} : AsksUpdates s [] t [] t
  | cons {i : Instance} {is : List Instance} {c : ClassDef} {f : Routine} {t start e u : Transition}
      {l l' : List Instance} : s.program.system.classOf? i = some c → c.routine? "update" = some f →
      s.beginUpdate? i f t = .ok start → s.Asks start true l e → e.state.update.map (·.stack) = some [] →
      AsksUpdates s is e.afterUpdate l' u → AsksUpdates s (i :: is) t (l' ++ l) u

theorem exists_asks {b : Bool} (h : s.Occurs start b r) : ∃ l, s.Asks start b l r := by
  induction h with
  | start => exact ⟨[], .start⟩
  | step _ hst hr ih =>
      obtain ⟨l, hl⟩ := ih
      exact ⟨_, hl.step hst hr⟩
  | merge _ _ _ _ same iht ihu =>
      obtain ⟨l, hl⟩ := iht
      obtain ⟨l', hl'⟩ := ihu
      cases same with
      | inl same => exact ⟨l, same ▸ hl.merge⟩
      | inr same => exact ⟨l', same ▸ hl'.merge⟩

theorem exists_asks_of_run {e : Transition} (h : s.RunsTo start e) : ∃ l, s.Asks start true l e :=
  exists_asks h.occurs

theorem Asks.tells {b : Bool} {l : List Instance} (h : s.Asks start b l r) : ∃ k, s.Tells start b k r := by
  induction h with
  | start => exact ⟨[], .start⟩
  | step _ hst hr ih =>
      obtain ⟨k, hk⟩ := ih
      exact ⟨_, hk.step hst hr⟩
  | merge _ ih =>
      obtain ⟨k, hk⟩ := ih
      exact ⟨k, hk.merge⟩

/-- Running code asks for what it adds to the requested updates. -/
theorem Asks.stays {b : Bool} {l : List Instance} (h : s.Asks start b l r) : Stays start l r := by
  induction h with
  | start => exact .refl _
  | step _ hst hr ih => exact ih.trans ((smallStep_stays hst).1 _ hr).1
  | merge _ ih => exact ih.andEdited rfl rfl rfl rfl rfl id

/-- An update routine that has ended has no frame left, and nothing of a process was its own. -/
theorem Asks.update {i : Instance} {f : Routine} {e : Transition} {l : List Instance} (unowned : t.proc = none)
    (idle : t.state.update = none) (hbegin : s.beginUpdate? i f t = .ok start) (h : s.Asks start true l e) :
    Stays t l e.afterUpdate ∧ e.state.update.map (·.stack) = some [] := by
  obtain ⟨info, -, rfl⟩ := Success.map_iff.1 hbegin
  have stays := h.stays
  refine ⟨⟨stays.proc, stays.length, stays.others, fun owned => absurd unowned owned, fun some => ?_,
    stays.updates, stays.stopped, stays.single⟩, ?_⟩
  · rw [idle] at some
    cases some
  · obtain ⟨k, tells⟩ := h.tells
    obtain ⟨ps, own⟩ := Option.isSome_iff_exists.1 (stays.scratch rfl)
    rw [own, Option.map_some, (tells.stays.2 rfl).1.spent (stays.proc.trans unowned) ps own]

theorem exists_asksUpdates {is : List Instance} {runs : List (Transition × Transition)}
    (h : s.Updates is t runs u) (unowned : t.proc = none) (idle : t.state.update = none) :
    ∃ l, s.AsksUpdates is t l u := by
  induction h with
  | nil => exact ⟨[], .nil⟩
  | cons hc hf hbegin hrun _ ih =>
      obtain ⟨l, hl⟩ := exists_asks_of_run hrun
      obtain ⟨stays, spent⟩ := hl.update unowned idle hbegin
      obtain ⟨l', hl'⟩ := ih (stays.proc.trans unowned) rfl
      exact ⟨_, .cons hc hf hbegin hl spent hl'⟩

/-- Update routines add what they ask for to the requested updates, and no process runs them. -/
theorem AsksUpdates.stays {is l : List Instance} (h : s.AsksUpdates is t l u) (unowned : t.proc = none)
    (idle : t.state.update = none) : Stays t l u ∧ u.state.update = none := by
  induction h with
  | nil => exact ⟨.refl _, idle⟩
  | cons _ _ hbegin hasks _ _ ih =>
      obtain ⟨stays, -⟩ := hasks.update unowned idle hbegin
      obtain ⟨rest, done⟩ := ih (stays.proc.trans unowned) rfl
      exact ⟨stays.trans rest, done⟩

end Simulator

end DeltaSlice

/-!
What a step of a process may touch. States that can be reached are tidy: no update routine is under way, and
no update is requested twice. From such a state a step changes the process that makes it, the waits that hear
of a notification or end with the simulation, and what is requested and stopped.
-/

namespace DeltaSlice

/-- All processes are there, no update routine is under way, no update is requested twice, and every event has
at most one pending notification. -/
structure State.Tidy (s : Simulator) (st : State) : Prop where
  peopled : st.procs.length = s.procs.length
  idle : st.update = none
  updates : st.global.updates.Nodup
  single : st.global.Single

/-- From `st` to `st'` the process touches only what it may. It waits then, and others go on where they were,
hear of events or are ended by a stop; updates are requested and the simulation is stopped, but neither is
taken back. -/
structure Process.Confined (p : Process) (st st' : State) : Prop where
  waits : ∃ b, st'.waitOf? p.index = some (some b)
  length : st'.procs.length = st.procs.length
  others : ∀ i, i ≠ p.index → ∀ ps, st.procs[i]? = some ps →
    ∃ ps', st'.procs[i]? = some ps' ∧ ps.Stays st'.global.stopped ps'
  update : st'.update = none
  updates : st.global.updates <+: st'.global.updates
  nodup : st'.global.updates.Nodup
  stopped : st.global.stopped = true → st'.global.stopped = true

theorem Stays.tidy {s : Simulator} {t r : Transition} {l : List Instance} (stays : Stays t l r)
    (tidy : t.state.Tidy s) (idle : r.state.update = none) : r.state.Tidy s where
  peopled := stays.length.trans tidy.peopled
  idle := idle
  updates := stays.updates ▸ nodup_requested tidy.updates
  single := stays.single tidy.single

namespace Simulator

variable {s : Simulator} {sys : System} {setup : Setup} {p : Process} {st first : State} {t u r v : Transition}
  {ts : List Transition}

theorem initial_tidy (h : s.initial = .ok st) : st.Tidy s := by
  obtain ⟨procs, update, values, global⟩ := initial_cases h
  refine ⟨by rw [procs, List.length_map], update, ?_, ?_⟩ <;> rw [global]
  · exact List.nodup_nil
  · exact List.nodup_nil

/-- A step of a process runs its code once. -/
theorem makeStep_asks (h : (s.makeStep p st).result = .ok ts) (hr : r ∈ ts) : ∃ start e l,
    s.begin? p st = .ok start ∧ s.Asks start true l e ∧ r.state = e.state := by
  obtain ⟨start, ended, hbegin, hrun, hfin⟩ := makeStep_cases h
  obtain ⟨e, he, state, -⟩ := finalize_mem hfin hr
  obtain ⟨l, hl⟩ := exists_asks_of_run ⟨ended, hrun, he⟩
  exact ⟨start, e, l, hbegin, hl, state⟩

/-- Code of a process runs from one tidy state to another. -/
theorem Asks.tidy {start e : Transition} {l : List Instance} (tidy : st.Tidy s)
    (hbegin : s.begin? p st = .ok start) (hasks : s.Asks start true l e) : e.state.Tidy s := by
  obtain ⟨proc, rfl⟩ := begin?_start hbegin
  exact hasks.stays.tidy tidy ((hasks.stays.update (by simp [proc])).trans tidy.idle)

section

variable (placed : s.Placed)

include placed

theorem advanceTime_tidy (tidy : t.state.Tidy s) (hr : (s.advanceTime t).result = .ok r) :
    r.state.Tidy s := by
  have bare := advanceTime_bare hr
  refine ⟨(State.length_of_bare bare).trans tidy.peopled, (State.update_of_bare bare).trans tidy.idle,
    State.updates_of_bare bare ▸ tidy.updates, ?_⟩
  cases going : t.state.global.stopped with
  | false => exact (advanceTime_undergoes placed.apart tidy.single going hr).2.single tidy.single
  | true =>
      unfold advanceTime at hr
      simp only [going, if_true] at hr
      obtain rfl := Run.pure_result_iff.1 hr
      exact tidy.single

theorem endEvaluation_tidy (tidy : st.Tidy s) {l : List Instance}
    (hupdates : s.AsksUpdates st.global.updates (s.beginEnd st) l u) (hr : (s.advanceTime u).result = .ok r) :
    r.state.Tidy s := by
  have begun : (s.beginEnd st).state.Tidy s := ⟨tidy.peopled, tidy.idle, List.nodup_nil, tidy.single⟩
  obtain ⟨stays, idle⟩ := hupdates.stays rfl tidy.idle
  exact advanceTime_tidy placed (stays.tidy begun idle) hr

theorem Reachable.tidy (start : s.initial = .ok first) (h : s.Reachable first st) : st.Tidy s := by
  induction h with
  | start => exact initial_tidy start
  | @step st found t _ hfound ht ih =>
      rcases successors_mem hfound ht with ⟨-, ts, hts, hr⟩ | ⟨ps, hps, p, hp, ts, hts, hr⟩
      · obtain ⟨runs, u, v, hruns, hadvance, hfin⟩ := endEvaluation_cases hts hr
        obtain ⟨l, hl⟩ := exists_asksUpdates hruns rfl ih.idle
        exact hfin.1 ▸ endEvaluation_tidy placed ih hl hadvance
      · obtain ⟨start, e, l, hbegin, hasks, state⟩ := makeStep_asks hts hr
        exact state ▸ hasks.tidy ih hbegin

end

/-- A step of a process from a state that can be reached touches only what it may. -/
theorem makeStep_confined (hs : make sys setup = .ok s) (start : s.initial = .ok first)
    (reached : s.Reachable first st) (hstep : (s.makeStep p st).result = .ok ts) (ht : t ∈ ts) :
    p.Confined st t.state := by
  have tidy := reached.tidy (placed_of_make hs) start
  obtain ⟨begun, e, l, hbegin, hasks, state⟩ := makeStep_asks hstep ht
  obtain ⟨proc, rfl⟩ := begin?_start hbegin
  obtain ⟨k, tells⟩ := hasks.tells
  have stays := hasks.stays
  rw [state]
  exact {
    waits := tells.waits proc
    length := stays.length
    others := fun i other => stays.others i (by simpa [proc] using other)
    update := (stays.update (by simp [proc])).trans tidy.idle
    updates := stays.updates ▸ prefix_requested l _
    nodup := stays.updates ▸ nodup_requested tidy.updates
    stopped := stays.stopped }

end Simulator

namespace Examples

/-- One thread waits for the bell and the gong, one lets the bell ring and asks twice for an update, and one
sleeps. -/
def ringing : System := single [] ["e", "f"]
  [⟨"listener", [wait [.binary 0 .both (.event 0 "e") (.event 0 "f")]], [], false⟩,
   ⟨"caller", [.notify 0 (.event 0 "e") [], call .requestUpdate [], call .requestUpdate []], [], false⟩,
   ⟨"sleeper", [wait (nanoseconds 5)], [], false⟩]

end Examples

open Examples Simulator in
/-- The caller comes after the others. The listener hears of the bell, and the sleeper of nothing. -/
theorem makeStep_confined_ringing : ∃ s first st p ts t, make ringing watching = .ok s ∧ s.initial = .ok first ∧
    s.Reachable first st ∧ s.procs[1]? = some p ∧ (s.makeStep p st).result = .ok ts ∧ t ∈ ts ∧
    st.procs.map (·.blocker) =
      [some (.events ⟨[bell, gong], false, none⟩), none, some (.delay (.time 5000000))] ∧
    t.state.procs.map (·.blocker) =
      [some (.events ⟨[gong], false, none⟩), some .terminated, some (.delay (.time 5000000))] ∧
    t.state.global.updates = [top] ∧ p.Confined st t.state := by
  obtain ⟨s, made, h⟩ := Success.exists_of_yields (x := make ringing watching) (c := fun s =>
    Success.yields s.initial fun first => ([0, 1].foldlM s.choose first).any fun st =>
      st.procs.map (·.blocker) =
        [some (.events ⟨[bell, gong], false, none⟩), none, some (.delay (.time 5000000))] &&
      (s.procs[1]?).any fun p => Success.yields (s.makeStep p st).result fun ts => ts.any fun t =>
        t.state.procs.map (·.blocker) =
          [some (.events ⟨[gong], false, none⟩), some .terminated, some (.delay (.time 5000000))] &&
        t.state.global.updates = [top]) (by decide +kernel)
  obtain ⟨first, start, h⟩ := Success.exists_of_yields h
  obtain ⟨st, chosen, h⟩ := (Option.any_eq_true _ _).1 h
  obtain ⟨waits, h⟩ := (Bool.and_eq_true _ _).mp h
  obtain ⟨p, hp, h⟩ := (Option.any_eq_true _ _).1 h
  obtain ⟨ts, hts, h⟩ := Success.exists_of_yields h
  obtain ⟨t, ht, h⟩ := List.any_eq_true.1 h
  simp only [Bool.and_eq_true, decide_eq_true_eq] at waits h
  have reached : s.Reachable first st := Reachable.start.choices chosen
  exact ⟨s, first, st, p, ts, t, made, start, reached, hp, hts, ht, waits, h.1, h.2,
    makeStep_confined made start reached hts ht⟩

end DeltaSlice

/-!
Rounds of updates. The end of an evaluation phase runs the routines that are requested, each once and in the
order of the first requests. What is asked for during these routines and in the steps of processes after them
is up to the next end. So no request is lost, and none is served twice.
-/

namespace DeltaSlice

/-- What happens to updates from one end of an evaluation phase up to the next: the routines of some instances
run, and updates are asked for, the latest request first. -/
structure Round where
  updated : List Instance
  asked : List Instance

/-- A round updates what the round before it asked for, in the order of the first requests, and each instance
once, no matter how often it was asked for. -/
structure Round.Follows (later earlier : Round) : Prop where
  order : later.updated = earlier.asked.reverse.eraseDups
  once : ∀ i, later.updated.count i = if i ∈ earlier.asked then 1 else 0

namespace Simulator

variable {s : Simulator} {sys : System} {setup : Setup} {st first : State} {u v r : Transition} {l : List Instance}
  {now : Round} {past : List Round}

/-- On the way from `st` to the state after the end of the evaluation phase the requested update routines run,
each once and in order on one branch, then the simulation advances. What these routines ask for is what is
requested then, and no process gets any further. -/
structure Renews (s : Simulator) (st : State) (l : List Instance) (st' : State) : Prop where
  runs : ∃ u v, s.AsksUpdates st.global.updates (s.beginEnd st) l u ∧ (s.advanceTime u).result = .ok v ∧
    v.state = st'
  once : st.global.updates.Nodup
  updates : st'.global.updates = l.reverse.eraseDups
  length : st'.procs.length = st.procs.length
  code : ∀ (i : Nat) (ps : ProcessState), st.procs[i]? = some ps →
    ∃ ps', st'.procs[i]? = some ps' ∧ ps'.stack = ps.stack ∧ ps'.locals = ps.locals

/-- The rounds on the way to a state: the present one and those before it, the latest first. Processes run
until they wait, and evaluation phases end. -/
inductive Ledger (s : Simulator) : Round → List Round → State → Prop
  | start {st : State} : s.initial = .ok st → Ledger s ⟨[], []⟩ [] st
  | ran {now : Round} {past : List Round} {st : State} {ps : List Process} {p : Process} {ts : List Transition}
      {start e r : Transition} {l : List Instance} : Ledger s now past st → s.ready st = .ok ps → p ∈ ps →
      (s.makeStep p st).result = .ok ts → r ∈ ts → s.begin? p st = .ok start → s.Asks start true l e →
      r.state = e.state → Ledger s ⟨now.updated, l ++ now.asked⟩ past r.state
  | ended {now : Round} {past : List Round} {st : State} {ts : List Transition} {u v r : Transition}
      {l : List Instance} : Ledger s now past st → (s.endEvaluation st).result = .ok ts → r ∈ ts →
      s.AsksUpdates st.global.updates (s.beginEnd st) l u → (s.advanceTime u).result = .ok v →
      r.state = v.state → Ledger s ⟨st.global.updates, l⟩ (now :: past) r.state

theorem renews_of_asksUpdates (tidy : st.Tidy s)
    (hupdates : s.AsksUpdates st.global.updates (s.beginEnd st) l u) (hv : (s.advanceTime u).result = .ok v) :
    s.Renews st l v.state := by
  obtain ⟨stays, -⟩ := hupdates.stays rfl tidy.idle
  have bare := advanceTime_bare hv
  refine ⟨⟨u, v, hupdates, hv, rfl⟩, tidy.updates, ?_, (State.length_of_bare bare).trans stays.length,
    fun i ps hps => ?_⟩
  · rw [State.updates_of_bare bare, stays.updates]
    exact requested_nil l
  · obtain ⟨q, hq, same⟩ := stays.others i (by simp [beginEnd, Transition.start, Transition.mapGlobal]) ps hps
    obtain ⟨ps', hps', stack, locals⟩ := State.code_of_bare bare hq
    exact ⟨ps', hps', stack.trans same.stack, locals.trans same.locals⟩

theorem exists_ledger (placed : s.Placed) (start : s.initial = .ok first) (h : s.Reachable first st) :
    ∃ now past, s.Ledger now past st := by
  induction h with
  | start => exact ⟨_, _, .start start⟩
  | step reached hfound ht ih =>
      obtain ⟨now, past, ledger⟩ := ih
      rcases successors_mem hfound ht with ⟨-, ts, hts, hr⟩ | ⟨ps, hps, p, hp, ts, hts, hr⟩
      · obtain ⟨runs, u, v, hruns, hadvance, hfin⟩ := endEvaluation_cases hts hr
        obtain ⟨l, hl⟩ := exists_asksUpdates hruns rfl (reached.tidy placed start).idle
        exact ⟨_, _, ledger.ended hts hr hl hadvance hfin.1⟩
      · obtain ⟨begun, e, l, hbegin, hasks, state⟩ := makeStep_asks hts hr
        exact ⟨_, _, ledger.ran hps hp hts hr hbegin hasks state⟩

theorem Ledger.tidy (placed : s.Placed) (h : s.Ledger now past st) : st.Tidy s := by
  induction h with
  | start hst => exact initial_tidy hst
  | ran _ _ _ _ _ hbegin hasks state ih => exact state ▸ hasks.tidy ih hbegin
  | ended _ _ _ hupdates hv state ih => exact state ▸ endEvaluation_tidy placed ih hupdates hv

/-- What was asked for in the present round is requested. -/
theorem Ledger.requests (placed : s.Placed) (h : s.Ledger now past st) :
    st.global.updates = now.asked.reverse.eraseDups := by
  induction h with
  | start hst =>
      obtain ⟨-, -, values, global⟩ := initial_cases hst
      rw [global]
      rfl
  | @ran now past st ps p ts start e r l _ _ _ _ _ hbegin hasks state ih =>
      obtain ⟨-, rfl⟩ := begin?_start hbegin
      rw [state, hasks.stays.updates, ih, ← requested_nil, ← requested_append, requested_nil]
  | ended ledger _ _ hupdates hv state _ =>
      rw [state]
      exact (renews_of_asksUpdates (ledger.tidy placed) hupdates hv).updates

theorem Ledger.follows (placed : s.Placed) (h : s.Ledger now past st) :
    (now :: past).IsChain Round.Follows := by
  induction h with
  | start _ => exact .singleton _
  | ran _ _ _ _ _ _ _ _ ih =>
      obtain ⟨first, rest⟩ := List.isChain_cons.1 ih
      exact List.isChain_cons.2 ⟨fun y hy => ⟨(first y hy).order, (first y hy).once⟩, rest⟩
  | ended ledger _ _ _ _ _ ih =>
      have order := ledger.requests placed
      refine List.isChain_cons_cons.2 ⟨⟨order, fun i => ?_⟩, ih⟩
      rw [(ledger.tidy placed).updates.count, order]
      simp only [List.mem_eraseDups, List.mem_reverse]

/-- Update requests are neither lost nor repeated. Every result of the end of an evaluation phase comes from
running the requested update routines, and on every run each round updates what the round before it asked
for. -/
theorem updates_exact (hs : make sys setup = .ok s) (start : s.initial = .ok first) :
    (∀ st, s.Reachable first st →
      (∀ ts r, (s.endEvaluation st).result = .ok ts → r ∈ ts → ∃ l, s.Renews st l r.state) ∧
      ∃ now past, s.Ledger now past st) ∧
    ∀ now past st, s.Ledger now past st →
      (now :: past).IsChain Round.Follows ∧ st.global.updates = now.asked.reverse.eraseDups := by
  have placed := placed_of_make hs
  refine ⟨fun st reached => ⟨fun ts r hts hr => ?_, exists_ledger placed start reached⟩, fun now past st ledger =>
    ⟨ledger.follows placed, ledger.requests placed⟩⟩
  have tidy := reached.tidy placed start
  obtain ⟨runs, u, v, hruns, hadvance, hfin⟩ := endEvaluation_cases hts hr
  obtain ⟨l, hl⟩ := exists_asksUpdates hruns rfl tidy.idle
  exact ⟨l, hfin.1 ▸ renews_of_asksUpdates tidy hl hadvance⟩

end Simulator

namespace Examples

def left : Instance := ⟨0, "left"⟩
def right : Instance := ⟨1, "right"⟩

/-- A thread asks for updates of two cells, of the second one first and of the first one twice. Every update
asks for an update of the first cell. -/
def cells : System :=
  let update := Routine.member ⟨0, "Cell", "update", [], false⟩
  let run := Routine.member ⟨1, "Top", "run", [], false⟩
  let top : Instance := ⟨2, "top"⟩
  let request := fun i => Expr.access 0 (const (.inst i)) (call .requestUpdate [])
  System.numbered {
    classes := [⟨"Cell", [], [], [update]⟩, ⟨"Top", [], [], [run]⟩]
    instances := [⟨left, some 0⟩, ⟨right, some 0⟩, ⟨top, some 1⟩]
    globals := []
    processes := [⟨"run", some top, some run, .thread, [], false⟩]
    bodies := [[request left], [request right, request left, request left]] }

end Examples

open Examples Simulator in
/-- The second cell is updated first, and what the two updates ask for is one update of the first cell. -/
theorem updates_exact_cells : ∃ s first st ts r now past l, make cells watching = .ok s ∧
    s.initial = .ok first ∧ s.Reachable first st ∧ s.Ledger now past st ∧
    now.asked.reverse.eraseDups = [right, left] ∧ (s.endEvaluation st).result = .ok ts ∧ r ∈ ts ∧
    s.Renews st l r.state ∧ l.reverse.eraseDups = [left] ∧ s.Ledger ⟨[right, left], l⟩ (now :: past) r.state ∧
    (⟨[right, left], l⟩ :: now :: past).IsChain Round.Follows := by
  obtain ⟨s, made, h⟩ := Success.exists_of_yields (x := make cells watching) (c := fun s =>
    Success.yields s.initial fun first => (s.choose first 0).any fun st =>
      st.global.updates = [right, left] && Success.yields (s.endEvaluation st).result fun ts =>
        ts.any fun r => r.state.global.updates = [left]) (by decide +kernel)
  obtain ⟨first, start, h⟩ := Success.exists_of_yields h
  obtain ⟨st, chosen, h⟩ := (Option.any_eq_true _ _).1 h
  obtain ⟨requested, h⟩ := (Bool.and_eq_true _ _).mp h
  obtain ⟨ts, hts, h⟩ := Success.exists_of_yields h
  obtain ⟨r, hr, asked⟩ := List.any_eq_true.1 h
  rw [decide_eq_true_eq] at requested asked
  have reached : s.Reachable first st := Reachable.start.choose chosen
  obtain ⟨ends, balanced⟩ := updates_exact made start
  obtain ⟨renews, now, past, ledger⟩ := ends st reached
  obtain ⟨l, renews⟩ := renews ts r hts hr
  obtain ⟨u, v, runs, advances, state⟩ := renews.runs
  have next := ledger.ended hts hr runs advances state.symm
  rw [requested] at next
  exact ⟨s, first, st, ts, r, now, past, l, made, start, reached, ledger,
    (balanced now past st ledger).2.symm.trans requested, hts, hr, renews, renews.updates.symm.trans asked, next,
    (balanced _ _ _ next).1⟩

end DeltaSlice

import DeltaSlice.Proofs.Waits.Wakeups

/-!
A stop is final. A stopped simulation stays so. If it ends at once, nothing leads on. Else processes that
are ready or hear of an event go on within the delta cycle, but time stands still: no delay ends or gets
shorter, and no pending notification is made.
-/

namespace DeltaSlice

theorem Delay.earlier_cases {a b : Option Delay} {d : Delay} (h : Delay.earlier a b = some d) :
    a = some d ∨ b = some d := by
  unfold Delay.earlier at h
  split at h
  · exact .inr h
  · exact .inl h
  · exact .inl h
  · exact .inr h
  · split at h
    · exact .inr h
    · exact .inl h

/-- A wait goes on from `w` to `w'` while code tells `k`: it ends only when events are notified at once, and
it keeps its delay. Another stop may end the process. -/
inductive Blocker.Endures (k : History) : Option Blocker → Option Blocker → Prop
  | same {w : Option Blocker} : Endures k w w
  | ended {b : Blocker} : (∀ l, b ≠ .events l) → Endures k (some b) (some .terminated)
  | hears {l rest : EventList} : rest.choice = l.choice → rest.timeout = l.timeout →
      (∀ e ∈ rest.events, e ∈ l.events) → (∀ e ∈ l.events, e ∈ rest.events ∨ .notified e ∈ k) →
      Endures k (some (.events l)) (some (.events rest))
  | met {l : EventList} {e : Event} : e ∈ l.events → .notified e ∈ k →
      (l.choice = false → ∀ e ∈ l.events, .notified e ∈ k) → Endures k (some (.events l)) none

namespace Blocker.Endures

variable {k k' : History} {w w' w'' : Option Blocker}

theorem trans (first : Endures k w w') (next : Endures k' w' w'') : Endures (k' ++ k) w w'' := by
  have early : ∀ {e : Event}, .notified e ∈ k → .notified e ∈ k' ++ k := List.mem_append_right _
  have late : ∀ {e : Event}, .notified e ∈ k' → .notified e ∈ k' ++ k := List.mem_append_left _
  cases first with
  | same =>
      cases next with
      | same => exact .same
      | ended silent => exact .ended silent
      | hears choice timeout old told =>
          exact .hears choice timeout old fun e he => (told e he).imp_right late
      | met he notified all => exact .met he (late notified) fun each e he => late (all each e he)
  | ended silent =>
      cases next with
      | same => exact .ended silent
      | ended _ => exact .ended silent
  | @hears l m choice timeout old told =>
      cases next with
      | same => exact .hears choice timeout old fun e he => (told e he).imp_right early
      | ended silent => exact absurd rfl (silent _)
      | hears choice' timeout' old' told' =>
          refine .hears (choice'.trans choice) (timeout'.trans timeout) (fun e he => old e (old' e he))
            fun e he => ?_
          rcases told e he with left | notified
          · exact (told' e left).imp_right late
          · exact .inr (early notified)
      | met he notified all =>
          refine .met (old _ he) (late notified) fun each e he => ?_
          rcases told e he with left | notified
          · exact late (all (choice.trans each) e left)
          · exact early notified
  | met he notified all =>
      cases next with
      | same => exact .met he (early notified) fun each e he => early (all each e he)

/-- Who waits for a delay, or has come to an end, is not resumed. -/
theorem asleep {b : Blocker} (h : Endures k (some b) w) (silent : ∀ l, b ≠ .events l) :
    w = some b ∨ w = some .terminated := by
  cases h with
  | same => exact .inl rfl
  | ended _ => exact .inr rfl
  | hears _ _ _ _ => exact absurd rfl (silent _)
  | met _ _ _ => exact absurd rfl (silent _)

/-- An event that is notified at once is heard. -/
theorem hear (e : Event) (w : Option Blocker) : Endures [.notified e] w (Blocker.hear [e] w) := by
  cases w with
  | none => exact .same
  | some b =>
      cases b with
      | terminated | delay d => exact .same
      | events l =>
          rcases hear_cases [e] l with ⟨none, ⟨e', he, notified⟩, all⟩ | ⟨rest, some, choice, timeout, mem, -⟩
          · rw [none]
            obtain rfl := List.mem_singleton.1 notified
            exact .met he List.mem_cons_self fun each e he => by simp [List.mem_singleton.1 (all each e he)]
          · rw [some]
            refine .hears choice timeout (fun e he => ((mem e).1 he).1) fun e' he => ?_
            by_cases notified : e' ∈ [e]
            · obtain rfl := List.mem_singleton.1 notified
              exact .inr List.mem_cons_self
            · exact .inl ((mem e').2 ⟨he, notified⟩)

end Blocker.Endures

namespace Simulator

/-- What code that tells `k` does to waits other than that of the running process and to pending
notifications, once no time passes: a notification is pending only if it was before or the code planned it. -/
structure Abides (s : Simulator) (running : Option Nat) (k : History) (st st' : State) : Prop where
  waits : ∀ p ∈ s.procs, some p.index ≠ running → ∀ w, st.waitOf? p.index = some w →
    ∃ w', st'.waitOf? p.index = some w' ∧ Blocker.Endures k w w'
  pending : ∀ e d, st'.pendingOf e = some d → st.pendingOf e = some d ∨ .planned e d ∈ k
  stopped : st.global.stopped = true → st'.global.stopped = true

variable {s : Simulator} {running : Option Nat} {k k' : History} {st st' st'' : State} {t r : Transition}

namespace Abides

theorem still (stopped : st'.global.stopped = st.global.stopped)
    (pending : st'.global.pending = st.global.pending)
    (waits : ∀ i, some i ≠ running → st'.waitOf? i = st.waitOf? i) : s.Abides running k st st' where
  waits p _ other w hw := ⟨w, (waits p.index other).trans hw, .same⟩
  pending e d hd := .inl (by rwa [State.pendingOf, pending] at hd)
  stopped := by rw [stopped]; exact id

theorem refl (st : State) : s.Abides running k st st := still rfl rfl fun _ _ => rfl

theorem trans (first : s.Abides running k st st') (next : s.Abides running k' st' st'') :
    s.Abides running (k' ++ k) st st'' where
  waits p hp other w hw := by
    obtain ⟨w', hw', endures⟩ := first.waits p hp other w hw
    obtain ⟨w'', hw'', endures'⟩ := next.waits p hp other w' hw'
    exact ⟨w'', hw'', endures.trans endures'⟩
  pending e d hd := by
    rcases next.pending e d hd with before | planned
    · exact (first.pending e d before).imp_right (List.mem_append_right _)
    · exact .inr (List.mem_append_left _ planned)
  stopped h := next.stopped (first.stopped h)

theorem of_continues (h : s.Continues [] t r) : s.Abides (t.proc.map (·.index)) k t.state r.state where
  waits p hp other w hw := by
    have same := h.undergoes.waits p hp other
    rw [hw] at same
    exact ⟨w, same, .same⟩
  pending e d hd := by
    rw [h.undergoes.pending e] at hd
    exact .inl hd
  stopped := by rw [h.undergoes.stopped]; exact id

/-- A notification of an event, at once or later. -/
theorem notify (apart : s.Apart) {e : Event} {delay : Option Delay}
    (hr : (s.notify t e delay).result = .ok r) :
    r.proc = t.proc ∧ s.Abides (t.proc.map (·.index)) [notice e delay] t.state r.state := by
  obtain ⟨-, rfl⟩ | ⟨d, rfl, rfl⟩ | ⟨rfl, told⟩ := notify_cases hr
  · exact ⟨rfl, .refl _⟩
  · refine ⟨rfl, fun p hp other w hw => ⟨w, hw, .same⟩, fun e' d' hd' => ?_, ?_⟩
    · have set := t.state.global.get?_setPending e e'
        (Delay.earlier (t.state.global.pending.get? e) (some d))
      have hd' := set.symm.trans hd'
      split at hd'
      · rename_i same
        subst same
        rcases Delay.earlier_cases hd' with before | planned
        · exact .inl before
        · obtain rfl := Option.some.inj planned
          exact .inr List.mem_cons_self
      · exact .inl hd'
    · exact fun stopped => GlobalState.stopped_setPending.trans stopped
  · have nodup : ((s.procs.filter fun p => some p.index ≠ t.proc.map (·.index)).map (·.index)).Nodup :=
      apart.sublist (List.filter_sublist.map _)
    have heard := notifyProcesses_rewaits nodup told
    have global : r.state.global = t.state.global.setPending e none := heard.global
    refine ⟨heard.proc, fun p hp other w hw => ?_, fun e' d' hd' => ?_, fun stopped => ?_⟩
    · have waits := heard.waits p.index
      have hw : ((t.mapGlobal (·.setPending e none)).state.waitOf? p.index) = some w := hw
      rw [hw] at waits
      split at waits
      · exact ⟨_, waits, .hear e w⟩
      · exact ⟨w, waits, .same⟩
    · rw [State.pendingOf, global, GlobalState.get?_setPending] at hd'
      split at hd'
      · cases hd'
      · exact .inl hd'
    · rw [global]
      exact GlobalState.stopped_setPending.trans stopped

/-- A stop, where processes may finish the delta cycle. -/
theorem stop (delta : s.setup.stopMode = .delta) (t : Transition) :
    s.Abides (t.proc.map (·.index)) k t.state (s.stop t).state where
  waits p _ _ w hw := by
    obtain ⟨ps, hps, rfl⟩ := Option.map_eq_some_iff.1 hw
    have halted : ∃ ps', (s.stop t).state.procs[p.index]? = some ps' ∧
        Blocker.Endures k ps.blocker ps'.blocker := by
      refine ⟨_, (List.getElem?_map ..).trans (congrArg _ hps), ?_⟩
      rw [delta]
      cases hb : ps.blocker with
      | none => simp only [hb]; exact .same
      | some b =>
          cases b with
          | events l => simp only [hb]; exact .same
          | terminated | delay d => simp only [hb]; exact .ended (by simp)
    obtain ⟨ps', hps', endures⟩ := halted
    exact ⟨ps'.blocker, Option.map_eq_some_iff.2 ⟨ps', hps', rfl⟩, endures⟩
  pending e d hd := by cases hd
  stopped _ := rfl

end Abides

theorem notifyStep_abides (apart : s.Apart) {top : Frame} {e target : Expr} {delays : List Expr}
    {st : SmallStep} (hst : (s.notifyStep t top e target delays).result = .ok st) (hr : r ∈ st.results) :
    s.Abides (t.proc.map (·.index)) (noticesOf top e delays) t.state r.state := by
  unfold noticesOf
  obtain ⟨early, rfl⟩ | ⟨late, event, delay, u, hevent, hdelay, hu, rfl⟩ := notifyStep_cases hst
  · obtain rfl := List.mem_singleton.1 hr
    rw [if_pos early]
    exact .of_continues (.mapRunning _)
  · obtain rfl := List.mem_singleton.1 hr
    obtain ⟨proc, notified⟩ := Abides.notify apart hu
    have finish : s.Continues [] u (u.finish s.program.system .unknown) := .finish _ _
    have rest : s.Abides (u.proc.map (·.index)) [] u.state (u.finish s.program.system .unknown).state :=
      .of_continues finish
    rw [proc] at rest
    rw [if_neg late, hevent, hdelay]
    exact notified.trans rest

section Steps

variable (apart : s.Apart) (delta : s.setup.stopMode = .delta)

include apart delta

theorem advance_abides {st : SmallStep} (hst : (s.advance t).result = .ok st) (hr : r ∈ st.results) :
    s.Abides (t.proc.map (·.index)) (s.notices t) t.state r.state := by
  obtain ⟨ps, top, -, htop, ⟨-, rfl⟩ | ⟨i, up, e, sc, -, hexpr, -, hst⟩⟩ := advance_cases hst
  · exact .of_continues (s.bodyStep_evolves .refl top r hr).1.continues
  · by_cases quiet : ∀ id target delays, e ≠ .notify id target delays
    · by_cases goes : ∀ id, e ≠ .stop id
      · exact .of_continues (t := { t with scratch := sc })
          (s.exprStep_evolves .refl ps top quiet goes st hst r hr).1.continues
      · simp only [ne_eq, not_forall, not_not] at goes
        obtain ⟨id, rfl⟩ := goes
        obtain rfl := Run.pure_result_iff.1 hst
        obtain rfl := List.mem_singleton.1 hr
        let u := { t with scratch := sc }
        have finish : s.Continues [] u (u.finish s.program.system .unknown) := .finish _ _
        have stopped := Abides.stop (k := []) delta (u.finish s.program.system .unknown)
        rw [finish.proc] at stopped
        exact (Abides.of_continues finish).trans stopped
    · simp only [ne_eq, not_forall, not_not] at quiet
      obtain ⟨id, target, delays, rfl⟩ := quiet
      have told : s.notices t = noticesOf top (.notify id target delays) delays := by
        simp only [notices, htop, hexpr]
      exact told ▸ notifyStep_abides apart (t := { t with scratch := sc }) hst hr

/-- What a small step does to other processes and to pending notifications. -/
theorem smallStep_abides {st : SmallStep} (hst : (s.smallStep t).result = .ok st) (hr : r ∈ st.results) :
    s.Abides (t.proc.map (·.index)) (s.notices t) t.state r.state := by
  obtain ⟨st₀, rs, r₀, hadv, hr₀, -, same, rfl⟩ := smallStep_mem hst hr
  have state : r.state = r₀.state := by rw [same]
  exact state ▸ advance_abides apart delta (t := t.resetAccesses) hadv hr₀

/-- What running code does. -/
theorem Tells.abides {start : Transition} {b : Bool} (h : s.Tells start b k r) :
    s.Abides (start.proc.map (·.index)) k start.state r.state := by
  induction h with
  | start => exact .refl _
  | step hk hst hr ih =>
      have next := smallStep_abides apart delta hst hr
      rw [hk.proc] at next
      exact ih.trans next
  | merge _ ih => exact ih

/-- What update routines do. No process runs them. -/
theorem TellsUpdates.abides {is : List Instance} {u : Transition} (h : s.TellsUpdates is t k u)
    (unowned : t.proc = none) : s.Abides none k t.state u.state := by
  induction h with
  | nil => exact .refl _
  | @cons i is c f t start e u k k' _ _ begins hk _ ih =>
      obtain ⟨info, -, rfl⟩ := Success.map_iff.1 begins
      have code := hk.abides apart delta
      have running : (t.beforeUpdate i f).proc.map (·.index) = none := by
        rw [show (t.beforeUpdate i f).proc = none from unowned]
        rfl
      rw [running] at code
      have before : s.Abides none [] t.state (t.beforeUpdate i f).state := .still rfl rfl fun _ _ => rfl
      have after : s.Abides none [] e.state e.afterUpdate.state := .still rfl rfl fun _ _ => rfl
      have through := ((before.trans code).trans after).trans (ih (hk.proc.trans unowned))
      rwa [List.append_nil] at through

end Steps

/-- A transition of the stopped simulation: a ready process runs code, or update routines run. Whatever else
changes in the state is told by this code; no time passes. -/
inductive Coasts (s : Simulator) (st : State) : State → Prop
  | step {ps : List Process} {p : Process} {start e : Transition} {k : History} : s.ready st = .ok ps →
      p ∈ ps → s.begin? p st = .ok start → s.Tells start true k e →
      s.Abides (some p.index) k st e.state → Coasts s st e.state
  | ending {u : Transition} {k : History} : s.TellsUpdates st.global.updates (s.beginEnd st) k u →
      s.Abides none k st u.state → Coasts s st u.state

/-- The end of an evaluation phase leaves a stopped simulation to its update routines. -/
theorem advanceTime_stopped (ht : t.state.global.stopped = true) (hr : (s.advanceTime t).result = .ok r) :
    r = t := by
  unfold advanceTime at hr
  rw [if_pos ht] at hr
  exact (Run.pure_result_iff.1 hr).symm

theorem successors_of_immediate (stopped : st.global.stopped = true) (immediate : s.setup.stopMode = .immediate) :
    (s.successors st).result = .ok ⟨[], []⟩ := by
  have halted : s.isHalted st = true := by simp [isHalted, stopped, immediate]
  have busy : s.canEnd st = false := by simp [canEnd, halted]
  have none : s.ready st = .ok [] := if_pos halted
  simp only [successors, busy, none]
  rfl

theorem coasts_of_successors (stopped : st.global.stopped = true) (apart : s.Apart)
    (delta : s.setup.stopMode = .delta) {found : Successors}
    (hfound : (s.successors st).result = .ok found) (hr : r ∈ found.transitions) : s.Coasts st r.state := by
  rcases successors_mem hfound hr with ⟨-, ts, hts, hr⟩ | ⟨ps, hps, p, hp, ts, hts, hr⟩
  · obtain ⟨runs, u, v, hruns, hadvance, state, -⟩ := endEvaluation_cases hts hr
    obtain ⟨k, hk⟩ := exists_tellsUpdates hruns
    have updates := hk.abides apart delta rfl
    have begun : s.Abides none [] st (s.beginEnd st).state := .still rfl rfl fun _ _ => rfl
    have abides := begun.trans updates
    rw [List.append_nil] at abides
    obtain rfl := advanceTime_stopped (abides.stopped stopped) hadvance
    exact state ▸ .ending hk abides
  · obtain ⟨start, ended, hbegin, hrun, hfin⟩ := makeStep_cases hts
    obtain ⟨e, he, state, -⟩ := finalize_mem hfin hr
    obtain ⟨k, hk⟩ := exists_tells_of_run ⟨ended, hrun, he⟩
    have abides := hk.abides apart delta
    obtain ⟨proc, begun⟩ := begin?_start hbegin
    rw [proc, begun] at abides
    exact state ▸ .step hps hp hbegin hk abides

/-- A process that waits for a delay, or has come to an end. -/
def Sleeps (st : State) (p : Process) : Prop :=
  ∃ b, st.waitOf? p.index = some (some b) ∧ ∀ l, b ≠ .events l

/-- Who sleeps is not ready. -/
theorem Sleeps.not_ready {p : Process} {ps : List Process} (h : Sleeps st p) (hps : s.ready st = .ok ps) :
    p ∉ ps := by
  intro hp
  obtain ⟨b, hb, silent⟩ := h
  obtain ⟨-, q, hq, ready⟩ := ready_mem hps hp
  obtain ⟨q', hq', same⟩ := Option.map_eq_some_iff.1 hb
  obtain rfl := Option.some.inj (hq.symm.trans hq')
  unfold isReady at ready
  rw [same] at ready
  cases b with
  | events l => exact silent l rfl
  | terminated | delay d => cases ready

/-- Who sleeps goes on to do so, at most until another stop ends the process. -/
theorem Abides.sleeps {p : Process} (h : s.Abides running k st st') (hp : p ∈ s.procs)
    (other : some p.index ≠ running) (sleeps : Sleeps st p) : Sleeps st' p ∧
      (st'.waitOf? p.index = st.waitOf? p.index ∨ st'.waitOf? p.index = some (some .terminated)) := by
  obtain ⟨b, hb, silent⟩ := sleeps
  obtain ⟨w, hw, endures⟩ := h.waits p hp other _ hb
  rcases endures.asleep silent with rfl | rfl
  · exact ⟨⟨b, hw, silent⟩, .inl (hw.trans hb.symm)⟩
  · exact ⟨⟨.terminated, hw, by simp⟩, .inr hw⟩

theorem Coasts.stopped (h : s.Coasts st st') (stopped : st.global.stopped = true) :
    st'.global.stopped = true := by
  cases h with
  | step _ _ _ _ abides => exact abides.stopped stopped
  | ending _ abides => exact abides.stopped stopped

theorem Coasts.sleeps (h : s.Coasts st st') {p : Process} (hp : p ∈ s.procs)
    (sleeps : Sleeps st p) : Sleeps st' p ∧
      (st'.waitOf? p.index = st.waitOf? p.index ∨ st'.waitOf? p.index = some (some .terminated)) := by
  cases h with
  | @step ps q _ _ _ hps hq _ _ abides =>
      refine abides.sleeps hp (fun same => ?_) sleeps
      obtain ⟨b, hb, silent⟩ := sleeps
      have asleep : Sleeps st q := ⟨b, Option.some.inj same ▸ hb, silent⟩
      exact asleep.not_ready hps hq
  | ending _ abides => exact abides.sleeps hp (by simp) sleeps

/-- A stop is final. Whatever state is reached from one in which the simulation was stopped, it is still
stopped. If a stop ends all at once, nothing leads on from there. If processes may finish the delta cycle, those
that wait for a delay go on to do so or come to an end, and are not ready; and every transition is one of code
that tells all that becomes of other waits and of pending notifications. -/
theorem stop_final {sys : System} {setup : Setup} (made : make sys setup = .ok s)
    (stopped : st.global.stopped = true) (later : s.Reachable st st') :
    st'.global.stopped = true ∧
    (setup.stopMode = .immediate → (s.successors st').result = .ok ⟨[], []⟩) ∧
    (setup.stopMode = .delta →
      (∀ p ∈ s.procs, Sleeps st p → (st'.waitOf? p.index = st.waitOf? p.index ∨
        st'.waitOf? p.index = some (some .terminated)) ∧ ∀ ps, s.ready st' = .ok ps → p ∉ ps) ∧
      ∀ found r, (s.successors st').result = .ok found → r ∈ found.transitions → s.Coasts st' r.state) := by
  have apart := (placed_of_make made).apart
  have mode : s.setup.stopMode = setup.stopMode := by
    obtain ⟨-, rfl⟩ := make_cases made
    rfl
  rw [← mode]
  -- Along the way the simulation stays stopped, so that every transition is one of code.
  have along : st'.global.stopped = true ∧ (s.setup.stopMode = .delta → ∀ p ∈ s.procs, Sleeps st p →
      Sleeps st' p ∧ (st'.waitOf? p.index = st.waitOf? p.index ∨
        st'.waitOf? p.index = some (some .terminated))) := by
    induction later with
    | start => exact ⟨stopped, fun _ p _ sleeps => ⟨sleeps, .inl rfl⟩⟩
    | @step st' found t _ hfound ht ih =>
        obtain ⟨stopped', asleep⟩ := ih
        cases hmode : s.setup.stopMode with
        | immediate =>
            rw [successors_of_immediate stopped' hmode] at hfound
            obtain rfl := Except.ok.inj hfound
            cases ht
        | delta =>
            have coasts := coasts_of_successors stopped' apart hmode hfound ht
            refine ⟨coasts.stopped stopped', fun _ p hp sleeps => ?_⟩
            obtain ⟨sleeps', same⟩ := asleep hmode p hp sleeps
            obtain ⟨sleeps'', same'⟩ := coasts.sleeps hp sleeps'
            refine ⟨sleeps'', ?_⟩
            rcases same' with kept | ended
            · rwa [kept]
            · exact .inr ended
  obtain ⟨stopped', asleep⟩ := along
  refine ⟨stopped', successors_of_immediate stopped', fun delta => ⟨fun p hp sleeps => ?_, fun found r hfound hr =>
    coasts_of_successors stopped' apart delta hfound hr⟩⟩
  obtain ⟨sleeps', same⟩ := asleep delta p hp sleeps
  exact ⟨same, fun ps hps => sleeps'.not_ready hps⟩

/-- The state that the transition with the given number leads to. -/
def choose (s : Simulator) (st : State) (n : Nat) : Option State := do
  let found ← (s.successors st).result.toOption
  let t ← found.transitions[n]?
  some t.state

theorem Reachable.choose {first : State} {n : Nat} (h : s.Reachable first st) (chosen : s.choose st n = some st') :
    s.Reachable first st' := by
  obtain ⟨found, hfound, chosen⟩ := Option.bind_eq_some_iff.1 chosen
  obtain ⟨t, ht, chosen⟩ := Option.bind_eq_some_iff.1 chosen
  obtain rfl := Option.some.inj chosen
  exact h.step (Success.toOption_iff.1 hfound) (List.mem_of_getElem? ht)

theorem Reachable.choices {first : State} {ns : List Nat} (h : s.Reachable first st)
    (chosen : ns.foldlM s.choose st = some st') : s.Reachable first st' := by
  induction ns generalizing st with
  | nil => exact Option.some.inj chosen ▸ h
  | cons n ns ih =>
      obtain ⟨next, hnext, chosen⟩ := Option.bind_eq_some_iff.1 chosen
      exact ih (h.choose hnext) chosen

end Simulator

namespace Examples

/-- One thread stops the simulation. Of the others, one sleeps before, one goes to sleep after that, one waits for
the bell, and one rings it, lets it ring once more later, and sleeps then. -/
def closing : System := single [] ["e"]
  [⟨"stopper", [.stop 0], [], false⟩,
   ⟨"sleeper", [wait (nanoseconds 5)], [], false⟩,
   ⟨"napper", [wait (nanoseconds 3)], [], false⟩,
   ⟨"listener", [wait [.event 0 "e"]], [], false⟩,
   ⟨"ringer", [.notify 0 (.event 0 "e") [], .notify 0 (.event 0 "e") (nanoseconds 3), wait (nanoseconds 1)],
     [], false⟩]

end Examples

open Examples Simulator in
/-- The stopper comes after the sleeper and the listener, the napper and the ringer come after the stop. Only the
listener is resumed. -/
theorem stop_final_closing : ∃ s first st st',
    make closing ⟨.none, .delta, fun _ => true, fun _ => true⟩ = .ok s ∧ s.initial = .ok first ∧
    s.Reachable first st ∧ s.Reachable st st' ∧ st.global.stopped = true ∧
    st.procs.map (·.blocker) = [some .terminated, some .terminated, some (.delay (.time 3000000)),
      some (.events ⟨[bell], true, none⟩), none] ∧
    st'.procs.map (·.blocker) = [some .terminated, some .terminated, some (.delay (.time 3000000)), none,
      some (.delay (.time 1000000))] ∧
    st'.pendingOf bell = some (.time 3000000) ∧ st'.global.stopped = true ∧
    (∀ p ∈ s.procs, Sleeps st p → (st'.waitOf? p.index = st.waitOf? p.index ∨
      st'.waitOf? p.index = some (some .terminated)) ∧ ∀ ps, s.ready st' = .ok ps → p ∉ ps) ∧
    ∀ found r, (s.successors st').result = .ok found → r ∈ found.transitions → s.Coasts st' r.state := by
  obtain ⟨s, made, h⟩ := Success.exists_of_yields
    (x := make closing ⟨.none, .delta, fun _ => true, fun _ => true⟩)
    (c := fun s => Success.yields s.initial fun first => ([1, 2, 0, 0].foldlM s.choose first).any fun st =>
      (s.choose st 0).any fun st' => st.global.stopped &&
        st.procs.map (·.blocker) = [some .terminated, some .terminated, some (.delay (.time 3000000)),
          some (.events ⟨[bell], true, none⟩), none] &&
        st'.procs.map (·.blocker) = [some .terminated, some .terminated, some (.delay (.time 3000000)), none,
          some (.delay (.time 1000000))] && st'.pendingOf bell = some (.time 3000000)) (by decide +kernel)
  obtain ⟨first, start, h⟩ := Success.exists_of_yields h
  obtain ⟨st, before, h⟩ := (Option.any_eq_true _ _).1 h
  obtain ⟨st', after, h⟩ := (Option.any_eq_true _ _).1 h
  simp only [Bool.and_eq_true, decide_eq_true_eq] at h
  obtain ⟨⟨⟨stopped, waits⟩, waits'⟩, pending⟩ := h
  have reached : s.Reachable first st := Reachable.start.choices before
  have later : s.Reachable st st' := Reachable.start.choose after
  obtain ⟨stopped', -, goes⟩ := stop_final made stopped later
  obtain ⟨asleep, coasts⟩ := goes rfl
  exact ⟨s, first, st, st', made, start, reached, later, stopped, waits, waits', pending, stopped', asleep, coasts⟩

end DeltaSlice

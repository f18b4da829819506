import DeltaSlice.Proofs.Model.Numbered
import DeltaSlice.Proofs.Step.Observed
import DeltaSlice.Proofs.Waits.Histories
import DeltaSlice.Proofs.Table
import DeltaSlice.Simulator.Cycle

/-!
What the end of an evaluation phase does to waits and pending notifications: every wait and every pending
notification becomes what the happening of this end makes of it.
-/

namespace DeltaSlice

/-- The same wait with another delay. -/
def Blocker.withTimeout (b : Blocker) (d : Delay) : Blocker :=
  match b with
  | events l => events (l.withTimeout (some d))
  | _ => delay d

namespace Happening

variable {x : Happening} {b : Blocker} {w : Option Blocker} {d rest : Delay}

theorem lapse_over (left : Blocker.timeout? (some b) = some d) (past : x.delayAfter d = none) :
    x.lapse (some b) = none := by
  cases b with
  | terminated => cases left
  | delay d' =>
      obtain rfl : d' = d := Option.some.inj left
      simp [lapse, past]
  | events l =>
      have left : l.timeout = some d := left
      simp [lapse, left, past]

theorem lapse_rest (left : Blocker.timeout? (some b) = some d) (more : x.delayAfter d = some rest) :
    x.lapse (some b) = some (b.withTimeout rest) := by
  cases b with
  | terminated => cases left
  | delay d' =>
      obtain rfl : d' = d := Option.some.inj left
      simp [lapse, more, Blocker.withTimeout]
  | events l =>
      have left : l.timeout = some d := left
      simp [lapse, left, more, Blocker.withTimeout]

theorem lapse_same (same : ∀ d, Blocker.timeout? w = some d → x.delayAfter d = some d) :
    x.lapse w = w := by
  cases w with
  | none => rfl
  | some b =>
      cases b with
      | terminated => rfl
      | delay d => simp [lapse, same d rfl]
      | events l =>
          cases ht : l.timeout with
          | none => simp [lapse, ht]
          | some d =>
              have kept : l.withTimeout (some d) = l := by rw [← ht]; rfl
              simp [lapse, ht, same d ht, kept]

theorem delayAfter_time {passed : Int64} {due due' : List Event} :
    (time passed due).delayAfter = (time passed due').delayAfter := by
  funext d
  cases d <;> rfl

/-- Delays last while no time passes and no delta cycle begins. -/
theorem waitAfter_within (lasts : ∀ d, x.delayAfter d = some d) :
    x.waitAfter w = Blocker.hear x.due w := lapse_same fun d _ => lasts d

/-- Whether a wait is for events. -/
def listens : Option Blocker → Bool
  | some (.events _) => true
  | _ => false

theorem hear_deaf {notified : List Event} (deaf : listens w = false) : Blocker.hear notified w = w := by
  cases w with
  | none => rfl
  | some b =>
      cases b with
      | events l => cases deaf
      | _ => rfl

/-- A delta cycle ends what waits for it and is heard by the rest. -/
theorem waitAfter_cycle {due : List Event} : (cycle due).waitAfter w =
    if Blocker.timeout? w = some .delta then none else Blocker.hear due w := by
  have kept := Blocker.timeout?_hear w due
  rw [waitAfter, Happening.due]
  cases hb : Blocker.hear due w with
  | none => simp [lapse]
  | some b =>
      rw [hb] at kept
      have kept := kept.resolve_left (by simp)
      split
      · rename_i ends
        exact lapse_over (kept.trans ends) rfl
      · rename_i goes
        refine lapse_same fun d hd => ?_
        cases d with
        | delta => exact absurd (kept.symm.trans hd) goes
        | time r => rfl

/-- Time that passes is taken from what waits for a time, and is heard by all. -/
theorem waitAfter_time {passed : Int64} {due : List Event} : (time passed due).waitAfter w =
    if Simulator.isTime (Blocker.timeout? w) then (time passed due).lapse (Blocker.hear due w)
    else Blocker.hear due w := by
  have kept := Blocker.timeout?_hear w due
  rw [waitAfter, Happening.due]
  split
  · rfl
  · rename_i untimed
    cases hb : Blocker.hear due w with
    | none => rfl
    | some b =>
        rw [hb] at kept
        have kept := kept.resolve_left (by simp)
        refine lapse_same fun d hd => ?_
        cases d with
        | delta => rfl
        | time r => exact absurd (by rw [← kept, hd]; rfl) untimed

end Happening

/-- What a process of a state waits for, if there is such a process. -/
def State.waitOf? (st : State) (i : Nat) : Option (Option Blocker) := st.procs[i]?.map (·.blocker)

/-- The pending notification of an event. -/
def State.pendingOf (st : State) (e : Event) : Option Delay := st.global.pending.get? e

theorem State.waitOf?_setProc (st : State) (i j : Nat) (ps : ProcessState) :
    (st.setProc i ps).waitOf? j =
      if j = i then (st.waitOf? j).map fun _ => ps.blocker else st.waitOf? j := by
  unfold waitOf? setProc
  by_cases same : j = i
  · subst same
    cases h : st.procs[j]? <;> simp [List.getElem?_set_self', h]
  · simp [List.getElem?_set_ne (Ne.symm same), same]

/-- The waits of the given processes change, and nothing else that belongs to the scheduler. -/
structure Rewaits (f : Option Blocker → Option Blocker) (is : List Nat) (t r : Transition) : Prop where
  proc : r.proc = t.proc
  global : r.state.global = t.state.global
  waits : ∀ i, r.state.waitOf? i =
    if i ∈ is then (t.state.waitOf? i).map f else t.state.waitOf? i

namespace Rewaits

variable {f : Option Blocker → Option Blocker} {is : List Nat} {i : Nat} {t u r : Transition}

theorem nil (t : Transition) : Rewaits f [] t t := ⟨rfl, rfl, by simp⟩

/-- One process after the other. -/
theorem cons (first : Rewaits f [i] t u) (rest : Rewaits f is u r) (fresh : i ∉ is) :
    Rewaits f (i :: is) t r where
  proc := rest.proc.trans first.proc
  global := rest.global.trans first.global
  waits j := by
    rw [rest.waits, first.waits]
    by_cases same : j = i
    · simp [same, fresh]
    · simp [same]

/-- A process whose wait is as it should be is left alone. -/
theorem keep {ps : ProcessState} (found : t.state.procs[i]? = some ps) (same : f ps.blocker = ps.blocker) :
    Rewaits f [i] t t where
  proc := rfl
  global := rfl
  waits j := by
    split
    · rename_i listed
      obtain rfl := List.mem_singleton.1 listed
      simp [State.waitOf?, found, same]
    · rfl

theorem block {p : Process} {ps : ProcessState} {w : Option Blocker} {i : Info}
    (found : t.state.procs[p.index]? = some ps) (becomes : f ps.blocker = w) :
    Rewaits f [p.index] t { t.setProc p (ps.block w) with info := i } where
  proc := rfl
  global := rfl
  waits j := by
    have waits := t.state.waitOf?_setProc p.index j (ps.block w)
    refine waits.trans ?_
    by_cases same : j = p.index
    · subst same
      simp [State.waitOf?, found, ProcessState.block, becomes]
    · simp [same]

end Rewaits

namespace Simulator

variable {s : Simulator} {t r : Transition}

theorem notifyProcess_rewaits {p : Process} {notified : List Event}
    (hr : (s.notifyProcess t p notified).result = .ok r) :
    Rewaits (Blocker.hear notified) [p.index] t r := by
  cases notifyProcess_cases hr with
  | deaf found same => exact .keep found same
  | hears found => exact .block found rfl

theorem notifyProcesses_rewaits {ps : List Process} {notified : List Event}
    (nodup : (ps.map (·.index)).Nodup) (hr : (s.notifyProcesses t notified ps).result = .ok r) :
    Rewaits (Blocker.hear notified) (ps.map (·.index)) t r := by
  induction ps generalizing t with
  | nil =>
      obtain rfl := Run.pure_result_iff.1 hr
      exact .nil t
  | cons p ps ih =>
      obtain ⟨fresh, nodup⟩ := List.nodup_cons.1 nodup
      obtain ⟨u, hu, hr⟩ := Run.bind_result_iff.1 hr
      exact (notifyProcess_rewaits hu).cons (ih nodup hr) fresh

theorem wakeDelta_rewaits {ps : List Process} (nodup : (ps.map (·.index)).Nodup)
    (hr : (s.wakeDelta t ps).result = .ok r) :
    Rewaits (fun _ => none) (ps.map (·.index)) t r := by
  induction ps generalizing t with
  | nil =>
      obtain rfl := Run.pure_result_iff.1 hr
      exact .nil t
  | cons p ps ih =>
      obtain ⟨fresh, nodup⟩ := List.nodup_cons.1 nodup
      unfold wakeDelta at hr
      cases hq : t.state.procs[p.index]? with
      | none =>
          simp only [hq] at hr
          cases hr
      | some q =>
          simp only [hq] at hr
          split at hr
          · rename_i ready
            exact (Rewaits.keep hq (Option.isNone_iff_eq_none.1 ready).symm).cons (ih nodup hr) fresh
          · obtain ⟨_, -, hr⟩ := Run.bind_result_iff.1 hr
            have first : Rewaits (fun _ => none) [p.index] t (t.setProc p (q.block none)) :=
              .block (i := t.info) hq rfl
            exact first.cons (ih nodup hr) fresh

theorem remaining_ok {r passed d : Int64} (h : Delay.remaining r passed = .ok d) : d = r - passed := by
  unfold Delay.remaining at h
  split at h
  · cases h
  · exact (Except.ok.inj h).symm

theorem passProcesses_rewaits {ps : List Process} {passed : Int64} (due : List Event)
    (nodup : (ps.map (·.index)).Nodup) (hr : (s.passProcesses passed t ps).result = .ok r) :
    Rewaits (Happening.time passed due).lapse (ps.map (·.index)) t r := by
  induction ps generalizing t with
  | nil =>
      obtain rfl := Run.pure_result_iff.1 hr
      exact .nil t
  | cons p ps ih =>
      obtain ⟨fresh, nodup⟩ := List.nodup_cons.1 nodup
      unfold passProcesses at hr
      cases hq : t.state.procs[p.index]? with
      | none =>
          simp only [hq] at hr
          cases hr
      | some q =>
          simp only [hq] at hr
          split at hr
          · rename_i ready
            exact (Rewaits.keep hq (by rw [ready]; rfl)).cons (ih nodup hr) fresh
          · rename_i b w waits left
            have left : Blocker.timeout? (some b) = some (.time w) := by rw [← waits]; exact left
            split at hr
            · rename_i past
              obtain ⟨_, -, hr⟩ := Run.bind_result_iff.1 hr
              have ends : (Happening.time passed due).lapse (some b) = none :=
                Happening.lapse_over left (if_pos past)
              have first : Rewaits (Happening.time passed due).lapse [p.index] t
                  (t.setProc p (q.block none)) := .block (i := t.info) hq (by rw [waits, ends])
              exact first.cons (ih nodup hr) fresh
            · rename_i more
              obtain ⟨d, hd, hr⟩ := Run.bind_result_iff.1 hr
              obtain rfl := remaining_ok (Run.ofFault_result_iff.1 hd)
              have goes := Happening.lapse_rest (x := .time passed due) left (if_neg more)
              have first : Rewaits (Happening.time passed due).lapse [p.index] t
                  (t.setProc p (q.block (some (b.withTimeout (.time (w - passed)))))) :=
                .block (i := t.info) hq (by rw [waits, goes])
              refine first.cons (ih nodup ?_) fresh
              cases b <;> exact hr
          · cases hr

end Simulator

namespace GlobalState

variable {g g' : GlobalState} {e e' : Event} {d : Option Delay}

/-- Every event has at most one pending notification. -/
def Single (g : GlobalState) : Prop := (g.pending.entries.map (·.1)).Nodup

theorem get?_setPending (g : GlobalState) (e e' : Event) (d : Option Delay) :
    (g.setPending e d).pending.get? e' = if e' = e then d else g.pending.get? e' := by
  cases d with
  | none => exact Table.get?_erase
  | some d => exact Table.get?_insert

theorem Single.setPending (single : g.Single) : (g.setPending e d).Single := by
  cases d with
  | none => exact Table.nodup_erase single
  | some d => exact Table.nodup_insert single

theorem stopped_setPending : (g.setPending e d).stopped = g.stopped := by
  cases d <;> rfl

theorem mem_pendingEvents : e ∈ g.pendingEvents ↔ ∃ d, g.pending.get? e = some d := by
  rw [pendingEvents, (sortByText_perm _ _).mem_iff, ← Option.ne_none_iff_exists', Ne, Table.get?_eq_none,
    not_not]
  rfl

theorem Single.pendingEvents (single : g.Single) : g.pendingEvents.Nodup :=
  (sortByText_perm _ _).nodup_iff.2 single

end GlobalState

/-- Pending notifications become what `f` says. -/
structure Replans (f : Event → Option Delay → Option Delay) (g g' : GlobalState) : Prop where
  stopped : g'.stopped = g.stopped
  single : g.Single → g'.Single
  pending : ∀ e, g'.pending.get? e = f e (g.pending.get? e)

namespace Simulator

variable {s : Simulator} {g g' : GlobalState} {passed : Int64}

/-- Notifications that are due are not pending any more. -/
theorem replans_due (due : List Event) :
    Replans (fun e n => if e ∈ due then none else n) g (due.foldl (fun g e => g.setPending e none) g) := by
  induction due generalizing g with
  | nil => exact ⟨rfl, id, by simp⟩
  | cons e due ih =>
      have first : (g.setPending e none).stopped = g.stopped := GlobalState.stopped_setPending
      refine ⟨ih.stopped.trans first, fun single => ih.single single.setPending, fun e' => ?_⟩
      rw [List.foldl_cons, ih.pending, GlobalState.get?_setPending]
      by_cases same : e' = e
      · simp [same]
      · simp [same]

/-- The pending notification of one event changes. -/
theorem replans_one {f : Event → Option Delay → Option Delay} {e : Event} {d : Option Delay}
    (becomes : f e (g.pending.get? e) = d) :
    Replans (fun e' n => if e' = e then f e n else n) g (g.setPending e d) where
  stopped := GlobalState.stopped_setPending
  single single := single.setPending
  pending e' := by
    rw [GlobalState.get?_setPending]
    by_cases same : e' = e
    · simp [same, becomes]
    · simp [same]

theorem passPending_replans {es due : List Event} (nodup : es.Nodup)
    (h : passPending passed g es = .ok (due, g')) :
    due = es.filter (fun e => g.pending.get? e = some (.time passed)) ∧
    Replans (fun e n => if e ∈ es then n.bind (Happening.time passed []).delayAfter else n) g g' := by
  induction es generalizing g due with
  | nil =>
      cases h
      exact ⟨rfl, rfl, id, by simp⟩
  | cons e es ih =>
      obtain ⟨fresh, nodup⟩ := List.nodup_cons.1 nodup
      have rest : ∀ {g₁ : GlobalState} {due : List Event},
          Replans (fun e' n => if e' = e then n.bind (Happening.time passed []).delayAfter else n) g g₁ →
          passPending passed g₁ es = .ok (due, g') →
          due = es.filter (fun e => g.pending.get? e = some (.time passed)) ∧
          Replans (fun e' n => if e' ∈ e :: es then n.bind (Happening.time passed []).delayAfter else n)
            g g' := by
        intro g₁ due first h
        obtain ⟨hdue, replans⟩ := ih nodup h
        refine ⟨?_, replans.stopped.trans first.stopped, fun single => replans.single (first.single single),
          fun e' => ?_⟩
        · rw [hdue]
          refine List.filter_congr fun e' he' => ?_
          have other : e' ≠ e := fun same => fresh (same ▸ he')
          simp [first.pending, other]
        · rw [replans.pending, first.pending]
          by_cases same : e' = e
          · simp [same, fresh]
          · simp [same]
      have kept : (g.pending.get? e).bind (Happening.time passed []).delayAfter = g.pending.get? e →
          Replans (fun e' n => if e' = e then n.bind (Happening.time passed []).delayAfter else n) g g := by
        intro same
        refine ⟨rfl, id, fun e' => ?_⟩
        split
        · rename_i own
          rw [own, same]
        · rfl
      unfold passPending at h
      split at h
      · rename_i r hn
        split at h
        · rename_i past
          obtain ⟨⟨later, g₁⟩, passes, heq⟩ := Success.map_iff.1 h
          obtain ⟨rfl, rfl⟩ := Prod.mk.inj heq
          have ends : (g.pending.get? e).bind (Happening.time passed []).delayAfter = none := by
            simp [hn, Happening.delayAfter, past]
          obtain ⟨rfl, replans⟩ := rest (replans_one (f := fun _ n => n.bind _) ends) passes
          exact ⟨by simp [hn, past], replans⟩
        · rename_i more
          split at h
          · rename_i d hd
            obtain rfl := remaining_ok hd
            have goes : (g.pending.get? e).bind (Happening.time passed []).delayAfter =
                some (.time (r - passed)) := by
              simp [hn, Happening.delayAfter, more]
            obtain ⟨rfl, replans⟩ := rest (replans_one (f := fun _ n => n.bind _) goes) h
            exact ⟨by simp [hn, more], replans⟩
          · cases h
      · rename_i untimed
        have same : (g.pending.get? e).bind (Happening.time passed []).delayAfter = g.pending.get? e := by
          cases hn : g.pending.get? e with
          | none => rfl
          | some d =>
              cases d with
              | delta => rfl
              | time r => exact absurd hn (untimed r)
        obtain ⟨rfl, replans⟩ := rest (kept same) h
        refine ⟨?_, replans⟩
        rw [List.filter_cons, if_neg (by simpa using untimed passed)]

/-- The earliest time of a list of delays, if it has a time. -/
structure Earliest (l : List (Option Delay)) (a : Option Delay) : Prop where
  le : ∀ r, some (.time r) ∈ l → ∃ d, a = some (.time d) ∧ d.toInt ≤ r.toInt
  mem : ∀ d, a = some d → ∃ r, d = .time r ∧ some (.time r) ∈ l

theorem Earliest.step {l : List (Option Delay)} {a : Option Delay} (h : Earliest l a) (b : Option Delay) :
    Earliest (l ++ [b]) (if isTime b then Delay.earlier a b else a) := by
  have old : isTime b = false → Earliest (l ++ [b]) a := by
    intro untimed
    refine ⟨fun r hr => h.le r ?_, fun d hd => ?_⟩
    · cases List.mem_append.1 hr with
      | inl hr => exact hr
      | inr hr => rw [← List.mem_singleton.1 hr] at untimed; cases untimed
    · obtain ⟨r, rfl, mem⟩ := h.mem d hd
      exact ⟨r, rfl, List.mem_append_left _ mem⟩
  cases b with
  | none => exact old rfl
  | some d =>
      cases d with
      | delta => exact old rfl
      | time w =>
          have here : some (.time w) ∈ l ++ [some (.time w)] := by simp
          -- Whatever was earliest before, the new time or one that is not later takes its place.
          have new : ∀ v, v.toInt ≤ w.toInt → some (.time v) ∈ l ++ [some (.time w)] →
              (∀ r, some (.time r) ∈ l → v.toInt ≤ r.toInt) →
              Earliest (l ++ [some (.time w)]) (some (.time v)) := by
            intro v le mem least
            refine ⟨fun r hr => ⟨v, rfl, ?_⟩, fun d hd => ⟨v, (Option.some.inj hd).symm, mem⟩⟩
            cases List.mem_append.1 hr with
            | inl hr => exact least r hr
            | inr hr =>
                obtain rfl : r = w := by simpa using hr
                exact le
          rw [isTime, if_pos rfl]
          cases a with
          | none =>
              refine new w (Int.le_refl _) here fun r hr => ?_
              obtain ⟨d, hd, -⟩ := h.le r hr
              cases hd
          | some d =>
              obtain ⟨v, rfl, mem⟩ := h.mem d rfl
              have least : ∀ r, some (.time r) ∈ l → v.toInt ≤ r.toInt := by
                intro r hr
                obtain ⟨d, hd, le⟩ := h.le r hr
                obtain rfl : v = d := by simpa using hd
                exact le
              rw [Delay.earlier]
              by_cases sooner : w < v
              · rw [if_pos sooner]
                have sooner := Int64.lt_iff_toInt_lt.1 sooner
                exact new w (Int.le_refl _) here fun r hr => by have := least r hr; omega
              · rw [if_neg sooner]
                have later : ¬ w.toInt < v.toInt := fun lt => sooner (Int64.lt_iff_toInt_lt.2 lt)
                exact new v (by omega) (List.mem_append_left _ mem) least

/-- What is left of the delays of all waits and all pending notifications. -/
def delays (s : Simulator) (st : State) : List (Option Delay) :=
  (s.procs.map fun p => (st.procs[p.index]?).bind timeoutOf) ++
    st.global.pendingEvents.map fun e => st.global.pending.get? e

theorem mem_delays {st : State} {d : Delay} : some d ∈ s.delays st ↔
    (∃ p ∈ s.procs, ∃ w, st.waitOf? p.index = some w ∧ Blocker.timeout? w = some d) ∨
    ∃ e, st.pendingOf e = some d := by
  rw [delays, List.mem_append, List.mem_map, List.mem_map]
  refine or_congr (exists_congr fun p => and_congr_right fun _ => ?_) (exists_congr fun e => ?_)
  · rw [State.waitOf?]
    cases st.procs[p.index]? with
    | none => simp
    | some ps =>
        have same : timeoutOf ps = Blocker.timeout? ps.blocker := rfl
        simp [same]
  · exact ⟨And.right, fun h => ⟨GlobalState.mem_pendingEvents.2 ⟨d, h⟩, h⟩⟩

theorem earliest_least (st : State) : Earliest (s.delays st) (s.earliest st) := by
  have fold : ∀ (rest l : List (Option Delay)) (a : Option Delay), Earliest l a →
      Earliest (l ++ rest) (rest.foldl (fun a b => if isTime b then Delay.earlier a b else a) a) := by
    intro rest
    induction rest with
    | nil =>
        intro l a h
        simpa using h
    | cons b rest ih =>
        intro l a h
        simpa using ih _ _ (h.step b)
  exact fold _ [] none ⟨by simp, by simp⟩

/-- A state becomes another one by all that happens, as far as the waits of the processes other than the
running one and the pending notifications are concerned. -/
structure Undergoes (s : Simulator) (running : Option Nat) (h : History) (st st' : State) : Prop where
  stopped : st'.global.stopped = st.global.stopped
  single : st.global.Single → st'.global.Single
  waits : ∀ p ∈ s.procs, some p.index ≠ running →
    st'.waitOf? p.index = (st.waitOf? p.index).map h.waitAfter
  pending : ∀ e, st'.pendingOf e = h.pendingAfter e (st.pendingOf e)

namespace Undergoes

variable {running : Option Nat} {h h' : History} {x : Happening} {st st' st'' : State}

theorem one (stopped : st'.global.stopped = st.global.stopped)
    (single : st.global.Single → st'.global.Single)
    (waits : ∀ p ∈ s.procs, some p.index ≠ running →
      st'.waitOf? p.index = (st.waitOf? p.index).map x.waitAfter)
    (pending : ∀ e, st'.pendingOf e = x.pendingAfter e (st.pendingOf e)) :
    s.Undergoes running [x] st st' := ⟨stopped, single, waits, pending⟩

/-- Nothing happens that matters to waits and pending notifications. -/
theorem nil (stopped : st'.global.stopped = st.global.stopped)
    (pending : st'.global.pending = st.global.pending)
    (waits : ∀ i, some i ≠ running → st'.waitOf? i = st.waitOf? i) : s.Undergoes running [] st st' := by
  have same : History.waitAfter [] = id := rfl
  refine ⟨stopped, ?_, fun p _ other => ?_, fun e => ?_⟩
  · unfold GlobalState.Single
    rw [pending]
    exact id
  · rw [waits p.index other, same, Option.map_id_fun, id]
  · rw [State.pendingOf, pending]
    rfl

theorem trans (first : s.Undergoes running h st st') (next : s.Undergoes running h' st' st'') :
    s.Undergoes running (h' ++ h) st st'' where
  stopped := next.stopped.trans first.stopped
  single single := next.single (first.single single)
  waits p hp other := by
    rw [next.waits p hp other, first.waits p hp other, Option.map_map]
    congr 1
    exact funext fun w => (List.foldr_append ..).symm
  pending e := by
    rw [next.pending, first.pending]
    exact (List.foldr_append ..).symm

end Undergoes

theorem mem_processesWith (st : State) {p : Process} (test : ProcessState → Bool)
    (f : Option Blocker → Bool) (same : ∀ ps, test ps = f ps.blocker) (hp : p ∈ s.procs) :
    p.index ∈ (s.processesWith st test).map (·.index) ↔ ((st.waitOf? p.index).map f).getD false = true := by
  have asked : ∀ i, ((st.procs[i]?).map test).getD false = ((st.waitOf? i).map f).getD false := by
    intro i
    rw [State.waitOf?, Option.map_map]
    congr 2
    exact funext same
  simp only [processesWith, asked, List.mem_map, List.mem_filter]
  constructor
  · intro found
    obtain ⟨q, ⟨-, hq⟩, index⟩ := found
    exact index ▸ hq
  · exact fun holds => ⟨p, ⟨hp, holds⟩, rfl⟩

theorem Apart.processesWith (apart : s.Apart) {st : State} {test : ProcessState → Bool} :
    ((s.processesWith st test).map (·.index)).Nodup :=
  apart.sublist (List.filter_sublist.map _)

variable {t u r : Transition}

/-- Every process hears of notifications that are made to those that listen. -/
theorem heard_waits {st : State} {events : List Event} {p : Process} (hp : p ∈ s.procs)
    (heard : Rewaits (Blocker.hear events) ((s.processesWith st waitsForEvents).map (·.index)) t u)
    (same : t.state.procs = st.procs) :
    u.state.waitOf? p.index = (st.waitOf? p.index).map (Blocker.hear events) := by
  have listening := mem_processesWith st waitsForEvents Happening.listens (fun ps => by rfl) hp
  have before : t.state.waitOf? p.index = st.waitOf? p.index := by rw [State.waitOf?, same]; rfl
  rw [heard.waits, before]
  cases hw : st.waitOf? p.index with
  | none => simp
  | some w =>
      simp only [hw, Option.map_some, Option.getD_some] at listening
      simp only [listening, Option.map_some]
      split
      · rfl
      · rename_i deaf
        rw [Happening.hear_deaf (by simpa using deaf)]

theorem deltaCycle_undergoes (apart : s.Apart) {events : List Event}
    (due : ∀ e, e ∈ events ↔ t.state.pendingOf e = some .delta)
    (hr : (s.deltaCycle t events).result = .ok r) :
    r.proc = t.proc ∧ s.Undergoes none [.cycle events] t.state r.state := by
  obtain ⟨u, hu, hr⟩ := Run.bind_result_iff.1 hr
  have heard := notifyProcesses_rewaits apart.processesWith hu
  have woken := wakeDelta_rewaits apart.processesWith hr
  have replans := replans_due (g := t.state.global) events
  have global : r.state.global = events.foldl (fun g e => g.setPending e none) t.state.global :=
    woken.global.trans heard.global
  refine ⟨woken.proc.trans heard.proc, .one ?_ ?_ (fun p hp _ => ?_) fun e => ?_⟩
  · rw [global, replans.stopped]
  · rw [global]
    exact replans.single
  · have waiting := mem_processesWith t.state (fun ps => timeoutOf ps = some .delta)
      (fun w => decide (Blocker.timeout? w = some .delta)) (fun ps => rfl) hp
    rw [woken.waits, heard_waits hp heard rfl]
    cases hw : t.state.waitOf? p.index with
    | none => simp
    | some w =>
        simp only [hw, Option.map_some, Option.getD_some, decide_eq_true_eq] at waiting
        simp only [waiting, Option.map_some, Happening.waitAfter_cycle]
        split <;> rfl
  · rw [State.pendingOf, global, replans.pending]
    have due := due e
    unfold State.pendingOf at due ⊢
    cases hn : t.state.global.pending.get? e with
    | none => simp [Happening.pendingAfter]
    | some d => cases d <;> simp [due, hn, Happening.pendingAfter, Happening.delayAfter]

theorem letTimePass_undergoes (apart : s.Apart) (single : t.state.global.Single) {passed : Int64}
    (hr : (s.letTimePass t passed).result = .ok r) :
    r.proc = t.proc ∧ s.Undergoes none [.time passed (t.state.global.pendingEvents.filter fun e =>
      t.state.global.pending.get? e = some (.time passed))] t.state r.state := by
  obtain ⟨⟨due, g⟩, hdue, hr⟩ := Run.bind_result_iff.1 hr
  obtain ⟨hdue, replans⟩ := passPending_replans single.pendingEvents (Run.ofFault_result_iff.1 hdue)
  rw [← hdue]
  have main : ∀ u : Transition, u.proc = t.proc → u.state.global = g →
      (∀ p ∈ s.procs, u.state.waitOf? p.index = (t.state.waitOf? p.index).map (Blocker.hear due)) →
      (s.passProcesses passed u (s.processesWith t.state fun ps => isTime (timeoutOf ps))).result = .ok r →
      r.proc = t.proc ∧ s.Undergoes none [.time passed due] t.state r.state := by
    intro u proc global heard hr
    have passes := passProcesses_rewaits due apart.processesWith hr
    have global := passes.global.trans global
    refine ⟨passes.proc.trans proc, .one ?_ ?_ (fun p hp _ => ?_) fun e => ?_⟩
    · rw [global, replans.stopped]
    · rw [global]
      exact replans.single
    · have waiting := mem_processesWith t.state (fun ps => isTime (timeoutOf ps))
        (fun w => isTime (Blocker.timeout? w)) (fun ps => rfl) hp
      rw [passes.waits, heard p hp]
      cases hw : t.state.waitOf? p.index with
      | none => simp
      | some w =>
          simp only [hw, Option.map_some, Option.getD_some] at waiting
          simp only [waiting, Option.map_some, Happening.waitAfter_time]
          split <;> rfl
    · rw [State.pendingOf, global, replans.pending]
      by_cases known : e ∈ t.state.global.pendingEvents
      · rw [if_pos known, Happening.delayAfter_time]
        rfl
      · have none : t.state.global.pending.get? e = none := by
          simpa [GlobalState.mem_pendingEvents, Option.eq_none_iff_forall_ne_some] using known
        simp [known, none, State.pendingOf, Happening.pendingAfter]
  simp only at hr
  split at hr
  · rename_i none
    obtain ⟨u, hu, hr⟩ := Run.bind_result_iff.1 hr
    obtain rfl := Run.pure_result_iff.1 hu
    obtain rfl := List.isEmpty_iff.1 none
    have same (i : Nat) : t.state.waitOf? i = (t.state.waitOf? i).map (Blocker.hear []) := by
      cases t.state.waitOf? i <;> simp [Blocker.hear_nil]
    exact main { t with state := { t.state with global := g } } rfl rfl (fun p _ => same p.index) hr
  · obtain ⟨u, hu, hr⟩ := Run.bind_result_iff.1 hr
    have heard := notifyProcesses_rewaits apart.processesWith hu
    exact main u heard.proc heard.global (fun p hp => heard_waits hp heard rfl) hr

/-- What happens at the end of an evaluation phase. -/
def ending (s : Simulator) (st : State) : Happening :=
  let waiting := s.processesWith st fun ps => timeoutOf ps = some .delta
  if waiting.isEmpty && (deltaEvents st.global).isEmpty then
    match s.earliest st with
    | some (.time d) => .time d (st.global.pendingEvents.filter fun e =>
      st.global.pending.get? e = some (.time d))
    | _ => .idle
  else .cycle (deltaEvents st.global)

theorem mem_deltaEvents {g : GlobalState} {e : Event} :
    e ∈ deltaEvents g ↔ g.pending.get? e = some .delta := by
  rw [deltaEvents, List.mem_filter, GlobalState.mem_pendingEvents, decide_eq_true_eq]
  exact ⟨And.right, fun h => ⟨⟨_, h⟩, h⟩⟩

theorem idle_undergoes (st : State) : s.Undergoes none [.idle] st st := by
  refine .one rfl id (fun p _ _ => ?_) fun e => ?_
  · cases st.waitOf? p.index with
    | none => rfl
    | some w =>
        have same := (Happening.waitAfter_within (x := .idle) (w := w) fun _ => rfl).trans Blocker.hear_nil
        rw [Option.map_some, same]
  · cases h : st.pendingOf e <;> rfl

theorem advanceTime_undergoes (apart : s.Apart) (single : t.state.global.Single)
    (going : t.state.global.stopped = false) (hr : (s.advanceTime t).result = .ok r) :
    r.proc = t.proc ∧ s.Undergoes none [s.ending t.state] t.state r.state := by
  have idles : (pure t : Step Transition).result = .ok r →
      r.proc = t.proc ∧ s.Undergoes none [.idle] t.state r.state := by
    intro hr
    obtain rfl := Run.pure_result_iff.1 hr
    exact ⟨rfl, idle_undergoes _⟩
  unfold advanceTime at hr
  unfold ending
  simp only [going, Bool.false_eq_true, if_false] at hr
  simp only
  split at hr
  · rename_i quiet
    rw [if_pos quiet]
    cases hd : s.earliest t.state with
    | none =>
        simp only [hd] at hr
        exact idles hr
    | some d =>
        cases d with
        | delta =>
            simp only [hd] at hr
            exact idles hr
        | time d =>
            simp only [hd] at hr
            exact letTimePass_undergoes apart single hr
  · rename_i busy
    rw [if_neg busy]
    exact deltaCycle_undergoes apart (fun e => mem_deltaEvents) hr

/-- What is left of every delay is positive. -/
structure Ahead (s : Simulator) (running : Option Nat) (st : State) : Prop where
  waits : ∀ p ∈ s.procs, some p.index ≠ running → ∀ w d, st.waitOf? p.index = some w →
    Blocker.timeout? w = some d → d.IsPositive
  pending : ∀ e d, st.pendingOf e = some d → d.IsPositive

/-- The evaluation phase ends with what is due first. -/
theorem ending_permits {st : State} (ahead : s.Ahead none st) :
    (∀ p ∈ s.procs, ∀ w, st.waitOf? p.index = some w → (s.ending st).Permits (Blocker.timeout? w)) ∧
    ∀ e, (s.ending st).Accords e (st.pendingOf e) := by
  have least := s.earliest_least st
  unfold ending
  simp only
  split
  · rename_i none
    simp only [Bool.and_eq_true, List.isEmpty_iff] at none
    have undelayed : some .delta ∉ s.delays st := by
      intro mem
      cases mem_delays.1 mem with
      | inl waits =>
          obtain ⟨p, hp, w, hw, hd⟩ := waits
          have listed := (mem_processesWith st (fun ps => timeoutOf ps = some .delta)
            (fun w => decide (Blocker.timeout? w = some .delta)) (fun ps => rfl) hp).2 (by simp [hw, hd])
          simp [none.1] at listed
      | inr planned =>
          obtain ⟨e, he⟩ := planned
          have := mem_deltaEvents.2 he
          rw [none.2] at this
          cases this
    split
    · rename_i d hd
      have positive : 0 < d.toInt := by
        obtain ⟨r, same, mem⟩ := least.mem (.time d) hd
        rw [← same] at mem
        have positive : (Delay.time d).IsPositive := by
          cases mem_delays.1 mem with
          | inl waits =>
              obtain ⟨p, hp, w, hw, hd⟩ := waits
              exact ahead.waits p hp (by simp) w _ hw hd
          | inr planned =>
              obtain ⟨e, he⟩ := planned
              exact ahead.pending e _ he
        exact positive
      have permits : ∀ n, (∀ d, n = some d → some d ∈ s.delays st) →
          ∀ due, (Happening.time d due).Permits n := by
        intro n mem due
        refine ⟨positive, fun d' hd' => ?_⟩
        cases d' with
        | delta => exact absurd (mem _ hd') undelayed
        | time r =>
            obtain ⟨d', hd'', le⟩ := least.le r (mem _ hd')
            obtain rfl : d = d' := by simpa using hd.symm.trans hd''
            exact ⟨r, rfl, le⟩
      refine ⟨fun p hp w hw => permits _ (fun d hd => mem_delays.2 (.inl ⟨p, hp, w, hw, hd⟩)) _,
        fun e => ⟨permits _ (fun d hd => mem_delays.2 (.inr ⟨e, hd⟩)) _, ?_⟩⟩
      simp only [List.mem_filter, GlobalState.mem_pendingEvents, decide_eq_true_eq]
      exact ⟨And.right, fun h => ⟨⟨_, h⟩, h⟩⟩
    · rename_i untimed
      have nothing : ∀ d, some d ∉ s.delays st := by
        intro d mem
        cases d with
        | delta => exact undelayed mem
        | time r =>
            obtain ⟨d, hd, -⟩ := least.le r mem
            exact untimed d hd
      refine ⟨fun p hp w hw => ?_, fun e => ⟨?_, trivial⟩⟩
      · exact Option.eq_none_iff_forall_ne_some.2 fun d hd =>
          nothing d (mem_delays.2 (.inl ⟨p, hp, w, hw, hd⟩))
      · exact Option.eq_none_iff_forall_ne_some.2 fun d hd => nothing d (mem_delays.2 (.inr ⟨e, hd⟩))
  · exact ⟨fun _ _ _ _ => trivial, fun e => ⟨trivial, mem_deltaEvents⟩⟩

end Simulator

end DeltaSlice

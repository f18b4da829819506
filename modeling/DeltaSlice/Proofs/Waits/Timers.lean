import DeltaSlice.Proofs.Waits.Advances
import DeltaSlice.Proofs.Waits.Wakeups

/-!
What an advance of the simulation does, said without the code: if something is left for the next delta
cycle, it happens and no time passes; otherwise the shortest time that is left passes for everyone. A wait
hears the events that are notified on the way.
-/

namespace DeltaSlice

/-- What becomes of a wait for events when some events are notified: the wait is over if one of a choice
or all of them are, and otherwise goes on with those that are not. -/
inductive EventList.Hears (fired : Event → Bool) (l : EventList) : Option Blocker → Prop
  | untouched : (∀ e ∈ l.events, fired e = false) → Hears fired l (some (.events l))
  | satisfied : (∃ e ∈ l.events, fired e = true) →
      l.choice = true ∨ (∀ e ∈ l.events, fired e = true) → Hears fired l none
  | fewer : l.choice = false → (∃ e ∈ l.events, fired e = true) → (∃ e ∈ l.events, fired e = false) →
      Hears fired l (some (.events (l.withEvents (l.events.filter fun e => !fired e))))

namespace Delay

/-- What is left of a time after `m` passed. -/
def Reduced (m r : Int64) (left : Option Delay) : Prop :=
  if r = m then left = none
  else ∃ r', left = some (.time r') ∧ r'.toInt = r.toInt - m.toInt ∧ 0 < r'.toInt

/-- What becomes of a pending notification in a delta cycle. -/
def Cycles (n n' : Option Delay) : Prop := n' = if n = some .delta then none else n

/-- What becomes of a pending notification while `m` passes. -/
def Elapses (m : Int64) : Option Delay → Option Delay → Prop
  | some (.time r), n' => Reduced m r n'
  | n, n' => n' = n

end Delay

/-- What becomes of a wait for events while `m` passes: a timeout ends it or goes on shortened. -/
def EventList.Elapses (m : Int64) (fired : Event → Bool) (l : EventList) (w : Option Blocker) : Prop :=
  match l.timeout with
  | some (.time r) => ∃ left, Delay.Reduced m r left ∧ (left = none → w = none) ∧
    ∀ d, left = some d → (l.withTimeout (some d)).Hears fired w
  | _ => l.Hears fired w

theorem Delay.reduced_delayAfter {m r : Int64} (due : List Event) (positive : 0 < m.toInt)
    (le : m.toInt ≤ r.toInt) : Reduced m r ((Happening.time m due).delayAfter (.time r)) := by
  unfold Reduced Happening.delayAfter
  dsimp only
  by_cases same : r = m
  · rw [if_pos same, if_pos same]
  · have apart : r.toInt ≠ m.toInt := fun h => same (Int64.toInt_inj.1 h)
    have exact := toInt_sub positive le
    rw [if_neg same, if_neg same]
    exact ⟨_, rfl, exact, by omega⟩

namespace Blocker

/-- What becomes of a wait in a delta cycle in which some events are notified. -/
def Cycles (fired : Event → Bool) : Option Blocker → Option Blocker → Prop
  | some (.delay .delta), w' => w' = none
  | some (.events l), w' => if l.timeout = some .delta then w' = none else l.Hears fired w'
  | w, w' => w' = w

/-- What becomes of a wait while `m` passes and some events are notified. -/
def Elapses (m : Int64) (fired : Event → Bool) : Option Blocker → Option Blocker → Prop
  | some (.delay (.time r)), w' => ∃ left, Delay.Reduced m r left ∧ w' = left.map .delay
  | some (.events l), w' => l.Elapses m fired w'
  | w, w' => w' = w

variable {due : List Event} {fired : Event → Bool} {l : EventList} {m : Int64} {w : Option Blocker}

theorem hears_hear (told : ∀ e, e ∈ due ↔ fired e = true) : l.Hears fired (hear due (some (.events l))) := by
  have same : (fun e => !due.contains e) = fun e => !fired e := by
    funext e
    rw [Bool.eq_iff_iff.2 (List.contains_iff_mem.trans (told e))]
  unfold hear
  dsimp only
  rw [same]
  split
  · rename_i full
    refine .untouched fun e he => ?_
    have kept := List.filter_eq_self.1 (List.filter_sublist.eq_of_length full) e he
    simpa using kept
  · rename_i fewer
    have heard : ∃ e ∈ l.events, fired e = true := by
      refine Classical.byContradiction fun silent => fewer ?_
      rw [List.filter_eq_self.2]
      intro e he
      simpa using fun hfired => silent ⟨e, he, hfired⟩
    split
    · rename_i past
      refine .satisfied heard ?_
      rw [Bool.or_eq_true, List.isEmpty_iff, List.filter_eq_nil_iff] at past
      exact past.symm.imp_right fun all e he => by simpa using all e he
    · rename_i more
      simp only [Bool.or_eq_true, List.isEmpty_iff, List.filter_eq_nil_iff, not_or, Bool.not_eq_true] at more
      refine .fewer more.2 heard ?_
      simpa using more.1

theorem cycles_waitAfter (told : ∀ e, e ∈ due ↔ fired e = true) :
    Cycles fired w ((Happening.cycle due).waitAfter w) := by
  rw [Happening.waitAfter_cycle]
  cases w with
  | none => rfl
  | some b =>
      cases b with
      | terminated => rfl
      | delay d => cases d <;> rfl
      | events l =>
          change if l.timeout = some .delta then ite (l.timeout = some .delta) _ _ = none
            else l.Hears fired (ite (l.timeout = some .delta) _ _)
          split
          · rfl
          · exact hears_hear told

theorem hears_lapse {r r' : Int64} {x : Happening} (timeout : l.timeout = some (.time r))
    (rest : x.delayAfter (.time r) = some (.time r')) (hears : l.Hears fired w) :
    (l.withTimeout (some (.time r'))).Hears fired (x.lapse w) := by
  have goes : ∀ l' : EventList, l'.timeout = some (.time r) →
      x.lapse (some (.events l')) = some (.events (l'.withTimeout (some (.time r')))) :=
    fun l' timeout => Happening.lapse_rest (b := .events l') timeout rest
  cases hears with
  | untouched silent =>
      rw [goes l timeout]
      exact .untouched silent
  | satisfied heard past => exact .satisfied heard past
  | fewer all heard unheard =>
      rw [goes (l.withEvents _) timeout]
      exact .fewer all heard unheard

theorem elapses_waitAfter (told : ∀ e, e ∈ due ↔ fired e = true) (positive : 0 < m.toInt)
    (least : ∀ r, timeout? w = some (.time r) → m.toInt ≤ r.toInt) :
    Elapses m fired w ((Happening.time m due).waitAfter w) := by
  cases w with
  | none => rfl
  | some b =>
      cases b with
      | terminated => rfl
      | delay d =>
          cases d with
          | delta => rfl
          | time r => exact ⟨_, Delay.reduced_delayAfter due positive (least r rfl), rfl⟩
      | events l =>
          have hears := hears_hear (l := l) told
          change l.Elapses m fired _
          rw [Happening.waitAfter_time, show timeout? (some (.events l)) = l.timeout from rfl]
          unfold EventList.Elapses
          split
          · rename_i r timeout
            rw [timeout, if_pos (show Simulator.isTime (some (.time r)) = true from rfl)]
            have reduced : Delay.Reduced m r ((Happening.time m due).delayAfter (.time r)) :=
              Delay.reduced_delayAfter due positive (least r timeout)
            refine ⟨_, reduced, fun none => ?_, fun d rest => ?_⟩
            · -- The time is over, whatever is heard of events.
              cases hb : hear due (some (.events l)) with
              | none => rfl
              | some b =>
                  have kept := timeout?_hear (some (.events l)) due
                  rw [hb] at kept
                  exact Happening.lapse_over ((kept.resolve_left (by simp)).trans timeout) none
            · cases d with
              | delta => simp [Happening.delayAfter] at rest
              | time r' => exact hears_lapse timeout rest hears
          · rename_i untimed
            have untimed : Simulator.isTime l.timeout = false := by
              unfold Simulator.isTime
              split
              · rename_i r timeout
                exact absurd timeout (untimed r)
              · rfl
            rw [untimed]
            exact hears

end Blocker

theorem Delay.elapses_pendingAfter {m : Int64} {due : List Event} {e : Event} {n : Option Delay}
    (positive : 0 < m.toInt) (least : ∀ r, n = some (.time r) → m.toInt ≤ r.toInt) :
    Elapses m n ((Happening.time m due).pendingAfter e n) := by
  cases n with
  | none => rfl
  | some d =>
      cases d with
      | delta => rfl
      | time r => exact reduced_delayAfter due positive (least r rfl)

theorem Delay.cycles_pendingAfter {due : List Event} {e : Event} {n : Option Delay} :
    Cycles n ((Happening.cycle due).pendingAfter e n) := by
  cases n with
  | none => rfl
  | some d => cases d <;> rfl

namespace State

/-- A process waits for the delay or has it as a timeout, or a notification is pending with it. -/
def Awaits (st : State) (d : Delay) : Prop :=
  (∃ i w, st.waitOf? i = some w ∧ Blocker.timeout? w = some d) ∨ ∃ e, st.pendingOf e = some d

/-- Waits and pending notifications become something else, and everything else stays. -/
structure Becomes (wait : Option Blocker → Option Blocker → Prop) (note : Option Delay → Option Delay → Prop)
    (st st' : State) : Prop where
  bare : st'.bare = st.bare
  single : st'.global.Single
  waits : ∀ i w, st.waitOf? i = some w → ∃ w', st'.waitOf? i = some w' ∧ wait w w'
  pending : ∀ e, note (st.pendingOf e) (st'.pendingOf e)

/-- One advance: to the next delta cycle if something is left for it, else by the shortest time that is
left, and else nothing happens. -/
def Advances (st st' : State) : Prop :=
  (st.Awaits .delta ∧
    st.Becomes (Blocker.Cycles fun e => st.pendingOf e = some .delta) Delay.Cycles st') ∨
  (¬ st.Awaits .delta ∧ ∃ m, st.Awaits (.time m) ∧ (∀ r, st.Awaits (.time r) → m.toInt ≤ r.toInt) ∧
    st.Becomes (Blocker.Elapses m fun e => st.pendingOf e = some (.time m)) (Delay.Elapses m) st') ∨
  ((∀ d, ¬ st.Awaits d) ∧ st' = st)

end State

namespace Simulator

variable {s : Simulator} {sys : System} {setup : Setup} {st : State} {t r : Transition} {d : Delay}

section

variable (placed : s.Placed) (peopled : st.procs.length = s.procs.length)

include placed peopled in
theorem process_of_wait {i : Nat} {w : Option Blocker} (hw : st.waitOf? i = some w) :
    ∃ p ∈ s.procs, p.index = i := by
  obtain ⟨q, hq, -⟩ := Option.map_eq_some_iff.1 hw
  have inside : i < s.procs.length := peopled ▸ (List.getElem?_eq_some_iff.1 hq).1
  exact ⟨s.procs[i], List.getElem_mem inside, placed i _ (List.getElem?_eq_getElem inside)⟩

include placed peopled in
theorem awaits_iff : st.Awaits d ↔ some d ∈ s.delays st := by
  rw [mem_delays]
  refine or_congr ⟨?_, ?_⟩ Iff.rfl
  · rintro ⟨i, w, hw, hd⟩
    obtain ⟨p, hp, rfl⟩ := process_of_wait placed peopled hw
    exact ⟨p, hp, w, hw, hd⟩
  · rintro ⟨p, -, w, hw, hd⟩
    exact ⟨p.index, w, hw, hd⟩

include placed peopled in
theorem quiet_iff : ((s.processesWith st fun ps => timeoutOf ps = some .delta).isEmpty &&
    (deltaEvents st.global).isEmpty) = true ↔ ¬ st.Awaits .delta := by
  have waiting := fun (p : Process) (hp : p ∈ s.procs) => mem_processesWith st
    (fun ps => timeoutOf ps = some .delta) (fun w => decide (Blocker.timeout? w = some .delta)) (fun ps => rfl) hp
  rw [Bool.and_eq_true, List.isEmpty_iff, List.isEmpty_iff, awaits_iff placed peopled, mem_delays]
  constructor
  · rintro ⟨none, silent⟩ (⟨p, hp, w, hw, hd⟩ | ⟨e, he⟩)
    · have listed := (waiting p hp).2 (by simp [hw, hd])
      rw [none] at listed
      cases listed
    · have listed := mem_deltaEvents.2 he
      rw [silent] at listed
      cases listed
  · intro nothing
    constructor
    · refine List.eq_nil_iff_forall_not_mem.2 fun p hp => nothing (.inl ?_)
      have known := (List.mem_filter.1 hp).1
      have holds := (waiting p known).1 (List.mem_map_of_mem hp)
      cases hw : st.waitOf? p.index with
      | none => simp [hw] at holds
      | some w => exact ⟨p, known, w, hw, by simpa [hw] using holds⟩
    · exact List.eq_nil_iff_forall_not_mem.2 fun e he => nothing (.inr ⟨e, mem_deltaEvents.1 he⟩)

include placed peopled in
/-- What happens at the end of an evaluation phase is what is awaited first. -/
theorem ending_cases :
    (st.Awaits .delta ∧ s.ending st = .cycle (deltaEvents st.global)) ∨
    (¬ st.Awaits .delta ∧ ∃ m, st.Awaits (.time m) ∧ (∀ r, st.Awaits (.time r) → m.toInt ≤ r.toInt) ∧
      s.ending st = .time m (st.global.pendingEvents.filter fun e =>
        st.global.pending.get? e = some (.time m))) ∨
    ((∀ d, ¬ st.Awaits d) ∧ s.ending st = .idle) := by
  have awaits : ∀ d, st.Awaits d ↔ some d ∈ s.delays st := fun d => awaits_iff placed peopled
  have least := s.earliest_least st
  unfold ending
  dsimp only
  by_cases soon : st.Awaits .delta
  · rw [if_neg fun quiet => (quiet_iff placed peopled).1 quiet soon]
    exact .inl ⟨soon, rfl⟩
  · rw [if_pos ((quiet_iff placed peopled).2 soon)]
    refine .inr ?_
    cases hm : s.earliest st with
    | none =>
        refine .inr ⟨fun d hd => ?_, rfl⟩
        cases d with
        | delta => exact soon hd
        | time r =>
            obtain ⟨m, hm', -⟩ := least.le r ((awaits _).1 hd)
            rw [hm] at hm'
            cases hm'
    | some m =>
        obtain ⟨m, rfl, mem⟩ := least.mem m hm
        refine .inl ⟨soon, m, (awaits _).2 mem, fun r hr => ?_, rfl⟩
        obtain ⟨m', hm', le⟩ := least.le r ((awaits _).1 hr)
        obtain rfl : m = m' := by simpa [hm] using hm'
        exact le

end

/-- Where nothing is left to happen, an advance leaves everything as it is. -/
theorem advanceTime_idle (going : t.state.global.stopped = false) (idle : s.ending t.state = .idle) :
    s.advanceTime t = pure t := by
  unfold ending at idle
  unfold advanceTime
  dsimp only at idle ⊢
  rw [going, if_neg Bool.false_ne_true]
  split at idle
  · rename_i quiet
    rw [if_pos quiet]
    cases first : s.earliest t.state with
    | none => rfl
    | some d =>
        cases d with
        | delta => rfl
        | time d =>
            rw [first] at idle
            cases idle
  · cases idle

/-- The processes of a state become what happens to them. -/
theorem Undergoes.becomes {x : Happening} {wait : Option Blocker → Option Blocker → Prop}
    {note : Option Delay → Option Delay → Prop} {st' : State} (placed : s.Placed)
    (peopled : st.procs.length = s.procs.length) (single : st.global.Single)
    (undergoes : s.Undergoes none [x] st st') (bare : st'.bare = st.bare)
    (waits : ∀ i w, st.waitOf? i = some w → wait w (x.waitAfter w))
    (pending : ∀ e, note (st.pendingOf e) (x.pendingAfter e (st.pendingOf e))) : st.Becomes wait note st' where
  bare := bare
  single := undergoes.single single
  waits i w hw := by
    obtain ⟨p, hp, rfl⟩ := process_of_wait placed peopled hw
    refine ⟨x.waitAfter w, ?_, waits p.index w hw⟩
    rw [undergoes.waits p hp (by simp), hw]
    rfl
  pending e := by
    rw [undergoes.pending]
    exact pending e

theorem advances_of_advanceTime (placed : s.Placed) (peopled : t.state.procs.length = s.procs.length)
    (single : t.state.global.Single) (going : t.state.global.stopped = false)
    (positive : ∀ d, t.state.Awaits d → d.IsPositive) (hr : (s.advanceTime t).result = .ok r) :
    t.state.Advances r.state := by
  have bare := advanceTime_bare hr
  obtain ⟨-, undergoes⟩ := advanceTime_undergoes placed.apart single going hr
  obtain ⟨soon, cycle⟩ | ⟨later, m, hm, least, time⟩ | ⟨nothing, idle⟩ :=
    ending_cases placed peopled
  · rw [cycle] at undergoes
    refine .inl ⟨soon, undergoes.becomes placed peopled single bare
      (fun i w _ => Blocker.cycles_waitAfter fun e => ?_) fun e => Delay.cycles_pendingAfter⟩
    rw [mem_deltaEvents, decide_eq_true_eq]
    rfl
  · rw [time] at undergoes
    refine .inr (.inl ⟨later, m, hm, least, undergoes.becomes placed peopled single bare
      (fun i w hw => ?_) fun e => ?_⟩)
    · refine Blocker.elapses_waitAfter (fun e => ?_) (positive _ hm) fun r hr => least r (.inl ⟨i, w, hw, hr⟩)
      rw [List.mem_filter, GlobalState.mem_pendingEvents, decide_eq_true_eq, decide_eq_true_eq]
      exact ⟨And.right, fun h => ⟨⟨_, h⟩, h⟩⟩
    · exact Delay.elapses_pendingAfter (positive _ hm) fun r hr => least r (.inr ⟨e, hr⟩)
  · rw [advanceTime_idle going idle] at hr
    obtain rfl := Run.pure_result_iff.1 hr
    exact .inr (.inr ⟨nothing, rfl⟩)

/-- An advance is exact: every result is the next delta cycle, or the state after the shortest time that
is left, and nothing else changes. The advance goes through unless the observer cannot be told of an
event, and no time is taken from one that is not longer. -/
theorem advanceTime_exact (hs : make sys setup = .ok s) (peopled : t.state.procs.length = s.procs.length)
    (single : t.state.global.Single) (going : t.state.global.stopped = false)
    (positive : ∀ d, t.state.Awaits d → d.IsPositive) :
    (∀ r, (s.advanceTime t).result = .ok r → t.state.Advances r.state) ∧
    (s.setup.observer.Fits none t.info →
      (∀ ps ∈ t.state.procs, Happening.listens ps.blocker = true → ps.stack ≠ []) →
        ∃ r, (s.advanceTime t).result = .ok r) ∧
    ∀ whole part, (s.advanceTime t).result ≠ .error (.broken (.subtraction whole part)) := by
  have placed := placed_of_make hs
  have along := advanceTime_advancing placed peopled single
  refine ⟨fun r hr => advances_of_advanceTime placed peopled single going positive hr, fun fits framed => ?_,
    fun whole part broken => ?_⟩
  · cases hr : (s.advanceTime t).result with
    | ok r => exact ⟨r, rfl⟩
    | error x =>
        rw [hr] at along
        exact absurd ⟨fits, framed⟩ along.2
  · rw [broken] at along
    cases along.1

end Simulator

namespace Examples

def gong : Event := ⟨some top, "f"⟩

def concert : System := single [] ["e", "f"]
  [⟨"both", [], [], false⟩, ⟨"short", [], [], false⟩, ⟨"long", [], [], false⟩]

/-- One process waits for both events with a timeout, and two for a time; the bell is to ring when the
shorter time is over, the gong later. -/
def crossing (s : Simulator) : State :=
  let waits : List Blocker := [.events ⟨[bell, gong], false, some (.time 5)⟩, .delay (.time 2), .delay (.time 7)]
  { global := (GlobalState.start.setPending bell (some (.time 2))).setPending gong (some (.time 3))
    procs := (s.procs.zip waits).map fun x => .start (some x.2) [.start x.1.routine (.lit (.inst x.1.inst))]
    update := none
    nextList := 0 }

end Examples

open Examples Simulator in
theorem advanceTime_exact_crossing : ∃ s r, make concert watching = .ok s ∧
    (s.advanceTime (.start (crossing s) .none none none)).result = .ok r ∧ (crossing s).Advances r.state ∧
    r.state.waitOf? 0 = some (some (.events ⟨[gong], false, some (.time 3)⟩)) ∧
    r.state.waitOf? 1 = some none ∧ r.state.waitOf? 2 = some (some (.delay (.time 5))) ∧
    r.state.pendingOf bell = none ∧ r.state.pendingOf gong = some (.time 1) := by
  obtain ⟨s, made, h⟩ := Success.exists_of_yields (x := make concert watching) (c := fun s =>
    (crossing s).procs.length = s.procs.length && (crossing s).procs.all (fun ps => !ps.stack.isEmpty) &&
      s.delays (crossing s) = [5, 2, 7, 2, 3].map (fun d => some (.time d)) &&
      Success.yields (s.advanceTime (.start (crossing s) .none none none)).result fun r =>
        r.state.waitOf? 0 = some (some (.events ⟨[gong], false, some (.time 3)⟩)) &&
          r.state.waitOf? 1 = some none && r.state.waitOf? 2 = some (some (.delay (.time 5))) &&
          r.state.pendingOf bell = none && r.state.pendingOf gong = some (.time 1)) (by decide +kernel)
  simp only [Bool.and_eq_true, decide_eq_true_eq, List.all_eq_true, Bool.not_eq_true'] at h
  obtain ⟨⟨⟨peopled, framed⟩, delays⟩, h⟩ := h
  obtain ⟨r, hr, h⟩ := Success.exists_of_yields h
  simp only [Bool.and_eq_true, decide_eq_true_eq] at h
  obtain ⟨⟨⟨⟨both, short⟩, long⟩, ring⟩, later⟩ := h
  have observed : s.setup.observer = .none := by rw [(make_cases made).2]; rfl
  have positive : ∀ d, (crossing s).Awaits d → d.IsPositive := by
    intro d hd
    rw [awaits_iff (placed_of_make made) peopled, delays] at hd
    simp only [List.map_cons, List.map_nil, List.mem_cons, Option.some.injEq, List.not_mem_nil, or_false] at hd
    obtain rfl | rfl | rfl | rfl | rfl := hd <;> unfold Delay.IsPositive <;> decide
  have single : (crossing s).global.Single :=
    GlobalState.Single.setPending (GlobalState.Single.setPending List.nodup_nil)
  obtain ⟨exact, goes, -⟩ := advanceTime_exact (t := .start (crossing s) .none none none) made peopled single
    rfl positive
  obtain ⟨r', hr'⟩ := goes (by rw [observed]; trivial) fun ps hps _ empty => by
    simpa [empty] using framed ps hps
  obtain rfl : r = r' := Except.ok.inj (hr.symm.trans hr')
  exact ⟨s, r, made, hr, exact r hr, both, short, long, ring, later⟩

end DeltaSlice

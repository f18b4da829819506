import DeltaSlice.Proofs.Waits.Histories
import DeltaSlice.Proofs.Table

/-!
Waits and pending notifications are told by the history since they began. One more happening turns what
was told before it into what is told after it; nothing is left out and nothing comes too early.
-/

namespace DeltaSlice

theorem mem_dropRepeated {α : Type} [DecidableEq α] {a : α} {l : List α} :
    a ∈ dropRepeated l ↔ a ∈ l := by
  induction l with
  | nil => rfl
  | cons b l ih =>
      cases l with
      | nil => rfl
      | cons c l =>
          unfold dropRepeated
          split
          · rename_i same
            rw [ih, same]
            simp
          · rw [List.mem_cons, ih, List.mem_cons (l := c :: l)]

namespace EventList

theorem mem_of {events : List Event} {choice : Bool} {timeout : Option Delay} {e : Event} :
    e ∈ (EventList.of events choice timeout).events ↔ e ∈ events :=
  mem_dropRepeated.trans (sortByText_perm _ _).mem_iff

/-- Enough of the events were notified. -/
def Met (l : EventList) (h : History) : Prop :=
  if l.choice then ∃ e ∈ l.events, h.Heard e else ∀ e ∈ l.events, h.Heard e

/-- What is left of a list of events: the same events for a choice, else those that were not notified. -/
structure Left (l : EventList) (h : History) (rest : EventList) : Prop where
  unmet : ¬ l.Met h
  choice : rest.choice = l.choice
  events : ∀ e, e ∈ rest.events ↔ e ∈ l.events ∧ (l.choice = true ∨ ¬ h.Heard e)
  timeout : Option.Rel (fun d r => d.Left h r) l.timeout rest.timeout

variable {l rest : EventList} {h : History} {x : Happening}

theorem Met.cons (met : l.Met h) : l.Met (x :: h) := by
  unfold Met at met ⊢
  split at met
  · rename_i choice
    obtain ⟨e, he, heard⟩ := met
    rw [if_pos choice]
    exact ⟨e, he, History.heard_cons.2 (.inr heard)⟩
  · rename_i all
    rw [if_neg all]
    exact fun e he => History.heard_cons.2 (.inr (met e he))

end EventList

namespace Blocker

/-- A wait that began with a history: what it has become since. -/
inductive Turns (h : History) : Blocker → Option Blocker → Prop
  | terminated : Turns h .terminated (some .terminated)
  | delaying {d rest : Delay} : d.Left h rest → Turns h (.delay d) (some (.delay rest))
  | elapsed {d : Delay} : d.Over h → Turns h (.delay d) none
  | listening {l rest : EventList} : l.Left h rest → Turns h (.events l) (some (.events rest))
  | met {l : EventList} : l.Met h → Turns h (.events l) none
  | expired {l : EventList} {d : Delay} : l.timeout = some d → d.Over h → Turns h (.events l) none

/-- Times are positive, and something is waited for. -/
def IsProper (b : Blocker) : Prop :=
  (∀ d, timeout? (some b) = some d → d.IsPositive) ∧
    match b with
    | events l => l.events ≠ []
    | _ => True

variable {b : Blocker} {w : Option Blocker} {l rest : EventList} {h : History} {x : Happening}

theorem turns_nil (proper : b.IsProper) : Turns [] b (some b) := by
  obtain ⟨positive, some⟩ := proper
  cases b with
  | terminated => exact .terminated
  | delay d => exact .delaying (Delay.left_nil (positive d rfl))
  | events l =>
      refine .listening ⟨?_, rfl, by simp, ?_⟩
      · obtain ⟨e, he⟩ := List.exists_mem_of_ne_nil _ some
        unfold EventList.Met
        split
        · simp
        · exact fun all => History.heard_nil (all e he)
      · cases ht : l.timeout with
        | none => exact .none
        | some d => exact .some (Delay.left_nil (positive d ht))

/-- A list of events that hears notifications is satisfied, or keeps the events that were not notified. -/
theorem hear_cases (due : List Event) (l : EventList) :
    (hear due (some (.events l)) = none ∧ (∃ e ∈ l.events, e ∈ due) ∧
      (l.choice = false → ∀ e ∈ l.events, e ∈ due)) ∨
    ∃ rest, hear due (some (.events l)) = some (.events rest) ∧ rest.choice = l.choice ∧
      rest.timeout = l.timeout ∧ (∀ e, e ∈ rest.events ↔ e ∈ l.events ∧ e ∉ due) ∧
      (if l.choice then ∀ e ∈ l.events, e ∉ due else l.events ≠ [] → ∃ e ∈ l.events, e ∉ due) := by
  have mem : ∀ e, e ∈ l.events.filter (fun e => !due.contains e) ↔ e ∈ l.events ∧ e ∉ due := by
    simp
  unfold hear
  dsimp only
  split
  · rename_i same
    have none : ∀ e ∈ l.events, e ∉ due := by
      simpa using List.filter_eq_self.1 (List.filter_sublist.eq_of_length same)
    refine .inr ⟨l, rfl, rfl, rfl, fun e => ⟨fun he => ⟨he, none e he⟩, And.left⟩, ?_⟩
    split
    · exact none
    · intro nonempty
      obtain ⟨e, he⟩ := List.exists_mem_of_ne_nil _ nonempty
      exact ⟨e, he, none e he⟩
  · rename_i fewer
    have some : ∃ e ∈ l.events, e ∈ due := by
      refine Classical.byContradiction fun none => fewer ?_
      rw [List.filter_eq_self.2]
      intro e he
      simpa using fun notified => none ⟨e, he, notified⟩
    cases hc : l.choice with
    | true => exact .inl ⟨by simp, some, by simp⟩
    | false =>
        split
        · rename_i past
          refine .inl ⟨rfl, some, fun _ e he => Classical.byContradiction fun silent => ?_⟩
          have there := (mem e).2 ⟨he, silent⟩
          rw [Bool.or_false, List.isEmpty_iff] at past
          rw [past] at there
          cases there
        · rename_i more
          rw [Bool.or_false, List.isEmpty_iff] at more
          obtain ⟨e, he⟩ := List.exists_mem_of_ne_nil _ more
          exact .inr ⟨_, rfl, hc, rfl, fun e => EventList.mem_of.trans (mem e),
            fun _ => ⟨e, (mem e).1 he⟩⟩

/-- The events of a wait are told by what is heard. -/
theorem hear_turns (left : l.Left h rest) :
    (hear x.due (some (.events rest)) = none ∧ l.Met (x :: h)) ∨
    ∃ rest', hear x.due (some (.events rest)) = some (.events rest') ∧ rest'.timeout = rest.timeout ∧
      rest'.choice = l.choice ∧ ¬ l.Met (x :: h) ∧
      ∀ e, e ∈ rest'.events ↔ e ∈ l.events ∧ (l.choice = true ∨ ¬ History.Heard (x :: h) e) := by
  obtain ⟨unmet, choice, events, -⟩ := left
  unfold EventList.Met at unmet ⊢
  simp only [History.heard_cons]
  cases hear_cases x.due rest with
  | inl past =>
      obtain ⟨none, ⟨e, he, now⟩, notified⟩ := past
      refine .inl ⟨none, ?_⟩
      split
      · exact ⟨e, ((events e).1 he).1, .inl now⟩
      · rename_i all
        intro e he
        by_cases earlier : h.Heard e
        · exact .inr earlier
        · exact .inl (notified (by simpa [choice] using all) e ((events e).2 ⟨he, .inr earlier⟩))
  | inr more =>
      obtain ⟨rest', hears, choice', timeout', events', silent⟩ := more
      refine .inr ⟨rest', hears, timeout', choice'.trans choice, ?_, fun e => ?_⟩
      · rw [choice] at silent
        split
        · rename_i any
          rw [if_pos any] at unmet silent
          intro met
          obtain ⟨e, he, now | earlier⟩ := met
          · exact silent e ((events e).2 ⟨he, .inl any⟩) now
          · exact unmet ⟨e, he, earlier⟩
        · rename_i all
          rw [if_neg all] at unmet silent
          intro met
          have some : rest.events ≠ [] := by
            intro nil
            refine unmet fun e he => Classical.byContradiction fun unheard => ?_
            have there := (events e).2 ⟨he, .inr unheard⟩
            rw [nil] at there
            cases there
          obtain ⟨e, he, unnotified⟩ := silent some
          obtain ⟨inside, unheard⟩ := (events e).1 he
          exact (met e inside).elim unnotified (unheard.resolve_left all)
      · rw [choice] at silent
        rw [events', events]
        split at silent
        · rename_i any
          have there := fun he => silent e ((events e).2 ⟨he, .inl any⟩)
          tauto
        · tauto

theorem waitAfter_delay {d : Delay} :
    x.waitAfter (some (.delay d)) = (x.delayAfter d).map Blocker.delay := rfl

theorem waitAfter_events (hears : hear x.due w = some (.events l)) (timeout : l.timeout = none) :
    x.waitAfter w = some (.events l) := by
  simp only [Happening.waitAfter, Happening.lapse, hears, timeout]

theorem waitAfter_timeout {d : Delay} (hears : hear x.due w = some (.events l))
    (timeout : l.timeout = some d) : x.waitAfter w =
      (x.delayAfter d).map fun r => Blocker.events (l.withTimeout (some r)) := by
  simp only [Happening.waitAfter, Happening.lapse, hears, timeout]

/-- One more happening turns a wait that is told by a history into one told by the longer history. -/
theorem Turns.step (turns : Turns h b w) (permits : x.Permits (timeout? w)) :
    Turns (x :: h) b (x.waitAfter w) := by
  cases turns with
  | terminated => exact .terminated
  | elapsed past => exact .elapsed past.cons
  | met met => exact .met met.cons
  | expired timeout past => exact .expired timeout past.cons
  | delaying left =>
      rw [waitAfter_delay]
      obtain ⟨after, past⟩ | ⟨rest, after, left⟩ := left.step permits
      · rw [after]
        exact .elapsed past
      · rw [after]
        exact .delaying left
  | @listening l rest left =>
      obtain ⟨hears, met⟩ | ⟨rest', hears, same, choice, unmet, events⟩ := hear_turns (x := x) left
      · rw [Happening.waitAfter, hears]
        exact .met met
      · have told := left.timeout
        rw [timeout?] at permits
        cases ht : l.timeout with
        | none =>
            cases hr : rest.timeout with
            | some r => simp [ht, hr] at told
            | none =>
                rw [waitAfter_events hears (same.trans hr)]
                exact .listening ⟨unmet, choice, events, by simp [ht, same, hr]⟩
        | some d =>
            cases hr : rest.timeout with
            | none => simp [ht, hr] at told
            | some r =>
                rw [waitAfter_timeout hears (same.trans hr)]
                rw [ht, hr, Option.rel_some_some] at told
                rw [hr] at permits
                obtain ⟨after, past⟩ | ⟨r', after, left⟩ := told.step permits
                · rw [after]
                  exact .expired ht past
                · rw [after]
                  refine .listening ⟨unmet, choice, events, ?_⟩
                  rw [ht]
                  exact .some left

end Blocker

namespace History

/-- The pending notification of an event is the earliest of those that were planned since the event was
notified last; the next delta cycle is earlier than any time. -/
def Pends (h : History) (e : Event) (n : Option Delay) : Prop :=
  match n with
  | none => h.plans e = []
  | some .delta => ∃ m, (m, .delta) ∈ h.plans e
  | some (.time r) => 0 < r.toInt ∧
    (∃ m w, (m, .time w) ∈ h.plans e ∧ m + w.toInt = h.clock + r.toInt) ∧
    ∀ p ∈ h.plans e, ∃ w, p.2 = .time w ∧ h.clock + r.toInt ≤ p.1 + w.toInt

/-- What is notified when an evaluation phase ends is what is due at that moment: no planned notification
is made too early, left out, or still planned for an earlier moment. -/
def Fires (x : Happening) (h : History) : Prop :=
  match x with
  | .cycle due => ∀ e, e ∈ due ↔ ∃ m, (m, .delta) ∈ h.plans e
  | .time passed due => ∀ e,
    (e ∈ due ↔ ∃ m w, (m, .time w) ∈ h.plans e ∧ m + w.toInt = h.clock + passed.toInt) ∧
    ∀ p ∈ h.plans e, ∃ w, p.2 = .time w ∧ h.clock + passed.toInt ≤ p.1 + w.toInt
  | .idle => ∀ e, h.plans e = []
  | _ => True

variable {h : History} {x : Happening} {e : Event} {n : Option Delay}

theorem plans_due (due : e ∈ x.due) : plans e (x :: h) = [] := by
  cases x with
  | planned e' d => cases due
  | _ => exact if_pos due

theorem plans_same (silent : e ∉ x.due) (unplanned : ∀ d, x ≠ .planned e d) :
    plans e (x :: h) = plans e h := by
  cases x with
  | planned e' d =>
      have other : e' ≠ e := fun same => unplanned d (by rw [same])
      exact if_neg other
  | _ => exact if_neg silent

theorem plans_planned {d : Delay} : plans e (.planned e d :: h) = (clock h, d) :: plans e h := by
  simp [plans]

theorem pends_nil : Pends [] e none := rfl

/-- What is planned only counts if it is earlier than what is pending. -/
theorem Pends.planned {d : Delay} (pends : Pends h e n) (positive : d.IsPositive) :
    Pends (.planned e d :: h) e (Delay.earlier n (some d)) := by
  have still : clock (.planned e d :: h) = clock h := by simp [Happening.passed]
  unfold Pends
  rw [plans_planned, still]
  cases n with
  | none =>
      have none : h.plans e = [] := pends
      rw [none]
      cases d with
      | delta => exact ⟨_, List.mem_cons_self⟩
      | time w =>
          refine ⟨positive, ⟨_, w, List.mem_cons_self, rfl⟩, fun p hp => ?_⟩
          obtain rfl := List.mem_singleton.1 hp
          exact ⟨w, rfl, Int.le_refl _⟩
  | some n =>
      cases n with
      | delta =>
          obtain ⟨m, hm⟩ := pends
          exact ⟨m, List.mem_cons_of_mem _ hm⟩
      | time r =>
          obtain ⟨left, ⟨m, v, hm, due⟩, least⟩ := pends
          cases d with
          | delta => exact ⟨_, List.mem_cons_self⟩
          | time w =>
              rw [Delay.earlier]
              by_cases sooner : w < r
              · rw [if_pos sooner]
                have sooner := Int64.lt_iff_toInt_lt.1 sooner
                refine ⟨positive, ⟨_, w, List.mem_cons_self, rfl⟩, List.forall_mem_cons.2 ⟨?_, ?_⟩⟩
                · exact ⟨w, rfl, Int.le_refl _⟩
                · intro p hp
                  obtain ⟨u, hu, le⟩ := least p hp
                  exact ⟨u, hu, by omega⟩
              · rw [if_neg sooner]
                have later : ¬ w.toInt < r.toInt := fun lt => sooner (Int64.lt_iff_toInt_lt.2 lt)
                refine ⟨left, ⟨m, v, List.mem_cons_of_mem _ hm, due⟩, List.forall_mem_cons.2 ⟨?_, least⟩⟩
                exact ⟨w, rfl, by omega⟩

/-- Time that passes brings every planned notification nearer. -/
theorem Pends.time {r passed : Int64} {due : List Event} (pends : Pends h e (some (.time r)))
    (positive : 0 < passed.toInt) (le : passed.toInt ≤ r.toInt) (silent : e ∉ due) (more : r ≠ passed) :
    Pends (.time passed due :: h) e (some (.time (r - passed))) := by
  obtain ⟨-, ⟨m, w, hm, moment⟩, least⟩ := pends
  have apart : r.toInt ≠ passed.toInt := fun same => more (Int64.toInt_inj.1 same)
  have same : plans e (.time passed due :: h) = plans e h := plans_same silent (by simp)
  rw [Pends, same, clock_cons, Happening.passed, Delay.toInt_sub positive le]
  refine ⟨by omega, ⟨m, w, hm, by omega⟩, fun p hp => ?_⟩
  obtain ⟨u, hu, before⟩ := least p hp
  exact ⟨u, hu, by omega⟩

theorem Pends.same (pends : Pends h e n) (silent : e ∉ x.due) (unplanned : ∀ d, x ≠ .planned e d)
    (still : x.passed = 0) : Pends (x :: h) e n := by
  have plans := plans_same (h := h) silent unplanned
  simpa only [Pends, plans, clock_cons, still, Int.zero_add] using pends

theorem pends_due (due : e ∈ x.due) : Pends (x :: h) e none := plans_due due

/-- A pending notification after one more happening. -/
theorem Pends.step (pends : Pends h e n) (accords : x.Accords e n)
    (positive : ∀ d, x = .planned e d → d.IsPositive) : Pends (x :: h) e (x.pendingAfter e n) := by
  obtain ⟨permits, due⟩ := accords
  cases x with
  | runs i | blocks i b | idle =>
      cases n <;> exact pends.same (by simp [Happening.due]) (by simp) rfl
  | notified e' =>
      rw [Happening.pendingAfter]
      split
      · rename_i same
        exact pends_due (by simp [Happening.due, same])
      · rename_i other
        exact pends.same (by simpa [Happening.due] using fun same => other same.symm) (by simp) rfl
  | planned e' d =>
      rw [Happening.pendingAfter]
      split
      · rename_i same
        exact same ▸ pends.planned (positive d (by rw [same]))
      · rename_i other
        exact pends.same (by simp [Happening.due]) (by simp [other]) rfl
  | cycle events =>
      have due : e ∈ events ↔ n = some .delta := due
      by_cases notified : e ∈ events
      · rw [due.1 notified]
        exact pends_due notified
      · have kept := pends.same (x := .cycle events) notified (by simp) rfl
        cases n with
        | none => exact kept
        | some d =>
            cases d with
            | delta => exact absurd (due.2 rfl) notified
            | time r => exact kept
  | time passed events =>
      obtain ⟨positive, most⟩ := permits
      have due : e ∈ events ↔ n = some (.time passed) := due
      by_cases notified : e ∈ events
      · have past : (Happening.time passed events).pendingAfter e n = none := by
          rw [due.1 notified]
          exact if_pos rfl
        rw [past]
        exact pends_due notified
      · cases n with
        | none =>
            have none : h.plans e = [] := pends
            exact (plans_same notified (by simp)).trans none
        | some d =>
            obtain ⟨r, rfl, le⟩ := most d rfl
            have more : r ≠ passed := fun same => notified (due.2 (by rw [same]))
            have rest : (Happening.time passed events).pendingAfter e (some (.time r)) =
              some (.time (r - passed)) := if_neg more
            rw [rest]
            exact pends.time positive le notified more

/-- What is due is what is pending for the moment. -/
theorem fires_of_pends (pends : ∀ e, ∃ n, Pends h e n ∧ x.Accords e n) : Fires x h := by
  cases x with
  | runs i | blocks i b | notified e | planned e d => trivial
  | idle =>
      intro e
      obtain ⟨n, pends, rfl, -⟩ := pends e
      exact pends
  | cycle events =>
      intro e
      obtain ⟨n, pends, -, due⟩ := pends e
      have due : e ∈ events ↔ n = some .delta := due
      rw [due]
      cases n with
      | none =>
          have none : h.plans e = [] := pends
          simp [none]
      | some d =>
          cases d with
          | delta => exact ⟨fun _ => pends, fun _ => rfl⟩
          | time r =>
              obtain ⟨-, -, least⟩ := pends
              simp only [Option.some.injEq, reduceCtorEq, false_iff, not_exists]
              intro m hm
              obtain ⟨w, hw, -⟩ := least _ hm
              cases hw
  | time passed events =>
      intro e
      obtain ⟨n, pends, ⟨positive, most⟩, due⟩ := pends e
      have due : e ∈ events ↔ n = some (.time passed) := due
      rw [due]
      cases n with
      | none =>
          have none : h.plans e = [] := pends
          simp [none]
      | some d =>
          obtain ⟨r, rfl, le⟩ := most d rfl
          obtain ⟨-, ⟨m, v, hm, moment⟩, least⟩ := pends
          refine ⟨⟨fun same => ?_, fun found => ?_⟩, fun p hp => ?_⟩
          · obtain rfl : r = passed := by simpa using same
            exact ⟨m, v, hm, moment⟩
          · obtain ⟨m', w, hp, reached⟩ := found
            obtain ⟨u, hu, before⟩ := least _ hp
            obtain rfl : w = u := by simpa using hu
            have same : r.toInt = passed.toInt := by simp only at before; omega
            rw [Int64.toInt_inj.1 same]
          · obtain ⟨u, hu, before⟩ := least p hp
            exact ⟨u, hu, by omega⟩

end History

end DeltaSlice

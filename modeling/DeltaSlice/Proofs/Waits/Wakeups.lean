import DeltaSlice.Proofs.Waits.Accounts

/-!
Chronicles that can be computed. A script says which process runs next or that the evaluation phase ends;
code is followed along its first branches.
-/

namespace DeltaSlice

deriving instance DecidableEq for Happening

instance Delay.decidableIsPositive (d : Delay) : Decidable d.IsPositive :=
  match d with
  | .delta => .isTrue trivial
  | .time r => inferInstanceAs (Decidable (0 < r.toInt))

instance Happening.decidableIsPositive (x : Happening) : Decidable x.IsPositive :=
  match x with
  | .blocks _ b => inferInstanceAs (Decidable (∀ d ∈ Blocker.timeout? (some b), d.IsPositive))
  | .planned _ d => inferInstanceAs (Decidable d.IsPositive)
  | .runs _ | .notified _ | .cycle _ | .time _ _ | .idle => .isTrue trivial

theorem Success.toOption_iff {ε α : Type} {x : Except ε α} {a : α} : x.toOption = some a ↔ x = .ok a := by
  cases x <;> simp [Except.toOption]

namespace Simulator

variable {s : Simulator} {start t r : Transition} {h k k' : History} {st st' : State}

/-- Follows code along its first branch until it ends. -/
def follow (s : Simulator) : Nat → History → Transition → Option (History × Transition)
  | 0, _, _ => none
  | fuel + 1, k, t => do
    let st ← (s.smallStep t).result.toOption
    let r ← st.results.head?
    if st.ends then some (s.notices t ++ k, r) else s.follow fuel (s.notices t ++ k) r

/-- The next step of a script: the process with the given number runs, or the evaluation phase ends. -/
def turn (s : Simulator) (who : Option Nat) (x : History × State) : Option (History × State) :=
  match who with
  | some i => do
    let ps ← (s.ready x.2).toOption
    let p ← ps.find? (·.index = i)
    let ts ← (s.makeStep p x.2).result.toOption
    let start ← (s.begin? p x.2).toOption
    let (k, e) ← s.follow 1000 [] start
    let b ← (e.state.waitOf? p.index).join
    if ts.any (·.state = e.state) then some (.blocks p.index b :: k ++ .runs p.index :: x.1, e.state)
    else none
  | none => do
    let ts ← (s.endEvaluation x.2).result.toOption
    let v ← (s.advanceTime (s.beginEnd x.2)).result.toOption
    if x.2.global.updates = [] ∧ ts.any (·.state = v.state) then
      some (s.ending (s.beginEnd x.2).state :: x.1, v.state)
    else none

theorem tells_of_follow {fuel : Nat} (begun : s.Tells start false k t)
    (followed : s.follow fuel k t = some (k', r)) : s.Tells start true k' r := by
  induction fuel generalizing k t with
  | zero => cases followed
  | succ fuel ih =>
      obtain ⟨st, hst, followed⟩ := Option.bind_eq_some_iff.1 followed
      obtain ⟨u, hu, followed⟩ := Option.bind_eq_some_iff.1 followed
      have step := begun.step (Success.toOption_iff.1 hst) (List.mem_of_head? hu)
      split at followed
      · rename_i ends
        cases followed
        rwa [ends] at step
      · rename_i goes
        rw [Bool.not_eq_true] at goes
        rw [goes] at step
        exact ih step followed

theorem Chronicle.turn {who : Option Nat} {x : History × State} (chronicle : s.Chronicle h st)
    (turned : s.turn who (h, st) = some x) : s.Chronicle x.1 x.2 := by
  cases who with
  | some i =>
      obtain ⟨ps, hps, turned⟩ := Option.bind_eq_some_iff.1 turned
      obtain ⟨p, hp, turned⟩ := Option.bind_eq_some_iff.1 turned
      obtain ⟨ts, hts, turned⟩ := Option.bind_eq_some_iff.1 turned
      obtain ⟨start, hbegin, turned⟩ := Option.bind_eq_some_iff.1 turned
      obtain ⟨⟨k, e⟩, hfollow, turned⟩ := Option.bind_eq_some_iff.1 turned
      obtain ⟨b, hb, turned⟩ := Option.bind_eq_some_iff.1 turned
      dsimp only at turned
      split at turned
      · rename_i reached
        obtain ⟨r, hr, same⟩ := List.any_eq_true.1 reached
        obtain rfl := Option.some.inj turned
        have same : r.state = e.state := by simpa using same
        rw [← same] at hb ⊢
        exact chronicle.ran (Success.toOption_iff.1 hps) (List.mem_of_find?_eq_some hp)
          (Success.toOption_iff.1 hts) hr (Success.toOption_iff.1 hbegin)
          (tells_of_follow .start hfollow) same (same ▸ Option.join_eq_some_iff.1 hb)
      · cases turned
  | none =>
      obtain ⟨ts, hts, turned⟩ := Option.bind_eq_some_iff.1 turned
      obtain ⟨v, hv, turned⟩ := Option.bind_eq_some_iff.1 turned
      split at turned
      · rename_i reached
        obtain ⟨idle, reached⟩ := reached
        obtain ⟨r, hr, same⟩ := List.any_eq_true.1 reached
        obtain rfl := Option.some.inj turned
        have same : r.state = v.state := by simpa using same
        have updates : s.TellsUpdates st.global.updates (s.beginEnd st) [] (s.beginEnd st) := by
          rw [show st.global.updates = [] from idle]
          exact .nil
        rw [← same]
        exact chronicle.ended (Success.toOption_iff.1 hts) hr updates (Success.toOption_iff.1 hv) same
      · cases turned

/-- What a script leads to from a chronicle is a chronicle. -/
theorem Chronicle.script {script : List (Option Nat)} {x y : History × State} (chronicle : s.Chronicle x.1 x.2)
    (played : script.foldlM (fun x who => s.turn who x) x = some y) : s.Chronicle y.1 y.2 := by
  induction script generalizing x with
  | nil =>
      obtain rfl := Option.some.inj played
      exact chronicle
  | cons who script ih =>
      rw [List.foldlM_cons] at played
      obtain ⟨z, hz, played⟩ := Option.bind_eq_some_iff.1 played
      exact ih (chronicle.turn hz) played

end Simulator

end DeltaSlice

/-!
Waits end on time. A process that waits is ready from the moment at which its delay is over or its events
were notified, and until then it holds what is left of its wait. Pending notifications are made when the
earliest of what was planned is due.
-/

namespace DeltaSlice

theorem Delay.Left.not_over {d rest : Delay} {h : History} (left : d.Left h rest)
    (forward : ∀ x ∈ h, 0 ≤ x.passed) : ¬ d.Over h := by
  cases d with
  | delta =>
      cases rest with
      | time _ => exact left.elim
      | delta =>
          intro past
          obtain ⟨x, hx, ends⟩ := past
          rw [left x hx] at ends
          cases ends
  | time r =>
      cases rest with
      | delta => exact left.elim
      | time r' =>
          intro past
          obtain ⟨h', suffix, reached⟩ := past
          have := History.clock_mono forward suffix
          obtain ⟨amount, positive⟩ := left
          omega

theorem EventList.Left.timed {l rest : EventList} {h : History} {d : Delay} (left : l.Left h rest)
    (timed : l.timeout = some d) : ∃ r, d.Left h r := by
  have told := left.timeout
  rw [timed] at told
  cases hr : rest.timeout with
  | none => simp [hr] at told
  | some r => exact ⟨r, by simpa [hr] using told⟩

theorem EventList.Left.nonempty {l rest : EventList} {h : History} (left : l.Left h rest)
    (some : l.events ≠ []) : rest.events ≠ [] := by
  obtain ⟨unmet, -, events, -⟩ := left
  unfold EventList.Met at unmet
  have mem : ∃ e, e ∈ rest.events := by
    split at unmet
    · rename_i any
      obtain ⟨e, he⟩ := List.exists_mem_of_ne_nil _ some
      exact ⟨e, (events e).2 ⟨he, .inl any⟩⟩
    · simp only [not_forall] at unmet
      obtain ⟨e, he, unheard⟩ := unmet
      exact ⟨e, (events e).2 ⟨he, .inr unheard⟩⟩
  obtain ⟨e, he⟩ := mem
  exact List.ne_nil_of_mem he

namespace Blocker

/-- A wait is over: its delay is, or its events were notified. -/
def Over (b : Blocker) (since : History) : Prop :=
  match b with
  | terminated => False
  | delay d => d.Over since
  | events l => l.Met since ∨ ∃ d, l.timeout = some d ∧ d.Over since

/-- What is left of a wait. -/
def Left (b : Blocker) (since : History) (rest : Blocker) : Prop :=
  match b, rest with
  | terminated, terminated => True
  | delay d, delay r => d.Left since r
  | events l, events r => l.Left since r
  | _, _ => False

variable {b rest : Blocker} {w : Option Blocker} {since : History}

theorem Turns.over_or_left (turns : Turns since b w) :
    (w = none ∧ b.Over since) ∨ ∃ rest, w = some rest ∧ b.Left since rest := by
  cases turns with
  | terminated => exact .inr ⟨_, rfl, trivial⟩
  | delaying left => exact .inr ⟨_, rfl, left⟩
  | elapsed past => exact .inl ⟨rfl, past⟩
  | listening left => exact .inr ⟨_, rfl, left⟩
  | met met => exact .inl ⟨rfl, .inl met⟩
  | expired timeout past => exact .inl ⟨rfl, .inr ⟨_, timeout, past⟩⟩

theorem Left.not_over (left : b.Left since rest) (forward : ∀ x ∈ since, 0 ≤ x.passed) :
    ¬ b.Over since := by
  cases b with
  | terminated => exact id
  | delay d =>
      cases rest with
      | delay r => exact Delay.Left.not_over left forward
      | _ => exact left.elim
  | events l =>
      cases rest with
      | events r =>
          rintro (met | ⟨d, timed, past⟩)
          · exact EventList.Left.unmet left met
          · obtain ⟨r, left⟩ := EventList.Left.timed left timed
            exact left.not_over forward past
      | _ => exact left.elim

/-- As long as something is left of a wait, its delay is ahead. -/
theorem Left.early (left : b.Left since rest) {r : Int64} (timed : timeout? (some b) = some (.time r)) :
    since.clock < r.toInt := by
  have early : ∀ {rest : Delay}, (Delay.time r).Left since rest → since.clock < r.toInt := by
    intro rest left
    cases rest with
    | delta => exact left.elim
    | time r' =>
        obtain ⟨amount, positive⟩ := left
        omega
  cases b with
  | terminated => cases timed
  | delay d =>
      obtain rfl := Option.some.inj timed
      cases rest with
      | delay r => exact early left
      | _ => exact left.elim
  | events l =>
      have timed : l.timeout = some (.time r) := timed
      cases rest with
      | events r =>
          obtain ⟨r, left⟩ := EventList.Left.timed left timed
          exact early left
      | _ => exact left.elim

end Blocker

namespace Simulator

variable {s : Simulator}

/-- A process that began to wait for `b` before the history `since` is ready when its wait is over, holds
what is left of it before, and never waits beyond its delay. With the clock at `T` when the wait began and
at `now`, the clock of `since` is `now - T`. -/
structure Wakes (s : Simulator) (b : Blocker) (since : History) (ps : ProcessState) : Prop where
  ready : s.isReady ps = true ↔ b.Over since
  waits : ¬ b.Over since → ∃ rest, ps.blocker = some rest ∧ b.Left since rest
  punctual : ∀ r, Blocker.timeout? (some b) = some (.time r) → r.toInt ≤ since.clock → b.Over since

theorem wakes_of_turns (tracked : ∀ e, s.setup.tracksEvent e = true) {b : Blocker} {since : History}
    {ps : ProcessState} (turns : Blocker.Turns since b ps.blocker) (forward : ∀ x ∈ since, 0 ≤ x.passed)
    (some : ∀ l, b = .events l → l.events ≠ []) : s.Wakes b since ps := by
  rcases turns.over_or_left with ⟨none, past⟩ | ⟨rest, waits, left⟩
  · exact ⟨by simp [isReady, none, past], fun waits => absurd past waits, fun _ _ _ => past⟩
  · have going := left.not_over forward
    refine ⟨?_, fun _ => ⟨rest, waits, left⟩, fun r timed late => ?_⟩
    · have waiting : s.isReady ps = false := by
        unfold isReady
        rw [waits]
        cases rest with
        | terminated | delay d => rfl
        | events r =>
            cases b with
            | terminated | delay d => exact left.elim
            | events l =>
                obtain ⟨e, he⟩ := List.exists_mem_of_ne_nil _
                  (EventList.Left.nonempty left (some l rfl))
                dsimp only
                split
                · simp [tracked]
                · simpa [tracked] using ⟨e, he⟩
      simp [waiting, going]
    · have := left.early timed
      omega

/-- Wake-ups are exact. Every state that is reached has a history. When events are tracked, delays are
positive and the simulation was not stopped, every process that has waited since it blocked is ready
exactly when its wait is over; what is pending for an event is the earliest of what was planned since the
event was notified last, and it is notified exactly when this is due. -/
theorem wakeups_exact {sys : System} {setup : Setup} {first : State} (made : make sys setup = .ok s)
    (tracked : ∀ e, setup.tracksEvent e = true) (start : s.initial = .ok first) :
    (∀ st, s.Reachable first st → ∃ h, s.Chronicle h st) ∧
    ∀ h st, s.Chronicle h st → (∀ x ∈ h, x.IsPositive) → st.global.stopped = false →
      (∀ since i b before, h = since ++ .blocks i b :: before → .runs i ∉ since →
        (∀ l, b = .events l → l.events ≠ []) → ∃ ps, st.procs[i]? = some ps ∧ s.Wakes b since ps) ∧
      (∀ e, h.Pends e (st.pendingOf e)) ∧ ∀ x before, x :: before <:+ h → History.Fires x before := by
  have tracked : ∀ e, s.setup.tracksEvent e = true := by
    obtain ⟨-, rfl⟩ := make_cases made
    exact tracked
  refine ⟨fun st reachable => exists_chronicle start reachable,
    fun h st chronicle positive going => ?_⟩
  have told := chronicle.accounts (placed_of_make made) tracked positive going
  refine ⟨fun since i b before split silent some => ?_, told.pends, told.fires⟩
  obtain ⟨-, -, turns⟩ := told.waits since i b before split silent
  have proper : b.IsProper := by
    refine ⟨positive (.blocks i b) (by simp [split]), ?_⟩
    cases b with
    | events l => exact some l rfl
    | _ => trivial
  obtain ⟨w, hw, turns⟩ := turns proper
  obtain ⟨ps, hps, rfl⟩ := Option.map_eq_some_iff.1 hw
  exact ⟨ps, hps, wakes_of_turns tracked turns (fun x hx => told.forward x (by simp [split, hx])) some⟩

end Simulator

namespace Examples

def nanoseconds (n : Int64) : List Expr := [number n, const (.unit .ns)]

def bell : Event := ⟨some top, "e"⟩

/-- One thread sleeps for five nanoseconds, one lets the bell ring three nanoseconds after it slept for
two, and one waits for the bell. -/
def alarm : System := single [] ["e"]
  [⟨"sleeper", [wait (nanoseconds 5)], [], false⟩,
   ⟨"ringer", [wait (nanoseconds 2), .notify 0 (.event 0 "e") (nanoseconds 3)], [], false⟩,
   ⟨"listener", [wait [.event 0 "e"]], [], false⟩]

def watching : Setup := ⟨.none, .immediate, fun _ => true, fun _ => true⟩

/-- What happens until the bell rings. -/
def alarmed : History :=
  [.time 3000000 [bell], .blocks 1 .terminated, .planned bell (.time 3000000), .runs 1, .time 2000000 [],
   .blocks 2 (.events ⟨[bell], true, none⟩), .runs 2, .blocks 1 (.delay (.time 2000000)), .runs 1,
   .blocks 0 (.delay (.time 5000000)), .runs 0]

end Examples

open Examples Simulator in
theorem wakeups_exact_alarm : ∃ s st, make alarm watching = .ok s ∧ s.Chronicle alarmed st ∧
    alarmed.clock = 5000000 ∧
    (∃ ps, st.procs[0]? = some ps ∧ s.Wakes (.delay (.time 5000000)) (alarmed.take 9) ps) ∧
    (∃ ps, st.procs[2]? = some ps ∧ s.Wakes (.events ⟨[bell], true, none⟩) (alarmed.take 5) ps) ∧
    (∀ e, History.Pends alarmed e (st.pendingOf e)) ∧
    History.Fires (.time 3000000 [bell]) alarmed.tail := by
  obtain ⟨s, made, played⟩ := Success.exists_of_yields (x := make alarm watching)
    (c := fun s => Success.yields s.initial fun first =>
      ([some 0, some 1, some 2, none, some 1, none].foldlM (fun x who => s.turn who x)
        (s.opening, first)).any fun y => y.1 = alarmed && !y.2.global.stopped) (by decide +kernel)
  obtain ⟨first, start, played⟩ := Success.exists_of_yields played
  obtain ⟨⟨h, st⟩, played, last⟩ := (Option.any_eq_true _ _).1 played
  simp only [Bool.and_eq_true, decide_eq_true_eq, Bool.not_eq_true'] at last
  obtain ⟨rfl, going⟩ := last
  have chronicle := (Chronicle.start start).script (x := (s.opening, first)) played
  obtain ⟨-, exact⟩ := wakeups_exact made (fun _ => rfl) start
  obtain ⟨wakes, pends, fires⟩ := exact alarmed st chronicle (by decide) going
  refine ⟨s, st, made, chronicle, rfl, ?_, ?_, pends, fires _ _ (List.suffix_refl _)⟩
  · exact wakes (alarmed.take 9) 0 _ [.runs 0] rfl (by decide) (by simp)
  · exact wakes (alarmed.take 5) 2 _ (alarmed.drop 6) rfl (by decide) (by simp)

end DeltaSlice

import DeltaSlice.State.Basic
import DeltaSlice.Proofs.Text

/-!
Histories of a simulation: what happened to waiting processes and to pending notifications, with the
clock that the passing of time adds up to. The simulation knows no clock; it keeps what is left of every
delay. What is left now is told from the history alone: from the moment at which a wait began or a
notification was planned, and from what happened since.
-/

namespace DeltaSlice

inductive Happening where
  /-- A process starts to run. -/
  | runs (i : Nat)
  /-- A process that ran begins to wait. -/
  | blocks (i : Nat) (b : Blocker)
  | notified (e : Event)
  /-- An event is to be notified later. -/
  | planned (e : Event) (d : Delay)
  /-- The next delta cycle begins, and the events that are due are notified. -/
  | cycle (due : List Event)
  /-- Time passes, and the events that are due are notified. -/
  | time (passed : Int64) (due : List Event)
  /-- The evaluation phase ends and nothing is left to happen. -/
  | idle

/-- What happened, the latest first. -/
abbrev History := List Happening

namespace Happening

/-- The time that passes. -/
def passed : Happening → Int
  | time d _ => d.toInt
  | _ => 0

/-- The evaluation phase ends. -/
def endsPhase : Happening → Bool
  | cycle _ | time _ _ | idle => true
  | _ => false

/-- The events that are notified. -/
def due : Happening → List Event
  | notified e => [e]
  | cycle due | time _ due => due
  | _ => []

end Happening

namespace History

/-- The time that passed. -/
def clock : History → Int
  | [] => 0
  | x :: h => x.passed + clock h

/-- An event was notified. -/
def Heard (h : History) (e : Event) : Prop := ∃ x ∈ h, e ∈ x.due

/-- The notifications of an event that were planned since it was notified last: when they were planned,
and with which delay. -/
def plans (e : Event) : History → List (Int × Delay)
  | [] => []
  | .planned e' d :: h => if e' = e then (clock h, d) :: plans e h else plans e h
  | x :: h => if e ∈ x.due then [] else plans e h

variable {h h' : History} {x : Happening} {e : Event}

@[simp] theorem clock_cons : clock (x :: h) = x.passed + clock h := rfl

theorem clock_append : clock (h ++ h') = clock h + clock h' := by
  induction h with
  | nil => simp [clock]
  | cons x h ih => simp only [List.cons_append, clock_cons, ih, Int.add_assoc]

/-- The clock never goes back. -/
theorem clock_mono (forward : ∀ x ∈ h, 0 ≤ x.passed) (suffix : h' <:+ h) : clock h' ≤ clock h := by
  obtain ⟨k, rfl⟩ := suffix
  have : 0 ≤ clock k := by
    induction k with
    | nil => simp [clock]
    | cons y k ih =>
        have first := forward y (by simp)
        have rest := ih fun z hz => forward z (by simp_all)
        simp only [clock_cons]
        omega
  rw [clock_append]
  omega

@[simp] theorem heard_nil : ¬ Heard [] e := by simp [Heard]

@[simp] theorem heard_cons : Heard (x :: h) e ↔ e ∈ x.due ∨ Heard h e := by simp [Heard]

end History

/-! What becomes of a wait and of a pending notification when something happens. -/

namespace Blocker

/-- The delay after which a wait ends in any case. -/
def timeout? : Option Blocker → Option Delay
  | some (.delay d) => some d
  | some (.events l) => l.timeout
  | _ => none

/-- The wait after events were notified. -/
def hear (notified : List Event) : Option Blocker → Option Blocker
  | some (.events l) =>
    let remaining := l.events.filter fun e => !notified.contains e
    if remaining.length = l.events.length then some (.events l)
    else if remaining.isEmpty || l.choice then none
    else some (.events (l.withEvents remaining))
  | w => w

theorem hear_nil {w : Option Blocker} : hear [] w = w := by
  cases w with
  | none => rfl
  | some b =>
      cases b with
      | events l => exact if_pos (by simp)
      | _ => rfl

/-- Hearing changes nothing about timeouts. -/
theorem timeout?_hear (w : Option Blocker) (notified : List Event) :
    hear notified w = none ∨ timeout? (hear notified w) = timeout? w := by
  unfold hear
  split
  · dsimp only
    split
    · exact .inr rfl
    · split
      · exact .inl rfl
      · exact .inr rfl
  · exact .inr rfl

end Blocker

namespace Happening

/-- What is left of a delay, after something happened. -/
def delayAfter (x : Happening) (d : Delay) : Option Delay :=
  match x, d with
  | cycle _, .delta => none
  | time passed _, .time r => if r = passed then none else some (.time (r - passed))
  | _, d => some d

/-- A wait, after something happened: it ends when nothing is left of its delay. -/
def lapse (x : Happening) (w : Option Blocker) : Option Blocker :=
  match w with
  | some (.delay d) => (x.delayAfter d).map .delay
  | some (.events l) =>
    match l.timeout with
    | none => some (.events l)
    | some d => (x.delayAfter d).map fun rest => .events (l.withTimeout (some rest))
  | w => w

/-- A wait, after something happened. Events that are notified are heard before delays end. -/
def waitAfter (x : Happening) (w : Option Blocker) : Option Blocker := x.lapse (Blocker.hear x.due w)

/-- The pending notification of an event, after something happened. -/
def pendingAfter (x : Happening) (e : Event) (n : Option Delay) : Option Delay :=
  match x with
  | notified e' => if e' = e then none else n
  | planned e' d => if e' = e then Delay.earlier n (some d) else n
  | x => n.bind x.delayAfter

/-- What can happen while the given delay is left: time passes only when nothing is to happen in the next
delta cycle, and no further than to the end of the delay. -/
def Permits (x : Happening) (left : Option Delay) : Prop :=
  match x with
  | time passed _ => 0 < passed.toInt ∧ ∀ d, left = some d → ∃ r, d = .time r ∧ passed.toInt ≤ r.toInt
  | idle => left = none
  | _ => True

/-- The events that are due are those whose pending notification has nothing left. -/
def Accords (x : Happening) (e : Event) (n : Option Delay) : Prop :=
  x.Permits n ∧ match x with
    | cycle due => e ∈ due ↔ n = some .delta
    | time passed due => e ∈ due ↔ n = some (.time passed)
    | _ => True

end Happening

namespace History

/-- A wait, after all that happened. -/
def waitAfter (h : History) (w : Option Blocker) : Option Blocker := h.foldr Happening.waitAfter w

/-- The pending notification of an event, after all that happened. -/
def pendingAfter (h : History) (e : Event) (n : Option Delay) : Option Delay :=
  h.foldr (fun x n => x.pendingAfter e n) n

end History

namespace Delay

/-- A delay is over after a history: at the end of an evaluation phase, or when the time is reached. -/
def Over (d : Delay) (h : History) : Prop :=
  match d with
  | delta => ∃ x ∈ h, x.endsPhase = true
  | time r => ∃ h', h' <:+ h ∧ History.clock h' = r.toInt

/-- What is left of a delay after a history. -/
def Left (d : Delay) (h : History) (rest : Delay) : Prop :=
  match d, rest with
  | delta, delta => ∀ x ∈ h, x.endsPhase = false
  | time r, time r' => r'.toInt = r.toInt - h.clock ∧ 0 < r'.toInt
  | _, _ => False

/-- Times are positive. -/
def IsPositive (d : Delay) : Prop :=
  match d with
  | delta => True
  | time r => 0 < r.toInt

variable {d rest : Delay} {h : History} {x : Happening}

theorem left_nil (positive : d.IsPositive) : d.Left [] d := by
  cases d with
  | delta => simp [Left]
  | time r => exact ⟨by simp [History.clock], positive⟩

theorem Over.cons (past : d.Over h) : d.Over (x :: h) := by
  cases d with
  | delta =>
      obtain ⟨y, hy, ends⟩ := past
      exact ⟨y, List.mem_cons_of_mem _ hy, ends⟩
  | time r =>
      obtain ⟨h', suffix, reached⟩ := past
      exact ⟨h', suffix.trans (List.suffix_cons x h), reached⟩

theorem toInt_sub {r passed : Int64} (positive : 0 < passed.toInt) (le : passed.toInt ≤ r.toInt) :
    (r - passed).toInt = r.toInt - passed.toInt := by
  have := r.toInt_lt
  rw [Int64.toInt_sub]
  exact Int.bmod_eq_of_le (by omega) (by omega)

/-- What happens within an evaluation phase takes no time. -/
theorem Left.within (left : d.Left h rest) (within : x.endsPhase = false) : d.Left (x :: h) rest := by
  have still : x.passed = 0 := by
    cases x with
    | time _ _ => cases within
    | _ => rfl
  cases d with
  | delta =>
      cases rest with
      | time r => exact left
      | delta => exact List.forall_mem_cons.2 ⟨within, left⟩
  | time r =>
      cases rest with
      | delta => exact left
      | time r' =>
          obtain ⟨amount, positive⟩ := left
          refine ⟨?_, positive⟩
          rw [History.clock_cons, still]
          omega

/-- What is left after one more happening is told by the longer history. -/
theorem Left.step (left : d.Left h rest) (permits : x.Permits (some rest)) :
    (x.delayAfter rest = none ∧ d.Over (x :: h)) ∨
      ∃ rest', x.delayAfter rest = some rest' ∧ d.Left (x :: h) rest' := by
  cases x with
  | runs i => exact .inr ⟨rest, rfl, left.within rfl⟩
  | blocks i b => exact .inr ⟨rest, rfl, left.within rfl⟩
  | notified e => exact .inr ⟨rest, rfl, left.within rfl⟩
  | planned e d' => exact .inr ⟨rest, rfl, left.within rfl⟩
  | idle => cases permits
  | cycle due =>
      cases d with
      | delta =>
          cases rest with
          | delta => exact .inl ⟨rfl, _, List.mem_cons_self, rfl⟩
          | time r => exact left.elim
      | time r =>
          cases rest with
          | delta => exact left.elim
          | time r' => exact .inr ⟨_, rfl, by simpa [Left, Happening.passed] using left⟩
  | time passed due =>
      obtain ⟨positive, most⟩ := permits
      obtain ⟨r, rfl, le⟩ := most rest rfl
      cases d with
      | delta => exact left.elim
      | time w =>
          obtain ⟨amount, -⟩ := left
          by_cases same : r = passed
          · refine .inl ⟨by simp [Happening.delayAfter, same], _, List.suffix_refl _, ?_⟩
            simp only [History.clock_cons, Happening.passed, ← same]
            omega
          · have apart : r.toInt ≠ passed.toInt := fun h => same (Int64.toInt_inj.1 h)
            refine .inr ⟨.time (r - passed), by simp [Happening.delayAfter, same], ?_⟩
            rw [Left, toInt_sub positive le]
            simp only [History.clock_cons, Happening.passed]
            omega

end Delay

end DeltaSlice

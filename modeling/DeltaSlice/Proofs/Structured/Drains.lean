import DeltaSlice.Proofs.Structured.Courses
import DeltaSlice.Proofs.Success
import DeltaSlice.Simulator.Cycle
import DeltaSlice.Simulator.Worklist

/-!
The bound on the small steps of a run is for the run as a whole: a single step does not depend on it.
-/

namespace DeltaSlice

namespace Simulator

/-- The simulator with another bound on the small steps of a run. -/
def bounded (s : Simulator) (fuel : Nat) : Simulator := { s with fuel }

variable {s : Simulator} {fuel : Nat}

theorem bindParams_bounded (stack : List Routine) (t : Transition) (ds : List Decl) (xs : List Value) :
    (s.bounded fuel).bindParams stack t ds xs = s.bindParams stack t ds xs := by
  induction ds generalizing t xs with
  | nil => cases xs <;> rfl
  | cons d ds ih =>
      cases xs with
      | nil => exact ih _ []
      | cons x xs => exact ih _ xs

theorem callStep_bounded (t : Transition) (ps : ProcessState) (top : Frame) (e : Expr) (r : Routine)
    (arity : Nat) : (s.bounded fuel).callStep t ps top e r arity = s.callStep t ps top e r arity := by
  unfold callStep
  simp only [bindParams_bounded]
  rfl

theorem notifyProcesses_bounded (t : Transition) (notified : List Event) (ps : List Process) :
    (s.bounded fuel).notifyProcesses t notified ps = s.notifyProcesses t notified ps := by
  induction ps generalizing t with
  | nil => rfl
  | cons p ps ih =>
      unfold notifyProcesses
      simp only [ih]
      rfl

theorem notify_bounded (t : Transition) (e : Event) (delay : Option Delay) :
    (s.bounded fuel).notify t e delay = s.notify t e delay := by
  unfold notify
  simp only [notifyProcesses_bounded]
  rfl

theorem notifyStep_bounded (t : Transition) (top : Frame) (e target : Expr) (delays : List Expr) :
    (s.bounded fuel).notifyStep t top e target delays = s.notifyStep t top e target delays := by
  unfold notifyStep
  simp only [notify_bounded]
  rfl

theorem exprStep_bounded (t : Transition) (ps : ProcessState) (top : Frame) (e : Expr) :
    (s.bounded fuel).exprStep t ps top e = s.exprStep t ps top e := by
  cases e with
  | call id r args => exact congrArg Run.of (callStep_bounded t ps top _ r args.length)
  | notify id target delays => exact notifyStep_bounded t top _ target delays
  | _ => rfl

theorem observeResults_bounded (e : Option Expr) (i : Int) (ts : List Transition) :
    (s.bounded fuel).observeResults e i ts = s.observeResults e i ts := by
  induction ts with
  | nil => rfl
  | cons t ts ih =>
      unfold observeResults
      rw [ih]
      rfl

theorem advance_bounded (t : Transition) : (s.bounded fuel).advance t = s.advance t := by
  unfold advance
  simp only [exprStep_bounded]
  rfl

theorem smallStep_bounded (t : Transition) : (s.bounded fuel).smallStep t = s.smallStep t := by
  unfold smallStep
  simp only [advance_bounded, observeResults_bounded]

end Simulator

end DeltaSlice

/-!
Runs of structured code. The worklist holds one branch at any time, which follows its course to the end:
no point comes up twice, so the branch is never dropped. An observer may make a run fail, and has no
other influence on where it ends.
-/

namespace DeltaSlice

namespace Structured

/-- Whatever comes out of a computation has the property, and something does if nobody observes. -/
def Sure {α : Type} (o : Observer) (x : Except Halt α) (P : α → Prop) : Prop :=
  (∀ a, x = .ok a → P a) ∧ (o = .none → ∃ a, x = .ok a)

namespace Sure

variable {α β : Type} {o : Observer} {x : Except Halt α} {P : α → Prop} {Q : β → Prop}

theorem ok {a : α} (h : P a) : Sure o (.ok a) P :=
  ⟨fun _ ha => Except.ok.inj ha ▸ h, fun _ => ⟨a, rfl⟩⟩

theorem mono {R : α → Prop} (h : Sure o x P) (le : ∀ a, P a → R a) : Sure o x R :=
  ⟨fun a ha => le a (h.1 a ha), h.2⟩

theorem bind (h : Sure o x P) {f : α → Except Halt β} (hf : ∀ a, P a → Sure o (f a) Q) :
    Sure o (x >>= f) Q := by
  constructor
  · intro b hb
    obtain ⟨a, ha, hb⟩ := Success.bind_iff.1 hb
    exact (hf a (h.1 a ha)).1 b hb
  · intro quiet
    obtain ⟨a, rfl⟩ := h.2 quiet
    exact (hf a (h.1 a rfl)).2 quiet

end Sure

namespace Setting

open Simulator Transition

variable {S : Setting} {w : Vocabulary} {c c' d : Config} {t : Transition} {ends : Bool}

theorem observedBy_none (S : Setting) : S.sim.observedBy .none = S.sim := by
  rw [← S.quiet]
  rfl

/-- A small step under an observer leads to the configuration to which it leads without one. -/
theorem Goes.sure (goes : S.Goes ends c c') (firm : c.Firm) (shows : S.Shows t c) (o : Observer) :
    Sure o ((S.sim.observedBy o).smallStep t).result
      fun st => ∃ r, st.results = [r] ∧ st.ends = ends ∧ S.Shows r c' := by
  obtain ⟨st, r, hst, hres, rfl, hr⟩ := goes firm t shows
  constructor
  · intro st' hst'
    have parallel := smallStep_alike rfl rfl hst hst'
    have results := parallel.results
    rw [hres] at results
    obtain ⟨r', rest, alike, hrest, hres'⟩ := List.forall₂_cons_left_iff.1 results
    obtain rfl := List.forall₂_nil_left_iff.1 hrest
    refine ⟨r', hres', parallel.ends.symm, alike.proc.symm.trans hr.proc, alike.state.symm.trans hr.state, ?_⟩
    exact ((smallStep_unfrozen hst').2 r' (by simp [hres'])).1
  · rintro rfl
    rw [observedBy_none]
    exact ⟨st, hst⟩

/-- One branch is under way, at a configuration so many steps before the end, and the points seen are
not nearer to the end than that. -/
structure Underway (S : Setting) (w : Vocabulary) (n : Nat) (c d : Config) (l : Worklist) : Prop where
  tame : S.Tame w c
  course : S.Course n c d
  pending : ∃ key t, l.pending.entries = [(key, t)] ∧ S.Shows t c
  ended : l.ended.entries = []
  seen : ∀ x ∈ l.seen.entries,
    ∃ m c' d', n ≤ m ∧ S.Tame w c' ∧ S.Course m c' d' ∧ (S.state c').key = x.1

/-- Nothing is under way any more, and the configuration is the only one in which a branch ended. -/
structure Ended (S : Setting) (d : Config) (l : Worklist) : Prop where
  pending : l.pending.entries = []
  ended : ∃ t, l.ended.transitions = [t] ∧ S.Shows t d

section Accept

variable {l : Worklist} {r : Transition}

theorem acceptAll_single (l : Worklist) (ends repeats : Bool) (r : Transition) :
    l.acceptAll ends repeats [r] = l.accept ends repeats r := by
  unfold Worklist.acceptAll
  cases l.accept ends repeats r <;> rfl

/-- The end of the only branch. -/
theorem accept_end (pending : l.pending.entries = []) (ended : l.ended.entries = []) (repeats : Bool)
    (shows : S.Shows r d) : ∃ l', l.accept true repeats r = .ok l' ∧ S.Ended d l' :=
  ⟨{ l with ended := ⟨l.ended.entries ++ [(r.state.key, r)]⟩ },
    by simp [Worklist.accept, Queue.add, ended, Except.map],
    pending, r, by simp [Queue.transitions, ended], shows⟩

/-- A point that was not seen yet. -/
theorem accept_fresh (pending : l.pending.entries = []) (unfrozen : r.frozen = false) (repeats : Bool)
    (fresh : ∀ x ∈ l.seen.entries, x.1 ≠ r.state.key) :
    ∃ l', l.accept false repeats r = .ok l' ∧ l'.pending.entries = [(r.state.key, r)] ∧
      l'.ended = l.ended ∧ ∀ x ∈ l'.seen.entries, x ∈ l.seen.entries ∨ x.1 = r.state.key := by
  have added : ∀ l : Worklist, l.pending.entries = [] →
      l.addPending r = .ok { l with pending := ⟨[(r.state.key, r)]⟩ } := by
    intro l pending
    simp [Worklist.addPending, Queue.add, pending, Except.map]
  cases repeats with
  | false => exact ⟨{ l with pending := ⟨[(r.state.key, r)]⟩ }, added l pending, rfl, rfl, fun _ => .inl⟩
  | true =>
      have unseen : l.seen.get? r.state.key = none := by
        refine Table.get?_eq_none.2 fun hmem => ?_
        obtain ⟨x, hx, heq⟩ := List.mem_map.1 hmem
        exact fresh x hx heq
      refine ⟨⟨⟨[(r.state.key, r)]⟩, l.ended, l.seen.insert r.state.key r.info⟩, ?_, rfl, rfl,
        fun x hx => ?_⟩
      · change l.revisit r = _
        unfold Worklist.revisit
        rw [copy_eq unfrozen]
        simp only [unseen]
        exact added _ pending
      · rcases Table.mem_insert hx with rfl | hx
        · exact .inr rfl
        · exact .inl hx

end Accept

section Steps

variable (active : S.sim.aborted = false) (o : Observer) {n : Nat} {l : Worklist}
include active

/-- One step on the only branch. -/
theorem worklistStep?_single {key : String} (pending : l.pending.entries = [(key, t)]) :
    (S.sim.observedBy o).worklistStep? l = some (do
      let st ← (S.sim.observedBy o).smallStep t
      Run.ofFault ({ l with pending := ⟨[]⟩ }.acceptAll st.ends st.repeats st.results)) := by
  have running : (S.sim.observedBy o).aborted = false := active
  unfold worklistStep?
  simp only [pending, running]
  rfl

theorem Underway.last (under : S.Underway w 0 c d l) : ∃ step,
    (S.sim.observedBy o).worklistStep? l = some step ∧ Sure o step.result (S.Ended d) := by
  obtain ⟨key, t, pending, shows⟩ := under.pending
  refine ⟨_, worklistStep?_single active o pending, ?_⟩
  rw [Run.result_bind]
  cases under.course with
  | last firm ends =>
      refine (ends.sure firm shows o).bind ?_
      rintro st ⟨r, hres, hends, hr⟩
      rw [hres, hends, Run.result_ofFault, acceptAll_single]
      obtain ⟨l', hl', done⟩ := accept_end (l := { l with pending := ⟨[]⟩ }) rfl under.ended st.repeats hr
      rw [hl']
      exact .ok done

theorem Underway.next (code : Code S.sys S.proc.routine) (speaks : Speaks w S.sys S.proc)
    (legible : w.Legible) (base : S.base.Within w) (under : S.Underway w (n + 1) c d l) :
    ∃ step c', (S.sim.observedBy o).worklistStep? l = some step ∧
      Sure o step.result (S.Underway w n c' d) := by
  obtain ⟨key, t, pending, shows⟩ := under.pending
  cases under.course with
  | @next _ _ c' _ firm goes rest =>
      have tame' := under.tame.of_goes code speaks firm goes
      refine ⟨_, c', worklistStep?_single active o pending, ?_⟩
      rw [Run.result_bind]
      refine (goes.sure firm shows o).bind ?_
      rintro st ⟨r, hres, hends, hr⟩
      rw [hres, hends, Run.result_ofFault, acceptAll_single]
      have key : r.state.key = (S.state c').key := congrArg State.key hr.state
      -- A point seen before is further from the end, so it has another key.
      have fresh : ∀ x ∈ l.seen.entries, x.1 ≠ r.state.key := by
        intro x hx heq
        obtain ⟨m, c₁, d₁, le, tame₁, course₁, key₁⟩ := under.seen x hx
        have := rest.length_eq_of_key code speaks legible base course₁ tame' tame₁
          (key₁.trans (heq.trans key))
        omega
      obtain ⟨l', hl', pending', ended', seen'⟩ :=
        accept_fresh (l := { l with pending := ⟨[]⟩ }) rfl hr.unfrozen st.repeats fresh
      rw [hl']
      refine .ok ⟨tame', rest, ⟨_, r, pending', hr⟩, ended' ▸ under.ended, fun x hx => ?_⟩
      rcases seen' x hx with hx | hx
      · obtain ⟨m, c₁, d₁, le, others⟩ := under.seen x hx
        exact ⟨m, c₁, d₁, by omega, others⟩
      · exact ⟨n, c', d, le_rfl, tame', rest, key.symm.trans hx.symm⟩

variable (code : Code S.sys S.proc.routine) (speaks : Speaks w S.sys S.proc) (legible : w.Legible)
  (base : S.base.Within w)
include code speaks legible base

/-- Steps on the worklist follow the branch to its end. -/
theorem Underway.drain (under : S.Underway w n c d l) {fuel : Nat} (enough : n + 2 ≤ fuel)
    (reports : List Report) :
    Sure o ((S.sim.observedBy o).drain fuel reports l).result (S.Ended d) := by
  have taken : ∀ {fuel : Nat} {reports : List Report} {l : Worklist} {step : Step Worklist}
      {P : Worklist → Prop}, (S.sim.observedBy o).worklistStep? l = some step →
      Sure o step.result P →
      (∀ l' reports, P l' → Sure o ((S.sim.observedBy o).drain fuel reports l').result (S.Ended d)) →
      Sure o ((S.sim.observedBy o).drain (fuel + 1) reports l).result (S.Ended d) := by
    intro fuel reports l step P hstep sure rest
    have := sure.bind fun l' hl' => rest l' (step.reports.reverse ++ reports) hl'
    unfold Simulator.drain
    simp only [hstep]
    cases hres : step.result with
    | ok l' =>
        rw [hres] at this
        exact this
    | error halt =>
        rw [hres] at this
        exact this
  induction n generalizing c l reports fuel with
  | zero =>
      obtain ⟨fuel, rfl⟩ := Nat.exists_eq_add_of_le' enough
      obtain ⟨step, hstep, sure⟩ := under.last active o
      refine @taken (fuel + 1) _ _ _ _ hstep sure fun l' reports done => ?_
      have none : (S.sim.observedBy o).worklistStep? l' = none := by
        unfold worklistStep?
        rw [done.pending]
      unfold Simulator.drain
      simp only [none]
      exact .ok done
  | succ n ih =>
      obtain ⟨fuel, rfl⟩ := Nat.exists_eq_add_of_le' (show 1 ≤ fuel by omega)
      obtain ⟨step, c', hstep, sure⟩ := under.next active o code speaks legible base
      exact taken hstep sure fun l' reports under => ih under (by omega) reports

end Steps

end Setting

end Structured

end DeltaSlice

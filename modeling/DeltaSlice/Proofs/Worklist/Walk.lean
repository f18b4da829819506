import DeltaSlice.Model.Examples
import DeltaSlice.Proofs.Success
import DeltaSlice.Simulator.Cycle
import DeltaSlice.Simulator.Worklist
import Mathlib.Data.List.Induction

/-!
Sequences of small steps, and the transitions that can come up while they are explored. A walk goes
on with one result of every small step and merges nothing; what occurs in an exploration is reached
by small steps and by merging transitions whose states have the same key.
-/

namespace DeltaSlice

/-- One small step of a sequence: what was done, and the result with which the sequence goes on. -/
structure Move where
  step : SmallStep
  result : Transition

namespace Simulator

/-- The small steps `ms` lead from `start` to a transition, and none of them ends the code. -/
inductive Walk (s : Simulator) (start : Transition) : List Move → Transition → Prop
  | nil : Walk s start [] start
  | snoc {ms : List Move} {t r : Transition} {st : SmallStep} : Walk s start ms t →
      (s.smallStep t).result = .ok st → st.ends = false → r ∈ st.results →
      Walk s start (ms ++ [⟨st, r⟩]) r

/-- The small steps `ms` lead from `start` to a transition, and the last of them ends the code. -/
inductive Completes (s : Simulator) (start : Transition) : List Move → Transition → Prop
  | last {ms : List Move} {t r : Transition} {st : SmallStep} : Walk s start ms t →
      (s.smallStep t).result = .ok st → st.ends = true → r ∈ st.results →
      Completes s start (ms ++ [⟨st, r⟩]) r

/-- The sequences of small steps that go on, or those that have ended the code. -/
def Route (s : Simulator) (start : Transition) : Bool → List Move → Transition → Prop
  | false => s.Walk start
  | true => s.Completes start

/-- The transition that the small steps `ms` from `start` end with. -/
def endOf (start : Transition) (ms : List Move) : Transition :=
  (ms.getLast?.map Move.result).getD start

/-- The transitions that can come up in a run of code; the flag says whether the code has ended. -/
inductive Occurs (s : Simulator) (start : Transition) : Bool → Transition → Prop
  | start : Occurs s start false start
  | step {t r : Transition} {st : SmallStep} : Occurs s start false t →
      (s.smallStep t).result = .ok st → r ∈ st.results → Occurs s start st.ends r
  | merge {b : Bool} {t u v : Transition} {i : Info} : Occurs s start b t → Occurs s start b u →
      t.state.key = u.state.key → t.info.compose u.info = .ok i → v = t ∨ v = u →
      Occurs s start b { v with info := i }

/-- Every small step from `t` can also be made from `u`, up to the keys of the states that are
reached and to what `look` shows of a move. -/
def Imitates {α : Type} (s : Simulator) (look : Move → α) (t u : Transition) : Prop :=
  ∀ st, (s.smallStep t).result = .ok st →
    ∃ st', (s.smallStep u).result = .ok st' ∧ st'.ends = st.ends ∧
      ∀ r ∈ st.results, ∃ r' ∈ st'.results,
        r'.state.key = r.state.key ∧ look ⟨st', r'⟩ = look ⟨st, r⟩

/-- In the run of code from `start` the key of a state decides about its small steps, as far as
`look` shows them. -/
def KeysDecide {α : Type} (s : Simulator) (start : Transition) (look : Move → α) : Prop :=
  ∀ t u, s.Occurs start false t → s.Occurs start false u → t.state.key = u.state.key →
    s.Imitates look t u

variable {s : Simulator} {start : Transition}

theorem Walk.occurs {ms : List Move} {t : Transition} (h : s.Walk start ms t) :
    s.Occurs start false t := by
  induction h with
  | nil => exact .start
  | snoc _ hstep hends hr ih =>
      have := Occurs.step ih hstep hr
      rwa [hends] at this

theorem Walk.endOf_eq {ms : List Move} {t : Transition} (h : s.Walk start ms t) :
    endOf start ms = t := by
  cases h with
  | nil => rfl
  | snoc _ _ _ _ => simp [endOf]

theorem Completes.occurs {ms : List Move} {t : Transition} (h : s.Completes start ms t) :
    s.Occurs start true t := by
  cases h with
  | last hw hstep hends hr =>
      have := Occurs.step hw.occurs hstep hr
      rwa [hends] at this

theorem Route.snoc {ms : List Move} {t r : Transition} {st : SmallStep}
    (h : s.Route start false ms t) (hst : (s.smallStep t).result = .ok st) (hr : r ∈ st.results) :
    s.Route start st.ends (ms ++ [⟨st, r⟩]) r := by
  cases hends : st.ends with
  | false => exact Walk.snoc h hst hends hr
  | true => exact Completes.last h hst hends hr

theorem Route.occurs {b : Bool} {ms : List Move} {t : Transition} (h : s.Route start b ms t) :
    s.Occurs start b t := by
  cases b with
  | false => exact Walk.occurs h
  | true => exact Completes.occurs h

/-- A route is the start itself, or a walk with one more small step. -/
theorem Route.cases {b : Bool} {ms : List Move} {t : Transition} (h : s.Route start b ms t) :
    (b = false ∧ ms = [] ∧ t = start) ∨
    ∃ pre u st, s.Walk start pre u ∧ (s.smallStep u).result = .ok st ∧ st.ends = b ∧
      t ∈ st.results ∧ ms = pre ++ [⟨st, t⟩] := by
  cases b with
  | false =>
      cases h with
      | nil => exact .inl ⟨rfl, rfl, rfl⟩
      | snoc hw hst hends hr => exact .inr ⟨_, _, _, hw, hst, hends, hr, rfl⟩
  | true =>
      cases h with
      | last hw hst hends hr => exact .inr ⟨_, _, _, hw, hst, hends, hr, rfl⟩

/-- The code has not ended before a route that ends it is over. -/
theorem Completes.ne_nil {pre post : List Move} {t u : Transition} (hw : s.Walk start pre t)
    (h : s.Completes start (pre ++ post) u) : post ≠ [] := by
  intro hnil
  rw [hnil, List.append_nil] at h
  cases Route.cases (b := false) hw with
  | inl hw =>
      rw [hw.2.1] at h
      cases Route.cases (b := true) h with
      | inl h => cases h.1
      | inr h =>
          obtain ⟨_, _, _, -, -, -, -, h⟩ := h
          simp at h
  | inr hw =>
      obtain ⟨ms, _, st, -, -, hends, -, rfl⟩ := hw
      cases Route.cases (b := true) h with
      | inl h => cases h.1
      | inr h =>
          obtain ⟨ms', _, st', -, -, hends', -, heq⟩ := h
          have := List.singleton_inj.1 (List.append_inj_right' heq rfl)
          rw [Move.mk.injEq] at this
          rw [← this.1, hends] at hends'
          cases hends'

/-- The last small step of a route. -/
theorem Route.snoc_cases {ms : List Move} {m : Move} {u : Transition} {b : Bool}
    (h : s.Route start b (ms ++ [m]) u) :
    ∃ t, s.Walk start ms t ∧ (s.smallStep t).result = .ok m.step ∧ m.step.ends = b ∧
      m.result ∈ m.step.results ∧ u = m.result := by
  cases h.cases with
  | inl h => simp at h
  | inr h =>
      obtain ⟨pre, t, st, hw, hst, hends, hr, heq⟩ := h
      obtain ⟨rfl, hm⟩ := List.append_inj' heq rfl
      obtain rfl := List.singleton_inj.1 hm
      exact ⟨t, hw, hst, hends, hr, rfl⟩

/-- A route goes through what its first small steps lead to. -/
theorem Route.split {pre post : List Move} {m : Move} {u : Transition} {b : Bool}
    (h : s.Route start b (pre ++ m :: post) u) : s.Walk start pre (endOf start pre) ∧
      (s.smallStep (endOf start pre)).result = .ok m.step ∧ m.result ∈ m.step.results := by
  induction post using List.reverseRecOn generalizing b u with
  | nil =>
      obtain ⟨t, hw, hst, -, hr, -⟩ := h.snoc_cases
      rw [hw.endOf_eq]
      exact ⟨hw, hst, hr⟩
  | append_singleton post m' ih =>
      rw [← List.cons_append, ← List.append_assoc] at h
      obtain ⟨t, hw, -⟩ := h.snoc_cases
      exact ih (b := false) hw

theorem Walk.of_append {pre rest : List Move} {u : Transition} (h : s.Walk start (pre ++ rest) u) :
    s.Walk start pre (endOf start pre) := by
  cases rest with
  | nil =>
      rw [List.append_nil] at h
      rw [h.endOf_eq]
      exact h
  | cons m rest => exact (Route.split (b := false) h).1

end Simulator

end DeltaSlice

/-!
Surveys: finite lists that hold everything that occurs in a run of code. Whether a list is one, and
whether the keys of its states decide about small steps, can be computed, so the hypothesis that they
do can be checked for a given system.
-/

namespace DeltaSlice

deriving instance DecidableEq for Table, ProcessState, GlobalState, State
deriving instance DecidableEq for ReadWrite, EdgeSets, PdgNode, Pdg, Info
deriving instance DecidableEq for Conditions, Scratch, Fault, Transition

namespace Simulator

/-- Transitions of a run of code, each with whether the code has ended. -/
abbrev Survey := List (Bool × Transition)

/-- The results of a small step, if it can be made. -/
def stepped (s : Simulator) (t : Transition) : Survey :=
  match (s.smallStep t).result with
  | .ok st => st.results.map fun r => (st.ends, r)
  | .error _ => []

/-- Both transitions with what was learned on either way. -/
def merged (x y : Bool × Transition) : Survey :=
  match x.2.info.compose y.2.info with
  | .ok i => [(x.1, { x.2 with info := i }), (x.1, { y.2 with info := i })]
  | .error _ => []

def samePoint (x y : Bool × Transition) : Bool :=
  x.1 = y.1 && x.2.state.key = y.2.state.key

/-- Whether every small step from `t` can be made from `u` as well. -/
def imitates {α : Type} [DecidableEq α] (s : Simulator) (look : Move → α) (t u : Transition) :
    Bool :=
  match (s.smallStep t).result, (s.smallStep u).result with
  | .ok st, .ok st' => st'.ends = st.ends && st.results.all fun r => st'.results.any fun r' =>
      r'.state.key = r.state.key && look ⟨st', r'⟩ = look ⟨st, r⟩
  | .error _, _ => true
  | .ok _, .error _ => false

/-- Whether a list holds the start and whatever comes up from its members, and whether its members
at the same point go on alike. -/
def surveys {α : Type} [DecidableEq α] (s : Simulator) (look : Move → α) (start : Transition)
    (l : Survey) : Bool :=
  l.contains (false, start) && (l.all fun x => x.1 || (s.stepped x.2).all l.contains) &&
    l.all fun x => l.all fun y => !samePoint x y ||
      ((merged x y).all l.contains && (x.1 || s.imitates look x.2 y.2))

/-- Takes up the transitions of `todo` one after the other, with what comes up from them. -/
def survey (s : Simulator) : Nat → Survey → Survey → Survey
  | 0, done, todo => done ++ todo
  | _, done, [] => done
  | fuel + 1, done, x :: todo =>
    let new := (if x.1 then [] else s.stepped x.2) ++
      (done.filter (samePoint x)).flatMap fun y => merged x y ++ merged y x
    s.survey fuel (x :: done) <| new.foldl (fun l y =>
      if (x :: done).contains y || l.contains y then l else l ++ [y]) todo

/-- The sequence of small steps that takes up `ms` at `t` and goes on with the results of the given
numbers, with whether the code has ended. -/
def trail (s : Simulator) : List Nat → List Move → Transition → Option (List Move × Bool × Transition)
  | [], ms, t => some (ms, false, t)
  | i :: rest, ms, t =>
    match (s.smallStep t).result with
    | .error _ => none
    | .ok st => (st.results[i]?).bind fun r =>
      if st.ends then some (ms ++ [⟨st, r⟩], true, r) else s.trail rest (ms ++ [⟨st, r⟩]) r

section

variable {α : Type} [DecidableEq α] {s : Simulator} {look : Move → α} {start : Transition}
variable {l : Survey}

theorem imitates_iff {t u : Transition} : s.imitates look t u = true ↔ s.Imitates look t u := by
  unfold imitates Imitates
  cases ht : (s.smallStep t).result with
  | error e => simp
  | ok st =>
      cases hu : (s.smallStep u).result with
      | error e => simp
      | ok st' => simp

theorem Occurs.mem_of_surveys (h : s.surveys look start l = true) {b : Bool} {t : Transition}
    (ht : s.Occurs start b t) : (b, t) ∈ l := by
  simp only [surveys, Bool.and_eq_true, List.contains_iff_mem, List.all_eq_true] at h
  obtain ⟨⟨hstart, hstep⟩, hmerge⟩ := h
  induction ht with
  | start => exact hstart
  | step _ hst hr ih =>
      have := hstep _ ih
      simp only [stepped, hst, Bool.or_eq_true, Bool.false_eq_true, false_or] at this
      exact List.contains_iff_mem.1 (List.all_eq_true.1 this _ (List.mem_map.2 ⟨_, hr, rfl⟩))
  | merge _ _ hkey hi hv iht ihu =>
      have := hmerge _ iht _ ihu
      simp only [samePoint, hkey, merged, hi] at this
      simp only [decide_true, Bool.and_self, Bool.not_true, Bool.false_or, List.all_cons,
        List.all_nil, Bool.and_true, Bool.and_eq_true, List.contains_iff_mem] at this
      rcases hv with rfl | rfl
      · exact this.1.1
      · exact this.1.2

theorem keysDecide_of_surveys (h : s.surveys look start l = true) : s.KeysDecide start look := by
  intro t u ht hu hkey
  have ht := ht.mem_of_surveys h
  have hu := hu.mem_of_surveys h
  simp only [surveys, Bool.and_eq_true, List.all_eq_true] at h
  have := h.2 _ ht _ hu
  simp only [samePoint, hkey, decide_true, Bool.and_self, Bool.not_true, Bool.false_or,
    Bool.and_eq_true] at this
  exact imitates_iff.1 this.2

theorem route_of_trail {picks : List Nat} {ms : List Move} {t : Transition}
    {x : List Move × Bool × Transition} (hw : s.Walk start ms t)
    (h : s.trail picks ms t = some x) : s.Route start x.2.1 x.1 x.2.2 := by
  induction picks generalizing ms t with
  | nil =>
      obtain rfl := Option.some.inj h
      exact hw
  | cons i rest ih =>
      unfold trail at h
      cases hst : (s.smallStep t).result with
      | error e => simp [hst] at h
      | ok st =>
          simp only [hst] at h
          obtain ⟨r, hr, h⟩ := Option.bind_eq_some_iff.1 h
          have hroute := Route.snoc (s := s) hw hst (List.mem_of_getElem? hr)
          cases hends : st.ends with
          | true =>
              simp only [hends, if_true, Option.some.injEq] at h
              rw [hends] at hroute
              rw [← h]
              exact hroute
          | false =>
              simp only [hends, Bool.false_eq_true, if_false] at h
              rw [hends] at hroute
              exact ih hroute h

end

end Simulator

namespace Examples

/-- `if (c) x = 1;` where `c` is unknown. -/
def guarded : System :=
  let c := field 0 "c"
  let x := field 1 "x"
  single [c, x] [] [⟨"run", [.branch 0 (ref c) [assign x (number 1)] []], [], false⟩]

/-- The nodes of the condition and the body of a control structure that comes first. -/
def condition : String := "top Top.run[0,0]"

def body : String := "top Top.run[0,1]"

/-- The simulator of a system, with no variable tracked. -/
def untracked (sys : System) (o : Observer) : Simulator :=
  ⟨.ofSystem sys, ⟨o, .immediate, fun _ => true, fun _ => false⟩,
    sys.processes.zipIdx.filterMap (fun (p, i) => p.check? i), false, Simulator.unlimited⟩

/-- The thread `run` of `top`. -/
def runner : Process := ⟨0, "run", top, .member ⟨0, "Top", "run", [], false⟩, [], false⟩

/-- The thread is about to start, and there is nothing else. -/
def atStart : State := ⟨.start, [Simulator.initProcess runner], none, 0⟩

def running (i : Info) : Transition := .start atStart i (some runner) (some top)

end Examples

end DeltaSlice

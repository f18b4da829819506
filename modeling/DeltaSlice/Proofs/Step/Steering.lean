import DeltaSlice.Proofs.Success
import DeltaSlice.Simulator.SmallStep

/-!
Steps that steer. Branches, loops, switches and cases note conditions, and then they descend into a child or
leave with no result or a truth value. What such edits keep holds of all results of these steps.
-/

namespace DeltaSlice

/-- The process of a transition waits for something; code of the scheduler has no frame left. -/
structure Transition.Rests (t : Transition) : Prop where
  waits : ∀ p, t.proc = some p → ∀ ps, t.state.procs[p.index]? = some ps → ps.blocker.isSome = true
  spent : t.proc = none → ∀ ps, t.state.update = some ps → ps.stack = []

theorem Transition.rests_of_spent {t : Transition} (unowned : t.proc = none) (spent : t.top? = none) :
    t.Rests := by
  refine ⟨fun p hp => ?_, fun _ ps hps => ?_⟩
  · rw [unowned] at hp
    cases hp
  · rw [top?, running?, unowned] at spent
    replace spent : t.state.update.bind (·.top?) = none := spent
    rw [hps] at spent
    exact List.head?_eq_none_iff.1 spent

theorem Transition.proc_mapRunning (t : Transition) (f : ProcessState → ProcessState) :
    (t.mapRunning f).proc = t.proc := by
  unfold mapRunning setRunning
  split
  · split <;> rfl
  · rfl

theorem Transition.rests_mapRunning {t : Transition} {f : ProcessState → ProcessState} {p : Process}
    (owned : t.proc = some p) (blocks : ∀ ps, (f ps).blocker.isSome = true) : (t.mapRunning f).Rests := by
  have kept := (t.proc_mapRunning f).trans owned
  refine ⟨fun q hq ps hps => ?_, fun unowned => by simp [kept] at unowned⟩
  obtain rfl : p = q := Option.some.inj (kept.symm.trans hq)
  cases running : t.state.procs[p.index]? with
  | none =>
      simp only [Transition.mapRunning, running?, owned, running] at hps
      cases hps
  | some own =>
      simp only [Transition.mapRunning, running?, setRunning, owned, running, State.setProc,
        List.getElem?_set_self'] at hps
      obtain rfl := Option.some.inj hps
      exact blocks own

/-- All results of a small step have a property, and the running code may end where it ends. -/
def SmallStep.All (P : Transition → Prop) (st : SmallStep) : Prop :=
  ∀ r ∈ st.results, P r ∧ (st.ends = true → r.Rests)

namespace SmallStep.All

variable {P Q : Transition → Prop} {e : Option Expr} {i : Int} {t r r' : Transition}

theorem going {st : SmallStep} (goes : st.ends = false) (h : ∀ r ∈ st.results, P r) : st.All P := by
  refine fun r hr => ⟨h r hr, fun ends => ?_⟩
  rw [goes] at ends
  cases ends

theorem one (h : P r) : (SmallStep.one e i r).All P :=
  going rfl fun _ hr => List.mem_singleton.1 hr ▸ h

theorem repeating (b : Bool) (h : P r) : { SmallStep.one e i r with repeats := b }.All P :=
  going rfl fun _ hr => List.mem_singleton.1 hr ▸ h

theorem fork (b : Bool) (h : P r) (h' : P r') :
    { SmallStep.one e i t with results := [r, r'], repeats := b }.All P := by
  refine going rfl fun x hx => ?_
  cases List.mem_cons.1 hx with
  | inl hx => exact hx ▸ h
  | inr hx => exact List.mem_singleton.1 hx ▸ h'

theorem last {st : SmallStep} (result : st.results = [r]) (h : P r) (rests : r.Rests) : st.All P := by
  intro x hx
  rw [result] at hx
  obtain rfl := List.mem_singleton.1 hx
  exact ⟨h, fun _ => rests⟩

end SmallStep.All

/-- A property that edits of conditions keep, and one that the next child or the end of an expression with `n`
children has then, if evaluation came back from child `i`. -/
structure Steers (s : Simulator) (i : Int) (n : Nat) (P Q : Transition → Prop) : Prop where
  conditions : ∀ {r} (f : Conditions → Conditions), P r → P (r.mapConditions f)
  enter : ∀ {r} (j : Int), (-1 ≤ i → 0 ≤ j ∧ (i < n → j < n)) → P r → Q (r.enter j)
  finish : ∀ {r} (v : Value), v = .unknown ∨ (∃ b, v = .bool b) → P r → Q (r.finish s.program.system v)

namespace Steers

variable {s : Simulator} {top : Frame} {n : Nat} {P Q : Transition → Prop} {t : Transition} {e : Expr}

theorem branchStep_all {yes no : List Expr} (steers : Steers s top.comingFrom n P Q) (h : P t)
    (width : n = yes.length + no.length + 1) : (s.branchStep t top e yes no).All Q := by
  subst width
  have leave : ∀ {x}, P x → Q (x.finish s.program.system .unknown) := fun hx => steers.finish _ (.inl rfl) hx
  have enterYes : ∀ c : Value, Q (if yes.isEmpty then
      ((t.mapConditions (·.add e.id c)).mapConditions (·.dropThrough e.id)).finish
        s.program.system .unknown
      else (t.mapConditions (·.add e.id c)).enter 1) := by
    intro c
    split
    · exact leave (steers.conditions _ (steers.conditions _ h))
    · rename_i some
      have := List.length_pos_iff.2 (mt List.isEmpty_iff.2 some)
      exact steers.enter 1 (by omega) (steers.conditions _ h)
  have enterNo : ∀ c : Value, Q (if no.isEmpty then t.finish s.program.system .unknown
      else (t.mapConditions (·.add e.id c.not)).enter (yes.length + 1)) := by
    intro c
    split
    · exact leave h
    · rename_i some
      have := List.length_pos_iff.2 (mt List.isEmpty_iff.2 some)
      exact steers.enter _ (by omega) (steers.conditions _ h)
  unfold Simulator.branchStep
  dsimp only
  split
  · exact .one (steers.enter 0 (by omega) h)
  · split
    · split
      · exact .fork false (enterYes _) (enterNo _)
      · exact .one (enterYes _)
      · exact .one (enterNo _)
    · split
      · split
        · exact .one (leave (steers.conditions _ h))
        · exact .one (steers.enter _ (by omega) h)
      · split
        · exact .repeating true (leave (steers.conditions _ h))
        · exact .one (steers.enter _ (by omega) h)

theorem loopStep_all {body : List Expr} (steers : Steers s top.comingFrom n P Q) (h : P t)
    (width : n = body.length + 1) (testsFirst : Bool) : (s.loopStep t top e body testsFirst).All Q := by
  subst width
  have leave := steers.finish .unknown (.inl rfl) (steers.conditions (·.dropThrough e.id) h)
  have first : ∀ {x}, P x → Q (x.enter (if body.isEmpty then 0 else 1)) := by
    intro x hx
    split
    · exact steers.enter 0 (by omega) hx
    · rename_i some
      have := List.length_pos_iff.2 (mt List.isEmpty_iff.2 some)
      exact steers.enter 1 (by omega) hx
  unfold Simulator.loopStep
  dsimp only
  split
  · split
    · exact .repeating true (steers.enter 0 (by omega) (steers.conditions _ h))
    · rename_i later
      have some : ¬ body.isEmpty = true := fun empty => later (by simp [empty])
      have := List.length_pos_iff.2 (mt List.isEmpty_iff.2 some)
      exact .one (steers.enter 1 (by omega) (steers.conditions _ h))
  · split
    · split
      · exact .fork _ (first (steers.conditions _ h)) leave
      · exact .repeating _ (first h)
      · exact .one leave
    · split
      · exact .repeating true (steers.enter 0 (by omega) h)
      · exact .one (steers.enter _ (by omega) h)

theorem forStep_all {body : List Expr} (steers : Steers s top.comingFrom n P Q) (h : P t)
    (width : n = body.length + 3) : (s.forStep t top e body).All Q := by
  subst width
  have leave := steers.finish .unknown (.inl rfl) (steers.conditions (·.dropThrough e.id) h)
  unfold Simulator.forStep
  dsimp only
  split
  · exact .one (steers.enter 0 (by omega) (steers.conditions _ h))
  · split
    · exact .repeating true (steers.enter 1 (by omega) h)
    · split
      · split
        · exact .fork false (steers.enter 2 (by omega) (steers.conditions _ h)) leave
        · exact .one (steers.enter 2 (by omega) h)
        · exact .one leave
      · split
        · exact .repeating true (steers.enter 1 (by omega) h)
        · exact .one (steers.enter _ (by omega) h)

theorem switchStep_all {arms : List Expr} (steers : Steers s top.comingFrom n P Q) (h : P t)
    (width : n = arms.length + 1) : (s.switchStep t top e arms).All Q := by
  subst width
  unfold Simulator.switchStep
  dsimp only
  split
  · exact .one (steers.enter 0 (by omega) (steers.conditions _ h))
  · split
    · exact .repeating true (steers.finish _ (.inl rfl) (steers.conditions _ h))
    · split
      · exact .one (steers.enter 1 (by omega) h)
      · exact .repeating true (steers.enter _ (by omega) h)

theorem armStep_all {id : Nat} {value : Option Expr} {body : List Expr}
    (steers : Steers s top.comingFrom n P Q) (h : P t) (width : n = (Expr.arm id value body).children.length) :
    (s.armStep t top (.arm id value body) value body).All Q := by
  have count : n = (if value.isSome then 1 else 0) + body.length := by
    rw [width]
    cases value with
    | none => simp [Expr.children]
    | some v => simp [Expr.children, Nat.add_comm]
  have ran : ∀ {b}, Value.bool b = .unknown ∨ ∃ b', Value.bool b = .bool b' := .inr ⟨_, rfl⟩
  have enterBody : ∀ {x}, P x → Q
      (if body.isEmpty then x.finish s.program.system (.bool true)
        else x.enter (if value.isSome then 1 else 0)) := by
    intro x hx
    split
    · exact steers.finish _ ran hx
    · rename_i some
      have := List.length_pos_iff.2 (mt List.isEmpty_iff.2 some)
      refine steers.enter _ (fun _ => ?_) hx
      split at count <;> simp [*] <;> omega
  unfold Simulator.armStep
  rw [← width]
  dsimp only
  split
  · split
    · exact .one (enterBody h)
    · rename_i tested
      have some : value.isSome = true := by
        cases value with
        | none => simp at tested
        | some v => rfl
      rw [if_pos some] at count
      exact .one (steers.enter 0 (by omega) h)
  · split
    · split
      · exact .fork false (enterBody (steers.conditions _ h)) (steers.finish _ ran (steers.conditions _ h))
      · exact .one (enterBody h)
      · exact .one (steers.finish _ ran h)
    · split
      · exact .one (steers.finish _ ran h)
      · exact .one (steers.enter _ (by omega) h)

end Steers

end DeltaSlice

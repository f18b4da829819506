import DeltaSlice.Proofs.Accesses.Joins
import DeltaSlice.Proofs.Globals.Agreement
import DeltaSlice.Proofs.Step.Begins

/-!
What observers know. Whatever holds of what they know when nothing has run, and is kept by all that they are told,
holds wherever code comes to. So read and write conditions are conditions, and dependence graphs keep their
invariant and have an entry.
-/

namespace DeltaSlice

open Pdg

namespace Dependence

variable {p : Program} {triggers : Bool} {t : Transition} {e : Option Expr} {c : Int} {g h : Pdg}

/-- A small step changes the graph at most at the end of the code, or if it is announced. -/
theorem evaluated_cases (heval : evaluated p triggers t e c g = .ok h) :
    h = g ∨ h = g.forget (·.isLocal) ∨ ∃ x l callers i up, e = some x ∧ t.scratch.announced = some (l :: callers) ∧
      l.path = i :: up ∧ evaluatedAt p triggers ⟨t, x, c, i, p.parent? l.routine x, l, callers⟩ g = .ok h := by
  unfold evaluated at heval
  split at heval
  · obtain rfl := Except.ok.inj heval
    split
    · exact .inr (.inl rfl)
    · exact .inl rfl
  · rename_i x
    split at heval
    · exact .inl (Except.ok.inj heval).symm
    · cases heval
    · rename_i l callers announced
      split at heval
      · cases heval
      · rename_i i up path
        exact .inr (.inr ⟨x, l, callers, i, up, rfl, announced, path, heval⟩)

theorem evaluated_becomes (hg : g.Unfinished) (heval : evaluated p triggers t e c g = .ok h) : Becomes g h := by
  obtain rfl | rfl | ⟨x, l, callers, i, up, -, -, -, heval⟩ := evaluated_cases heval
  · exact .refl hg
  · exact forget_becomes hg _
  · exact (evaluatedAt_accesses hg heval).1.becomes

end Dependence

namespace Simulator

/-- What an observer knows between two pieces of code, and while code runs. -/
structure Knows (s : Simulator) (idle busy : Info → Prop) : Prop where
  neutral : idle s.setup.observer.neutral
  start {t : Transition} {i : Info} : idle t.info → (s.setup.observer.start s.program t).result = .ok i → busy i
  heeds : s.Heeds busy
  evaluated {t : Transition} {e : Option Expr} {c : Int} {i : Info} : busy t.info →
    (s.setup.observer.evaluated s.program t e c).result = .ok i → busy i
  compose {i j k : Info} : busy i → busy j → i.compose j = .ok k → busy k
  rest {i : Info} : busy i → idle i

variable {s : Simulator} {first : State} {start t u r : Transition} {b : Bool} {idle busy : Info → Prop}
  {track : Variable → Bool} {triggers : Bool}

namespace Knows

variable (h : s.Knows idle busy)

include h

theorem occurs (begun : busy start.info) (occurs : s.Occurs start b t) : busy t.info := by
  induction occurs with
  | start => exact begun
  | @step t r st _ hst hr ih =>
      obtain ⟨st₀, rs, u, hadv, hu, learned, -, rfl⟩ := smallStep_mem hst hr
      exact h.evaluated (h.heeds.advance (t := t.resetAccesses) ih hadv hu) learned
  | merge _ _ _ composed _ iht ihu => exact h.compose iht ihu composed

theorem updates {is : List Instance} {runs : List (Transition × Transition)} (known : idle t.info)
    (updates : s.Updates is t runs u) : idle u.info := by
  induction updates with
  | nil => exact known
  | cons _ _ hbegin runsTo _ ih =>
      obtain ⟨i, learned, rfl⟩ := Success.map_iff.1 hbegin
      have ended := h.occurs (h.start (t := Transition.beforeUpdate _ _ _) known learned) runsTo.occurs
      exact ih (h.rest ended)

theorem begins (begins : s.Begins first start) : busy start.info := by
  cases begins with
  | step _ _ _ hbegin =>
      obtain ⟨i, learned, rfl⟩ := Success.map_iff.1 hbegin
      exact h.start (t := Transition.start _ _ _ _) h.neutral learned
  | update _ _ _ before _ _ hbegin =>
      obtain ⟨i, learned, rfl⟩ := Success.map_iff.1 hbegin
      have known := h.updates (t := s.beginEnd _) h.neutral before
      exact h.start (t := Transition.beforeUpdate _ _ _) known learned

end Knows

/-- An observer that learns nothing. -/
theorem knows_nothing (observes : s.setup.observer = .none) : s.Knows (· = .none) (· = .none) where
  neutral := by rw [observes]; rfl
  start known learned := by
    rw [observes] at learned
    exact (Run.pure_result_iff.1 learned).symm.trans known
  heeds := ⟨fun known learned => by
    rw [observes] at learned
    exact (Run.pure_result_iff.1 learned).symm.trans known⟩
  evaluated known learned := by
    rw [observes] at learned
    exact (Run.pure_result_iff.1 learned).symm.trans known
  compose known _ composed := by
    subst known
    exact (Except.ok.inj composed).symm
  rest := id

/-- Read and write conditions are conditions. -/
def HoldsConditions (i : Info) : Prop := ∃ x, i = .readWrite x ∧ x.Conditional

theorem Store.conditional_empty : Store.Conditional .empty := ⟨.nil, fun _ he => nomatch he⟩

/-- Accesses are noted under conditions. -/
theorem observeAccesses_conditional {x : ReadWrite} (h : x.Conditional) (t : Transition) :
    (Observer.observeAccesses track t x).Conditional := by
  have noted : ∀ (vs : List Variable) {st : Store}, st.Conditional →
      (vs.foldl (fun s v => if track v then ReadWrite.weaken s v t.condition else s) st).Conditional := by
    intro vs
    induction vs with
    | nil => exact fun h => h
    | cons v vs ih =>
        intro st hst
        refine ih ?_
        dsimp only
        split
        · exact hst.weaken v _
        · exact hst
  intro k
  cases k with
  | reading => exact noted _ (h .reading)
  | writing => exact noted _ (h .writing)

theorem knows_conditions (observes : s.setup.observer = .readWrite track) :
    s.Knows HoldsConditions HoldsConditions where
  neutral := by
    rw [observes]
    exact ⟨_, rfl, fun k => by cases k <;> exact Store.conditional_empty⟩
  start known learned := by
    rw [observes] at learned
    exact Run.pure_result_iff.1 learned ▸ known
  heeds := ⟨fun known learned => by
    rw [observes] at learned
    exact Run.pure_result_iff.1 learned ▸ known⟩
  evaluated known learned := by
    obtain ⟨x, same, conditional⟩ := known
    rw [observes] at learned
    simp only [Observer.evaluated, same] at learned
    exact ⟨_, (Run.pure_result_iff.1 learned).symm, observeAccesses_conditional conditional _⟩
  compose known known' composed := by
    obtain ⟨x, rfl, conditional⟩ := known
    obtain ⟨y, rfl, conditional'⟩ := known'
    exact ⟨_, (Except.ok.inj composed).symm, conditional.compose conditional'⟩
  rest := id

/-- What is known is a graph that is not closed yet; while code runs, it has an entry. -/
def Drafts (started : Bool) (i : Info) : Prop :=
  ∃ g, i = .pdg g ∧ g.Unfinished ∧ (started = true → g.entry.isSome = true)

theorem knows_graph (observes : s.setup.observer = .pdg triggers) : s.Knows (Drafts false) (Drafts true) where
  neutral := by
    rw [observes]
    exact ⟨_, rfl, empty_unfinished, by simp⟩
  start known learned := by
    obtain ⟨g, same, unfinished, -⟩ := known
    rw [observes] at learned
    simp only [Observer.start, same] at learned
    obtain ⟨h, starts, rfl⟩ := Success.map_iff.1 learned
    obtain ⟨unfinished, entered, -⟩ := Dependence.start_touches unfinished starts
    exact ⟨h, rfl, unfinished, fun _ => entered⟩
  heeds := ⟨fun known learned => by
    obtain ⟨g, same, unfinished, entered⟩ := known
    rw [observes] at learned
    obtain ⟨h, woken, rfl⟩ := Observer.waitedForEvents_graph same learned
    rcases woken with rfl | woken
    · exact ⟨h, rfl, unfinished, entered⟩
    · obtain ⟨becomes, -⟩ := Dependence.woken_touches unfinished woken
      exact ⟨h, rfl, becomes.unfinished, fun begun => becomes.entry ▸ entered begun⟩⟩
  evaluated known learned := by
    obtain ⟨g, same, unfinished, entered⟩ := known
    rw [observes] at learned
    simp only [Observer.evaluated, same] at learned
    obtain ⟨h, evaluated, rfl⟩ := Success.map_iff.1 learned
    have becomes := Dependence.evaluated_becomes unfinished evaluated
    exact ⟨h, rfl, becomes.unfinished, fun begun => becomes.entry ▸ entered begun⟩
  compose known known' composed := by
    obtain ⟨g, rfl, unfinished, entered⟩ := known
    obtain ⟨h, rfl, unfinished', entered'⟩ := known'
    obtain ⟨k, hk, rfl⟩ := Success.map_iff.1 composed
    obtain ⟨unfinished, entry, -⟩ := compose_writes unfinished unfinished' (entered rfl) (entered' rfl) hk
    exact ⟨k, rfl, unfinished, fun _ => entry⟩
  rest known := by
    obtain ⟨g, rfl, unfinished, -⟩ := known
    exact ⟨g, rfl, unfinished, by simp⟩

end Simulator

end DeltaSlice

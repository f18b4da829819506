import DeltaSlice.Proofs.Step.Regions
import DeltaSlice.Proofs.Structured.Moves

/-!
Switches and the bodies that they run. A switch begins with the body of one of its cases and goes on with those of
the following cases. The code takes the first case that is the default case or whose label equals the tag; that is
the case with an equal label, or the default case without one, unless a label behind the default case equals the
tag.
-/

namespace DeltaSlice

open Transition

/-- A case; without a value, the default case. -/
structure Arm where
  id : Nat
  value : Option Expr
  body : List Expr

namespace Arm

def expr (a : Arm) : Expr := .arm a.id a.value a.body

/-- The index of the first statement. -/
def first (a : Arm) : Nat := if a.value.isSome then 1 else 0

theorem length_children (a : Arm) : a.expr.children.length = a.first + a.body.length := by
  obtain ⟨id, value, body⟩ := a
  cases value with
  | none => simp [expr, Expr.children, first]
  | some v => simp [expr, Expr.children, first, Nat.add_comm]

end Arm

/-- A switch in a system, and the frames below the one in which it runs. Its tag and its labels do not jump. -/
structure Switch (sys : System) where
  location : Location
  id : Nat
  label : String
  tag : Expr
  arms : List Arm
  below : List Frame
  found : sys.at? location = some (.switch id label tag (arms.map Arm.expr))
  tag_calm : tag.everywhere (fun e => !e.isJump) = true
  labels_calm : ∀ a ∈ arms, ∀ v ∈ a.value, v.everywhere (fun e => !e.isJump) = true

/-- The code is at the expression at `l`. -/
def Stands (l : Location) (below fs : List Frame) : Prop := ∃ f, fs = f :: below ∧ f.location = l

theorem Location.child_inj {l : Location} {i j : Int} : l.child i = l.child j ↔ i = j := by
  simp [Location.child]

theorem Location.child_ne (l : Location) (i : Int) : l.child i ≠ l := by
  intro same
  have lengths := congrArg (fun l : Location => l.path.length) same
  simp [Location.child] at lengths

section Top

variable {l : Location} {c : Int} {f : Frame} {below : List Frame}

@[simp] theorem stands_top : Stands l below (f :: below) ↔ f.location = l := by simp [Stands]

@[simp] theorem at_top : At l c below (f :: below) ↔ f.location = l ∧ f.comingFrom = c := by simp [At]

theorem called_eq_nil {called : List Frame} {g : Frame} (same : f :: below = called ++ g :: below) :
    called = [] ∧ g = f := by
  have lengths := congrArg List.length same
  simp only [List.length_cons, List.length_append] at lengths
  obtain rfl := List.length_eq_zero_iff.1 (by omega : called.length = 0)
  exact ⟨rfl, (List.cons.inj same).1.symm⟩

theorem under_top {ls : List Level} : Under l c ls below (f :: below) ↔
    ∃ q, f.location = ⟨l.routine, q ++ c :: l.path⟩ ∧ f.above l.path = ls := by
  constructor
  · rintro ⟨called, g, q, same, here, kept⟩
    obtain ⟨-, rfl⟩ := called_eq_nil same
    exact ⟨q, here, kept⟩
  · exact fun ⟨q, here, kept⟩ => ⟨[], f, q, rfl, here, kept⟩

end Top

instance (l : Location) (below fs : List Frame) : Decidable (Stands l below fs) :=
  match fs with
  | [] => isFalse (by simp [Stands])
  | f :: rest => decidable_of_iff (rest = below ∧ f.location = l) (by simp [Stands])

instance (l : Location) (c : Int) (below fs : List Frame) : Decidable (At l c below fs) :=
  match fs with
  | [] => isFalse (by simp [At])
  | f :: rest => decidable_of_iff (rest = below ∧ f.location = l ∧ f.comingFrom = c) (by simp [At])

theorem At.stands {l : Location} {c : Int} {below fs : List Frame} (h : At l c below fs) : Stands l below fs :=
  h.imp fun _ h => ⟨h.1, h.2.1⟩

namespace Switch

/-- What is seen of a switch while it runs: a body begins, or it ends with its last statement. -/
inductive Mark where
  | begins (k : Nat)
  | ends (k : Nat)
deriving DecidableEq

/-- What is seen of a body that is run to its end. -/
def run (case : Arm × Nat) : List Mark := if case.1.body.isEmpty then [] else [.begins case.2, .ends case.2]

section

variable {sys : System} (w : Switch sys)

/-- The location of a case, counted from 0; child 0 of the switch is the tag. -/
def case (k : Nat) : Location := w.location.child (k + 1)

/-- The code is in the switch, or in a routine called from there. -/
def Within (fs : List Frame) : Prop :=
  ∃ called f, fs = called ++ f :: w.below ∧ f.location.routine = w.location.routine ∧ w.location.path <:+ f.path

/-- The code is in the body of a case, or in a routine called from there. -/
def InBody (k : Nat) (fs : List Frame) : Prop :=
  ∃ a i ls, w.arms[k]? = some a ∧ i < a.body.length ∧ Under (w.case k) (a.first + i : Nat) ls w.below fs

/-- The code is at the switch itself, behind the last case. -/
def Finished (fs : List Frame) : Prop := At w.location w.arms.length w.below fs

/-- The expression leads out of the switch: it exits the switch or something around it, it repeats a loop around it,
or it returns, with its value if it has one. -/
def LeadsOut (f : Frame) : Expr → Prop
  | .exit _ label => ∃ m target, sys.target? f.location.routine label true 1 f.path.tail = some (m, target) ∧
      f.path.length ≤ m + w.location.path.length
  | .next _ label => ∃ m target, sys.target? f.location.routine label false 1 f.path.tail = some (m, target) ∧
      f.path.length ≤ m + w.location.path.length
  | .ret _ value => value = none ∨ f.comingFrom ≠ -1
  | _ => False

/-- The code is at an expression that leads out of the switch. -/
def Leaves (fs : List Frame) : Prop :=
  ∃ f e, fs = f :: w.below ∧ sys.at? f.location = some e ∧ w.LeadsOut f e

/-- What is seen of the switch when the code steps from `fs` to `fs'`. -/
def marks (fs fs' : List Frame) : List Mark :=
  ((w.arms.zipIdx.filter fun (a, k) => a.body ≠ [] ∧ At (w.case k) (a.expr.children.length - 1) w.below fs).map
    fun (_, k) => .ends k) ++
  ((w.arms.zipIdx.filter fun (a, k) =>
      Stands (w.case k) w.below fs ∧ Stands ((w.case k).child a.first) w.below fs').map
    fun (_, k) => .begins k)

/-- Wherever the tag and the labels have just been evaluated, their values are these. -/
structure Evaluates (x : Payload) (y : Nat → Payload) (fs : List Frame) : Prop where
  tag : ∀ f, fs = f :: w.below → f.location = w.location → f.comingFrom = 0 → f.value 0 0 = .known x
  label : ∀ f k a, fs = f :: w.below → w.arms[k]? = some a → a.value.isSome = true → f.location = w.case k →
    f.comingFrom = 0 → f.value 0 0 = .known (y k)

/-- The labels; the default case has none. -/
def labels (y : Nat → Payload) : List (Option Payload) :=
  w.arms.zipIdx.map fun (a, k) => a.value.map fun _ => y k

/-- The first case whose label equals the tag or, if no label does, the default case; without one, the number of
cases. -/
def chosen (x : Payload) (y : Nat → Payload) : Nat :=
  if some x ∈ w.labels y then (w.labels y).findIdx (· = some x) else (w.labels y).findIdx (· = none)

/-- The first case that is the default case or whose label equals the tag; without one, the number of cases. -/
def reached (x : Payload) (y : Nat → Payload) : Nat :=
  (w.labels y).findIdx fun l => l = none ∨ l = some x

/-- The bodies that run from a case on, if nothing leaves the switch. -/
def plan (first : Nat) : List Mark := (w.arms.zipIdx.drop first).flatMap run

/-- The bodies among them that belong to the first `k` cases. -/
def planned (first k : Nat) : List Mark := ((w.arms.zipIdx.take k).drop first).flatMap run

end

section Marks

variable {sys : System} {w : Switch sys} {k i : Nat} {a : Arm} {f : Frame} {fs fs' : List Frame}

theorem case_inj : w.case k = w.case i ↔ k = i := by
  rw [case, case, Location.child_inj]
  omega

theorem case_ne (w : Switch sys) (k : Nat) : w.case k ≠ w.location := w.location.child_ne _

/-- At most one entry of a list with positions passes a test that only position `k` passes. -/
theorem filter_zipIdx {α : Type} {l : List α} {a : α} {k : Nat} {p : α × Nat → Bool} (ha : l[k]? = some a)
    (only : ∀ b i, p (b, i) = true → i = k) : l.zipIdx.filter p = if p (a, k) then [(a, k)] else [] := by
  obtain ⟨inside, entry⟩ := List.getElem?_eq_some_iff.1 ha
  have others : ∀ e ∈ l.zipIdx, e.2 ≠ k → ¬ p e = true := fun e _ ne passes => ne (only e.1 e.2 passes)
  have split : l.zipIdx = l.zipIdx.take k ++ (a, k) :: l.zipIdx.drop (k + 1) := by
    have low : k < l.zipIdx.length := by simpa using inside
    have here : l.zipIdx[k] = (a, k) := by simp [entry]
    rw [← here, List.getElem_cons_drop, List.take_append_drop]
  have before : (l.zipIdx.take k).filter p = [] := by
    refine List.filter_eq_nil_iff.2 fun e he => others e (List.mem_of_mem_take he) ?_
    obtain ⟨i, hi, same⟩ := List.mem_take_iff_getElem.1 he
    rw [← same]
    simp
    omega
  have after : (l.zipIdx.drop (k + 1)).filter p = [] := by
    refine List.filter_eq_nil_iff.2 fun e he => others e (List.mem_of_mem_drop he) ?_
    obtain ⟨i, hi, same⟩ := List.mem_drop_iff_getElem.1 he
    rw [← same]
    simp
    omega
  rw [split, List.filter_append, before, List.filter_cons, after]
  rfl

theorem marks_elsewhere (elsewhere : ∀ k, ¬ Stands (w.case k) w.below fs) : w.marks fs fs' = [] := by
  unfold marks
  rw [List.filter_eq_nil_iff.2, List.filter_eq_nil_iff.2]
  · rfl
  · rintro ⟨a, k⟩ - passes
    exact elsewhere k (of_decide_eq_true passes).1
  · rintro ⟨a, k⟩ - passes
    exact elsewhere k (of_decide_eq_true passes).2.stands

theorem marks_at_case (ha : w.arms[k]? = some a) (here : f.location = w.case k) :
    w.marks (f :: w.below) fs' =
      (if a.body ≠ [] ∧ f.comingFrom = a.expr.children.length - 1 then [.ends k] else []) ++
      if Stands ((w.case k).child a.first) w.below fs' then [.begins k] else [] := by
  have stands : ∀ {i}, Stands (w.case i) w.below (f :: w.below) → i = k := fun there =>
    case_inj.1 ((stands_top.1 there).symm.trans here)
  unfold marks
  rw [filter_zipIdx ha fun b i passes => stands (of_decide_eq_true passes).2.stands,
    filter_zipIdx ha fun b i passes => stands (of_decide_eq_true passes).1]
  simp only [at_top, stands_top, here, true_and, decide_eq_true_eq]
  split <;> split <;> rfl


theorem marks_at_switch (here : f.location = w.location) : w.marks (f :: w.below) fs = [] := by
  refine marks_elsewhere fun k stands => case_ne w k ?_
  exact (stands_top.1 stands).symm.trans here

end Marks

section Plan

variable {sys : System} {w : Switch sys} {x : Payload} {y : Nat → Payload} {first k : Nat} {a : Arm}

theorem planned_all (first : Nat) : w.planned first w.arms.length = w.plan first := by
  unfold planned plan
  rw [List.take_of_length_le (by simp)]

theorem planned_zero (first : Nat) : w.planned first 0 = [] := by simp [planned]

theorem planned_part (first k : Nat) : w.planned first k <+: w.plan first := by
  have part : w.arms.zipIdx.take k <+: w.arms.zipIdx := List.take_prefix k _
  obtain ⟨rest, all⟩ := part.drop first
  exact ⟨rest.flatMap run, by rw [planned, plan, ← List.flatMap_append, all]⟩

theorem planned_succ (ha : w.arms[k]? = some a) :
    w.planned first (k + 1) = w.planned first k ++ if first ≤ k then run (a, k) else [] := by
  have inside := (List.getElem?_eq_some_iff.1 ha).1
  have entry : w.arms.zipIdx[k]? = some (a, k) := by simp [ha]
  have length : (w.arms.zipIdx.take k).length = k := by simp; omega
  unfold planned
  rw [List.take_add_one, entry, Option.toList_some, List.drop_append, List.flatMap_append, length]
  split
  · rename_i le
    rw [Nat.sub_eq_zero_of_le le]
    simp
  · rename_i lt
    rw [List.drop_of_length_le (l := [(a, k)]) (by simp; omega)]
    rfl

/-- A body that has begun belongs to the plan. -/
theorem planned_begins_part (ha : w.arms[k]? = some a) (some : a.body ≠ []) (le : first ≤ k) :
    w.planned first k ++ [.begins k] <+: w.plan first := by
  have one : w.planned first k ++ [.begins k] <+: w.planned first (k + 1) := by
    rw [planned_succ ha, if_pos le, run, if_neg (by simpa using some)]
    exact ⟨[.ends k], by simp⟩
  exact one.trans (planned_part first (k + 1))

end Plan

section Choice

variable {sys : System} {w : Switch sys} {x : Payload} {y : Nat → Payload} {k : Nat} {a : Arm}

theorem getElem?_labels (ha : w.arms[k]? = some a) : (w.labels y)[k]? = some (a.value.map fun _ => y k) := by
  simp [labels, ha]

/-- A case that is not passed by is the one at which the code begins, if it is the default case or its label
equals the tag. -/
theorem reached_eq_iff (ha : w.arms[k]? = some a) (le : k ≤ w.reached x y) :
    w.reached x y = k ↔ a.value = none ∨ y k = x := by
  obtain ⟨inside, entry⟩ := List.getElem?_eq_some_iff.1 (getElem?_labels (y := y) ha)
  have before : ∀ j (lt : j < k), decide ((w.labels y)[j] = none ∨ (w.labels y)[j] = some x) = false :=
    fun j lt => List.not_of_lt_findIdx (Nat.lt_of_lt_of_le lt le)
  unfold reached
  rw [List.findIdx_eq inside, and_iff_left before, entry]
  cases a.value <;> simp

/-- Unless a label behind the default case equals the tag, the code begins where it should. -/
theorem reached_eq_chosen (last : ∀ d k a b, w.arms[d]? = some a → a.value = none → w.arms[k]? = some b →
    b.value.isSome = true → d < k → y k ≠ x) : w.reached x y = w.chosen x y := by
  have entry : ∀ (i : Nat) (inside : i < (w.labels y).length),
      ∃ a, w.arms[i]? = some a ∧ (w.labels y)[i] = a.value.map fun _ => y i := by
    intro i inside
    have low : i < w.arms.length := by simpa [labels] using inside
    exact ⟨w.arms[i], List.getElem?_eq_getElem low, by simp [labels]⟩
  unfold reached chosen
  split
  · rename_i equal
    have inside : (w.labels y).findIdx (· = some x) < (w.labels y).length :=
      List.findIdx_lt_length.2 ⟨_, equal, by simp⟩
    have hit : (w.labels y)[(w.labels y).findIdx (· = some x)] = some x := by
      simpa using List.findIdx_getElem (p := fun l => decide (l = some x)) (w := inside)
    refine (List.findIdx_eq inside).2 ⟨by simp [hit], fun j lt => ?_⟩
    have differs : (w.labels y)[j] ≠ some x := by
      simpa using List.not_of_lt_findIdx (p := fun l => decide (l = some x)) lt
    -- a default case here would stand before the equal label
    have labelled : (w.labels y)[j] ≠ none := by
      intro default
      obtain ⟨a, ha, ja⟩ := entry j (lt.trans inside)
      obtain ⟨b, hb, kb⟩ := entry _ inside
      rw [default] at ja
      rw [hit] at kb
      obtain ⟨v, hv, same⟩ := Option.map_eq_some_iff.1 kb.symm
      exact last j _ a b ha (Option.map_eq_none_iff.1 ja.symm) hb (by simp [hv]) lt same
    simp [differs, labelled]
  · rename_i without
    refine Nat.le_antisymm (List.findIdx_le_findIdx ?_) (List.findIdx_le_findIdx ?_)
    · intro l _ default
      exact decide_eq_true (.inl (of_decide_eq_true default))
    · intro l mem hit
      have differs : l ≠ some x := fun same => without (same ▸ mem)
      exact decide_eq_true ((of_decide_eq_true hit).resolve_right differs)

end Choice

end Switch

end DeltaSlice

/-!
Small steps at a switch and at its cases. The tag is evaluated, cases are passed by or their labels are compared with
the tag, and bodies run. What a case leaves behind says whether its body ran, for the next one to fall into.
-/

namespace DeltaSlice

open Transition

theorem Success.bind_error_iff {ε α β : Type} {x : Except ε α} {f : α → Except ε β} {h : ε} :
    (x >>= f) = .error h ↔ x = .error h ∨ ∃ a, x = .ok a ∧ f a = .error h := by
  cases x with
  | error e => simp [bind, Except.bind]
  | ok a => simp [bind, Except.bind]

/-- The step goes on, with one result. -/
def SmallStep.Moves (st : SmallStep) (fs : List Frame) : Prop :=
  st.ends = false ∧ ∃ r, st.results = [r] ∧ r.frames = fs

namespace Simulator

/-- The observer refuses the step from `t`. -/
def Refuses (s : Simulator) (t : Transition) (h : Halt) : Prop :=
  (∃ e, (s.setup.observer.announce s.program t.resetAccesses e).result = .error h) ∨
    ∃ u e i, (s.setup.observer.evaluated s.program u e i).result = .error h

/-- There is one way on from `t`, unless the observer refuses it. This takes that the state may be changed and
that its frames can be edited. -/
structure Steers (s : Simulator) (t : Transition) (fs : List Frame) : Prop where
  moves : ∀ st, (s.smallStep t).result = .ok st → st.Moves fs
  refused : t.frozen = false → (∀ f ∈ t.frames, f.Firm) → ∀ h, (s.smallStep t).result = .error h → s.Refuses t h

variable {s : Simulator} {t r : Transition} {f : Frame} {below fs : List Frame} {e : Expr}

theorem observeResults_refused {o : Option Expr} {i : Int} {ts : List Transition} {h : Halt}
    (refused : (s.observeResults o i ts).result = .error h) :
    ∃ u, (s.setup.observer.evaluated s.program u o i).result = .error h := by
  induction ts with
  | nil => cases refused
  | cons u ts ih =>
      unfold observeResults at refused
      rw [Run.result_bind] at refused
      rcases Success.bind_error_iff.1 refused with told | ⟨info, -, refused⟩
      · exact ⟨u, told⟩
      · rw [Run.result_bind] at refused
        rcases Success.bind_error_iff.1 refused with rest | ⟨rs, -, done⟩
        · exact ih rest
        · cases done

theorem steers_of_moves (hframes : t.frames = f :: below) (he : s.program.system.at? f.location = some e)
    (moves : ∀ u ps, u.frames = f :: below → ∃ st, s.exprStep u ps f e = pure st ∧ st.Moves fs) :
    s.Steers t fs where
  moves st hst := by
    obtain ⟨u, ps, st₀, hu, -, hst₀, ends, results⟩ := smallStep_frames hframes he hst
    obtain ⟨st₁, pure, going, r₀, one, frames⟩ := moves u ps hu
    rw [pure] at hst₀
    obtain rfl := Run.pure_result_iff.1 hst₀
    rw [one] at results
    obtain ⟨r, rest, same, empty, all⟩ := List.forall₂_cons_left_iff.1 results
    obtain rfl := List.forall₂_nil_left_iff.1 empty
    exact ⟨ends.trans going, r, all, same.trans frames⟩
  refused unfrozen firm h refused := by
    obtain ⟨ps, -, parts⟩ := smallStep_at unfrozen firm hframes he
    rw [parts] at refused
    rcases Success.bind_error_iff.1 refused with announced | ⟨scratch, -, refused⟩
    · exact .inl ⟨e, announced⟩
    · obtain ⟨st, pure, -⟩ := moves { t.resetAccesses with scratch } ps hframes
      rw [pure] at refused
      rcases Success.bind_error_iff.1 refused with halted | ⟨st₀, -, refused⟩
      · cases halted
      · rcases Success.bind_error_iff.1 refused with told | ⟨rs, -, done⟩
        · obtain ⟨u, told⟩ := observeResults_refused told
          exact .inr ⟨u, _, _, told⟩
        · cases done

end Simulator

/-- The result of child `i` in the first of the levels. -/
def resultIn (ls : List Level) (i : Int) : Value := ((ls[0]?.bind (elementAt? · i)).join).getD .unknown

namespace Frame

variable {f : Frame} {i : Int}

theorem value_zero : f.value 0 i = resultIn f.levels i := rfl

theorem value_one : f.value 1 i = resultIn (f.levels.drop 1) i := by
  unfold resultIn
  rw [List.getElem?_drop]
  rfl

end Frame

namespace Switch

section

variable {s : Simulator} {w : Switch s.program.system} {t r : Transition} {f : Frame} {k : Nat} {a : Arm}

theorem found_case (ha : w.arms[k]? = some a) : s.program.system.at? (w.case k) = some a.expr := by
  have child : elementAt? (w.tag :: w.arms.map Arm.expr) ((k : Int) + 1) = some a.expr := by
    have : ((k : Int) + 1).toNat = k + 1 := by omega
    rw [elementAt?, if_neg (by omega), this]
    simp [ha]
  exact (System.at?_cons w.found).trans child

theorem steers (hframes : t.frames = f :: w.below) (here : f.location = w.location) :
    s.Steers t ((if f.comingFrom = w.arms.length then s.program.system.finish .unknown f
      else f.enter (f.comingFrom + 1)) :: w.below) := by
  refine Simulator.steers_of_moves hframes (here ▸ w.found) fun u ps hu => ⟨_, rfl, ?_⟩
  unfold Simulator.switchStep
  dsimp only
  rw [List.length_map]
  split
  · rename_i start
    refine ⟨rfl, _, rfl, ?_⟩
    rw [if_neg (by omega), start]
    exact frames_mapTop (t := u.mapConditions _) hu _
  · split
    · exact ⟨rfl, _, rfl, frames_finish (t := u.mapConditions _) hu _ _⟩
    · split
      · rename_i tag
        refine ⟨rfl, _, rfl, ?_⟩
        rw [tag]
        exact frames_mapTop hu _
      · exact ⟨rfl, _, rfl, frames_mapTop hu _⟩

end

end Switch

/-- Into the body of a case, or past it if it is empty. -/
def Arm.into (a : Arm) (sys : System) (f : Frame) : Frame :=
  if a.body.isEmpty then sys.finish (.bool true) f else f.enter a.first

namespace Switch

section

variable {s : Simulator} {w : Switch s.program.system} {t u r : Transition} {f : Frame} {k : Nat} {a : Arm}

theorem into_frames {below : List Frame} (hu : u.frames = f :: below) :
    (if a.body.isEmpty then u.finish s.program.system (.bool true)
      else u.enter (if a.value.isSome then 1 else 0)).frames = a.into s.program.system f :: below := by
  unfold Arm.into
  split
  · exact frames_finish hu _ _
  · rw [show ((if a.value.isSome then 1 else 0 : Int)) = a.first by unfold Arm.first; split <;> rfl]
    exact frames_mapTop hu _

variable (ha : w.arms[k]? = some a) (hframes : t.frames = f :: w.below) (here : f.location = w.case k)

include ha hframes here

/-- A case that is reached is fallen into, or entered as the default case, or its label is evaluated. -/
theorem steers_case (start : f.comingFrom = -1) :
    s.Steers t ((if 0 < k ∧ (f.value 1 k).truth? = some true ∨ a.value = none then a.into s.program.system f
      else f.enter 0) :: w.below) := by
  have index : (f.index?).getD 0 = k + 1 := by
    rw [Frame.index?, Frame.path, here]
    rfl
  refine Simulator.steers_of_moves hframes (here ▸ found_case ha) fun u ps hu => ⟨_, rfl, ?_⟩
  unfold Simulator.armStep
  dsimp only
  rw [if_pos start, index]
  have fallen : (decide (1 < (k : Int) + 1) && decide ((f.value 1 ((k : Int) + 1 - 1)).truth? = some true) ||
      a.value.isNone) = true ↔ 0 < k ∧ (f.value 1 k).truth? = some true ∨ a.value = none := by
    rw [show (k : Int) + 1 - 1 = k by omega]
    simp
  split
  · rename_i into
    rw [if_pos (fallen.1 into)]
    exact ⟨rfl, _, rfl, into_frames hu⟩
  · rename_i passed
    rw [if_neg (mt fallen.2 passed)]
    exact ⟨rfl, _, rfl, frames_mapTop hu _⟩

/-- A label whose value is known decides about its case. -/
theorem steers_label {x z : Payload} (labelled : a.value.isSome = true) (tested : f.comingFrom = 0)
    (tag : f.value 1 0 = .known x) (label : f.value 0 0 = .known z) :
    s.Steers t ((if z = x then a.into s.program.system f else s.program.system.finish (.bool false) f) :: w.below) := by
  refine Simulator.steers_of_moves hframes (here ▸ found_case ha) fun u ps hu => ⟨_, rfl, ?_⟩
  unfold Simulator.armStep
  dsimp only
  have same : (Value.apply .eq (f.value 1 0) (f.value 0 0)).truth? = some (decide (z = x)) := by
    rw [tag, label]
    by_cases equal : z = x
    · simp [Value.apply, Value.isKnown, Value.bool, Value.lit, Value.truth?, equal]
    · simp [Value.apply, Value.isKnown, Value.bool, Value.lit, Value.truth?, equal, Ne.symm equal]
  rw [if_neg (by omega), if_pos (by simp [tested, labelled]), same]
  by_cases equal : z = x
  · rw [if_pos equal, decide_eq_true equal]
    exact ⟨rfl, _, rfl, into_frames hu⟩
  · rw [if_neg equal, decide_eq_false equal]
    exact ⟨rfl, _, rfl, frames_finish hu _ _⟩

/-- A statement is followed by the next one; the last one ends the case. -/
theorem steers_statement {i : Nat} (coming : f.comingFrom = (a.first + i : Nat)) :
    s.Steers t ((if i + 1 = a.body.length then s.program.system.finish (.bool true) f
      else f.enter (a.first + (i + 1) : Nat)) :: w.below) := by
  refine Simulator.steers_of_moves hframes (here ▸ found_case ha) fun u ps hu => ⟨_, rfl, ?_⟩
  have length := a.length_children
  have behind : ¬ (decide (f.comingFrom = 0) && a.value.isSome) = true := by
    intro label
    obtain ⟨zero, labelled⟩ := Bool.and_eq_true_iff.1 label
    have first : a.first = 1 := if_pos labelled
    have zero := of_decide_eq_true zero
    omega
  unfold Simulator.armStep
  dsimp only
  have children : (a.expr.children.length : Int) = a.first + a.body.length := by
    rw [length]
    omega
  rw [if_neg (by omega), if_neg behind, children]
  by_cases last : i + 1 = a.body.length
  · rw [if_pos (by omega), if_pos last]
    exact ⟨rfl, _, rfl, frames_finish hu _ _⟩
  · rw [if_neg (by omega), if_neg last, coming]
    exact ⟨rfl, _, rfl, frames_mapTop hu _⟩

end

end Switch

end DeltaSlice

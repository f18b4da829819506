import DeltaSlice.Proofs.Switches.Cases

/-!
Stages of code in a switch. From each stage the code goes on to another one, or it leaves the switch. What was seen of
the switch until then is a beginning of its plan.
-/

namespace DeltaSlice

open Transition

namespace Switch

/-- Where the code may be in the switch, with what was seen of the switch until then; the first body that is run is
that of the case `first`. -/
inductive Stage {sys : System} (w : Switch sys) (x : Payload) (first : Nat) : List Mark → List Frame → Prop
  | start {f : Frame} : f.location = w.location → f.comingFrom = -1 → Stage w x first [] (f :: w.below)
  | tag {ls : List Level} {fs : List Frame} : Under w.location 0 ls w.below fs → Stage w x first [] fs
  | tagged {f : Frame} : f.location = w.location → f.comingFrom = 0 → Stage w x first [] (f :: w.below)
  | passed {k : Nat} {f : Frame} : k < w.arms.length → f.location = w.location → f.comingFrom = k + 1 →
      f.value 0 0 = .known x → f.value 0 (k + 1) = .bool (first ≤ k) →
      Stage w x first (w.planned first (k + 1)) (f :: w.below)
  | reached {k : Nat} {a : Arm} {f : Frame} : w.arms[k]? = some a → f.location = w.case k → f.comingFrom = -1 →
      f.value 1 0 = .known x → (0 < k → f.value 1 k = .bool (first < k)) →
      Stage w x first (w.planned first k) (f :: w.below)
  | label {k : Nat} {a : Arm} {ls : List Level} {fs : List Frame} : w.arms[k]? = some a → a.value.isSome = true →
      k ≤ first → resultIn ls 0 = .known x → Under (w.case k) 0 ls w.below fs → Stage w x first (w.planned first k) fs
  | labelled {k : Nat} {a : Arm} {f : Frame} : w.arms[k]? = some a → a.value.isSome = true → k ≤ first →
      f.value 1 0 = .known x → f.location = w.case k → f.comingFrom = 0 →
      Stage w x first (w.planned first k) (f :: w.below)
  | body {k i : Nat} {a : Arm} {ls : List Level} {fs : List Frame} : w.arms[k]? = some a → first ≤ k →
      i < a.body.length → resultIn ls 0 = .known x → Under (w.case k) (a.first + i : Nat) ls w.below fs →
      Stage w x first (w.planned first k ++ [.begins k]) fs
  | statement {k i : Nat} {a : Arm} {f : Frame} : w.arms[k]? = some a → first ≤ k → i < a.body.length →
      f.value 1 0 = .known x → f.location = w.case k → f.comingFrom = (a.first + i : Nat) →
      Stage w x first (w.planned first k ++ [.begins k]) (f :: w.below)

/-- The code goes on in the switch, or it leaves it, behind the last case or by a jump. -/
def Onward {sys : System} (w : Switch sys) (x : Payload) (first : Nat) (ms : List Mark) (fs fs' : List Frame) : Prop :=
  (w.Stage x first (ms ++ w.marks fs fs') fs' ∧ ¬ w.Finished fs ∧ ¬ w.Leaves fs) ∨
    ¬ w.Within fs' ∧ (w.Finished fs ∨ w.Leaves fs)

section Positions

variable {sys : System} {w : Switch sys} {x : Payload} {first k : Nat} {a : Arm} {f : Frame} {fs : List Frame}
  {c : Int} {ls : List Level} {ms : List Mark}

theorem within_top : w.Within (f :: w.below) ↔
    f.location.routine = w.location.routine ∧ w.location.path <:+ f.location.path := by
  constructor
  · rintro ⟨called, g, same, inside⟩
    obtain ⟨-, rfl⟩ := called_eq_nil same
    exact inside
  · exact fun inside => ⟨[], f, rfl, inside⟩

theorem within_under {l : Location} (inside : l.routine = w.location.routine ∧ w.location.path <:+ l.path)
    (h : Under l c ls w.below fs) : w.Within fs := by
  obtain ⟨called, f, q, rfl, here, -⟩ := h
  refine ⟨called, f, rfl, by rw [here, inside.1], ?_⟩
  rw [Frame.path_of_location here]
  exact inside.2.trans ((List.suffix_cons c _).trans (List.suffix_append q _))

theorem within_case (w : Switch sys) (k : Nat) :
    (w.case k).routine = w.location.routine ∧ w.location.path <:+ (w.case k).path :=
  ⟨rfl, List.suffix_cons _ _⟩

/-- At every stage the code is in the switch. -/
theorem Stage.within (h : w.Stage x first ms fs) : w.Within fs := by
  cases h with
  | start here | tagged here | passed _ here => exact within_top.2 (here ▸ ⟨rfl, List.suffix_rfl⟩)
  | reached _ here => exact within_top.2 (here ▸ within_case w _)
  | labelled _ _ _ _ here | statement _ _ _ _ here => exact within_top.2 (here ▸ within_case w _)
  | tag under => exact within_under ⟨rfl, List.suffix_rfl⟩ under
  | label _ _ _ _ under | body _ _ _ _ under => exact within_under (within_case w _) under

/-- A frame that has gone back above the switch is not in it any more. -/
theorem not_within_of_lt (outside : f.path.length < w.location.path.length) : ¬ w.Within (f :: w.below) :=
  fun within => Nat.not_le_of_lt outside (within_top.1 within).2.length_le

theorem leaves_top {e : Expr} (he : sys.at? f.location = some e) : w.Leaves (f :: w.below) ↔ w.LeadsOut f e := by
  constructor
  · rintro ⟨g, e', same, he', leads⟩
    obtain ⟨rfl, -⟩ := List.cons.inj same
    obtain rfl := Option.some.inj (he.symm.trans he')
    exact leads
  · exact fun leads => ⟨f, e, rfl, he, leads⟩

theorem LeadsOut.isJump {e : Expr} (leads : w.LeadsOut f e) : e.isJump = true := by
  cases e with
  | exit | next | ret => rfl
  | _ => exact leads.elim

/-- An expression of the switch itself leads nowhere else. -/
theorem not_leaves {e : Expr} (he : sys.at? f.location = some e) (calm : e.isJump = false) :
    ¬ w.Leaves (f :: w.below) := by
  rw [leaves_top he]
  intro leads
  rw [leads.isJump] at calm
  cases calm

end Positions

section Steps

variable {s : Simulator} {w : Switch s.program.system} {t r : Transition} {f : Frame} {x : Payload} {first k : Nat}
  {a : Arm} {ms : List Mark} {fs : List Frame} {ls : List Level}

theorem path_pos (w : Switch s.program.system) : 0 < w.location.path.length := by
  refine List.length_pos_iff.2 fun empty => ?_
  have found : s.program.system.at? ⟨w.location.routine, w.location.path⟩ = some _ := w.found
  rw [empty] at found
  cases found

/-- The switch is left with a result that no one uses. -/
theorem finish_outside (here : f.location = w.location) (x : Value) :
    ¬ w.Within (s.program.system.finish x f :: w.below) := by
  obtain ⟨i, up, path⟩ := List.exists_cons_of_length_pos (path_pos w)
  have child : f.location = Location.child ⟨w.location.routine, up⟩ i := by rw [here, Location.child, ← path]
  refine not_within_of_lt ?_
  rw [Frame.path, Frame.finish_location child, path]
  exact Nat.lt_succ_self _

/-- A case leaves behind whether its body ran, and the tag stays. -/
theorem passed_of_finish (first : Nat) (ha : w.arms[k]? = some a) (here : f.location = w.case k)
    (tag : f.value 1 0 = .known x) :
    w.Stage x first (w.planned first (k + 1)) (s.program.system.finish (.bool (first ≤ k)) f :: w.below) := by
  have path : f.path = ((k : Int) + 1) :: w.location.path := by
    rw [Frame.path, here]
    rfl
  have kept : s.program.system.isUsed f.location = true := by
    rw [here]
    exact System.isUsed_child w.found
  obtain ⟨level, outer, levels⟩ : ∃ l ls, f.levels.drop 1 = l :: ls := by
    cases hlevels : f.levels.drop 1 with
    | nil =>
        rw [Frame.value_one, hlevels] at tag
        cases tag
    | cons l ls => exact ⟨l, ls, rfl⟩
  have index : ((k : Int) + 1).toNat = k + 1 := by omega
  have levels' := index ▸ Frame.finish_levels path (by omega) kept levels (.bool (first ≤ k))
  have result : ∀ i, (s.program.system.finish (.bool (first ≤ k)) f).value 0 i =
      if i = (k + 1 : Nat) then .bool (first ≤ k) else f.value 1 i := by
    intro i
    rw [Frame.value_zero, Frame.value_one, levels', levels]
    unfold resultIn
    simp only [List.getElem?_cons_zero, Option.bind_some, Level.slot_set]
    split <;> rfl
  refine .passed (List.getElem?_eq_some_iff.1 ha).1 (Frame.finish_location here _) (Frame.finish_comingFrom here _)
    ?_ ?_
  · rw [result, if_neg (by omega), tag]
  · exact (result _).trans (if_pos rfl)

/-- A case that is left for the next one has run, or was passed by, or is empty. -/
theorem marks_finish (ha : w.arms[k]? = some a) (here : f.location = w.case k) (x : Value) :
    w.marks (f :: w.below) (s.program.system.finish x f :: w.below) =
      if a.body ≠ [] ∧ f.comingFrom = a.expr.children.length - 1 then [.ends k] else [] := by
  have back : ¬ Stands ((w.case k).child a.first) w.below (s.program.system.finish x f :: w.below) := by
    rw [stands_top, Frame.finish_location here x]
    intro same
    have lengths := congrArg (fun l : Location => l.path.length) same
    simp only [case, Location.child, List.length_cons] at lengths
    omega
  rw [marks_at_case ha here, if_neg back, List.append_nil]

/-- A case from whose label or start the code does not end a body. -/
theorem marks_finish_early (ha : w.arms[k]? = some a) (here : f.location = w.case k) (early : f.comingFrom < a.first)
    (x : Value) : w.marks (f :: w.below) (s.program.system.finish x f :: w.below) = [] := by
  rw [marks_finish ha here, if_neg]
  rintro ⟨some, last⟩
  have := List.length_pos_iff.2 some
  rw [a.length_children] at last
  omega

/-- Into a child of a case, while its body is not at its end. -/
theorem marks_enter {c : Int} (ha : w.arms[k]? = some a) (here : f.location = w.case k)
    (early : f.comingFrom + 1 < a.first + a.body.length) :
    w.marks (f :: w.below) (f.enter c :: w.below) = if c = a.first then [.begins k] else [] := by
  have entered : (f.enter c).location = (w.case k).child c := by rw [Frame.enter, here]
  rw [marks_at_case ha here, if_neg, List.nil_append]
  · simp only [stands_top, entered, Location.child_inj]
  · rintro ⟨-, last⟩
    rw [a.length_children] at last
    omega

/-- Nothing in a case itself leads out of the switch. -/
theorem stays_at_case (ha : w.arms[k]? = some a) (here : f.location = w.case k) :
    ¬ w.Finished (f :: w.below) ∧ ¬ w.Leaves (f :: w.below) :=
  ⟨fun finished => case_ne w k (here.symm.trans (at_top.1 finished).1), not_leaves (here ▸ found_case ha) rfl⟩

/-- Into the body of the case at which the code begins, or of one that it falls into. -/
theorem onward_into (ha : w.arms[k]? = some a) (here : f.location = w.case k) (tag : f.value 1 0 = .known x)
    (early : f.comingFrom < a.first) (begun : first ≤ k) :
    w.Onward x first (w.planned first k) (f :: w.below) (a.into s.program.system f :: w.below) := by
  refine .inl ⟨?_, stays_at_case ha here⟩
  unfold Arm.into
  split
  · rename_i empty
    have plan : w.planned first (k + 1) = w.planned first k := by
      rw [planned_succ ha, if_pos begun, run, if_pos empty, List.append_nil]
    have passed := passed_of_finish first ha here tag
    rw [decide_eq_true begun, plan] at passed
    rw [marks_finish_early ha here early, List.append_nil]
    exact passed
  · rename_i filled
    have some : a.body ≠ [] := by simpa using filled
    have marks : w.marks (f :: w.below) (f.enter a.first :: w.below) = [.begins k] := by
      rw [marks_enter ha here (by have := List.length_pos_iff.2 some; omega), if_pos rfl]
    rw [marks]
    exact .body (i := 0) ha begun (List.length_pos_iff.2 some) (Frame.value_one.symm.trans tag)
      (Frame.enter_child here _)

/-- Past a case whose label differs from the tag. -/
theorem onward_past (ha : w.arms[k]? = some a) (here : f.location = w.case k) (tag : f.value 1 0 = .known x)
    (early : f.comingFrom < a.first) (before : k < first) :
    w.Onward x first (w.planned first k) (f :: w.below) (s.program.system.finish (.bool false) f :: w.below) := by
  refine .inl ⟨?_, stays_at_case ha here⟩
  have plan : w.planned first (k + 1) = w.planned first k := by
    rw [planned_succ ha, if_neg (Nat.not_le_of_lt before), List.append_nil]
  have passed := passed_of_finish first ha here tag
  rw [decide_eq_false (Nat.not_le_of_lt before), plan] at passed
  rw [marks_finish_early ha here early, List.append_nil]
  exact passed

/-- To the label of a case that is not fallen into. -/
theorem onward_label (ha : w.arms[k]? = some a) (here : f.location = w.case k) (tag : f.value 1 0 = .known x)
    (coming : f.comingFrom = -1) (before : k ≤ first) (some : a.value.isSome = true) :
    w.Onward x first (w.planned first k) (f :: w.below) (f.enter 0 :: w.below) := by
  refine .inl ⟨?_, stays_at_case ha here⟩
  have behind : a.first = 1 := if_pos some
  rw [marks_enter ha here (by omega), if_neg (by omega), List.append_nil]
  exact .label ha some before (Frame.value_one.symm.trans tag) (Frame.enter_child here 0)

/-- Behind a statement of a body. -/
theorem onward_statement {i : Nat} (ha : w.arms[k]? = some a) (here : f.location = w.case k)
    (tag : f.value 1 0 = .known x) (begun : first ≤ k) (inside : i < a.body.length)
    (coming : f.comingFrom = (a.first + i : Nat)) :
    w.Onward x first (w.planned first k ++ [.begins k]) (f :: w.below)
      ((if i + 1 = a.body.length then s.program.system.finish (.bool true) f
        else f.enter (a.first + (i + 1) : Nat)) :: w.below) := by
  have some : a.body ≠ [] := List.ne_nil_of_length_pos (by omega)
  refine .inl ⟨?_, stays_at_case ha here⟩
  split
  · rename_i last
    have plan : w.planned first (k + 1) = w.planned first k ++ [.begins k] ++ [.ends k] := by
      rw [planned_succ ha, if_pos begun, run, if_neg (by simpa using some), List.append_assoc]
      rfl
    have passed := passed_of_finish first ha here tag
    rw [decide_eq_true begun, plan] at passed
    rw [marks_finish ha here, if_pos ⟨some, by rw [a.length_children]; omega⟩]
    exact passed
  · rename_i more
    have marks : w.marks (f :: w.below) (f.enter (a.first + (i + 1) : Nat) :: w.below) = [] := by
      rw [marks_enter ha here (by omega), if_neg (by omega)]
    rw [marks, List.append_nil]
    exact .body (i := i + 1) ha begun (by omega) (Frame.value_one.symm.trans tag) (Frame.enter_child here _)

/-- From the start to the tag. -/
theorem onward_start (here : f.location = w.location) (coming : f.comingFrom = -1) :
    w.Onward x first [] (f :: w.below) (f.enter 0 :: w.below) := by
  refine .inl ⟨?_, ?_, not_leaves (here ▸ w.found) rfl⟩
  · rw [marks_at_switch here]
    exact .tag (Frame.enter_child here 0)
  · intro finished
    have := (at_top.1 finished).2
    omega

/-- From the tag or a case to the next case, or out of the switch. -/
theorem onward_next (here : f.location = w.location) (le : k ≤ w.arms.length) (coming : f.comingFrom = k)
    (tag : f.value 0 0 = .known x) (before : 0 < k → f.value 0 k = .bool (first < k)) :
    w.Onward x first (w.planned first k) (f :: w.below)
      ((if f.comingFrom = w.arms.length then s.program.system.finish .unknown f
        else f.enter (f.comingFrom + 1)) :: w.below) := by
  split
  · rename_i last
    exact .inr ⟨finish_outside here _, .inl ⟨f, rfl, here, last⟩⟩
  · rename_i more
    refine .inl ⟨?_, ?_, not_leaves (here ▸ w.found) rfl⟩
    · have inside : k < w.arms.length := by omega
      rw [marks_at_switch here, List.append_nil, coming]
      exact .reached (List.getElem?_eq_getElem inside) (by rw [Frame.enter, here]; rfl) rfl tag before
    · exact fun finished => more (at_top.1 finished).2

section Inside

variable {c : Int} {l : Location}

/-- Code below an expression stands further down. -/
theorem stands_under (h : Under l c ls w.below fs) {l' : Location} (stands : Stands l' w.below fs) :
    ∃ q, l' = ⟨l.routine, q ++ c :: l.path⟩ := by
  obtain ⟨f, rfl, here⟩ := stands
  obtain ⟨q, there, -⟩ := under_top.1 h
  exact ⟨q, here.symm.trans there⟩

theorem apart_tag (h : Under w.location 0 ls w.below fs) :
    ¬ Stands w.location w.below fs ∧ ∀ k, ¬ Stands (w.case k) w.below fs := by
  refine ⟨fun stands => ?_, fun k stands => ?_⟩
  · obtain ⟨q, same⟩ := stands_under h stands
    have lengths := congrArg (fun l : Location => l.path.length) same
    simp only [List.length_append, List.length_cons] at lengths
    omega
  · obtain ⟨q, same⟩ := stands_under h stands
    have paths := congrArg Location.path same
    have lengths := congrArg List.length paths
    simp only [case, Location.child, List.length_append, List.length_cons] at lengths
    obtain rfl := List.length_eq_zero_iff.1 (by omega : q.length = 0)
    have heads := (List.cons.inj paths).1
    omega

theorem apart_case (h : Under (w.case k) c ls w.below fs) :
    ¬ Stands w.location w.below fs ∧ ∀ k, ¬ Stands (w.case k) w.below fs := by
  have longer : ∀ {l' : Location}, Stands l' w.below fs → w.location.path.length + 2 ≤ l'.path.length := by
    intro l' stands
    obtain ⟨q, same⟩ := stands_under h stands
    have lengths := congrArg (fun l : Location => l.path.length) same
    simp only [case, Location.child, List.length_append, List.length_cons] at lengths
    omega
  refine ⟨fun stands => ?_, fun k stands => ?_⟩
  · have := longer stands
    omega
  · have := longer stands
    simp only [case, Location.child, List.length_cons] at this
    omega

section Calm

variable {v : Expr} (found : s.program.system.at? (l.child c) = some v)
  (calm : v.everywhere (fun e => !e.isJump) = true)

include found calm

theorem calm_under {q : Path} {e : Expr} (here : f.location = ⟨l.routine, q ++ c :: l.path⟩)
    (he : s.program.system.at? f.location = some e) : e.isJump = false := by
  simpa using System.test_below found calm (here ▸ he)

variable (h : Under l c ls w.below fs)

include h

theorem stays_under : ¬ w.Leaves fs := by
  rintro ⟨f, e, rfl, he, leaves⟩
  obtain ⟨q, here, -⟩ := under_top.1 h
  exact not_leaves he (calm_under found calm here he) ⟨f, e, rfl, he, leaves⟩

/-- Code that does not jump comes back from the child of the switch or of a case which it evaluates. -/
theorem onward_calm {st : SmallStep} (hfs : t.frames = fs)
    (apart : ¬ Stands w.location w.below fs ∧ ∀ k, ¬ Stands (w.case k) w.below fs)
    (stays : ∀ fs, Under l c ls w.below fs ∨ Back l c ls w.below fs → w.Stage x first ms fs)
    (hst : (s.smallStep t).result = .ok st) (hr : r ∈ st.results) : w.Onward x first ms fs r.frames := by
  refine .inl ⟨?_, fun finished => apart.1 finished.stands, stays_under found calm h⟩
  rw [marks_elsewhere apart.2, List.append_nil]
  exact stays _ (Simulator.smallStep_under (hfs ▸ h) (fun _ _ _ _ here he => calm_under found calm here he) hst hr)

end Calm

end Inside

theorem returns_outside {u : Transition} (h : Simulator.Returns u f w.below fs) : ¬ w.Within fs := by
  rintro ⟨called, g, same, -, inside⟩
  cases h with
  | @back caller rest v below =>
      have lengths := congrArg List.length same
      rw [below] at lengths
      simp only [List.length_cons, List.length_append] at lengths
      omega
  | ends none ended =>
      rcases ended with rfl | ⟨p, -, rfl⟩
      · simp at same
      · obtain ⟨rfl, -⟩ : g = .start p.routine (.lit (.inst p.inst)) ∧ called = [] := by
          rw [none] at same
          cases called with
          | nil => exact ⟨(List.cons.inj same).1.symm, rfl⟩
          | cons => simp at same
        have short := inside.length_le
        have := path_pos w
        simp only [Frame.start, Frame.path, List.length_nil] at short
        omega

/-- The target of an exit or repetition in a body is in the body, or it is the switch or stands above it. -/
theorem target_cases {q : Path} {c : Int} {label : String} {exits : Bool} {m : Nat} {target : Expr}
    (ha : w.arms[k]? = some a) (here : f.location = ⟨(w.case k).routine, q ++ c :: (w.case k).path⟩)
    (found : s.program.system.target? f.location.routine label exits 1 f.path.tail = some (m, target)) :
    m < f.path.length ∧ (m ≤ q.length ∧ m + w.location.path.length < f.path.length ∨
      f.path.length ≤ m + w.location.path.length ∧
        (exits = false → f.path.length < m + w.location.path.length)) := by
  have path : f.path = q ++ c :: (w.case k).path := Frame.path_of_location here
  have routine : f.location.routine = w.location.routine := by
    rw [here]
    rfl
  have length : f.path.length = q.length + 2 + w.location.path.length := by
    rw [path]
    simp only [case, Location.child, List.length_append, List.length_cons]
    omega
  obtain ⟨i, up, within, drop, at_target, isTarget⟩ := System.target?_tail found
  rw [routine, ← drop] at at_target
  refine ⟨within, ?_⟩
  by_cases low : m ≤ q.length
  · exact .inl ⟨low, by omega⟩
  · have dropped : f.path.drop m = (w.case k).path.drop (m - (q.length + 1)) := by
      rw [path, List.drop_append, List.drop_of_length_le (by omega : q.length ≤ m), List.nil_append,
        show m - q.length = (m - (q.length + 1)) + 1 by omega, List.drop_succ_cons]
    rw [dropped] at at_target
    -- a case is no target, and no target of repetitions is a switch
    have case_no : m ≠ q.length + 1 := by
      rintro rfl
      rw [Nat.sub_self, List.drop_zero] at at_target
      obtain rfl := Option.some.inj ((found_case ha).symm.trans at_target)
      cases isTarget
    refine .inr ⟨by omega, fun repeats => ?_⟩
    have switch_no : m ≠ q.length + 2 := by
      rintro rfl
      have up : (w.case k).path.drop (q.length + 2 - (q.length + 1)) = w.location.path := by
        rw [show q.length + 2 - (q.length + 1) = 1 by omega]
        rfl
      rw [up] at at_target
      obtain rfl := Option.some.inj (w.found.symm.trans at_target)
      rw [repeats] at isTarget
      cases isTarget
    omega

section Body

variable {i : Nat} (ha : w.arms[k]? = some a) (begun : first ≤ k) (inside : i < a.body.length)
  (tag : resultIn ls 0 = .known x) (under : Under (w.case k) (a.first + i : Nat) ls w.below t.frames)

include ha begun inside tag under

/-- In a body, or back from there to its case. -/
theorem onward_stay {fs' : List Frame} (stays : Under (w.case k) (a.first + i : Nat) ls w.below fs' ∨
      Back (w.case k) (a.first + i : Nat) ls w.below fs') (leaves : ¬ w.Leaves t.frames) :
    w.Onward x first (w.planned first k ++ [.begins k]) t.frames fs' := by
  have apart := apart_case under
  refine .inl ⟨?_, fun finished => apart.1 finished.stands, leaves⟩
  rw [marks_elsewhere apart.2, List.append_nil]
  rcases stays with below | ⟨g, rfl, there, coming, kept⟩
  · exact .body ha begun inside tag below
  · refine .statement ha begun inside ?_ there coming
    rw [Frame.value_one, ← Frame.above_self, Frame.path, there, kept, tag]

variable {st : SmallStep} {id : Nat} {label : String} {value : Option Expr} (hframes : t.frames = f :: w.below)
  (hst : (s.smallStep t).result = .ok st) (hr : r ∈ st.results)

include hframes hst hr

/-- At an exit. -/
theorem onward_exit (he : s.program.system.at? f.location = some (.exit id label)) :
    w.Onward x first (w.planned first k ++ [.begins k]) t.frames r.frames := by
  obtain ⟨q, here, kept⟩ := under_top.1 (hframes ▸ under)
  obtain ⟨m, target, j, found, hj, frames⟩ := Simulator.smallStep_exit hframes he hst hr
  have leaves : w.Leaves t.frames ↔ w.LeadsOut f (.exit id label) := hframes ▸ leaves_top he
  obtain ⟨short, ⟨low, near⟩ | ⟨high, -⟩⟩ := target_cases ha here found
  · refine onward_stay ha begun inside tag under (frames ▸ kept ▸ Frame.exit_under here low hj) ?_
    rw [leaves]
    rintro ⟨m', target', found', high⟩
    obtain ⟨rfl, -⟩ := Prod.mk.inj (Option.some.inj (found.symm.trans found'))
    omega
  · refine .inr ⟨?_, .inr (leaves.2 ⟨m, target, found, high⟩)⟩
    rw [frames]
    refine not_within_of_lt ?_
    rw [Frame.path, Frame.put_location]
    change (f.path.drop (m + 1)).length < _
    rw [List.length_drop]
    omega

/-- At a repetition. -/
theorem onward_repeat (he : s.program.system.at? f.location = some (.next id label)) :
    w.Onward x first (w.planned first k ++ [.begins k]) t.frames r.frames := by
  obtain ⟨q, here, kept⟩ := under_top.1 (hframes ▸ under)
  obtain ⟨m, target, j, found, frames⟩ := Simulator.smallStep_next hframes he hst hr
  have leaves : w.Leaves t.frames ↔ w.LeadsOut f (.next id label) := hframes ▸ leaves_top he
  obtain ⟨short, ⟨low, near⟩ | ⟨high, higher⟩⟩ := target_cases ha here found
  · refine onward_stay ha begun inside tag under (.inl (frames ▸ kept ▸ Frame.next_under here low j)) ?_
    rw [leaves]
    rintro ⟨m', target', found', high⟩
    obtain ⟨rfl, -⟩ := Prod.mk.inj (Option.some.inj (found.symm.trans found'))
    omega
  · refine .inr ⟨?_, .inr (leaves.2 ⟨m, target, found, high⟩)⟩
    rw [frames]
    refine not_within_of_lt ?_
    change (f.path.drop m).length < _
    have := higher rfl
    rw [List.length_drop]
    omega

/-- At a return, whose value is evaluated first. -/
theorem onward_return (he : s.program.system.at? f.location = some (.ret id value)) :
    w.Onward x first (w.planned first k ++ [.begins k]) t.frames r.frames := by
  obtain ⟨q, here, kept⟩ := under_top.1 (hframes ▸ under)
  have leaves : w.Leaves t.frames ↔ w.LeadsOut f (.ret id value) := hframes ▸ leaves_top he
  rcases Simulator.smallStep_return hframes he hst hr with ⟨some, start, frames⟩ | ⟨done, u, returned⟩
  · refine onward_stay ha begun inside tag under (.inl (frames ▸ kept ▸ Frame.enter_under here 0)) ?_
    rw [leaves]
    rintro (rfl | later)
    · cases some
    · exact later start
  · exact .inr ⟨returns_outside returned, .inr (leaves.2 done)⟩

omit hframes in
/-- In a body, the code stays there or comes back to the case, unless it leaves the switch. -/
theorem onward_body : w.Onward x first (w.planned first k ++ [.begins k]) t.frames r.frames := by
  by_cases jump : ∃ f e, t.frames = f :: w.below ∧ s.program.system.at? f.location = some e ∧ e.isJump = true
  · obtain ⟨f, e, hframes, he, jump⟩ := jump
    cases e with
    | exit => exact onward_exit ha begun inside tag under hframes hst hr he
    | next => exact onward_repeat ha begun inside tag under hframes hst hr he
    | ret => exact onward_return ha begun inside tag under hframes hst hr he
    | _ => cases jump
  · have calm : ∀ f q e, t.frames = f :: w.below →
        f.location = ⟨(w.case k).routine, q ++ ((a.first + i : Nat) : Int) :: (w.case k).path⟩ →
        s.program.system.at? f.location = some e → e.isJump = false :=
      fun f q e hframes _ he => Bool.eq_false_iff.2 fun isJump => jump ⟨f, e, hframes, he, isJump⟩
    refine onward_stay ha begun inside tag under (Simulator.smallStep_under under calm hst hr) ?_
    exact fun ⟨f, e, hframes, he, leads⟩ => jump ⟨f, e, hframes, he, leads.isJump⟩

end Body

/-- The code is at the switch or at one of its cases. -/
def Steering {sys : System} (w : Switch sys) (fs : List Frame) : Prop :=
  Stands w.location w.below fs ∨ ∃ k < w.arms.length, Stands (w.case k) w.below fs

variable {y : Nat → Payload}

theorem found_tag (w : Switch s.program.system) : s.program.system.at? (w.location.child 0) = some w.tag :=
  System.at?_cons w.found

theorem found_label (ha : w.arms[k]? = some a) (some : a.value.isSome = true) :
    ∃ v, s.program.system.at? ((w.case k).child 0) = .some v ∧ v.everywhere (fun e => !e.isJump) = true := by
  obtain ⟨v, value⟩ := Option.isSome_iff_exists.1 some
  refine ⟨v, (System.at?_cons (found_case ha)).trans ?_, w.labels_calm a (List.mem_of_getElem? ha) v value⟩
  simp [Arm.expr, Expr.children, value, elementAt?]

/-- Behind the last case all bodies have been run. -/
theorem Stage.finished (stage : w.Stage x first ms fs) (finished : w.Finished fs) : ms = w.plan first := by
  have stands := finished.stands
  have elsewhere : ∀ {f k}, f.location = w.case k → ¬ Stands w.location w.below (f :: w.below) :=
    fun there here => case_ne w _ (there.symm.trans (stands_top.1 here))
  cases stage with
  | start _ coming =>
      have last := (at_top.1 finished).2
      omega
  | tagged _ coming =>
      have last := (at_top.1 finished).2
      rw [← planned_all, show w.arms.length = 0 by omega, planned_zero]
  | @passed k f inside _ coming =>
      have last := (at_top.1 finished).2
      rw [← planned_all, show w.arms.length = k + 1 by omega]
  | reached _ there => exact absurd stands (elsewhere there)
  | labelled _ _ _ _ there | statement _ _ _ _ there => exact absurd stands (elsewhere there)
  | tag under => exact absurd stands (apart_tag under).1
  | label _ _ _ _ under | body _ _ _ _ under => exact absurd stands (apart_case under).1

/-- Only the body that began last leads out of the switch otherwise. -/
theorem Stage.leaves (stage : w.Stage x first ms fs) (leaves : w.Leaves fs) :
    ∃ k before, w.InBody k fs ∧ ms = before ++ [.begins k] := by
  cases stage with
  | start here | tagged here | passed _ here => exact absurd leaves (not_leaves (here ▸ w.found) rfl)
  | reached ha here => exact absurd leaves (stays_at_case ha here).2
  | labelled ha _ _ _ here | statement ha _ _ _ here => exact absurd leaves (stays_at_case ha here).2
  | tag under => exact absurd leaves (stays_under (found_tag w) w.tag_calm under)
  | label ha some _ _ under =>
      obtain ⟨v, found, calm⟩ := found_label ha some
      exact absurd leaves (stays_under found calm under)
  | body ha _ inside _ under => exact ⟨_, _, ⟨_, _, _, ha, inside, under⟩, rfl⟩

/-- The bodies that were run are the first ones of the plan. -/
theorem Stage.part (stage : w.Stage x first ms fs) : ms <+: w.plan first := by
  cases stage with
  | start | tag | tagged => exact List.nil_prefix
  | passed | reached | label | labelled => exact planned_part first _
  | body ha begun inside | statement ha begun inside =>
      exact planned_begins_part ha (List.ne_nil_of_length_pos (by omega)) begun

/-- At a case the code goes into the body, behind the first one or at the default, or it evaluates the label. -/
theorem steers_onward_reached (hframes : t.frames = f :: w.below) (ha : w.arms[k]? = some a)
    (here : f.location = w.case k) (coming : f.comingFrom = -1) (tag : f.value 1 0 = .known x)
    (before : 0 < k → f.value 1 k = .bool (w.reached x y < k)) :
    ∃ fs, s.Steers t fs ∧
      w.Onward x (w.reached x y) (w.planned (w.reached x y) k) (f :: w.below) fs := by
  have early : f.comingFrom < a.first := by omega
  have fallen : 0 < k ∧ (f.value 1 k).truth? = some true ↔ w.reached x y < k := by
    constructor
    · rintro ⟨behind, ran⟩
      rw [before behind] at ran
      exact of_decide_eq_true (Option.some.inj ran)
    · intro lt
      have behind : 0 < k := by omega
      refine ⟨behind, ?_⟩
      rw [before behind, decide_eq_true lt]
      rfl
  have steers := steers_case ha hframes here coming
  simp only [fallen] at steers
  refine ⟨_, steers, ?_⟩
  split
  · rename_i into
    refine onward_into ha here tag early ?_
    rcases into with lt | default
    · exact lt.le
    · by_contra before
      have := (reached_eq_iff ha (Nat.le_of_not_le before)).2 (.inl default)
      omega
  · rename_i passed
    obtain ⟨before, labelled⟩ := not_or.1 passed
    exact onward_label ha here tag coming (Nat.le_of_not_lt before) (Option.isSome_iff_ne_none.2 labelled)

/-- Behind its label a case is entered or passed. -/
theorem steers_onward_labelled (hframes : t.frames = f :: w.below) (ha : w.arms[k]? = some a)
    (some : a.value.isSome = true) (before : k ≤ w.reached x y) (tag : f.value 1 0 = .known x)
    (here : f.location = w.case k) (coming : f.comingFrom = 0) (label : f.value 0 0 = .known (y k)) :
    ∃ fs, s.Steers t fs ∧
      w.Onward x (w.reached x y) (w.planned (w.reached x y) k) (f :: w.below) fs := by
  have early : f.comingFrom < a.first := by
    rw [coming, show a.first = 1 from if_pos some]
    exact Int.one_pos
  refine ⟨_, steers_label ha hframes here some coming tag label, ?_⟩
  have chosen := reached_eq_iff ha before
  split
  · rename_i equal
    exact onward_into ha here tag early (chosen.2 (.inr equal)).le
  · rename_i differs
    refine onward_past ha here tag early (Nat.lt_of_le_of_ne before fun same => ?_)
    rcases chosen.1 same.symm with none | equal
    · rw [none] at some
      cases some
    · exact differs equal

/-- Every stage goes on to the next one; at the switch and at its cases there is one way on. -/
theorem Stage.step (stage : w.Stage x (w.reached x y) ms t.frames) (eval : w.Evaluates x y t.frames) :
    (∃ fs, s.Steers t fs ∧ w.Onward x (w.reached x y) ms t.frames fs) ∨
      ¬ w.Steering t.frames ∧ ∀ st r, (s.smallStep t).result = .ok st → r ∈ st.results →
        w.Onward x (w.reached x y) ms t.frames r.frames := by
  generalize hfs : t.frames = fs at stage eval ⊢
  have calmly : ∀ {p : Prop}, ¬ Stands w.location w.below fs → (∀ k, ¬ Stands (w.case k) w.below fs) → p →
      ¬ w.Steering fs ∧ p := by
    rintro p switch cases h
    refine ⟨?_, h⟩
    rintro (stands | ⟨k, -, stands⟩)
    · exact switch stands
    · exact cases k stands
  cases stage with
  | start here coming =>
      have steers := steers hfs here
      rw [if_neg (by omega), coming] at steers
      exact .inl ⟨_, steers, onward_start here coming⟩
  | tagged here coming =>
      refine .inl ⟨_, steers hfs here, ?_⟩
      rw [← planned_zero (w := w) (w.reached x y)]
      exact onward_next here (Nat.zero_le _) coming (eval.tag _ rfl here coming) fun h => absurd h (Nat.lt_irrefl 0)
  | @passed k f inside here coming tag ran =>
      refine .inl ⟨_, steers hfs here, onward_next here inside (by rw [coming]; rfl) tag fun _ => ?_⟩
      rw [Nat.cast_succ, ran]
      exact congrArg Value.bool (decide_eq_decide.2 Nat.lt_succ_iff.symm)
  | reached ha here coming tag before =>
      exact .inl (steers_onward_reached hfs ha here coming tag before)
  | labelled ha some before tag here coming =>
      exact .inl (steers_onward_labelled hfs ha some before tag here coming
        (eval.label _ _ _ rfl ha some here coming))
  | @statement k i a f ha begun inside tag here coming =>
      exact .inl ⟨_, steers_statement ha hfs here coming, onward_statement ha here tag begun inside coming⟩
  | tag under =>
      obtain ⟨switch, cases⟩ := apart_tag under
      refine .inr (calmly switch cases fun st r hst hr => ?_)
      refine onward_calm (found_tag w) w.tag_calm under hfs ⟨switch, cases⟩ ?_ hst hr
      rintro fs (below | ⟨g, rfl, there, coming, -⟩)
      · exact .tag below
      · exact .tagged there coming
  | @label k a ls _ ha some before tag under =>
      obtain ⟨switch, cases⟩ := apart_case under
      refine .inr (calmly switch cases fun st r hst hr => ?_)
      obtain ⟨v, found, calm⟩ := found_label ha some
      refine onward_calm found calm under hfs ⟨switch, cases⟩ ?_ hst hr
      rintro fs (below | ⟨g, rfl, there, coming, kept⟩)
      · exact .label ha some before tag below
      · refine .labelled ha some before ?_ there coming
        rw [Frame.value_one, ← Frame.above_self, Frame.path, there, kept, tag]
  | @body k i a ls _ ha begun inside tag under =>
      obtain ⟨switch, cases⟩ := apart_case under
      refine .inr (calmly switch cases fun st r hst hr => ?_)
      subst hfs
      exact onward_body ha begun inside tag under hst hr

theorem Stage.onward (stage : w.Stage x (w.reached x y) ms t.frames) (eval : w.Evaluates x y t.frames)
    {st : SmallStep} (hst : (s.smallStep t).result = .ok st) (hr : r ∈ st.results) :
    w.Onward x (w.reached x y) ms t.frames r.frames := by
  rcases stage.step eval with ⟨fs, steers, onward⟩ | ⟨-, onward⟩
  · obtain ⟨-, r', one, frames⟩ := steers.moves st hst
    rw [one] at hr
    obtain rfl := List.mem_singleton.1 hr
    exact frames ▸ onward
  · exact onward st r hst hr

end Steps

end Switch

end DeltaSlice

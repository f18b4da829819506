import DeltaSlice.Model.Examples
import DeltaSlice.Proofs.Switches.Stages
import DeltaSlice.Proofs.Worklist.Walk

/-!
Courses of code through a switch, from its start until it is left. The bodies that run on a course are those of the
first case that is the default case or whose label equals the tag, and of the following cases, in order; empty ones
are passed through.
-/

namespace DeltaSlice

open Transition

namespace Switch

section Courses

variable {s : Simulator} {w : Switch s.program.system} {t r : Transition} {f : Frame} {fs : List Frame} {x : Payload}
  {y : Nat → Payload} {ms : List Mark}

/-- A course of the code through the switch, with what is seen of the switch on the way. Whenever the tag or a label
has been evaluated, it has its value. Where the code is interrupted, it is resumed with the same frames. -/
inductive Course (w : Switch s.program.system) (x : Payload) (y : Nat → Payload) :
    List Mark → Transition → Prop
  | enter {t : Transition} : At w.location (-1) w.below t.frames → Course w x y [] t
  | step {ms : List Mark} {t r : Transition} {st : SmallStep} : Course w x y ms t → w.Within t.frames →
      (s.smallStep t).result = .ok st → r ∈ st.results → w.Evaluates x y r.frames →
      Course w x y (ms ++ w.marks t.frames r.frames) r
  | rest {ms : List Mark} {t u : Transition} : Course w x y ms t → u.proc = t.proc → u.frames = t.frames →
      Course w x y ms u

/-- On a course the code is at a stage of the switch until it leaves it. -/
theorem Course.stage (h : w.Course x y ms t) (within : w.Within t.frames) :
    w.Stage x (w.reached x y) ms t.frames ∧ w.Evaluates x y t.frames := by
  induction h with
  | enter start =>
      obtain ⟨f, hframes, here, coming⟩ := start
      rw [hframes]
      refine ⟨.start here coming, ⟨fun g same _ zero => ?_, fun g k a same _ _ _ zero => ?_⟩⟩
      all_goals
        obtain ⟨rfl, -⟩ := List.cons.inj same
        omega
  | @step ms t r st _ inside hst hr eval ih =>
      refine ⟨?_, eval⟩
      obtain ⟨stage, before⟩ := ih inside
      rcases stage.onward before hst hr with ⟨stage, -⟩ | ⟨outside, -⟩
      · exact stage
      · exact absurd within outside
  | rest _ _ frames ih =>
      rw [frames] at within ⊢
      exact ih within

/-- A switch runs the bodies of its cases in order, beginning with that of the first case that is the default case or
whose label equals the tag, and it passes through empty ones. At the switch and at its cases there is one way on. The
switch is left behind the last case, or where the body that began last exits it, repeats a loop around it, or returns.
It begins with the case that it should begin with, unless a label behind the default case equals the tag. -/
theorem Course.runs_bodies (course : w.Course x y ms t) (within : w.Within t.frames) :
    ms <+: w.plan (w.reached x y) ∧
    (w.Steering t.frames → ∃ fs, s.Steers t fs) ∧
    (∀ st r, (s.smallStep t).result = .ok st → r ∈ st.results →
      (¬ w.Within r.frames ↔ w.Finished t.frames ∨ w.Leaves t.frames)) ∧
    (w.Finished t.frames → ms = w.plan (w.reached x y)) ∧
    (w.Leaves t.frames → ∃ k before, w.InBody k t.frames ∧ ms = before ++ [.begins k]) ∧
    ((∀ d k a b, w.arms[d]? = some a → a.value = none → w.arms[k]? = some b → b.value.isSome = true → d < k →
      y k ≠ x) → w.reached x y = w.chosen x y) := by
  obtain ⟨stage, eval⟩ := course.stage within
  refine ⟨stage.part, fun steering => ?_, fun st r hst hr => ?_, stage.finished, stage.leaves, reached_eq_chosen⟩
  · rcases stage.step eval with ⟨fs, steers, -⟩ | ⟨elsewhere, -⟩
    · exact ⟨fs, steers⟩
    · exact absurd steering elsewhere
  · have onward := stage.onward eval hst hr
    rcases onward with ⟨next, finished, leaves⟩ | ⟨outside, out⟩
    · exact iff_of_false (not_not_intro next.within) (not_or.2 ⟨finished, leaves⟩)
    · exact iff_of_true outside out

section Following

/-- The frame that runs the switch, as far as there are frames above those below it. -/
def frame? {sys : System} (w : Switch sys) (fs : List Frame) : Option Frame :=
  match fs.drop (fs.length - (w.below.length + 1)) with
  | f :: rest => if rest = w.below then some f else none
  | [] => none

theorem frame?_eq_some {sys : System} {w : Switch sys} :
    w.frame? fs = some f ↔ ∃ called, fs = called ++ f :: w.below := by
  unfold frame?
  constructor
  · intro h
    split at h
    · rename_i g rest drop
      split at h
      · rename_i same
        obtain rfl := Option.some.inj h
        rw [same] at drop
        exact ⟨fs.take (fs.length - (w.below.length + 1)), by rw [← drop, List.take_append_drop]⟩
      · cases h
    · cases h
  · rintro ⟨called, rfl⟩
    have drop : (called ++ f :: w.below).drop ((called ++ f :: w.below).length - (w.below.length + 1)) =
        f :: w.below := by simp
    rw [drop]
    simp

instance {sys : System} (w : Switch sys) (fs : List Frame) : Decidable (w.Within fs) :=
  decidable_of_iff (∃ f ∈ w.frame? fs, f.location.routine = w.location.routine ∧ w.location.path <:+ f.path) <| by
    simp only [Option.mem_def, frame?_eq_some, Within]
    exact ⟨fun ⟨f, ⟨called, h⟩, rest⟩ => ⟨called, f, h, rest⟩, fun ⟨called, f, h, rest⟩ => ⟨f, ⟨called, h⟩, rest⟩⟩

instance {sys : System} (w : Switch sys) (x : Payload) (y : Nat → Payload) (fs : List Frame) :
    Decidable (w.Evaluates x y fs) :=
  decidable_of_iff (∀ f ∈ fs.head?, fs.tail = w.below → f.comingFrom = 0 →
      (f.location = w.location → f.value 0 0 = .known x) ∧
      ∀ e ∈ w.arms.zipIdx, e.1.value.isSome = true → f.location = w.case e.2 → f.value 0 0 = .known (y e.2)) <| by
    constructor
    · intro h
      refine ⟨?_, ?_⟩
      · rintro f rfl here coming
        exact (h f rfl rfl coming).1 here
      · rintro f k a rfl ha some here coming
        exact (h f rfl rfl coming).2 (a, k) (by simpa [List.mem_zipIdx_iff_getElem?] using ha) some here
    · rintro ⟨tag, label⟩ f head tail coming
      obtain ⟨rest, rfl⟩ := List.head?_eq_some_iff.1 head
      obtain rfl : rest = w.below := tail
      refine ⟨fun here => tag f rfl here coming, fun e he some here => ?_⟩
      exact label f e.2 e.1 rfl (by simpa [List.mem_zipIdx_iff_getElem?] using he) some here coming

instance {sys : System} (w : Switch sys) (fs : List Frame) : Decidable (w.Finished fs) :=
  inferInstanceAs (Decidable (At w.location w.arms.length w.below fs))

/-- Follows the first results of a number of small steps through the switch. -/
def follow (w : Switch s.program.system) (x : Payload) (y : Nat → Payload) :
    Nat → List Mark → Transition → Option (List Mark × Transition)
  | 0, ms, t => some (ms, t)
  | n + 1, ms, t =>
    match (s.smallStep t).result with
    | .ok ⟨_, _, r :: _, _, _⟩ =>
      if w.Within t.frames ∧ w.Evaluates x y r.frames then w.follow x y n (ms ++ w.marks t.frames r.frames) r else none
    | _ => none

theorem course_of_follow {n : Nat} {ms' : List Mark} (course : w.Course x y ms t)
    (h : w.follow x y n ms t = some (ms', r)) : w.Course x y ms' r := by
  induction n generalizing ms t with
  | zero =>
      obtain ⟨rfl, rfl⟩ := Prod.mk.inj (Option.some.inj h)
      exact course
  | succ n ih =>
      unfold follow at h
      split at h
      · rename_i hst
        split at h
        · rename_i goes
          exact ih (course.step goes.1 hst List.mem_cons_self goes.2) h
        · cases h
      · cases h

end Following
end Courses

end Switch

namespace Examples

/-- `x = n;`, numbered from `id` on. -/
def stored (id : Nat) (n : Int64) : Expr := .binary id .assign (.var (id + 1) (field 0 "x")) (.const (id + 2) (.int n))

/-- `switch (2) { case 1: x = 1; case 2: x = 2; case 3: default: x = 4; }` -/
def selecting : System :=
  let x := field 0 "x"
  single [x] [] [⟨"run", [.switch 0 "" (number 2) [.arm 0 (some (number 1)) [assign x (number 1)],
    .arm 0 (some (number 2)) [assign x (number 2)], .arm 0 (some (number 3)) [], .arm 0 none [assign x (number 4)]]],
    [], false⟩]

def selectingSwitch : Switch (untracked selecting .none).program.system where
  location := ⟨runner.routine, [0]⟩
  id := 0
  label := ""
  tag := .const 1 (.int 2)
  arms := [⟨2, some (.const 3 (.int 1)), [stored 4 1]⟩, ⟨7, some (.const 8 (.int 2)), [stored 9 2]⟩,
    ⟨12, some (.const 13 (.int 3)), []⟩, ⟨14, none, [stored 15 4]⟩]
  below := []
  found := rfl
  tag_calm := rfl
  labels_calm := by simp [Expr.everywhere, Expr.isJump]

/-- `switch (1) { default: x = 1; break; case 1: x = 2; }` -/
def misplaced : System :=
  let x := field 0 "x"
  single [x] [] [⟨"run", [.switch 0 "" (number 1) [.arm 0 none [assign x (number 1), .exit 0 ""],
    .arm 0 (some (number 1)) [assign x (number 2)]]], [], false⟩]

def misplacedSwitch : Switch (untracked misplaced .none).program.system where
  location := ⟨runner.routine, [0]⟩
  id := 0
  label := ""
  tag := .const 1 (.int 1)
  arms := [⟨2, none, [stored 3 1, .exit 6 ""]⟩, ⟨7, some (.const 8 (.int 1)), [stored 9 2]⟩]
  below := []
  found := rfl
  tag_calm := rfl
  labels_calm := by simp [Expr.everywhere, Expr.isJump]

/-- The thread is at its first statement. -/
def atFirst : Transition := (running .none).enter 0

end Examples

namespace Switch

/-- Where following the first results leads, and what is seen on the way. -/
theorem exists_course {s : Simulator} {w : Switch s.program.system} {x : Payload} {y : Nat → Payload} {n : Nat}
    {t : Transition} {c : List Mark → Transition → Bool} (start : At w.location (-1) w.below t.frames)
    (h : (w.follow x y n [] t).any (fun p => c p.1 p.2) = true) : ∃ ms r, w.Course x y ms r ∧ c ms r = true := by
  cases found : w.follow x y n [] t with
  | none =>
      rw [found] at h
      cases h
  | some p =>
      rw [found] at h
      exact ⟨p.1, p.2, course_of_follow (.enter start) found, h⟩

end Switch

open Examples Switch in
theorem runs_bodies_selecting : ∃ ms t,
    selectingSwitch.Course (.literal (.int 2)) (fun k => .literal (.int (.ofNat (k + 1)))) ms t ∧
    selectingSwitch.Within t.frames ∧ selectingSwitch.Finished t.frames ∧
    ms = [.begins 1, .ends 1, .begins 3, .ends 3] ∧
    ms = selectingSwitch.plan
      (selectingSwitch.reached (.literal (.int 2)) fun k => .literal (.int (.ofNat (k + 1)))) := by
  obtain ⟨ms, t, course, h⟩ := exists_course (w := selectingSwitch) (x := .literal (.int 2))
    (y := fun k => .literal (.int (.ofNat (k + 1)))) (n := 26) (t := atFirst)
    (c := fun ms t => decide (ms = [.begins 1, .ends 1, .begins 3, .ends 3] ∧ selectingSwitch.Within t.frames ∧
      selectingSwitch.Finished t.frames)) (by decide +kernel) (by decide +kernel)
  obtain ⟨seen, within, finished⟩ := of_decide_eq_true h
  exact ⟨ms, t, course, within, finished, seen, (Course.runs_bodies course within).2.2.2.1 finished⟩

open Examples Switch in
/-- A default case that stands before a case with an equal label: its body is run, though the label equals the
tag. -/
theorem runs_default_misplaced : ∃ ms t,
    misplacedSwitch.Course (.literal (.int 1)) (fun _ => .literal (.int 1)) ms t ∧
    misplacedSwitch.Within t.frames ∧ ms = [.begins 0] ∧
    misplacedSwitch.chosen (.literal (.int 1)) (fun _ => .literal (.int 1)) = 1 ∧
    ¬ ms <+: misplacedSwitch.plan (misplacedSwitch.chosen (.literal (.int 1)) fun _ => .literal (.int 1)) := by
  obtain ⟨ms, t, course, h⟩ := exists_course (w := misplacedSwitch) (x := .literal (.int 1))
    (y := fun _ => .literal (.int 1)) (n := 10) (t := atFirst)
    (c := fun ms t => decide (ms = [.begins 0] ∧ misplacedSwitch.Within t.frames)) (by decide +kernel)
    (by decide +kernel)
  obtain ⟨rfl, within⟩ := of_decide_eq_true h
  exact ⟨_, t, course, within, rfl, by decide +kernel, by decide +kernel⟩

end DeltaSlice

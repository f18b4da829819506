import DeltaSlice.Proofs.Step.Conditions
import DeltaSlice.Proofs.Step.Layers

/-!
How small steps conduct conditions. Within a routine, the layer of conditions goes along with the place where the
routine stands; a call begins an empty layer, and a return goes back to that of the caller. At the end of the code,
conditions stay as they are.
-/

namespace DeltaSlice

open Transition

/-- The layer is in the order of the control structures around the place where the frame stands. -/
def Frame.Bears (sys : System) (base : List Nat) (f : Frame) (l : ConditionLayer) : Prop :=
  sys.Around f.location.routine base f.path f.comingFrom l.nodes

/-- What a small step that goes on does to frames and conditions. -/
inductive System.Conducts (sys : System) : List Frame → Conditions → List Frame → Conditions → Prop
  | within {top top' : Frame} {below : List Frame} {c c' : Conditions} :
      top'.location.routine = top.location.routine →
      (∀ base, top.Bears sys base c.current → top'.Bears sys base c'.current) → c'.callers = c.callers →
      sys.Conducts (top :: below) c (top' :: below) c'
  | call {top : Frame} {below : List Frame} {c : Conditions} (r : Routine) (x : Value) :
      sys.Conducts (top :: below) c (.start r x :: top :: below) c.enterCall
  | back {top caller caller' : Frame} {rest : List Frame} {c : Conditions} : caller'.location = caller.location →
      caller.comingFrom ≤ caller'.comingFrom → sys.Conducts (top :: caller :: rest) c (caller' :: rest) c.leaveCall

/-- The step from `t` to `r` goes on with the conditions. -/
def Transition.Conducts (sys : System) (t r : Transition) : Prop :=
  sys.Conducts t.frames t.scratch.conditions r.frames r.scratch.conditions

/-- `u` stands where `t` stands, whatever conditions were noted there. -/
structure Transition.Stays (sys : System) (t : Transition) (top : Frame) (below : List Frame) (u : Transition) :
    Prop where
  frames : u.frames = top :: below
  callers : u.scratch.conditions.callers = t.scratch.conditions.callers
  bears : ∀ base, top.Bears sys base t.scratch.conditions.current → top.Bears sys base u.scratch.conditions.current

/-- With the step from `t` to `r` the last routine ends, at the end of its body or with a return. -/
structure Transition.Spends (sys : System) (t r : Transition) : Prop where
  conditions : r.scratch.conditions = t.scratch.conditions
  last : ∃ top, t.frames = [top] ∧
    (top.path = [] ∨ ∃ id value, sys.at? top.location = some (.ret id value))

/-- What a small step does, whether it goes on or ends. -/
structure SmallStep.Conducts (sys : System) (t : Transition) (st : SmallStep) : Prop where
  going : st.ends = false → ∀ r ∈ st.results, t.Conducts sys r
  ended : st.ends = true → ∀ r ∈ st.results, r.frames = [] → t.Spends sys r

namespace SmallStep.Conducts

variable {sys : System} {t r r' u : Transition} {o : Option Expr} {i : Int} {b : Bool}

theorem of_eq {st : SmallStep} (h : st.Conducts sys u) (frames : u.frames = t.frames)
    (conditions : u.scratch.conditions = t.scratch.conditions) : st.Conducts sys t := by
  refine ⟨fun goes r hr => ?_, fun ends r hr none => ?_⟩
  · have goes := h.going goes r hr
    rw [Transition.Conducts, frames, conditions] at goes
    exact goes
  · have ended := h.ended ends r hr none
    exact ⟨ended.conditions.trans conditions, frames ▸ ended.last⟩

theorem one (h : t.Conducts sys r) : (SmallStep.one o i r).Conducts sys t :=
  ⟨fun _ _ hr => List.mem_singleton.1 hr ▸ h, fun ends => (nomatch ends)⟩

theorem repeating (h : t.Conducts sys r) : { SmallStep.one o i r with repeats := b }.Conducts sys t :=
  ⟨fun _ _ hr => List.mem_singleton.1 hr ▸ h, fun ends => (nomatch ends)⟩

theorem fork (h : t.Conducts sys r) (h' : t.Conducts sys r') :
    { SmallStep.one o i u with results := [r, r'], repeats := b }.Conducts sys t := by
  refine ⟨fun _ x hx => ?_, fun ends => (nomatch ends)⟩
  rcases List.mem_cons.1 hx with rfl | hx
  · exact h
  · exact List.mem_singleton.1 hx ▸ h'

end SmallStep.Conducts

namespace Simulator

variable {s : Simulator} {t u r : Transition} {ps : ProcessState} {top : Frame} {below : List Frame}
  {e : Expr} {st : SmallStep} {i j : Int} {up : Path}

theorem scratch_mapTop (t : Transition) (f : Frame → Frame) : (t.mapTop f).scratch = t.scratch :=
  Transition.scratch_mapRunning _ _

theorem bindParams_conditions (stack : List Routine) (ds : List Decl) (xs : List Value) (t : Transition) :
    (s.bindParams stack t ds xs).scratch.conditions = t.scratch.conditions :=
  bindParams_induction (P := fun u => u.scratch.conditions = t.scratch.conditions) (fun _ h => h)
    (fun _ _ h => (congrArg Scratch.conditions (store_scratch _ _ _)).trans h) rfl

section

variable (hframes : t.frames = top :: below)

include hframes

theorem enter_conducts (hu : u.frames = top :: below)
    (callers : u.scratch.conditions.callers = t.scratch.conditions.callers)
    (bears : ∀ base, top.Bears s.program.system base t.scratch.conditions.current →
      s.program.system.Around top.location.routine base top.path j u.scratch.conditions.current.nodes) :
    t.Conducts s.program.system (u.enter j) := by
  have scratch : (u.enter j).scratch = u.scratch := Transition.scratch_mapRunning _ _
  have frames : (u.enter j).frames = top.enter j :: below := frames_mapTop hu _
  rw [Transition.Conducts, hframes, frames, scratch]
  exact .within rfl (fun base h => (bears base h).enter) callers

theorem finish_conducts (hu : u.frames = top :: below) (path : top.path = i :: up)
    (callers : u.scratch.conditions.callers = t.scratch.conditions.callers)
    (bears : ∀ base, top.Bears s.program.system base t.scratch.conditions.current →
      s.program.system.Around top.location.routine base up i u.scratch.conditions.current.nodes) (v : Value) :
    t.Conducts s.program.system (u.finish s.program.system v) := by
  have scratch : (u.finish s.program.system v).scratch = u.scratch := Transition.scratch_editRunning _ _
  have frames := frames_finish hu s.program.system v
  have here : top.location = Location.child ⟨top.location.routine, up⟩ i := by
    rw [Location.child, ← path]
    rfl
  have outer : (s.program.system.finish v top).location = ⟨top.location.routine, up⟩ := Frame.finish_location here v
  rw [Transition.Conducts, hframes, frames, scratch]
  refine .within (by rw [outer]) (fun base h => ?_) callers
  rw [Frame.Bears, Frame.path, outer, Frame.finish_comingFrom here]
  exact bears base h

section Plain

variable (he : s.program.system.at? top.location = some e) (plain : e.isControl = false)
  (hu : u.frames = top :: below) (same : u.scratch.conditions = t.scratch.conditions)

include he plain hu same

theorem enter_plain (j : Int) : t.Conducts s.program.system (u.enter j) := by
  refine enter_conducts hframes hu (congrArg _ same) fun base h => ?_
  rw [same]
  exact h.free he plain j

theorem finish_plain (v : Value) : t.Conducts s.program.system (u.finish s.program.system v) := by
  obtain ⟨i, up, path⟩ := Frame.index_of_at? he
  refine finish_conducts hframes hu path (congrArg _ same) (fun base h => ?_) v
  rw [Frame.Bears, path] at h
  rw [same]
  exact h.pass (by rw [← path]; exact he) (Expr.not_controls plain)

end Plain

end

section Steering

variable (hframes : t.frames = top :: below) (path : top.path = i :: up)
  (he : s.program.system.at? ⟨top.location.routine, i :: up⟩ = some e)

include hframes path he

/-- A control structure is left with its condition. -/
theorem leave_conducts {l : ConditionLayer} (v : Value) {c : Int}
    (bears : ∀ base, top.Bears s.program.system base t.scratch.conditions.current →
      s.program.system.Around top.location.routine base (i :: up) c l.nodes)
    (hu : u.frames = top :: below) (current : u.scratch.conditions.current = l)
    (callers : u.scratch.conditions.callers = t.scratch.conditions.callers) :
    t.Conducts s.program.system ((u.mapConditions (·.dropThrough e.id)).finish s.program.system v) := by
  refine finish_conducts (u := u.mapConditions (·.dropThrough e.id)) hframes hu path callers (fun base h => ?_) v
  have nodes : (u.mapConditions (·.dropThrough e.id)).scratch.conditions.current.nodes =
      (l.nodes.dropWhile (· != e.id)).tail := current ▸ ConditionLayer.nodes_dropThrough
  rw [nodes]
  exact (bears base h).leave he

/-- A control structure is left with the condition that it has noted. -/
theorem leave_noted (v : Value) : t.Conducts s.program.system
    ((t.mapConditions (·.dropThrough e.id)).finish s.program.system v) :=
  leave_conducts hframes path he v (fun base h => by rwa [Frame.Bears, path] at h) hframes rfl rfl

theorem branchStep_conducts {id : Nat} {c : Expr} {yes no : List Expr} (branch : e = .branch id c yes no) :
    (s.branchStep t top e yes no).Conducts s.program.system t := by
  have bears : ∀ base, top.Bears s.program.system base t.scratch.conditions.current →
      s.program.system.Around top.location.routine base (i :: up) top.comingFrom
        t.scratch.conditions.current.nodes := fun base h => by rwa [Frame.Bears, path] at h
  have onward : ∀ j, top.comingFrom ≤ j → t.Conducts s.program.system (t.enter j) := fun j le =>
    enter_conducts hframes hframes rfl fun base h => h.mono le
  unfold branchStep
  dsimp only
  split
  · exact .one (onward 0 (by omega))
  · split
    · rename_i zero
      have none : ∀ n, ¬ e.Controls top.comingFrom n := by
        intro n controls
        subst branch
        cases controls with
        | self notes =>
            have notes : (1 : Int) ≤ top.comingFrom := notes
            omega
        | case inside => cases inside
      have noted : ∀ (v : Value) (j : Int), 1 ≤ j → ∀ base,
          top.Bears s.program.system base t.scratch.conditions.current →
          s.program.system.Around top.location.routine base (i :: up) j
            (t.scratch.conditions.current.add e.id v).nodes := by
        intro v j first base h
        rw [ConditionLayer.nodes_add]
        refine (bears base h).note he (fun n controls => absurd controls (none n)) ?_
        subst branch
        exact first
      have enterNoted : ∀ (v : Value) (j : Int), 1 ≤ j →
          t.Conducts s.program.system ((t.mapConditions (·.add e.id v)).enter j) := fun v j first =>
        enter_conducts (u := t.mapConditions _) hframes hframes rfl fun base h => by
          rw [path]
          exact noted v j first base h
      have enterYes : ∀ v : Value, t.Conducts s.program.system (if yes.isEmpty then
          ((t.mapConditions (·.add e.id v)).mapConditions (·.dropThrough e.id)).finish s.program.system .unknown
          else (t.mapConditions (·.add e.id v)).enter 1) := by
        intro v
        split
        · exact leave_conducts (u := t.mapConditions _) hframes path he _ (noted v 1 (Int.le_refl _)) hframes rfl rfl
        · exact enterNoted v 1 (Int.le_refl _)
      have enterNo : ∀ v : Value, t.Conducts s.program.system (if no.isEmpty then
          t.finish s.program.system .unknown
          else (t.mapConditions (·.add e.id v.not)).enter (yes.length + 1)) := by
        intro v
        split
        · exact finish_conducts hframes hframes path rfl (fun base h => (bears base h).pass he none) _
        · exact enterNoted _ _ (by omega)
      split
      · exact .fork (enterYes _) (enterNo _)
      · exact .one (enterYes _)
      · exact .one (enterNo _)
    · split
      · split
        · exact .one (leave_noted hframes path he _)
        · exact .one (onward _ (by omega))
      · split
        · exact .repeating (leave_noted hframes path he _)
        · exact .one (onward _ (by omega))

section Loops

variable (loop : e.loopLabel?.isSome = true)

include loop

/-- A loop goes on with any of its children. -/
theorem round_conducts (j : Int) : t.Conducts s.program.system (t.enter j) := by
  refine enter_conducts hframes hframes rfl fun base h => ?_
  rw [Frame.Bears, path] at h
  rw [path]
  exact h.round he loop j

/-- A loop notes its condition and goes on with any of its children. -/
theorem round_noted (v : Value) (j : Int) :
    t.Conducts s.program.system ((t.mapConditions (·.add e.id v)).enter j) := by
  refine enter_conducts (u := t.mapConditions _) hframes hframes rfl fun base h => ?_
  rw [Frame.Bears, path] at h
  rw [path, show (t.mapConditions (·.add e.id v)).scratch.conditions.current.nodes =
    _ from ConditionLayer.nodes_add v]
  exact h.note he (fun n controls => controls.of_loop loop) (Expr.notes_of_loop loop j)

theorem loopStep_conducts {body : List Expr} (testsFirst : Bool) :
    (s.loopStep t top e body testsFirst).Conducts s.program.system t := by
  have onward := round_conducts hframes path he loop
  have noted := round_noted hframes path he loop
  have leave := leave_noted hframes path he .unknown
  unfold loopStep
  dsimp only
  split
  · split
    · exact .repeating (noted _ 0)
    · exact .one (noted _ 1)
  · split
    · split
      · exact .fork (noted _ _) leave
      · exact .repeating (onward _)
      · exact .one leave
    · split
      · exact .repeating (onward 0)
      · exact .one (onward _)

theorem forStep_conducts {body : List Expr} : (s.forStep t top e body).Conducts s.program.system t := by
  have onward := round_conducts hframes path he loop
  have noted := round_noted hframes path he loop
  have leave := leave_noted hframes path he .unknown
  unfold forStep
  dsimp only
  split
  · exact .one (noted _ 0)
  · split
    · exact .repeating (onward 1)
    · split
      · split
        · exact .fork (noted _ 2) leave
        · exact .one (onward 2)
        · exact .one leave
      · split
        · exact .repeating (onward 1)
        · exact .one (onward _)

end Loops

theorem switchStep_conducts (inside : e.isSwitch = true) {arms : List Expr} :
    (s.switchStep t top e arms).Conducts s.program.system t := by
  have onward : ∀ j, top.comingFrom ≤ j → t.Conducts s.program.system (t.enter j) := fun j le =>
    enter_conducts hframes hframes rfl fun base h => h.mono le
  unfold switchStep
  dsimp only
  split
  · rename_i first
    refine .one (enter_conducts (u := t.mapConditions _) hframes hframes rfl fun base h => ?_)
    rw [Frame.Bears, path] at h
    rw [path, show (t.mapConditions (·.add e.id (.bool true))).scratch.conditions.current.nodes =
      _ from ConditionLayer.nodes_add _]
    exact h.note he (fun n controls => controls.of_low (by omega)) (Expr.notes_of_switch inside 0)
  · split
    · exact .repeating (leave_noted hframes path he _)
    · split
      · exact .one (onward 1 (by omega))
      · exact .repeating (onward _ (by omega))

/-- The conditions of cases belong to their switch. -/
theorem armStep_conducts (distinct : s.program.system.Distinct) (cased : s.program.system.casesFit = true)
    {id : Nat} {value : Option Expr} {body : List Expr} (arm : e = .arm id value body) :
    (s.armStep t top e value body).Conducts s.program.system t := by
  have plain : e.isControl = false := arm ▸ rfl
  obtain ⟨q, hq, inside, behind⟩ : ∃ q, s.program.system.at? ⟨top.location.routine, up⟩ = some q ∧
      q.isSwitch = true ∧ 0 < i := by
    have here : s.program.system.isCase ⟨top.location.routine, i :: up⟩ = true := by
      rw [← System.isArm_eq cased he, arm]
      rfl
    simp only [System.isCase, System.isSwitch, Bool.and_eq_true, decide_eq_true_eq, Option.any_eq_true] at here
    obtain ⟨⟨q, hq, inside⟩, behind⟩ := here
    exact ⟨q, hq, inside, behind⟩
  have same : t.Stays s.program.system top below t := ⟨hframes, rfl, fun _ h => h⟩
  have noted : ∀ v, t.Stays s.program.system top below (t.mapConditions (·.add e.id v)) := by
    refine fun v => ⟨hframes, rfl, fun base h => ?_⟩
    have nodes : (t.mapConditions (·.add e.id v)).scratch.conditions.current.nodes = _ := ConditionLayer.nodes_add v
    rw [Frame.Bears, path] at h ⊢
    rw [nodes]
    exact h.note_case distinct he plain hq inside behind
  -- What comes next is the same with and without a condition of the case.
  have enter : ∀ {u : Transition}, t.Stays s.program.system top below u → ∀ j,
      t.Conducts s.program.system (u.enter j) := by
    refine fun hu j => enter_conducts hframes hu.frames hu.callers fun base h => ?_
    have h := hu.bears base h
    rw [Frame.Bears, path] at h
    rw [path]
    exact h.free he plain j
  have leave : ∀ {u : Transition}, t.Stays s.program.system top below u → ∀ v,
      t.Conducts s.program.system (u.finish s.program.system v) := by
    refine fun hu v => finish_conducts hframes hu.frames path hu.callers (fun base h => ?_) v
    have h := hu.bears base h
    rw [Frame.Bears, path] at h
    exact h.pass he (Expr.not_controls plain)
  have enterBody : ∀ {u : Transition}, t.Stays s.program.system top below u → t.Conducts s.program.system
      (if body.isEmpty then u.finish s.program.system (.bool true)
        else u.enter (if value.isSome then 1 else 0)) := by
    intro u hu
    split
    · exact leave hu _
    · exact enter hu _
  unfold armStep
  dsimp only
  split
  · split
    · exact .one (enterBody same)
    · exact .one (enter same _)
  · split
    · split
      · exact .fork (enterBody (noted _)) (leave (noted _) _)
      · exact .one (enterBody same)
      · exact .one (leave same _)
    · split
      · exact .one (leave same _)
      · exact .one (enter same _)

end Steering

section Jumps

variable (hframes : t.frames = top :: below)

include hframes

theorem exitStep_conducts (distinct : s.program.system.Distinct) {label : String}
    (hst : s.exitStep t top e label = .ok st) : st.Conducts s.program.system t := by
  obtain ⟨levels, target, j, htarget, hj, rfl⟩ := exitStep_cases hst
  obtain ⟨i, rest, -, drop, found, -⟩ := System.target?_tail htarget
  rw [← drop] at found
  refine .one ?_
  rw [Transition.Conducts, hframes, frames_comeFrom (frames_mapTop (t := t.mapConditions _) hframes _),
    Transition.scratch_editRunning, scratch_mapTop]
  refine .within ?_ (fun base h => ?_) rfl
  · rw [Frame.put_location]
    rfl
  · have nodes : (t.mapConditions (·.dropThrough target.id)).scratch.conditions.current.nodes =
        (t.scratch.conditions.current.nodes.dropWhile (· != target.id)).tail := ConditionLayer.nodes_dropThrough
    rw [Frame.Bears, Frame.path, Frame.put_location, Frame.put_comingFrom, nodes]
    exact h.exit distinct found (Frame.outermost?_succ_eq_some hj)

theorem nextStep_conducts (distinct : s.program.system.Distinct) {label : String}
    (hst : s.nextStep t top e label = .ok st) : st.Conducts s.program.system t := by
  obtain ⟨levels, target, _, htarget, -, rfl⟩ := nextStep_cases hst
  obtain ⟨i, rest, -, drop, found, isTarget⟩ := System.target?_tail htarget
  rw [← drop] at found
  have loop : target.loopLabel?.isSome = true := by
    cases target <;> first | rfl | simp [Expr.isTarget] at isTarget
  refine .one ?_
  rw [Transition.Conducts, hframes, frames_mapTop (t := t.mapConditions _) hframes, scratch_mapTop]
  refine .within rfl (fun base h => ?_) rfl
  have nodes : (t.mapConditions (·.dropAbove target.id)).scratch.conditions.current.nodes =
      t.scratch.conditions.current.nodes.dropWhile (· != target.id) := ConditionLayer.nodes_dropAbove
  rw [Frame.Bears, nodes]
  exact h.next distinct found loop _

/-- A return leaves the layer of the routine; at the end of the code conditions stay as they are. -/
theorem returnFrom_conducts {o : Option Expr} {c : Int} {v : Value}
    (last : top.path = [] ∨ ∃ id value, s.program.system.at? top.location = some (.ret id value)) :
    (s.returnFrom t o c v).Conducts s.program.system t := by
  have hbelow : (t.editRunning ProcessState.editPop).frames = below :=
    (frames_editPop t).trans (congrArg List.tail hframes)
  have head : (t.editRunning ProcessState.editPop).top? = below.head? := by rw [top?_eq_head?, hbelow]
  unfold returnFrom
  dsimp only
  split
  · rename_i none
    obtain rfl : below = [] := List.head?_eq_none_iff.1 (head.symm.trans none)
    refine ⟨fun goes => (by cases goes), fun _ r hr _ => ⟨?_, top, hframes, last⟩⟩
    obtain rfl := List.mem_singleton.1 hr
    split
    · exact congrArg Scratch.conditions (Transition.scratch_editRunning _ _)
    · split <;> exact congrArg Scratch.conditions
        ((Transition.scratch_mapRunning _ _).trans (Transition.scratch_editRunning _ _))
  · rename_i caller hcaller
    obtain ⟨rest, rfl⟩ := List.head?_eq_some_iff.1 (head.symm.trans hcaller)
    have stack := frames_comeFrom hbelow (caller.comingFrom + 1) (some v)
    have returned : ∀ {r : Transition},
        r.frames = { caller with comingFrom := caller.comingFrom + 1 }.put (caller.comingFrom + 1) (some v) :: rest →
        r.scratch.conditions = t.scratch.conditions.leaveCall → t.Conducts s.program.system r := by
      intro r frames conditions
      rw [Transition.Conducts, hframes, frames, conditions]
      refine .back ?_ ?_
      · rw [Frame.put_location]
      · rw [Frame.put_comingFrom]
        exact Int.le_add_one (Int.le_refl _)
    have conditions : ((t.editRunning ProcessState.editPop).editTop
        (Frame.editComeFrom (caller.comingFrom + 1) (some v))).scratch.conditions = t.scratch.conditions :=
      congrArg Scratch.conditions ((Transition.scratch_editRunning _ _).trans (Transition.scratch_editRunning _ _))
    refine .one ?_
    split
    · rename_i m _ _
      refine returned ?_ ?_
      · rw [frames_mapRunning (f := (dropParams · m)) fun q => dropParams_stack q m]
        exact stack
      · rw [Transition.scratch_mapRunning]
        exact congrArg Conditions.leaveCall conditions
    · exact returned stack (congrArg Conditions.leaveCall conditions)

/-- A statement of the body follows. -/
theorem bodyStep_conducts (body : top.path = []) : (s.bodyStep t top).Conducts s.program.system t := by
  unfold bodyStep
  dsimp only
  split
  · refine .one (enter_conducts hframes hframes rfl fun base h => ?_)
    rw [Frame.Bears, body] at h
    rw [body]
    exact h
  · exact returnFrom_conducts hframes (.inl body)

end Jumps

section Plain

variable (hframes : t.frames = top :: below) (he : s.program.system.at? top.location = some e)
  (plain : e.isControl = false)

include hframes he plain

theorem aggregateStep_conducts (hst : s.aggregateStep t top e = .ok st) : st.Conducts s.program.system t := by
  obtain ⟨-, rfl⟩ | ⟨-, v, u, hu, rfl⟩ := aggregateStep_cases hst
  · exact .one (enter_plain hframes he plain hframes rfl _)
  · have same : u.frames = top :: below ∧ u.scratch.conditions = t.scratch.conditions := by
      obtain rfl | ⟨_, _, _, w, -, -, rfl⟩ | rfl := aggregate_cases hu
      · exact ⟨hframes, rfl⟩
      · refine ⟨(store_frames _ _ _).trans hframes, ?_⟩
        rw [store_scratch]
        rfl
      · exact ⟨hframes, rfl⟩
    exact .one (finish_plain hframes he plain same.1 same.2 _)

theorem notifyStep_conducts {target : Expr} {delays : List Expr}
    (hst : (s.notifyStep t top e target delays).result = .ok st) : st.Conducts s.program.system t := by
  obtain ⟨-, rfl⟩ | ⟨-, _, _, u, -, -, hu, rfl⟩ := notifyStep_cases hst
  · exact .one (enter_plain hframes he plain hframes rfl _)
  · exact .one (finish_plain hframes he plain ((notify_frames hu).trans hframes)
      (congrArg Scratch.conditions (notify_scratch hu).1) _)

end Plain

section Steps

variable (hframes : t.frames = top :: below)

include hframes

theorem waitStep_conducts {arity : Nat} (hst : s.waitStep t top e arity = .ok st) :
    st.Conducts s.program.system t := by
  obtain ⟨_, _, b, -, -, -, rfl⟩ := waitStep_cases hst
  refine ⟨fun goes => (by cases goes), fun _ r hr none => ?_⟩
  obtain rfl := List.mem_singleton.1 hr
  rw [frames_mapRunning (f := (·.block (some b))) fun _ => rfl,
    frames_finish hframes] at none
  cases none

theorem callStep_conducts {id : Nat} {f : Routine} {args : List Expr}
    (he : s.program.system.at? top.location = some (.call id f args)) (hps : t.running? = some ps)
    (hst : s.callStep t ps top (.call id f args) f args.length = .ok st) : st.Conducts s.program.system t := by
  cases callStep_cases hst with
  | argument => exact .one (enter_plain hframes he rfl hframes rfl _)
  | result => exact .one (finish_plain hframes he rfl hframes rfl _)
  | wait _ hst => exact waitStep_conducts hframes hst
  | request =>
      exact .one (finish_plain (u := t.mapGlobal (·.requestUpdate _)) hframes he rfl hframes rfl _)
  | @call m x =>
      refine .one ?_
      have pushed : ∀ f, (t.mapRunning (·.push f)).frames = f :: t.frames := by
        intro f
        rw [frames, frames, running?_mapRunning, hps]
        rfl
      have frames : ((t.mapRunning (·.push (.start (.member m) x))).mapConditions (·.enterCall)).frames =
        .start (.member m) x :: t.frames := pushed _
      have conditions : ((t.mapRunning (·.push (.start (.member m) x))).mapConditions
          (·.enterCall)).scratch.conditions = t.scratch.conditions.enterCall :=
        congrArg (·.conditions.enterCall) (Transition.scratch_mapRunning t _)
      rw [Transition.Conducts, bindParams_frames, bindParams_conditions, frames, conditions, hframes]
      exact .call _ _

/-- A small step on an expression conducts the conditions. -/
theorem exprStep_conducts (distinct : s.program.system.Distinct) (cased : s.program.system.casesFit = true)
    (he : s.program.system.at? top.location = some e) (hps : t.running? = some ps)
    (hst : (s.exprStep t ps top e).result = .ok st) : st.Conducts s.program.system t := by
  obtain ⟨i, up, path⟩ := Frame.index_of_at? he
  have here : s.program.system.at? ⟨top.location.routine, i :: up⟩ = some e := by
    rw [← path]
    exact he
  have given : ∀ {x : SmallStep}, (pure x : Step SmallStep).result = .ok st → x.Conducts s.program.system t →
      st.Conducts s.program.system t := by
    intro x hx conducts
    obtain rfl := Run.pure_result_iff.1 hx
    exact conducts
  unfold exprStep at hst
  cases e with
  | const id l =>
      dsimp only at hst
      split at hst
      · cases hst
      · exact given hst (.one (finish_plain hframes he rfl hframes rfl _))
  | event id name => exact given hst (.one (finish_plain hframes he rfl hframes rfl _))
  | var id d =>
      have read : (s.readVariable t ps top d).2.scratch.conditions = t.scratch.conditions := by
        obtain same | same := s.readVariable_cases t ps top d <;> exact congrArg (·.scratch.conditions) same
      obtain ⟨-, frames⟩ := readVariable_left (s := s) hframes ps id d
      exact given hst (.one (finish_plain hframes he rfl frames read _))
  | unary | binary | access | bracket | block | empty => exact aggregateStep_conducts hframes he rfl hst
  | branch id c yes no => exact given hst (branchStep_conducts hframes path here rfl)
  | whileLoop id l c body | doLoop id l c body => exact given hst (loopStep_conducts hframes path here rfl _)
  | forLoop id l i c p body => exact given hst (forStep_conducts hframes path here rfl)
  | switch id l tag cases => exact given hst (switchStep_conducts hframes path here rfl)
  | arm id value body => exact given hst (armStep_conducts hframes path here distinct cased rfl)
  | exit id label => exact exitStep_conducts hframes distinct (Run.result_of _ ▸ hst)
  | next id label => exact nextStep_conducts hframes distinct (Run.result_of _ ▸ hst)
  | ret id value =>
      dsimp only at hst
      split at hst
      · exact given hst (.one (enter_plain hframes he rfl hframes rfl _))
      · exact given hst (returnFrom_conducts hframes (.inr ⟨id, value, he⟩))
  | notify id target delays => exact notifyStep_conducts hframes he rfl hst
  | stop id =>
      refine given hst (.one ?_)
      have conducts := finish_plain (s := s) hframes he rfl hframes rfl .unknown
      rw [Transition.Conducts, stop_frames]
      exact conducts
  | call id f args => exact callStep_conducts hframes he hps hst

end Steps

/-- A small step conducts the conditions. -/
theorem smallStep_conducts (distinct : s.program.system.Distinct) (cased : s.program.system.casesFit = true)
    (hst : (s.smallStep t).result = .ok st) : st.Conducts s.program.system t := by
  obtain ⟨st₀, rs, hadv, hobs, rfl⟩ := smallStep_cases hst
  obtain ⟨ps, top, hps, htop, step⟩ := advance_cases hadv
  obtain ⟨below, -, hframes⟩ := frames_of_top hps htop
  have conducts : st₀.Conducts s.program.system t := by
    rcases step with ⟨body, rfl⟩ | ⟨i, up, e, sc, -, he, hsc, hstep⟩
    · exact (bodyStep_conducts hframes body).of_eq rfl rfl
    · exact (exprStep_conducts (t := { t.resetAccesses with scratch := sc }) hframes distinct cased he hps
        hstep).of_eq rfl (announce_accesses _ hsc).2.2
  refine ⟨fun goes r hr => ?_, fun ends r hr none => ?_⟩
  · obtain ⟨u, hu, -, same⟩ := observeResults_mem hobs hr
    have goes := conducts.going goes u hu
    rw [same]
    exact goes
  · obtain ⟨u, hu, -, same⟩ := observeResults_mem hobs hr
    have frames : r.frames = u.frames := by
      rw [same]
      rfl
    have ended := conducts.ended ends u hu (frames.symm.trans none)
    refine ⟨?_, ended.last⟩
    rw [same]
    exact ended.conditions

end Simulator

end DeltaSlice

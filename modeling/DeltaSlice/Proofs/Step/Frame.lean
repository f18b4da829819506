import DeltaSlice.Proofs.Success
import DeltaSlice.Proofs.Waits.Histories
import DeltaSlice.Simulator.SmallStep
import Mathlib.Data.List.Forall2

/-!
What a small step depends on and what it leaves alone. The observer of a simulation gathers
information; it never has a say in what the code does. Two transitions in the same state therefore
make their small steps in parallel, whatever was learned on the way to them.
-/

namespace DeltaSlice

theorem Level.mem_put_cases {l : Level} {i : Int} {r x : Option Value} (h : x ∈ l.put i r) :
    x ∈ l ∨ x = none ∨ x = r := by
  unfold Level.put at h
  split at h
  · exact .inl h
  · rcases List.mem_or_eq_of_mem_set h with h | rfl
    · exact (List.mem_append.1 h).imp_right fun gap => .inl (List.eq_of_mem_replicate gap)
    · exact .inr (.inr rfl)

namespace Frame

variable {f : Frame} {i : Int}

/-- Whether the current expression can be left with a result. -/
def leaves (f : Frame) (keep : Bool) : Bool :=
  match f.path, f.levels with
  | i :: _, _ :: ls => !keep || (0 ≤ i && !ls.isEmpty)
  | _, _ => false

theorem put_of_not_accepts (h : f.accepts i = false) (r : Option Value) : f.put i r = f := by
  unfold put
  cases levels : f.levels with
  | nil => rfl
  | cons l ls =>
      have low : i < 0 := by simpa [accepts, levels] using h
      simp only [Level.put, if_pos low, ← levels]

/-- What an edit gives, and the frame that it leaves behind, also where it breaks. -/
theorem editPut_run (i : Int) (r : Option Value) (f : Frame) : (editPut i r).run.run f =
    (if f.accepts i then .ok () else .error .undefined, f.put i r) := by
  change (if f.accepts i = true then (modify (·.put i r) : Edit Frame Unit)
    else throw .undefined).run.run f = _
  split
  · rfl
  · rename_i bare
    rw [put_of_not_accepts (Bool.eq_false_iff.2 bare)]
    rfl

theorem editLeave_run (v : Value) (keep : Bool) (f : Frame) : (editLeave v keep).run.run f =
    (if f.leaves keep then .ok () else .error .undefined, f.leave v keep) := by
  obtain ⟨⟨r, path⟩, c, levels, x⟩ := f
  cases path with
  | nil => rfl
  | cons i up =>
      cases levels with
      | nil => cases keep <;> rfl
      | cons l ls =>
          cases keep with
          | false => rfl
          | true => exact (editPut_run i (some v) _).trans rfl

theorem editComeFrom_run (i : Int) (r : Option Value) (f : Frame) : (editComeFrom i r).run.run f =
    (if f.accepts i then .ok () else .error .undefined, { f with comingFrom := i }.put i r) :=
  editPut_run i r _

end Frame

theorem System.editFinish_run (sys : System) (v : Value) (f : Frame) : (sys.editFinish v).run.run f =
    (if f.leaves (sys.isUsed f.location) then .ok () else .error .undefined, sys.finish v f) :=
  f.editLeave_run v _

theorem ProcessState.editTop_run {β : Type} (e : Edit Frame β) {ps : ProcessState} {f : Frame}
    {rest : List Frame} (stack : ps.stack = f :: rest) : (editTop e).run.run ps =
      ((e.run.run f).1, { ps with stack := (e.run.run f).2 :: rest }) := by
  obtain ⟨blocker, _, locals⟩ := ps
  subst stack
  change (MonadExcept.ofExcept (e.run.run f).1 : Edit ProcessState β).run.run _ = _
  cases (e.run.run f).1 <;> rfl

namespace Transition

/-- What breaks when the innermost frame is edited. -/
def breaks? {β : Type} (t : Transition) (e : Edit Frame β) : Option Fault :=
  match t.top? with
  | none => some .undefined
  | some f => Fault.of? (e.run.run f).1

/-- An edit changes the innermost frame to what it leaves behind, and what breaks is noted. -/
theorem editTop_eq {β : Type} {e : Edit Frame β} {g : Frame → Frame} (leaves : ∀ f, (e.run.run f).2 = g f)
    (t : Transition) : t.editTop e = (t.mapTop g).note (t.breaks? e) := by
  unfold editTop editRunning mapTop mapRunning breaks? top?
  cases t.running? with
  | none => rfl
  | some ps =>
      cases stack : ps.stack with
      | nil =>
          obtain ⟨blocker, _, locals⟩ := ps
          subst stack
          rfl
      | cons f rest =>
          simp only [ProcessState.mapTop, ProcessState.editTop_run e stack, stack, leaves,
            ProcessState.top?, Option.bind_some, List.head?_cons]

theorem editPop_eq (t : Transition) : t.editRunning ProcessState.editPop =
    (t.mapRunning (·.pop)).note (if t.top?.isSome then none else some .undefined) := by
  unfold editRunning mapRunning top?
  cases t.running? with
  | none => rfl
  | some ps =>
      obtain ⟨blocker, stack, locals⟩ := ps
      cases stack <;> rfl

theorem finish_eq (t : Transition) (sys : System) (v : Value) :
    t.finish sys v = (t.mapTop (sys.finish v)).note (t.breaks? (sys.editFinish v)) :=
  editTop_eq (fun f => congrArg Prod.snd (sys.editFinish_run v f)) t

theorem comeFrom_eq (t : Transition) (i : Int) (r : Option Value) :
    t.editTop (Frame.editComeFrom i r) =
      (t.mapTop fun f => { f with comingFrom := i }.put i r).note (t.breaks? (Frame.editComeFrom i r)) :=
  editTop_eq (fun f => congrArg Prod.snd (f.editComeFrom_run i r)) t

/-- A fault that is noted is all that changes. -/
@[simp] theorem running?_note (t : Transition) (f : Option Fault) : (t.note f).running? = t.running? := rfl

@[simp] theorem top?_note (t : Transition) (f : Option Fault) : (t.note f).top? = t.top? := rfl

theorem copy_eq {t : Transition} (unfrozen : t.frozen = false) : t.copy = t := by
  unfold copy
  rw [← unfrozen]

end Transition

/-- The same transition as far as the observer is concerned. -/
structure Keeps (t r : Transition) : Prop where
  info : r.info = t.info
  proc : r.proc = t.proc
  origin : r.origin = t.origin
  announced : r.scratch.announced = t.scratch.announced
  event : r.scratch.event = t.scratch.event
  frozen : r.frozen = t.frozen

/-- `r` comes from `t` as `r'` comes from `t'`: they agree in their states and accesses. -/
structure Follows (t t' r r' : Transition) : Prop where
  proc : t.proc = t'.proc
  left : Keeps t r
  right : Keeps t' r'
  state : r.state = r'.state
  read : r.scratch.read = r'.scratch.read
  written : r.scratch.written = r'.scratch.written

namespace Keeps

variable {t r : Transition}

theorem refl (t : Transition) : Keeps t t := ⟨rfl, rfl, rfl, rfl, rfl, rfl⟩

theorem trans {u : Transition} (h : Keeps t r) (h' : Keeps r u) : Keeps t u :=
  ⟨h'.info.trans h.info, h'.proc.trans h.proc, h'.origin.trans h.origin,
    h'.announced.trans h.announced, h'.event.trans h.event, h'.frozen.trans h.frozen⟩

theorem setRunning (h : Keeps t r) (ps : ProcessState) : Keeps t (r.setRunning ps) := by
  unfold Transition.setRunning
  split <;> exact ⟨h.info, h.proc, h.origin, h.announced, h.event, h.frozen⟩

theorem note (h : Keeps t r) (f : Option Fault) : Keeps t (r.note f) :=
  ⟨h.info, h.proc, h.origin, h.announced, h.event, h.frozen⟩

theorem editRunning (h : Keeps t r) {β : Type} (e : Edit ProcessState β) : Keeps t (r.editRunning e) := by
  unfold Transition.editRunning
  split
  · exact h.note _
  · exact (h.setRunning _).note _

theorem mapRunning (h : Keeps t r) (f : ProcessState → ProcessState) :
    Keeps t (r.mapRunning f) := by
  unfold Transition.mapRunning
  split
  · exact h.setRunning _
  · exact h

theorem mapScratch (h : Keeps t r) {f : Scratch → Scratch}
    (announced : ∀ s, (f s).announced = s.announced) (event : ∀ s, (f s).event = s.event) :
    Keeps t (r.mapScratch f) :=
  ⟨h.info, h.proc, h.origin, (announced _).trans h.announced, (event _).trans h.event, h.frozen⟩

end Keeps

namespace Follows

variable {t t' r r' : Transition}

theorem refl (t : Transition) : Follows t t t t := ⟨rfl, .refl t, .refl t, rfl, rfl, rfl⟩

theorem sameProc (h : Follows t t' r r') : r.proc = r'.proc :=
  (h.left.proc.trans h.proc).trans h.right.proc.symm

theorem running? (h : Follows t t' r r') : r.running? = r'.running? := by
  unfold Transition.running?
  rw [h.sameProc, h.state]

theorem top? (h : Follows t t' r r') : r.top? = r'.top? := by
  unfold Transition.top?
  rw [h.running?]

theorem setRunning (h : Follows t t' r r') (ps : ProcessState) :
    Follows t t' (r.setRunning ps) (r'.setRunning ps) := by
  have hp := h.sameProc
  refine ⟨h.proc, h.left.setRunning ps, h.right.setRunning ps, ?_, ?_, ?_⟩
  all_goals
    unfold Transition.setRunning
    rw [hp]
    cases r'.proc <;> simp [h.state, h.read, h.written]

theorem mapRunning (h : Follows t t' r r') (f : ProcessState → ProcessState) :
    Follows t t' (r.mapRunning f) (r'.mapRunning f) := by
  unfold Transition.mapRunning
  rw [h.running?]
  cases r'.running? with
  | none => exact h
  | some ps => exact h.setRunning (f ps)

theorem mapTop (h : Follows t t' r r') (f : Frame → Frame) :
    Follows t t' (r.mapTop f) (r'.mapTop f) := h.mapRunning _

theorem note (h : Follows t t' r r') (f g : Option Fault) : Follows t t' (r.note f) (r'.note g) :=
  ⟨h.proc, h.left.note f, h.right.note g, h.state, h.read, h.written⟩

theorem editRunning (h : Follows t t' r r') {β : Type} (e : Edit ProcessState β) :
    Follows t t' (r.editRunning e) (r'.editRunning e) := by
  unfold Transition.editRunning
  rw [h.running?]
  cases r'.running? with
  | none => exact h.note _ _
  | some ps => exact (h.setRunning _).note _ _

theorem enter (h : Follows t t' r r') (i : Int) : Follows t t' (r.enter i) (r'.enter i) :=
  h.mapTop _

theorem finish (h : Follows t t' r r') (sys : System) (v : Value) :
    Follows t t' (r.finish sys v) (r'.finish sys v) := h.editRunning _

theorem withState (h : Follows t t' r r') (f : State → State) :
    Follows t t' { r with state := f r.state } { r' with state := f r'.state } :=
  ⟨h.proc, ⟨h.left.info, h.left.proc, h.left.origin, h.left.announced, h.left.event, h.left.frozen⟩,
    ⟨h.right.info, h.right.proc, h.right.origin, h.right.announced, h.right.event, h.right.frozen⟩,
    congrArg f h.state, h.read, h.written⟩

theorem mapGlobal (h : Follows t t' r r') (f : GlobalState → GlobalState) :
    Follows t t' (r.mapGlobal f) (r'.mapGlobal f) :=
  h.withState fun s => { s with global := f s.global }

theorem setProc (h : Follows t t' r r') (p : Process) (ps : ProcessState) :
    Follows t t' (r.setProc p ps) (r'.setProc p ps) :=
  h.withState fun s => s.setProc p.index ps

/-- Branch conditions play no part. -/
theorem mapConditions (h : Follows t t' r r') (f g : Conditions → Conditions) :
    Follows t t' (r.mapConditions f) (r'.mapConditions g) :=
  ⟨h.proc, h.left.mapScratch (fun _ => rfl) (fun _ => rfl),
    h.right.mapScratch (fun _ => rfl) (fun _ => rfl), h.state, h.read, h.written⟩

theorem addRead (h : Follows t t' r r') (v : Variable) :
    Follows t t' (r.addRead v) (r'.addRead v) :=
  ⟨h.proc, h.left.mapScratch (fun _ => rfl) (fun _ => rfl),
    h.right.mapScratch (fun _ => rfl) (fun _ => rfl), h.state,
    congrArg (Transition.addVariable · v) h.read, h.written⟩

theorem addWritten (h : Follows t t' r r') (v : Variable) :
    Follows t t' (r.addWritten v) (r'.addWritten v) :=
  ⟨h.proc, h.left.mapScratch (fun _ => rfl) (fun _ => rfl),
    h.right.mapScratch (fun _ => rfl) (fun _ => rfl), h.state, h.read,
    congrArg (Transition.addVariable · v) h.written⟩

theorem store (h : Follows t t' r r') (s : Simulator) (v : Variable) (x : Value) :
    Follows t t' (s.store r v x) (s.store r' v x) := by
  unfold Simulator.store
  split
  · split
    · exact h.mapRunning _
    · exact h.mapGlobal _
  · exact h

theorem stop (h : Follows t t' r r') (s : Simulator) :
    Follows t t' (s.stop r) (s.stop r') := by
  unfold Simulator.stop
  exact h.withState fun st => { st with global := st.global.stop, procs := st.procs.map _ }

theorem bindParams (s : Simulator) (stack : List Routine) {ds : List Decl} {xs : List Value}
    (h : Follows t t' r r') :
    Follows t t' (s.bindParams stack r ds xs) (s.bindParams stack r' ds xs) := by
  induction ds generalizing r r' xs with
  | nil => cases xs <;> exact h
  | cons d ds ih =>
      cases xs with
      | nil => exact ih (h.addWritten _)
      | cons x xs => exact ih ((h.addWritten _).store s _ x)

end Follows

/-- A small step ends well if nothing broke in any of its results. -/
theorem SmallStep.checked_iff {st st' : SmallStep} :
    st.checked = .ok st' ↔ st = st' ∧ ∀ r ∈ st.results, r.fault = none := by
  unfold checked
  cases broken : st.results.findSome? (·.fault) with
  | none => simpa using fun _ => List.findSome?_eq_none_iff.1 broken
  | some f =>
      obtain ⟨r, hr, fault⟩ := List.exists_of_findSome?_eq_some broken
      simp only [reduceCtorEq, false_iff, not_and, not_forall]
      exact fun _ => ⟨r, hr, by simp [fault]⟩

/-- Two transitions in the same state, reached with the same accesses. -/
structure Alike (r r' : Transition) : Prop where
  proc : r.proc = r'.proc
  state : r.state = r'.state
  read : r.scratch.read = r'.scratch.read
  written : r.scratch.written = r'.scratch.written

theorem Follows.alike {t t' r r' : Transition} (h : Follows t t' r r') : Alike r r' :=
  ⟨h.sameProc, h.state, h.read, h.written⟩

theorem Alike.follows {t t' : Transition} (h : Alike t t') : Follows t t' t t' :=
  ⟨h.proc, .refl t, .refl t', h.state, h.read, h.written⟩

/-- Two small steps are the same, up to a relation of their results. -/
structure Parallel (R : Transition → Transition → Prop) (st st' : SmallStep) : Prop where
  expr : st.expr = st'.expr
  comingFrom : st.comingFrom = st'.comingFrom
  ends : st.ends = st'.ends
  repeats : st.repeats = st'.repeats
  results : List.Forall₂ R st.results st'.results

namespace Parallel

variable {t t' r r' : Transition}

theorem exists_result {R : Transition → Transition → Prop} {st st' : SmallStep}
    (h : Parallel R st st') (hr : r ∈ st.results) : ∃ r' ∈ st'.results, R r r' := by
  have main : ∀ {xs ys : List Transition}, List.Forall₂ R xs ys → r ∈ xs → ∃ r' ∈ ys, R r r' := by
    intro xs ys hall
    induction hall with
    | nil => simp
    | cons hx _ ih =>
        intro hmem
        rcases List.mem_cons.1 hmem with rfl | hmem
        · exact ⟨_, by simp, hx⟩
        · obtain ⟨r', hr', rel⟩ := ih hmem
          exact ⟨r', by simp [hr'], rel⟩
  exact main h.results hr

theorem mono {R S : Transition → Transition → Prop} {st st' : SmallStep}
    (h : Parallel R st st') (le : ∀ {x x'}, R x x' → S x x') : Parallel S st st' :=
  ⟨h.expr, h.comingFrom, h.ends, h.repeats, h.results.imp fun _ _ => le⟩

theorem one {e : Option Expr} {i : Int} (h : Follows t t' r r') :
    Parallel (Follows t t') (.one e i r) (.one e i r') :=
  ⟨rfl, rfl, rfl, rfl, .cons h .nil⟩

theorem repeating {e : Option Expr} {i : Int} (h : Follows t t' r r') (b : Bool) :
    Parallel (Follows t t') { SmallStep.one e i r with repeats := b }
      { SmallStep.one e i r' with repeats := b } :=
  ⟨rfl, rfl, rfl, rfl, .cons h .nil⟩

theorem fork {e : Option Expr} {i : Int} {x x' y y' : Transition} (hx : Follows t t' x x')
    (hy : Follows t t' y y') (b : Bool) :
    Parallel (Follows t t') { SmallStep.one e i r with results := [x, y], repeats := b }
      { SmallStep.one e i r' with results := [x', y'], repeats := b } :=
  ⟨rfl, rfl, rfl, rfl, .cons hx (.cons hy .nil)⟩

end Parallel

namespace Simulator

section

variable {t t' r r' : Transition} (s : Simulator)

theorem endOfCode_parallel (h : Follows t t' r r') : Parallel (Follows t t') (endOfCode r) (endOfCode r') := by
  unfold endOfCode
  refine ⟨rfl, rfl, rfl, rfl, .cons ?_ .nil⟩
  rw [h.sameProc]
  split
  · exact h
  · split
    · exact h.mapRunning _
    · exact h.mapRunning _

theorem returnFrom_parallel (h : Follows t t' r r') (e : Option Expr) (i : Int) (v : Value) :
    Parallel (Follows t t') (s.returnFrom r e i v) (s.returnFrom r' e i v) := by
  have popped := h.editRunning ProcessState.editPop
  unfold returnFrom
  simp only [popped.top?]
  split
  · exact endOfCode_parallel popped
  · rename_i caller _
    have back := (popped.editRunning (ProcessState.editTop (Frame.editComeFrom (caller.comingFrom + 1)
      (some v)))).mapConditions (·.leaveCall) (·.leaveCall)
    split
    · exact .one (back.mapRunning _)
    · exact .one back

theorem bodyStep_parallel (h : Follows t t' r r') (top : Frame) :
    Parallel (Follows t t') (s.bodyStep r top) (s.bodyStep r' top) := by
  unfold bodyStep
  simp only
  split
  · exact .one (h.enter _)
  · exact s.returnFrom_parallel h _ _ _

theorem branchStep_parallel (h : Follows t t' r r') (top : Frame) (e : Expr)
    (yes no : List Expr) :
    Parallel (Follows t t') (s.branchStep r top e yes no) (s.branchStep r' top e yes no) := by
  have enterYes : ∀ c : Value, Follows t t'
      (if yes.isEmpty then ((r.mapConditions (·.add e.id c)).mapConditions
        (·.dropThrough e.id)).finish s.program.system .unknown
      else (r.mapConditions (·.add e.id c)).enter 1)
      (if yes.isEmpty then ((r'.mapConditions (·.add e.id c)).mapConditions
        (·.dropThrough e.id)).finish s.program.system .unknown
      else (r'.mapConditions (·.add e.id c)).enter 1) := by
    intro c
    split
    · exact ((h.mapConditions _ _).mapConditions _ _).finish _ _
    · exact (h.mapConditions _ _).enter _
  have enterNo : ∀ c : Value, Follows t t'
      (if no.isEmpty then r.finish s.program.system .unknown
      else (r.mapConditions (·.add e.id c.not)).enter (yes.length + 1))
      (if no.isEmpty then r'.finish s.program.system .unknown
      else (r'.mapConditions (·.add e.id c.not)).enter (yes.length + 1)) := by
    intro c
    split
    · exact h.finish _ _
    · exact (h.mapConditions _ _).enter _
  have leave := (h.mapConditions (·.dropThrough e.id) (·.dropThrough e.id)).finish
    s.program.system .unknown
  unfold branchStep
  simp only
  split
  · exact .one (h.enter _)
  · split
    · split
      · exact .fork (enterYes _) (enterNo _) false
      · exact .one (enterYes _)
      · exact .one (enterNo _)
    · split
      · split
        · exact .one leave
        · exact .one (h.enter _)
      · split
        · exact .repeating leave true
        · exact .one (h.enter _)

theorem loopStep_parallel (h : Follows t t' r r') (top : Frame) (e : Expr) (body : List Expr)
    (testsFirst : Bool) :
    Parallel (Follows t t') (s.loopStep r top e body testsFirst) (s.loopStep r' top e body testsFirst) := by
  have leave := (h.mapConditions (·.dropThrough e.id) (·.dropThrough e.id)).finish
    s.program.system .unknown
  unfold loopStep
  simp only
  split
  · split
    · exact .repeating ((h.mapConditions _ _).enter _) true
    · exact .one ((h.mapConditions _ _).enter _)
  · split
    · split
      · exact .fork ((h.mapConditions _ _).enter _) leave _
      · exact .repeating (h.enter _) _
      · exact .one leave
    · split
      · exact .repeating (h.enter _) true
      · exact .one (h.enter _)

theorem forStep_parallel (h : Follows t t' r r') (top : Frame) (e : Expr) (body : List Expr) :
    Parallel (Follows t t') (s.forStep r top e body) (s.forStep r' top e body) := by
  have leave := (h.mapConditions (·.dropThrough e.id) (·.dropThrough e.id)).finish
    s.program.system .unknown
  unfold forStep
  simp only
  split
  · exact .one ((h.mapConditions _ _).enter _)
  · split
    · exact .repeating (h.enter _) true
    · split
      · split
        · exact .fork ((h.mapConditions _ _).enter _) leave false
        · exact .one (h.enter _)
        · exact .one leave
      · split
        · exact .repeating (h.enter _) true
        · exact .one (h.enter _)

theorem switchStep_parallel (h : Follows t t' r r') (top : Frame) (e : Expr)
    (cases : List Expr) :
    Parallel (Follows t t') (s.switchStep r top e cases) (s.switchStep r' top e cases) := by
  unfold switchStep
  simp only
  split
  · exact .one ((h.mapConditions _ _).enter _)
  · split
    · exact .repeating ((h.mapConditions _ _).finish _ _) true
    · split
      · exact .one (h.enter _)
      · exact .repeating (h.enter _) true

theorem armStep_parallel (h : Follows t t' r r') (top : Frame) (e : Expr) (value : Option Expr)
    (body : List Expr) :
    Parallel (Follows t t') (s.armStep r top e value body) (s.armStep r' top e value body) := by
  have enterBody : ∀ {x x' : Transition}, Follows t t' x x' → Follows t t'
      (if body.isEmpty then x.finish s.program.system (.bool true)
        else x.enter (if value.isSome then 1 else 0))
      (if body.isEmpty then x'.finish s.program.system (.bool true)
        else x'.enter (if value.isSome then 1 else 0)) := by
    intro x x' hx
    split
    · exact hx.finish _ _
    · exact hx.enter _
  unfold armStep
  simp only
  split
  · split
    · exact .one (enterBody h)
    · exact .one (h.enter _)
  · split
    · split
      · exact .fork (enterBody (h.mapConditions _ _)) ((h.mapConditions _ _).finish _ _) false
      · exact .one (enterBody h)
      · exact .one (h.finish _ _)
    · split
      · exact .one (h.finish _ _)
      · exact .one (h.enter _)

theorem readVariable_parallel (h : Follows t t' r r') (ps : ProcessState) (top : Frame)
    (d : Decl) : (s.readVariable r ps top d).1 = (s.readVariable r' ps top d).1 ∧
      Follows t t' (s.readVariable r ps top d).2 (s.readVariable r' ps top d).2 := by
  unfold readVariable
  simp only
  split
  · exact ⟨rfl, h⟩
  · refine ⟨?_, h.addRead _⟩
    simp only [load, h.state]

/-- Two parts of small steps that succeed or break alike. -/
inductive Agree {α : Type} (R : α → α → Prop) : Except Halt α → Except Halt α → Prop
  | ok {x y : α} : R x y → Agree R (.ok x) (.ok y)
  | error {f : Halt} : Agree R (.error f) (.error f)

theorem aggregate_parallel (h : Follows t t' r r') (top : Frame) (e : Expr) :
    Agree (fun x y => x.1 = y.1 ∧ Follows t t' x.2 y.2) (s.aggregate r top e)
      (s.aggregate r' top e) := by
  have same : ∀ v : Value, Agree (fun x y => x.1 = y.1 ∧ Follows t t' x.2 y.2)
      (.ok (v, r)) (.ok (v, r')) := fun v => .ok ⟨rfl, h⟩
  unfold aggregate
  simp only
  split
  · exact same _
  · split
    · exact .error
    · exact .ok ⟨rfl, (h.addWritten _).store s _ _⟩
    · exact .error
  · split
    · exact .ok ⟨by rw [h.state], h.withState fun st => { st with nextList := st.nextList + 1 }⟩
    · exact same _
  · exact same _
  · exact same _
  · exact same _

theorem aggregateStep_parallel (h : Follows t t' r r') (top : Frame) (e : Expr) :
    Agree (Parallel (Follows t t')) (s.aggregateStep r top e) (s.aggregateStep r' top e) := by
  unfold aggregateStep
  simp only
  split
  · exact .ok (.one (h.enter _))
  · have := s.aggregate_parallel h top e
    generalize s.aggregate r top e = x at this
    generalize s.aggregate r' top e = y at this
    cases this with
    | ok hxy =>
        refine .ok ?_
        dsimp only
        rw [hxy.1]
        exact .one (hxy.2.finish _ _)
    | error => exact .error

theorem exitStep_parallel (h : Follows t t' r r') (top : Frame) (e : Expr) (label : String) :
    Agree (Parallel (Follows t t')) (s.exitStep r top e label) (s.exitStep r' top e label) := by
  unfold exitStep
  split
  · exact .error
  · split
    · exact .error
    · exact .ok (.one (((h.mapConditions _ _).mapTop _).editRunning _))

theorem nextStep_parallel (h : Follows t t' r r') (top : Frame) (e : Expr) (label : String) :
    Agree (Parallel (Follows t t')) (s.nextStep r top e label) (s.nextStep r' top e label) := by
  unfold nextStep
  split
  · exact .error
  · split
    · exact .error
    · exact .ok (.one ((h.mapConditions _ _).mapTop _))

theorem waitStep_parallel (h : Follows t t' r r') (top : Frame) (e : Expr) (arity : Nat) :
    Agree (Parallel (Follows t t')) (s.waitStep r top e arity) (s.waitStep r' top e arity) := by
  unfold waitStep
  simp only [h.sameProc]
  split
  · exact .error
  · split
    · exact .error
    · split
      · exact .error
      · exact .ok ⟨rfl, rfl, rfl, rfl, .cons ((h.finish _ _).mapRunning _) .nil⟩

theorem callStep_parallel (h : Follows t t' r r') (ps : ProcessState) (top : Frame) (e : Expr)
    (f : Routine) (arity : Nat) :
    Agree (Parallel (Follows t t')) (s.callStep r ps top e f arity)
      (s.callStep r' ps top e f arity) := by
  unfold callStep
  simp only
  split
  · exact .ok (.one (h.enter _))
  · split
    · exact .ok (.one (h.finish _ _))
    · split
      · exact s.waitStep_parallel h top e arity
      · split
        · exact .error
        · exact .ok (.one ((h.mapGlobal _).finish _ _))
      · exact .ok (.one (((h.mapRunning _).mapConditions _ _).bindParams s _))

end

section Parts

variable {s : Simulator} {t u : Transition} {ps : ProcessState} {top : Frame} {e : Expr} {st : SmallStep}

/-- What holds, and stays when a parameter is written and when it gets its argument, holds after parameters are bound. -/
theorem bindParams_induction {P : Transition → Prop} {stack : List Routine} {ds : List Decl} {xs : List Value}
    (writes : ∀ {u : Transition} {d : Decl}, d ∈ ds → P u → P (u.addWritten (.ofFrame stack (.decl d))))
    (stores : ∀ {u : Transition} {d : Decl} {x : Value}, d ∈ ds → x ∈ xs → P u →
      P (s.store u (.ofFrame stack (.decl d)) x))
    (h : P t) : P (s.bindParams stack t ds xs) := by
  induction ds generalizing t xs with
  | nil => cases xs <;> exact h
  | cons d ds ih =>
      have written := writes List.mem_cons_self h
      have writes : ∀ {u : Transition} {d' : Decl}, d' ∈ ds → P u → P (u.addWritten (.ofFrame stack (.decl d'))) :=
        fun hd => writes (List.mem_cons_of_mem d hd)
      cases xs with
      | nil => exact ih writes (fun _ hx => nomatch hx) written
      | cons x xs =>
          exact ih writes (fun hd hx => stores (List.mem_cons_of_mem d hd) (List.mem_cons_of_mem x hx))
            (stores List.mem_cons_self List.mem_cons_self written)

/-- A variable is read, unless it is assigned to. -/
theorem readVariable_cases (s : Simulator) (t : Transition) (ps : ProcessState) (top : Frame) (d : Decl) :
    (s.readVariable t ps top d).2 = t ∨
      (s.readVariable t ps top d).2 = t.addRead (s.referenced ps top d) := by
  unfold readVariable
  dsimp only
  split
  · exact .inl rfl
  · exact .inr rfl

/-- Evaluating an expression whose children have been evaluated stores the value of an assignment or numbers a list
of events, and changes nothing otherwise. -/
theorem aggregate_cases {v : Value} (hu : s.aggregate t top e = .ok (v, u)) :
    u = t ∨
      (∃ id x y w, e = .binary id .assign x y ∧ top.value 0 0 = .known (.target w) ∧
        u = s.store (t.addWritten w) w (top.value 0 1)) ∨
      u = { t with state := { t.state with nextList := t.state.nextList + 1 } } := by
  have same : ∀ {x : Value}, (.ok (x, t) : Except Halt (Value × Transition)) = .ok (v, u) → u = t :=
    fun hx => (Prod.mk.inj (Except.ok.inj hx)).2.symm
  unfold aggregate at hu
  dsimp only at hu
  split at hu
  · exact .inl (same hu)
  · split at hu
    · cases hu
    · rename_i w target
      exact .inr (.inl ⟨_, _, _, w, rfl, target, (Prod.mk.inj (Except.ok.inj hu)).2.symm⟩)
    · cases hu
  · split at hu
    · exact .inr (.inr (Prod.mk.inj (Except.ok.inj hu)).2.symm)
    · exact .inl (same hu)
  · exact .inl (same hu)
  · exact .inl (same hu)
  · exact .inl (same hu)

theorem aggregateStep_cases (hst : s.aggregateStep t top e = .ok st) :
    top.comingFrom < e.children.length - 1 ∧ st = .one e top.comingFrom (t.enter (top.comingFrom + 1)) ∨
      ¬ top.comingFrom < e.children.length - 1 ∧ ∃ v u, s.aggregate t top e = .ok (v, u) ∧
        st = .one e top.comingFrom (u.finish s.program.system v) := by
  unfold aggregateStep at hst
  dsimp only at hst
  split at hst
  · rename_i more
    exact .inl ⟨more, (Except.ok.inj hst).symm⟩
  · rename_i done
    obtain ⟨⟨v, u⟩, hu, rfl⟩ := Success.map_iff.1 hst
    exact .inr ⟨done, v, u, hu, rfl⟩

theorem exitStep_cases {label : String} (hst : s.exitStep t top e label = .ok st) :
    ∃ levels target j,
      s.program.system.target? top.location.routine label true 1 top.path.tail = some (levels, target) ∧
      top.outermost? (levels + 1) = some j ∧
      st = .one e top.comingFrom (((t.mapConditions (·.dropThrough target.id)).mapTop (·.pop (levels + 1))).editTop
        (Frame.editComeFrom j none)) := by
  unfold exitStep at hst
  split at hst
  · cases hst
  · rename_i levels target htarget
    split at hst
    · cases hst
    · rename_i j hj
      exact ⟨levels, target, j, htarget, hj, (Except.ok.inj hst).symm⟩

/-- The index behind which a loop goes on with its next round. -/
def roundEnd : Expr → Int
  | .forLoop _ _ _ _ _ body => body.length + 1
  | e => e.children.length - 1

theorem nextStep_cases {label : String} (hst : s.nextStep t top e label = .ok st) :
    ∃ levels target j,
      s.program.system.target? top.location.routine label false 1 top.path.tail = some (levels, target) ∧
      top.outermost? levels = some j ∧
      st = .one e top.comingFrom ((t.mapConditions (·.dropAbove target.id)).mapTop fun f =>
        { f.pop levels with comingFrom := roundEnd target }) := by
  unfold nextStep at hst
  split at hst
  · cases hst
  · rename_i levels target htarget
    split at hst
    · cases hst
    · rename_i j hj
      refine ⟨levels, target, j, htarget, hj, (Except.ok.inj hst).symm.trans ?_⟩
      cases target <;> rfl

theorem waitStep_cases {arity : Nat} (hst : s.waitStep t top e arity = .ok st) :
    ∃ p args b, t.proc = some p ∧ argumentPayloads top 0 arity = .ok args ∧ blocker? p args = some b ∧
      st = { SmallStep.one e top.comingFrom
        ((t.finish s.program.system .unknown).mapRunning (·.block (some b))) with ends := true } := by
  unfold waitStep at hst
  dsimp only at hst
  split at hst
  · cases hst
  · rename_i p hp
    split at hst
    · cases hst
    · rename_i args hargs
      split at hst
      · cases hst
      · rename_i b hb
        exact ⟨p, args, b, hp, hargs, hb, (Except.ok.inj hst).symm⟩

/-- What a step on a call does: it goes on to the next argument, leaves with the result of the routine, or, once
all arguments are there, waits, requests an update or enters the routine. -/
inductive CallStep (s : Simulator) (t : Transition) (ps : ProcessState) (top : Frame) (e : Expr) (arity : Nat) :
    Routine → SmallStep → Prop
  | argument {r : Routine} (more : top.comingFrom < (arity : Int) - 1) :
      CallStep s t ps top e arity r (.one e top.comingFrom (t.enter (top.comingFrom + 1)))
  | result {r : Routine} (returned : (arity : Int) ≤ top.comingFrom) :
      CallStep s t ps top e arity r (.one e top.comingFrom (t.finish s.program.system (top.value 0 arity)))
  | wait {st : SmallStep} (last : top.comingFrom = (arity : Int) - 1) (hst : s.waitStep t top e arity = .ok st) :
      CallStep s t ps top e arity .wait st
  | request {i : Instance} (last : top.comingFrom = (arity : Int) - 1)
      (receiver : (if s.program.system.isQualified top.location then top.value 1 0
        else top.receiver).asInstance? = some i) :
      CallStep s t ps top e arity .requestUpdate
        (.one e top.comingFrom ((t.mapGlobal (·.requestUpdate i)).finish s.program.system .unknown))
  | call {m : Member} {receiver : Value} (last : top.comingFrom = (arity : Int) - 1)
      (called : receiver = if s.program.system.isQualified top.location then top.value 1 0 else top.receiver) :
      CallStep s t ps top e arity (.member m) (.one e top.comingFrom (s.bindParams (.member m :: ps.routines)
        ((t.mapRunning (·.push (.start (.member m) receiver))).mapConditions (·.enterCall)) (Routine.member m).params
        ((List.range arity).map fun (k : Nat) => top.value 0 k)))

theorem callStep_cases {r : Routine} {arity : Nat} (hst : s.callStep t ps top e r arity = .ok st) :
    s.CallStep t ps top e arity r st := by
  unfold callStep at hst
  dsimp only at hst
  split at hst
  · rename_i more
    exact Except.ok.inj hst ▸ .argument more
  · split at hst
    · rename_i returned
      exact Except.ok.inj hst ▸ .result returned
    · have last : top.comingFrom = (arity : Int) - 1 := by omega
      split at hst
      · exact .wait last hst
      · split at hst
        · cases hst
        · rename_i i receiver
          exact Except.ok.inj hst ▸ .request last receiver
      · exact Except.ok.inj hst ▸ .call last rfl

end Parts

section Notifications

variable {s : Simulator} {t r : Transition} {notified : List Event}

/-- What becomes of `t` when a process is told of events: nothing, if it does not listen to them; otherwise its
wait changes, and the observer learns of it. -/
inductive Notifies (s : Simulator) (t : Transition) (p : Process) (notified : List Event) : Transition → Prop
  | deaf {ps : ProcessState} (found : t.state.procs[p.index]? = some ps)
      (same : Blocker.hear notified ps.blocker = ps.blocker) : Notifies s t p notified t
  | hears {ps : ProcessState} {l : EventList} {i : Info} (found : t.state.procs[p.index]? = some ps)
      (waits : ps.blocker = some (.events l))
      (learned : (s.setup.observer.waitedForEvents (t.setProc p (ps.block (Blocker.hear notified ps.blocker))) p
        (l.events.filter notified.contains) l).result = .ok i) :
      Notifies s t p notified { t.setProc p (ps.block (Blocker.hear notified ps.blocker)) with info := i }

theorem notifyProcess_cases {p : Process} (hr : (s.notifyProcess t p notified).result = .ok r) :
    s.Notifies t p notified r := by
  unfold notifyProcess at hr
  split at hr
  · cases hr
  · rename_i ps found
    split at hr
    · rename_i l waits
      dsimp only at hr
      split at hr
      · rename_i same
        obtain rfl := Run.pure_result_iff.1 hr
        refine .deaf found ?_
        rw [waits]
        exact if_pos same
      · rename_i fewer
        have wait : Blocker.hear notified ps.blocker = _ := (congrArg _ waits).trans (if_neg fewer)
        rw [← wait] at hr
        obtain ⟨i, learned, hr⟩ := Run.bind_result_iff.1 hr
        obtain rfl := Run.pure_result_iff.1 hr
        exact .hears found waits learned
    · rename_i other
      obtain rfl := Run.pure_result_iff.1 hr
      refine .deaf found ?_
      unfold Blocker.hear
      split
      · rename_i l waits
        exact absurd waits (other l)
      · rfl

/-- What holds, and stays when a process is told of the events, holds after processes were told. -/
theorem notifyProcesses_induction {P : Transition → Prop}
    (step : ∀ {u v : Transition} {p : Process}, P u → s.Notifies u p notified v → P v) {ps : List Process}
    (h : P t) (hr : (s.notifyProcesses t notified ps).result = .ok r) : P r := by
  induction ps generalizing t with
  | nil => exact Run.pure_result_iff.1 hr ▸ h
  | cons p ps ih =>
      obtain ⟨u, hu, hr⟩ := Run.bind_result_iff.1 hr
      exact ih (step h (notifyProcess_cases hu)) hr

/-- A notification that counts is put off, or the other processes are told of it. -/
theorem notify_cases {e : Event} {delay : Option Delay} (hr : (s.notify t e delay).result = .ok r) :
    (s.isHalted t.state || !s.setup.tracksEvent e) = true ∧ r = t ∨
      (∃ d, delay = some d ∧
        r = t.mapGlobal fun g => g.setPending e (Delay.earlier (g.pending.get? e) (some d))) ∨
      delay = none ∧ (s.notifyProcesses (t.mapGlobal (·.setPending e none)) [e]
        (s.procs.filter fun p => some p.index ≠ t.proc.map (·.index))).result = .ok r := by
  unfold notify at hr
  split at hr
  · rename_i idle
    exact .inl ⟨idle, (Run.pure_result_iff.1 hr).symm⟩
  · cases delay with
    | some d => exact .inr (.inl ⟨d, rfl, (Run.pure_result_iff.1 hr).symm⟩)
    | none => exact .inr (.inr ⟨rfl, hr⟩)

/-- What holds whenever the event is pending, and stays when a process is told of it, holds after it is notified. -/
theorem notify_induction {P : Transition → Prop} {e : Event} {delay : Option Delay}
    (step : ∀ {u v : Transition} {p : Process}, P u → s.Notifies u p [e] v → P v)
    (h : P t) (planned : ∀ d, P (t.mapGlobal (·.setPending e d)))
    (hr : (s.notify t e delay).result = .ok r) : P r := by
  obtain ⟨-, rfl⟩ | ⟨d, -, rfl⟩ | ⟨-, told⟩ := notify_cases hr
  · exact h
  · exact planned _
  · exact notifyProcesses_induction step (planned none) told

/-- A small step on a notification goes on to the next of its parts, or notifies. -/
theorem notifyStep_cases {top : Frame} {e target : Expr} {delays : List Expr} {st : SmallStep}
    (hst : (s.notifyStep t top e target delays).result = .ok st) :
    top.comingFrom < delays.length ∧ st = .one e top.comingFrom (t.enter (top.comingFrom + 1)) ∨
      ¬ top.comingFrom < delays.length ∧ ∃ event delay u, (top.value 0 0).asEvent? = some event ∧
        delayOf top e delays = .ok delay ∧ (s.notify t event delay).result = .ok u ∧
        st = .one e top.comingFrom (u.finish s.program.system .unknown) := by
  unfold notifyStep at hst
  dsimp only at hst
  split at hst
  · rename_i early
    exact .inl ⟨early, (Run.pure_result_iff.1 hst).symm⟩
  · rename_i late
    split at hst
    · cases hst
    · rename_i event hevent
      obtain ⟨delay, hdelay, hst⟩ := Run.bind_result_iff.1 hst
      obtain ⟨u, hu, hst⟩ := Run.bind_result_iff.1 hst
      exact .inr ⟨late, event, delay, u, hevent, (Run.result_of _).symm.trans hdelay, hu,
        (Run.pure_result_iff.1 hst).symm⟩

end Notifications

end Simulator

end DeltaSlice

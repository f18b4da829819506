import DeltaSlice.Proofs.Coarse.Settled
import DeltaSlice.Proofs.Dependence.Binding
import DeltaSlice.Proofs.Safety.Steps
import DeltaSlice.Proofs.Safety.Transitions
import DeltaSlice.Proofs.Step.Footing

/-!
How the frames of the running code shift. A small step descends into a child, leaves the expression with a
result, exits or repeats something above, calls, or returns to the caller, and other frames are left alone.
Only steps whose results may be reached again go back to an earlier child.
-/

namespace DeltaSlice

open Transition

/-- Exits, repetitions and returns: all that leads further than to the expression above. -/
def Expr.isJump : Expr → Bool
  | exit .. | next .. | ret .. => true
  | _ => false

namespace Simulator

/-- The results with which an expression is left. A case is left with a truth value only. -/
inductive LeftWith (s : Simulator) (t : Transition) (ps : ProcessState) (top : Frame) : Expr → Value → Prop
  | unknown {e : Expr} : e.isArm = false → LeftWith s t ps top e .unknown
  | bool {e : Expr} (b : Bool) : LeftWith s t ps top e (.bool b)
  | literal (id : Nat) (l : Literal) : LeftWith s t ps top (.const id l) (.lit l)
  | event (id : Nat) (name : String) {i : Instance} {ev : Event} : top.receiver.asInstance? = some i →
      s.program.system.event? i name = some ev → LeftWith s t ps top (.event id name) (.lit (.event ev))
  | place (id : Nat) (d : Decl) : LeftWith s t ps top (.var id d) (.known (.target (s.referenced ps top d)))
  | loaded (id : Nat) (d : Decl) : s.setup.tracksVariable (s.referenced ps top d) = true →
      LeftWith s t ps top (.var id d) (load t ps (s.referenced ps top d))
  | slot {e : Expr} (c : Int) : e.isArm = false → LeftWith s t ps top e (top.value 0 c)
  | unary (id : Nat) (op : UnaryOp) (x : Expr) :
      LeftWith s t ps top (.unary id op x) (.applyUnary op (top.value 0 0))
  | binary (id : Nat) (op : BinaryOp) (x y : Expr) :
      LeftWith s t ps top (.binary id op x y) (.apply op (top.value 0 0) (top.value 0 1))
  | events (id : Nat) (op : BinaryOp) (x y : Expr) (n : Nat) {choice : Bool} {l : EventList} :
      eventList? choice (top.value 0 0) (top.value 0 1) = some l →
      LeftWith s t ps top (.binary id op x y) (.known (.events n l))

/-- The frames after a return from `top`. -/
inductive Returns (t : Transition) (top : Frame) (below : List Frame) : List Frame → Prop
  | back {caller : Frame} {rest : List Frame} {v : Value} : below = caller :: rest →
      v = .unknown ∨ v = top.value 0 0 → Returns t top below
        ({ caller with comingFrom := caller.comingFrom + 1 }.put (caller.comingFrom + 1) (some v) :: rest)
  | ends {fs : List Frame} : below = [] →
      fs = [] ∨ (∃ p : Process, t.proc = some p ∧ fs = [.start p.routine (.lit (.inst p.inst))]) →
      Returns t top below fs

/-- The frames after a small step on `e`, or on a body, which stands with `n` children in the frame `top`. The
flag says whether the results may be reached again. -/
inductive Shifts (s : Simulator) (t : Transition) (ps : ProcessState) (top : Frame) (below : List Frame)
    (e : Option Expr) (n : Nat) (repeats : Bool) : List Frame → Prop
  | enter (j : Int) : (∀ x, e = some x → x.isCall = true → top.comingFrom < n) →
      (-1 ≤ top.comingFrom → top.comingFrom < n → 0 ≤ j ∧ j < n ∧ (top.comingFrom < j ∨ repeats = true)) →
      Shifts s t ps top below e n repeats (top.enter j :: below)
  | finish {x : Expr} {v : Value} : e = some x → s.LeftWith t ps top x v →
      Shifts s t ps top below e n repeats (s.program.system.finish v top :: below)
  | exit {id : Nat} {label : String} {levels : Nat} {target : Expr} {j : Int} : e = some (.exit id label) →
      s.program.system.target? top.location.routine label true 1 top.path.tail = some (levels, target) →
      top.path[levels]? = some j →
      Shifts s t ps top below e n repeats ({ top.pop (levels + 1) with comingFrom := j }.put j none :: below)
  | next {id : Nat} {label : String} {levels : Nat} {target : Expr} {j : Int} : e = some (.next id label) →
      s.program.system.target? top.location.routine label false 1 top.path.tail = some (levels, target) →
      j = roundEnd target → Shifts s t ps top below e n repeats ({ top.pop levels with comingFrom := j } :: below)
  | call {id : Nat} {m : Member} {args : List Expr} {receiver : Value} : e = some (.call id (.member m) args) →
      top.comingFrom = args.length - 1 →
      receiver = (if s.program.system.isQualified top.location then top.value 1 0 else top.receiver) →
      Shifts s t ps top below e n repeats (.start (.member m) receiver :: top :: below)
  | returns {fs : List Frame} : (∀ x, e = some x → x.isReturn = true) → Returns t top below fs →
      Shifts s t ps top below e n repeats fs

end Simulator

/-- All results of a small step have shifted the frames. -/
def SmallStep.Shifts (s : Simulator) (t : Transition) (ps : ProcessState) (top : Frame) (below : List Frame)
    (e : Option Expr) (n : Nat) (st : SmallStep) : Prop :=
  ∀ r ∈ st.results, s.Shifts t ps top below e n st.repeats r.frames

namespace SmallStep.Shifts

variable {s : Simulator} {t u r : Transition} {ps : ProcessState} {top : Frame} {below : List Frame}
  {o o' : Option Expr} {i : Int} {n : Nat}

theorem one (h : s.Shifts t ps top below o n false r.frames) :
    (SmallStep.one o' i r).Shifts s t ps top below o n :=
  fun _ hr => List.mem_singleton.1 hr ▸ h

theorem repeating {b : Bool} (h : s.Shifts t ps top below o n b r.frames) :
    { SmallStep.one o' i r with repeats := b }.Shifts s t ps top below o n :=
  fun _ hr => List.mem_singleton.1 hr ▸ h

theorem fork {b : Bool} {r' : Transition} (h : s.Shifts t ps top below o n b r.frames)
    (h' : s.Shifts t ps top below o n b r'.frames) :
    { SmallStep.one o' i u with results := [r, r'], repeats := b }.Shifts s t ps top below o n := by
  intro x hx
  rcases List.mem_cons.1 hx with rfl | hx
  · exact h
  · exact List.mem_singleton.1 hx ▸ h'

end SmallStep.Shifts

namespace Simulator

section

variable {s : Simulator} {t u r : Transition} {ps : ProcessState} {top : Frame} {below : List Frame}
  {e : Expr} {st : SmallStep} {n : Nat}

theorem enter_shifts {o : Option Expr} {b : Bool} (hframes : u.frames = top :: below) (j : Int)
    (calls : ∀ x, o = some x → x.isCall = true → top.comingFrom < n)
    (inside : -1 ≤ top.comingFrom → top.comingFrom < n → 0 ≤ j ∧ j < n ∧ (top.comingFrom < j ∨ b = true)) :
    s.Shifts t ps top below o n b (u.enter j).frames := by
  rw [show (u.enter j).frames = top.enter j :: below from frames_mapTop hframes _]
  exact .enter j calls inside

theorem finish_shifts {b : Bool} (hframes : u.frames = top :: below) {v : Value} (left : s.LeftWith t ps top e v) :
    s.Shifts t ps top below (some e) n b (u.finish s.program.system v).frames := by
  rw [frames_finish hframes]
  exact .finish rfl left

section Steering

variable (hframes : t.frames = top :: below)

include hframes

theorem noted_frames (f : Conditions → Conditions) : (t.mapConditions f).frames = top :: below := hframes

theorem branchStep_shifts {yes no : List Expr} (other : e.isCall = false) (plain : e.isArm = false)
    (width : n = yes.length + no.length + 1) : (s.branchStep t top e yes no).Shifts s t ps top below (some e) n := by
  subst width
  have calls : ∀ {n : Int} x, some e = some x → x.isCall = true → top.comingFrom < n := by simp [other]
  have leave : ∀ {b : Bool} {u : Transition}, u.frames = top :: below →
      s.Shifts t ps top below (some e) (yes.length + no.length + 1) b
        (u.finish s.program.system .unknown).frames := fun hu => finish_shifts hu (.unknown plain)
  unfold branchStep
  dsimp only
  split
  · exact .one (enter_shifts hframes 0 calls (by omega))
  · split
    · rename_i zero
      have enterYes : ∀ c : Value, s.Shifts t ps top below (some e) (yes.length + no.length + 1) false
          (if yes.isEmpty then ((t.mapConditions (·.add e.id c)).mapConditions (·.dropThrough e.id)).finish
            s.program.system .unknown else (t.mapConditions (·.add e.id c)).enter 1).frames := by
        intro c
        split
        · exact leave (noted_frames (noted_frames hframes _) _)
        · rename_i some
          have := List.length_pos_iff.2 (mt List.isEmpty_iff.2 some)
          exact enter_shifts (noted_frames hframes _) 1 calls (by omega)
      have enterNo : ∀ c : Value, s.Shifts t ps top below (some e) (yes.length + no.length + 1) false
          (if no.isEmpty then t.finish s.program.system .unknown
            else (t.mapConditions (·.add e.id c.not)).enter (yes.length + 1)).frames := by
        intro c
        split
        · exact leave hframes
        · rename_i some
          have := List.length_pos_iff.2 (mt List.isEmpty_iff.2 some)
          exact enter_shifts (noted_frames hframes _) _ calls (by omega)
      split
      · exact .fork (enterYes _) (enterNo _)
      · exact .one (enterYes _)
      · exact .one (enterNo _)
    · split
      · split
        · exact .one (leave (noted_frames hframes _))
        · exact .one (enter_shifts hframes _ calls (by omega))
      · split
        · exact .repeating (leave (noted_frames hframes _))
        · exact .one (enter_shifts hframes _ calls (by omega))

theorem loopStep_shifts {body : List Expr} (other : e.isCall = false) (plain : e.isArm = false)
    (width : n = body.length + 1) (testsFirst : Bool) :
    (s.loopStep t top e body testsFirst).Shifts s t ps top below (some e) n := by
  subst width
  have calls : ∀ {n : Int} x, some e = some x → x.isCall = true → top.comingFrom < n := by simp [other]
  have leave : ∀ {b : Bool}, s.Shifts t ps top below (some e) (body.length + 1) b
      ((t.mapConditions (·.dropThrough e.id)).finish s.program.system .unknown).frames :=
    finish_shifts (noted_frames hframes _) (.unknown plain)
  have first : ∀ {u : Transition}, u.frames = top :: below → top.comingFrom = 0 →
      s.Shifts t ps top below (some e) (body.length + 1) body.isEmpty
        (u.enter (if body.isEmpty then 0 else 1)).frames := by
    intro u hu zero
    refine enter_shifts hu _ calls fun _ _ => ?_
    cases empty : body.isEmpty with
    | true => simp
    | false =>
        have := List.length_pos_iff.2 (mt List.isEmpty_iff.2 (by simp [empty]) : ¬ body = [])
        simp only [Bool.false_eq_true, if_false, or_false]
        omega
  unfold loopStep
  dsimp only
  split
  · split
    · exact .repeating (enter_shifts (noted_frames hframes _) 0 calls (by simp))
    · rename_i later
      have some : ¬ body.isEmpty = true := fun empty => later (by simp [empty])
      have := List.length_pos_iff.2 (mt List.isEmpty_iff.2 some)
      exact .one (enter_shifts (noted_frames hframes _) 1 calls (by omega))
  · split
    · rename_i zero
      split
      · exact .fork (first (noted_frames hframes _) zero) leave
      · exact .repeating (first hframes zero)
      · exact .one leave
    · split
      · exact .repeating (enter_shifts hframes 0 calls (by simp))
      · exact .one (enter_shifts hframes _ calls (by omega))

theorem forStep_shifts {body : List Expr} (other : e.isCall = false) (plain : e.isArm = false)
    (width : n = body.length + 3) : (s.forStep t top e body).Shifts s t ps top below (some e) n := by
  subst width
  have calls : ∀ {n : Int} x, some e = some x → x.isCall = true → top.comingFrom < n := by simp [other]
  have leave : ∀ {b : Bool}, s.Shifts t ps top below (some e) (body.length + 3) b
      ((t.mapConditions (·.dropThrough e.id)).finish s.program.system .unknown).frames :=
    finish_shifts (noted_frames hframes _) (.unknown plain)
  unfold forStep
  dsimp only
  split
  · exact .one (enter_shifts (noted_frames hframes _) 0 calls (by omega))
  · split
    · exact .repeating (enter_shifts hframes 1 calls (by simp; omega))
    · split
      · split
        · exact .fork (enter_shifts (noted_frames hframes _) 2 calls (by omega)) leave
        · exact .one (enter_shifts hframes 2 calls (by omega))
        · exact .one leave
      · split
        · exact .repeating (enter_shifts hframes 1 calls (by simp; omega))
        · exact .one (enter_shifts hframes _ calls (by omega))

theorem switchStep_shifts {arms : List Expr} (other : e.isCall = false) (plain : e.isArm = false)
    (width : n = arms.length + 1) : (s.switchStep t top e arms).Shifts s t ps top below (some e) n := by
  subst width
  have calls : ∀ {n : Int} x, some e = some x → x.isCall = true → top.comingFrom < n := by simp [other]
  unfold switchStep
  dsimp only
  split
  · exact .one (enter_shifts (noted_frames hframes _) 0 calls (by omega))
  · split
    · exact .repeating (finish_shifts (noted_frames hframes _) (.unknown plain))
    · split
      · exact .one (enter_shifts hframes 1 calls (by omega))
      · exact .repeating (enter_shifts hframes _ calls (by simp; omega))

theorem armStep_shifts {id : Nat} {value : Option Expr} {body : List Expr}
    (width : n = (Expr.arm id value body).children.length) :
    (s.armStep t top (.arm id value body) value body).Shifts s t ps top below (some (.arm id value body)) n := by
  have count : n = (if value.isSome then 1 else 0) + body.length := by
    rw [width]
    cases value with
    | none => simp [Expr.children]
    | some v => simp [Expr.children, Nat.add_comm]
  have calls : ∀ {n : Int} x, some (Expr.arm id value body) = some x → x.isCall = true → top.comingFrom < n := by
    intro _ x same isCall
    obtain rfl := Option.some.inj same
    cases isCall
  have leave : ∀ {u : Transition} {b : Bool}, u.frames = top :: below → ∀ ran,
      s.Shifts t ps top below (some (.arm id value body)) n b (u.finish s.program.system (.bool ran)).frames :=
    fun hu ran => finish_shifts hu (.bool ran)
  have enterBody : ∀ {u : Transition}, u.frames = top :: below →
      (top.comingFrom = -1 ∨ top.comingFrom = 0 ∧ value.isSome = true) →
      s.Shifts t ps top below (some (.arm id value body)) n false
        (if body.isEmpty then u.finish s.program.system (.bool true)
          else u.enter (if value.isSome then 1 else 0)).frames := by
    intro u hu before
    split
    · exact leave hu true
    · rename_i some
      have := List.length_pos_iff.2 (mt List.isEmpty_iff.2 some)
      refine enter_shifts hu _ calls fun _ _ => ?_
      split at count <;> rename_i valued <;> simp [valued] at before ⊢ <;> omega
  unfold armStep
  rw [← width]
  dsimp only
  split
  · rename_i first
    split
    · exact .one (enterBody hframes (.inl first))
    · rename_i tested
      have some : value.isSome = true := by
        cases value with
        | none => simp at tested
        | some v => rfl
      rw [if_pos some] at count
      exact .one (enter_shifts hframes 0 calls (by omega))
  · split
    · rename_i valued
      have before : top.comingFrom = -1 ∨ top.comingFrom = 0 ∧ value.isSome = true := by
        exact .inr (by simpa using valued)
      split
      · exact .fork (enterBody (noted_frames hframes _) before) (leave (noted_frames hframes _) false)
      · exact .one (enterBody hframes before)
      · exact .one (leave hframes false)
    · split
      · exact .one (leave hframes true)
      · exact .one (enter_shifts hframes _ calls (by omega))

end Steering

section Leaving

variable (hframes : t.frames = top :: below)

/-- At its end, code leaves no frame, or the one with which a process starts over. -/
theorem endOfCode_frames (empty : u.frames = []) (hr : r ∈ (endOfCode u).results) : r.frames = [] ∨
    ∃ p : Process, u.proc = some p ∧ r.frames = [.start p.routine (.lit (.inst p.inst))] := by
  unfold endOfCode at hr
  cases hp : u.proc with
  | none =>
      simp only [hp] at hr
      obtain rfl := List.mem_singleton.1 hr
      exact .inl empty
  | some p =>
      simp only [hp] at hr
      obtain rfl := List.mem_singleton.1 hr
      split
      · exact .inl ((frames_mapRunning (f := (·.block (some .terminated))) fun _ => rfl).trans empty)
      · unfold frames at empty ⊢
        rw [running?_mapRunning]
        cases hps : u.running? with
        | none => exact .inl rfl
        | some ps =>
            rw [hps] at empty
            exact .inr ⟨p, rfl, congrArg _ empty⟩

include hframes

theorem returnFrom_returns {o : Option Expr} {i : Int} {v : Value} (hv : v = .unknown ∨ v = top.value 0 0) :
    ∀ r ∈ (s.returnFrom t o i v).results, Returns t top below r.frames := by
  have hbelow : (t.editRunning ProcessState.editPop).frames = below :=
    (frames_editPop t).trans (congrArg List.tail hframes)
  have head : (t.editRunning ProcessState.editPop).top? = below.head? := by rw [top?_eq_head?, hbelow]
  unfold returnFrom
  dsimp only
  split
  · rename_i none
    obtain rfl : below = [] := List.head?_eq_none_iff.1 (head.symm.trans none)
    intro r hr
    refine .ends rfl ((endOfCode_frames hbelow hr).imp_right ?_)
    rintro ⟨p, hp, frames⟩
    exact ⟨p, ((Keeps.refl t).editRunning ProcessState.editPop).proc.symm.trans hp, frames⟩
  · rename_i caller hcaller
    obtain ⟨rest, rfl⟩ := List.head?_eq_some_iff.1 (head.symm.trans hcaller)
    have stack := frames_comeFrom hbelow (caller.comingFrom + 1) (some v)
    refine fun r hr => List.mem_singleton.1 hr ▸ ?_
    split
    · rename_i m _ _
      rw [frames_mapRunning (f := (dropParams · m)) fun q => dropParams_stack q m]
      exact stack ▸ .back rfl hv
    · exact stack ▸ .back rfl hv

theorem returnFrom_shifts {o o' : Option Expr} {i : Int} {v : Value} (returns : ∀ x, o = some x → x.isReturn = true)
    (hv : v = .unknown ∨ v = top.value 0 0) : (s.returnFrom t o' i v).Shifts s t ps top below o n :=
  fun r hr => .returns returns (returnFrom_returns hframes hv r hr)

theorem bodyStep_shifts (width : n = (s.program.system.body top.location.routine).length) :
    (s.bodyStep t top).Shifts s t ps top below none n := by
  subst width
  unfold bodyStep
  dsimp only
  split
  · exact .one (enter_shifts hframes _ (by simp) (by omega))
  · exact returnFrom_shifts hframes (by simp) (.inl rfl)

theorem aggregateStep_shifts (plain : e.isArm = false) (width : n = e.children.length)
    (hst : s.aggregateStep t top e = .ok st) :
    st.Shifts s t ps top below (some e) n := by
  subst width
  obtain ⟨early, rfl⟩ | ⟨-, v, u, hu, rfl⟩ := aggregateStep_cases hst
  · exact .one (enter_shifts hframes _ (fun _ _ _ => by omega) (by omega))
  · unfold aggregate at hu
    dsimp only at hu
    split at hu
    · obtain ⟨rfl, rfl⟩ := Prod.mk.inj (Except.ok.inj hu)
      exact .one (finish_shifts hframes (.unary _ _ _))
    · split at hu
      · cases hu
      · obtain ⟨rfl, rfl⟩ := Prod.mk.inj (Except.ok.inj hu)
        have stored : ∀ v x, (s.store (t.addWritten v) v x).frames = top :: below :=
          fun v x => (store_frames _ v x).trans hframes
        exact .one (finish_shifts (stored _ _) (.slot 1 rfl))
      · cases hu
    · split at hu
      · rename_i l hl
        obtain ⟨rfl, rfl⟩ := Prod.mk.inj (Except.ok.inj hu)
        have numbered : ∀ n, frames { t with state := { t.state with nextList := n } } = top :: below :=
          fun _ => hframes
        split at hl
        · exact .one (finish_shifts (numbered _) (.events _ _ _ _ _ hl))
        · cases hl
      · obtain ⟨rfl, rfl⟩ := Prod.mk.inj (Except.ok.inj hu)
        exact .one (finish_shifts hframes (.binary _ _ _ _))
    · obtain ⟨rfl, rfl⟩ := Prod.mk.inj (Except.ok.inj hu)
      exact .one (finish_shifts hframes (.slot 1 rfl))
    · obtain ⟨rfl, rfl⟩ := Prod.mk.inj (Except.ok.inj hu)
      exact .one (finish_shifts hframes (.slot 0 rfl))
    · obtain ⟨rfl, rfl⟩ := Prod.mk.inj (Except.ok.inj hu)
      exact .one (finish_shifts hframes (.unknown plain))

theorem exitStep_shifts {id : Nat} {label : String} (hst : s.exitStep t top (.exit id label) label = .ok st) :
    st.Shifts s t ps top below (some (.exit id label)) n := by
  obtain ⟨levels, target, j, htarget, hj, rfl⟩ := exitStep_cases hst
  refine .one ?_
  rw [frames_comeFrom (frames_mapTop (noted_frames hframes _) _)]
  exact .exit rfl htarget (Frame.outermost?_succ_eq_some hj)

theorem nextStep_shifts {id : Nat} {label : String} (hst : s.nextStep t top (.next id label) label = .ok st) :
    st.Shifts s t ps top below (some (.next id label)) n := by
  obtain ⟨levels, target, _, htarget, -, rfl⟩ := nextStep_cases hst
  refine .one ?_
  rw [frames_mapTop (noted_frames hframes _)]
  exact .next rfl htarget rfl

theorem waitStep_shifts {arity : Nat} (plain : e.isArm = false) (hst : s.waitStep t top e arity = .ok st) :
    st.Shifts s t ps top below (some e) n := by
  obtain ⟨_, _, b, -, -, -, rfl⟩ := waitStep_cases hst
  intro r hr
  obtain rfl := List.mem_singleton.1 hr
  rw [frames_mapRunning (f := (·.block (some b))) fun _ => rfl]
  exact finish_shifts hframes (.unknown plain)

theorem callStep_shifts {id : Nat} {f : Routine} {args : List Expr} (width : n = args.length)
    (hps : t.running? = some ps)
    (hst : s.callStep t ps top (.call id f args) f args.length = .ok st) :
    st.Shifts s t ps top below (some (.call id f args)) n := by
  subst width
  cases callStep_cases hst with
  | argument => exact .one (enter_shifts hframes _ (fun _ _ _ => by omega) (by omega))
  | result => exact .one (finish_shifts hframes (.slot _ rfl))
  | wait _ hst => exact waitStep_shifts hframes rfl hst
  | request =>
      have requested : ∀ i, (t.mapGlobal (·.requestUpdate i)).frames = top :: below := fun _ => hframes
      exact .one (finish_shifts (requested _) (.unknown rfl))
  | call last called =>
      refine .one ?_
      rw [bindParams_frames]
      have pushed : ∀ f, (t.mapRunning (·.push f)).frames = f :: top :: below := by
        intro f
        refine frames_eq_cons.2 ⟨ps.push f, ?_, ?_⟩
        · rw [running?_mapRunning, hps]
          rfl
        · obtain ⟨q, hq, hstack⟩ := frames_eq_cons.1 hframes
          obtain rfl := Option.some.inj (hps.symm.trans hq)
          exact congrArg _ hstack
      exact pushed _ ▸ .call rfl last called

end Leaving

section Steps

variable (hframes : t.frames = top :: below)

include hframes

theorem notifyStep_shifts {target : Expr} {delays : List Expr} (plain : e.isArm = false)
    (width : n = delays.length + 1)
    (hst : (s.notifyStep t top e target delays).result = .ok st) : st.Shifts s t ps top below (some e) n := by
  subst width
  obtain ⟨early, rfl⟩ | ⟨-, _, _, u, -, -, hu, rfl⟩ := notifyStep_cases hst
  · exact .one (enter_shifts hframes _ (fun _ _ _ => by omega) (by omega))
  · exact .one (finish_shifts ((notify_frames hu).trans hframes) (.unknown plain))

theorem readVariable_left (ps : ProcessState) (id : Nat) (d : Decl) :
    s.LeftWith t ps top (.var id d) (s.readVariable t ps top d).1 ∧
      (s.readVariable t ps top d).2.frames = top :: below := by
  unfold readVariable
  dsimp only
  split
  · refine ⟨?_, hframes⟩
    split
    · exact .place id d
    · exact .unknown rfl
  · refine ⟨?_, hframes⟩
    dsimp only
    split
    · rename_i tracked
      exact .loaded id d (Bool.and_eq_true_iff.1 tracked).2
    · exact .unknown rfl

/-- A small step on an expression shifts the frames. -/
theorem exprStep_shifts (hps : t.running? = some ps) (hst : (s.exprStep t ps top e).result = .ok st) :
    st.Shifts s t ps top below (some e) e.children.length := by
  have given : ∀ {x : SmallStep}, (pure x : Step SmallStep).result = .ok st →
      x.Shifts s t ps top below (some e) e.children.length →
      st.Shifts s t ps top below (some e) e.children.length := by
    intro x hx shifts
    obtain rfl := Run.pure_result_iff.1 hx
    exact shifts
  unfold exprStep at hst
  cases e with
  | const id l =>
      dsimp only at hst
      split at hst
      · cases hst
      · exact given hst (.one (finish_shifts hframes (.literal id l)))
  | event id name =>
      refine given hst (.one (finish_shifts hframes ?_))
      split
      · rename_i ev hev
        obtain ⟨i, hi, hev⟩ := Option.bind_eq_some_iff.1 hev
        exact .event id name hi hev
      · exact .unknown rfl
  | var id d =>
      obtain ⟨left, frames⟩ := readVariable_left (s := s) hframes ps id d
      exact given hst (.one (finish_shifts frames left))
  | unary | binary | access | bracket | block | empty => exact aggregateStep_shifts hframes rfl rfl hst
  | branch id c yes no => exact given hst (branchStep_shifts hframes rfl rfl (by simp [Expr.children]))
  | whileLoop id l c body | doLoop id l c body => exact given hst (loopStep_shifts hframes rfl rfl rfl _)
  | forLoop id l i c p body => exact given hst (forStep_shifts hframes rfl rfl (by simp [Expr.children]))
  | switch id l tag cases => exact given hst (switchStep_shifts hframes rfl rfl rfl)
  | arm id value body => exact given hst (armStep_shifts hframes rfl)
  | exit id label => exact exitStep_shifts hframes hst
  | next id label => exact nextStep_shifts hframes hst
  | ret id value =>
      dsimp only at hst
      split at hst
      · rename_i first
        obtain ⟨low, some⟩ := Bool.and_eq_true_iff.1 first
        have low := of_decide_eq_true low
        obtain ⟨v, rfl⟩ := Option.isSome_iff_exists.1 some
        exact given hst (.one (enter_shifts hframes 0 (by simp [Expr.isCall]) (by simp [Expr.children]; omega)))
      · refine given hst (returnFrom_shifts hframes (by simp [Expr.isReturn]) ?_)
        split
        · exact .inr rfl
        · exact .inl rfl
  | notify id target delays => exact notifyStep_shifts hframes rfl rfl hst
  | stop id =>
      refine given hst (.one ?_)
      rw [stop_frames]
      exact finish_shifts hframes (.unknown rfl)
  | call id f args => exact callStep_shifts hframes rfl hps hst

end Steps

/-- What is announced makes no difference for the frames. -/
theorem Shifts.unannounced {sc : Scratch} {o : Option Expr} {b : Bool} {fs : List Frame}
    (h : s.Shifts { t with scratch := sc } ps top below o n b fs) : s.Shifts t ps top below o n b fs := by
  cases h with
  | enter j calls inside => exact .enter j calls inside
  | finish same left =>
      refine .finish same ?_
      cases left with
      | unknown plain => exact .unknown plain
      | bool b => exact .bool b
      | literal id l => exact .literal id l
      | event id name hi hev => exact .event id name hi hev
      | place id d => exact .place id d
      | loaded id d tracked => exact .loaded id d tracked
      | slot c plain => exact .slot c plain
      | unary id op x => exact .unary id op x
      | binary id op x y => exact .binary id op x y
      | events id op x y n hl => exact .events id op x y n hl
  | exit same htarget hj => exact .exit same htarget hj
  | next same htarget hj => exact .next same htarget hj
  | call same last receiver => exact .call same last receiver
  | returns same returned =>
      refine .returns same ?_
      cases returned with
      | back same hv => exact .back same hv
      | ends same ended => exact .ends same ended

/-- A small step shifts the frames, be it on a body or on an expression. -/
theorem advance_shifts (hst : (s.advance t).result = .ok st) :
    ∃ ps top below, t.running? = some ps ∧ t.frames = top :: below ∧
      ((top.path = [] ∧
          st.Shifts s t ps top below none (s.program.system.body top.location.routine).length) ∨
        ∃ e, s.program.system.at? top.location = some e ∧ st.Shifts s t ps top below (some e) e.children.length) := by
  obtain ⟨ps, top, hps, htop, step⟩ := advance_cases hst
  obtain ⟨below, -, hframes⟩ := frames_of_top hps htop
  refine ⟨ps, top, below, hps, hframes, step.imp ?_ ?_⟩
  · rintro ⟨body, rfl⟩
    exact ⟨body, bodyStep_shifts hframes rfl⟩
  · rintro ⟨i, up, e, sc, -, he, -, hst⟩
    exact ⟨e, he, fun r hr => (exprStep_shifts (t := { t with scratch := sc }) hframes hps hst r hr).unannounced⟩

/-- The frames after a small step, on a body or on the expression at the location of the current frame. -/
theorem smallStep_shifts (hst : (s.smallStep t).result = .ok st) (hr : r ∈ st.results) :
    ∃ ps top below o es, t.running? = some ps ∧ t.frames = top :: below ∧
      s.Shifts t.resetAccesses ps top below o es.length st.repeats r.frames ∧
      (o = none → top.path = []) ∧ (∀ e, o = some e → s.program.system.at? top.location = some e) ∧
      s.program.system.scope? top.location = some es := by
  obtain ⟨st₀, rs, u, hadv, hu, -, same, rfl⟩ := smallStep_mem hst hr
  have frames : r.frames = u.frames := by
    rw [same]
    rfl
  rw [frames]
  obtain ⟨ps, top, below, hps, hframes, ⟨body, shifts⟩ | ⟨e, he, shifts⟩⟩ := advance_shifts hadv
  · exact ⟨ps, top, below, none, _, hps, hframes, shifts u hu, fun _ => body, by simp,
      Frame.location_of_path body ▸ System.scope?_nil⟩
  · exact ⟨ps, top, below, some e, _, hps, hframes, shifts u hu, by simp, fun _ same => Option.some.inj same ▸ he,
      System.scope?_of_at? he⟩

end

end Simulator

end DeltaSlice

import DeltaSlice.Proofs.Step.Observed
import DeltaSlice.Proofs.Step.Steering

/-!
What the evaluation of code can change. Apart from notifications and stops a small step edits the state of
the running code, the values of variables, the requested updates and the number of event lists; other
processes and pending notifications are left alone.
-/

namespace DeltaSlice

/-- The frames of a process of a state, if there is such a process. -/
def State.framesOf? (st : State) (i : Nat) : Option (List Frame) := st.procs[i]?.map (·.stack)

/-- `r` comes from `t` by edits of what belongs to the running code, which asks for the given updates on
the way, the latest first. -/
inductive Evolves (t : Transition) : List Instance → Transition → Prop
  | refl : Evolves t [] t
  | running {l : List Instance} {r : Transition} (f : ProcessState → ProcessState) : Evolves t l r →
      Evolves t l (r.mapRunning f)
  | scratch {l : List Instance} {r : Transition} (f : Scratch → Scratch) : Evolves t l r →
      Evolves t l (r.mapScratch f)
  | value {l : List Instance} {r : Transition} (v : Variable) (x : Value) : Evolves t l r →
      Evolves t l (r.mapGlobal (·.setValue v x))
  | request {l : List Instance} {r : Transition} (i : Instance) : Evolves t l r →
      Evolves t (i :: l) (r.mapGlobal (·.requestUpdate i))
  | list {l : List Instance} {r : Transition} : Evolves t l r →
      Evolves t l { r with state := { r.state with nextList := r.state.nextList + 1 } }
  | note {l : List Instance} {r : Transition} (f : Option Fault) : Evolves t l r → Evolves t l (r.note f)

/-- What a computation gives, if anything, has a property. -/
def Ensures {α : Type} (P : α → Prop) (x : Except Halt α) : Prop := ∀ a, x = .ok a → P a

namespace Ensures

variable {α β : Type} {P : α → Prop} {Q : β → Prop}

theorem ok {a : α} (h : P a) : Ensures P (.ok a : Except Halt α) := fun _ ha => Except.ok.inj ha ▸ h

theorem error {f : Halt} : Ensures P (.error f : Except Halt α) := fun _ ha => nomatch ha

theorem map {x : Except Halt α} {f : α → β} (h : Ensures P x) (hf : ∀ a, P a → Q (f a)) :
    Ensures Q (x.map f) := by
  intro b hb
  obtain ⟨a, ha, rfl⟩ := Success.map_iff.1 hb
  exact hf a (h a ha)

end Ensures

namespace Evolves

variable {t r : Transition} {l : List Instance}

theorem top (h : Evolves t l r) (f : Frame → Frame) : Evolves t l (r.mapTop f) := h.running _

theorem enter (h : Evolves t l r) (i : Int) : Evolves t l (r.enter i) := h.top _

theorem finish (h : Evolves t l r) (sys : System) (v : Value) : Evolves t l (r.finish sys v) := by
  rw [Transition.finish_eq]
  exact (h.top _).note _

theorem comeFrom (h : Evolves t l r) (i : Int) (x : Option Value) :
    Evolves t l (r.editTop (Frame.editComeFrom i x)) := by
  rw [Transition.comeFrom_eq]
  exact (h.top _).note _

theorem pop (h : Evolves t l r) : Evolves t l (r.editRunning ProcessState.editPop) := by
  rw [Transition.editPop_eq]
  exact (h.running _).note _

theorem conditions (h : Evolves t l r) (f : Conditions → Conditions) : Evolves t l (r.mapConditions f) :=
  h.scratch _

theorem read (h : Evolves t l r) (v : Variable) : Evolves t l (r.addRead v) := h.scratch _

theorem written (h : Evolves t l r) (v : Variable) : Evolves t l (r.addWritten v) := h.scratch _

theorem store (h : Evolves t l r) (s : Simulator) (v : Variable) (x : Value) :
    Evolves t l (s.store r v x) := by
  unfold Simulator.store
  split
  · split
    · exact h.running _
    · exact h.value v x
  · exact h

theorem bindParams (s : Simulator) (stack : List Routine) {ds : List Decl} {xs : List Value}
    (h : Evolves t l r) : Evolves t l (s.bindParams stack r ds xs) :=
  Simulator.bindParams_induction (fun _ h => h.written _) (fun _ _ h => h.store s _ _) h

/-- Steps that steer evolve the running code, wherever they descend to. -/
theorem steers {s : Simulator} {i : Int} {n : Nat} : Steers s i n (Evolves t l) (Evolves t l) where
  conditions f h := h.conditions f
  enter j _ h := h.enter j
  finish v _ h := h.finish _ v

end Evolves

namespace Simulator

section

variable {t r : Transition} {l : List Instance} (s : Simulator)

theorem endOfCode_evolves (h : Evolves t l r) (spent : r.top? = none) :
    (endOfCode r).All (Evolves t l) := by
  unfold endOfCode
  refine .last rfl ?_ ?_
  · split
    · exact h
    · split <;> exact h.running _
  · split
    · rename_i unowned
      exact Transition.rests_of_spent unowned spent
    · rename_i p owned
      split <;> exact Transition.rests_mapRunning owned fun _ => rfl

theorem returnFrom_evolves (h : Evolves t l r) (e : Option Expr) (i : Int) (v : Value) :
    (s.returnFrom r e i v).All (Evolves t l) := by
  have popped := h.pop
  unfold returnFrom
  dsimp only
  split
  · rename_i spent
    exact endOfCode_evolves popped spent
  · rename_i caller _
    have back := (popped.comeFrom (caller.comingFrom + 1) (some v)).conditions (·.leaveCall)
    split
    · exact .one (back.running _)
    · exact .one back

theorem bodyStep_evolves (h : Evolves t l r) (top : Frame) : (s.bodyStep r top).All (Evolves t l) := by
  unfold bodyStep
  dsimp only
  split
  · exact .one (h.enter _)
  · exact s.returnFrom_evolves h _ _ _

theorem branchStep_evolves (h : Evolves t l r) (top : Frame) (e : Expr) (yes no : List Expr) :
    (s.branchStep r top e yes no).All (Evolves t l) := Evolves.steers.branchStep_all h rfl

theorem loopStep_evolves (h : Evolves t l r) (top : Frame) (e : Expr) (body : List Expr)
    (testsFirst : Bool) : (s.loopStep r top e body testsFirst).All (Evolves t l) :=
  Evolves.steers.loopStep_all h rfl testsFirst

theorem forStep_evolves (h : Evolves t l r) (top : Frame) (e : Expr) (body : List Expr) :
    (s.forStep r top e body).All (Evolves t l) := Evolves.steers.forStep_all h rfl

theorem switchStep_evolves (h : Evolves t l r) (top : Frame) (e : Expr) (cases : List Expr) :
    (s.switchStep r top e cases).All (Evolves t l) := Evolves.steers.switchStep_all h rfl

theorem armStep_evolves (h : Evolves t l r) (top : Frame) (id : Nat) (value : Option Expr)
    (body : List Expr) : (s.armStep r top (.arm id value body) value body).All (Evolves t l) :=
  Evolves.steers.armStep_all h rfl

theorem readVariable_evolves (h : Evolves t l r) (ps : ProcessState) (top : Frame) (d : Decl) :
    Evolves t l (s.readVariable r ps top d).2 := by
  obtain same | same := s.readVariable_cases r ps top d <;> rw [same]
  · exact h
  · exact h.read _

theorem aggregate_evolves (h : Evolves t l r) (top : Frame) (e : Expr) :
    Ensures (fun x => Evolves t l x.2) (s.aggregate r top e) := by
  rintro ⟨v, u⟩ hu
  obtain rfl | ⟨_, _, _, w, -, -, rfl⟩ | rfl := aggregate_cases hu
  · exact h
  · exact (h.written _).store s _ _
  · exact h.list

theorem aggregateStep_evolves (h : Evolves t l r) (top : Frame) (e : Expr) :
    Ensures (SmallStep.All (Evolves t l)) (s.aggregateStep r top e) := by
  intro st hst
  obtain ⟨-, rfl⟩ | ⟨-, v, u, hu, rfl⟩ := aggregateStep_cases hst
  · exact .one (h.enter _)
  · exact .one (Evolves.finish (s.aggregate_evolves h top e _ hu) _ _)

theorem exitStep_evolves (h : Evolves t l r) (top : Frame) (e : Expr) (label : String) :
    Ensures (SmallStep.All (Evolves t l)) (s.exitStep r top e label) := by
  intro st hst
  obtain ⟨_, _, _, -, -, rfl⟩ := exitStep_cases hst
  exact .one (((h.conditions _).top _).comeFrom _ _)

theorem nextStep_evolves (h : Evolves t l r) (top : Frame) (e : Expr) (label : String) :
    Ensures (SmallStep.All (Evolves t l)) (s.nextStep r top e label) := by
  intro st hst
  obtain ⟨_, _, _, -, -, rfl⟩ := nextStep_cases hst
  exact .one ((h.conditions _).top _)

theorem waitStep_evolves (h : Evolves t l r) (top : Frame) (e : Expr) (arity : Nat) :
    Ensures (SmallStep.All (Evolves t l)) (s.waitStep r top e arity) := by
  intro st hst
  obtain ⟨p, _, _, owned, -, -, rfl⟩ := waitStep_cases hst
  exact .last rfl ((h.finish _ _).running _)
    (Transition.rests_mapRunning (((Keeps.refl r).editRunning _).proc.trans owned) fun _ => rfl)

/-- What a small step on an expression asks for: the update of an instance, once the call has all its
arguments. -/
def requestsOf (top : Frame) (e : Expr) : List Instance :=
  match e with
  | .call _ .requestUpdate args =>
    let receiver := if s.program.system.isQualified top.location then top.value 1 0 else top.receiver
    if top.comingFrom = args.length - 1 then receiver.asInstance?.toList else []
  | _ => []

theorem callStep_evolves (h : Evolves t l r) (ps : ProcessState) (top : Frame) (id : Nat) (f : Routine)
    (args : List Expr) : Ensures (SmallStep.All (Evolves t (s.requestsOf top (.call id f args) ++ l)))
      (s.callStep r ps top (.call id f args) f args.length) := by
  have silent : f ≠ .requestUpdate ∨ top.comingFrom ≠ args.length - 1 →
      s.requestsOf top (.call id f args) ++ l = l := by
    intro other
    unfold requestsOf
    split
    · rename_i same
      obtain ⟨-, rfl, rfl⟩ := Expr.call.inj same
      rw [if_neg (other.resolve_left (by simp))]
      rfl
    · rfl
  intro st hst
  cases callStep_cases hst with
  | argument more =>
      rw [silent (.inr (by omega))]
      exact .one (h.enter _)
  | result returned =>
      rw [silent (.inr (by omega))]
      exact .one (h.finish _ _)
  | wait _ hst =>
      rw [silent (.inl (by simp))]
      exact s.waitStep_evolves h top _ args.length st hst
  | @request i last hi =>
      have asked : s.requestsOf top (.call id .requestUpdate args) = [i] := by
        simp only [requestsOf, hi, Option.toList_some]
        exact if_pos last
      rw [asked]
      exact .one ((h.request _).finish _ _)
  | call =>
      rw [silent (.inl (by simp))]
      exact .one (((h.running _).conditions _).bindParams s _)

/-- A small step on an expression that neither notifies nor stops. -/
theorem exprStep_evolves (h : Evolves t l r) (ps : ProcessState) (top : Frame) {e : Expr}
    (quiet : ∀ id target delays, e ≠ .notify id target delays) (going : ∀ id, e ≠ .stop id) :
    Ensures (SmallStep.All (Evolves t (s.requestsOf top e ++ l))) (s.exprStep r ps top e).result := by
  unfold exprStep
  cases e with
  | const id l =>
      dsimp only
      split
      · exact .error
      · exact .ok (.one (h.finish _ _))
  | event id name => exact .ok (.one (h.finish _ _))
  | var id d => exact .ok (.one ((s.readVariable_evolves h ps top d).finish _ _))
  | unary id op x | binary id op x y | access id x y | bracket id x | block id l | empty id =>
      exact s.aggregateStep_evolves h top _
  | branch id c yes no => exact .ok (s.branchStep_evolves h top _ yes no)
  | whileLoop id l c body => exact .ok (s.loopStep_evolves h top _ body true)
  | doLoop id l c body => exact .ok (s.loopStep_evolves h top _ body false)
  | forLoop id l i c p body => exact .ok (s.forStep_evolves h top _ body)
  | switch id l tag cases => exact .ok (s.switchStep_evolves h top _ cases)
  | arm id value body => exact .ok (s.armStep_evolves h top id value body)
  | exit id label => exact s.exitStep_evolves h top _ label
  | next id label => exact s.nextStep_evolves h top _ label
  | ret id value =>
      dsimp only
      split
      · exact .ok (.one (h.enter _))
      · exact .ok (s.returnFrom_evolves h _ _ _)
  | notify id target delays => exact absurd rfl (quiet id target delays)
  | stop id => exact absurd rfl (going id)
  | call id f args => exact s.callStep_evolves h ps top id f args

end

end Simulator

end DeltaSlice

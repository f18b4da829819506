import DeltaSlice.Proofs.Step.Observed

/-!
Branch conditions along small steps. Where a condition is known, only the branch that it allows is
entered, so no condition that is known to be false is ever recorded: whatever point small steps come
to, it is at least possible that it is reached.
-/

namespace DeltaSlice

namespace Value

/-- True or unknown, as the conditions are under which something happens. -/
def IsOpen (x : Value) : Prop := x = bool true ∨ x = unknown

theorem IsOpen.and {x y : Value} (hx : x.IsOpen) (hy : y.isFalse = false) : (x.and y).IsOpen := by
  have hx' : x.isFalse = false := by
    cases hx with
    | inl h => rw [h]; decide
    | inr h => rw [h]; decide
  unfold Value.and
  rw [hx', hy]
  split
  · contradiction
  · split
    · exact .inl rfl
    · exact .inr rfl

theorem isFalse_and {x y : Value} (hx : x.isFalse = false) (hy : y.isFalse = false) :
    (x.and y).isFalse = false := by
  unfold Value.and
  rw [hx, hy]
  split
  · contradiction
  · split <;> decide

theorem asBool?_of_truth? {x : Value} (h : x.truth? = none) : x.asBool? = none := by
  cases x with
  | unknown => rfl
  | known p =>
      cases p with
      | target v | events n l => rfl
      | literal l =>
          cases l with
          | bool b => cases h
          | _ => rfl

theorem isFalse_of_truth? {x : Value} (h : x.truth? = none) : x.isFalse = false := by
  unfold isFalse
  rw [asBool?_of_truth? h]
  decide

theorem isFalse_not_of_truth? {x : Value} (h : x.truth? = none) : x.not.isFalse = false := by
  unfold Value.not
  rw [asBool?_of_truth? h]
  decide

end Value

def ConditionLayer.Open (l : ConditionLayer) : Prop := ∀ c ∈ l, c.2.isFalse = false

namespace ConditionLayer.Open

variable {l : ConditionLayer}

theorem add (h : l.Open) (node : Nat) {v : Value} (hv : v.isFalse = false) :
    (l.add node v).Open := by
  unfold ConditionLayer.add
  split
  · intro c hc
    obtain ⟨d, hd, rfl⟩ := List.mem_map.1 hc
    split
    · exact Value.isFalse_and (h d hd) hv
    · exact h d hd
  · intro c hc
    rcases List.mem_cons.1 hc with rfl | hc
    · exact hv
    · exact h c hc

theorem dropThrough (h : l.Open) (node : Nat) : (l.dropThrough node).Open := by
  induction l with
  | nil => exact h
  | cons c l ih =>
      have rest : Open l := fun d hd => h d (List.mem_cons_of_mem c hd)
      unfold ConditionLayer.dropThrough
      split
      · exact rest
      · exact ih rest

theorem dropAbove (h : l.Open) (node : Nat) : (l.dropAbove node).Open := by
  induction l with
  | nil => exact h
  | cons c l ih =>
      unfold ConditionLayer.dropAbove
      split
      · exact h
      · exact ih fun d hd => h d (List.mem_cons_of_mem c hd)

end ConditionLayer.Open

/-- No condition of any layer is known to be false. -/
structure Conditions.Open (c : Conditions) : Prop where
  current : c.current.Open
  callers : ∀ l ∈ c.callers, ConditionLayer.Open l

namespace Conditions.Open

variable {c : Conditions}

theorem start : Conditions.start.Open := ⟨by simp [Conditions.start, ConditionLayer.Open],
  by simp [Conditions.start]⟩

theorem add (h : c.Open) (node : Nat) {v : Value} (hv : v.isFalse = false) : (c.add node v).Open :=
  ⟨h.current.add node hv, h.callers⟩

theorem dropThrough (h : c.Open) (node : Nat) : (c.dropThrough node).Open :=
  ⟨h.current.dropThrough node, h.callers⟩

theorem dropAbove (h : c.Open) (node : Nat) : (c.dropAbove node).Open :=
  ⟨h.current.dropAbove node, h.callers⟩

theorem enterCall (h : c.Open) : c.enterCall.Open := by
  refine ⟨by simp [Conditions.enterCall, ConditionLayer.Open], fun l hl => ?_⟩
  rcases List.mem_cons.1 hl with rfl | hl
  · exact h.current
  · exact h.callers l hl

theorem leaveCall (h : c.Open) : c.leaveCall.Open := by
  unfold Conditions.leaveCall
  split
  · rename_i l ls heq
    exact ⟨h.callers l (by simp [heq]), fun k hk => h.callers k (by simp [heq, hk])⟩
  · exact start

theorem value (h : c.Open) : c.value.IsOpen := by
  have layer : ∀ (l : ConditionLayer) (v : Value), l.Open → v.IsOpen →
      (l.foldl (fun v x => v.and x.2) v).IsOpen := by
    intro l
    induction l with
    | nil => exact fun _ _ hv => hv
    | cons x l ih =>
        intro v hl hv
        exact ih _ (fun d hd => hl d (List.mem_cons_of_mem x hd)) (hv.and (hl x (by simp)))
  have layers : ∀ (ls : List ConditionLayer) (v : Value), (∀ l ∈ ls, l.Open) → v.IsOpen →
      (ls.foldl (fun v l => l.reverse.foldl (fun v x => v.and x.2) v) v).IsOpen := by
    intro ls
    induction ls with
    | nil => exact fun _ _ hv => hv
    | cons l ls ih =>
        intro v hls hv
        refine ih _ (fun k hk => hls k (List.mem_cons_of_mem l hk)) (layer _ _ ?_ hv)
        exact fun d hd => hls l (by simp) d (List.mem_reverse.1 hd)
  refine layers _ _ ?_ (.inl rfl)
  intro l hl
  rcases List.mem_append.1 hl with hl | hl
  · exact h.callers l (List.mem_reverse.1 hl)
  · rw [List.mem_singleton.1 hl]
    exact h.current

end Conditions.Open

/-- A point that is possibly reached. -/
def Transition.Open (t : Transition) : Prop := t.scratch.conditions.Open

namespace Transition.Open

variable {t : Transition}

theorem mapRunning (h : t.Open) (f : ProcessState → ProcessState) : (t.mapRunning f).Open := by
  unfold Transition.mapRunning
  split
  · unfold Transition.setRunning
    split <;> exact h
  · exact h

theorem enter (h : t.Open) (i : Int) : (t.enter i).Open := h.mapRunning _

theorem edit (h : t.Open) {β : Type} (e : Edit ProcessState β) : (t.editRunning e).Open := by
  unfold Transition.editRunning
  split
  · exact h
  · unfold Transition.setRunning
    split <;> exact h

theorem finish (h : t.Open) (sys : System) (v : Value) : (t.finish sys v).Open := h.edit _

theorem add (h : t.Open) (node : Nat) {v : Value} (hv : v.isFalse = false) :
    (t.mapConditions (·.add node v)).Open := Conditions.Open.add h node hv

theorem dropThrough (h : t.Open) (node : Nat) : (t.mapConditions (·.dropThrough node)).Open :=
  Conditions.Open.dropThrough h node

theorem store (h : t.Open) (s : Simulator) (v : Variable) (x : Value) : (s.store t v x).Open := by
  unfold Simulator.store
  split
  · split
    · exact h.mapRunning _
    · exact h
  · exact h

theorem bindParams (h : t.Open) (s : Simulator) (stack : List Routine) (ds : List Decl)
    (xs : List Value) : (s.bindParams stack t ds xs).Open :=
  Simulator.bindParams_induction (P := Transition.Open) (fun _ h => h) (fun _ _ h => store h s _ _) h

end Transition.Open

/-- Whatever a small step leads to is possibly reached. -/
def SmallStep.Open (st : SmallStep) : Prop := ∀ r ∈ st.results, r.Open

namespace Simulator

variable {s : Simulator} {t r : Transition} {top : Frame} {e : Expr} {st : SmallStep}

theorem open_one {e : Option Expr} {i : Int} (h : t.Open) : (SmallStep.one e i t).Open := by
  intro r hr
  rw [List.mem_singleton.1 hr]
  exact h

theorem open_fork {x y : Transition} {e : Option Expr} {i : Int} {ends repeats : Bool} (hx : x.Open)
    (hy : y.Open) : SmallStep.Open ⟨e, i, [x, y], ends, repeats⟩ := by
  intro r hr
  rcases List.mem_cons.1 hr with rfl | hr
  · exact hx
  · rw [List.mem_singleton.1 hr]
    exact hy

theorem returnFrom_open (h : t.Open) (e : Option Expr) (i : Int) (v : Value) :
    (s.returnFrom t e i v).Open := by
  have popped := h.edit ProcessState.editPop
  unfold returnFrom
  simp only
  split
  · refine open_one (e := none) (i := -2) ?_
    split
    · exact popped
    · split
      · exact popped.mapRunning _
      · exact popped.mapRunning _
  · rename_i caller _
    have back : (((t.editRunning ProcessState.editPop).editTop (Frame.editComeFrom (caller.comingFrom + 1)
        (some v))).mapConditions (·.leaveCall)).Open := Conditions.Open.leaveCall (popped.edit _)
    split
    · exact open_one (back.mapRunning _)
    · exact open_one back

theorem bodyStep_open (h : t.Open) : (s.bodyStep t top).Open := by
  unfold bodyStep
  simp only
  split
  · exact open_one (h.enter _)
  · exact returnFrom_open h _ _ _

theorem branchStep_open (h : t.Open) (yes no : List Expr) :
    (s.branchStep t top e yes no).Open := by
  have enterYes : ∀ c : Value, c.isFalse = false →
      (if yes.isEmpty then ((t.mapConditions (·.add e.id c)).mapConditions
        (·.dropThrough e.id)).finish s.program.system .unknown
      else (t.mapConditions (·.add e.id c)).enter 1).Open := by
    intro c hc
    split
    · exact ((h.add _ hc).dropThrough _).finish _ _
    · exact (h.add _ hc).enter _
  have enterNo : ∀ c : Value, c.not.isFalse = false →
      (if no.isEmpty then t.finish s.program.system .unknown
      else (t.mapConditions (·.add e.id c.not)).enter (yes.length + 1)).Open := by
    intro c hc
    split
    · exact h.finish _ _
    · exact (h.add _ hc).enter _
  have leave := (h.dropThrough e.id).finish s.program.system .unknown
  unfold branchStep
  simp only
  split
  · exact open_one (h.enter _)
  · split
    · split
      · exact open_fork (enterYes _ (by decide)) (enterNo _ (by decide))
      · exact open_one (enterYes _ (by decide))
      · exact open_one (enterNo _ (by decide))
    · split
      · split
        · exact open_one leave
        · exact open_one (h.enter _)
      · split
        · exact open_one (e := e) (i := 0) leave
        · exact open_one (h.enter _)

theorem loopStep_open (h : t.Open) (body : List Expr) (testsFirst : Bool) :
    (s.loopStep t top e body testsFirst).Open := by
  have leave := (h.dropThrough e.id).finish s.program.system .unknown
  have entered := h.add e.id (v := .bool true) (by decide)
  unfold loopStep
  simp only
  split
  · split
    · exact open_one (e := e) (i := 0) (entered.enter _)
    · exact open_one (entered.enter _)
  · split
    · split
      · rename_i unknown
        exact open_fork ((h.add _ (Value.isFalse_of_truth? unknown)).enter _) leave
      · exact open_one (e := e) (i := 0) (h.enter _)
      · exact open_one leave
    · split
      · exact open_one (e := e) (i := 0) (h.enter _)
      · exact open_one (h.enter _)

theorem forStep_open (h : t.Open) (body : List Expr) : (s.forStep t top e body).Open := by
  have leave := (h.dropThrough e.id).finish s.program.system .unknown
  unfold forStep
  simp only
  split
  · exact open_one ((h.add _ (by decide)).enter _)
  · split
    · exact open_one (e := e) (i := 0) (h.enter _)
    · split
      · split
        · rename_i unknown
          exact open_fork ((h.add _ (Value.isFalse_of_truth? unknown)).enter _) leave
        · exact open_one (h.enter _)
        · exact open_one leave
      · split
        · exact open_one (e := e) (i := 0) (h.enter _)
        · exact open_one (h.enter _)

theorem switchStep_open (h : t.Open) (cases : List Expr) : (s.switchStep t top e cases).Open := by
  unfold switchStep
  simp only
  split
  · exact open_one ((h.add _ (by decide)).enter _)
  · split
    · exact open_one (e := e) (i := 0) ((h.dropThrough _).finish _ _)
    · split
      · exact open_one (h.enter _)
      · exact open_one (e := e) (i := 0) (h.enter _)

theorem armStep_open (h : t.Open) (value : Option Expr) (body : List Expr) :
    (s.armStep t top e value body).Open := by
  have enterBody : ∀ {u : Transition}, u.Open →
      (if body.isEmpty then u.finish s.program.system (.bool true)
      else u.enter (if value.isSome then 1 else 0)).Open := by
    intro u hu
    split
    · exact hu.finish _ _
    · exact hu.enter _
  unfold armStep
  simp only
  split
  · split
    · exact open_one (enterBody h)
    · exact open_one (h.enter _)
  · split
    · split
      · rename_i unknown
        refine open_fork (enterBody (h.add _ (Value.isFalse_of_truth? unknown))) ?_
        exact (h.add _ (Value.isFalse_not_of_truth? unknown)).finish _ _
      · exact open_one (enterBody h)
      · exact open_one (h.finish _ _)
    · split
      · exact open_one (h.finish _ _)
      · exact open_one (h.enter _)

theorem exitStep_open (h : t.Open) {label : String} (hst : s.exitStep t top e label = .ok st) :
    st.Open := by
  obtain ⟨_, _, _, -, -, rfl⟩ := exitStep_cases hst
  exact open_one (((h.dropThrough _).mapRunning _).edit _)

theorem nextStep_open (h : t.Open) {label : String} (hst : s.nextStep t top e label = .ok st) :
    st.Open := by
  obtain ⟨_, target, _, -, -, rfl⟩ := nextStep_cases hst
  have dropped : (t.mapConditions (·.dropAbove target.id)).Open :=
    Conditions.Open.dropAbove h target.id
  exact open_one (dropped.mapRunning _)

theorem waitStep_open (h : t.Open) {arity : Nat} (hst : s.waitStep t top e arity = .ok st) :
    st.Open := by
  obtain ⟨_, _, _, -, -, -, rfl⟩ := waitStep_cases hst
  exact open_one (e := e) (i := 0) ((h.finish _ _).mapRunning _)

theorem callStep_open (h : t.Open) {ps : ProcessState} {f : Routine} {arity : Nat}
    (hst : s.callStep t ps top e f arity = .ok st) : st.Open := by
  cases callStep_cases hst with
  | argument => exact open_one (h.enter _)
  | result => exact open_one (h.finish _ _)
  | wait _ hst => exact waitStep_open h hst
  | request => exact open_one (Transition.Open.finish (t := t.mapGlobal _) h _ _)
  | call =>
      refine open_one (Transition.Open.bindParams ?_ s _ _ _)
      exact Conditions.Open.enterCall (h.mapRunning _)

theorem aggregate_open (h : t.Open) {v : Value} (hv : s.aggregate t top e = .ok (v, r)) :
    r.Open := by
  obtain rfl | ⟨_, _, _, w, -, -, rfl⟩ | rfl := aggregate_cases hv
  · exact h
  · exact Transition.Open.store (t := t.addWritten w) h s _ _
  · exact h

theorem aggregateStep_open (h : t.Open) (hst : s.aggregateStep t top e = .ok st) : st.Open := by
  obtain ⟨-, rfl⟩ | ⟨-, _, u, hu, rfl⟩ := aggregateStep_cases hst
  · exact open_one (h.enter _)
  · exact open_one ((aggregate_open h hu).finish _ _)

theorem notifyStep_open (h : t.Open) {target : Expr} {delays : List Expr}
    (hst : (s.notifyStep t top e target delays).result = .ok st) : st.Open := by
  obtain ⟨-, rfl⟩ | ⟨-, _, _, u, -, -, hu, rfl⟩ := notifyStep_cases hst
  · exact open_one (h.enter _)
  · have notified : u.Open := by
      unfold Transition.Open
      rw [(notify_scratch hu).1]
      exact h
    exact open_one (notified.finish _ _)

theorem exprStep_open (h : t.Open) {ps : ProcessState}
    (hst : (s.exprStep t ps top e).result = .ok st) : st.Open := by
  have given : ∀ {x : SmallStep}, (pure x : Step SmallStep).result = .ok st → x.Open → st.Open := by
    intro x hx hopen
    rw [← Run.pure_result_iff.1 hx]
    exact hopen
  unfold exprStep at hst
  cases e with
  | const id l =>
      simp only at hst
      split at hst
      · cases hst
      · exact given hst (open_one (h.finish _ _))
  | event id name => exact given hst (open_one (h.finish _ _))
  | var id d =>
      have hread : (s.readVariable t ps top d).2.Open := by
        obtain same | same := s.readVariable_cases t ps top d <;> rw [same] <;> exact h
      exact given hst (open_one (hread.finish _ _))
  | unary id op x | binary id op x y | access id x y | bracket id x | block id l | empty id =>
      exact aggregateStep_open h hst
  | branch id c yes no => exact given hst (branchStep_open h yes no)
  | whileLoop id l c body => exact given hst (loopStep_open h body true)
  | doLoop id l c body => exact given hst (loopStep_open h body false)
  | forLoop id l i c p body => exact given hst (forStep_open h body)
  | switch id l tag cases => exact given hst (switchStep_open h cases)
  | arm id value body => exact given hst (armStep_open h value body)
  | exit id label => exact exitStep_open h hst
  | next id label => exact nextStep_open h hst
  | ret id value =>
      simp only at hst
      split at hst
      · exact given hst (open_one (h.enter _))
      · exact given hst (returnFrom_open h _ _ _)
  | notify id target delays => exact notifyStep_open h hst
  | stop id => exact given hst (open_one (h.finish _ _))
  | call id f args => exact callStep_open h hst

theorem advance_open (h : t.Open) (hst : (s.advance t).result = .ok st) : st.Open := by
  obtain ⟨ps, top, -, -, ⟨-, rfl⟩ | ⟨i, up, e, sc, -, -, hsc, hst⟩⟩ := advance_cases hst
  · exact bodyStep_open h
  · have same : sc.conditions = t.scratch.conditions := (announce_accesses _ hsc).2.2
    have announced : Transition.Open { t with scratch := sc } := by
      unfold Transition.Open at h ⊢
      rw [same]
      exact h
    exact exprStep_open announced hst

end Simulator

end DeltaSlice

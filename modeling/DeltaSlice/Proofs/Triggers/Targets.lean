import DeltaSlice.Proofs.Model.Parents
import DeltaSlice.Proofs.Step.Evolution
import DeltaSlice.Proofs.Step.Observed
import DeltaSlice.Proofs.Table
import DeltaSlice.Proofs.Waits.Accounts
import DeltaSlice.Proofs.Waits.Bare

/-!
Targets of assignments. Programs have names for their variables, but none for the trigger of an event, so such
a trigger is never the target of an assignment: no value stands for it, and no small step writes it. This
holds of every state that can be reached.
-/

namespace DeltaSlice

/-- Anything but the trigger of an event as the target of an assignment. -/
def Value.Nameable (x : Value) : Prop := ∀ e, x ≠ .known (.target (.event e))

namespace Value.Nameable

variable {x y : Value}

theorem unknown : Value.unknown.Nameable := fun _ h => nomatch h

theorem lit (l : Literal) : (Value.lit l).Nameable := fun _ h => nomatch h

theorem bool (b : Bool) : (Value.bool b).Nameable := lit _

theorem ite {c : Prop} [Decidable c] (hx : x.Nameable) (hy : y.Nameable) : (if c then x else y).Nameable := by
  split
  · exact hx
  · exact hy

theorem applyInt (op : BinaryOp) (a b : Int64) : (Value.applyInt op a b).Nameable := by
  unfold Value.applyInt
  split
  case h_4 | h_5 => exact ite unknown (lit _)
  all_goals first | exact lit _ | exact unknown

theorem apply (op : BinaryOp) : (Value.apply op x y).Nameable := by
  unfold Value.apply
  split
  · exact ite (bool _) (ite (bool _) unknown)
  · exact ite (bool _) (ite (bool _) unknown)
  · exact ite (bool _) unknown
  · exact ite (bool _) unknown
  · split
    · exact applyInt _ _ _
    · exact ite (lit _) unknown
    · exact unknown

theorem applyUnary (op : UnaryOp) : (Value.applyUnary op x).Nameable := by
  unfold Value.applyUnary
  split
  · unfold Value.not
    split
    · exact bool _
    · exact unknown
  · split
    · exact lit _
    · exact unknown
  · exact unknown

end Value.Nameable

/-- No result in the frame is the trigger of an event as a target. -/
def Frame.Nameable (f : Frame) : Prop := ∀ l ∈ f.levels, ∀ x, some x ∈ l → x.Nameable

namespace Frame.Nameable

variable {f : Frame} {x : Value}

theorem start (r : Routine) (receiver : Value) : (Frame.start r receiver).Nameable := by
  simp [Frame.Nameable, Frame.start]

theorem value (h : f.Nameable) (above i : Int) : (f.value above i).Nameable := by
  unfold Frame.value
  cases hx : f.slot? above i with
  | none => exact .unknown
  | some x =>
      obtain ⟨l, hl, hx⟩ := Option.bind_eq_some_iff.1 (Option.join_eq_some_iff.1 hx)
      exact h l (mem_of_elementAt? hl) x (mem_of_elementAt? hx)

theorem enter (h : f.Nameable) (i : Int) : (f.enter i).Nameable :=
  List.forall_mem_cons.2 ⟨by simp, h⟩

theorem pop (h : f.Nameable) (n : Nat) : (f.pop n).Nameable := fun l hl => h l (List.mem_of_mem_drop hl)

theorem comeFrom (h : f.Nameable) (i : Int) : { f with comingFrom := i }.Nameable := h

theorem put (h : f.Nameable) (i : Int) {o : Option Value} (hx : ∀ x, o = some x → x.Nameable) :
    (f.put i o).Nameable := by
  unfold Frame.put
  split
  · rename_i l ls levels
    rw [Frame.Nameable, levels, List.forall_mem_cons] at h
    refine List.forall_mem_cons.2 ⟨fun x hmem => ?_, h.2⟩
    rcases Level.mem_put_cases hmem with before | gap | same
    · exact h.1 x before
    · cases gap
    · exact hx x same.symm
  · exact h

theorem leave (h : f.Nameable) (hx : x.Nameable) (keep : Bool) : (f.leave x keep).Nameable := by
  unfold Frame.leave
  split
  · exact h
  · rename_i i _ _
    dsimp only
    split
    · exact ((h.pop 1).comeFrom i).put i fun y hy => Option.some.inj hy ▸ hx
    · exact (h.pop 1).comeFrom i

end Frame.Nameable

structure ProcessState.Nameable (ps : ProcessState) : Prop where
  frames : ∀ f ∈ ps.stack, f.Nameable
  locals : ∀ v x, ps.locals.get? v = some x → x.Nameable

namespace ProcessState.Nameable

variable {ps : ProcessState} {f : Frame} {x : Value}

theorem start (b : Option Blocker) (hf : f.Nameable) : (ProcessState.start b [f]).Nameable :=
  ⟨fun _ h => List.mem_singleton.1 h ▸ hf, fun _ _ h => nomatch h⟩

theorem block (h : ps.Nameable) (b : Option Blocker) : (ps.block b).Nameable := ⟨h.frames, h.locals⟩

theorem push (h : ps.Nameable) (hf : f.Nameable) : (ps.push f).Nameable :=
  ⟨List.forall_mem_cons.2 ⟨hf, h.frames⟩, h.locals⟩

theorem pop (h : ps.Nameable) : ps.pop.Nameable := ⟨fun f hf => h.frames f (List.mem_of_mem_tail hf), h.locals⟩

theorem mapTop (h : ps.Nameable) {g : Frame → Frame} (hg : ∀ f, f.Nameable → (g f).Nameable) :
    (ps.mapTop g).Nameable := by
  unfold ProcessState.mapTop
  split
  · rename_i top rest stack
    obtain ⟨first, callers⟩ := List.forall_mem_cons.1 (stack ▸ h.frames)
    exact ⟨List.forall_mem_cons.2 ⟨hg top first, callers⟩, h.locals⟩
  · exact h

theorem setLocal (h : ps.Nameable) (v : Variable) (hx : x.Nameable) : (ps.setLocal v x).Nameable := by
  refine ⟨h.frames, fun w y hy => ?_⟩
  rw [ProcessState.setLocal, Table.get?_insert] at hy
  split at hy
  · exact Option.some.inj hy ▸ hx
  · exact h.locals w y hy

theorem dropParams (h : ps.Nameable) (r : Routine) : (Simulator.dropParams ps r).Nameable := by
  unfold Simulator.dropParams
  generalize ps.routines = stack
  induction r.params generalizing ps with
  | nil => exact h
  | cons d ds ih =>
      refine ih ⟨h.frames, fun w y hy => h.locals w y ?_⟩
      have hy : (ps.locals.erase _).get? w = some y := hy
      rw [Table.get?_erase] at hy
      split at hy
      · cases hy
      · exact hy

end ProcessState.Nameable

structure State.Nameable (st : State) : Prop where
  procs : ∀ ps ∈ st.procs, ps.Nameable
  update : ∀ ps, st.update = some ps → ps.Nameable
  values : ∀ v x, st.global.values.get? v = some x → x.Nameable

namespace State.Nameable

variable {st : State} {ps : ProcessState} {x : Value}

theorem setProc (h : st.Nameable) (i : Nat) (hps : ps.Nameable) : (st.setProc i ps).Nameable := by
  refine ⟨fun q hq => ?_, h.update, h.values⟩
  rcases List.mem_or_eq_of_mem_set hq with hq | rfl
  · exact h.procs q hq
  · exact hps

/-- A process that is there waits for something else. -/
theorem block (h : st.Nameable) {i : Nat} (found : st.procs[i]? = some ps) (b : Option Blocker) :
    (st.setProc i (ps.block b)).Nameable :=
  h.setProc i ((h.procs ps (List.mem_of_getElem? found)).block b)

theorem setUpdate (h : st.Nameable) {u : Option ProcessState} (hu : ∀ ps, u = some ps → ps.Nameable) :
    { st with update := u }.Nameable := ⟨h.procs, hu, h.values⟩

theorem setGlobal (h : st.Nameable) {g : GlobalState} (values : g.values = st.global.values) :
    { st with global := g }.Nameable := ⟨h.procs, h.update, values ▸ h.values⟩

theorem setValue (h : st.Nameable) (v : Variable) (hx : x.Nameable) :
    { st with global := st.global.setValue v x }.Nameable := by
  refine ⟨h.procs, h.update, fun w y hy => ?_⟩
  rw [GlobalState.setValue, Table.get?_insert] at hy
  split at hy
  · exact Option.some.inj hy ▸ hx
  · exact h.values w y hy

/-- Waits and pending notifications do not matter. -/
theorem of_bare {st' : State} (h : st.Nameable) (same : st'.bare = st.bare) : st'.Nameable := by
  refine ⟨fun ps hps => ?_, State.update_of_bare same ▸ h.update, State.values_of_bare same ▸ h.values⟩
  obtain ⟨i, found⟩ := List.getElem?_of_mem hps
  obtain ⟨q, hq, stack, locals⟩ := State.code_of_bare same.symm found
  obtain ⟨frames, values⟩ := h.procs q (List.mem_of_getElem? hq)
  exact ⟨stack ▸ frames, locals ▸ values⟩

end State.Nameable

theorem GlobalState.values_setPending {g : GlobalState} {e : Event} {d : Option Delay} :
    (g.setPending e d).values = g.values := by
  cases d <;> rfl

structure Transition.Nameable (t : Transition) : Prop where
  state : t.state.Nameable
  written : ∀ e, .event e ∉ t.scratch.written

namespace Transition.Nameable

variable {t r : Transition} {x : Value}

theorem running (h : t.Nameable) {ps : ProcessState} (hps : t.running? = some ps) : ps.Nameable := by
  unfold running? at hps
  split at hps
  · exact h.state.procs ps (List.mem_of_getElem? hps)
  · exact h.state.update ps hps

theorem top (h : t.Nameable) {f : Frame} (htop : t.top? = some f) : f.Nameable := by
  obtain ⟨ps, hps, htop⟩ := Option.bind_eq_some_iff.1 htop
  exact (h.running hps).frames f (List.mem_of_mem_head? htop)

theorem mapRunning (h : t.Nameable) {f : ProcessState → ProcessState}
    (hf : ∀ ps, ps.Nameable → (f ps).Nameable) : (t.mapRunning f).Nameable := by
  unfold Transition.mapRunning
  split
  · rename_i ps hps
    have changed := hf ps (h.running hps)
    unfold Transition.setRunning
    split
    · exact ⟨h.state.setProc _ changed, h.written⟩
    · exact ⟨h.state.setUpdate fun q hq => Option.some.inj hq ▸ changed, h.written⟩
  · exact h

theorem mapTop (h : t.Nameable) {f : Frame → Frame} (hf : ∀ f', f'.Nameable → (f f').Nameable) :
    (t.mapTop f).Nameable := h.mapRunning fun _ hps => hps.mapTop hf

theorem enter (h : t.Nameable) (i : Int) : (t.enter i).Nameable := h.mapTop fun _ hf => hf.enter i

theorem note (h : t.Nameable) (f : Option Fault) : (t.note f).Nameable := ⟨h.state, h.written⟩

theorem finish (h : t.Nameable) (sys : System) (hx : x.Nameable) : (t.finish sys x).Nameable := by
  rw [Transition.finish_eq]
  exact (h.mapTop fun _ hf => hf.leave hx _).note _

theorem comeFrom (h : t.Nameable) (i : Int) {o : Option Value} (hx : ∀ x, o = some x → x.Nameable) :
    (t.editTop (Frame.editComeFrom i o)).Nameable := by
  rw [Transition.comeFrom_eq]
  exact (h.mapTop fun _ hf => (hf.comeFrom i).put i hx).note _

theorem pop (h : t.Nameable) : (t.editRunning ProcessState.editPop).Nameable := by
  rw [Transition.editPop_eq]
  exact (h.mapRunning fun _ hps => hps.pop).note _

theorem mapScratch (h : t.Nameable) {f : Scratch → Scratch} (written : (f t.scratch).written = t.scratch.written) :
    (t.mapScratch f).Nameable := ⟨h.state, written ▸ h.written⟩

theorem mapConditions (h : t.Nameable) (f : Conditions → Conditions) : (t.mapConditions f).Nameable :=
  h.mapScratch rfl

theorem addWritten (h : t.Nameable) {v : Variable} (hv : ∀ e, v ≠ .event e) : (t.addWritten v).Nameable := by
  refine ⟨h.state, fun e he => ?_⟩
  have he : .event e ∈ addVariable t.scratch.written v := he
  unfold addVariable at he
  split at he
  · exact h.written e he
  · rcases List.mem_append.1 he with he | he
    · exact h.written e he
    · exact hv e (List.mem_singleton.1 he).symm

theorem store (h : t.Nameable) (s : Simulator) (v : Variable) (hx : x.Nameable) : (s.store t v x).Nameable := by
  unfold Simulator.store
  split
  · split
    · exact h.mapRunning fun _ hps => hps.setLocal v hx
    · exact ⟨h.state.setValue v hx, h.written⟩
  · exact h

theorem bindParams (h : t.Nameable) (s : Simulator) (stack : List Routine) {ds : List Decl} {xs : List Value}
    (hxs : ∀ x ∈ xs, x.Nameable) : (s.bindParams stack t ds xs).Nameable :=
  Simulator.bindParams_induction (fun _ h => h.addWritten fun _ he => nomatch he)
    (fun _ hx h => h.store s _ (hxs _ hx)) h

theorem steers {s : Simulator} {i : Int} {n : Nat} : Steers s i n Nameable Nameable where
  conditions f h := h.mapConditions f
  enter j _ h := h.enter j
  finish v result h := by
    rcases result with rfl | ⟨b, rfl⟩
    · exact h.finish _ .unknown
    · exact h.finish _ (.bool b)

end Transition.Nameable

namespace Simulator

section

variable {t r : Transition} {top : Frame} (s : Simulator)

theorem endOfCode_nameable (h : t.Nameable) : ∀ r ∈ (endOfCode t).results, r.Nameable := by
  intro r hr
  obtain rfl := List.mem_singleton.1 hr
  split
  · exact h
  · split
    · exact h.mapRunning fun _ hps => hps.block _
    · exact h.mapRunning fun _ hps => (hps.block _).push (.start _ _)

theorem returnFrom_nameable (h : t.Nameable) (e : Option Expr) (i : Int) {x : Value} (hx : x.Nameable) :
    ∀ r ∈ (s.returnFrom t e i x).results, r.Nameable := by
  have popped := h.pop
  unfold returnFrom
  dsimp only
  split
  · exact endOfCode_nameable popped
  · rename_i caller _
    intro r hr
    obtain rfl := List.mem_singleton.1 hr
    have back := (popped.comeFrom (caller.comingFrom + 1) fun y hy => Option.some.inj hy ▸ hx).mapConditions
      (·.leaveCall)
    split
    · exact back.mapRunning fun _ hps => hps.dropParams _
    · exact back

theorem bodyStep_nameable (h : t.Nameable) : ∀ r ∈ (s.bodyStep t top).results, r.Nameable := by
  unfold bodyStep
  dsimp only
  split
  · exact fun r hr => List.mem_singleton.1 hr ▸ h.enter _
  · exact s.returnFrom_nameable h _ _ .unknown

theorem readVariable_nameable (top : Frame) (h : t.Nameable) {ps : ProcessState} (hps : ps.Nameable) (d : Decl) :
    (s.readVariable t ps top d).1.Nameable ∧ (s.readVariable t ps top d).2.Nameable := by
  have named : ∀ e, s.referenced ps top d ≠ .event e := by
    intro e he
    unfold referenced at he
    split at he
    · dsimp only at he
      split at he <;> cases he
    · cases he
  unfold readVariable
  dsimp only
  split
  · refine ⟨.ite (fun e he => named e ?_) .unknown, h⟩
    exact Payload.target.inj (Value.known.inj he)
  · refine ⟨.ite ?_ .unknown, h.state, h.written⟩
    unfold load
    split
    · cases hx : ps.locals.get? (s.referenced ps top d) with
      | none => exact .unknown
      | some x => exact hps.locals _ x hx
    · cases hx : t.state.global.values.get? (s.referenced ps top d) with
      | none => exact .unknown
      | some x => exact h.state.values _ x hx

theorem aggregate_nameable (h : t.Nameable) (hf : top.Nameable) (e : Expr) :
    Ensures (fun x => x.1.Nameable ∧ x.2.Nameable) (s.aggregate t top e) := by
  unfold aggregate
  dsimp only
  split
  · exact .ok ⟨.applyUnary _, h⟩
  · split
    · exact .error
    · rename_i v target
      have named : ∀ e, v ≠ .event e := by
        rintro e rfl
        exact hf.value 0 0 e target
      exact .ok ⟨hf.value 0 1, (h.addWritten named).store s v (hf.value 0 1)⟩
    · exact .error
  · split
    · exact .ok ⟨fun e he => (nomatch he), ⟨⟨h.state.procs, h.state.update, h.state.values⟩, h.written⟩⟩
    · exact .ok ⟨.apply _, h⟩
  · exact .ok ⟨hf.value 0 1, h⟩
  · exact .ok ⟨hf.value 0 0, h⟩
  · exact .ok ⟨.unknown, h⟩

theorem aggregateStep_nameable (h : t.Nameable) (hf : top.Nameable) (e : Expr) :
    Ensures (fun st => ∀ r ∈ st.results, r.Nameable) (s.aggregateStep t top e) := by
  intro st hst
  obtain ⟨-, rfl⟩ | ⟨-, v, u, hu, rfl⟩ := aggregateStep_cases hst
  · exact fun r hr => List.mem_singleton.1 hr ▸ h.enter _
  · obtain ⟨value, named⟩ := s.aggregate_nameable h hf e _ hu
    exact fun r hr => List.mem_singleton.1 hr ▸ named.finish _ value

theorem exitStep_nameable (h : t.Nameable) (e : Expr) (label : String) :
    Ensures (fun st => ∀ r ∈ st.results, r.Nameable) (s.exitStep t top e label) := by
  intro st hst
  obtain ⟨_, _, _, -, -, rfl⟩ := exitStep_cases hst
  refine fun r hr => List.mem_singleton.1 hr ▸ Transition.Nameable.comeFrom ?_ _ (by simp)
  exact (h.mapConditions _).mapTop fun f hf => hf.pop _

theorem nextStep_nameable (h : t.Nameable) (e : Expr) (label : String) :
    Ensures (fun st => ∀ r ∈ st.results, r.Nameable) (s.nextStep t top e label) := by
  intro st hst
  obtain ⟨_, _, _, -, -, rfl⟩ := nextStep_cases hst
  exact fun r hr => List.mem_singleton.1 hr ▸ (h.mapConditions _).mapTop fun f hf => hf.pop _

theorem waitStep_nameable (h : t.Nameable) (e : Expr) (arity : Nat) :
    Ensures (fun st => ∀ r ∈ st.results, r.Nameable) (s.waitStep t top e arity) := by
  intro st hst
  obtain ⟨_, _, _, -, -, -, rfl⟩ := waitStep_cases hst
  exact fun r hr => List.mem_singleton.1 hr ▸ (h.finish _ .unknown).mapRunning fun _ hps => hps.block _

theorem callStep_nameable (h : t.Nameable) (hf : top.Nameable) (ps : ProcessState) (e : Expr) (f : Routine)
    (arity : Nat) : Ensures (fun st => ∀ r ∈ st.results, r.Nameable) (s.callStep t ps top e f arity) := by
  intro st hst
  cases callStep_cases hst with
  | argument => exact fun r hr => List.mem_singleton.1 hr ▸ h.enter _
  | result => exact fun r hr => List.mem_singleton.1 hr ▸ h.finish _ (hf.value _ _)
  | wait _ hst => exact s.waitStep_nameable h e arity st hst
  | @request i =>
      have requested : (t.mapGlobal (·.requestUpdate i)).Nameable := by
        refine ⟨h.state.setGlobal ?_, h.written⟩
        dsimp only [GlobalState.requestUpdate]
        split <;> rfl
      exact fun r hr => List.mem_singleton.1 hr ▸ requested.finish _ .unknown
  | call =>
      refine fun r hr => List.mem_singleton.1 hr ▸ Transition.Nameable.bindParams ?_ s _ ?_
      · exact (h.mapRunning fun _ hps => hps.push (.start _ _)).mapConditions _
      · simp only [List.mem_map, forall_exists_index, and_imp]
        rintro x k - rfl
        exact hf.value _ _

theorem Notifies.nameable {p : Process} {notified : List Event} (h : t.Nameable)
    (told : s.Notifies t p notified r) : r.Nameable := by
  cases told with
  | deaf => exact h
  | hears found => exact ⟨h.state.block found _, h.written⟩

theorem notify_nameable {e : Event} {delay : Option Delay} (h : t.Nameable)
    (hr : (s.notify t e delay).result = .ok r) : r.Nameable :=
  notify_induction (Notifies.nameable s) h
    (fun _ => ⟨h.state.setGlobal GlobalState.values_setPending, h.written⟩) hr

theorem stop_nameable (h : t.Nameable) : (s.stop t).Nameable := by
  refine ⟨⟨List.forall_mem_map.2 fun ps hps => ?_, h.state.update, h.state.values⟩, h.written⟩
  split
  · exact h.state.procs ps hps
  · exact h.state.procs ps hps
  · exact (h.state.procs ps hps).block _

theorem exprStep_nameable (h : t.Nameable) {ps : ProcessState} (hps : ps.Nameable) (hf : top.Nameable) {e : Expr}
    {st : SmallStep} (hst : (s.exprStep t ps top e).result = .ok st) : ∀ r ∈ st.results, r.Nameable := by
  have one : ∀ {i : Int} {r : Transition}, r.Nameable → (pure (.one e i r) : Step SmallStep).result = .ok st →
      ∀ r ∈ st.results, r.Nameable := by
    intro i r named hst r' hr
    obtain rfl := Run.pure_result_iff.1 hst
    exact List.mem_singleton.1 hr ▸ named
  have steered : ∀ {st' : SmallStep}, st'.All Transition.Nameable → (pure st' : Step SmallStep).result = .ok st →
      ∀ r ∈ st.results, r.Nameable := by
    intro st' all hst r hr
    obtain rfl := Run.pure_result_iff.1 hst
    exact (all r hr).1
  unfold exprStep at hst
  cases e with
  | const id l =>
      dsimp only at hst
      split at hst
      · cases hst
      · exact one (h.finish _ (.lit l)) hst
  | event id name =>
      refine one (h.finish _ ?_) hst
      split
      · exact .lit _
      · exact .unknown
  | var id d =>
      obtain ⟨value, named⟩ := s.readVariable_nameable top h hps d
      exact one (named.finish _ value) hst
  | unary id op x | binary id op x y | access id x y | bracket id x | block id l | empty id =>
      exact s.aggregateStep_nameable h hf _ st hst
  | branch id c yes no => exact steered (Transition.Nameable.steers.branchStep_all h rfl) hst
  | whileLoop id l c body => exact steered (Transition.Nameable.steers.loopStep_all h rfl true) hst
  | doLoop id l c body => exact steered (Transition.Nameable.steers.loopStep_all h rfl false) hst
  | forLoop id l i c p body => exact steered (Transition.Nameable.steers.forStep_all h rfl) hst
  | switch id l tag cases => exact steered (Transition.Nameable.steers.switchStep_all h rfl) hst
  | arm id value body => exact steered (Transition.Nameable.steers.armStep_all h rfl) hst
  | exit id label => exact s.exitStep_nameable h _ label st hst
  | next id label => exact s.nextStep_nameable h _ label st hst
  | ret id value =>
      dsimp only at hst
      split at hst
      · exact one (h.enter _) hst
      · obtain rfl := Run.pure_result_iff.1 hst
        exact s.returnFrom_nameable h _ _ (.ite (hf.value 0 0) .unknown)
  | notify id target delays =>
      dsimp only at hst
      obtain ⟨-, rfl⟩ | ⟨-, _, _, u, -, -, hu, rfl⟩ := notifyStep_cases hst
      · exact one (h.enter _) rfl
      · exact one ((s.notify_nameable h hu).finish _ .unknown) rfl
  | stop id => exact one (s.stop_nameable (h.finish _ .unknown)) hst
  | call id f args => exact s.callStep_nameable h hf ps _ f args.length st hst

end

variable {s : Simulator} {t r start : Transition} {st : State}

theorem advance_nameable {st : SmallStep} (h : t.Nameable) (hst : (s.advance t).result = .ok st) :
    ∀ r ∈ st.results, r.Nameable := by
  unfold advance at hst
  split at hst
  · rename_i ps top hps htop
    split at hst
    · obtain rfl := Run.pure_result_iff.1 hst
      exact s.bodyStep_nameable h
    · split at hst
      · cases hst
      · obtain ⟨sc, hsc, hst⟩ := Run.bind_result_iff.1 hst
        refine s.exprStep_nameable (t := { t with scratch := sc }) ⟨h.state, ?_⟩ (h.running hps) (h.top htop) hst
        rw [(announce_accesses _ hsc).2.1]
        exact h.written
  · cases hst

theorem smallStep_nameable {st : SmallStep} (h : t.Nameable) (hst : (s.smallStep t).result = .ok st)
    (hr : r ∈ st.results) : r.Nameable := by
  obtain ⟨st₀, rs, u, hadv, hu, -, same, rfl⟩ := smallStep_mem hst hr
  have named := advance_nameable (t := t.resetAccesses) ⟨h.state, fun e he => nomatch he⟩ hadv u hu
  rw [same]
  exact ⟨named.state, named.written⟩

theorem Occurs.nameable {b : Bool} (named : start.Nameable) (h : s.Occurs start b t) : t.Nameable := by
  induction h with
  | start => exact named
  | step _ hst hr ih => exact smallStep_nameable ih hst hr
  | merge _ _ _ _ same iht ihu =>
      rcases same with rfl | rfl
      · exact ⟨iht.state, iht.written⟩
      · exact ⟨ihu.state, ihu.written⟩

theorem RunsTo.nameable {e : Transition} (named : start.Nameable) (h : s.RunsTo start e) : e.Nameable :=
  h.occurs.nameable named

theorem beginUpdate?_nameable {i : Instance} {f : Routine} (named : t.Nameable)
    (begins : s.beginUpdate? i f t = .ok start) : start.Nameable := by
  obtain ⟨info, -, rfl⟩ := Success.map_iff.1 begins
  exact ⟨named.state.setUpdate fun ps hps => Option.some.inj hps ▸ .start none (.start _ _), named.written⟩

theorem Updates.nameable {is : List Instance} {runs : List (Transition × Transition)} (named : t.Nameable)
    (h : s.Updates is t runs r) : r.Nameable := by
  induction h with
  | nil => exact named
  | cons _ _ hbegin hrun _ ih =>
      have ended := hrun.nameable (beginUpdate?_nameable named hbegin)
      exact ih ⟨ended.state.setUpdate fun ps hps => (nomatch hps), ended.written⟩

theorem beginEnd_nameable (named : st.Nameable) : (s.beginEnd st).Nameable :=
  ⟨named.setGlobal rfl, fun _ he => nomatch he⟩

theorem begin?_nameable {p : Process} (named : st.Nameable) (begins : s.begin? p st = .ok start) :
    start.Nameable := by
  obtain ⟨i, -, rfl⟩ := Success.map_iff.1 begins
  exact ⟨named, fun _ he => nomatch he⟩

theorem initial_nameable (h : s.initial = .ok st) : st.Nameable := by
  obtain ⟨procs, update, -⟩ := initial_cases h
  refine ⟨fun ps hps => ?_, fun _ hps => ?_, fun v x hx => ?_⟩
  · rw [procs] at hps
    obtain ⟨p, -, rfl⟩ := List.mem_map.1 hps
    exact .start _ (.start _ _)
  · rw [update] at hps
    cases hps
  · obtain ⟨l, rfl⟩ := initial_literals h hx
    exact .lit _

/-- No value of a state that can be reached is the trigger of an event as a target. -/
theorem Reachable.nameable {first : State} (start : s.initial = .ok first) (h : s.Reachable first st) :
    st.Nameable := by
  induction h with
  | start => exact initial_nameable start
  | step _ hfound ht ih =>
      rcases successors_mem hfound ht with ⟨-, ts, hts, hr⟩ | ⟨ps, hps, p, hp, ts, hts, hr⟩
      · obtain ⟨runs, u, v, hupdates, hadvance, hfin⟩ := endEvaluation_cases hts hr
        rw [hfin.1]
        exact (hupdates.nameable (beginEnd_nameable ih)).state.of_bare (advanceTime_bare hadvance)
      · obtain ⟨begun, ended, begins, hrun, hfin⟩ := makeStep_cases hts
        obtain ⟨e, he, state, -⟩ := finalize_mem hfin hr
        rw [state]
        exact (RunsTo.nameable (begin?_nameable ih begins) ⟨ended, hrun, he⟩).state

end Simulator

end DeltaSlice

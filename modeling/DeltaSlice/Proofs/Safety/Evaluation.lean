import DeltaSlice.Proofs.Dependence.Cases
import DeltaSlice.Proofs.Safety.Steps
import DeltaSlice.Proofs.Safety.Transitions

/-!
The evaluation of an expression does not break, whatever the expression. Operands are where the frame keeps
them, only places are assigned to, and instances have the classes that their fields and routines come from.
-/

namespace DeltaSlice

open Transition

namespace Simulator

variable {s : Simulator} {entry : Option NodeId} {t : Transition} {ps : ProcessState} {top : Frame}
  {below : List Frame} {e : Expr}

/-- Whatever the notification's delay stands for, asking for it does not break. -/
theorem delayOf_unbroken (top : Frame) (e : Expr) (delays : List Expr) :
    Unbroken (fun _ => True) (delayOf top e delays) := by
  unfold delayOf
  dsimp only
  split
  · exact .ok trivial
  · split
    · exact .failed
    · exact .ok trivial
    · split
      · exact .ok trivial
      · exact .failed
    · exact .failed
  · split
    · split
      · exact .ok trivial
      · exact .failed
    · exact .failed

section

variable (proper : s.Proper) (h : t.Runs s entry) (hframes : t.frames = top :: below)
  (he : s.program.system.at? top.location = some e)

include h hframes in
/-- The receiver of a call or the owner of a field, as far as it is known. -/
theorem qualifier_classed :
    (if s.program.system.isQualified top.location then top.value 1 0 else top.receiver).Classed
      s.program.system := by
  have sound := h.sound_top hframes
  split
  · exact sound.value 1 0
  · exact sound.receiver

include h hframes he in
/-- An expression that is not assigned to is left with a result. -/
theorem leave_runs (free : s.program.system.isAssigned top.location = false) {x : Value}
    (hx : x.Classed s.program.system) : (t.finish s.program.system x).Runs s entry ∧
      (t.finish s.program.system x).Awake s.program.system := by
  refine h.finish hframes he hx fun assigned => ?_
  rw [free] at assigned
  cases assigned

include h hframes in
/-- The value of a variable; that of an assignment's target is the variable itself. -/
theorem readVariable_runs (hps : t.running? = some ps) (d : Decl) :
    (s.readVariable t ps top d).2.Runs s entry ∧ (s.readVariable t ps top d).2.frames = top :: below ∧
      (s.readVariable t ps top d).1.Classed s.program.system ∧
      (s.program.system.isAssigned top.location = true → (s.readVariable t ps top d).1.IsPlace) := by
  unfold readVariable
  dsimp only
  split
  · refine ⟨h, hframes, .of_none ?_, fun _ => ?_⟩
    · split <;> rfl
    · split
      · exact Value.isPlace_target _
      · exact Value.isPlace_unknown
  · rename_i free
    have noted : (t.addRead (s.referenced ps top d)).Runs s entry := h.mapScratch rfl
    refine ⟨noted, hframes, ?_, fun assigned => absurd assigned free⟩
    split
    · exact h.load hps _
    · exact .of_none rfl

include proper h hframes he in
/-- The result of an expression whose operands are there. -/
theorem aggregate_unbroken :
    Unbroken (fun x => x.2.Runs s entry ∧ x.2.frames = top :: below ∧ x.1.Classed s.program.system ∧
      (s.program.system.isAssigned top.location = true → x.1.IsPlace)) (s.aggregate t top e) := by
  have sound := h.sound_top hframes
  have free : (∀ id d, e ≠ .var id d) → (∀ id x m d, e ≠ .access id x (.var m d)) → ∀ x : Value,
      s.program.system.isAssigned top.location = true → x.IsPlace := by
    intro names fields x assigned
    rw [System.not_isAssigned proper.system he names fields] at assigned
    cases assigned
  unfold aggregate
  dsimp only
  split
  · exact .ok ⟨h, hframes, .of_none Value.asInstance?_applyUnary, free (by simp) (by simp) _⟩
  · rename_i id x y
    have place : (top.value 0 0).IsPlace := sound.place (System.isAssigned_left he)
    split
    · exact .failed
    · rename_i v _
      refine .ok ⟨(h.mapScratch rfl).store v (sound.value 0 1), ?_, sound.value 0 1, free (by simp) (by simp) _⟩
      rw [store_frames]
      exact hframes
    · rename_i p other hp
      obtain ⟨v, rfl⟩ := place p hp
      exact absurd rfl (other v)
  · split
    · exact .ok ⟨⟨⟨⟨h.state.length, h.state.procs, h.state.update, h.state.values, h.state.updates,
        h.state.single⟩, h.proc, h.others, h.announced, h.info, h.unfrozen⟩, h.origin⟩, hframes, .of_none rfl,
        free (by simp) (by simp) _⟩
    · exact .ok ⟨h, hframes, .of_none Value.asInstance?_apply, free (by simp) (by simp) _⟩
  · refine .ok ⟨h, hframes, sound.value 0 1, fun assigned => sound.place ?_⟩
    obtain ⟨_, _, same⟩ | ⟨_, _, _, _, -, assigned⟩ := System.assigned_place proper.system he assigned
    · cases same
    · exact assigned
  · exact .ok ⟨h, hframes, sound.value 0 0, free (by simp) (by simp) _⟩
  · exact .ok ⟨h, hframes, .of_none rfl, fun _ => Value.isPlace_unknown⟩

include proper h hframes he in
theorem aggregateStep_unbroken (other : e.isCall = false) :
    Unbroken (SmallStep.Sound s entry) (s.aggregateStep t top e) := by
  obtain ⟨low, -⟩ := (h.sound_top hframes).bounds he other
  unfold aggregateStep
  dsimp only
  split
  · exact .ok (.one (h.enter hframes (System.scope?_of_at? he) (by omega)))
  · refine (aggregate_unbroken proper h hframes he).map fun x ⟨runs, frames, classed, place⟩ => ?_
    exact .one (runs.finish frames he classed place)

include h hframes he in
theorem notifyStep_unbroken (placed : s.Placed) (free : s.program.system.isAssigned top.location = false)
    {target : Expr} {delays : List Expr} (other : e.isCall = false) (width : e.children.length = delays.length + 1) :
    Unbroken (SmallStep.Sound s entry) (s.notifyStep t top e target delays).result := by
  obtain ⟨low, -⟩ := (h.sound_top hframes).bounds he other
  unfold notifyStep
  dsimp only
  split
  · exact .ok (.one (h.enter hframes (System.scope?_of_at? he) (by omega)))
  · split
    · exact .failed
    · refine Unbroken.run_bind (delayOf_unbroken top e delays) fun delay _ => ?_
      refine (notify_unbroken h.toHeld placed _ delay).run_bind fun r ⟨held, spares⟩ => .ok (.one ?_)
      exact leave_runs (h.of_held held spares.origin) (spares.frames.trans hframes) he free (.of_none rfl)

include h hframes he in
theorem waitStep_unbroken (free : s.program.system.isAssigned top.location = false) (arity : Nat) :
    Unbroken (SmallStep.Sound s entry) (s.waitStep t top e arity) := by
  unfold waitStep
  dsimp only
  split
  · exact .failed
  · split
    · exact .failed
    · split
      · exact .failed
      · rename_i b _
        obtain ⟨left, awake⟩ := leave_runs h hframes he free (x := .unknown) (.of_none rfl)
        obtain ⟨top', below', hframes'⟩ := exists_frames_of_awake awake
        have waits := left.mapRunning fun ps _ hps => hps.block (some b)
        have stack : ((t.finish s.program.system .unknown).mapRunning (·.block (some b))).frames = top' :: below' :=
          (frames_mapRunning (f := (·.block (some b))) fun _ => rfl).trans hframes'
        refine .ok fun r hr => ?_
        obtain rfl := List.mem_singleton.1 hr
        exact ⟨waits, .inl (awake_of_frames waits.toHeld stack)⟩

include h hframes in
theorem callStep_unbroken (hps : t.running? = some ps) {id : Nat} {r : Routine} {args : List Expr}
    (he : s.program.system.at? top.location = some (.call id r args))
    (free : s.program.system.isAssigned top.location = false) :
    Unbroken (SmallStep.Sound s entry) (s.callStep t ps top (.call id r args) r args.length) := by
  have sound := h.sound_top hframes
  obtain ⟨es, hes, low, -⟩ := sound.scope
  obtain rfl : args = es := Option.some.inj ((System.scope?_of_at? he).symm.trans hes)
  unfold callStep
  dsimp only
  split
  · exact .ok (.one (h.enter hframes hes (by omega)))
  · split
    · exact .ok (.one (leave_runs h hframes he free (sound.value 0 _)))
    · split
      · exact waitStep_unbroken h hframes he free _
      · split
        · exact .failed
        · rename_i i hi
          have classed := qualifier_classed h hframes i hi
          have requested := h.withGlobal (h.state.requestUpdate classed)
          exact .ok (.one (leave_runs requested hframes he free (.of_none rfl)))
      · rename_i m
        generalize hreceiver : (if s.program.system.isQualified top.location then top.value 1 0
          else top.receiver) = receiver
        have classed : receiver.Classed s.program.system := hreceiver ▸ qualifier_classed h hframes
        have calls : top.Calls s.program.system := ⟨id, _, args, he, by omega⟩
        have pushed : (t.mapRunning (·.push (.start (.member m) receiver))).Runs s entry := by
          refine h.mapRunning fun q hq hsound => hsound.push (.start _ classed) fun f hf => ?_
          rw [ProcessState.top?, stack_of_frames hframes hq] at hf
          exact Option.some.inj hf ▸ calls
        have stack : (t.mapRunning (·.push (.start (.member m) receiver))).frames =
            .start (.member m) receiver :: top :: below := by
          refine frames_eq_cons.2 ⟨ps.push (.start (.member m) receiver), ?_, ?_⟩
          · rw [running?_mapRunning, hps]
            rfl
          · exact congrArg _ (stack_of_frames hframes hps)
        have entered := pushed.mapScratch (f := fun sc => { sc with conditions := sc.conditions.enterCall }) rfl
        have given : ∀ x ∈ (List.range args.length).map fun (k : Nat) => top.value 0 k,
            x.Classed s.program.system := by
          intro x hx
          obtain ⟨k, -, rfl⟩ := List.mem_map.1 hx
          exact sound.value 0 k
        obtain ⟨bound, frames⟩ := entered.bindParams (.member m :: ps.routines) given stack
        exact .ok (.one ⟨bound, awake_of_frames bound.toHeld frames⟩)

include proper h hframes he in
/-- A small step on an expression does not break. -/
theorem exprStep_unbroken (hps : t.running? = some ps) :
    Unbroken (SmallStep.Sound s entry) (s.exprStep t ps top e).result := by
  have sound := h.sound_top hframes
  have free := System.not_isAssigned proper.system he
  have steers : e.isCall = false → (∀ id d, e ≠ .var id d) → (∀ id x m d, e ≠ .access id x (.var m d)) →
      Steers s top.comingFrom e.children.length (fun r => r.Runs s entry ∧ r.frames = top :: below)
        (fun r => r.Runs s entry ∧ r.Awake s.program.system) :=
    fun other names fields => Runs.steers he other (free names fields)
  have here : t.Runs s entry ∧ t.frames = top :: below := ⟨h, hframes⟩
  unfold exprStep
  cases e with
  | const id l =>
      have fine := System.isProper_at? proper.system he
      simp only [Expr.isProper, Bool.and_eq_true] at fine
      simp only [fine.1, Bool.not_true, Bool.and_false, Bool.false_eq_true, if_false]
      exact .ok (.one (leave_runs h hframes he (free (by simp) (by simp)) (Value.classed_lit fine.2)))
  | event id name =>
      refine .ok (.one (leave_runs h hframes he (free (by simp) (by simp)) ?_))
      split <;> exact .of_none rfl
  | var id d =>
      obtain ⟨runs, frames, classed, place⟩ := readVariable_runs h hframes hps d
      exact .ok (.one (runs.finish frames he classed place))
  | unary id op x | binary id op x y | access id x y | bracket id x | block id l | empty id =>
      exact aggregateStep_unbroken proper h hframes he rfl
  | branch id c yes no =>
      exact .ok ((steers rfl (by simp) (by simp)).branchStep_all here (by simp [Expr.children])).sound
  | whileLoop id l c body | doLoop id l c body =>
      exact .ok ((steers rfl (by simp) (by simp)).loopStep_all here rfl _).sound
  | forLoop id l i c p body =>
      exact .ok ((steers rfl (by simp) (by simp)).forStep_all here (by simp [Expr.children])).sound
  | switch id l tag cases => exact .ok ((steers rfl (by simp) (by simp)).switchStep_all here rfl).sound
  | arm id value body => exact .ok ((steers rfl (by simp) (by simp)).armStep_all here rfl).sound
  | exit id label => exact exitStep_unbroken h hframes _ label
  | next id label => exact nextStep_unbroken h hframes _ label
  | ret id value =>
      dsimp only
      split
      · rename_i first
        obtain ⟨v, rfl⟩ : ∃ v, value = some v := Option.isSome_iff_exists.1 (Bool.and_eq_true_iff.1 first).2
        exact .ok (.one (h.enter hframes (System.scope?_of_at? he) (by simp [Expr.children])))
      · refine .ok (returnFrom_sound proper h hframes ?_ _ _)
        split
        · exact sound.value 0 0
        · exact .of_none rfl
  | notify id target delays =>
      exact notifyStep_unbroken h hframes he proper.placed (free (by simp) (by simp)) rfl rfl
  | stop id =>
      obtain ⟨left, awake⟩ := leave_runs h hframes he (free (by simp) (by simp)) (x := .unknown) (.of_none rfl)
      obtain ⟨top', below', hframes'⟩ := exists_frames_of_awake awake
      obtain ⟨stopped, frames⟩ := stop_runs left
      exact .ok (.one ⟨stopped, awake_of_frames stopped.toHeld (frames.trans hframes')⟩)
  | call id r args => exact callStep_unbroken h hframes hps he (free (by simp) (by simp))

include proper h in
theorem advance_unbroken (awake : t.Awake s.program.system) :
    Unbroken (SmallStep.Sound s entry) (s.advance t).result := by
  obtain ⟨top, below, hframes⟩ := exists_frames_of_awake awake
  obtain ⟨ps, hps, -⟩ := frames_eq_cons.1 hframes
  have htop : t.top? = some top := top?_of_frames hframes
  unfold advance
  rw [hps, htop]
  dsimp only
  split
  · rename_i body
    exact .ok (bodyStep_sound proper h hframes body)
  · rename_i inside
    split
    · exact .failed
    · rename_i e he
      have inside : top.path ≠ [] := by simp [inside]
      refine (Observer.announce_unbroken _ hps htop inside h.announced).run_bind fun sc announced => ?_
      have told : Runs s entry { t with scratch := sc } := 
        ⟨⟨h.state, h.proc, h.others, announced, h.info, h.unfrozen⟩, h.origin⟩
      exact exprStep_unbroken proper told hframes he hps

end

/-- An observer that keeps graphs was told where the expression of a step is. -/
theorem advance_tells {st : SmallStep} (hst : (s.advance t).result = .ok st)
    (keeps : s.setup.observer.keepsGraphs = true) {r : Transition} (hr : r ∈ st.results) :
    ∀ e, st.expr = some e → r.scratch.Tells s.program e := by
  intro e hexpr
  obtain ⟨ps, top, hps, htop, ⟨-, rfl⟩ | ⟨i, up, e', sc, -, he, hsc, hst⟩⟩ := advance_cases hst
  · cases bodyStep_expr.symm.trans hexpr
  · obtain rfl : e' = e := by
      obtain none | same := exprStep_expr hst
      · cases none.symm.trans hexpr
      · exact Option.some.inj (same.symm.trans hexpr)
    have told := Observer.announce_tells htop he (.inr keeps) hsc
    intro l callers announced
    exact told l callers ((exprStep_announced hst hr).1.symm.trans announced)

theorem observeResults_unbroken (cased : s.program.Cased) {o : Option Expr} {ts : List Transition} (i : Int)
    (h : ∀ t ∈ ts, t.Runs s entry ∧ (o.isSome = true → t.Awake s.program.system) ∧
      (s.setup.observer.keepsGraphs = true → ∀ e, o = some e → t.scratch.Tells s.program e)) :
    Unbroken (fun rs => ∀ r ∈ rs, r.Runs s entry) (s.observeResults o i ts).result := by
  induction ts with
  | nil => exact .ok fun _ hr => nomatch hr
  | cons t ts ih =>
      obtain ⟨⟨runs, awake, tells⟩, rest⟩ := List.forall_mem_cons.1 h
      have told := Observer.evaluated_unbroken (k := i) cased runs.info runs.announced tells runs.origin awake
      refine told.run_bind fun info fits => ?_
      refine (ih rest).run_bind fun rs hrs => .ok (List.forall_mem_cons.2 ⟨?_, hrs⟩)
      exact ⟨⟨runs.state, runs.proc, runs.others, runs.announced, fits, runs.unfrozen⟩, runs.origin⟩

/-- A small step in a sound frame does not break, and goes on in a sound frame unless the code ends. -/
theorem smallStep_unbroken (proper : s.Proper) (h : t.Runs s entry) (awake : t.Awake s.program.system) :
    Unbroken (SmallStep.Sound s entry) (s.smallStep t).result := by
  have begun : t.resetAccesses.Runs s entry :=
    ⟨⟨h.state, h.proc, h.others, h.announced, h.info, h.unfrozen⟩, h.origin⟩
  rw [smallStep_eq h.unfrozen h.firm]
  have advanced : Unbroken (fun st => (s.advance t.resetAccesses).result = .ok st ∧ st.Sound s entry)
      (s.advance t.resetAccesses).result :=
    (advance_unbroken proper begun awake).mono fun st hadv sound => ⟨hadv, sound⟩
  refine advanced.bind fun st ⟨hadv, hst⟩ => ?_
  have results : ∀ r ∈ st.results, r.Runs s entry ∧ (st.expr.isSome = true → r.Awake s.program.system) ∧
      (s.setup.observer.keepsGraphs = true → ∀ e, st.expr = some e → r.scratch.Tells s.program e) := by
    refine fun r hr => ⟨(hst r hr).1, fun on => (hst r hr).2.resolve_right ?_,
      fun keeps => advance_tells hadv keeps hr⟩
    rintro ⟨off, -⟩
    rw [off] at on
    cases on
  have observed : Unbroken (fun rs => SmallStep.Sound s entry { st with results := rs })
      (s.observeResults st.expr st.comingFrom st.results).result := by
    have told := observeResults_unbroken proper.cased st.comingFrom results
    refine told.mono fun rs hrs runs r hr => ⟨runs r hr, ?_⟩
    obtain ⟨t₀, ht₀, -, same⟩ := observeResults_mem hrs hr
    rw [same]
    exact (hst t₀ ht₀).2
  exact observed.bind fun rs sound => .ok sound

end Simulator

end DeltaSlice

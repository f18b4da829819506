import DeltaSlice.Proofs.Coarse.Steps

/-!
Small steps of a simulator that tracks fewer variables, on expressions that read or write the state:
variables, assignments, notifications, waits and calls. Then any small step.
-/

namespace DeltaSlice

namespace Simulator

variable {s : Simulator} {track : Variable → Bool} {t' t : Transition} {ps' ps : ProcessState}
  {top' top : Frame}

/-- A reference whose owner is known names the same variable. -/
theorem referenced_cases (hps : ps'.Covers track ps) (htop : top'.Covers top) (d : Decl) :
    (s.referenced ps' top' d).isQualified = false ∨
      s.referenced ps' top' d = s.referenced ps top d := by
  unfold referenced
  rw [hps.routines, htop.location]
  split
  · have owner : (if s.program.system.isQualified top.location = true then top'.value 1 0
        else top'.receiver).Covers (if s.program.system.isQualified top.location = true then
          top.value 1 0 else top.receiver) := by
      split
      · exact htop.value 1 0
      · exact htop.receiver
    rcases owner.asInstance? with unknown | same
    · simp only [unknown]
      by_cases hd : d.storage = .system
      · right
        split <;> simp [Variable.ofOwner, hd]
      · left
        simp [Variable.ofOwner, hd, Variable.isQualified]
    · simp only [same, or_true]
  · exact .inr rfl

section Variables

variable (fewer : ∀ v, track v = true → s.setup.tracksVariable v = true)
include fewer

theorem store_outside (h : BlursOutside s.program.system track t' t) (v : Variable) {x y : Value}
    (hx : x.Covers y) :
    BlursOutside s.program.system track ((s.tracking track).store t' v x) (s.store t v y) := by
  unfold store
  change BlursOutside _ _ (if track v = true then _ else _) _
  cases hv : track v with
  | true =>
      simp only [fewer v hv, if_true]
      split
      · exact h.mapRunning (fun hps => hps.setLocal v hx) fun _ => rfl
      · exact h.mapGlobal fun hg => hg.setValue v hx
  | false =>
      simp only [Bool.false_eq_true, if_false]
      split
      · split
        · exact h.right (h.covers.mapRunning_right fun hps => hps.setLocal_right hv y)
        · exact h.right (h.covers.mapGlobal_right fun hg => hg.setValue_right hv y)
      · exact h

theorem bindParams_outside (h : BlursOutside s.program.system track t' t) (stack : List Routine)
    (ds : List Decl) {xs ys : List Value} (hxs : List.Forall₂ Value.Covers xs ys) :
    BlursOutside s.program.system track ((s.tracking track).bindParams stack t' ds xs)
      (s.bindParams stack t ds ys) := by
  induction ds generalizing t' t xs ys with
  | nil => cases hxs <;> exact h
  | cons d ds ih =>
      cases hxs with
      | nil => exact ih (h.addWritten _ _) .nil
      | cons hx rest => exact ih (store_outside fewer (h.addWritten _ _) _ hx) rest

theorem readVariable_outside (h : BlursOutside s.program.system track t' t)
    (hps : ps'.Covers track ps) (htop : top'.Covers top) (d : Decl) :
    ((s.tracking track).readVariable t' ps' top' d).1.Covers (s.readVariable t ps top d).1 ∧
      BlursOutside s.program.system track ((s.tracking track).readVariable t' ps' top' d).2
        (s.readVariable t ps top d).2 := by
  have hname : (s.tracking track).referenced ps' top' d = s.referenced ps' top' d := rfl
  unfold readVariable
  simp only [hname]
  change (if s.program.system.isAssigned top'.location = true then _ else _ : Value × _).1.Covers _ ∧
    BlursOutside _ _ (if s.program.system.isAssigned top'.location = true then _ else _ : _ × _).2 _
  rw [htop.location]
  have cases := referenced_cases (s := s) hps htop d
  generalize s.referenced ps' top' d = v' at cases
  generalize s.referenced ps top d = v at cases
  split
  · refine ⟨?_, h⟩
    rcases cases with unknown | rfl
    · rw [unknown]
      exact .unknown _
    · exact .refl _
  · refine ⟨?_, h.addRead _ _⟩
    change (if (v'.isQualified && track v') = true then _ else _ : Value).Covers _
    rcases cases with unknown | rfl
    · rw [unknown]
      exact .unknown _
    · cases htrack : track v' with
      | false =>
          rw [Bool.and_false]
          exact .unknown _
      | true =>
          rw [fewer v' htrack]
          split
          · unfold load
            split
            · exact hps.locals v' htrack
            · exact h.covers.state.global.values v' htrack
          · exact .unknown _

theorem aggregate_approximates (h : BlursOutside s.program.system track t' t)
    (htop : top'.Covers top) (e : Expr)
    (plain : ∀ id op l r, e = .binary id op l r → op = .eq ∨ op = .ne →
      ((top.value 0 0).isList && (top.value 0 1).isList) = false) :
    Approximates (fun b a => b.1.Covers a.1 ∧ BlursOutside s.program.system track b.2 a.2)
      ((s.tracking track).aggregate t' top' e) (s.aggregate t top e) := by
  have hx := htop.value 0 0
  have hy := htop.value 0 1
  unfold aggregate
  simp only
  split
  · exact .ok ⟨hx.applyUnary _, h⟩
  · rcases hx.cases with unknown | ⟨same, -, -⟩ | ⟨n, m, l, list', list⟩
    · rw [unknown]
      exact .imprecise _ _
    · rw [same]
      split
      · exact .failed _
      · exact .ok ⟨hy, store_outside fewer (h.addWritten _ _) _ hy⟩
      · exact .failed _
    · rw [list]
      exact .failed _
  · rename_i id op l r _
    have applied := hx.apply hy (plain id op l r rfl)
    by_cases hop : (decide (op = .both) || decide (op = .either)) = true
    · rw [if_pos hop, if_pos hop]
      rcases eventList?_covers hx hy (decide (op = .either)) with none | same
      · have bare : ∀ x y, Value.apply op x y = .unknown := fun _ _ =>
          Value.Covers.apply_lists (by simpa using hop)
        simp only [none, bare]
        split
        · exact .ok ⟨.unknown _, h.numbered _ _⟩
        · exact .ok ⟨.unknown _, h⟩
      · rw [same]
        split
        · exact .ok ⟨.inr rfl, h.numbered _ _⟩
        · exact .ok ⟨applied, h⟩
    · rw [if_neg hop, if_neg hop]
      exact .ok ⟨applied, h⟩
  · exact .ok ⟨hy, h⟩
  · exact .ok ⟨hx, h⟩
  · exact .ok ⟨.unknown _, h⟩

theorem aggregateStep_approximates (h : BlursOutside s.program.system track t' t)
    (htop : top'.Covers top) (e : Expr)
    (plain : ∀ id op l r, e = .binary id op l r → op = .eq ∨ op = .ne →
      ((top.value 0 0).isList && (top.value 0 1).isList) = false) :
    Approximates (Includes s.program.system track) ((s.tracking track).aggregateStep t' top' e)
      (s.aggregateStep t top e) := by
  unfold aggregateStep
  rw [htop.comingFrom]
  simp only
  split
  · exact .ok (.one (h.enter _))
  · refine (aggregate_approximates fewer h htop e plain).map ?_
    intro b a hba
    exact .one (hba.2.finish hba.1)

end Variables

section Code

variable (h : BlursOutside s.program.system track t' t) (htop : top'.Covers top) (e : Expr)
include h htop

theorem exitStep_approximates (label : String) : Approximates (Includes s.program.system track)
    (s.exitStep t' top' e label) (s.exitStep t top e label) := by
  unfold exitStep
  rw [htop.location, htop.path, htop.comingFrom]
  split
  · exact .failed _
  · rw [htop.outermost?]
    split
    · exact .failed _
    · refine .ok (.one (((h.mapConditions _ _).toBlurs.pop _).comeFrom _ .none ?_))
      intro _ _ _ _ _ none
      cases none

theorem nextStep_approximates (label : String) : Approximates (Includes s.program.system track)
    (s.nextStep t' top' e label) (s.nextStep t top e label) := by
  unfold nextStep
  rw [htop.location, htop.path, htop.comingFrom]
  split
  · exact .failed _
  · rw [htop.outermost?]
    split
    · exact .failed _
    · exact .ok (.one ((h.mapConditions _ _).unwind _ _))

omit h in
theorem delayOf_approximates (delays : List Expr) :
    Approximates (· = ·) (delayOf top' e delays) (delayOf top e delays) := by
  have same : ∀ x : Except Halt (Option Delay), Approximates (· = ·) x x :=
    fun x a ha => .inl ⟨a, ha, rfl⟩
  unfold delayOf
  rw [htop.location]
  simp only
  split
  · exact same _
  · rcases (htop.value 0 1).cases with unknown | ⟨heq, -, -⟩ | ⟨_, _, _, -, list⟩
    · rw [unknown]
      exact .imprecise _ _
    · rw [heq]
      exact same _
    · rw [list]
      exact .failed _
  · rcases (htop.value 0 1).asInt? with unknown | amount
    · rw [unknown]
      exact .imprecise _ _
    · rcases (htop.value 0 2).asUnit? with unknown | unit
      · rw [unknown]
        cases (top'.value 0 1).asInt? <;> exact .imprecise _ _
      · rw [amount, unit]
        exact same _

end Code

section Notifications

variable (quiet : s.setup.observer = .none)
include quiet

theorem notifyProcess_approximates (h : BlursOutside s.program.system track t' t) (p : Process)
    (notified : List Event) : Approximates (BlursOutside s.program.system track)
      ((s.tracking track).notifyProcess t' p notified).result
      (s.notifyProcess t p notified).result := by
  unfold notifyProcess
  rcases optionRel_cases (rel_getElem? h.covers.state.procs p.index) with
    ⟨hq, hp⟩ | ⟨q, ps, hq, hp, rel⟩
  · simp only [hq, hp]
    exact .failed _
  · simp only [hq, hp, rel.blocker]
    cases hb : ps.blocker with
    | none => exact .ok h
    | some b =>
        cases b with
        | terminated | delay _ => exact .ok h
        | events before =>
            simp only
            split
            · exact .ok h
            · rw [show (s.tracking track).setup.observer = .none from quiet, quiet]
              exact .ok (h.block_other hq rel _)

theorem notifyProcesses_approximates (h : BlursOutside s.program.system track t' t)
    (notified : List Event) (ps : List Process) : Approximates (BlursOutside s.program.system track)
      ((s.tracking track).notifyProcesses t' notified ps).result
      (s.notifyProcesses t notified ps).result := by
  induction ps generalizing t' t with
  | nil => exact .ok h
  | cons p ps ih =>
      unfold notifyProcesses
      rw [Run.result_bind, Run.result_bind]
      exact (notifyProcess_approximates quiet h p notified).bind fun _ _ hp => ih hp

theorem notify_approximates (h : BlursOutside s.program.system track t' t) (e : Event)
    (delay : Option Delay) : Approximates (BlursOutside s.program.system track)
      ((s.tracking track).notify t' e delay).result (s.notify t e delay).result := by
  have halted : (s.tracking track).isHalted t'.state = s.isHalted t.state := by
    unfold isHalted
    rw [h.covers.state.global.stopped]
    rfl
  unfold notify
  rw [halted]
  change Approximates _ (if (s.isHalted t.state || !s.setup.tracksEvent e) = true then _ else _ :
    Step Transition).result _
  split
  · exact .ok h
  · cases delay with
    | some d =>
        refine .ok (h.mapGlobal fun {g' g} hg => ?_)
        rw [hg.pending]
        exact hg.setPending _ _
    | none =>
        simp only
        rw [h.covers.proc]
        exact notifyProcesses_approximates quiet (h.mapGlobal fun hg => hg.setPending _ _) _ _

theorem notifyStep_approximates (h : BlursOutside s.program.system track t' t)
    (htop : top'.Covers top) (e target : Expr) (delays : List Expr) :
    Approximates (Includes s.program.system track)
      ((s.tracking track).notifyStep t' top' e target delays).result
      (s.notifyStep t top e target delays).result := by
  unfold notifyStep
  rw [htop.comingFrom]
  simp only
  split
  · exact .ok (.one (h.enter _))
  · rcases (htop.value 0 0).asEvent? with unknown | same
    · rw [unknown]
      exact .imprecise _ _
    · rw [same]
      split
      · exact .failed _
      · simp only [Run.result_bind]
        refine (delayOf_approximates htop e delays).bind ?_
        rintro d _ rfl
        refine (notify_approximates quiet h _ d).bind ?_
        intro u' u hu
        exact .ok (.one (hu.finish (.refl _)))

end Notifications

theorem stop_blurs (h : Blurs s.program.system track t' t) :
    Blurs s.program.system track ((s.tracking track).stop t') (s.stop t) := by
  refine ⟨⟨h.covers.proc, ⟨h.covers.state.global.stop, ?_, h.covers.state.update⟩, h.covers.frozen⟩,
    h.settled.of_frames stop_frames⟩
  refine List.forall₂_map_left_iff.2 (List.forall₂_map_right_iff.2 (h.covers.state.procs.imp ?_))
  intro q ps rel
  simp only [tracking_stopMode, rel.blocker]
  cases s.setup.stopMode with
  | immediate => exact rel.block _
  | delta =>
      cases ps.blocker with
      | none => exact rel
      | some b =>
          cases b with
          | events _ => exact rel
          | terminated | delay _ => exact rel.block _

/-- Arguments that are known are the same, up to the numbers of event lists. -/
theorem argumentPayloads_covers (htop : top'.Covers top) (i n : Nat) {args : List Payload}
    (hargs : argumentPayloads top i n = .ok args) : (∃ k, argumentPayloads top' i n = .error k) ∨
      ∃ args', argumentPayloads top' i n = .ok args' ∧
        args'.map Payload.bare = args.map Payload.bare := by
  induction n generalizing i args with
  | zero =>
      obtain rfl : [] = args := by
        injection hargs
      exact .inr ⟨[], rfl, rfl⟩
  | succ n ih =>
      unfold argumentPayloads at hargs ⊢
      rcases htop.value 0 i with unknown | same
      · rw [unknown]
        exact .inl ⟨i, rfl⟩
      · cases hx : top'.value 0 i with
        | unknown => exact .inl ⟨i, rfl⟩
        | known p' =>
            cases hy : top.value 0 i with
            | unknown => simp [hy] at hargs
            | known p =>
                have hp : p'.bare = p.bare := by
                  rw [hx, hy] at same
                  injection same
                simp only [hy] at hargs
                obtain ⟨rest, hrest, rfl⟩ := Success.map_iff.1 hargs
                rcases ih (i + 1) hrest with ⟨k, hk⟩ | ⟨rest', hrest', same⟩
                · exact .inl ⟨k, by simp [hk, Except.map]⟩
                · exact .inr ⟨p' :: rest', by simp [hrest', Except.map], by simp [hp, same]⟩

section Calls

variable (h : BlursOutside s.program.system track t' t) (htop : top'.Covers top) (e : Expr)
include h htop

theorem waitStep_approximates (arity : Nat) : Approximates (Includes s.program.system track)
    (s.waitStep t' top' e arity) (s.waitStep t top e arity) := by
  unfold waitStep
  rw [h.covers.proc, htop.location, htop.comingFrom]
  simp only
  split
  · exact .failed _
  · rename_i p _
    cases hargs : argumentPayloads top 0 arity with
    | error k => exact .failed _
    | ok args =>
        rcases argumentPayloads_covers htop 0 arity hargs with ⟨k, unknown⟩ | ⟨args', hargs', same⟩
        · rw [unknown]
          exact .imprecise _ _
        · have hblocker : blocker? p args' = blocker? p args := by
            rw [← blocker?_bare p args', same, blocker?_bare]
          simp only [hargs', hblocker]
          split
          · exact .failed _
          · refine .ok ⟨rfl, ?_⟩
            intro r hr
            obtain rfl := List.mem_singleton.1 hr
            exact ⟨_, List.mem_singleton_self _, (h.finish (.refl _)).block _⟩

omit htop in
theorem push_outside (r : Routine) {x y : Value} (hx : x.Covers y)
    (hswitch : ∀ f below, t'.frames = f :: below →
      s.program.system.isSwitch f.location = false) :
    BlursOutside s.program.system track (t'.mapRunning (·.push (.start r x)))
      (t.mapRunning (·.push (.start r y))) := by
  have hframes : ∀ f below, (t'.mapRunning (·.push (.start r x))).frames = f :: below →
      f = .start r x ∧ below = t'.frames := by
    intro f below hframes
    simp only [Transition.frames, Transition.running?_mapRunning] at hframes ⊢
    cases hps : t'.running? with
    | none => simp [hps] at hframes
    | some ps =>
        simp only [hps, Option.map_some, Option.getD_some, ProcessState.push,
          List.cons.injEq] at hframes ⊢
        exact ⟨hframes.1.symm, hframes.2.symm⟩
  refine ⟨⟨h.covers.mapRunning fun hps => hps.push (.start r hx), ?_, ?_⟩, ?_⟩
  · intro f hf
    cases hall : (t'.mapRunning (·.push (.start r x))).frames with
    | nil => simp [hall] at hf
    | cons g below =>
        obtain ⟨rfl, rfl⟩ := hframes g below hall
        rw [hall] at hf
        rcases List.mem_cons.1 hf with rfl | hf
        · exact .start r x
        · exact h.settled.frames f hf
  · intro f hf
    cases hall : (t'.mapRunning (·.push (.start r x))).frames with
    | nil => simp [hall] at hf
    | cons g below =>
        obtain ⟨rfl, rfl⟩ := hframes g below hall
        rw [hall, List.tail_cons] at hf
        cases hold : t'.frames with
        | nil => simp [hold] at hf
        | cons top rest =>
            rw [hold] at hf
            rcases List.mem_cons.1 hf with rfl | hf
            · exact hswitch f rest hold
            · exact h.settled.callers f (by rw [hold]; exact hf)
  · intro f below hall
    obtain ⟨rfl, -⟩ := hframes f below hall
    rfl

theorem callStep_approximates (fewer : ∀ v, track v = true → s.setup.tracksVariable v = true)
    (hps : ps'.Covers track ps) (hswitch : ∀ f below, t'.frames = f :: below →
      s.program.system.isSwitch f.location = false) (r : Routine) (arity : Nat) :
    Approximates (Includes s.program.system track)
      ((s.tracking track).callStep t' ps' top' e r arity) (s.callStep t ps top e r arity) := by
  have receiver : (if s.program.system.isQualified top.location = true then top'.value 1 0
      else top'.receiver).Covers (if s.program.system.isQualified top.location = true then
        top.value 1 0 else top.receiver) := by
    split
    · exact htop.value 1 0
    · exact htop.receiver
  unfold callStep
  simp only [tracking_program, htop.comingFrom, htop.location]
  generalize (if s.program.system.isQualified top.location = true then top'.value 1 0
    else top'.receiver) = x at receiver ⊢
  generalize (if s.program.system.isQualified top.location = true then top.value 1 0
    else top.receiver) = y at receiver ⊢
  split
  · exact .ok (.one (h.enter _))
  · split
    · exact .ok (.one (h.finish (htop.value 0 _)))
    · split
      · exact waitStep_approximates h htop e arity
      · rcases receiver.asInstance? with unknown | same
        · simp only [unknown]
          exact .imprecise _ _
        · simp only [same]
          cases y.asInstance? with
          | none => exact .failed _
          | some i => exact .ok (.one ((h.mapGlobal fun hg => hg.requestUpdate i).finish (.refl _)))
      · refine .ok (.one (BlursOutside.toBlurs ?_))
        rw [hps.routines]
        refine bindParams_outside fewer ((push_outside h _ receiver hswitch).mapConditions _ _) _ _ ?_
        refine List.forall₂_map_left_iff.2 (List.forall₂_map_right_iff.2 (List.forall₂_same.2 ?_))
        intro k _
        exact htop.value 0 k

end Calls

end Simulator

end DeltaSlice

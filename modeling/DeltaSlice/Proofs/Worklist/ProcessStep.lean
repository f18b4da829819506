import DeltaSlice.Proofs.Worklist.Exploration
import DeltaSlice.Proofs.Worklist.Walk

/-!
Steps of a process as runs of code: where they begin, which branches they have explored when they are
over, and the sequences of small steps to their results.
-/

namespace DeltaSlice

namespace Simulator

variable {s : Simulator} {start r : Transition}

/-- The transition with which a step of a process begins, as the observer sees it. -/
def begin? (s : Simulator) (p : Process) (st : State) : Except Halt Transition :=
  let t := Transition.start st s.setup.observer.neutral (some p) (some p.inst)
  (s.setup.observer.start s.program t).result.map fun i => { t with info := i }

theorem makeStep_cases {p : Process} {st : State} {ts : List Transition}
    (hstep : (s.makeStep p st).result = .ok ts) :
    ∃ start ended, s.begin? p st = .ok start ∧ (s.run start).result = .ok ended ∧
      (s.finalize ended).result = .ok ts := by
  unfold makeStep at hstep
  split at hstep
  · cases hstep
  · obtain ⟨i, hi, hstep⟩ := Run.bind_result_iff.1 hstep
    obtain ⟨ended, hrun, hfin⟩ := Run.bind_result_iff.1 hstep
    exact ⟨_, ended, Success.map_iff.2 ⟨i, hi, rfl⟩, hrun, hfin⟩

theorem finalize_mem {ts rs : List Transition} (h : (s.finalize ts).result = .ok rs)
    (hr : r ∈ rs) : ∃ t ∈ ts, r.state = t.state ∧
      (s.setup.observer.finalize t.info).result = .ok r.info := by
  induction ts generalizing rs with
  | nil =>
      obtain rfl := Run.pure_result_iff.1 h
      cases hr
  | cons t ts ih =>
      obtain ⟨info, hinfo, h⟩ := Run.bind_result_iff.1 h
      obtain ⟨rest, hrest, h⟩ := Run.bind_result_iff.1 h
      obtain rfl := Run.pure_result_iff.1 h
      cases List.mem_cons.1 hr with
      | inl hr =>
          subst hr
          exact ⟨t, by simp, rfl, hinfo⟩
      | inr hr =>
          obtain ⟨u, hu, hstate, hfin⟩ := ih hrest hr
          exact ⟨u, by simp [hu], hstate, hfin⟩

theorem mem_filterMapM {α β ε : Type} {f : α → Except ε (Option β)} {l : List α} {bs : List β} {b : β}
    (h : l.filterMapM f = .ok bs) (hb : b ∈ bs) : ∃ a ∈ l, f a = .ok (some b) := by
  induction l generalizing bs with
  | nil =>
      obtain rfl : [] = bs := Except.ok.inj h
      cases hb
  | cons a l ih =>
      rw [List.filterMapM_cons] at h
      obtain ⟨c, hc, h⟩ := Success.bind_iff.1 h
      cases c with
      | none =>
          obtain ⟨x, hx, same⟩ := ih h hb
          exact ⟨x, List.mem_cons_of_mem _ hx, same⟩
      | some c =>
          obtain ⟨rest, hrest, h⟩ := Success.bind_iff.1 h
          obtain rfl : c :: rest = bs := Except.ok.inj h
          rcases List.mem_cons.1 hb with rfl | hb
          · exact ⟨a, List.mem_cons_self, hc⟩
          · obtain ⟨x, hx, same⟩ := ih hrest hb
            exact ⟨x, List.mem_cons_of_mem _ hx, same⟩

theorem ready_mem {p : Process} {st : State} {ps : List Process} (h : s.ready st = .ok ps) (hp : p ∈ ps) :
    p ∈ s.procs ∧ ∃ q, st.procs[p.index]? = some q ∧ s.isReady q = true := by
  unfold ready at h
  split at h
  · obtain rfl := Except.ok.inj h
    cases hp
  · obtain ⟨q, hq, found⟩ := mem_filterMapM h hp
    split at found
    · cases found
    · rename_i ps hps
      split at found
      · rename_i ready
        obtain rfl := Option.some.inj (Except.ok.inj found)
        exact ⟨hq, ps, hps, ready⟩
      · cases Except.ok.inj found

/-- What is found out after a step was there before or comes from this step. -/
theorem collect_mem {found found' : Successors} {activity : String} {step : Step (List Transition)}
    (h : (collect found activity step).result = .ok found') (hr : r ∈ found'.transitions) :
    r ∈ found.transitions ∨ ∃ ts, step.result = .ok ts ∧ r ∈ ts := by
  unfold collect at h
  split at h
  · rename_i ts hts
    obtain rfl := Except.ok.inj h
    exact (List.mem_append.1 hr).imp_right fun hr => ⟨ts, hts, hr⟩
  · obtain rfl := Except.ok.inj h
    exact .inl hr
  · cases h

theorem collectSteps_mem {st : State} {ps : List Process} {found found' : Successors}
    (h : (s.collectSteps st found ps).result = .ok found') (hr : r ∈ found'.transitions) :
    r ∈ found.transitions ∨ ∃ p ∈ ps, ∃ ts, (s.makeStep p st).result = .ok ts ∧ r ∈ ts := by
  induction ps generalizing found with
  | nil =>
      obtain rfl := Run.pure_result_iff.1 h
      exact .inl hr
  | cons p ps ih =>
      obtain ⟨next, hnext, h⟩ := Run.bind_result_iff.1 h
      rcases ih h with earlier | ⟨q, hq, later⟩
      · exact (collect_mem hnext earlier).imp_right fun made => ⟨p, List.mem_cons_self, made⟩
      · exact .inr ⟨q, List.mem_cons_of_mem _ hq, later⟩

/-- A transition that leaves a state ends the evaluation phase or is a step of a process that is ready. -/
theorem successors_mem {st : State} {found : Successors} (h : (s.successors st).result = .ok found)
    (hr : r ∈ found.transitions) :
    (s.canEnd st = true ∧ ∃ ts, (s.endEvaluation st).result = .ok ts ∧ r ∈ ts) ∨
      ∃ ps, s.ready st = .ok ps ∧ ∃ p ∈ ps, ∃ ts, (s.makeStep p st).result = .ok ts ∧ r ∈ ts := by
  unfold successors at h
  split at h
  · rename_i ends
    obtain ⟨ended, hended, h⟩ := Run.bind_result_iff.1 h
    obtain ⟨ps, hps, h⟩ := Run.bind_result_iff.1 h
    rcases collectSteps_mem h hr with earlier | step
    · exact .inl ⟨ends, (collect_mem hended earlier).resolve_left (by simp)⟩
    · exact .inr ⟨ps, Run.ofFault_result_iff.1 hps, step⟩
  · obtain ⟨nothing, hnothing, h⟩ := Run.bind_result_iff.1 h
    obtain rfl := Run.pure_result_iff.1 hnothing
    obtain ⟨ps, hps, h⟩ := Run.bind_result_iff.1 h
    rcases collectSteps_mem h hr with earlier | step
    · cases earlier
    · exact .inr ⟨ps, Run.ofFault_result_iff.1 hps, step⟩

/-- A completed transition of a process comes from an ended one of an exhaustive run. -/
theorem explored_of_makeStep {le : Info → Info → Prop} {p : Process} {st : State}
    (hbegin : s.begin? p st = .ok start) (hm : s.Merging start le) {ts : List Transition}
    (hstep : (s.makeStep p st).result = .ok ts) (hr : r ∈ ts) :
    ∃ taken ended, s.Explored start le taken ended ∧
      ∃ e ∈ ended, r.state = e.state ∧ (s.setup.observer.finalize e.info).result = .ok r.info := by
  obtain ⟨start', ended, hbegin', hrun, hfin⟩ := makeStep_cases hstep
  obtain rfl : start = start' := by
    rw [hbegin] at hbegin'
    injection hbegin'
  obtain ⟨taken, hx⟩ := explored_of_run hm hrun
  obtain ⟨e, he, hstate, hinfo⟩ := finalize_mem hfin hr
  exact ⟨taken, ended, hx, e, he, hstate, hinfo⟩

/-- The small steps `ms` lead to the state of the transition `r`. -/
def Leads (s : Simulator) (start : Transition) (ms : List Move) (r : Transition) : Prop :=
  ∃ t, s.Completes start ms t ∧ t.state.key = r.state.key

theorem Leads.walk {pre post : List Move} {m : Move} (h : s.Leads start (pre ++ m :: post) r) :
    s.Walk start pre (endOf start pre) := by
  obtain ⟨t, hc, -⟩ := h
  exact (Route.split (b := true) hc).1

/-- Whether the small steps of the given numbers lead to a completed transition of the process such
that both pass a check. -/
def leadsWith (s : Simulator) (p : Process) (t : State) (l : List Nat)
    (c : Transition → List Move → Transition → Bool) : Bool :=
  Success.yields (s.begin? p t) fun start =>
    Success.yields (s.makeStep p t).result fun ts => ts.any fun r =>
      match s.trail l [] start with
      | some (ms, true, u) => u.state.key = r.state.key && c start ms r
      | _ => false

theorem exists_of_leadsWith {p : Process} {t : State} {l : List Nat}
    {c : Transition → List Move → Transition → Bool} (h : s.leadsWith p t l c = true) :
    ∃ start ts r ms, s.begin? p t = .ok start ∧ (s.makeStep p t).result = .ok ts ∧ r ∈ ts ∧
      s.Leads start ms r ∧ c start ms r = true := by
  obtain ⟨start, hbegin, h⟩ := Success.exists_of_yields h
  obtain ⟨ts, hts, h⟩ := Success.exists_of_yields h
  obtain ⟨r, hr, h⟩ := List.any_eq_true.1 h
  split at h
  · rename_i ms u htrail
    simp only [Bool.and_eq_true, decide_eq_true_eq] at h
    exact ⟨start, ts, r, ms, hbegin, hts, hr, ⟨u, route_of_trail .nil htrail, h.1⟩, h.2⟩
  · cases h

end Simulator

end DeltaSlice

import DeltaSlice.Proofs.Safety.Runs

/-!
The advance of the simulation does not break. What waits for a time is due no earlier than the earliest one,
so time is only taken from what is longer, and everyone who resumes has a frame to go on with.
-/

namespace DeltaSlice

open Transition

theorem Delay.remaining_succeeds {whole part : Int64} (le : part.toInt ≤ whole.toInt) (more : whole ≠ part) :
    Succeeds (fun _ => True) (Delay.remaining whole part) := by
  have longer : ¬ whole ≤ part := by
    rw [Int64.le_iff_toInt_le]
    intro shorter
    exact more (Int64.toInt_inj.1 (Int.le_antisymm shorter le))
  rw [Delay.remaining, if_neg longer]
  exact .ok trivial

theorem State.Sound.setPendings {s : Simulator} {st : State} (sound : st.Sound s) (es : List Event) :
    State.Sound s { st with global := es.foldl (fun g e => g.setPending e none) st.global } := by
  induction es generalizing st with
  | nil => exact sound
  | cons e es ih => exact ih (sound.setPending e none)

/-- The process has a frame at which it resumes. -/
def Transition.Resumes (t : Transition) (p : Process) : Prop :=
  ∀ ps, t.state.procs[p.index]? = some ps → ps.stack ≠ []

/-- The process waits for a time that is not over before `passed`, or for nothing. -/
def Transition.Lasts (t : Transition) (passed : Int64) (p : Process) : Prop :=
  ∀ w, t.state.waitOf? p.index = some w →
    w = none ∨ ∃ d, Blocker.timeout? w = some (.time d) ∧ passed.toInt ≤ d.toInt

namespace Transition

variable {t r : Transition} {p q : Process}

theorem Resumes.spared (h : t.Resumes p) (spares : t.Spares r) : r.Resumes p := by
  intro ps hps empty
  have same := spares.stack p.index
  rw [hps, Option.map_some] at same
  obtain ⟨ps', hps', stack⟩ := Option.map_eq_some_iff.1 same.symm
  exact h ps' hps' (stack.trans empty)

theorem Lasts.block {ps : ProcessState} {passed : Int64} {b : Option Blocker} (h : t.Lasts passed p)
    (apart : p.index ≠ q.index) : (t.setProc q (ps.block b)).Lasts passed p := by
  intro w hw
  have waits := t.state.waitOf?_setProc q.index p.index (ps.block b)
  rw [if_neg apart] at waits
  exact h w (waits.symm.trans hw)

end Transition

namespace Simulator

variable {s : Simulator} {entry : Option NodeId} {t : Transition} {ps : List Process} {st : State}

/-- Of the waiting processes, those whose wait has a timeout have a frame. -/
theorem resumes_of_timeout {test : ProcessState → Bool} (framed : t.state.Framed)
    (timed : ∀ ps, test ps = true → (timeoutOf ps).isSome = true) {p : Process}
    (hp : p ∈ s.processesWith t.state test) : t.Resumes p := by
  intro ps hps
  obtain ⟨-, holds⟩ := List.mem_filter.1 hp
  rw [hps, Option.map_some, Option.getD_some] at holds
  refine (framed ps (List.mem_of_getElem? hps)).resolve_left fun ended => ?_
  have timed := timed ps holds
  rw [timeoutOf, ended] at timed
  cases timed

/-- Whoever waits for a time waits until it is over. -/
theorem exists_timeout {p : Process} (hp : p ∈ s.processesWith st fun ps => isTime (timeoutOf ps)) :
    p ∈ s.procs ∧ ∃ w d, st.waitOf? p.index = some w ∧ Blocker.timeout? w = some (.time d) := by
  obtain ⟨known, holds⟩ := List.mem_filter.1 hp
  refine ⟨known, ?_⟩
  unfold State.waitOf?
  cases hps : st.procs[p.index]? with
  | none => simp [hps] at holds
  | some ps =>
      simp only [hps, Option.map_some, Option.getD_some] at holds
      have timeout : timeoutOf ps = Blocker.timeout? ps.blocker := rfl
      rw [timeout] at holds
      unfold isTime at holds
      split at holds
      · rename_i d hd
        exact ⟨ps.blocker, d, rfl, hd⟩
      · cases holds

theorem wakeDelta_unbroken (h : t.Held s entry) (unowned : t.proc = none)
    (hps : ∀ p ∈ ps, p ∈ s.procs ∧ t.Resumes p) (placed : s.Placed) :
    Unbroken (fun r => r.Held s entry ∧ r.proc = none) (s.wakeDelta t ps).result := by
  induction ps generalizing t with
  | nil => exact .ok ⟨h, unowned⟩
  | cons p ps ih =>
      obtain ⟨⟨hp, resumes⟩, rest⟩ := List.forall_mem_cons.1 hps
      obtain ⟨q, found⟩ := h.found placed hp
      have other : t.proc.map (·.index) ≠ some p.index := by simp [unowned]
      unfold wakeDelta
      rw [found]
      dsimp only
      split
      · exact ih h unowned rest
      · have spares := block_spares found other none
        refine (Observer.waitedForDelta_unbroken _ p).run_bind fun _ _ => ?_
        exact ih (h.block found (resumes q found) none) unowned
          fun p' hp' => ⟨(rest p' hp').1, (rest p' hp').2.spared spares⟩

theorem passProcesses_unbroken {passed : Int64} (nodup : (ps.map (·.index)).Nodup) (h : t.Held s entry)
    (unowned : t.proc = none) (hps : ∀ p ∈ ps, p ∈ s.procs ∧ t.Resumes p ∧ t.Lasts passed p) (placed : s.Placed) :
    Unbroken (fun r => r.Held s entry ∧ r.proc = none) (s.passProcesses passed t ps).result := by
  induction ps generalizing t with
  | nil => exact .ok ⟨h, unowned⟩
  | cons p ps ih =>
      obtain ⟨⟨hp, resumes, lasts⟩, rest⟩ := List.forall_mem_cons.1 hps
      obtain ⟨fresh, nodup⟩ := List.nodup_cons.1 nodup
      obtain ⟨q, found⟩ := h.found placed hp
      have other : t.proc.map (·.index) ≠ some p.index := by simp [unowned]
      have next : ∀ b, Unbroken (fun r => r.Held s entry ∧ r.proc = none)
          (s.passProcesses passed (t.setProc p (q.block b)) ps).result := by
        intro b
        refine ih nodup (h.block found (resumes q found) b) unowned fun p' hp' => ?_
        obtain ⟨known, resumes', lasts'⟩ := rest p' hp'
        have apart : p'.index ≠ p.index := fun same => fresh (List.mem_map.2 ⟨p', hp', same⟩)
        exact ⟨known, resumes'.spared (block_spares found other b), lasts'.block apart⟩
      have wait := lasts q.blocker (by rw [State.waitOf?, found]; rfl)
      unfold passProcesses
      rw [found]
      dsimp only
      obtain waits | ⟨d, timed, le⟩ := wait
      · rw [waits]
        exact ih nodup h unowned rest
      · have timed : timeoutOf q = some (.time d) := timed
        cases waits : q.blocker with
        | none =>
            rw [timeoutOf, waits] at timed
            cases timed
        | some b =>
            rw [timed]
            dsimp only
            split
            · exact (Observer.waitedForTime_unbroken _ p).run_bind fun _ _ => next none
            · rename_i more
              exact (Delay.remaining_succeeds le more).unbroken.run_bind fun d _ => next _

/-- What changes of single pending notifications keep is kept while time passes for all of them. -/
theorem passPending_succeeds {passed : Int64} {es : List Event} {g : GlobalState} {I : GlobalState → Prop}
    (start : I g) (keeps : ∀ g e d, I g → I (g.setPending e d)) (nodup : es.Nodup)
    (least : ∀ e ∈ es, ∀ d, g.pending.get? e = some (.time d) → passed.toInt ≤ d.toInt) :
    Succeeds (fun x => I x.2) (passPending passed g es) := by
  induction es generalizing g with
  | nil => exact .ok start
  | cons e es ih =>
      obtain ⟨fresh, nodup⟩ := List.nodup_cons.1 nodup
      obtain ⟨first, rest⟩ := List.forall_mem_cons.1 least
      have next : ∀ d, Succeeds (fun x => I x.2) (passPending passed (g.setPending e d) es) := by
        refine fun d => ih (keeps g e d start) nodup fun e' he' d' hd' => rest e' he' d' ?_
        have other : e' ≠ e := fun same => fresh (same ▸ he')
        rw [GlobalState.get?_setPending, if_neg other] at hd'
        exact hd'
      unfold passPending
      split
      · rename_i d hd
        split
        · exact (next none).map fun _ kept => kept
        · rename_i more
          obtain ⟨d', hd', -⟩ := Delay.remaining_succeeds (first d hd) more
          rw [hd']
          exact next _
      · exact ih start nodup rest

section

variable (h : t.Held s entry) (unowned : t.proc = none) (placed : s.Placed)

include h unowned in
theorem framed_unowned : t.state.Framed := h.framed fun p _ hp => by rw [unowned] at hp; cases hp

include h unowned placed in
theorem deltaCycle_unbroken (events : List Event) :
    Unbroken (fun r => r.Held s entry ∧ r.proc = none) (s.deltaCycle t events).result := by
  unfold deltaCycle
  have noted : Held s entry (t.mapGlobal fun g => events.foldl (fun g e => g.setPending e none) g) :=
    h.withGlobal (h.state.setPendings events)
  refine (notifyProcesses_unbroken noted placed (fun p hp => (List.mem_filter.1 hp).1) (fun p _ => ?_)
    events).run_bind fun u ⟨held, spares⟩ => ?_
  · simp [mapGlobal, unowned]
  · refine wakeDelta_unbroken held (spares.proc.trans unowned) (fun p hp => ⟨(List.mem_filter.1 hp).1, ?_⟩) placed
    refine Resumes.spared (t := t.mapGlobal _) (resumes_of_timeout (framed_unowned h unowned) (fun ps due => ?_) hp)
      spares
    rw [of_decide_eq_true due]
    rfl

include h unowned placed in
/-- Time passes up to a point that is not later than anything that is waited for. -/
theorem letTimePass_unbroken {passed : Int64}
    (least : ∀ d, some (.time d) ∈ s.delays t.state → passed.toInt ≤ d.toInt) :
    Unbroken (fun r => r.Held s entry ∧ r.proc = none) (s.letTimePass t passed).result := by
  unfold letTimePass
  dsimp only
  have pending := passPending_succeeds (I := fun g => State.Sound s { t.state with global := g }) h.state
    (fun _ e d sound => sound.setPending e d) h.state.single.pendingEvents fun e _ d hd =>
      least d (mem_delays.2 (.inr ⟨e, hd⟩))
  refine pending.unbroken.run_bind fun passed' sound => ?_
  obtain ⟨due, g⟩ := passed'
  have noted : Held s entry { t with state := { t.state with global := g } } := h.withGlobal sound
  -- Whoever waits for a time goes on to do so, unless it heard of a notification.
  have passes : ∀ u : Transition, u.Held s entry → Spares { t with state := { t.state with global := g } } u →
      (∀ p ∈ s.procs, ∀ w, u.state.waitOf? p.index = some w → w = none ∨ ∃ w', t.state.waitOf? p.index = some w' ∧
        Blocker.timeout? w = Blocker.timeout? w') → Unbroken (fun r => r.Held s entry ∧ r.proc = none)
        (s.passProcesses passed u (s.processesWith t.state fun ps => isTime (timeoutOf ps))).result := by
    intro u held spares waits
    refine passProcesses_unbroken placed.apart.processesWith held (spares.proc.trans unowned) (fun p hp => ?_) placed
    obtain ⟨known, w', d, hw', hd⟩ := exists_timeout hp
    refine ⟨known, ?_, fun w hw => (waits p known w hw).imp_right fun before => ?_⟩
    · have resumes := resumes_of_timeout (framed_unowned h unowned) (fun ps timed => ?_) hp
      · exact Resumes.spared (t := { t with state := { t.state with global := g } }) resumes spares
      · cases hd : timeoutOf ps with
        | none => simp [hd, isTime] at timed
        | some d => rfl
    · obtain ⟨_, hw'', same⟩ := before
      obtain rfl := Option.some.inj (hw'.symm.trans hw'')
      exact ⟨d, same.trans hd, least d (mem_delays.2 (.inl ⟨p, known, w', hw', hd⟩))⟩
  split
  · exact passes _ noted (.refl _) fun p _ w hw => .inr ⟨w, hw, rfl⟩
  · have told : Unbroken (fun u => u.Held s entry ∧ Spares { t with state := { t.state with global := g } } u ∧
        ∀ p ∈ s.procs, u.state.waitOf? p.index = (t.state.waitOf? p.index).map (Blocker.hear due))
        (s.notifyProcesses { t with state := { t.state with global := g } } due
          (s.processesWith t.state waitsForEvents)).result := by
      refine (notifyProcesses_unbroken noted placed (fun p hp => (List.mem_filter.1 hp).1) (fun p _ => ?_)
        due).mono fun u hu held => ⟨held.1, held.2, fun p hp => ?_⟩
      · simp [unowned]
      · exact heard_waits hp (notifyProcesses_rewaits placed.apart.processesWith hu) rfl
    refine told.run_bind fun u hu => passes u hu.1 hu.2.1 fun p hp w hw => ?_
    rw [hu.2.2 p hp] at hw
    obtain ⟨w', hw', rfl⟩ := Option.map_eq_some_iff.1 hw
    exact (Blocker.timeout?_hear w' due).imp_right fun same => ⟨w', hw', same⟩

include h unowned placed in
/-- Advancing the simulation does not break. -/
theorem advanceTime_unbroken : Unbroken (fun r => r.Held s entry ∧ r.proc = none) (s.advanceTime t).result := by
  unfold advanceTime
  dsimp only
  split
  · exact .ok ⟨h, unowned⟩
  · split
    · split
      · rename_i d first
        refine letTimePass_unbroken h unowned placed fun d' hd' => ?_
        obtain ⟨d'', same, le⟩ := (s.earliest_least t.state).le d' hd'
        rw [first] at same
        obtain rfl : d = d'' := by simpa using same
        exact le
      · exact .ok ⟨h, unowned⟩
    · exact deltaCycle_unbroken h unowned placed _

end

end Simulator

end DeltaSlice

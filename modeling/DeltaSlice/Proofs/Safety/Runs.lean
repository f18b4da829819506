import DeltaSlice.Proofs.Safety.Evaluation
import DeltaSlice.Proofs.Worklist.ProcessStep

/-!
Runs of code do not break. All branches of a run have the same entry, so what was learned on alternative ways
to a point can be composed; what is composed fits as well as its parts.
-/

namespace DeltaSlice

open Transition

/-- A property of transitions from which what was learned fits, and to which it matters in no other way. Their
states may be changed. -/
structure Observer.Informs (o : Observer) (a : NodeId) (P : Transition → Prop) : Prop where
  fits : ∀ {t}, P t → o.Fits (some a) t.info
  learn : ∀ {t i}, P t → o.Fits (some a) i → P { t with info := i }
  unfrozen : ∀ {t}, P t → t.frozen = false

/-- All transitions of the queue have a property. -/
def Queue.All (P : Transition → Prop) (q : Queue) : Prop := ∀ e ∈ q.entries, P e.2

/-- What holds of the progress of a run: of its branches, and of what was learned on the way. -/
structure Worklist.Sound (o : Observer) (a : NodeId) (P Q : Transition → Prop) (w : Worklist) : Prop where
  pending : w.pending.All P
  ended : w.ended.All Q
  seen : ∀ k i, w.seen.get? k = some i → o.Fits (some a) i

section

variable {o : Observer} {a : NodeId} {P Q : Transition → Prop} {q : Queue} {w : Worklist} {t : Transition}

theorem Queue.composeAt_succeeds (informs : o.Informs a P) {key : String} {i : Info} (hi : o.Fits (some a) i)
    {l : List (String × Transition)} (hl : ∀ e ∈ l, P e.2) :
    Succeeds (fun l => ∀ e ∈ l, P e.2) (Queue.composeAt key i l) := by
  induction l with
  | nil => exact .ok hl
  | cons e l ih =>
      obtain ⟨he, hl⟩ := List.forall_mem_cons.1 hl
      unfold Queue.composeAt
      split
      · refine (Observer.compose_succeeds (informs.fits he) hi).map fun i fits => ?_
        exact List.forall_mem_cons.2 ⟨informs.learn he fits, hl⟩
      · exact (ih hl).map fun _ all => List.forall_mem_cons.2 ⟨he, all⟩

theorem Queue.All.add (informs : o.Informs a P) (hq : q.All P) (ht : P t) : Succeeds (Queue.All P) (q.add t) := by
  unfold Queue.add
  dsimp only
  split
  · exact (Queue.composeAt_succeeds informs (informs.fits ht) hq).map fun _ all => all
  · exact .ok fun e he => (List.mem_append.1 he).elim (hq e) fun he => List.mem_singleton.1 he ▸ ht

namespace Worklist

theorem start_succeeds (informs : o.Informs a P) (ht : P t) : Succeeds (Worklist.Sound o a P Q) (start t) := by
  have none : ∀ R, Queue.empty.All R := fun _ _ he => nomatch he
  exact ((none P).add informs ht).map fun _ pending => ⟨pending, none Q, fun _ _ hi => nomatch hi⟩

namespace Sound

theorem addPending (informs : o.Informs a P) (h : w.Sound o a P Q) (ht : P t) :
    Succeeds (Worklist.Sound o a P Q) (w.addPending t) :=
  (h.pending.add informs ht).map fun _ pending => ⟨pending, h.ended, h.seen⟩

theorem see (h : w.Sound o a P Q) (key : String) {i : Info} (hi : o.Fits (some a) i) :
    Worklist.Sound o a P Q { w with seen := w.seen.insert key i } := by
  refine ⟨h.pending, h.ended, fun k j hj => ?_⟩
  rw [Table.get?_insert] at hj
  split at hj
  · exact Option.some.inj hj ▸ hi
  · exact h.seen k j hj

theorem revisit (informs : o.Informs a P) (h : w.Sound o a P Q) (ht : P t) :
    Succeeds (Worklist.Sound o a P Q) (w.revisit t) := by
  unfold Worklist.revisit
  rw [copy_eq (informs.unfrozen ht)]
  dsimp only
  split
  · exact (h.see _ (informs.fits ht)).addPending informs ht
  · rename_i old hold
    obtain ⟨merged, hmerged, fits⟩ := Observer.compose_succeeds (h.seen _ old hold) (informs.fits ht)
    rw [hmerged]
    dsimp only
    split
    · exact .ok h
    · have learned := informs.learn ht fits
      rw [copy_eq (informs.unfrozen learned)]
      exact (h.see _ fits).addPending informs learned

theorem acceptAll (going : o.Informs a P) (gone : o.Informs a Q) (h : w.Sound o a P Q) {ends : Bool}
    (repeats : Bool) {ts : List Transition} (hts : ∀ t ∈ ts, if ends then Q t else P t) :
    Succeeds (Worklist.Sound o a P Q) (w.acceptAll ends repeats ts) := by
  induction ts generalizing w with
  | nil => exact .ok h
  | cons t ts ih =>
      obtain ⟨ht, hts⟩ := List.forall_mem_cons.1 hts
      have accepted : Succeeds (Worklist.Sound o a P Q) (w.accept ends repeats t) := by
        unfold Worklist.accept
        split
        · rename_i ends
          rw [if_pos ends] at ht
          exact (h.ended.add gone ht).map fun _ ended => ⟨h.pending, ended, h.seen⟩
        · rename_i goes
          rw [if_neg goes] at ht
          split
          · exact h.revisit going ht
          · exact h.addPending going ht
      obtain ⟨w', hw', sound⟩ := accepted
      unfold Worklist.acceptAll
      rw [hw']
      exact ih sound hts

end Sound

end Worklist

end

namespace Simulator

variable {s : Simulator} {a : NodeId} {t : Transition} {q : Option Process}

/-- A branch that goes on, and one that has ended, of the code of one process or of an update routine. -/
def Goes (s : Simulator) (a : NodeId) (q : Option Process) (t : Transition) : Prop :=
  t.Runs s (some a) ∧ t.Awake s.program.system ∧ t.proc = q

def Ended (s : Simulator) (a : NodeId) (q : Option Process) (t : Transition) : Prop :=
  t.Runs s (some a) ∧ t.state.Framed ∧ t.proc = q

theorem goes_informs : s.setup.observer.Informs a (s.Goes a q) where
  fits h := h.1.info
  learn h fits := ⟨⟨⟨h.1.state, h.1.proc, h.1.others, h.1.announced, fits, h.1.unfrozen⟩, h.1.origin⟩, h.2⟩
  unfrozen h := h.1.unfrozen

theorem ended_informs : s.setup.observer.Informs a (s.Ended a q) where
  fits h := h.1.info
  learn h fits := ⟨⟨⟨h.1.state, h.1.proc, h.1.others, h.1.announced, fits, h.1.unfrozen⟩, h.1.origin⟩, h.2⟩
  unfrozen h := h.1.unfrozen

/-- Whoever is in a sound frame has one to go on with. -/
theorem framed_of_awake (h : t.Runs s (some a)) (awake : t.Awake s.program.system) : t.state.Framed := by
  refine h.framed fun p ps hp hps => .inr fun empty => ?_
  obtain ⟨top, htop, -⟩ := awake
  have running : t.running? = some ps := by
    unfold running?
    rw [hp]
    exact hps
  unfold top? at htop
  rw [running, Option.bind_some, ProcessState.top?, empty] at htop
  cases htop

theorem worklistStep_unbroken (proper : s.Proper) {w : Worklist} {step : Step Worklist}
    (h : w.Sound s.setup.observer a (s.Goes a q) (s.Ended a q)) (hstep : s.worklistStep? w = some step) :
    Unbroken (Worklist.Sound s.setup.observer a (s.Goes a q) (s.Ended a q)) step.result := by
  unfold worklistStep? at hstep
  split at hstep
  · cases hstep
  · rename_i key t rest hentries
    obtain rfl := Option.some.inj hstep
    split
    · exact .failed
    · have first : s.Goes a q t := h.pending (key, t) (by rw [hentries]; exact List.mem_cons_self)
      have taken : Worklist.Sound s.setup.observer a (s.Goes a q) (s.Ended a q) { w with pending := ⟨rest⟩ } :=
        ⟨fun e he => h.pending e (by rw [hentries]; exact List.mem_cons_of_mem _ he), h.ended, h.seen⟩
      obtain ⟨runs, awake, proc⟩ := first
      have stepped : Unbroken (fun st => ∀ r ∈ st.results, if st.ends then s.Ended a q r else s.Goes a q r)
          (s.smallStep t).result := by
        refine (smallStep_unbroken proper runs awake).mono fun st hst sound r hr => ?_
        have same : r.proc = q := ((smallStep_stays hst).1 r hr).1.proc.trans proc
        obtain ⟨runs, awake | ⟨-, ends, framed⟩⟩ := sound r hr
        · split
          · exact ⟨runs, framed_of_awake runs awake, same⟩
          · exact ⟨runs, awake, same⟩
        · rw [if_pos ends]
          exact ⟨runs, framed, same⟩
      exact stepped.run_bind fun st hst => (taken.acceptAll goes_informs ended_informs st.repeats hst).unbroken

theorem drain_unbroken (proper : s.Proper) {w : Worklist} (fuel : Nat) (reports : List Report)
    (h : w.Sound s.setup.observer a (s.Goes a q) (s.Ended a q)) :
    Unbroken (Worklist.Sound s.setup.observer a (s.Goes a q) (s.Ended a q)) (s.drain fuel reports w).result := by
  induction fuel generalizing w reports with
  | zero => trivial
  | succ fuel ih =>
      unfold drain
      split
      · exact h
      · rename_i step hstep
        have unbroken := worklistStep_unbroken proper h hstep
        dsimp only
        split
        · rename_i w' hw'
          exact ih _ (unbroken.result hw')
        · rename_i halt hhalt
          rw [hhalt] at unbroken
          exact unbroken.mono fun _ none => by cases none

/-- Running code from a sound frame does not break, and leaves every process with a frame, or at its end. -/
theorem run_unbroken (proper : s.Proper) (h : t.Runs s (some a)) (awake : t.Awake s.program.system) :
    Unbroken (fun ts => ∀ r ∈ ts, s.Ended a t.proc r) (s.run t).result := by
  have started : Succeeds (Worklist.Sound s.setup.observer a (s.Goes a t.proc) (s.Ended a t.proc))
      (Worklist.start t) := Worklist.start_succeeds goes_informs ⟨h, awake, rfl⟩
  refine Unbroken.run_bind started.unbroken fun w hw => ?_
  refine (drain_unbroken proper s.fuel [] hw).run_bind fun w hw => .ok fun r hr => ?_
  obtain ⟨e, he, rfl⟩ := List.mem_map.1 hr
  exact hw.ended e he

/-- Code that starts in a sound frame runs on with an entry of its own. -/
theorem started_unbroken (h : t.Runs s none) (awake : t.Awake s.program.system) :
    Unbroken (fun i => ∃ a, Runs s (some a) { t with info := i }) (s.setup.observer.start s.program t).result := by
  obtain ⟨top, below, hframes⟩ := exists_frames_of_awake awake
  obtain ⟨ps, hps, hstack⟩ := frames_eq_cons.1 hframes
  obtain ⟨stack, resumes⟩ := ps.resumption?_isSome (by simp [hstack])
  have entry : t.entryOf? = some (.entry (StatementId.point t.origin stack).key) := by
    rw [entryOf?, hps, Option.bind_some, resumes, Option.map_some]
  exact (Observer.start_unbroken h.info entry h.origin).mono fun i _ fits =>
    ⟨_, ⟨h.state, h.proc, h.others, h.announced, fits, h.unfrozen⟩, h.origin⟩

/-- Completing transitions does not break. -/
theorem finalize_unbroken {ts : List Transition} {entry : Option NodeId}
    (h : ∀ t ∈ ts, s.setup.observer.Fits entry t.info) : Unbroken (fun _ => True) (s.finalize ts).result := by
  induction ts with
  | nil => trivial
  | cons t ts ih =>
      obtain ⟨ht, hts⟩ := List.forall_mem_cons.1 h
      exact (Observer.finalize_unbroken ht).run_bind fun _ _ => (ih hts).run_bind fun _ _ => trivial

end Simulator

end DeltaSlice

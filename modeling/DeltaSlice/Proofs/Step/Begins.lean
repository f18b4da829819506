import DeltaSlice.Proofs.Updates.Steps

/-!
Where code begins, and what it keeps. Code begins in the step of a process that is ready, or as an update routine
behind those that were requested earlier. What holds of the first state and is kept by small steps, by the
bookkeeping between two pieces of code and by the advance of the simulation holds of every state that can be
reached, and wherever code comes to.
-/

namespace DeltaSlice

namespace Simulator

/-- With `start`, code begins to run that leads on from a state that can be reached. -/
inductive Begins (s : Simulator) (first : State) : Transition → Prop
  | step {st : State} {ps : List Process} {p : Process} {start : Transition} : s.Reachable first st →
      s.ready st = .ok ps → p ∈ ps → s.begin? p st = .ok start → Begins s first start
  | update {st : State} {is us : List Instance} {i : Instance} {c : ClassDef} {f : Routine}
      {runs : List (Transition × Transition)} {t start : Transition} : s.Reachable first st → s.canEnd st = true →
      st.global.updates = is ++ i :: us → s.Updates is (s.beginEnd st) runs t →
      s.program.system.classOf? i = some c → c.routine? "update" = some f → s.beginUpdate? i f t = .ok start →
      Begins s first start

variable {s : Simulator} {first st : State} {start t u r : Transition} {is js : List Instance}
  {runs runs' : List (Transition × Transition)}

/-- One more update routine. -/
theorem Updates.append (h : s.Updates is t runs u) (h' : s.Updates js u runs' r) :
    s.Updates (is ++ js) t (runs ++ runs') r := by
  induction h with
  | nil => exact h'
  | cons hc hf hbegin hrun _ ih => exact .cons hc hf hbegin hrun (ih h')

/-- No process runs update routines. -/
theorem Updates.proc (h : s.Updates is t runs u) : u.proc = t.proc := by
  induction h with
  | nil => rfl
  | cons _ _ hbegin hrun _ ih =>
      obtain ⟨k, tells⟩ := exists_tells_of_run hrun
      obtain ⟨info, -, rfl⟩ := Success.map_iff.1 hbegin
      exact ih.trans tells.proc

theorem Updates.tidy (tidy : st.Tidy s) (h : s.Updates is (s.beginEnd st) runs u) : u.state.Tidy s := by
  have begun : (s.beginEnd st).state.Tidy s := ⟨tidy.peopled, tidy.idle, List.nodup_nil, tidy.single⟩
  obtain ⟨l, hl⟩ := exists_asksUpdates h rfl tidy.idle
  obtain ⟨stays, idle⟩ := hl.stays rfl tidy.idle
  exact stays.tidy begun idle

/-- The code of a process is that of one of the system. -/
theorem Begins.mem_procs (begins : s.Begins first start) {b : Bool} (h : s.Occurs start b t) {p : Process}
    (hp : t.proc = some p) : p ∈ s.procs := by
  obtain ⟨k, tells⟩ := exists_tells h
  rw [tells.proc] at hp
  cases begins with
  | step _ hps hq hbegin =>
      obtain ⟨own, -⟩ := begin?_start hbegin
      exact Option.some.inj (own.symm.trans hp) ▸ (ready_mem hps hq).1
  | update _ _ _ before _ _ hbegin =>
      obtain ⟨info, -, rfl⟩ := Success.map_iff.1 hbegin
      cases before.proc.symm.trans hp

/-- A property of states that holds at first, and that nothing takes away. -/
structure Invariant (s : Simulator) (first : State) (I : State → Prop) : Prop where
  start : I first
  clear {st : State} : I st → I { st with global := st.global.clearUpdates }
  update {st : State} {i : Instance} {c : ClassDef} {f : Routine} : s.program.system.classOf? i = some c →
    c.routine? "update" = some f → I st → I { st with update := some (.start none [.start f (.lit (.inst i))]) }
  done {st : State} : I st → I { st with update := none }
  step {start t r : Transition} {st : SmallStep} : s.Begins first start → s.Occurs start false t → I t.state →
    (s.smallStep t).result = .ok st → r ∈ st.results → I r.state
  advance {t r : Transition} : t.state.Tidy s → I t.state → (s.advanceTime t).result = .ok r → I r.state

namespace Invariant

variable {I : State → Prop} (inv : Invariant s first I)

include inv

theorem of_occurs (begins : s.Begins first start) (begun : I start.state) {b : Bool} (h : s.Occurs start b t) :
    I t.state := by
  induction h with
  | start => exact begun
  | step before hst hr ih => exact inv.step begins before ih hst hr
  | merge _ _ _ _ same iht ihu =>
      rcases same with rfl | rfl
      · exact iht
      · exact ihu

theorem of_runsTo (begins : s.Begins first start) (begun : I start.state) (h : s.RunsTo start u) : I u.state :=
  inv.of_occurs begins begun h.occurs

theorem of_beginUpdate {i : Instance} {c : ClassDef} {f : Routine} (hc : s.program.system.classOf? i = some c)
    (hf : c.routine? "update" = some f) (holds : I t.state) (begins : s.beginUpdate? i f t = .ok start) :
    I start.state := by
  obtain ⟨info, -, rfl⟩ := Success.map_iff.1 begins
  exact inv.update hc hf holds

/-- Update routines keep it, one after the other. -/
theorem of_updates {us : List Instance} (reached : s.Reachable first st) (ends : s.canEnd st = true)
    (all : st.global.updates = is ++ js ++ us) (before : s.Updates is (s.beginEnd st) runs t) (kept : I t.state)
    (h : s.Updates js t runs' u) : I u.state := by
  induction h generalizing is runs with
  | nil => exact kept
  | @cons i js c f t start e u runs' hc hf hbegin hrun _ ih =>
      have begins : s.Begins first start := .update reached ends (by simpa using all) before hc hf hbegin
      have ended := inv.of_runsTo begins (inv.of_beginUpdate hc hf kept hbegin) hrun
      exact ih (by simpa using all) (before.append (.cons hc hf hbegin hrun .nil)) (inv.done ended)

theorem reachable (placed : s.Placed) (initial : s.initial = .ok first) (h : s.Reachable first st) : I st := by
  induction h with
  | start => exact inv.start
  | @step st _ _ reached hfound ht ih =>
      rcases successors_mem hfound ht with ⟨ends, ts, hts, hr⟩ | ⟨ps, hps, p, hp, ts, hts, hr⟩
      · obtain ⟨runs, u, v, hupdates, hadvance, hfin⟩ := endEvaluation_cases hts hr
        have all : st.global.updates = [] ++ st.global.updates ++ [] := by simp
        have updated := inv.of_updates reached ends all .nil (inv.clear ih) hupdates
        exact hfin.1 ▸ inv.advance (hupdates.tidy (reached.tidy placed initial)) updated hadvance
      · obtain ⟨start, ended, hbegin, hrun, hfin⟩ := makeStep_cases hts
        obtain ⟨e, he, state, -⟩ := finalize_mem hfin hr
        obtain ⟨-, same⟩ := begin?_start hbegin
        exact state ▸ inv.of_runsTo (.step reached hps hp hbegin) (same ▸ ih) ⟨ended, hrun, he⟩

theorem begins (placed : s.Placed) (initial : s.initial = .ok first) (h : s.Begins first start) : I start.state := by
  cases h with
  | step reached _ _ hbegin =>
      obtain ⟨-, same⟩ := begin?_start hbegin
      exact same ▸ inv.reachable placed initial reached
  | @update st is us i c f runs t _ reached ends all before hc hf hbegin =>
      have cleared := inv.clear (inv.reachable placed initial reached)
      have served : st.global.updates = [] ++ is ++ i :: us := all
      exact inv.of_beginUpdate hc hf (inv.of_updates reached ends served .nil cleared before) hbegin

/-- It holds wherever code comes to. -/
theorem occurs (placed : s.Placed) (initial : s.initial = .ok first) (begins : s.Begins first start) {b : Bool}
    (h : s.Occurs start b t) : I t.state := inv.of_occurs begins (inv.begins placed initial begins) h

end Invariant

end Simulator

end DeltaSlice

import DeltaSlice.Proofs.Step.Frame

/-!
Small steps under different observers. The states that a small step leads to are the same for every
observer under which it succeeds. An observer of plain dependence graphs learns from the results of
a small step only, after it was made.
-/

namespace DeltaSlice

namespace Simulator

/-- The same simulation under another observer. -/
def observedBy (s : Simulator) (o : Observer) : Simulator :=
  { s with setup := { s.setup with observer := o } }

section

variable {s : Simulator} {o : Observer} {t t' r r' : Transition}

theorem notifyProcess_alike (h : Alike t t') {p : Process} {notified : List Event}
    (hr : (s.notifyProcess t p notified).result = .ok r)
    (hr' : ((s.observedBy o).notifyProcess t' p notified).result = .ok r') : Alike r r' := by
  have unchanged : (pure t : Step Transition).result = .ok r →
      (pure t' : Step Transition).result = .ok r' → Alike r r' := by
    intro hr hr'
    obtain rfl := Run.pure_result_iff.1 hr
    obtain rfl := Run.pure_result_iff.1 hr'
    exact h
  unfold notifyProcess at hr hr'
  rw [h.state] at hr
  cases hps : t'.state.procs[p.index]? with
  | none =>
      simp only [hps] at hr
      cases hr
  | some ps =>
      simp only [hps] at hr hr'
      cases hb : ps.blocker with
      | none =>
          simp only [hb] at hr hr'
          exact unchanged hr hr'
      | some b =>
          cases b with
          | terminated | delay _ =>
              simp only [hb] at hr hr'
              exact unchanged hr hr'
          | events before =>
              simp only [hb] at hr hr'
              split at hr
              · rename_i same
                rw [if_pos same] at hr'
                exact unchanged hr hr'
              · rename_i fewer
                rw [if_neg fewer] at hr'
                obtain ⟨i, -, hr⟩ := Run.bind_result_iff.1 hr
                obtain ⟨i', -, hr'⟩ := Run.bind_result_iff.1 hr'
                obtain rfl := Run.pure_result_iff.1 hr
                obtain rfl := Run.pure_result_iff.1 hr'
                exact ⟨h.proc, (h.follows.setProc _ _).state, h.read, h.written⟩

theorem notifyProcesses_alike {ps : List Process} {notified : List Event} (h : Alike t t')
    (hr : (s.notifyProcesses t notified ps).result = .ok r)
    (hr' : ((s.observedBy o).notifyProcesses t' notified ps).result = .ok r') : Alike r r' := by
  induction ps generalizing t t' with
  | nil =>
      obtain rfl := Run.pure_result_iff.1 hr
      obtain rfl := Run.pure_result_iff.1 hr'
      exact h
  | cons p ps ih =>
      obtain ⟨u, hu, hr⟩ := Run.bind_result_iff.1 hr
      obtain ⟨u', hu', hr'⟩ := Run.bind_result_iff.1 hr'
      exact ih (notifyProcess_alike h hu hu') hr hr'

theorem notify_alike (h : Alike t t') {e : Event} {delay : Option Delay}
    (hr : (s.notify t e delay).result = .ok r)
    (hr' : ((s.observedBy o).notify t' e delay).result = .ok r') : Alike r r' := by
  unfold notify at hr hr'
  have same : ((s.observedBy o).isHalted t'.state || !(s.observedBy o).setup.tracksEvent e) =
      (s.isHalted t.state || !s.setup.tracksEvent e) := by rw [h.state]; rfl
  rw [same] at hr'
  split at hr
  · rename_i idle
    rw [if_pos idle] at hr'
    obtain rfl := Run.pure_result_iff.1 hr
    obtain rfl := Run.pure_result_iff.1 hr'
    exact h
  · rename_i active
    rw [if_neg active] at hr'
    cases delay with
    | some d =>
        obtain rfl := Run.pure_result_iff.1 hr
        obtain rfl := Run.pure_result_iff.1 hr'
        exact (h.follows.mapGlobal _).alike
    | none =>
        have others : ((s.observedBy o).procs.filter fun p =>
            decide (some p.index ≠ t'.proc.map (·.index))) =
            s.procs.filter fun p => decide (some p.index ≠ t.proc.map (·.index)) := by
          rw [h.proc]; rfl
        simp only [others] at hr'
        exact notifyProcesses_alike (h.follows.mapGlobal _).alike hr hr'

/-- Announcing a small step leaves its accesses and conditions alone. -/
theorem announce_accesses (p : Program) {o : Observer} {e : Expr} {sc : Scratch}
    (h : (o.announce p t e).result = .ok sc) :
    sc.read = t.scratch.read ∧ sc.written = t.scratch.written ∧ sc.conditions = t.scratch.conditions := by
  induction o generalizing t sc with
  | none | readWrite _ =>
      obtain rfl := Run.pure_result_iff.1 h
      exact ⟨rfl, rfl, rfl⟩
  | pdg triggers =>
      simp only [Observer.announce, Run.result_of, Dependence.announce] at h
      split at h
      · split at h
        · cases h
        · split at h
          · split at h
            · obtain ⟨x, -, rfl⟩ := Success.map_iff.1 h
              split <;> exact ⟨rfl, rfl, rfl⟩
            · injection h with h
              subst h
              exact ⟨rfl, rfl, rfl⟩
          · injection h with h
            subst h
            exact ⟨rfl, rfl, rfl⟩
      · cases h
  | pair a b iha ihb =>
      obtain ⟨sc', h', h⟩ := Run.bind_result_iff.1 h
      have first := iha h'
      have second := ihb h
      exact ⟨second.1.trans first.1, second.2.1.trans first.2.1, second.2.2.trans first.2.2⟩
  | recording o ih =>
      obtain ⟨_, -, h⟩ := Run.bind_result_iff.1 h
      exact ih h

theorem agree_results {R : SmallStep → SmallStep → Prop} {x y : Except Halt SmallStep}
    {st st' : SmallStep} (h : Agree R x y) (hx : x = .ok st) (hy : y = .ok st') : R st st' := by
  subst hx hy
  cases h with
  | ok h => exact h

theorem notifyStep_alike (h : Alike t t') {top : Frame} {e target : Expr} {delays : List Expr}
    {st st' : SmallStep} (hst : (s.notifyStep t top e target delays).result = .ok st)
    (hst' : ((s.observedBy o).notifyStep t' top e target delays).result = .ok st') :
    Parallel Alike st st' := by
  unfold notifyStep at hst hst'
  simp only at hst hst'
  split at hst
  · rename_i early
    rw [if_pos early] at hst'
    obtain rfl := Run.pure_result_iff.1 hst
    obtain rfl := Run.pure_result_iff.1 hst'
    exact (Parallel.one (h.follows.enter _)).mono Follows.alike
  · rename_i late
    rw [if_neg late] at hst'
    split at hst
    · cases hst
    · rename_i ev hev
      simp only [hev] at hst'
      obtain ⟨delay, hdelay, hst⟩ := Run.bind_result_iff.1 hst
      obtain ⟨delay', hdelay', hst'⟩ := Run.bind_result_iff.1 hst'
      obtain rfl : delay = delay' := by
        rw [Run.result_of] at hdelay hdelay'
        rw [hdelay] at hdelay'
        injection hdelay'
      obtain ⟨u, hu, hst⟩ := Run.bind_result_iff.1 hst
      obtain ⟨u', hu', hst'⟩ := Run.bind_result_iff.1 hst'
      obtain rfl := Run.pure_result_iff.1 hst
      obtain rfl := Run.pure_result_iff.1 hst'
      have := notify_alike h hu hu'
      exact (Parallel.one (this.follows.finish _ _)).mono Follows.alike

theorem bindParams_observedBy (stack : List Routine) (ds : List Decl) (xs : List Value) :
    (s.observedBy o).bindParams stack t ds xs = s.bindParams stack t ds xs := by
  induction ds generalizing t xs with
  | nil => cases xs <;> rfl
  | cons d ds ih =>
      cases xs with
      | nil => exact ih []
      | cons x xs => exact ih xs

theorem callStep_observedBy (ps : ProcessState) (top : Frame) (e : Expr) (f : Routine)
    (arity : Nat) : (s.observedBy o).callStep t ps top e f arity = s.callStep t ps top e f arity := by
  unfold callStep
  simp only [bindParams_observedBy]
  rfl

/-- A small step on an expression other than a notification does not ask the observer. -/
theorem exprStep_parallel (h : Follows t t' t t') {ps : ProcessState} {top : Frame} {e : Expr}
    (quiet : ∀ id target delays, e ≠ .notify id target delays) {st st' : SmallStep}
    (hst : (s.exprStep t ps top e).result = .ok st)
    (hst' : ((s.observedBy o).exprStep t' ps top e).result = .ok st') :
    Parallel (Follows t t') st st' := by
  have given : ∀ {x y : SmallStep}, Parallel (Follows t t') x y →
      (pure x : Step SmallStep).result = .ok st → (pure y : Step SmallStep).result = .ok st' →
      Parallel (Follows t t') st st' := by
    intro x y hx h1 h2
    obtain rfl := Run.pure_result_iff.1 h1
    obtain rfl := Run.pure_result_iff.1 h2
    exact hx
  unfold exprStep at hst hst'
  cases e with
  | const id l =>
      simp only at hst hst'
      split at hst
      · cases hst
      · rename_i usable
        rw [if_neg (by simpa [observedBy] using usable)] at hst'
        exact given (.one (h.finish _ _)) hst hst'
  | event id name => exact given (.one (h.finish _ _)) hst hst'
  | var id d =>
      have := s.readVariable_parallel h ps top d
      refine given (y := .one (some (.var id d)) top.comingFrom
        ((s.readVariable t' ps top d).2.finish s.program.system (s.readVariable t' ps top d).1))
        ?_ hst hst'
      rw [← this.1]
      exact .one (this.2.finish _ _)
  | unary id op x | binary id op x y | access id x y | bracket id x | block id l | empty id =>
      exact agree_results (s.aggregateStep_parallel h top _) hst hst'
  | branch id c yes no => exact given (s.branchStep_parallel h top _ yes no) hst hst'
  | whileLoop id l c body => exact given (s.loopStep_parallel h top _ body true) hst hst'
  | doLoop id l c body => exact given (s.loopStep_parallel h top _ body false) hst hst'
  | forLoop id l i c p body => exact given (s.forStep_parallel h top _ body) hst hst'
  | switch id l tag cases => exact given (s.switchStep_parallel h top _ cases) hst hst'
  | arm id value body => exact given (s.armStep_parallel h top _ value body) hst hst'
  | exit id label => exact agree_results (s.exitStep_parallel h top _ label) hst hst'
  | next id label => exact agree_results (s.nextStep_parallel h top _ label) hst hst'
  | ret id value =>
      simp only at hst hst'
      split at hst
      · rename_i early
        rw [if_pos early] at hst'
        exact given (.one (h.enter _)) hst hst'
      · rename_i late
        rw [if_neg late] at hst'
        exact given (s.returnFrom_parallel h _ _ _) hst hst'
  | notify id target delays => exact absurd rfl (quiet id target delays)
  | stop id => exact given (.one ((h.finish _ _).stop s)) hst hst'
  | call id f args =>
      have hst' : s.callStep t' ps top (.call id f args) f args.length = .ok st' := by
        rw [← callStep_observedBy (o := o)]
        exact hst'
      exact agree_results (s.callStep_parallel h ps top _ f args.length) hst hst'

theorem exprStep_alike (h : Alike t t') {ps : ProcessState} {top : Frame} {e : Expr}
    {st st' : SmallStep} (hst : (s.exprStep t ps top e).result = .ok st)
    (hst' : ((s.observedBy o).exprStep t' ps top e).result = .ok st') :
    Parallel Alike st st' := by
  by_cases quiet : ∀ id target delays, e ≠ .notify id target delays
  · exact (exprStep_parallel h.follows quiet hst hst').mono Follows.alike
  · simp only [ne_eq, not_forall, not_not] at quiet
    obtain ⟨id, target, delays, rfl⟩ := quiet
    exact notifyStep_alike h hst hst'

/-- Telling the observer changes neither the states nor the accesses. -/
theorem observeResults_alike {ts rs : List Transition} {e : Option Expr} {i : Int}
    (h : (s.observeResults e i ts).result = .ok rs) : List.Forall₂ Alike ts rs := by
  induction ts generalizing rs with
  | nil =>
      obtain rfl := Run.pure_result_iff.1 h
      exact .nil
  | cons t ts ih =>
      obtain ⟨info, -, h⟩ := Run.bind_result_iff.1 h
      obtain ⟨rest, hrest, h⟩ := Run.bind_result_iff.1 h
      obtain rfl := Run.pure_result_iff.1 h
      exact .cons ⟨rfl, rfl, rfl, rfl⟩ (ih hrest)

/-- The parts of a small step. -/
theorem smallStep_cases {st : SmallStep} (h : (s.smallStep t).result = .ok st) :
    ∃ st₀ rs, (s.advance t.resetAccesses).result = .ok st₀ ∧
      (s.observeResults st₀.expr st₀.comingFrom st₀.results).result = .ok rs ∧
      st = { st₀ with results := rs } := by
  unfold smallStep at h
  split at h
  · cases h
  · obtain ⟨st₀, hst₀, h⟩ := Run.bind_result_iff.1 h
    obtain ⟨st₁, checked, h⟩ := Run.bind_result_iff.1 h
    obtain rfl := (SmallStep.checked_iff.1 (Run.ofFault_result_iff.1 checked)).1
    obtain ⟨rs, hrs, h⟩ := Run.bind_result_iff.1 h
    exact ⟨st₀, rs, hst₀, hrs, (Run.pure_result_iff.1 h).symm⟩

/-- A step on a body, or a step on an expression after it was announced. -/
theorem advance_cases {st : SmallStep} (hst : (s.advance t).result = .ok st) :
    ∃ ps top, t.running? = some ps ∧ t.top? = some top ∧ ((top.path = [] ∧ st = s.bodyStep t top) ∨
      ∃ i up e sc, top.path = i :: up ∧ s.program.at? top.location = some e ∧
        (s.setup.observer.announce s.program t e).result = .ok sc ∧
        (s.exprStep { t with scratch := sc } ps top e).result = .ok st) := by
  unfold advance at hst
  split at hst
  · rename_i ps top running htop
    refine ⟨ps, top, running, htop, ?_⟩
    split at hst
    · rename_i hpath
      exact .inl ⟨hpath, (Run.pure_result_iff.1 hst).symm⟩
    · rename_i i up hpath
      split at hst
      · cases hst
      · rename_i e hexpr
        obtain ⟨sc, hsc, hst⟩ := Run.bind_result_iff.1 hst
        exact .inr ⟨i, up, e, sc, hpath, hexpr, hsc, hst⟩
  · cases hst

theorem advance_alike (h : Alike t t') {st st' : SmallStep} (hst : (s.advance t).result = .ok st)
    (hst' : ((s.observedBy o).advance t').result = .ok st') : Parallel Alike st st' := by
  unfold advance at hst hst'
  rw [h.follows.running?, h.follows.top?] at hst
  cases hps : t'.running? with
  | none =>
      simp only [hps] at hst
      cases hst
  | some ps =>
      cases htop : t'.top? with
      | none =>
          simp only [hps, htop] at hst
          cases hst
      | some top =>
          simp only [hps, htop] at hst hst'
          cases hpath : top.path with
          | nil =>
              simp only [hpath] at hst hst'
              obtain rfl := Run.pure_result_iff.1 hst
              obtain rfl := Run.pure_result_iff.1 hst'
              exact (s.bodyStep_parallel h.follows top).mono Follows.alike
          | cons i up =>
              simp only [hpath] at hst hst'
              cases hexpr : s.program.at? top.location with
              | none =>
                  simp only [hexpr] at hst
                  cases hst
              | some e =>
                  have hexpr' : (s.observedBy o).program.at? top.location = some e := hexpr
                  simp only [hexpr] at hst
                  simp only [hexpr'] at hst'
                  obtain ⟨sc, hsc, hst⟩ := Run.bind_result_iff.1 hst
                  obtain ⟨sc', hsc', hst'⟩ := Run.bind_result_iff.1 hst'
                  have hacc := announce_accesses _ hsc
                  have hacc' := announce_accesses _ hsc'
                  have same : Alike { t with scratch := sc } { t' with scratch := sc' } :=
                    ⟨h.proc, h.state, (hacc.1.trans h.read).trans hacc'.1.symm,
                      (hacc.2.1.trans h.written).trans hacc'.2.1.symm⟩
                  exact exprStep_alike same hst hst'

/-- Small steps from the same state lead to the same states, whoever observes them. -/
theorem smallStep_alike (proc : t.proc = t'.proc) (state : t.state = t'.state) {st st' : SmallStep}
    (hst : (s.smallStep t).result = .ok st)
    (hst' : ((s.observedBy o).smallStep t').result = .ok st') : Parallel Alike st st' := by
  obtain ⟨st₀, rs, hadv, hobs, rfl⟩ := smallStep_cases hst
  obtain ⟨st₀', rs', hadv', hobs', rfl⟩ := smallStep_cases hst'
  have start : Alike t.resetAccesses t'.resetAccesses := ⟨proc, state, rfl, rfl⟩
  have main := advance_alike start hadv hadv'
  refine ⟨main.expr, main.comingFrom, main.ends, main.repeats, ?_⟩
  have left := (observeResults_alike hobs).flip
  have right := observeResults_alike hobs'
  have through : ∀ {xs ys zs ws : List Transition}, List.Forall₂ (flip Alike) xs ys →
      List.Forall₂ Alike ys zs → List.Forall₂ Alike zs ws → List.Forall₂ Alike xs ws := by
    intro xs ys zs ws h1
    induction h1 generalizing zs ws with
    | nil =>
        intro h2 h3
        cases h2
        cases h3
        exact .nil
    | cons hx _ ih =>
        intro h2 h3
        cases h2 with
        | cons hy h2 =>
            cases h3 with
            | cons hz h3 =>
                refine .cons ⟨?_, ?_, ?_, ?_⟩ (ih h2 h3)
                · exact (hx.proc.symm.trans hy.proc).trans hz.proc
                · exact (hx.state.symm.trans hy.state).trans hz.state
                · exact (hx.read.symm.trans hy.read).trans hz.read
                · exact (hx.written.symm.trans hy.written).trans hz.written
  exact through left main.results right

end

end Simulator

end DeltaSlice

/-!
Observers that learn from the results of small steps only. Under such an observer the evaluation of
code leaves what was learned alone, also where it wakes other processes.
-/

namespace DeltaSlice

/-- The observer learns nothing from processes that are woken. -/
def Observer.Silent (o : Observer) : Prop :=
  ∀ t p events before, o.waitedForEvents t p events before = pure t.info

theorem Observer.silent_pdg : (Observer.pdg false).Silent := fun _ _ _ _ => rfl

theorem Observer.silent_readWrite (track : Variable → Bool) : (Observer.readWrite track).Silent :=
  fun _ _ _ _ => rfl

namespace Simulator

variable {s : Simulator} {t r : Transition}

theorem Notifies.keeps (silent : s.setup.observer.Silent) {p : Process} {notified : List Event}
    (h : s.Notifies t p notified r) : Keeps t r := by
  cases h with
  | deaf => exact .refl t
  | hears found waits learned =>
      obtain rfl := Run.pure_result_iff.1 ((silent _ _ _ _) ▸ learned)
      exact ⟨rfl, rfl, rfl, rfl, rfl, rfl⟩

theorem notifyProcesses_keeps (silent : s.setup.observer.Silent) {ps : List Process}
    {notified : List Event} (hr : (s.notifyProcesses t notified ps).result = .ok r) : Keeps t r :=
  notifyProcesses_induction (fun kept told => kept.trans (told.keeps silent)) (.refl t) hr

theorem notify_keeps (silent : s.setup.observer.Silent) {e : Event} {delay : Option Delay}
    (hr : (s.notify t e delay).result = .ok r) : Keeps t r :=
  notify_induction (fun kept told => kept.trans (told.keeps silent)) (.refl t)
    (fun _ => ⟨rfl, rfl, rfl, rfl, rfl, rfl⟩) hr

theorem notifyStep_keeps (silent : s.setup.observer.Silent) {top : Frame} {e target : Expr}
    {delays : List Expr} {st : SmallStep}
    (hst : (s.notifyStep t top e target delays).result = .ok st) (hr : r ∈ st.results) :
    Keeps t r := by
  obtain ⟨-, rfl⟩ | ⟨-, _, _, u, -, -, hu, rfl⟩ := notifyStep_cases hst
  · obtain rfl := List.mem_singleton.1 hr
    exact (Keeps.refl t).mapRunning _
  · obtain rfl := List.mem_singleton.1 hr
    exact (notify_keeps silent hu).editRunning _

/-- Apart from notifications, evaluating code teaches no observer anything before it is told of the results. -/
theorem exprStep_keeps_quiet {ps : ProcessState} {top : Frame} {e : Expr} {st : SmallStep}
    (quiet : ∀ id target delays, e ≠ .notify id target delays)
    (hst : (s.exprStep t ps top e).result = .ok st) (hr : r ∈ st.results) : Keeps t r := by
  have same := exprStep_parallel (o := s.setup.observer) (Follows.refl t) quiet hst hst
  obtain ⟨r', -, hfollows⟩ := same.exists_result hr
  exact hfollows.left

theorem bodyStep_keeps {top : Frame} (hr : r ∈ (s.bodyStep t top).results) : Keeps t r := by
  obtain ⟨r', -, hfollows⟩ := (s.bodyStep_parallel (Follows.refl t) top).exists_result hr
  exact hfollows.left

/-- Evaluating code teaches the observer nothing before it is told of the results. -/
theorem exprStep_keeps (silent : s.setup.observer.Silent) {ps : ProcessState} {top : Frame}
    {e : Expr} {st : SmallStep} (hst : (s.exprStep t ps top e).result = .ok st)
    (hr : r ∈ st.results) : Keeps t r := by
  by_cases quiet : ∀ id target delays, e ≠ .notify id target delays
  · exact exprStep_keeps_quiet quiet hst hr
  · simp only [ne_eq, not_forall, not_not] at quiet
    obtain ⟨id, target, delays, rfl⟩ := quiet
    exact notifyStep_keeps silent hst hr

/-- The results of a step keep what was learned, and the stack that was announced for it. -/
theorem advance_keeps (silent : s.setup.observer.Silent) {st : SmallStep}
    (hst : (s.advance t).result = .ok st) (hr : r ∈ st.results) :
    r.info = t.info ∧ r.proc = t.proc ∧ r.origin = t.origin := by
  unfold advance at hst
  cases hps : t.running? with
  | none =>
      simp only [hps] at hst
      cases hst
  | some ps =>
      cases htop : t.top? with
      | none =>
          simp only [hps, htop] at hst
          cases hst
      | some top =>
          simp only [hps, htop] at hst
          cases hpath : top.path with
          | nil =>
              simp only [hpath] at hst
              obtain rfl := Run.pure_result_iff.1 hst
              have keeps := bodyStep_keeps hr
              exact ⟨keeps.info, keeps.proc, keeps.origin⟩
          | cons i up =>
              simp only [hpath] at hst
              cases hexpr : s.program.at? top.location with
              | none =>
                  simp only [hexpr] at hst
                  cases hst
              | some e =>
                  simp only [hexpr] at hst
                  obtain ⟨sc, -, hst⟩ := Run.bind_result_iff.1 hst
                  have keeps := exprStep_keeps silent hst hr
                  exact ⟨keeps.info, keeps.proc, keeps.origin⟩

theorem observeResults_mem {ts rs : List Transition} {e : Option Expr} {i : Int}
    (h : (s.observeResults e i ts).result = .ok rs) (hr : r ∈ rs) :
    ∃ t ∈ ts, (s.setup.observer.evaluated s.program t e i).result = .ok r.info ∧
      r = { t with info := r.info, scratch := { t.scratch with event := none } } := by
  induction ts generalizing rs with
  | nil =>
      obtain rfl := Run.pure_result_iff.1 h
      cases hr
  | cons t ts ih =>
      obtain ⟨info, hinfo, h⟩ := Run.bind_result_iff.1 h
      obtain ⟨rest, hrest, h⟩ := Run.bind_result_iff.1 h
      obtain rfl := Run.pure_result_iff.1 h
      cases List.mem_cons.1 hr with
      | inl hr =>
          subst hr
          exact ⟨t, by simp, hinfo, rfl⟩
      | inr hr =>
          obtain ⟨u, hu, heval, heq⟩ := ih hrest hr
          exact ⟨u, by simp [hu], heval, heq⟩

/-- A result of a small step was learned from one that the code came to. -/
theorem smallStep_mem {st : SmallStep} (hst : (s.smallStep t).result = .ok st) (hr : r ∈ st.results) :
    ∃ st₀ rs u, (s.advance t.resetAccesses).result = .ok st₀ ∧ u ∈ st₀.results ∧
      (s.setup.observer.evaluated s.program u st₀.expr st₀.comingFrom).result = .ok r.info ∧
      r = { u with info := r.info, scratch := { u.scratch with event := none } } ∧
      st = { st₀ with results := rs } := by
  obtain ⟨st₀, rs, hadv, hobs, rfl⟩ := smallStep_cases hst
  obtain ⟨u, hu, learned, same⟩ := observeResults_mem hobs hr
  exact ⟨st₀, rs, u, hadv, hu, learned, same, rfl⟩

/-- A notification leaves the scratch and the lock alone. -/
theorem notify_scratch {e : Event} {delay : Option Delay} (hr : (s.notify t e delay).result = .ok r) :
    r.scratch = t.scratch ∧ r.frozen = t.frozen := by
  refine notify_induction (P := fun r => r.scratch = t.scratch ∧ r.frozen = t.frozen) ?_ ⟨rfl, rfl⟩
    (fun _ => ⟨rfl, rfl⟩) hr
  intro u v p kept told
  cases told <;> exact kept

/-- A step on an expression keeps the stack that was announced for it, and the lock. -/
theorem exprStep_announced {ps : ProcessState} {top : Frame} {e : Expr} {st : SmallStep}
    (hst : (s.exprStep t ps top e).result = .ok st) (hr : r ∈ st.results) :
    r.scratch.announced = t.scratch.announced ∧ r.frozen = t.frozen := by
  by_cases quiet : ∀ id target delays, e ≠ .notify id target delays
  · have keeps := exprStep_keeps_quiet quiet hst hr
    exact ⟨keeps.announced, keeps.frozen⟩
  · simp only [ne_eq, not_forall, not_not] at quiet
    obtain ⟨id, target, delays, rfl⟩ := quiet
    change (s.notifyStep t top _ target delays).result = .ok st at hst
    obtain ⟨-, rfl⟩ | ⟨-, _, _, u, -, -, hu, rfl⟩ := notifyStep_cases hst
    · obtain rfl := List.mem_singleton.1 hr
      have keeps := (Keeps.refl t).mapRunning (·.mapTop (·.enter (top.comingFrom + 1)))
      exact ⟨keeps.announced, keeps.frozen⟩
    · obtain rfl := List.mem_singleton.1 hr
      obtain ⟨scratch, frozen⟩ := notify_scratch hu
      have keeps := (Keeps.refl u).editRunning (ProcessState.editTop (s.program.system.editFinish .unknown))
      exact ⟨keeps.announced.trans (congrArg Scratch.announced scratch), keeps.frozen.trans frozen⟩

theorem advance_frozen {st : SmallStep} (hst : (s.advance t).result = .ok st) (hr : r ∈ st.results) :
    r.frozen = t.frozen := by
  obtain ⟨ps, top, -, -, ⟨-, rfl⟩ | ⟨i, up, e, sc, -, -, -, hst⟩⟩ := advance_cases hst
  · exact (bodyStep_keeps hr).frozen
  · exact (exprStep_announced (t := { t with scratch := sc }) hst hr).2

/-- Small steps start from transitions that may be changed, and so do their results. Nothing broke on
the way. -/
theorem smallStep_unfrozen {st : SmallStep} (hst : (s.smallStep t).result = .ok st) :
    t.frozen = false ∧ ∀ r ∈ st.results, r.frozen = false ∧ r.fault = none := by
  unfold smallStep at hst
  split at hst
  · cases hst
  · rename_i closed
    have unfrozen : t.frozen = false := Bool.eq_false_iff.2 closed
    obtain ⟨st₀, hst₀, hst⟩ := Run.bind_result_iff.1 hst
    obtain ⟨st₁, checked, hst⟩ := Run.bind_result_iff.1 hst
    obtain ⟨rfl, sound⟩ := SmallStep.checked_iff.1 (Run.ofFault_result_iff.1 checked)
    obtain ⟨rs, hrs, hst⟩ := Run.bind_result_iff.1 hst
    obtain rfl := Run.pure_result_iff.1 hst
    refine ⟨unfrozen, fun r hr => ?_⟩
    obtain ⟨u, hu, -, same⟩ := observeResults_mem hrs hr
    rw [same]
    exact ⟨(advance_frozen hst₀ hu).trans unfrozen, sound u hu⟩

end Simulator

end DeltaSlice

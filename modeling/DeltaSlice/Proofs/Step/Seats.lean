import DeltaSlice.Proofs.Step.Begins
import DeltaSlice.Proofs.Step.Shifts
import DeltaSlice.Proofs.Triggers.Resumptions

/-!
Where the frames of code stand. In every state that can be reached, a frame is at code that exists, next to one
of its children or behind the arguments of a call, and all but the innermost wait for the result of a call. This
holds of any system, for what frames hold does not matter.
-/

namespace DeltaSlice

open Transition

/-- The frame is at code that exists, next to a child or behind the arguments of a call, and has a list of
results for every level. -/
structure Frame.Seated (sys : System) (f : Frame) : Prop where
  levels : f.levels.length = f.path.length + 1
  scope : ∃ es, sys.scope? f.location = some es ∧ -1 ≤ f.comingFrom ∧ (f.comingFrom < es.length ∨
    f.comingFrom = es.length ∧ ∃ id r args, sys.at? f.location = some (.call id r args))

namespace Frame.Seated

variable {sys : System} {f : Frame} {e : Expr} {es : List Expr} {i j : Int}

theorem start (r : Routine) (x : Value) : (Frame.start r x).Seated sys where
  levels := rfl
  scope := ⟨_, System.scope?_nil, Int.le_refl _, .inl (by simp [Frame.start]; omega)⟩

/-- The bounds of the child from which evaluation comes back, at an expression other than a call. -/
theorem bounds (h : f.Seated sys) (he : sys.at? f.location = some e) (other : e.isCall = false) :
    -1 ≤ f.comingFrom ∧ f.comingFrom < e.children.length := by
  obtain ⟨es, hes, low, high⟩ := h.scope
  obtain rfl : e.children = es := Option.some.inj ((System.scope?_of_at? he).symm.trans hes)
  refine ⟨low, high.resolve_right ?_⟩
  rintro ⟨-, id, r, args, hcall⟩
  obtain rfl := Option.some.inj (he.symm.trans hcall)
  cases other

theorem enter (h : f.Seated sys) (hes : sys.scope? f.location = some es) (low : 0 ≤ i) (high : i < es.length) :
    (f.enter i).Seated sys where
  levels := congrArg (· + 1) h.levels
  scope := by
    have lt : i.toNat < es.length := by omega
    have he : elementAt? es i = some es[i.toNat] := by
      rw [elementAt?, if_neg (by omega), List.getElem?_eq_getElem lt]
    exact ⟨_, (System.scope?_cons hes he).2, Int.le_refl _, .inl (by simp [Frame.enter]; omega)⟩

/-- Back to an expression above. -/
theorem back (h : f.Seated sys) (n : Nat) (inside : n ≤ f.path.length)
    (hes : sys.scope? (f.pop n).location = some es) (low : -1 ≤ j) (high : j < es.length) :
    Frame.Seated sys { f.pop n with comingFrom := j } where
  levels := by
    have levels := h.levels
    simp only [Frame.pop, path, List.length_drop] at levels inside ⊢
    omega
  scope := ⟨es, hes, low, .inl high⟩

theorem put (h : f.Seated sys) (i : Int) (x : Option Value) : (f.put i x).Seated sys where
  levels := by
    rw [Frame.path, put_location]
    refine Eq.trans ?_ h.levels
    unfold Frame.put
    split
    · rename_i levels
      simp [levels]
    · rfl
  scope := by
    rw [put_location, put_comingFrom]
    exact h.scope

/-- A frame comes from a child, unless it is behind the arguments of a call. -/
theorem comes_from (h : f.Seated sys) {o : Option Expr} (hes : sys.scope? f.location = some es)
    (body : o = none → f.path = []) (here : ∀ x, o = some x → sys.at? f.location = some x)
    (calls : ∀ x, o = some x → x.isCall = true → f.comingFrom < es.length) :
    -1 ≤ f.comingFrom ∧ f.comingFrom < es.length := by
  obtain ⟨es', hes', low, high⟩ := h.scope
  obtain rfl := Option.some.inj (hes.symm.trans hes')
  refine ⟨low, high.elim id ?_⟩
  rintro ⟨-, id, r, args, hcall⟩
  cases o with
  | none =>
      obtain ⟨i, up, path⟩ := index_of_at? hcall
      cases (body rfl).symm.trans path
  | some x =>
      obtain rfl := Option.some.inj ((here x rfl).symm.trans hcall)
      exact calls _ rfl rfl

/-- Leaving an expression for the one above. -/
theorem finish (h : f.Seated sys) (inside : f.path ≠ []) (x : Value) : (sys.finish x f).Seated sys := by
  obtain ⟨es, hes, -, -⟩ := h.scope
  unfold System.finish leave
  cases hpath : f.path with
  | nil => exact absurd hpath inside
  | cons i up =>
      have here : f.location = ⟨f.location.routine, i :: up⟩ := location_of_path hpath
      rw [here] at hes
      obtain ⟨above, e, habove, he, -, -⟩ := System.scope?_cases hes
      have outer : (f.pop 1).location = ⟨f.location.routine, up⟩ := by simp [Frame.pop, hpath]
      obtain ⟨low, high⟩ := elementAt?_lt he
      have popped := h.back 1 (by simp [hpath]) (outer ▸ habove) (by omega) high
      dsimp only
      split
      · exact popped.put _ _
      · exact popped

/-- The caller goes on behind the arguments. -/
theorem «return» (h : f.Seated sys) (calls : f.Calls sys) (x : Option Value) :
    Frame.Seated sys ({ f with comingFrom := f.comingFrom + 1 }.put (f.comingFrom + 1) x) := by
  obtain ⟨id, r, args, hcall, arity⟩ := calls
  have behind : f.comingFrom + 1 = (Expr.call id r args).children.length := by
    simp only [Expr.children]
    omega
  have next : Frame.Seated sys { f with comingFrom := f.comingFrom + 1 } :=
    ⟨h.levels, _, System.scope?_of_at? hcall, by dsimp only; omega, .inr ⟨behind, id, r, args, hcall⟩⟩
  exact next.put _ _

end Frame.Seated

/-- All frames have one property, and all but the first, which wait, have another one. -/
structure Stacked (P Waits : Frame → Prop) (fs : List Frame) : Prop where
  frames : ∀ f ∈ fs, P f
  callers : ∀ f ∈ fs.tail, Waits f

namespace Stacked

variable {P Waits : Frame → Prop} {top f : Frame} {below : List Frame}

theorem nil : Stacked P Waits [] := ⟨by simp, by simp⟩

theorem single (h : P top) : Stacked P Waits [top] := ⟨by simpa using h, by simp⟩

theorem first (h : Stacked P Waits (top :: below)) : P top := h.frames _ List.mem_cons_self

theorem replace (h : Stacked P Waits (top :: below)) (hf : P f) : Stacked P Waits (f :: below) :=
  ⟨List.forall_mem_cons.2 ⟨hf, (List.forall_mem_cons.1 h.frames).2⟩, h.callers⟩

theorem push (h : Stacked P Waits (top :: below)) (waits : Waits top) (hf : P f) :
    Stacked P Waits (f :: top :: below) :=
  ⟨List.forall_mem_cons.2 ⟨hf, h.frames⟩, List.forall_mem_cons.2 ⟨waits, h.callers⟩⟩

theorem pop (h : Stacked P Waits (top :: below)) : Stacked P Waits below :=
  ⟨(List.forall_mem_cons.1 h.frames).2, fun f hf => h.callers f (List.mem_of_mem_tail hf)⟩

end Stacked

/-- The frames are at code that exists, and all but the first wait for the result of a call. -/
abbrev Seated (sys : System) : List Frame → Prop := Stacked (Frame.Seated sys) (Frame.Calls sys)

namespace Simulator

section Code

variable {s : Simulator} {t : Transition} {ps : ProcessState} {top : Frame} {below fs : List Frame}
  {e : Option Expr} {b : Bool} {es : List Expr}

/-- Frames that shift stay at code that exists. -/
theorem Shifts.seated (h : s.Shifts t ps top below e es.length b fs) (seated : Seated s.program.system (top :: below))
    (body : e = none → top.path = []) (here : ∀ x, e = some x → s.program.system.at? top.location = some x)
    (hes : s.program.system.scope? top.location = some es) : Seated s.program.system fs := by
  cases h with
  | enter j calls ahead =>
      obtain ⟨low, high⟩ := seated.first.comes_from hes body here calls
      obtain ⟨low, high, -⟩ := ahead low high
      exact seated.replace (seated.first.enter hes low high)
  | finish same left =>
      obtain ⟨i, up, path⟩ := Frame.index_of_at? (here _ same)
      exact seated.replace (seated.first.finish (by simp [path]) _)
  | @exit id label levels target j same htarget hj =>
      obtain ⟨up, within, -, drop, found⟩ := System.target?_index htarget hj
      have outer : (top.pop (levels + 1)).location = ⟨top.location.routine, up⟩ := by rw [Frame.pop, drop]
      obtain ⟨above, habove, hj'⟩ := Option.bind_eq_some_iff.1 found
      have habove : s.program.system.scope? ⟨top.location.routine, up⟩ = some above := habove
      obtain ⟨low, high⟩ := elementAt?_lt hj'
      exact seated.replace ((seated.first.back (levels + 1) within (outer ▸ habove) (by omega) high).put _ _)
  | @next id label levels target j same htarget last =>
      obtain ⟨i, up, within, drop, found, loop⟩ := System.target?_tail htarget
      have here : (top.pop levels).location = ⟨top.location.routine, i :: up⟩ := by rw [Frame.pop, drop]
      refine seated.replace (seated.first.back levels (by omega) (here ▸ System.scope?_of_at? found) ?_ ?_)
      · subst last
        unfold roundEnd
        split <;> omega
      · subst last
        cases target <;> simp [Expr.isTarget, Expr.children, roundEnd] at loop ⊢
  | @call id m args receiver same last hreceiver =>
      exact seated.push ⟨id, .member m, args, here _ same, last⟩ (.start _ _)
  | returns same returned =>
      cases returned with
      | @back caller rest v same hv =>
          subst same
          exact seated.pop.replace (seated.pop.first.return (seated.callers _ List.mem_cons_self) _)
      | ends same ended =>
          rcases ended with rfl | ⟨p, -, rfl⟩
          · exact .nil
          · exact .single (.start _ _)

theorem smallStep_seated {r : Transition} {st : SmallStep} (seated : Seated s.program.system t.frames)
    (hst : (s.smallStep t).result = .ok st) (hr : r ∈ st.results) : Seated s.program.system r.frames := by
  obtain ⟨ps, top, below, o, es, -, hframes, shifts, body, here, hes⟩ := smallStep_shifts hst hr
  exact shifts.seated (hframes ▸ seated) body here hes

end Code

/-- A property of the frames of code that holds where code starts, and that small steps keep. -/
structure FrameInvariant (s : Simulator) (P : List Frame → Prop) : Prop where
  nil : P []
  start (r : Routine) (x : Value) : P [.start r x]
  step {t r : Transition} {st : SmallStep} : P t.frames → (s.smallStep t).result = .ok st → r ∈ st.results →
    P r.frames

end Simulator

/-- The frames of all processes have a property. -/
def State.AllFrames (st : State) (P : List Frame → Prop) : Prop := ∀ i fs, st.framesOf? i = some fs → P fs

namespace Simulator

variable {s : Simulator} {t r start e u : Transition} {first st : State}

theorem frames_of_proc {p : Process} (hp : t.proc = some p) : t.frames = (t.state.framesOf? p.index).getD [] := by
  unfold frames running? State.framesOf?
  rw [hp]

namespace FrameInvariant

variable {P : List Frame → Prop} (inv : s.FrameInvariant P)

include inv

theorem occurs {b : Bool} (begun : P start.frames) (h : s.Occurs start b t) : P t.frames := by
  induction h with
  | start => exact begun
  | step _ hst hr ih => exact inv.step ih hst hr
  | merge _ _ _ _ same iht ihu =>
      rcases same with rfl | rfl
      · exact iht
      · exact ihu

theorem begin? {p : Process} (all : st.AllFrames P) (begins : s.begin? p st = .ok start) : P start.frames := by
  obtain ⟨proc, state⟩ := begin?_start begins
  rw [frames_of_proc proc, state]
  cases h : st.framesOf? p.index with
  | none => exact inv.nil
  | some fs => exact all _ _ h

theorem beginUpdate? {i : Instance} {f : Routine} (scheduler : t.proc = none)
    (begins : s.beginUpdate? i f t = .ok start) : P start.frames := by
  obtain ⟨info, -, rfl⟩ := Success.map_iff.1 begins
  have frames : (t.beforeUpdate i f).frames = [.start f (.lit (.inst i))] := by
    unfold frames running?
    rw [show (t.beforeUpdate i f).proc = none from scheduler]
    rfl
  exact frames ▸ inv.start _ _

theorem makeStep {p : Process} {ts : List Transition} (all : st.AllFrames P)
    (hstep : (s.makeStep p st).result = .ok ts) (hr : r ∈ ts) : r.state.AllFrames P := by
  intro i fs hfs
  by_cases own : i = p.index
  · subst own
    obtain ⟨start, ended, begins, hrun, hfin⟩ := makeStep_cases hstep
    obtain ⟨e, he, state, -⟩ := finalize_mem hfin hr
    have runs : s.RunsTo start e := ⟨ended, hrun, he⟩
    obtain ⟨k, tells⟩ := exists_tells_of_run runs
    have hp : e.proc = some p := tells.proc.trans (begin?_start begins).1
    have frames := frames_of_proc hp
    rw [← state, hfs, Option.getD_some] at frames
    exact frames ▸ inv.occurs (inv.begin? all begins) runs.occurs
  · rw [makeStep_frames hstep hr own] at hfs
    exact all i fs hfs

theorem initial (h : s.initial = .ok st) : st.AllFrames P := by
  obtain ⟨g, -, h⟩ := Success.bind_method_iff.1 h
  split at h
  · obtain rfl := Except.ok.inj h
    intro i fs hfs
    unfold State.framesOf? at hfs
    rw [List.getElem?_map] at hfs
    obtain ⟨ps, hps, rfl⟩ := Option.map_eq_some_iff.1 hfs
    obtain ⟨p, -, rfl⟩ := Option.map_eq_some_iff.1 hps
    exact inv.start _ _
  · cases h

/-- In all states that can be reached, it holds of the frames of processes. -/
theorem reachable (initial : s.initial = .ok first) (h : s.Reachable first st) : st.AllFrames P := by
  induction h with
  | start => exact inv.initial initial
  | step _ hfound ht ih =>
      rcases successors_mem hfound ht with ⟨-, ts, hts, hr⟩ | ⟨ps, -, p, -, ts, hts, hr⟩
      · intro i fs hfs
        rw [endEvaluation_frames hts hr] at hfs
        exact ih i fs hfs
      · exact inv.makeStep ih hts hr

/-- It holds where code begins, be it in the step of a process or as an update routine. -/
theorem begins (initial : s.initial = .ok first) (h : s.Begins first start) : P start.frames := by
  cases h with
  | step reached _ _ hbegin => exact inv.begin? (inv.reachable initial reached) hbegin
  | update _ _ _ before _ _ hbegin => exact inv.beginUpdate? before.proc hbegin

end FrameInvariant

theorem seated_invariant (s : Simulator) : s.FrameInvariant (Seated s.program.system) :=
  ⟨.nil, fun _ _ => .single (.start _ _), smallStep_seated⟩

theorem firm_invariant (s : Simulator) : s.FrameInvariant (∀ f ∈ ·, f.Firm) where
  nil _ hf := nomatch hf
  start r x _ hf := List.mem_singleton.1 hf ▸ .start r x
  step firm hst hr := smallStep_firm firm hst hr

/-- Wherever code comes to, its frames are at code that exists. -/
theorem Occurs.seated {b : Bool} (seated : Seated s.program.system start.frames) (h : s.Occurs start b t) :
    Seated s.program.system t.frames := s.seated_invariant.occurs seated h

end Simulator

end DeltaSlice

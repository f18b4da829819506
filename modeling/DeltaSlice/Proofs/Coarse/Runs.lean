import DeltaSlice.Proofs.Coarse.Expressions
import DeltaSlice.Proofs.Step.Seats
import DeltaSlice.Proofs.Worklist.Walk

/-!
Tracking fewer variables over-approximates: from a transition that covers another one, every small
step of the simulator with more variables is matched, unless the one with fewer knows too little to
go on. So is every sequence of small steps. This takes that the results of cases are known where a
switch is told them, which is so in all states that can be reached.
-/

namespace DeltaSlice

/-- Whether an expression that is about to be decided compares two event lists. -/
def Frame.comparesLists (top : Frame) : Expr → Bool
  | .binary _ .eq _ _ | .binary _ .ne _ _ => (top.value 0 0).isList && (top.value 0 1).isList
  | .arm .. => (top.value 1 0).isList && (top.value 0 0).isList
  | _ => false

/-- Whether the next small step may compare two event lists. -/
def Transition.comparesLists (t : Transition) (p : Program) : Bool :=
  t.top?.any fun top => (p.at? top.location).any top.comparesLists

/-- The current expression is a case just where one is expected. -/
def Transition.Fits (t : Transition) (p : Program) : Prop :=
  ∀ top e, t.top? = some top → p.at? top.location = some e →
    e.isArm = p.system.isCase top.location

theorem Transition.fits_of_casesFit {p : Program} (fit : p.system.casesFit = true) (t : Transition) :
    t.Fits p := fun _ _ _ => System.isArm_eq fit

namespace Simulator

variable {s : Simulator} {track : Variable → Bool} {t' t : Transition} {ps' ps : ProcessState}
  {top' top : Frame}

theorem exprStep_approximates (fewer : ∀ v, track v = true → s.setup.tracksVariable v = true)
    (quiet : s.setup.observer = .none)
    (h : Blurs s.program.system track t' t) (hps : ps'.Covers track ps) (htop : top'.Covers top)
    {below : List Frame} (hframes : t'.frames = top' :: below) {e : Expr}
    (he : s.program.at? top.location = some e)
    (fit : e.isArm = s.program.system.isCase top.location) (plain : top.comparesLists e = false) :
    Approximates (Includes s.program.system track)
      ((s.tracking track).exprStep t' ps' top' e).result (s.exprStep t ps top e).result := by
  have at_ : s.program.system.at? top'.location = some e := by
    rw [htop.location]
    exact he
  have armAt : e.isArm = s.program.system.isCase top'.location := htop.location ▸ fit
  have here : ∀ f rest, t'.frames = f :: rest → f = top' := by
    intro f rest hf
    rw [hframes] at hf
    exact (List.cons.inj hf).1.symm
  by_cases harm : e.isArm = true
  · cases e with
    | arm id value body =>
        exact .ok (armStep_includes h htop (h.settled.frames top' (by simp [hframes]))
          (armAt ▸ harm) _ value body plain)
    | _ => cases harm
  have out : BlursOutside s.program.system track t' t := by
    refine ⟨h, fun f rest hf => ?_⟩
    rw [here f rest hf, ← armAt]
    simpa using harm
  have aggregated (hagg : ∀ id op l r, e = .binary id op l r → op = .eq ∨ op = .ne →
      ((top.value 0 0).isList && (top.value 0 1).isList) = false) :
      Approximates (Includes s.program.system track)
        (Run.of ((s.tracking track).aggregateStep t' top' e) : Step SmallStep).result
        (Run.of (s.aggregateStep t top e) : Step SmallStep).result :=
    aggregateStep_approximates fewer out htop e hagg
  cases e with
  | arm => exact absurd rfl harm
  | const id l =>
      change Approximates _ (if (s.program.system.isUsed top'.location && !l.hasText) = true then _
        else _ : Step SmallStep).result (if _ then _ else _ : Step SmallStep).result
      rw [htop.location]
      split
      · exact .failed _
      · rw [htop.comingFrom]
        exact .ok (.one (out.finish (.refl _)))
  | event id name =>
      refine .ok (.one (out.finish ?_))
      rcases htop.receiver.asInstance? with unknown | same
      · rw [unknown]
        exact .unknown _
      · rw [same]
        exact .refl _
  | var id d =>
      obtain ⟨hvalue, hout⟩ := readVariable_outside fewer out hps htop d
      exact .ok (.one (hout.finish hvalue))
  | binary id op l r =>
      refine aggregated fun _ _ _ _ heq hop => ?_
      cases heq
      rcases hop with rfl | rfl
      · exact plain
      · exact plain
  | unary | access | bracket | block | empty => exact aggregated fun _ _ _ _ heq => by cases heq
  | branch id c yes no => exact .ok (branchStep_includes out htop _ yes no)
  | whileLoop id l c body => exact .ok (loopStep_includes out htop _ body true)
  | doLoop id l c body => exact .ok (loopStep_includes out htop _ body false)
  | forLoop id l init c post body => exact .ok (forStep_includes out htop _ body)
  | switch id l tag cases => exact .ok (switchStep_includes out htop _ cases)
  | exit id l => exact exitStep_approximates out htop _ l
  | next id l => exact nextStep_approximates out htop _ l
  | ret id value =>
      change Approximates _ (if (top'.comingFrom = -1 && value.isSome) = true then _ else _ :
        Step SmallStep).result (if _ then _ else _ : Step SmallStep).result
      rw [htop.comingFrom]
      split
      · exact .ok (.one (h.enter _))
      · refine .ok (returnFrom_includes h _ _ ?_)
        split
        · exact htop.value 0 0
        · exact .refl _
  | notify id target delays => exact notifyStep_approximates quiet out htop _ target delays
  | stop id =>
      refine .ok (.one ?_)
      exact stop_blurs (out.finish (.refl _))
  | call id r args =>
      refine callStep_approximates out htop _ fewer hps (fun f rest hf => ?_) r args.length
      rw [here f rest hf, System.isSwitch, at_]
      rfl

theorem resetAccesses_blurs {sys : System} (h : Blurs sys track t' t) :
    Blurs sys track t'.resetAccesses t.resetAccesses :=
  ⟨⟨h.covers.proc, h.covers.state, h.covers.frozen⟩, ⟨h.settled.frames, h.settled.callers⟩⟩

theorem advance_approximates (fewer : ∀ v, track v = true → s.setup.tracksVariable v = true)
    (quiet : s.setup.observer = .none) (fit : t.Fits s.program)
    (h : Blurs s.program.system track t' t) (plain : t.comparesLists s.program = false) :
    Approximates (Includes s.program.system track) ((s.tracking track).advance t').result
      (s.advance t).result := by
  unfold advance
  rcases optionRel_cases h.covers.running? with ⟨hq, hp⟩ | ⟨q, p, hq, hp, rel⟩
  · simp only [hq, hp]
    exact .failed _
  · rcases optionRel_cases h.covers.top? with ⟨hf', hf⟩ | ⟨top', top, hf', hf, htop⟩
    · simp only [hq, hp, hf', hf]
      exact .failed _
    · simp only [hq, hp, hf', hf, htop.path]
      split
      · exact .ok (bodyStep_includes h htop)
      · simp only [tracking_program, htop.location]
        cases he : s.program.at? top.location with
        | none => exact .failed _
        | some e =>
            simp only
            rw [show (s.tracking track).setup.observer = .none from quiet, quiet]
            obtain ⟨below, -, hstack⟩ := Transition.frames_of_top hq hf'
            refine exprStep_approximates fewer quiet ?_ rel htop hstack he
              (fit top e hf he) ?_
            · exact h
            · simpa [Transition.comparesLists, hf, he] using plain

theorem observeResults_quiet (quiet : s.setup.observer = .none) (e : Option Expr) (i : Int)
    (ts : List Transition) : (s.observeResults e i ts).result =
      .ok (ts.map fun t => { t with scratch := { t.scratch with event := none } }) := by
  induction ts with
  | nil => rfl
  | cons t ts ih =>
      unfold observeResults
      simp only [quiet, Run.result_bind, ih]
      rfl

/-- A small step of the simulator that tracks less does what one of the other simulator does, or it
fails because it knows too little. -/
theorem smallStep_approximates (fewer : ∀ v, track v = true → s.setup.tracksVariable v = true)
    (quiet : s.setup.observer = .none) (fit : t.Fits s.program)
    (h : Blurs s.program.system track t' t) (firm : ∀ f ∈ t'.frames, f.Firm)
    (plain : t.comparesLists s.program = false) :
    Approximates (Includes s.program.system track) ((s.tracking track).smallStep t').result
      (s.smallStep t).result := by
  intro st hst
  obtain ⟨st₀, rs, hadv, hobs, rfl⟩ := smallStep_cases hst
  rw [smallStep_eq (h.covers.frozen.trans (smallStep_unfrozen hst).1) firm]
  have step := advance_approximates (t := t.resetAccesses) fewer quiet fit (resetAccesses_blurs h) plain
  refine step.bind (f := fun st => (s.observeResults st.expr st.comingFrom st.results).result >>= fun results =>
    .ok { st with results }) ?_ _ (Success.bind_iff.2 ⟨st₀, hadv, Success.bind_iff.2 ⟨rs, hobs, rfl⟩⟩)
  intro st' st inc
  rw [observeResults_quiet quiet, observeResults_quiet (s := s.tracking track) quiet]
  refine .ok ⟨inc.ends, ?_⟩
  intro r hr
  obtain ⟨u, hu, rfl⟩ := List.mem_map.1 hr
  obtain ⟨u', hu', rel⟩ := inc.results u hu
  exact ⟨_, List.mem_map_of_mem hu',
    ⟨⟨rel.covers.proc, rel.covers.state, rel.covers.frozen⟩, ⟨rel.settled.frames, rel.settled.callers⟩⟩⟩

/-- The walk `ms` from `start` gets to a transition at which the code cannot go on because too little
is known. -/
def Stuck (s : Simulator) (start : Transition) (ms : List Move) : Prop :=
  ∃ t place what, s.Walk start ms t ∧
    (s.smallStep t).result = .error (.failed (.imprecise place what))

theorem route_approximates (fewer : ∀ v, track v = true → s.setup.tracksVariable v = true)
    (quiet : s.setup.observer = .none) (fit : s.program.system.casesFit = true)
    (h : Blurs s.program.system track t' t) (firm : ∀ f ∈ t'.frames, f.Firm)
    (plain : ∀ ms u, s.Walk t ms u → u.comparesLists s.program = false) {b : Bool}
    {ms : List Move} {u : Transition} (hroute : s.Route t b ms u) :
    (∃ ms' u', (s.tracking track).Route t' b ms' u' ∧ ms'.length = ms.length ∧
      Blurs s.program.system track u' u ∧ ∀ f ∈ u'.frames, f.Firm) ∨
    ∃ ms', ms'.length < ms.length ∧ (s.tracking track).Stuck t' ms' := by
  induction ms using List.reverseRecOn generalizing b u with
  | nil =>
      rcases hroute.cases with ⟨rfl, -, rfl⟩ | ⟨pre, _, _, -, -, -, -, heq⟩
      · exact .inl ⟨[], t', .nil, rfl, h, firm⟩
      · simp at heq
  | append_singleton pre m ih =>
      obtain ⟨v, hwalk, hst, rfl, hr, rfl⟩ := hroute.snoc_cases
      rcases ih (b := false) hwalk with ⟨pre', v', hwalk', hlen, rel, firm⟩ | ⟨ms', hlen, stuck⟩
      · have step := smallStep_approximates fewer quiet (v.fits_of_casesFit fit) rel firm
          (plain pre v hwalk)
        rcases step m.step hst with ⟨st', hst', hinc⟩ | ⟨place, what, herr⟩
        · obtain ⟨r', hr', rel'⟩ := hinc.results m.result hr
          have := Route.snoc hwalk' hst' hr'
          rw [hinc.ends] at this
          exact .inl ⟨_, r', this, by simp [hlen], rel', smallStep_firm firm hst' hr'⟩
        · exact .inr ⟨pre', by simp [hlen], v', place, what, hwalk', herr⟩
      · exact .inr ⟨ms', by simp; omega, stuck⟩

section Settled

/-- No switch holds an unknown result of a case, and none is to get the result of a call. -/
abbrev SettledFrames (sys : System) : List Frame → Prop :=
  Stacked (Frame.Settled sys) (sys.isSwitch ·.location = false)

variable {ps : ProcessState} {top : Frame} {below fs : List Frame} {e : Expr} {o : Option Expr}
  {x : Value} {n : Nat} {b : Bool}

/-- A case is left with a known result. -/
theorem LeftWith.isKnown (h : s.LeftWith t ps top e x) (arm : e.isArm = true) : x.isKnown = true := by
  cases h with
  | bool => rfl
  | unknown plain | slot _ plain => cases plain.symm.trans arm
  | _ => cases arm

/-- Frames that shift stay settled: only cases tell their results to a switch, and no call does. -/
theorem Shifts.settled (h : s.Shifts t ps top below o n b fs) (fit : s.program.system.casesFit = true)
    (settled : SettledFrames s.program.system (top :: below))
    (here : ∀ e, o = some e → s.program.system.at? top.location = some e) :
    SettledFrames s.program.system fs := by
  cases h with
  | enter j => exact settled.replace (settled.first.enter j)
  | finish same left =>
      refine settled.replace (settled.first.finish fun isCase => ?_)
      exact left.isKnown ((System.isArm_eq fit (here _ same)).trans isCase)
  | exit same => exact settled.replace (((settled.first.pop _).comeFrom _).put _ (by simp))
  | next same => exact settled.replace ((settled.first.pop _).comeFrom _)
  | call same =>
      refine settled.push ?_ (.start _ _)
      rw [System.isSwitch, here _ same]
      rfl
  | returns same returned =>
      cases returned with
      | back same =>
          subst same
          refine settled.pop.replace ((settled.pop.first.comeFrom _).put _ fun isSwitch => ?_)
          cases (settled.callers _ List.mem_cons_self).symm.trans isSwitch
      | ends same ended =>
          rcases ended with rfl | ⟨p, -, rfl⟩
          · exact .nil
          · exact .single (.start _ _)

/-- If cases stand in switches only, all frames that come up are settled. -/
theorem settled_invariant (fit : s.program.system.casesFit = true) :
    s.FrameInvariant (SettledFrames s.program.system) where
  nil := .nil
  start _ _ := .single (.start _ _)
  step settled hst hr := by
    obtain ⟨ps, top, below, o, es, -, hframes, shifts, -, here, -⟩ := smallStep_shifts hst hr
    exact shifts.settled fit (hframes ▸ settled) here

end Settled

/-- Tracking fewer variables over-approximates. From a transition that covers another one, every
result of a small step is covered by a result of the simulator that tracks less, and so is the end of
every sequence of small steps, unless that simulator knows too little to go on. The results of cases
have to be known where a switch is told them, and frames have to be such that they can be edited; so they
are, wherever code of that simulator comes to. -/
theorem tracking_fewer_approximates
    (fewer : ∀ v, track v = true → s.setup.tracksVariable v = true)
    (quiet : s.setup.observer = .none) (fit : s.program.system.casesFit = true) :
    (∀ (first : State) (start : Transition) (b : Bool) (u : Transition),
      (s.tracking track).initial = .ok first → (s.tracking track).Begins first start →
      (s.tracking track).Occurs start b u → u.Settled s.program.system) ∧
    (∀ t' t : Transition, t'.Covers track t → t'.Settled s.program.system →
      t.comparesLists s.program = false → ∀ st, (s.smallStep t).result = .ok st →
      (∃ st', ((s.tracking track).smallStep t').result = .ok st' ∧ st'.ends = st.ends ∧
        ∀ r ∈ st.results, ∃ r' ∈ st'.results,
          r'.Covers track r ∧ r'.Settled s.program.system) ∨
      ∃ place what, ((s.tracking track).smallStep t').result =
        .error (.failed (.imprecise place what))) ∧
    ∀ t' t : Transition, t'.Covers track t → t'.Settled s.program.system →
      (∀ ms u, s.Walk t ms u → u.comparesLists s.program = false) →
      ∀ (b : Bool) (ms : List Move) (u : Transition), s.Route t b ms u →
      (∃ ms' u', (s.tracking track).Route t' b ms' u' ∧ ms'.length = ms.length ∧
        u'.Covers track u ∧ u'.Settled s.program.system) ∨
      ∃ ms', ms'.length < ms.length ∧ (s.tracking track).Stuck t' ms' := by
  refine ⟨fun first start b u initial begins occurs => ?_, ?_, ?_⟩
  · have invariant := settled_invariant (s := s.tracking track) fit
    have settled := invariant.occurs (invariant.begins initial begins) occurs
    have firm := (s.tracking track).firm_invariant
    exact ⟨⟨settled.frames, settled.callers⟩, firm.occurs (firm.begins initial begins) occurs⟩
  · intro t' t hcovers hsettled plain st hst
    refine (smallStep_approximates fewer quiet (t.fits_of_casesFit fit) ⟨hcovers, hsettled.toCasesKnown⟩
      hsettled.firm plain st hst).imp_left ?_
    rintro ⟨st', hst', hinc⟩
    refine ⟨st', hst', hinc.ends, fun r hr => ?_⟩
    obtain ⟨r', hr', rel⟩ := hinc.results r hr
    exact ⟨r', hr', rel.covers, rel.settled, smallStep_firm hsettled.firm hst' hr'⟩
  · intro t' t hcovers hsettled plain b ms u hroute
    refine (route_approximates fewer quiet fit ⟨hcovers, hsettled.toCasesKnown⟩ hsettled.firm plain
      hroute).imp_left ?_
    rintro ⟨ms', u', hroute', hlen, rel, firm⟩
    exact ⟨ms', u', hroute', hlen, rel.covers, rel.settled, firm⟩

end Simulator

namespace Examples

/-- `switch (x) { case 1: y = 2; default: }` -/
def switching : System :=
  let x := field 0 "x"
  let y := field 1 "y"
  single [x, y] [] [⟨"run", [.switch 0 "" (ref x)
    [.arm 0 (some (number 1)) [assign y (number 2)], .arm 0 none []]], [], false⟩]

/-- The simulator of a system that tracks all variables. -/
def tracked (sys : System) : Simulator := (untracked sys .none).tracking fun _ => true

/-- The variable `y` is tracked, and `x` is not. -/
def onlyY : Variable → Bool := (· = .global (.inst top) (field 1 "y"))

/-- The thread is about to start with `x` known to be one. -/
def knowingX : Transition :=
  .start { atStart with global := .setValue .start (.global (.inst top) (field 0 "x")) (.int 1) } .none
    (some runner) (some top)

theorem running_covers : (running .none).Covers onlyY knowingX where
  proc := rfl
  state := by
    refine ⟨⟨fun v hv => ?_, fun _ => rfl, rfl, rfl⟩, ?_, .none⟩
    · obtain rfl := of_decide_eq_true hv
      exact .unknown _
    · exact .cons ⟨rfl, .cons (.start _ (.refl _)) .nil, fun _ _ => .refl _⟩ .nil
  frozen := rfl

end Examples

open Examples Simulator in
/-- Where one simulator takes the only case, the other one goes on with each of the two. -/
theorem tracking_fewer_approximates_switching :
    (running .none).Covers onlyY knowingX ∧ (running .none).Settled switching ∧
    ∃ ms u, (tracked switching).Route knowingX true ms u ∧
      ((∃ ms' u', ((tracked switching).tracking onlyY).Route (running .none) true ms' u' ∧
        ms'.length = ms.length ∧ u'.Covers onlyY u ∧ u'.Settled switching) ∨
      ∃ ms', ms'.length < ms.length ∧ ((tracked switching).tracking onlyY).Stuck (running .none) ms') := by
  obtain ⟨-, -, runs⟩ := @tracking_fewer_approximates (tracked switching) onlyY
    (fun _ _ => rfl) rfl (by decide +kernel)
  have started : SettledFrames switching (running .none).frames := .single (.start _ _)
  have settled : (running .none).Settled switching := by
    refine ⟨⟨started.frames, started.callers⟩, fun f hf => ?_⟩
    obtain rfl := List.mem_singleton.1 hf
    exact .start _ _
  have plain : ∀ ms u, (tracked switching).Walk knowingX ms u →
      u.comparesLists (tracked switching).program = false := by
    let l := (tracked switching).survey 100 [] [(false, knowingX)]
    have checked : ((tracked switching).surveys (fun _ => ()) knowingX l &&
        l.all fun x => !x.2.comparesLists (tracked switching).program) = true := by decide +kernel
    obtain ⟨closed, none⟩ := Bool.and_eq_true_iff.1 checked
    intro ms u hwalk
    have := List.all_eq_true.1 none _ (hwalk.occurs.mem_of_surveys closed)
    simpa using this
  obtain ⟨⟨ms, b, u⟩, htrail, hb⟩ := (Option.any_eq_true _ _).1 <|
    show ((tracked switching).trail (List.replicate 30 0) [] knowingX).any (fun x => x.2.1) = true by
      decide +kernel
  obtain rfl : b = true := hb
  have hroute := route_of_trail (.nil) htrail
  exact ⟨running_covers, settled, ms, u, hroute,
    runs _ _ running_covers settled plain true ms u hroute⟩

/-- A small step from `t` has a result that no result of the simulator that tracks less covers, and
that one does not fail. -/
def Simulator.Uncovered (s : Simulator) (track : Variable → Bool) (t' t : Transition) : Prop :=
  ∃ st st' r, (s.smallStep t).result = .ok st ∧ r ∈ st.results ∧
    ((s.tracking track).smallStep t').result = .ok st' ∧ ∀ r' ∈ st'.results, ¬ r'.Covers track r

namespace Examples

/-- `switch (1) { case 1: y = 2; case 2: y = 3; }` -/
def fallingThrough : System :=
  let y := field 0 "y"
  single [y] [] [⟨"run", [.switch 0 "" (number 1)
    [.arm 0 (some (number 1)) [assign y (number 2)],
      .arm 0 (some (number 2)) [assign y (number 3)]]], [], false⟩]

/-- `for (1; x;) { case 2: y = 3; }` -/
def loopingCase : System :=
  let x := field 0 "x"
  let y := field 1 "y"
  single [x, y] [] [⟨"run", [.forLoop 0 "" (number 1) (ref x) (.empty 0)
    [.arm 0 (some (number 2)) [assign y (number 3)]]], [], false⟩]

/-- The thread has come to a case, and the expression above it has `before` as the result of the child
before that one. -/
def atCase (before : Value) : Transition :=
  .start { atStart with procs := [⟨none, [⟨⟨runner.routine, [2, 0]⟩, -1,
    [[], [some (.int 1), some before], []], .lit (.inst top)⟩], .empty⟩] } .none (some runner) (some top)

theorem atCase_covers {x y : Value} (h : x.Covers y) : (atCase x).Covers onlyY (atCase y) where
  proc := rfl
  state := by
    have switch : Level.Covers [some (.int 1), some x] [some (.int 1), some y] :=
      .cons (.some (.refl _)) (.cons (.some h) .nil)
    refine ⟨⟨fun _ _ => .refl _, fun _ => rfl, rfl, rfl⟩, ?_, .none⟩
    exact .cons ⟨rfl, .cons ⟨rfl, rfl, .cons .nil (.cons switch (.cons .nil .nil)), .refl _⟩ .nil,
      fun _ _ => .refl _⟩ .nil
  frozen := rfl

/-- What has come to the label of the case does not cover what has come to its body. -/
theorem label_not_covers_body : ¬ ((atCase .unknown).enter 0).Covers onlyY ((atCase (.bool true)).enter 1) := by
  intro h
  rcases optionRel_cases h.top? with ⟨none, -⟩ | ⟨_, _, label, body, same⟩
  · cases none
  · cases label
    cases body
    exact absurd same.location (by decide)

end Examples

open Examples Simulator in
/-- If a switch holds an unknown result of a case, the simulator that tracks less does not fall through
into the next case: it goes on with the label and misses the body. So it does at a case that stands in
a loop, behind a condition of which it does not know the value. -/
theorem tracking_fewer_misses_body :
    (∀ v, onlyY v = true → (tracked fallingThrough).setup.tracksVariable v = true) ∧
    (atCase .unknown).Covers onlyY (atCase (.bool true)) ∧
    (fallingThrough.casesFit = true ∧
      (atCase (.bool true)).comparesLists (tracked fallingThrough).program = false ∧
      (tracked fallingThrough).Uncovered onlyY (atCase .unknown) (atCase (.bool true))) ∧
    ((atCase .unknown).Settled loopingCase ∧
      (atCase (.bool true)).comparesLists (tracked loopingCase).program = false ∧
      (tracked loopingCase).Uncovered onlyY (atCase .unknown) (atCase (.bool true))) := by
  have missed (r' : Transition) (hr' : r' ∈ [(atCase .unknown).enter 0]) :
      ¬ r'.Covers onlyY ((atCase (.bool true)).enter 1) := by
    obtain rfl := List.mem_singleton.1 hr'
    exact label_not_covers_body
  have settled : (atCase .unknown).Settled loopingCase := by
    refine ⟨⟨fun f hf k hk => ?_, by decide⟩, fun f hf => ?_⟩
    · obtain rfl := List.mem_singleton.1 hf
      rcases k with _ | _ | k
      · exact absurd hk (by decide +kernel)
      · exact absurd hk (by decide +kernel)
      · simp [Frame.path, System.isSwitch, System.at?, Path.resolve?] at hk
    · obtain rfl := List.mem_singleton.1 hf
      exact ⟨rfl, by decide, Int.le_refl _⟩
  refine ⟨fun _ _ => rfl, atCase_covers (.unknown _), ⟨by decide +kernel, by decide +kernel, ?_⟩,
    settled, by decide +kernel, ?_⟩
  · exact ⟨_, _, _, rfl, List.mem_singleton_self _, rfl, missed⟩
  · exact ⟨_, _, _, rfl, List.mem_singleton_self _, rfl, missed⟩

end DeltaSlice

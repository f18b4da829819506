import DeltaSlice.Proofs.Coarse.Settled
import DeltaSlice.Proofs.Coarse.States

/-!
Small steps of a simulator that tracks fewer variables. What the other one does is among the things
that it does, as far as it knows about them; where it knows too little to go on, it fails. One lemma
for each piece of code that a step may run.
-/

namespace DeltaSlice

/-- The transition `t'` covers `t`, and the results of its cases are known. -/
structure Blurs (sys : System) (track : Variable → Bool) (t' t : Transition) : Prop where
  covers : t'.Covers track t
  settled : t'.CasesKnown sys

/-- Moreover the code is not at a case. -/
structure BlursOutside (sys : System) (track : Variable → Bool) (t' t : Transition) : Prop
    extends Blurs sys track t' t where
  outside : ∀ f below, t'.frames = f :: below → sys.isCase f.location = false

namespace Blurs

variable {sys : System} {track : Variable → Bool} {t' t : Transition}

theorem mapConditions (h : Blurs sys track t' t) (f g : Conditions → Conditions) :
    Blurs sys track (t'.mapConditions f) (t.mapConditions g) :=
  ⟨⟨h.covers.proc, h.covers.state, h.covers.frozen⟩, ⟨h.settled.frames, h.settled.callers⟩⟩

/-- What broke is no part of what is covered. -/
theorem note (h : Blurs sys track t' t) (f' f : Option Fault) : Blurs sys track (t'.note f') (t.note f) :=
  ⟨⟨h.covers.proc, h.covers.state, h.covers.frozen⟩, ⟨h.settled.frames, h.settled.callers⟩⟩

theorem enter (h : Blurs sys track t' t) (i : Int) : Blurs sys track (t'.enter i) (t.enter i) :=
  ⟨h.covers.mapTop fun hf => hf.enter i, h.settled.mapTop fun _ _ _ hf => hf.enter i⟩

theorem finish (h : Blurs sys track t' t) {x y : Value} (hx : x.Covers y)
    (hcase : ∀ f below, t'.frames = f :: below → sys.isCase f.location = true → x.isKnown = true) :
    Blurs sys track (t'.finish sys x) (t.finish sys y) := by
  rw [Transition.finish_eq, Transition.finish_eq]
  exact note ⟨h.covers.mapTop fun hf => hf.finish sys hx,
    h.settled.mapTop fun f below hframes hf => hf.finish (hcase f below hframes)⟩ _ _

theorem finish_bool (h : Blurs sys track t' t) (b : Bool) :
    Blurs sys track (t'.finish sys (.bool b)) (t.finish sys (.bool b)) :=
  h.finish (.refl _) fun _ _ _ _ => rfl

/-- Goes to another part of an expression further up. -/
theorem unwind (h : Blurs sys track t' t) (n : Nat) (i : Int) :
    Blurs sys track (t'.mapTop fun f => { f.pop n with comingFrom := i })
      (t.mapTop fun f => { f.pop n with comingFrom := i }) :=
  ⟨h.covers.mapTop fun hf => (hf.pop n).comeFrom i, h.settled.mapTop fun _ _ _ hf => hf.pop n⟩

theorem pop (h : Blurs sys track t' t) (n : Nat) :
    Blurs sys track (t'.mapTop (·.pop n)) (t.mapTop (·.pop n)) :=
  ⟨h.covers.mapTop fun hf => hf.pop n, h.settled.mapTop fun _ _ _ hf => hf.pop n⟩

/-- Evaluation comes back with a result, which a switch gets from its cases only. -/
theorem comeFrom (h : Blurs sys track t' t) (i : Int) {x' x : Option Value} (hx : Option.Rel Value.Covers x' x)
    (known : ∀ f below, t'.frames = f :: below → sys.isSwitch f.location = true →
      ∀ v, x' = some v → v.isKnown = true) :
    Blurs sys track (t'.editTop (Frame.editComeFrom i x')) (t.editTop (Frame.editComeFrom i x)) := by
  rw [Transition.comeFrom_eq, Transition.comeFrom_eq]
  refine note ⟨h.covers.mapTop fun hf => (hf.comeFrom i).put i hx, h.settled.mapTop ?_⟩ _ _
  intro f below hframes hf
  exact (hf.comeFrom i).put i fun isSwitch _ => known f below hframes isSwitch

theorem mapRunning (h : Blurs sys track t' t) {f' f : ProcessState → ProcessState}
    (hf : ∀ {q p : ProcessState}, q.Covers track p → (f' q).Covers track (f p))
    (hstack : ∀ ps, (f' ps).stack = ps.stack) :
    Blurs sys track (t'.mapRunning f') (t.mapRunning f) :=
  ⟨h.covers.mapRunning hf, h.settled.of_frames (Transition.frames_mapRunning hstack)⟩

theorem block (h : Blurs sys track t' t) (b : Option Blocker) :
    Blurs sys track (t'.mapRunning (·.block b)) (t.mapRunning (·.block b)) :=
  h.mapRunning (fun hps => hps.block b) fun _ => rfl

end Blurs

namespace BlursOutside

variable {sys : System} {track : Variable → Bool} {t' t : Transition}

theorem mapConditions (h : BlursOutside sys track t' t) (f g : Conditions → Conditions) :
    BlursOutside sys track (t'.mapConditions f) (t.mapConditions g) :=
  ⟨h.toBlurs.mapConditions f g, h.outside⟩

/-- What was read and written is no part of what is covered. -/
theorem mapScratch (h : BlursOutside sys track t' t) (f g : Scratch → Scratch) :
    BlursOutside sys track (t'.mapScratch f) (t.mapScratch g) :=
  ⟨⟨⟨h.covers.proc, h.covers.state, h.covers.frozen⟩, ⟨h.settled.frames, h.settled.callers⟩⟩, h.outside⟩

theorem addRead (h : BlursOutside sys track t' t) (v' v : Variable) :
    BlursOutside sys track (t'.addRead v') (t.addRead v) := h.mapScratch _ _

theorem addWritten (h : BlursOutside sys track t' t) (v' v : Variable) :
    BlursOutside sys track (t'.addWritten v') (t.addWritten v) := h.mapScratch _ _

/-- The numbers that event lists get are no part of what is covered. -/
theorem numbered (h : BlursOutside sys track t' t) (n' n : Nat) :
    BlursOutside sys track { t' with state := { t'.state with nextList := n' } }
      { t with state := { t.state with nextList := n } } :=
  ⟨⟨⟨h.covers.proc, ⟨h.covers.state.global, h.covers.state.procs, h.covers.state.update⟩, h.covers.frozen⟩,
    ⟨h.settled.frames, h.settled.callers⟩⟩, h.outside⟩

/-- A process that waits may be woken; this leaves all code where it is. -/
theorem block_other (h : BlursOutside sys track t' t) {p : Process} {q ps : ProcessState}
    (hq : t'.state.procs[p.index]? = some q) (rel : q.Covers track ps) (b : Option Blocker) :
    BlursOutside sys track (t'.setProc p (q.block b)) (t.setProc p (ps.block b)) := by
  have same : (t'.setProc p (q.block b)).frames = t'.frames := by
    unfold Transition.frames Transition.running? Transition.setProc State.setProc
    cases hproc : t'.proc with
    | none => rfl
    | some r =>
        simp only [List.getElem?_set]
        by_cases hr : p.index = r.index
        · rw [hr] at hq
          obtain ⟨hlt, hget⟩ := List.getElem?_eq_some_iff.1 hq
          simp [hr, hlt, hget, ProcessState.block]
        · simp [hr]
  have procs := rel_set h.covers.state.procs (rel.block b) p.index
  exact ⟨⟨⟨h.covers.proc, ⟨h.covers.state.global, procs, h.covers.state.update⟩, h.covers.frozen⟩,
    ⟨same ▸ h.settled.frames, same ▸ h.settled.callers⟩⟩, same ▸ h.outside⟩

theorem mapGlobal (h : BlursOutside sys track t' t) {f' f : GlobalState → GlobalState}
    (hf : ∀ {g' g : GlobalState}, g'.Covers track g → (f' g').Covers track (f g)) :
    BlursOutside sys track (t'.mapGlobal f') (t.mapGlobal f) :=
  ⟨⟨h.covers.mapGlobal hf, ⟨h.settled.frames, h.settled.callers⟩⟩, h.outside⟩

theorem finish (h : BlursOutside sys track t' t) {x y : Value} (hx : x.Covers y) :
    Blurs sys track (t'.finish sys x) (t.finish sys y) := by
  refine h.toBlurs.finish hx ?_
  intro f below hframes hcase
  rw [h.outside f below hframes] at hcase
  cases hcase

theorem mapRunning (h : BlursOutside sys track t' t) {f' f : ProcessState → ProcessState}
    (hf : ∀ {q p : ProcessState}, q.Covers track p → (f' q).Covers track (f p))
    (hstack : ∀ ps, (f' ps).stack = ps.stack) :
    BlursOutside sys track (t'.mapRunning f') (t.mapRunning f) :=
  ⟨h.toBlurs.mapRunning hf hstack, Transition.frames_mapRunning (t := t') hstack ▸ h.outside⟩

/-- A change of the other side only. -/
theorem right {u : Transition} (h : BlursOutside sys track t' t) (hcovers : t'.Covers track u) :
    BlursOutside sys track t' u :=
  ⟨⟨hcovers, h.settled⟩, h.outside⟩

end BlursOutside

/-- Where `x` succeeds, so does `x'` with a related result, unless it knows too little to go on. -/
def Approximates {α β : Type} (R : β → α → Prop) (x' : Except Halt β) (x : Except Halt α) : Prop :=
  ∀ a, x = .ok a →
    (∃ b, x' = .ok b ∧ R b a) ∨ ∃ place what, x' = .error (.failed (.imprecise place what))

namespace Approximates

variable {α β γ δ : Type} {R : β → α → Prop} {S : δ → γ → Prop} {x' : Except Halt β}
  {x : Except Halt α}

theorem ok {b : β} {a : α} (h : R b a) : Approximates R (.ok b) (.ok a) := by
  intro a' ha
  obtain rfl : a = a' := by
    injection ha
  exact .inl ⟨b, rfl, h⟩

theorem failed (f : Halt) : Approximates R x' (.error f) := by
  intro a ha
  cases ha

theorem imprecise (place what : String) :
    Approximates R (.error (.failed (.imprecise place what))) x :=
  fun _ _ => .inr ⟨place, what, rfl⟩

theorem bind (h : Approximates R x' x) {f' : β → Except Halt δ} {f : α → Except Halt γ}
    (hf : ∀ b a, R b a → Approximates S (f' b) (f a)) :
    Approximates S (x' >>= f') (x >>= f) := by
  intro c hc
  obtain ⟨a, ha, hc⟩ := Success.bind_iff.1 hc
  rcases h a ha with ⟨b, rfl, hab⟩ | ⟨place, what, rfl⟩
  · exact hf b a hab c hc
  · exact .inr ⟨place, what, rfl⟩

theorem map (h : Approximates R x' x) {f' : β → δ} {f : α → γ}
    (hf : ∀ b a, R b a → S (f' b) (f a)) : Approximates S (x'.map f') (x.map f) := by
  intro c hc
  obtain ⟨a, ha, rfl⟩ := Success.map_iff.1 hc
  rcases h a ha with ⟨b, rfl, hab⟩ | ⟨place, what, rfl⟩
  · exact .inl ⟨_, rfl, hf b a hab⟩
  · exact .inr ⟨place, what, rfl⟩

end Approximates

/-- Both steps end the code or none does, and every result of `st` is blurred by one of `st'`. -/
structure Includes (sys : System) (track : Variable → Bool) (st' st : SmallStep) : Prop where
  ends : st'.ends = st.ends
  results : ∀ r ∈ st.results, ∃ r' ∈ st'.results, Blurs sys track r' r

namespace Includes

variable {sys : System} {track : Variable → Bool} {t' t u' u : Transition}
variable {e' e : Option Expr} {i' i : Int} {b' b : Bool}

theorem repeating (h : Blurs sys track t' t) :
    Includes sys track { SmallStep.one e' i' t' with repeats := b' }
      { SmallStep.one e i t with repeats := b } :=
  ⟨rfl, by simpa [SmallStep.one] using h⟩

theorem one (h : Blurs sys track t' t) :
    Includes sys track (.one e' i' t') (.one e i t) := .repeating h

theorem fork {x' x : Transition} (h : Blurs sys track t' t) (h' : Blurs sys track u' u) :
    Includes sys track { SmallStep.one e' i' x' with results := [t', u'], repeats := b' }
      { SmallStep.one e i x with results := [t, u], repeats := b } := by
  refine ⟨rfl, ?_⟩
  intro r hr
  rcases List.mem_pair.1 hr with rfl | rfl
  · exact ⟨t', by simp, h⟩
  · exact ⟨u', by simp, h'⟩

/-- The first of two branches is the one that is taken. -/
theorem left {x : Transition} (h : Blurs sys track t' t) :
    Includes sys track { SmallStep.one e' i' x with results := [t', u'], repeats := b' }
      { SmallStep.one e i t with repeats := b } := by
  refine ⟨rfl, ?_⟩
  intro r hr
  obtain rfl := List.mem_singleton.1 hr
  exact ⟨t', by simp, h⟩

/-- The second of two branches is the one that is taken. -/
theorem right {x : Transition} (h : Blurs sys track u' u) :
    Includes sys track { SmallStep.one e' i' x with results := [t', u'], repeats := b' }
      { SmallStep.one e i u with repeats := b } := by
  refine ⟨rfl, ?_⟩
  intro r hr
  obtain rfl := List.mem_singleton.1 hr
  exact ⟨u', by simp, h⟩

/-- A condition that is not decided leads to both of two branches. -/
theorem choose {c' c : Value} (hc : c'.Covers c) {fork' fork yes' yes no' no : SmallStep}
    (hfork : Includes sys track fork' fork) (hyes : Includes sys track yes' yes)
    (hno : Includes sys track no' no) (left : Includes sys track fork' yes)
    (right : Includes sys track fork' no) :
    Includes sys track
      (match c'.truth? with
        | none => fork'
        | some true => yes'
        | some false => no')
      (match c.truth? with
        | none => fork
        | some true => yes
        | some false => no) := by
  rcases hc.truth? with undecided | same
  · simp only [undecided]
    split
    · exact hfork
    · exact left
    · exact right
  · simp only [same]
    split
    · exact hfork
    · exact hyes
    · exact hno

end Includes

namespace Simulator

/-- The simulator with other variables tracked. -/
def tracking (s : Simulator) (track : Variable → Bool) : Simulator :=
  { s with setup := { s.setup with tracksVariable := track } }

@[simp] theorem tracking_program (s : Simulator) (track : Variable → Bool) :
    (s.tracking track).program = s.program := rfl

@[simp] theorem tracking_stopMode (s : Simulator) (track : Variable → Bool) :
    (s.tracking track).setup.stopMode = s.setup.stopMode := rfl

variable {s : Simulator} {track : Variable → Bool} {t' t : Transition} {top' top : Frame}

theorem pop_blurs (h : Blurs s.program.system track t' t) :
    Blurs s.program.system track (t'.editRunning ProcessState.editPop)
      (t.editRunning ProcessState.editPop) := by
  refine ⟨?_, ?_, ?_⟩
  · rw [Transition.editPop_eq, Transition.editPop_eq]
    have popped : (t'.mapRunning (·.pop)).Covers track (t.mapRunning (·.pop)) :=
      h.covers.mapRunning fun hps => hps.pop
    exact ⟨popped.proc, popped.state, popped.frozen⟩
  · intro f hf
    rw [Transition.frames_editPop] at hf
    exact h.settled.frames f (List.mem_of_mem_tail hf)
  · intro f hf
    rw [Transition.frames_editPop] at hf
    exact h.settled.callers f (List.mem_of_mem_tail hf)

theorem endOfCode_includes (h : Blurs s.program.system track t' t) (hdone : t'.frames = []) :
    Includes s.program.system track (endOfCode t') (endOfCode t) := by
  refine ⟨rfl, ?_⟩
  intro r hr
  obtain rfl := List.mem_singleton.1 hr
  refine ⟨_, List.mem_singleton_self _, ?_⟩
  rw [h.covers.proc]
  split
  · exact h
  · split
    · exact h.block _
    · rename_i p _ _
      refine ⟨h.covers.mapRunning fun hps => (hps.block _).push (.start _ (.refl _)), ?_, ?_⟩
      all_goals
        intro f hf
        simp only [Transition.frames, Transition.running?_mapRunning] at hdone hf
        cases hps : t'.running? with
        | none => simp [hps] at hf
        | some ps =>
            have hstack : ps.stack = [] := by simpa [hps] using hdone
            simp [hps, ProcessState.push, ProcessState.block, hstack] at hf
            try exact hf ▸ .start _ _

theorem returnFrom_includes (h : Blurs s.program.system track t' t) (e : Option Expr) (i : Int)
    {x y : Value} (hx : x.Covers y) : Includes s.program.system track
      (s.returnFrom t' e i x) (s.returnFrom t e i y) := by
  have popped := pop_blurs h
  unfold returnFrom
  simp only
  rcases optionRel_cases popped.covers.top? with ⟨htop', htop⟩ | ⟨c', c, htop', htop, rel⟩
  · simp only [htop', htop]
    refine endOfCode_includes popped ?_
    rw [Transition.top?_eq_head?] at htop'
    exact List.head?_eq_none_iff.1 htop'
  · simp only [htop', htop, rel.comingFrom]
    have callers : ∀ f below, (t'.editRunning ProcessState.editPop).frames = f :: below →
        s.program.system.isSwitch f.location = false := by
      intro f below hframes
      refine h.settled.callers f ?_
      rw [← Transition.frames_editPop, hframes]
      exact List.mem_cons_self
    have back := popped.comeFrom (c.comingFrom + 1) (.some hx) fun f below hframes hswitch => by
      rw [callers f below hframes] at hswitch
      cases hswitch
    have back := back.mapConditions (·.leaveCall) (·.leaveCall)
    rw [rel.location]
    split
    · exact .one (back.mapRunning (fun hps => hps.dropParams _) fun ps => dropParams_stack ps _)
    · exact .one back

theorem bodyStep_includes (h : Blurs s.program.system track t' t) (htop : top'.Covers top) :
    Includes s.program.system track (s.bodyStep t' top') (s.bodyStep t top) := by
  unfold bodyStep
  rw [htop.comingFrom, htop.location]
  simp only
  split
  · exact .one (h.enter _)
  · exact returnFrom_includes h none _ (.refl _)

section Statements

variable (h : BlursOutside s.program.system track t' t) (htop : top'.Covers top) (e : Expr)
include h htop

theorem branchStep_includes (yes no : List Expr) : Includes s.program.system track
    (s.branchStep t' top' e yes no) (s.branchStep t top e yes no) := by
  have leave {x' x : Transition} (hx : BlursOutside s.program.system track x' x) :
      Blurs s.program.system track (x'.finish s.program.system .unknown)
        (x.finish s.program.system .unknown) := hx.finish (.refl _)
  have enterYes (c' c : Value) : Blurs s.program.system track
      (if yes.isEmpty then ((t'.mapConditions (·.add e.id c')).mapConditions
        (·.dropThrough e.id)).finish s.program.system .unknown
      else (t'.mapConditions (·.add e.id c')).enter 1)
      (if yes.isEmpty then ((t.mapConditions (·.add e.id c)).mapConditions
        (·.dropThrough e.id)).finish s.program.system .unknown
      else (t.mapConditions (·.add e.id c)).enter 1) := by
    split
    · exact leave ((h.mapConditions _ _).mapConditions _ _)
    · exact (h.mapConditions _ _).enter _
  have enterNo (c' c : Value) : Blurs s.program.system track
      (if no.isEmpty then t'.finish s.program.system .unknown
      else (t'.mapConditions (·.add e.id c'.not)).enter (yes.length + 1))
      (if no.isEmpty then t.finish s.program.system .unknown
      else (t.mapConditions (·.add e.id c.not)).enter (yes.length + 1)) := by
    split
    · exact leave h
    · exact (h.mapConditions _ _).enter _
  have done := leave (h.mapConditions (·.dropThrough e.id) (·.dropThrough e.id))
  unfold branchStep
  rw [htop.comingFrom]
  simp only
  split
  · exact .one (h.enter _)
  · split
    · exact .choose (htop.value 0 0) (.fork (enterYes _ _) (enterNo _ _)) (.one (enterYes _ _))
        (.one (enterNo _ _)) (.left (enterYes _ _)) (.right (enterNo _ _))
    · split
      · split
        · exact .one done
        · exact .one (h.enter _)
      · split
        · exact .repeating done
        · exact .one (h.enter _)

theorem loopStep_includes (body : List Expr) (testsFirst : Bool) : Includes s.program.system track
    (s.loopStep t' top' e body testsFirst) (s.loopStep t top e body testsFirst) := by
  have leave := (h.mapConditions (·.dropThrough e.id) (·.dropThrough e.id)).finish
    (.refl .unknown)
  unfold loopStep
  rw [htop.comingFrom]
  simp only
  split
  · split
    · exact .repeating ((h.mapConditions _ _).enter _)
    · exact .one ((h.mapConditions _ _).enter _)
  · split
    · exact .choose (htop.value 0 0) (.fork ((h.mapConditions _ _).enter _) leave)
        (.repeating (h.enter _)) (.one leave) (.left ((h.mapConditions _ id).enter _)) (.right leave)
    · split
      · exact .repeating (h.enter _)
      · exact .one (h.enter _)

theorem forStep_includes (body : List Expr) : Includes s.program.system track
    (s.forStep t' top' e body) (s.forStep t top e body) := by
  have leave := (h.mapConditions (·.dropThrough e.id) (·.dropThrough e.id)).finish
    (.refl .unknown)
  unfold forStep
  rw [htop.comingFrom]
  simp only
  split
  · exact .one ((h.mapConditions _ _).enter _)
  · split
    · exact .repeating (h.enter _)
    · split
      · exact .choose (htop.value 0 1) (.fork ((h.mapConditions _ _).enter _) leave)
          (.one (h.enter _)) (.one leave) (.left ((h.mapConditions _ id).enter _)) (.right leave)
      · split
        · exact .repeating (h.enter _)
        · exact .one (h.enter _)

theorem switchStep_includes (cases : List Expr) : Includes s.program.system track
    (s.switchStep t' top' e cases) (s.switchStep t top e cases) := by
  unfold switchStep
  rw [htop.comingFrom]
  simp only
  split
  · exact .one ((h.mapConditions _ _).enter _)
  · split
    · exact .repeating ((h.mapConditions _ _).finish (.refl _))
    · split
      · exact .one (h.enter _)
      · exact .repeating (h.enter _)

end Statements

/-- Whether the case before falls into this one is known. -/
theorem fallsThrough_eq (htop : top'.Covers top) (settled : top'.Settled s.program.system)
    (hcase : s.program.system.isCase top'.location = true) :
    (decide (1 < (top'.index?).getD 0) &&
      decide ((top'.value 1 ((top'.index?).getD 0 - 1)).truth? = some true)) =
    (decide (1 < (top.index?).getD 0) &&
      decide ((top.value 1 ((top.index?).getD 0 - 1)).truth? = some true)) := by
  have hindex : top'.index? = top.index? := congrArg List.head? htop.path
  rw [hindex]
  by_cases hi : 1 < (top.index?).getD 0
  · have same : (top'.value 1 ((top.index?).getD 0 - 1)).truth? =
        (top.value 1 ((top.index?).getD 0 - 1)).truth? := by
      unfold Frame.value
      rcases optionRel_cases (htop.slot? 1 ((top.index?).getD 0 - 1)) with
        ⟨hx', hx⟩ | ⟨x', x, hx', hx, rel⟩
      · rw [hx', hx]
      · rw [hx', hx]
        have known : x'.isKnown = true := by
          refine settled 1 ?_ _ (by omega) x' hx'
          have hpath : top'.location.path = top'.path := rfl
          unfold System.isCase at hcase
          rw [hpath] at hcase
          cases hp : top'.path with
          | nil => simp [hp] at hcase
          | cons i up =>
              simp only [hp, Bool.and_eq_true] at hcase
              simpa [hp] using hcase.1
        rcases rel.cases with rfl | ⟨rfl, -⟩ | ⟨_, _, _, rfl, rfl⟩
        · cases known
        · rfl
        · rfl
    rw [same]
  · simp [hi]

theorem armStep_includes (h : Blurs s.program.system track t' t) (htop : top'.Covers top)
    (settled : top'.Settled s.program.system)
    (hcase : s.program.system.isCase top'.location = true) (e : Expr) (value : Option Expr)
    (body : List Expr)
    (plain : ((top.value 1 0).isList && (top.value 0 0).isList) = false) :
    Includes s.program.system track (s.armStep t' top' e value body)
      (s.armStep t top e value body) := by
  have enterBody {x' x : Transition} (hx : Blurs s.program.system track x' x) :
      Blurs s.program.system track
        (if body.isEmpty then x'.finish s.program.system (.bool true)
          else x'.enter (if value.isSome then 1 else 0))
        (if body.isEmpty then x.finish s.program.system (.bool true)
          else x.enter (if value.isSome then 1 else 0)) := by
    split
    · exact hx.finish_bool _
    · exact hx.enter _
  have compared : (Value.apply .eq (top'.value 1 0) (top'.value 0 0)).Covers
      (Value.apply .eq (top.value 1 0) (top.value 0 0)) :=
    (htop.value 1 0).apply (htop.value 0 0) fun _ => plain
  unfold armStep
  rw [htop.comingFrom]
  simp only
  split
  · rw [fallsThrough_eq htop settled hcase]
    split
    · exact .one (enterBody h)
    · exact .one (h.enter _)
  · split
    · exact .choose compared
        (.fork (enterBody (h.mapConditions _ _)) ((h.mapConditions _ _).finish_bool _))
        (.one (enterBody h)) (.one (h.finish_bool _)) (.left (enterBody (h.mapConditions _ id)))
        (.right ((h.mapConditions _ id).finish_bool _))
    · split
      · exact .one (h.finish_bool _)
      · exact .one (h.enter _)

end Simulator

end DeltaSlice

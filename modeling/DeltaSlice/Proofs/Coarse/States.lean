import DeltaSlice.Proofs.Coarse.Values
import DeltaSlice.Proofs.Dependence.Operands
import DeltaSlice.Proofs.Table
import Mathlib.Data.List.Forall2

/-!
States that cover others: where one is, the other is, too, and what is known in it holds in the other.
Tracking fewer variables makes such states. Every edit of a state that the evaluation of code makes
keeps them related.
-/

namespace DeltaSlice

section Lists

variable {α β : Type} {R : α → β → Prop} {l' : List α} {l : List β}

theorem optionRel_cases {x : Option α} {y : Option β} (h : Option.Rel R x y) :
    (x = none ∧ y = none) ∨ ∃ a b, x = some a ∧ y = some b ∧ R a b := by
  cases h with
  | none => exact .inl ⟨rfl, rfl⟩
  | some hab => exact .inr ⟨_, _, rfl, rfl, hab⟩

theorem rel_getElem? (h : List.Forall₂ R l' l) (n : Nat) : Option.Rel R l'[n]? l[n]? := by
  induction h generalizing n with
  | nil => exact .none
  | cons hab _ ih =>
      cases n with
      | zero => exact .some hab
      | succ n => exact ih n

theorem rel_elementAt? (h : List.Forall₂ R l' l) (i : Int) :
    Option.Rel R (elementAt? l' i) (elementAt? l i) := by
  unfold elementAt?
  split
  · exact .none
  · exact rel_getElem? h _

theorem rel_set (h : List.Forall₂ R l' l) {a : α} {b : β} (hab : R a b) (n : Nat) :
    List.Forall₂ R (l'.set n a) (l.set n b) := by
  induction h generalizing n with
  | nil => exact .nil
  | cons hcd rest ih =>
      cases n with
      | zero => exact .cons hab rest
      | succ n => exact .cons hcd (ih n)

theorem rel_set_right (h : List.Forall₂ R l' l) {b : β} {n : Nat}
    (hb : ∀ a, l'[n]? = some a → R a b) : List.Forall₂ R l' (l.set n b) := by
  induction h generalizing n with
  | nil => exact .nil
  | cons hcd rest ih =>
      cases n with
      | zero => exact .cons (hb _ rfl) rest
      | succ n => exact .cons hcd (ih hb)

end Lists

/-- The same results are there, and those of the first level cover those of the second. -/
def Level.Covers (l' l : Level) : Prop := List.Forall₂ (Option.Rel Value.Covers) l' l

theorem Level.Covers.set {l' l : Level} (h : l'.Covers l) {x' x : Option Value}
    (hx : Option.Rel Value.Covers x' x) (i : Nat) : Level.Covers (l'.set i x') (l.set i x) := by
  have filled : Level.Covers (l' ++ List.replicate (i + 1 - l'.length) none)
      (l ++ List.replicate (i + 1 - l.length) none) := by
    rw [List.Forall₂.length_eq h]
    refine List.rel_append h ?_
    generalize i + 1 - l.length = n
    induction n with
    | zero => exact .nil
    | succ n ih => exact .cons .none ih
  exact rel_set filled hx i

theorem Level.Covers.put {l' l : Level} (h : l'.Covers l) {x' x : Option Value}
    (hx : Option.Rel Value.Covers x' x) (i : Int) : Level.Covers (l'.put i x') (l.put i x) := by
  unfold Level.put
  split
  · exact h
  · exact h.set hx _

namespace Frame

/-- Both frames are at the same point, and one knows no more than the other. -/
structure Covers (f' f : Frame) : Prop where
  location : f'.location = f.location
  comingFrom : f'.comingFrom = f.comingFrom
  levels : List.Forall₂ Level.Covers f'.levels f.levels
  receiver : f'.receiver.Covers f.receiver

namespace Covers

variable {f' f : Frame}

theorem slot? (h : f'.Covers f) (above i : Int) :
    Option.Rel Value.Covers (f'.slot? above i) (f.slot? above i) := by
  unfold Frame.slot?
  rcases optionRel_cases (rel_elementAt? h.levels above) with ⟨hl', hl⟩ | ⟨l', l, hl', hl, rel⟩
  · simp only [hl', hl]
    exact .none
  · rcases optionRel_cases (rel_elementAt? rel i) with ⟨hx', hx⟩ | ⟨x', x, hx', hx, rel⟩
    · simp only [hl', hl, Option.bind_some, hx', hx]
      exact .none
    · simp only [hl', hl, Option.bind_some, hx', hx]
      exact rel

theorem value (h : f'.Covers f) (above i : Int) : (f'.value above i).Covers (f.value above i) := by
  unfold Frame.value
  rcases optionRel_cases (h.slot? above i) with ⟨hx', hx⟩ | ⟨x', x, hx', hx, rel⟩
  · rw [hx', hx]
    exact .refl _
  · rw [hx', hx]
    exact rel

theorem path (h : f'.Covers f) : f'.path = f.path := congrArg Location.path h.location

theorem outermost? (h : f'.Covers f) (n : Nat) : f'.outermost? n = f.outermost? n := by
  unfold Frame.outermost?
  rw [List.Forall₂.length_eq h.levels, h.path]

theorem start (r : Routine) {x y : Value} (h : x.Covers y) :
    (Frame.start r x).Covers (Frame.start r y) :=
  ⟨rfl, rfl, .cons .nil .nil, h⟩

theorem enter (h : f'.Covers f) (i : Int) : (f'.enter i).Covers (f.enter i) :=
  ⟨congrArg (Location.child · i) h.location, rfl, .cons .nil h.levels, h.receiver⟩

theorem comeFrom (h : f'.Covers f) (i : Int) :
    Frame.Covers { f' with comingFrom := i } { f with comingFrom := i } :=
  ⟨h.location, rfl, h.levels, h.receiver⟩

theorem put (h : f'.Covers f) (i : Int) {x' x : Option Value} (hx : Option.Rel Value.Covers x' x) :
    (f'.put i x').Covers (f.put i x) := by
  obtain ⟨location', comingFrom', levels', receiver'⟩ := f'
  obtain ⟨location, comingFrom, levels, receiver⟩ := f
  cases h.levels with
  | nil => exact h
  | cons hl hls => exact ⟨h.location, h.comingFrom, .cons (hl.put hx i) hls, h.receiver⟩

theorem pop (h : f'.Covers f) (n : Nat) : (f'.pop n).Covers (f.pop n) := by
  refine ⟨?_, h.comingFrom, ?_, h.receiver⟩
  · simp only [Frame.pop, h.location, h.path]
  · exact List.forall₂_drop n h.levels

theorem leave (h : f'.Covers f) {x y : Value} (hx : x.Covers y) (keep : Bool) :
    (f'.leave x keep).Covers (f.leave y keep) := by
  unfold Frame.leave
  rw [h.path]
  split
  · exact h
  · rename_i i _ _
    have popped := (h.pop 1).comeFrom i
    simp only
    split
    · exact popped.put i (.some hx)
    · exact popped

theorem finish (h : f'.Covers f) (sys : System) {x y : Value} (hx : x.Covers y) :
    (sys.finish x f').Covers (sys.finish y f) := by
  unfold System.finish
  rw [h.location]
  exact h.leave hx _

end Covers

end Frame

/-- What one store knows of the variables that are tracked holds in the other. -/
def Store.Covers (track : Variable → Bool) (m' m : Store) : Prop :=
  ∀ v, track v = true → Value.Covers ((m'.get? v).getD .unknown) ((m.get? v).getD .unknown)

namespace Store.Covers

variable {track : Variable → Bool} {m' m : Store}

theorem insert (h : Store.Covers track m' m) (v : Variable) {x y : Value} (hx : x.Covers y) :
    Store.Covers track (m'.insert v x) (m.insert v y) := by
  intro w hw
  rw [Table.get?_insert, Table.get?_insert]
  split
  · exact hx
  · exact h w hw

/-- A variable that only the other side tracks. -/
theorem insert_right (h : Store.Covers track m' m) {v : Variable} (hv : track v = false)
    (y : Value) : Store.Covers track m' (m.insert v y) := by
  intro w hw
  rw [Table.get?_insert, if_neg]
  · exact h w hw
  · rintro rfl
    rw [hv] at hw
    cases hw

theorem erase (h : Store.Covers track m' m) (v : Variable) :
    Store.Covers track (m'.erase v) (m.erase v) := by
  have look : ∀ (m : Store) (w : Variable),
      (m.erase v).get? w = if decide (w ≠ v) then m.get? w else none := fun m w =>
    Table.get?_keep fun w => decide (w ≠ v)
  intro w hw
  rw [look, look]
  split
  · exact h w hw
  · exact .refl _

end Store.Covers

structure ProcessState.Covers (track : Variable → Bool) (q p : ProcessState) : Prop where
  blocker : q.blocker = p.blocker
  stack : List.Forall₂ Frame.Covers q.stack p.stack
  locals : Store.Covers track q.locals p.locals

namespace ProcessState.Covers

variable {track : Variable → Bool} {q p : ProcessState}

theorem block (h : q.Covers track p) (b : Option Blocker) : (q.block b).Covers track (p.block b) :=
  ⟨rfl, h.stack, h.locals⟩

theorem push (h : q.Covers track p) {f' f : Frame} (hf : f'.Covers f) :
    (q.push f').Covers track (p.push f) :=
  ⟨h.blocker, .cons hf h.stack, h.locals⟩

theorem pop (h : q.Covers track p) : q.pop.Covers track p.pop := by
  refine ⟨h.blocker, ?_, h.locals⟩
  have := List.forall₂_drop 1 h.stack
  rwa [List.drop_one, List.drop_one] at this

theorem mapTop (h : q.Covers track p) {f' f : Frame → Frame}
    (hf : ∀ {x' x : Frame}, x'.Covers x → (f' x').Covers (f x)) :
    (q.mapTop f').Covers track (p.mapTop f) := by
  obtain ⟨blocker', stack', locals'⟩ := q
  obtain ⟨blocker, stack, locals⟩ := p
  cases h.stack with
  | nil => exact h
  | cons hx hrest => exact ⟨h.blocker, .cons (hf hx) hrest, h.locals⟩

theorem setLocal (h : q.Covers track p) (v : Variable) {x y : Value} (hx : x.Covers y) :
    (q.setLocal v x).Covers track (p.setLocal v y) :=
  ⟨h.blocker, h.stack, h.locals.insert v hx⟩

theorem setLocal_right (h : q.Covers track p) {v : Variable} (hv : track v = false) (y : Value) :
    q.Covers track (p.setLocal v y) :=
  ⟨h.blocker, h.stack, h.locals.insert_right hv y⟩

theorem routines (h : q.Covers track p) : q.routines = p.routines := by
  unfold ProcessState.routines
  rw [← List.forall₂_eq_eq_eq, List.forall₂_map_left_iff, List.forall₂_map_right_iff]
  exact h.stack.imp fun _ _ hf => congrArg Location.routine hf.location

theorem dropParams (h : q.Covers track p) (r : Routine) :
    (Simulator.dropParams q r).Covers track (Simulator.dropParams p r) := by
  unfold Simulator.dropParams
  rw [h.routines]
  generalize p.routines = stack
  induction r.params generalizing q p with
  | nil => exact h
  | cons d ds ih => exact ih ⟨h.blocker, h.stack, h.locals.erase _⟩

end ProcessState.Covers

structure GlobalState.Covers (track : Variable → Bool) (g' g : GlobalState) : Prop where
  values : Store.Covers track g'.values g.values
  pending : ∀ e, g'.pending.get? e = g.pending.get? e
  updates : g'.updates = g.updates
  stopped : g'.stopped = g.stopped

namespace GlobalState.Covers

variable {track : Variable → Bool} {g' g : GlobalState}

theorem setValue (h : g'.Covers track g) (v : Variable) {x y : Value} (hx : x.Covers y) :
    (g'.setValue v x).Covers track (g.setValue v y) :=
  ⟨h.values.insert v hx, h.pending, h.updates, h.stopped⟩

theorem setValue_right (h : g'.Covers track g) {v : Variable} (hv : track v = false) (y : Value) :
    g'.Covers track (g.setValue v y) :=
  ⟨h.values.insert_right hv y, h.pending, h.updates, h.stopped⟩

theorem setPending (h : g'.Covers track g) (e : Event) (d : Option Delay) :
    (g'.setPending e d).Covers track (g.setPending e d) := by
  cases d with
  | some d =>
      refine ⟨h.values, fun e' => ?_, h.updates, h.stopped⟩
      simp only [GlobalState.setPending, Table.get?_insert, h.pending]
  | none =>
      have look : ∀ (m : Table Event Delay) (e' : Event),
          (m.erase e).get? e' = if decide (e' ≠ e) then m.get? e' else none := fun m e' =>
        Table.get?_keep fun e' => decide (e' ≠ e)
      refine ⟨h.values, fun e' => ?_, h.updates, h.stopped⟩
      simp only [GlobalState.setPending, look, h.pending]

theorem requestUpdate (h : g'.Covers track g) (i : Instance) :
    (g'.requestUpdate i).Covers track (g.requestUpdate i) := by
  unfold GlobalState.requestUpdate
  rw [h.updates]
  split
  · exact h
  · exact ⟨h.values, h.pending, rfl, h.stopped⟩

theorem stop (h : g'.Covers track g) : g'.stop.Covers track g.stop :=
  ⟨h.values, fun _ => rfl, h.updates, rfl⟩

end GlobalState.Covers

structure State.Covers (track : Variable → Bool) (x' x : State) : Prop where
  global : x'.global.Covers track x.global
  procs : List.Forall₂ (ProcessState.Covers track) x'.procs x.procs
  update : Option.Rel (ProcessState.Covers track) x'.update x.update

/-- The transitions are of the same process, and both or none can be changed. What was learned on the way
to them counts for nothing. -/
structure Transition.Covers (track : Variable → Bool) (t' t : Transition) : Prop where
  proc : t'.proc = t.proc
  state : t'.state.Covers track t.state
  frozen : t'.frozen = t.frozen

namespace Transition.Covers

variable {track : Variable → Bool} {t' t : Transition}

theorem running? (h : t'.Covers track t) :
    Option.Rel (ProcessState.Covers track) t'.running? t.running? := by
  unfold Transition.running?
  rw [h.proc]
  cases t.proc with
  | none => exact h.state.update
  | some p => exact rel_getElem? h.state.procs _

theorem top? (h : t'.Covers track t) : Option.Rel Frame.Covers t'.top? t.top? := by
  unfold Transition.top?
  rcases optionRel_cases h.running? with ⟨hq, hp⟩ | ⟨q, p, hq, hp, rel⟩
  · rw [hq, hp]
    exact .none
  · rw [hq, hp]
    have := rel_getElem? rel.stack 0
    rwa [← List.head?_eq_getElem?, ← List.head?_eq_getElem?] at this

theorem setRunning (h : t'.Covers track t) {q p : ProcessState} (hps : q.Covers track p) :
    (t'.setRunning q).Covers track (t.setRunning p) := by
  unfold Transition.setRunning
  rw [h.proc]
  cases t.proc with
  | none => exact ⟨rfl, ⟨h.state.global, h.state.procs, .some hps⟩, h.frozen⟩
  | some p => exact ⟨rfl, ⟨h.state.global, rel_set h.state.procs hps _, h.state.update⟩, h.frozen⟩

theorem mapRunning (h : t'.Covers track t) {f' f : ProcessState → ProcessState}
    (hf : ∀ {q p : ProcessState}, q.Covers track p → (f' q).Covers track (f p)) :
    (t'.mapRunning f').Covers track (t.mapRunning f) := by
  unfold Transition.mapRunning
  rcases optionRel_cases h.running? with ⟨hq, hp⟩ | ⟨q, p, hq, hp, rel⟩
  · simp only [hq, hp]
    exact h
  · simp only [hq, hp]
    exact h.setRunning (hf rel)

/-- A change of the other side only. -/
theorem mapRunning_right (h : t'.Covers track t) {f : ProcessState → ProcessState}
    (hf : ∀ {q p : ProcessState}, q.Covers track p → q.Covers track (f p)) :
    t'.Covers track (t.mapRunning f) := by
  unfold Transition.mapRunning
  rcases optionRel_cases h.running? with ⟨hq, hp⟩ | ⟨q, p, hq, hp, rel⟩
  · simp only [hp]
    exact h
  · simp only [hp]
    unfold Transition.running? at hq
    unfold Transition.setRunning
    rw [h.proc] at hq
    cases hproc : t.proc with
    | none =>
        simp only [hproc] at hq
        refine ⟨h.proc.trans hproc, ⟨h.state.global, h.state.procs, ?_⟩, h.frozen⟩
        rw [hq]
        exact .some (hf rel)
    | some p =>
        simp only [hproc] at hq
        refine ⟨h.proc.trans hproc, ⟨h.state.global, rel_set_right h.state.procs ?_, h.state.update⟩, h.frozen⟩
        intro q' hq'
        rw [hq] at hq'
        obtain rfl := Option.some.inj hq'
        exact hf rel

theorem mapTop (h : t'.Covers track t) {f' f : Frame → Frame}
    (hf : ∀ {x' x : Frame}, x'.Covers x → (f' x').Covers (f x)) :
    (t'.mapTop f').Covers track (t.mapTop f) :=
  h.mapRunning fun hps => hps.mapTop hf

theorem mapGlobal (h : t'.Covers track t) {f' f : GlobalState → GlobalState}
    (hf : ∀ {g' g : GlobalState}, g'.Covers track g → (f' g').Covers track (f g)) :
    (t'.mapGlobal f').Covers track (t.mapGlobal f) :=
  ⟨h.proc, ⟨hf h.state.global, h.state.procs, h.state.update⟩, h.frozen⟩

theorem mapGlobal_right (h : t'.Covers track t) {f : GlobalState → GlobalState}
    (hf : ∀ {g' g : GlobalState}, g'.Covers track g → g'.Covers track (f g)) :
    t'.Covers track (t.mapGlobal f) :=
  ⟨h.proc, ⟨hf h.state.global, h.state.procs, h.state.update⟩, h.frozen⟩

end Transition.Covers

end DeltaSlice

import DeltaSlice.Proofs.Keys.States
import DeltaSlice.Proofs.Structured.Code
import DeltaSlice.Proofs.Structured.Control
import DeltaSlice.Proofs.Structured.Scalars

/-!
What stays true while structured code runs: the call stack is one of those that may come up, the code
runs for the instance of the process, and frames and variables hold numbers, truth values and the
targets of assignments, all within the vocabulary. One lemma per kind of node, then any small step.
-/

namespace DeltaSlice

namespace Structured

/-- A number, a truth value, the target of an assignment, or not known. -/
def Simple (w : Vocabulary) : Value → Prop
  | .known (.target v) => (Payload.target v).Within w
  | x => x.isScalar = true

namespace Simple

variable {w : Vocabulary} {x : Value}

theorem of_scalar (h : x.isScalar = true) : Simple w x := by
  unfold Simple
  split
  · cases h
  · exact h

theorem cases (h : Simple w x) :
    x.isScalar = true ∨ ∃ v, x = .known (.target v) ∧ (Payload.target v).Within w := by
  unfold Simple at h
  split at h
  · exact .inr ⟨_, rfl, h⟩
  · exact .inl h

theorem within (h : Simple w x) : x.Within w := by
  rcases h.cases with h | ⟨v, rfl, hv⟩
  · unfold Value.isScalar at h
    split at h
    · trivial
    · trivial
    · trivial
    · cases h
  · exact hv

theorem content (h : Simple w x) : x.content = x := by
  rcases h.cases with h | ⟨v, rfl, -⟩
  · unfold Value.isScalar at h
    split at h
    · rfl
    · rfl
    · rfl
    · cases h
  · rfl

theorem not_list (h : Simple w x) : x.isList = false := by
  rcases h.cases with h | ⟨v, rfl, -⟩
  · unfold Value.isScalar at h
    split at h
    · rfl
    · rfl
    · rfl
    · cases h
  · rfl

theorem apply (h : Simple w x) (op : BinaryOp) (y : Value) : Simple w (Value.apply op x y) := by
  rcases h.cases with h | ⟨v, rfl, -⟩
  · exact of_scalar (Value.apply_scalar op h y)
  · refine of_scalar ?_
    unfold Value.apply Value.and Value.or
    split
    · split
      · rfl
      · split <;> rfl
    · split
      · rfl
      · split <;> rfl
    · split <;> rfl
    · split <;> rfl
    · rfl

end Simple

/-- A frame of code that runs for an instance. -/
structure TameFrame (w : Vocabulary) (this : Instance) (f : Frame) : Prop where
  receiver : f.receiver = .lit (.inst this)
  slots : ∀ l ∈ f.levels, ∀ x ∈ l, ∀ v, x = some v → Simple w v

namespace TameFrame

variable {w : Vocabulary} {this : Instance} {f : Frame}

theorem start (r : Routine) : TameFrame w this (.start r (.lit (.inst this))) :=
  ⟨rfl, by simp [Frame.start]⟩

theorem value (h : TameFrame w this f) (above i : Int) : Simple w (f.value above i) := by
  unfold Frame.value
  cases hx : f.slot? above i with
  | none => exact .of_scalar rfl
  | some v =>
      have hx := Option.join_eq_some_iff.1 hx
      obtain ⟨l, hl, hx⟩ := Option.bind_eq_some_iff.1 hx
      exact h.slots l (mem_of_elementAt? hl) (some v) (mem_of_elementAt? hx) v rfl

theorem comeFrom (h : TameFrame w this f) (i : Int) :
    TameFrame w this { f with comingFrom := i } := ⟨h.receiver, h.slots⟩

theorem enter (h : TameFrame w this f) (i : Int) : TameFrame w this (f.enter i) :=
  ⟨h.receiver, List.forall_mem_cons.2 ⟨by simp, h.slots⟩⟩

theorem pop (h : TameFrame w this f) (n : Nat) : TameFrame w this (f.pop n) :=
  ⟨h.receiver, fun l hl => h.slots l (List.mem_of_mem_drop hl)⟩

theorem put (h : TameFrame w this f) (i : Int) {x : Option Value}
    (hx : ∀ v, x = some v → Simple w v) : TameFrame w this (f.put i x) := by
  unfold Frame.put
  split
  · rename_i l ls hlevels
    have slots := h.slots
    rw [hlevels, List.forall_mem_cons] at slots
    refine ⟨h.receiver, List.forall_mem_cons.2 ⟨fun y hy v hv => ?_, slots.2⟩⟩
    rcases Level.mem_put_cases hy with before | rfl | rfl
    · exact slots.1 y before v hv
    · cases hv
    · exact hx v hv
  · exact h

theorem leave (h : TameFrame w this f) {x : Value} (hx : Simple w x) (keep : Bool) :
    TameFrame w this (f.leave x keep) := by
  unfold Frame.leave
  split
  · exact h
  · rename_i i _ _
    have popped := (h.pop 1).comeFrom i
    simp only
    split
    · exact popped.put i fun v hv => Option.some.inj hv ▸ hx
    · exact popped

end TameFrame

structure TameStore (w : Vocabulary) (s : Store) : Prop where
  keys : (s.entries.map (·.1)).Nodup
  vars : ∀ e ∈ s.entries, e.1 ∈ w.vars
  values : ∀ e ∈ s.entries, Simple w e.2

namespace TameStore

variable {w : Vocabulary} {s : Store}

theorem within (h : TameStore w s) : Store.Within w s :=
  ⟨h.keys, h.vars, fun e he => (h.values e he).within⟩

theorem empty : TameStore w .empty := ⟨.nil, by simp [Table.empty], by simp [Table.empty]⟩

theorem get? (h : TameStore w s) {v : Variable} {x : Value} (hx : s.get? v = some x) : Simple w x :=
  h.values _ (Table.mem_of_get? hx)

theorem insert (h : TameStore w s) {v : Variable} (hv : v ∈ w.vars) {x : Value} (hx : Simple w x) :
    TameStore w (s.insert v x) := by
  refine ⟨Table.nodup_insert h.keys, fun e he => ?_, fun e he => ?_⟩
  · rcases Table.mem_insert he with rfl | he
    · exact hv
    · exact h.vars e he
  · rcases Table.mem_insert he with rfl | he
    · exact hx
    · exact h.values e he

theorem erase (h : TameStore w s) (v : Variable) : TameStore w (s.erase v) :=
  ⟨Table.nodup_keep (fun k => decide (k ≠ v)) h.keys, fun e he => h.vars e (List.mem_of_mem_filter he),
    fun e he => h.values e (List.mem_of_mem_filter he)⟩

theorem dropLocals (h : TameStore w s) (stack : List Routine) (ds : List Decl) :
    TameStore w (Setting.dropLocals stack s ds) := by
  induction ds generalizing s with
  | nil => exact h
  | cons d ds ih => exact ih (h.erase _)

end TameStore

namespace Setting

variable (S : Setting) (w : Vocabulary)

structure Tame (c : Config) : Prop where
  ready : c.proc.blocker = none
  called : Called S.sys S.proc.routine c.proc.routines
  frames : ∀ f ∈ c.proc.stack, TameFrame w S.proc.inst f
  locals : TameStore w c.proc.locals
  values : TameStore w c.values

/-- The transition shows such a configuration. -/
def Tamed (t : Transition) : Prop := ∃ c, S.Shows t c ∧ S.Tame w c

/-- As long as the code has not ended, the results of a step show such configurations. -/
def Keeps (x : Except Halt SmallStep) : Prop :=
  ∀ st, x = .ok st → st.ends = false → ∀ r ∈ st.results, S.Tamed w r

variable {S} {w} {t u : Transition} {e : Option Expr} {i : Int} {b : Bool}

namespace Tamed

/-- What was noted down on the way is no part of a configuration. -/
theorem of_eq (h : S.Tamed w t) (proc : u.proc = t.proc) (state : u.state = t.state)
    (frozen : u.frozen = t.frozen) : S.Tamed w u :=
  h.imp fun _ ⟨shows, tame⟩ => ⟨shows.of_eq proc state frozen, tame⟩

theorem mapScratch (h : S.Tamed w t) (f : Scratch → Scratch) : S.Tamed w (t.mapScratch f) :=
  h.of_eq rfl rfl rfl

theorem mapConditions (h : S.Tamed w t) (f : Conditions → Conditions) :
    S.Tamed w (t.mapConditions f) := h.mapScratch _

theorem addRead (h : S.Tamed w t) (v : Variable) : S.Tamed w (t.addRead v) := h.mapScratch _

theorem addWritten (h : S.Tamed w t) (v : Variable) : S.Tamed w (t.addWritten v) := h.mapScratch _

/-- The frame on top, and the call stack. -/
theorem top (h : S.Tamed w t) {ps : ProcessState} {f : Frame} (hps : t.running? = some ps)
    (hf : t.top? = some f) : TameFrame w S.proc.inst f ∧ TameStore w ps.locals ∧
      (∃ rest, ps.routines = f.location.routine :: rest) ∧
      Called S.sys S.proc.routine ps.routines := by
  obtain ⟨c, shows, tame⟩ := h
  rw [shows.running?] at hps
  obtain rfl := Option.some.inj hps
  rw [shows.top?] at hf
  obtain ⟨rest, hstack⟩ := List.head?_eq_some_iff.1 hf
  refine ⟨tame.frames f (by simp [hstack]), tame.locals, ⟨rest.map (·.location.routine), ?_⟩,
    tame.called⟩
  simp [ProcessState.routines, hstack]

theorem values (h : S.Tamed w t) : TameStore w t.state.global.values := by
  obtain ⟨c, shows, tame⟩ := h
  rw [shows.state]
  exact tame.values

theorem mapTop (h : S.Tamed w t) {g : Frame → Frame}
    (tame : ∀ f, TameFrame w S.proc.inst f → TameFrame w S.proc.inst (g f))
    (routine : ∀ f, (g f).location.routine = f.location.routine) : S.Tamed w (t.mapTop g) := by
  obtain ⟨⟨⟨blocker, stack, locals⟩, values⟩, shows, was⟩ := h
  refine ⟨_, shows.mapRunning _, ?_⟩
  cases stack with
  | nil => exact was
  | cons f rest =>
      have frames := List.forall_mem_cons.1 was.frames
      refine ⟨was.ready, ?_, List.forall_mem_cons.2 ⟨tame f frames.1, frames.2⟩, was.locals,
        was.values⟩
      have := was.called
      simp only [ProcessState.routines, List.map_cons, ProcessState.mapTop, routine] at this ⊢
      exact this

theorem enter (h : S.Tamed w t) (i : Int) : S.Tamed w (t.enter i) :=
  h.mapTop (fun _ hf => hf.enter i) fun _ => rfl

theorem finish (h : S.Tamed w t) {x : Value} (hx : Simple w x) :
    S.Tamed w (t.finish S.sim.program.system x) := by
  rw [Transition.finish_eq]
  refine (mapTop h (fun _ hf => hf.leave hx _) fun f => ?_).of_eq rfl rfl rfl
  unfold Frame.leave
  split
  · rfl
  · simp only
    split
    · rw [Frame.put_location]
      rfl
    · rfl

theorem finish_unknown (h : S.Tamed w t) : S.Tamed w (t.finish S.sim.program.system .unknown) :=
  h.finish (.of_scalar rfl)

/-- Goes to another part of an expression further up. -/
theorem unwind (h : S.Tamed w t) (n : Nat) (i : Int) :
    S.Tamed w (t.mapTop fun f => { f.pop n with comingFrom := i }) :=
  h.mapTop (fun _ hf => (hf.pop n).comeFrom i) fun _ => rfl

/-- Comes from a child, with its result. -/
theorem comeFrom (h : S.Tamed w t) (i : Int) {x : Option Value} (hx : ∀ v, x = some v → Simple w v) :
    S.Tamed w (t.editTop (Frame.editComeFrom i x)) := by
  rw [Transition.comeFrom_eq]
  refine (mapTop h (fun _ hf => (hf.comeFrom i).put i hx) fun f => ?_).of_eq rfl rfl rfl
  rw [Frame.put_location]

theorem store (h : S.Tamed w t) {v : Variable} (hv : v ∈ w.vars) {x : Value} (hx : Simple w x) :
    S.Tamed w (S.sim.store t v x) := by
  obtain ⟨c, shows, tame⟩ := h
  unfold Simulator.store
  rw [if_pos (S.tracked v)]
  split
  · exact ⟨_, shows.mapRunning _, tame.ready, tame.called, tame.frames, tame.locals.insert hv hx,
      tame.values⟩
  · exact ⟨_, shows.setValue v x, tame.ready, tame.called, tame.frames, tame.locals,
      tame.values.insert hv hx⟩

theorem bindParams (h : S.Tamed w t) {stack : List Routine} {ds : List Decl}
    (hds : ∀ d ∈ ds, Variable.ofFrame stack (.decl d) ∈ w.vars) {xs : List Value}
    (hxs : ∀ x ∈ xs, Simple w x) : S.Tamed w (S.sim.bindParams stack t ds xs) :=
  Simulator.bindParams_induction (fun _ h => h.addWritten _) (fun hd hx h => h.store (hds _ hd) (hxs _ hx)) h

/-- A call puts a frame on the stack. -/
theorem push (h : S.Tamed w t) {r : Routine}
    (called : ∀ ps, t.running? = some ps → Called S.sys S.proc.routine (r :: ps.routines)) :
    S.Tamed w (t.mapRunning (·.push (.start r (.lit (.inst S.proc.inst))))) := by
  obtain ⟨c, shows, tame⟩ := h
  exact ⟨_, shows.mapRunning _, tame.ready, called _ shows.running?,
    List.forall_mem_cons.2 ⟨.start r, tame.frames⟩, tame.locals, tame.values⟩

/-- A return to a caller takes it off. -/
theorem pop (h : S.Tamed w t) {caller : Frame}
    (back : (t.mapRunning (·.pop)).top? = some caller) : S.Tamed w (t.mapRunning (·.pop)) := by
  obtain ⟨⟨⟨blocker, stack, locals⟩, values⟩, shows, tame⟩ := h
  have popped := shows.mapRunning (·.pop)
  rw [popped.top?] at back
  obtain ⟨rest, hrest⟩ := List.head?_eq_some_iff.1 back
  refine ⟨_, popped, tame.ready, ?_, fun f hf => tame.frames f (List.mem_of_mem_tail hf),
    tame.locals, tame.values⟩
  cases stack with
  | nil => cases hrest
  | cons f stack =>
      obtain rfl : stack = caller :: rest := hrest
      exact tame.called.of_cons

theorem dropParams (h : S.Tamed w t) (r : Routine) :
    S.Tamed w (t.mapRunning (Simulator.dropParams · r)) := by
  obtain ⟨c, shows, tame⟩ := h
  have dropped := shows.mapRunning (Simulator.dropParams · r)
  rw [dropParams_eq] at dropped
  exact ⟨_, dropped, tame.ready, tame.called, tame.frames, tame.locals.dropLocals _ _, tame.values⟩

end Tamed

end Setting

end Structured

end DeltaSlice

/-!
Small steps of structured code keep configurations tame. One lemma per kind of node, and from them the
one about any small step.
-/

namespace DeltaSlice

namespace Structured

theorem Simple.eventList? {w : Vocabulary} {x : Value} (h : Simple w x) (choice : Bool) (y : Value) :
    Simulator.eventList? choice x y = none := by
  rcases h.cases with h | ⟨v, rfl, -⟩
  · exact Simulator.eventList?_scalar h choice y
  · rfl

section Code

variable {sys : System} {main r : Routine} {rest : List Routine} {path : Path}

theorem Code.unqualified (code : Code sys main) (called : Called sys main (r :: rest)) :
    sys.isQualified ⟨r, path⟩ = false := by
  unfold System.isQualified
  split
  · rename_i i up id x m hpath above
    exact absurd (code r rest _ _ called above) Bool.false_ne_true
  · rfl

end Code

namespace Setting

variable {S : Setting} {w : Vocabulary} {t u u' : Transition} {o : Option Expr} {i : Int} {b : Bool}

namespace Keeps

theorem failed (f : Halt) : S.Keeps w (.error f) := fun _ h => by cases h

theorem repeating (h : S.Tamed w u) : S.Keeps w (.ok { SmallStep.one o i u with repeats := b }) := by
  intro st hst _ r hr
  obtain rfl := Except.ok.inj hst
  obtain rfl := List.mem_singleton.1 hr
  exact h

theorem one (h : S.Tamed w u) : S.Keeps w (.ok (.one o i u)) := repeating h

theorem fork (h : S.Tamed w u) (h' : S.Tamed w u') :
    S.Keeps w (.ok { SmallStep.one o i t with results := [u, u'], repeats := b }) := by
  intro st hst _ r hr
  obtain rfl := Except.ok.inj hst
  rcases List.mem_pair.1 hr with rfl | rfl
  · exact h
  · exact h'

theorem ended {st : SmallStep} (h : st.ends = true) : S.Keeps w (.ok st) := by
  intro st' hst ends
  obtain rfl := Except.ok.inj hst
  rw [h] at ends
  cases ends

end Keeps

section Nodes

variable (h : S.Tamed w t) (top : Frame)
include h

theorem keeps_return (o : Option Expr) (i : Int) {v : Value} (hv : Simple w v) :
    S.Keeps w (.ok (S.sim.returnFrom t o i v)) := by
  unfold Simulator.returnFrom
  simp only
  split
  · exact .ended rfl
  · rename_i caller back
    have popped : S.Tamed w (t.editRunning ProcessState.editPop) := by
      rw [Transition.editPop_eq] at back ⊢
      exact (h.pop back).of_eq rfl rfl rfl
    have given := popped.comeFrom (caller.comingFrom + 1) (x := some v) fun x hx => Option.some.inj hx ▸ hv
    split
    · exact .one ((given.mapConditions _).dropParams _)
    · exact .one (given.mapConditions _)

theorem keeps_body : S.Keeps w (.ok (S.sim.bodyStep t top)) := by
  unfold Simulator.bodyStep
  simp only
  split
  · exact .one (h.enter _)
  · exact keeps_return h _ _ (.of_scalar rfl)

variable (e : Expr)

theorem keeps_branch (yes no : List Expr) : S.Keeps w (.ok (S.sim.branchStep t top e yes no)) := by
  have taken : ∀ c, S.Tamed w (if yes.isEmpty then ((t.mapConditions (·.add e.id c)).mapConditions
      (·.dropThrough e.id)).finish S.sim.program.system .unknown
      else (t.mapConditions (·.add e.id c)).enter 1) := by
    intro c
    split
    · exact ((h.mapConditions _).mapConditions _).finish_unknown
    · exact (h.mapConditions _).enter 1
  have passed : ∀ c : Value, S.Tamed w (if no.isEmpty then t.finish S.sim.program.system .unknown
      else (t.mapConditions (·.add e.id c.not)).enter ((yes.length : Int) + 1)) := by
    intro c
    split
    · exact h.finish_unknown
    · exact (h.mapConditions _).enter _
  unfold Simulator.branchStep
  simp only
  split
  · exact .one (h.enter 0)
  · split
    · split
      · exact .fork (taken _) (passed _)
      · exact .one (taken _)
      · exact .one (passed _)
    · split
      · split
        · exact .one (h.mapConditions _).finish_unknown
        · exact .one (h.enter _)
      · split
        · exact .repeating (h.mapConditions _).finish_unknown
        · exact .one (h.enter _)

theorem keeps_loop (body : List Expr) (testsFirst : Bool) :
    S.Keeps w (.ok (S.sim.loopStep t top e body testsFirst)) := by
  unfold Simulator.loopStep
  simp only
  split
  · split
    · exact .repeating ((h.mapConditions _).enter 0)
    · exact .one ((h.mapConditions _).enter 1)
  · split
    · split
      · exact .fork ((h.mapConditions _).enter _) (h.mapConditions _).finish_unknown
      · exact .repeating (h.enter _)
      · exact .one (h.mapConditions _).finish_unknown
    · split
      · exact .repeating (h.enter 0)
      · exact .one (h.enter _)

theorem keeps_for (body : List Expr) : S.Keeps w (.ok (S.sim.forStep t top e body)) := by
  unfold Simulator.forStep
  simp only
  split
  · exact .one ((h.mapConditions _).enter 0)
  · split
    · exact .repeating (h.enter 1)
    · split
      · split
        · exact .fork ((h.mapConditions _).enter 2) (h.mapConditions _).finish_unknown
        · exact .one (h.enter 2)
        · exact .one (h.mapConditions _).finish_unknown
      · split
        · exact .repeating (h.enter 1)
        · exact .one (h.enter _)

theorem keeps_exit (label : String) : S.Keeps w (S.sim.exitStep t top e label) := by
  unfold Simulator.exitStep
  split
  · exact .failed _
  · split
    · exact .failed _
    · exact .one (((h.mapConditions _).mapTop (fun _ hf => hf.pop _) fun _ => rfl).comeFrom _ (by simp))

theorem keeps_next (label : String) : S.Keeps w (S.sim.nextStep t top e label) := by
  unfold Simulator.nextStep
  split
  · exact .failed _
  · split
    · exact .failed _
    · exact .one ((h.mapConditions _).unwind _ _)

section Results

variable {top} (tame : TameFrame w S.proc.inst top)
include tame

theorem keeps_aggregate (he : e.isStructured = true) :
    S.Keeps w (S.sim.aggregateStep t top e) := by
  have simple := tame.value 0 0
  have result : ∀ x v, S.sim.aggregate t top e = .ok (v, x) → Simple w v ∧ S.Tamed w x := by
    intro x v hx
    unfold Simulator.aggregate at hx
    simp only at hx
    split at hx
    · cases hx
      exact ⟨.of_scalar (Value.applyUnary_scalar _ _), h⟩
    · split at hx
      · cases hx
      · rename_i target htarget
        cases hx
        rw [htarget] at simple
        exact ⟨tame.value 0 1, (h.addWritten _).store simple.1 (tame.value 0 1)⟩
      · cases hx
    · simp only [simple.eventList?, ite_self] at hx
      cases hx
      exact ⟨simple.apply _ _, h⟩
    · cases he
    · cases hx
      exact ⟨simple, h⟩
    · cases hx
      exact ⟨.of_scalar rfl, h⟩
  unfold Simulator.aggregateStep
  simp only
  split
  · exact .one (h.enter _)
  · intro st hst
    obtain ⟨⟨v, x⟩, hx, rfl⟩ := Success.map_iff.1 hst
    obtain ⟨hv, tamed⟩ := result x v hx
    exact Keeps.one (tamed.finish hv) _ rfl

end Results

end Nodes

section Steps

variable (code : Code S.sys S.proc.routine) (speaks : Speaks w S.sys S.proc) (h : S.Tamed w t)
  {ps : ProcessState} {top : Frame} (hps : t.running? = some ps) (htop : t.top? = some top)
include code speaks h hps htop

theorem keeps_call {id : Nat} {m : Member} {args : List Expr}
    (he : S.sys.at? top.location = some (.call id (.member m) args)) :
    S.Keeps w (S.sim.callStep t ps top (.call id (.member m) args) (.member m) args.length) := by
  obtain ⟨tame, -, ⟨rest, hrest⟩, called⟩ := h.top hps htop
  rw [hrest] at called
  have unqualified : S.sim.program.system.isQualified top.location = false := code.unqualified called
  have inner : Called S.sys S.proc.routine (.member m :: ps.routines) := by
    rw [hrest]
    exact called.call he
  unfold Simulator.callStep
  simp only
  split
  · exact .one (h.enter _)
  · split
    · exact .one (h.finish (tame.value _ _))
    · rw [unqualified]
      simp only [Bool.false_eq_true, if_false, tame.receiver]
      have pushed := h.push (r := .member m) fun ps' hps' => by
        obtain rfl := Option.some.inj (hps.symm.trans hps')
        exact inner
      refine .one ((pushed.mapConditions _).bindParams (fun d hd => ?_) fun x hx => ?_)
      · exact speaks.params _ _ d inner hd
      · obtain ⟨k, -, rfl⟩ := List.mem_map.1 hx
        exact tame.value _ _

theorem read_tame {id : Nat} {d : Decl} (he : S.sys.at? top.location = some (.var id d)) :
    Simple w (S.sim.readVariable t ps top d).1 ∧ S.Tamed w (S.sim.readVariable t ps top d).2 := by
  obtain ⟨tame, locals, ⟨rest, hrest⟩, called⟩ := h.top hps htop
  rw [hrest] at called
  have unqualified : S.sim.program.system.isQualified top.location = false := code.unqualified called
  have named : S.sim.referenced ps top d = variableOf S.proc.inst (top.location.routine :: rest) d := by
    unfold Simulator.referenced variableOf
    rw [unqualified, hrest]
    simp only [Bool.false_eq_true, if_false, tame.receiver]
    rfl
  have target := speaks.names _ _ _ _ _ called he
  unfold Simulator.readVariable
  simp only [named]
  split
  · refine ⟨?_, h⟩
    split
    · exact target
    · exact .of_scalar rfl
  · refine ⟨?_, h.addRead _⟩
    split
    · have held : ∀ {s : Store}, TameStore w s → ∀ v, Simple w ((s.get? v).getD .unknown) := by
        intro s hs v
        cases hv : s.get? v with
        | none => exact .of_scalar rfl
        | some x => exact hs.get? hv
      unfold Simulator.load
      split
      · exact held locals _
      · exact held h.values _
    · exact .of_scalar rfl

theorem keeps_expr {e : Expr} (he : S.sys.at? top.location = some e) :
    S.Keeps w (S.sim.exprStep t ps top e).result := by
  obtain ⟨tame, locals, ⟨rest, hrest⟩, called⟩ := h.top hps htop
  have structured := code _ rest _ e (hrest ▸ called) he
  cases e with
  | const id l =>
      have scalar : (Value.lit l).isScalar = true := by
        cases l with
        | int | bool => rfl
        | _ => cases structured
      simp only [Simulator.exprStep]
      split
      · exact .failed _
      · exact .one (h.finish (.of_scalar scalar))
  | var id d =>
      obtain ⟨simple, tamed⟩ := read_tame code speaks h hps htop he
      exact .one (tamed.finish simple)
  | unary | binary | bracket | block => exact keeps_aggregate h _ tame structured
  | branch id c yes no => exact keeps_branch h top _ yes no
  | whileLoop id l c body => exact keeps_loop h top _ body true
  | doLoop id l c body => exact keeps_loop h top _ body false
  | forLoop id l init c post body => exact keeps_for h top _ body
  | exit id l => exact keeps_exit h top _ l
  | next id l => exact keeps_next h top _ l
  | ret id value =>
      simp only [Simulator.exprStep]
      split
      · exact .one (h.enter 0)
      · refine keeps_return h _ _ ?_
        split
        · exact tame.value 0 0
        · exact .of_scalar rfl
  | call id r args =>
      cases r with
      | member m => exact keeps_call code speaks h hps htop he
      | wait | requestUpdate => cases structured
  | event | switch | arm | access | notify | stop | empty => cases structured

end Steps

theorem Shows.unique {c c' : Config} (h : S.Shows t c) (h' : S.Shows t c') : c = c' := by
  have running := h.running?.symm.trans h'.running?
  have values := congrArg (·.global.values) (h.state.symm.trans h'.state)
  obtain ⟨ps, values₀⟩ := c
  obtain ⟨ps', values₁⟩ := c'
  obtain rfl : ps = ps' := Option.some.inj running
  obtain rfl : values₀ = values₁ := values
  rfl

section Runs

variable (code : Code S.sys S.proc.routine) (speaks : Speaks w S.sys S.proc)
include code speaks

theorem keeps_advance (h : S.Tamed w t) : S.Keeps w (S.sim.advance t).result := by
  unfold Simulator.advance
  split
  · rename_i ps top hps htop
    split
    · exact keeps_body h top
    · split
      · exact .failed _
      · rename_i e he
        rw [S.quiet]
        exact keeps_expr code speaks h hps htop he
  · exact .failed _

theorem keeps_smallStep (h : S.Tamed w t) : S.Keeps w (S.sim.smallStep t).result := by
  intro st hst ends r hr
  obtain ⟨st₀, rs, hadv, hobs, rfl⟩ := Simulator.smallStep_cases hst
  rw [Simulator.observeResults_quiet S.quiet] at hobs
  obtain rfl := Except.ok.inj hobs
  obtain ⟨u, hu, rfl⟩ := List.mem_map.1 hr
  have reset : S.Tamed w t.resetAccesses := h.of_eq rfl rfl rfl
  have kept := keeps_advance code speaks reset st₀ hadv ends u hu
  exact kept.of_eq rfl rfl rfl

/-- A small step of structured code that does not end it leads from a tame configuration to one. -/
theorem Tame.of_goes {c c' : Config} (h : S.Tame w c) (firm : c.Firm) (goes : S.Goes false c c') :
    S.Tame w c' := by
  obtain ⟨st, r, hst, hres, hends, shows⟩ := goes firm _ (S.shows_showing c)
  obtain ⟨c₁, shows₁, tame⟩ := keeps_smallStep code speaks ⟨c, S.shows_showing c, h⟩ st hst hends r
    (by simp [hres])
  rwa [shows.unique shows₁]

end Runs

end Setting

end Structured

end DeltaSlice

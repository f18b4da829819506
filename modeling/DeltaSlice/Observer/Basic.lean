import DeltaSlice.Observer.Dependence

/-!
Observers: they see every small step of a transition and compute what is learned from it. An
observer may be a pair of observers that share the scratch of the step, or record what another
observer is told.
-/

namespace DeltaSlice

inductive Observer where
  | none
  /-- Read and write conditions of the variables that satisfy `track`. -/
  | readWrite (track : Variable → Bool)
  /-- Dependence graphs, with or without trigger variables. -/
  | pdg (triggers : Bool)
  | pair (first second : Observer)
  | recording (o : Observer)

namespace Observer

/-- What is learned from nothing. -/
def neutral : Observer → Info
  | none => .none
  | readWrite _ => .readWrite .empty
  | pdg _ => .pdg .empty
  | pair a b => .pair a.neutral b.neutral
  | recording o => o.neutral

/-- Code starts to run. -/
def start (p : Program) : Observer → Transition → Step Info
  | none, t | readWrite _, t => pure t.info
  | pdg triggers, t =>
    match t.info with
    | .pdg g => .of ((Dependence.start triggers t g).map .pdg)
    | _ => .fault .undefined
  | pair a b, t =>
    match t.info with
    | .pair x y => do
      let x ← a.start p { t with info := x }
      let y ← b.start p { t with info := y }
      pure (.pair x y)
    | _ => .fault .undefined
  | recording o, t => do
    Run.report (.start t)
    o.start p t

/-- A small step on an expression is about to be made. -/
def announce (p : Program) : Observer → Transition → Expr → Step Scratch
  | none, t, _ | readWrite _, t, _ => pure t.scratch
  | pdg triggers, t, e => .of (Dependence.announce p triggers t e)
  | pair a b, t, e => do
    let s ← a.announce p t e
    b.announce p { t with scratch := s } e
  | recording o, t, e => do
    Run.report (.announce t e)
    o.announce p t e

/-- Weakens the conditions of the accesses of the last small step by its condition. -/
def observeAccesses (track : Variable → Bool) (t : Transition) (i : ReadWrite) : ReadWrite :=
  let weaken := fun (s : Store) v => if track v then ReadWrite.weaken s v t.condition else s
  ⟨t.scratch.read.foldl weaken i.read, t.scratch.written.foldl weaken i.written⟩

/-- A small step was made. -/
def evaluated (p : Program) : Observer → Transition → Option Expr → Int → Step Info
  | none, t, _, _ => pure t.info
  | readWrite track, t, _, _ =>
    match t.info with
    | .readWrite i => pure (.readWrite (observeAccesses track t i))
    | _ => .fault .undefined
  | pdg triggers, t, e, comingFrom =>
    match t.info with
    | .pdg g => .of ((Dependence.evaluated p triggers t e comingFrom g).map .pdg)
    | _ => .fault .undefined
  | pair a b, t, e, comingFrom =>
    match t.info with
    | .pair x y => do
      let x ← a.evaluated p { t with info := x } e comingFrom
      let y ← b.evaluated p { t with info := y } e comingFrom
      pure (.pair x y)
    | _ => .fault .undefined
  | recording o, t, e, comingFrom => do
    Run.report (.evaluated t e comingFrom)
    let i ← o.evaluated p t e comingFrom
    Run.report (.learned i)
    pure i

/-- A transition is complete. -/
def finalize : Observer → Info → Step Info
  | none, i | readWrite _, i => pure i
  | pdg _, i =>
    match i with
    | .pdg g => .ofFault (g.finalize.map .pdg)
    | _ => .fault .undefined
  | pair a b, i =>
    match i with
    | .pair x y => do
      let x ← a.finalize x
      let y ← b.finalize y
      pure (.pair x y)
    | _ => .fault .undefined
  | recording o, i => do
    Run.report .finalize
    o.finalize i

/-- A process resumes after a delta cycle; no observer learns from it. -/
def waitedForDelta : Observer → Process → Step Unit
  | recording o, p => do
    Run.report (.delta p)
    o.waitedForDelta p
  | pair a b, p => do
    a.waitedForDelta p
    b.waitedForDelta p
  | _, _ => pure ()

/-- A process resumes at a point in time; no observer learns from it. -/
def waitedForTime : Observer → Process → Step Unit
  | recording o, p => do
    Run.report (.time p)
    o.waitedForTime p
  | pair a b, p => do
    a.waitedForTime p
    b.waitedForTime p
  | _, _ => pure ()

/-- Some of the events that a process waits for were notified. -/
def waitedForEvents : Observer → Transition → Process → List Event → EventList → Step Info
  | none, t, _, _, _ | readWrite _, t, _, _, _ => pure t.info
  | pdg triggers, t, p, events, before =>
    match triggers, t.info with
    | false, i => pure i
    | true, .pdg g => .ofFault ((Dependence.woken t p events before g).map .pdg)
    | true, _ => .fault .undefined
  | pair a b, t, p, events, before =>
    match t.info with
    | .pair x y => do
      let x ← a.waitedForEvents { t with info := x } p events before
      let y ← b.waitedForEvents { t with info := y } p events before
      pure (.pair x y)
    | _ => .fault .undefined
  | recording o, t, p, events, before => do
    Run.report (.events p events before)
    o.waitedForEvents t p events before

end Observer

end DeltaSlice

import DeltaSlice.Simulator.Worklist

/-!
Simulation cycles. In the evaluation phase ready processes run one at a time, in any order; when no
process is ready, the requested update routines run, and then the simulation advances to the next
delta cycle or to the earliest point in time at which something happens.
-/

namespace DeltaSlice

namespace Simulator

/-- Sets a tracked global variable to its initial value. -/
def initGlobal (s : Simulator) (g : GlobalState) (owner : Owner) (d : Global) : GlobalState :=
  match d.init with
  | none => g
  | some l =>
    let v := Variable.ofOwner owner d.decl
    if s.setup.tracksVariable v then g.setValue v (.lit l) else g

def initGlobals (s : Simulator) (g : GlobalState) (owner : Owner) (ds : List Global) :
    GlobalState :=
  ds.foldl (fun g d => s.initGlobal g owner d) g

/-- The fields of all instances at their initial values. -/
def initInstances (s : Simulator) : GlobalState → List InstanceDef → Except Fault GlobalState
  | g, [] => .ok g
  | g, d :: ds =>
    match s.program.system.classOf? d.inst with
    | none => .error .undefined
    | some c => s.initInstances (s.initGlobals g (.inst d.inst) c.fields) ds

/-- Every process is at the start of its routine, ready or waiting for its sensitivity. -/
def initProcess (p : Process) : ProcessState :=
  let blocker := if p.lazy && !p.sensitivity.isEmpty then
    some (.events (.of p.sensitivity true none)) else none
  .start blocker [.start p.routine (.lit (.inst p.inst))]

/-- The state before any process ran. -/
def initial (s : Simulator) : Except Fault State :=
  let g := s.initGlobals .start .system s.program.system.globals
  (s.initInstances g s.program.system.instances).bind fun g =>
    if g.values.entries.all (·.2.hasKey) then .ok ⟨g, s.procs.map initProcess, none, 0⟩
    else .error .undefined

/-- The processes that may run: those without a blocker, and those that wait for events of which
one that matters may have been notified without being tracked. -/
def isReady (s : Simulator) (ps : ProcessState) : Bool :=
  match ps.blocker with
  | none => true
  | some (.events l) =>
    if l.choice then l.events.any fun e => !s.setup.tracksEvent e
    else l.events.all fun e => !s.setup.tracksEvent e
  | some _ => false

def ready (s : Simulator) (st : State) : Except Fault (List Process) :=
  if s.isHalted st then .ok []
  else s.procs.filterMapM fun p =>
    match st.procs[p.index]? with
    | none => .error .undefined
    | some ps => .ok (if s.isReady ps then some p else none)

/-- The evaluation phase may end once every process waits. -/
def canEnd (s : Simulator) (st : State) : Bool :=
  !s.isHalted st && st.procs.all (·.blocker.isSome)

/-- Runs a process until it waits or terminates. -/
def makeStep (s : Simulator) (p : Process) (st : State) : Step (List Transition) :=
  if s.aborted then .fail .aborted
  else do
    let t := Transition.start st s.setup.observer.neutral (some p) (some p.inst)
    let info ← s.setup.observer.start s.program t
    let ts ← s.run { t with info }
    s.finalize ts

/-- Runs one update routine on every branch. -/
def updateBranches (s : Simulator) (i : Instance) (r : Routine) :
    List Transition → Step (List Transition)
  | [] => pure []
  | t :: ts => do
    let t := { t with
      state := { t.state with update := some (.start none [.start r (.lit (.inst i))]) }
      origin := some i }
    let info ← s.setup.observer.start s.program t
    let done ← s.run { t with info }
    let rest ← s.updateBranches i r ts
    pure (done.map (fun u => { u with
      state := { u.state with update := none }, origin := none }) ++ rest)

/-- Runs the update routines of the given instances one after the other. -/
def updateAll (s : Simulator) : List Instance → List Transition → Step (List Transition)
  | [], ts => pure ts
  | i :: is, ts =>
    match s.program.system.classOf? i with
    | none => .fault .undefined
    | some c =>
      match c.routine? "update" with
      | none => .fail (.updateWithoutRoutine i.name)
      | some r => do
        let ts ← s.updateBranches i r ts
        s.updateAll is ts

/-- The wait of a process as far as the passing of time concerns it. -/
def timeoutOf (ps : ProcessState) : Option Delay :=
  match ps.blocker with
  | some (.delay d) => some d
  | some (.events l) => l.timeout
  | _ => none

def waitsForEvents (ps : ProcessState) : Bool :=
  match ps.blocker with
  | some (.events _) => true
  | _ => false

/-- The processes whose state satisfies a test. -/
def processesWith (s : Simulator) (st : State) (test : ProcessState → Bool) : List Process :=
  s.procs.filter fun p => ((st.procs[p.index]?).map test).getD false

/-- Resumes the processes that wait for the next delta cycle. -/
def wakeDelta (s : Simulator) : Transition → List Process → Step Transition
  | t, [] => pure t
  | t, p :: ps =>
    match t.state.procs[p.index]? with
    | none => .fault .undefined
    | some q =>
      if q.blocker.isNone then s.wakeDelta t ps
      else do
        let t := t.setProc p (q.block none)
        s.setup.observer.waitedForDelta p
        s.wakeDelta t ps

/-- The next delta cycle: its notifications are made and its waits end. -/
def deltaCycle (s : Simulator) (t : Transition) (events : List Event) : Step Transition := do
  let waiting := s.processesWith t.state fun ps => timeoutOf ps = some .delta
  let listening := s.processesWith t.state waitsForEvents
  let t := t.mapGlobal fun g => events.foldl (fun g e => g.setPending e none) g
  let t ← s.notifyProcesses t events listening
  s.wakeDelta t waiting

/-- Lets time pass for the pending notifications; gives those that are due. -/
def passPending (passed : Int64) : GlobalState → List Event → Except Fault (List Event × GlobalState)
  | g, [] => .ok ([], g)
  | g, e :: es =>
    match g.pending.get? e with
    | some (.time d) =>
      if d = passed then
        (passPending passed (g.setPending e none) es).map fun (due, g) => (e :: due, g)
      else
        match Delay.remaining d passed with
        | .ok d => passPending passed (g.setPending e (some (.time d))) es
        | .error f => .error f
    | _ => passPending passed g es

/-- Lets time pass for the processes that wait for a time; those that are due resume. -/
def passProcesses (s : Simulator) (passed : Int64) : Transition → List Process → Step Transition
  | t, [] => pure t
  | t, p :: ps =>
    match t.state.procs[p.index]? with
    | none => .fault .undefined
    | some q =>
      match q.blocker, timeoutOf q with
      | none, _ => s.passProcesses passed t ps
      | some b, some (.time d) =>
        if d = passed then do
          let t := t.setProc p (q.block none)
          s.setup.observer.waitedForTime p
          s.passProcesses passed t ps
        else do
          let d ← Run.ofFault (Delay.remaining d passed)
          let b := match b with
            | .events l => .events (l.withTimeout (some (.time d)))
            | _ => .delay (.time d)
          s.passProcesses passed (t.setProc p (q.block (some b))) ps
      | _, _ => .fault .undefined

def isTime : Option Delay → Bool
  | some (.time _) => true
  | _ => false

/-- Lets time pass up to the earliest point at which something happens. -/
def letTimePass (s : Simulator) (t : Transition) (passed : Int64) : Step Transition := do
  let waiting := s.processesWith t.state fun ps => isTime (timeoutOf ps)
  let listening := s.processesWith t.state waitsForEvents
  let g := t.state.global
  let (due, g) ← Run.ofFault (passPending passed g g.pendingEvents)
  let t := { t with state := { t.state with global := g } }
  let t ← if due.isEmpty then pure t else s.notifyProcesses t due listening
  s.passProcesses passed t waiting

/-- The pending notifications of the next delta cycle. -/
def deltaEvents (g : GlobalState) : List Event :=
  g.pendingEvents.filter fun e => g.pending.get? e = some .delta

/-- The earliest time that a process or a notification waits for. -/
def earliest (s : Simulator) (st : State) : Option Delay :=
  let waits := s.procs.map fun p => (st.procs[p.index]?).bind timeoutOf
  let notes := st.global.pendingEvents.map fun e => st.global.pending.get? e
  (waits ++ notes).foldl (fun a b => if isTime b then Delay.earlier a b else a) none

/-- Advances to the next delta cycle or point in time; a stopped or idle simulation stays. -/
def advanceTime (s : Simulator) (t : Transition) : Step Transition :=
  let st := t.state
  if st.global.stopped then pure t
  else
    let events := deltaEvents st.global
    let waiting := s.processesWith st fun ps => timeoutOf ps = some .delta
    if waiting.isEmpty && events.isEmpty then
      match s.earliest st with
      | some (.time d) => s.letTimePass t d
      | _ => pure t
    else s.deltaCycle t events

/-- Advances states, none of which must be frozen. -/
def advanceAll (s : Simulator) : List Transition → Step (List Transition)
  | [] => pure []
  | t :: ts => do
    let t ← (if t.frozen then .fault .frozen else s.advanceTime t : Step Transition)
    let rest ← s.advanceAll ts
    pure (t :: rest)

/-- Ends the evaluation phase: updates, then the advance of the simulation. -/
def endEvaluation (s : Simulator) (st : State) : Step (List Transition) :=
  if s.aborted then .fail .aborted
  else do
    let t := Transition.start st s.setup.observer.neutral none none
    let t := t.mapGlobal (·.clearUpdates)
    let ts ← s.updateAll st.global.updates [t]
    let ts ← s.advanceAll ts
    s.finalize ts

/-- The transitions that leave a state, and the failures of the steps that could not be made. -/
structure Successors where
  transitions : List Transition
  failures : List Failure

/-- Adds the outcome of a step to what was found so far; only a failure is survived. -/
def collect (found : Successors) (activity : String) (step : Step (List Transition)) :
    Step Successors :=
  match step.result with
  | .ok ts => ⟨step.reports, .ok { found with transitions := found.transitions ++ ts }⟩
  | .error (.failed f) =>
    ⟨step.reports, .ok { found with failures := found.failures ++ [.during activity f] }⟩
  | .error h => ⟨step.reports, .error h⟩

def collectSteps (s : Simulator) (st : State) : Successors → List Process → Step Successors
  | found, [] => pure found
  | found, p :: ps => do
    let found ← collect found ("step of " ++ p.text) (s.makeStep p st)
    s.collectSteps st found ps

/-- Every transition that leaves a state. -/
def successors (s : Simulator) (st : State) : Step Successors := do
  let found ← if s.canEnd st then collect ⟨[], []⟩ "end of evaluation" (s.endEvaluation st)
    else pure ⟨[], []⟩
  let ready ← Run.ofFault (s.ready st)
  s.collectSteps st found ready

end Simulator

end DeltaSlice

import DeltaSlice.Observer.Basic

/-!
The simulator: a checked system with the choices under which it is run. Also the scheduler's part of
a single statement: notifying events and stopping the simulation.
-/

namespace DeltaSlice

/-- What a stop does to the rest of the simulation. -/
inductive StopMode where
  /-- Every process stops at once. -/
  | immediate
  /-- Processes that are ready or wait for events finish the delta cycle. -/
  | delta
deriving DecidableEq

/-- The choices for a run. Notifications of events that are not tracked are kept nowhere, and their
waiters may always resume; values of variables that are not tracked are unknown. -/
structure Setup where
  observer : Observer
  stopMode : StopMode
  tracksEvent : Event → Bool
  tracksVariable : Variable → Bool

structure Simulator where
  program : Program
  setup : Setup
  procs : List Process
  aborted : Bool
  /-- A bound on the small steps of one run of code. -/
  fuel : Nat

namespace Simulator

/-- More small steps than any run finishes in practice. -/
def unlimited : Nat := 1000000000000000000

/-- The simulator of a system without problems. -/
def make (sys : System) (setup : Setup) : Except Failure Simulator :=
  match sys.problems with
  | [] =>
    .ok {
      program := .ofSystem sys
      setup
      procs := (sys.processes.zipIdx.filterMap fun (p, i) => p.check? i)
      aborted := false
      fuel := unlimited }
  | ps => .error (.invalidSystem ps)

def abort (s : Simulator) : Simulator := { s with aborted := true }

/-- Stopped with no more steps to come. -/
def isHalted (s : Simulator) (st : State) : Bool :=
  st.global.stopped && s.setup.stopMode = .immediate

/-- Removes notified events from the wait of a process, which resumes if its wait is satisfied. -/
def notifyProcess (s : Simulator) (t : Transition) (p : Process) (notified : List Event) :
    Step Transition :=
  match t.state.procs[p.index]? with
  | none => .fault .undefined
  | some ps =>
    match ps.blocker with
    | some (.events before) =>
      let remaining := before.events.filter fun e => !notified.contains e
      if remaining.length = before.events.length then pure t
      else do
        let blocker := if remaining.isEmpty || before.choice then none
          else some (.events (before.withEvents remaining))
        let t := t.setProc p (ps.block blocker)
        let info ← s.setup.observer.waitedForEvents t p (before.events.filter notified.contains) before
        pure { t with info }
    | _ => pure t

/-- Notifies events to several processes, one after the other. -/
def notifyProcesses (s : Simulator) (t : Transition) (notified : List Event) :
    List Process → Step Transition
  | [] => pure t
  | p :: ps => do
    let t ← s.notifyProcess t p notified
    s.notifyProcesses t notified ps

/-- Notifies an event. At once, the waiting processes other than the running one are told. Later,
the notification is pending, unless an earlier one is. -/
def notify (s : Simulator) (t : Transition) (e : Event) (delay : Option Delay) : Step Transition :=
  if s.isHalted t.state || !s.setup.tracksEvent e then pure t
  else match delay with
    | some d => pure (t.mapGlobal fun g => g.setPending e (Delay.earlier (g.pending.get? e) (some d)))
    | none =>
      let others := s.procs.filter fun p => some p.index ≠ t.proc.map (·.index)
      s.notifyProcesses (t.mapGlobal (·.setPending e none)) [e] others

/-- Stops the simulation: no process runs again but those that may finish the delta cycle. -/
def stop (s : Simulator) (t : Transition) : Transition :=
  let halt := fun (ps : ProcessState) =>
    match s.setup.stopMode, ps.blocker with
    | .delta, none | .delta, some (.events _) => ps
    | _, _ => ps.block (some .terminated)
  { t with state := { t.state with
    global := t.state.global.stop, procs := t.state.procs.map halt } }

end Simulator

end DeltaSlice

import DeltaSlice.State.Frame
import DeltaSlice.State.Store

/-!
States of a simulated system: the part owned by the scheduler, one part per process, and the part
of the update routines while they run. States are told apart by their keys.
-/

namespace DeltaSlice

/-- What a process waits for, its execution stack (innermost frame first) and its variables. -/
structure ProcessState where
  blocker : Option Blocker
  stack : List Frame
  locals : Store

namespace ProcessState

def start (blocker : Option Blocker) (stack : List Frame) : ProcessState :=
  ⟨blocker, stack, .empty⟩

def top? (ps : ProcessState) : Option Frame := ps.stack.head?

def mapTop (ps : ProcessState) (f : Frame → Frame) : ProcessState :=
  match ps.stack with
  | top :: rest => { ps with stack := f top :: rest }
  | [] => ps

def push (ps : ProcessState) (f : Frame) : ProcessState := { ps with stack := f :: ps.stack }

def pop (ps : ProcessState) : ProcessState := { ps with stack := ps.stack.tail }

def block (ps : ProcessState) (b : Option Blocker) : ProcessState := { ps with blocker := b }

def routines (ps : ProcessState) : List Routine := ps.stack.map (·.location.routine)

def locations (ps : ProcessState) : Stack := ps.stack.map (·.location)

/-- The location stack at which the code resumes; without frames there is none. -/
def resumption? (ps : ProcessState) : Option Stack :=
  match ps.stack with
  | [] => none
  | f :: rest =>
    let here := if f.comingFrom = -1 then f.location else f.location.child (f.comingFrom + 1)
    some (here :: rest.map (·.location))

def setLocal (ps : ProcessState) (v : Variable) (x : Value) : ProcessState :=
  { ps with locals := ps.locals.insert v x }

def dropLocal (ps : ProcessState) (v : Variable) : ProcessState :=
  { ps with locals := ps.locals.erase v }

def key (ps : ProcessState) : String :=
  Blocker.key ps.blocker ++ String.join (ps.stack.reverse.map fun f => " | " ++ f.key)
    ++ ps.locals.key

end ProcessState

/-- Pending notifications, requested updates, whether the simulation was stopped, and the tracked
global variables. -/
structure GlobalState where
  values : Store
  pending : Table Event Delay
  updates : List Instance
  stopped : Bool

namespace GlobalState

def start : GlobalState := ⟨.empty, .empty, [], false⟩

def setValue (g : GlobalState) (v : Variable) (x : Value) : GlobalState :=
  { g with values := g.values.insert v x }

/-- The events with a pending notification, by text. -/
def pendingEvents (g : GlobalState) : List Event := sortByText Event.text g.pending.keys

def setPending (g : GlobalState) (e : Event) (d : Option Delay) : GlobalState :=
  match d with
  | some d => { g with pending := g.pending.insert e d }
  | none => { g with pending := g.pending.erase e }

/-- Asks for an update unless there is one already. -/
def requestUpdate (g : GlobalState) (i : Instance) : GlobalState :=
  if g.updates.contains i then g else { g with updates := g.updates ++ [i] }

def clearUpdates (g : GlobalState) : GlobalState := { g with updates := [] }

/-- Stops the simulation; nothing is pending afterwards. -/
def stop (g : GlobalState) : GlobalState := { g with stopped := true, pending := .empty }

def pendingKey (g : GlobalState) : String :=
  String.join (g.pendingEvents.map fun e =>
    e.text ++ "@" ++ ((g.pending.get? e).map Delay.text).getD "" ++ " ")

def key (g : GlobalState) : String :=
  (if g.stopped then "stopped " else "") ++ g.pendingKey
    ++ "updates[" ++ ",".intercalate (g.updates.map (·.name)) ++ "]" ++ g.values.key

end GlobalState

structure State where
  global : GlobalState
  procs : List ProcessState
  update : Option ProcessState
  /-- The number of the next event list; it is no part of the key. -/
  nextList : Nat

namespace State

def setProc (s : State) (i : Nat) (ps : ProcessState) : State :=
  { s with procs := s.procs.set i ps }

def procKeys : Nat → List ProcessState → String
  | _, [] => ""
  | i, ps :: rest => "\n" ++ toString i ++ ": " ++ ps.key ++ procKeys (i + 1) rest

def key (s : State) : String :=
  s.global.key ++ procKeys 0 s.procs
    ++ match s.update with
      | some ps => "\nupdate: " ++ ps.key
      | none => ""

end State

end DeltaSlice

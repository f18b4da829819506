import DeltaSlice.Conditions
import DeltaSlice.Info
import DeltaSlice.Run
import DeltaSlice.State.Edit

/-!
Transitions under way: the state reached so far, what was learned on the way, and the scratch of
the current step, which is no part of the state's identity.
-/

namespace DeltaSlice

structure Scratch where
  /-- Variables read and written by the last small step, in order. -/
  read : List Variable
  written : List Variable
  /-- The location stack that the observers hold relevant for the current small step. -/
  announced : Option Stack
  /-- The event about to be notified by the current small step. -/
  event : Option Event
  conditions : Conditions

def Scratch.start : Scratch := ⟨[], [], none, none, .start⟩

/-- A transition of a process or, without one, of the scheduler. `origin` is the instance for which
the running code was started. -/
structure Transition where
  state : State
  info : Info
  proc : Option Process
  origin : Option Instance
  scratch : Scratch
  /-- The state must not be changed any more. Its parts are frozen together. -/
  frozen : Bool
  /-- What broke first when the current small step edited the running code. The step ends there. -/
  fault : Option Fault

namespace Transition

/-- A transition from a state, on a copy of it that may be changed. -/
def start (s : State) (info : Info) (p : Option Process) (origin : Option Instance) : Transition :=
  ⟨s, info, p, origin, .start, false, none⟩

def freeze (t : Transition) : Transition := { t with frozen := true }

/-- A copy of which the state may be changed. -/
def copy (t : Transition) : Transition := { t with frozen := false }

/-- The state of the running code: that of the process, or that of the update routine. -/
def running? (t : Transition) : Option ProcessState :=
  match t.proc with
  | some p => t.state.procs[p.index]?
  | none => t.state.update

def setRunning (t : Transition) (ps : ProcessState) : Transition :=
  match t.proc with
  | some p => { t with state := t.state.setProc p.index ps }
  | none => { t with state := { t.state with update := some ps } }

def mapRunning (t : Transition) (f : ProcessState → ProcessState) : Transition :=
  match t.running? with
  | some ps => t.setRunning (f ps)
  | none => t

def mapTop (t : Transition) (f : Frame → Frame) : Transition := t.mapRunning (·.mapTop f)

/-- Notes what broke, unless something did before. -/
def note (t : Transition) (f : Option Fault) : Transition := { t with fault := t.fault.or f }

/-- Edits the running code. What the edit leaves behind is kept, also where it breaks. -/
abbrev editRunning {β : Type} (t : Transition) (e : Edit ProcessState β) : Transition :=
  match t.running? with
  | none => t.note (some .undefined)
  | some ps => (t.setRunning (e.run.run ps).2).note (Fault.of? (e.run.run ps).1)

abbrev editTop {β : Type} (t : Transition) (e : Edit Frame β) : Transition :=
  t.editRunning (ProcessState.editTop e)

def mapGlobal (t : Transition) (f : GlobalState → GlobalState) : Transition :=
  { t with state := { t.state with global := f t.state.global } }

def setProc (t : Transition) (p : Process) (ps : ProcessState) : Transition :=
  { t with state := t.state.setProc p.index ps }

def top? (t : Transition) : Option Frame := t.running?.bind (·.top?)

/-- Descends into child `i` of the current expression. -/
def enter (t : Transition) (i : Int) : Transition := t.mapTop (·.enter i)

def mapScratch (t : Transition) (f : Scratch → Scratch) : Transition :=
  { t with scratch := f t.scratch }

/-- Drops what the last small step accessed. Nothing is broken yet in the next one. -/
def resetAccesses (t : Transition) : Transition :=
  { t.mapScratch (fun s => { s with read := [], written := [] }) with fault := none }

/-- Appends a variable unless it is there. -/
def addVariable (vs : List Variable) (v : Variable) : List Variable :=
  if vs.contains v then vs else vs ++ [v]

def addRead (t : Transition) (v : Variable) : Transition :=
  t.mapScratch fun s => { s with read := addVariable s.read v }

def addWritten (t : Transition) (v : Variable) : Transition :=
  t.mapScratch fun s => { s with written := addVariable s.written v }

def mapConditions (t : Transition) (f : Conditions → Conditions) : Transition :=
  t.mapScratch fun s => { s with conditions := f s.conditions }

/-- The condition under which the current point is reached. -/
def condition (t : Transition) : Value := t.scratch.conditions.value

/-- The scratch is dropped, and the state is frozen. -/
def endStep (t : Transition) : Transition := { t with scratch := .start }.freeze

end Transition

/-- What an observer is told, as a recording observer notes it down. -/
inductive Report where
  | start (t : Transition)
  | announce (t : Transition) (e : Expr)
  | evaluated (t : Transition) (e : Option Expr) (comingFrom : Int)
  | learned (i : Info)
  | finalize
  | delta (p : Process)
  | time (p : Process)
  | events (p : Process) (events : List Event) (before : EventList)

/-- A computation on transitions. -/
abbrev Step := Run Report

end DeltaSlice

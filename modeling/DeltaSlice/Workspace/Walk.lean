import DeltaSlice.Interleaving

/-!
Walks: a simulation by hand. The states that are reached get numbers, each with the transition that
led to it, and transitions can be recorded one by one. A number that was not given breaks.
-/

namespace DeltaSlice

/-- A state and the transition that led to it; none leads to an initial state. -/
structure Reached where
  state : State
  via : Option Transition

structure Walk where
  simulator : Simulator
  reached : List Reached
  record : Option Interleaving

namespace Walk

def start (s : Simulator) : Walk := ⟨s, [], none⟩

def place (w : Walk) (i : Int) : Except Fault Reached := required (elementAt? w.reached i)

def state (w : Walk) (i : Int) : Except Fault State := (w.place i).map (·.state)

def transition (w : Walk) (i : Int) : Except Fault Transition :=
  (w.place i).bind fun r => required r.via

def process? (w : Walk) (text : String) : Option Process :=
  w.simulator.procs.find? fun p => p.text = text

/-- Starts at an initial state. -/
def enter (w : Walk) : Except Fault (State × Walk) :=
  w.simulator.initial.map fun st => (st, { w with reached := w.reached ++ [⟨st, none⟩] })

/-- Goes to the ends of transitions. -/
def follow (w : Walk) (ts : List Transition) : Walk :=
  { w with reached := w.reached ++ ts.map fun t => ⟨t.state, some t⟩ }

/-- The state of a process in a state that was reached. -/
def processState (w : Walk) (i : Int) (p : Process) : Except Fault ProcessState :=
  (w.state i).bind fun st => required st.procs[p.index]?

/-- What is learned from either of two transitions. -/
def compose (w : Walk) (i j : Int) : Except Fault Info := do
  (← w.transition i).info.compose (← w.transition j).info

/-- Opens a record at a state. -/
def openRecord (w : Walk) (i : Int) : Except Fault Walk :=
  (w.state i).map fun st => { w with record := some (.start st) }

def opened (w : Walk) : Except Fault Interleaving := required w.record

/-- Records a transition from a state; gives the key of its end and whether that is new. -/
def note (w : Walk) (i j : Int) : Except Fault (String × Bool × Walk) := do
  let r ← w.opened
  let (n, new, r) ← r.add (← w.state i) (← w.transition j)
  let (key, _) ← required r.states[n]?
  return (key, new, { w with record := some r })

end Walk

end DeltaSlice

import DeltaSlice.Guarded
import DeltaSlice.State.Basic

/-!
Edits of states, one part at a time, as a caller may ask for them in any order. What the evaluation of
code never asks for breaks here.
-/

namespace DeltaSlice

def Value.key? (v : Value) : Except Fault String :=
  if v.hasKey then .ok v.key else .error .undefined

/-- The value itself, which has to be known. -/
def Value.get (v : Value) : Except Fault Value :=
  if v.isKnown then .ok v else .error .noPayload

namespace Frame

/-- Whether there is a place for the result of child `i`. -/
def accepts (f : Frame) (i : Int) : Bool := 0 ≤ i && !f.levels.isEmpty

/-- Sets the result of child `i`, which has to have a place. -/
def editPut (i : Int) (r : Option Value) : Edit Frame Unit := do
  if (← get).accepts i then modify (·.put i r) else throw .undefined

/-- Goes back to the expression above. The body has none above it. -/
def editLeave (v : Value) (keep : Bool) : Edit Frame Unit := do
  let f ← get
  match f.index? with
  | none => throw .undefined
  | some i =>
    modify (·.leave v false)
    if f.levels.isEmpty then throw .undefined
    if keep then editPut i (some v)

/-- Pops `n` levels; gives the index of the outermost one. -/
def editUnwind (n : Int) : Edit Frame Int := do
  match (← get).outermost? n.toNat with
  | none => throw .undefined
  | some i =>
    modify (·.pop n.toNat)
    return i

/-- Evaluation comes back from child `i`, which has the result `r`. -/
def editComeFrom (i : Int) (r : Option Value) : Edit Frame Unit := do
  modify fun f => { f with comingFrom := i }
  editPut i r

/-- The result of a child of the expression `above` levels up; below the current one there is
nothing to ask. -/
def slotAt (f : Frame) (above i : Int) : Except Fault (Option Value) :=
  if above < 0 && 0 ≤ i then .error .undefined else .ok (f.slot? above i)

def hasKey (f : Frame) : Bool :=
  f.receiver.hasKey && f.levels.all fun l => l.all fun s => s.all Value.hasKey

end Frame

namespace Store

def hasKey (s : Store) : Bool := s.entries.all (·.2.hasKey)

end Store

namespace ProcessState

/-- Edits the innermost frame. -/
def editTop {β : Type} (e : Edit Frame β) : Edit ProcessState β := do
  match (← get).stack with
  | [] => throw .undefined
  | f :: rest =>
    let (r, f) := e.run.run f
    modify fun ps => { ps with stack := f :: rest }
    MonadExcept.ofExcept r

/-- Pops the innermost frame and gives its location. -/
def editPop : Edit ProcessState Location := do
  match (← get).stack with
  | [] => throw .undefined
  | f :: _ =>
    modify (·.pop)
    return f.location

def key? (ps : ProcessState) : Except Fault String :=
  if ps.stack.all Frame.hasKey && Store.hasKey ps.locals then .ok ps.key else .error .undefined

end ProcessState

namespace GlobalState

/-- Sets or removes a pending notification; gives the events that are pending then. -/
def editPending (e : Event) (delay : Option Delay) : Edit GlobalState (List Event) := do
  modify (·.setPending e delay)
  return (← get).pendingEvents

/-- Requests an update; gives all that are requested then. -/
def editUpdate (i : Instance) : Edit GlobalState (List Instance) := do
  modify (·.requestUpdate i)
  return (← get).updates

/-- Takes the requested updates. -/
def editTake : Edit GlobalState (List Instance) := do
  let g ← get
  set g.clearUpdates
  return g.updates

def key? (g : GlobalState) : Except Fault String :=
  if Store.hasKey g.values then .ok g.key else .error .undefined

end GlobalState

end DeltaSlice

import DeltaSlice.Model.System

/-!
How a computation can end without a result. A failure is reported to whoever asked; a fault is a
broken promise of the caller or of the model and ends the whole run.
-/

namespace DeltaSlice

inductive Failure where
  /-- A value that decides what happens next is unknown. -/
  | imprecise (place what : String)
  /-- An identity that is not registered. -/
  | mismatch (operation detail : String)
  | aborted
  | canceled
  | invalidSystem (problems : List Problem)
  | noTarget (place label : String)
  | noExpression (place : String)
  | singleUnit (place : String)
  | badDelay (place value : String)
  | badTime (place reason : String)
  | noProcess (place : String)
  | badWait (place : String) (arguments : List String)
  | notAnEvent (place value : String)
  | notAnInstance (place value : String)
  | noUpdateRoutine (place className : String)
  | updateWithoutRoutine (inst : String)
  | unknownStopMode (mode : String)
  | unknownPolicy (policy : String)
  | unknownEvent (name : String)
  | unknownVariable (name : String)
  /-- A failure of the named activity. -/
  | during (activity : String) (cause : Failure)

namespace Failure

def text : Failure → String
  | imprecise place what => "insufficient precision at " ++ place ++ ": " ++ what
  | mismatch operation detail => operation ++ ": structural mismatch: " ++ detail
  | aborted => "exploration aborted"
  | canceled => "context canceled"
  | invalidSystem problems => "invalid system: " ++ "; ".intercalate (problems.map Problem.text)
  | noTarget place label =>
    place ++ ": no enclosing statement for break or continue " ++ Text.quoted label
  | noExpression place => place ++ ": unsupported expression <nil>"
  | singleUnit place => place ++ ": notification with a single time unit must be SC_ZERO_TIME"
  | badDelay place value => place ++ ": invalid notification delay " ++ value
  | badTime place reason => place ++ ": " ++ reason
  | noProcess place => place ++ ": wait outside of a process"
  | badWait place arguments =>
    place ++ ": invalid arguments to wait: [" ++ " ".intercalate arguments ++ "]"
  | notAnEvent place value => place ++ ": notified value " ++ value ++ " is not an event"
  | notAnInstance place value =>
    place ++ ": request_update on " ++ value ++ ", which is not an instance"
  | noUpdateRoutine place className => place ++ ": class " ++ className ++ " has no update routine"
  | updateWithoutRoutine inst =>
    "update requested for " ++ inst ++ ", whose class has no update routine"
  | unknownStopMode mode => "unknown stop_mode " ++ Text.quoted mode
  | unknownPolicy policy => "unknown on_precision_error " ++ Text.quoted policy
  | unknownEvent name => "track_events: no event " ++ Text.quoted name
  | unknownVariable name => "track_variables: no variable " ++ Text.quoted name
  | during activity cause => activity ++ ": " ++ cause.text

/-- The cause under the named activities. -/
def root : Failure → Failure
  | during _ cause => cause.root
  | f => f

def isImprecise (f : Failure) : Bool :=
  match f.root with
  | imprecise .. => true
  | _ => false

end Failure

inductive Fault where
  /-- A frozen object was to be changed. -/
  | frozen
  /-- A time was taken from one that is not longer. -/
  | subtraction (whole part : String)
  /-- The payload of an unknown value was asked for. -/
  | noPayload
  /-- Graphs of steps with different entries were merged. -/
  | entries (first second : Option String)
  | repeatedEdge (edge : String)
  | repeatedGraph (number : Int)
  | repeatedNode (node : String)
  /-- A transition leaves a state that is not recorded. -/
  | unrecorded
  /-- A failure where none can be handled. -/
  | unhandled (text : String)
  /-- Something that does not exist was used. -/
  | undefined

namespace Fault

/-- The text of a fault, if it has one. -/
def text? : Fault → Option String
  | frozen => some "modification of locked object"
  | subtraction whole part => some ("subtracting " ++ part ++ " from " ++ whole)
  | noPayload => some "Get on undetermined value"
  | entries (some a) (some b) => some ("current entry nodes don't match: " ++ a ++ " and " ++ b)
  | entries _ _ => none
  | repeatedEdge edge => some ("edge already present: " ++ edge)
  | repeatedGraph n => some ("PDG " ++ toString n ++ " integrated twice")
  | repeatedNode node => some ("duplicate node " ++ node)
  | unrecorded => some "transition from unrecorded state"
  | unhandled text => some text
  | undefined => none

end Fault

/-- The fault in which a computation ended, if it broke. -/
def Fault.of? {α : Type} : Except Fault α → Option Fault
  | .ok _ => none
  | .error f => some f

/-- What is there, or a fault. -/
def required {α : Type} (x : Option α) : Except Fault α :=
  match x with
  | some a => .ok a
  | none => .error .undefined

namespace Delay

/-- What is left of a time after a shorter one has passed. -/
def remaining (whole part : Int64) : Except Fault Int64 :=
  if whole ≤ part then .error (.subtraction (time whole).text (time part).text)
  else .ok (whole - part)

/-- Two delays as times; anything else breaks. -/
def times : Option Delay → Option Delay → Except Fault (Int64 × Int64)
  | some (time x), some (time y) => .ok (x, y)
  | _, _ => .error .undefined

end Delay

/-- Why a run ended early. `exhausted` says that its bound on steps was too small. -/
inductive Halt where
  | failed (f : Failure)
  | broken (f : Fault)
  | exhausted

end DeltaSlice

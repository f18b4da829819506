import DeltaSlice.Time

/-!
The named things of a model: instances, events, declared variables and routines. An instance, a
declaration and a member routine carry a number, which is their identity; an event is identified by
its owner and its name.
-/

namespace DeltaSlice

structure Instance where
  index : Nat
  name : String
deriving DecidableEq

/-- An event of an instance, or a free-standing one. -/
structure Event where
  owner : Option Instance
  name : String
deriving DecidableEq

def Event.text (e : Event) : String :=
  match e.owner with
  | none => e.name
  | some i => i.name ++ "." ++ e.name

/-- Where a declared variable lives. -/
inductive Storage where
  | field
  | frame
  | param
  | system
deriving DecidableEq

structure Decl where
  index : Nat
  name : String
  storage : Storage
deriving DecidableEq

/-- Fields and system variables outlive the routines that use them. -/
def Decl.isGlobal (d : Decl) : Bool :=
  d.storage = .field || d.storage = .system

/-- A routine of a class: its number, under which the system keeps its body, and its signature. -/
structure Member where
  index : Nat
  className : String
  name : String
  params : List Decl
  returns : Bool
deriving DecidableEq

/-- What a call names: one of the two built-in routines or a member of a class. -/
inductive Routine where
  | wait
  | requestUpdate
  | member (m : Member)
deriving DecidableEq

namespace Routine

/-- The name as it is written in a call. -/
def name : Routine → String
  | wait => "wait"
  | requestUpdate => "request_update"
  | member m => m.name

/-- The qualified name. -/
def text : Routine → String
  | wait => "wait"
  | requestUpdate => "request_update"
  | member m => m.className ++ "." ++ m.name

def isBuiltin : Routine → Bool
  | member _ => false
  | _ => true

def params : Routine → List Decl
  | member m => m.params
  | _ => []

/-- Whether calls give a value. -/
def returns : Routine → Bool
  | member m => m.returns
  | _ => false

/-- The routine that a channel runs in the update phase. -/
def isUpdate : Routine → Bool
  | member m => m.name = "update"
  | _ => false

end Routine

/-- The constants of a model. -/
inductive Literal where
  | nil
  | int (n : Int64)
  | bool (b : Bool)
  | text (s : String)
  | unit (u : TimeUnit)
  | delay (d : Delay)
  | event (e : Event)
  | inst (i : Instance)
deriving DecidableEq

namespace Literal

def render : Literal → String
  | nil => "<nil>"
  | int n => toString n.toInt
  | bool b => if b then "true" else "false"
  | text s => s
  | unit u => u.text
  | delay d => d.text
  | event e => e.text
  | inst i => i.name

/-- The kind of a constant, as it is named in keys. -/
def kind : Literal → String
  | nil => "<nil>"
  | int _ => "int"
  | bool _ => "bool"
  | text _ => "string"
  | unit _ => "model.TimeUnit"
  | delay .delta => "explore.deltaBlocker"
  | delay (.time _) => "explore.RealTime"
  | event _ => "*model.Event"
  | inst _ => "*model.Instance"

/-- Whether the constant can be written at all. -/
def hasText : Literal → Bool
  | unit u => u.hasText
  | _ => true

end Literal

end DeltaSlice

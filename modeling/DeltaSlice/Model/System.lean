import DeltaSlice.Model.Expr
import DeltaSlice.Text.Quoted

/-!
Systems: classes, their instances, the variables of the whole system and the processes that the
simulation starts. Routine bodies are kept in one list under the numbers of the routines.
-/

namespace DeltaSlice

/-- A declared field or system variable with its initial value. -/
structure Global where
  decl : Decl
  init : Option Literal

structure ClassDef where
  name : String
  fields : List Global
  events : List String
  routines : List Routine

def ClassDef.routine? (c : ClassDef) (name : String) : Option Routine :=
  c.routines.find? fun r => r.name = name

/-- An instance and the number of its class. -/
structure InstanceDef where
  inst : Instance
  cls : Option Nat

inductive ProcessKind where
  /-- Runs until it waits, and may wait anywhere. -/
  | thread
  /-- Runs to its end and is started again by its sensitivity. -/
  | method
deriving DecidableEq

structure ProcessDef where
  name : String
  inst : Option Instance
  routine : Option Routine
  kind : ProcessKind
  sensitivity : List Event
  /-- Wait for the sensitivity before the first run. -/
  lazy : Bool

structure System where
  classes : List ClassDef
  instances : List InstanceDef
  globals : List Global
  processes : List ProcessDef
  bodies : List (List Expr)

/-- An index path, the innermost index first. -/
abbrev Path := List Int

/-- The element at an index that may be out of range. -/
def elementAt? {α : Type} (l : List α) (i : Int) : Option α :=
  if i < 0 then none else l[i.toNat]?

namespace Path

/-- The list of expressions that the last index of a longer path selects from. -/
def scope? (body : List Expr) : Path → Option (List Expr)
  | [] => some body
  | i :: p => ((scope? body p).bind (elementAt? · i)).map Expr.children

/-- The expression at a path. The empty path is the body and no expression. -/
def resolve? (body : List Expr) : Path → Option Expr
  | [] => none
  | i :: p => (scope? body p).bind (elementAt? · i)

end Path

namespace System

def body (sys : System) : Routine → List Expr
  | .member m => (sys.bodies[m.index]?).getD []
  | _ => []

def instance? (sys : System) (name : String) : Option Instance :=
  (sys.instances.find? fun d => d.inst.name = name).map (·.inst)

def classOf? (sys : System) (i : Instance) : Option ClassDef :=
  (sys.instances[i.index]?).bind fun d => d.cls.bind fun c => sys.classes[c]?

/-- The event of an instance with the given name. -/
def event? (sys : System) (i : Instance) (name : String) : Option Event :=
  match sys.classOf? i with
  | some c => if c.events.contains name then some ⟨some i, name⟩ else none
  | none => none

end System

/-- The qualified name of a process; without an instance it has none. -/
def ProcessDef.text? (p : ProcessDef) : Option String :=
  p.inst.map fun i => i.name ++ "." ++ p.name

/-- The process with a qualified name. Those before it need one, too. -/
def System.process? (sys : System) (text : String) : Option ProcessDef :=
  sys.processes.find? fun p => p.text?.all (· = text)

/-- What can be wrong with a system before it is simulated. -/
inductive Problem where
  | duplicateInstance (name : String)
  | noClass (name : String)
  | noInstance (process : String)
  | noRoutine (process : String)
  | noSensitivity (process : String)
  | duplicateProcess (process : String)
  | noProcesses
deriving DecidableEq

def Problem.text : Problem → String
  | duplicateInstance n => "duplicate instance " ++ Text.quoted n
  | noClass n => "instance " ++ Text.quoted n ++ " has no class"
  | noInstance p => "process " ++ Text.quoted p ++ " has no instance"
  | noRoutine p => "process " ++ p ++ " has no function"
  | noSensitivity p => "method process " ++ p ++ " has no sensitivity"
  | duplicateProcess p => "duplicate process " ++ p
  | noProcesses => "no processes"

namespace System

/-- The problems of the instances; `seen` are the names of those before. -/
def instanceProblems (seen : List String) : List InstanceDef → List Problem
  | [] => []
  | d :: ds =>
    (if seen.contains d.inst.name then [.duplicateInstance d.inst.name] else [])
      ++ (if d.cls.isNone then [.noClass d.inst.name] else [])
      ++ instanceProblems (d.inst.name :: seen) ds

/-- The problems of the processes; `seen` are the names of those before that have an instance. -/
def processProblems (seen : List String) : List ProcessDef → List Problem
  | [] => []
  | p :: ps =>
    match p.text? with
    | none => .noInstance p.name :: processProblems seen ps
    | some n =>
      (if p.routine.isNone then [.noRoutine n]
       else if p.kind = .method && p.sensitivity.isEmpty then [.noSensitivity n] else [])
        ++ (if seen.contains n then [.duplicateProcess n] else [])
        ++ processProblems (n :: seen) ps

def problems (sys : System) : List Problem :=
  instanceProblems [] sys.instances ++ processProblems [] sys.processes
    ++ (if sys.processes.isEmpty then [.noProcesses] else [])

end System

/-- A process of a checked system. Its number is its place in every state. -/
structure Process where
  index : Nat
  name : String
  inst : Instance
  routine : Routine
  sensitivity : List Event
  lazy : Bool
deriving DecidableEq

def Process.text (p : Process) : String := p.inst.name ++ "." ++ p.name

def ProcessDef.check? (index : Nat) (p : ProcessDef) : Option Process :=
  match p.inst, p.routine with
  | some i, some r => some ⟨index, p.name, i, r, p.sensitivity, p.lazy⟩
  | _, _ => none

end DeltaSlice

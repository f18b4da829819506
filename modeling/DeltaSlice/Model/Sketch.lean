import DeltaSlice.Model.Numbering
import DeltaSlice.Model.Scope

/-!
Sketches: systems as they are written down, with names in place of identities. Initial values may
name events and instances, so these are known first; then come variables and routines, and last the
bodies and processes, which may name anything.
-/

namespace DeltaSlice

/-- A variable and its initial value. -/
abbrev VarSketch := String × Option Literal

structure RoutineSketch where
  name : String
  params : List String
  locals : List String
  returns : Bool

structure ClassSketch where
  fields : List VarSketch
  routines : List RoutineSketch

/-- The next number of a declaration, and the parameters and local variables of the routines so far. -/
structure Declared where
  next : Nat
  locals : List (List Decl)

namespace Declared

def decl (storage : Storage) (name : String) : StateM Declared Decl :=
  modifyGet fun s => (⟨s.next, name, storage⟩, { s with next := s.next + 1 })

def global (storage : Storage) (v : VarSketch) : StateM Declared Global := do
  return ⟨← decl storage v.1, v.2⟩

/-- A routine of a class, under the next number. -/
def routine (cls : String) (r : RoutineSketch) : StateM Declared Routine := do
  let params ← r.params.mapM (decl .param)
  let locals ← r.locals.mapM (decl .frame)
  modifyGet fun s =>
    (.member ⟨s.locals.length, cls, r.name, params, r.returns⟩,
      { s with locals := s.locals ++ [params ++ locals] })

/-- The variables and routines of a class. -/
def members (c : ClassDef) (s : ClassSketch) : StateM Declared ClassDef := do
  return { c with
    fields := ← s.fields.mapM (global .field)
    routines := ← s.routines.mapM (routine c.name) }

end Declared

namespace Scope

/-- Classes with the names of their events, instances with the names of their classes, and events
without an owner. -/
def outline? (classes : List (String × List String)) (instances : List (String × Option String))
    (freeEvents : List String) : Option Scope := do
  let number? := fun (cls : String) => classes.findIdx? fun c => c.1 = cls
  let instances ← instances.zipIdx.mapM fun (d, i) => do
    return InstanceDef.mk ⟨i, d.1⟩ (← d.2.mapM number?)
  return ⟨⟨classes.map fun c => ⟨c.1, [], c.2, []⟩, instances, [], [], []⟩, freeEvents, []⟩

/-- Adds the members of the classes, in their order, and the system variables. -/
def withMembers (sc : Scope) (sketches : List ClassSketch) (globals : List VarSketch) : Scope :=
  let declare : StateM Declared (List ClassDef × List Global) := do
    let classes ← (sc.system.classes.zip sketches).mapM fun (c, s) => Declared.members c s
    return (classes, ← globals.mapM (Declared.global .system))
  let ((classes, globals), s) := declare.run ⟨0, []⟩
  { sc with system := { sc.system with classes, globals }, locals := s.locals }

def routines (sc : Scope) : List Routine := sc.system.classes.flatMap (·.routines)

/-- Adds the bodies of all routines, in their order, and the processes. -/
def withCode (sc : Scope) (bodies : List (List Expr)) (processes : List ProcessDef) : Scope :=
  { sc with system := { sc.system with bodies, processes }.numbered }

/-- The scope of a complete system whose routines have no local variables. -/
def ofSystem (sys : System) : Scope :=
  ⟨sys, [], (sys.classes.flatMap (·.routines)).map Routine.params⟩

end Scope

end DeltaSlice

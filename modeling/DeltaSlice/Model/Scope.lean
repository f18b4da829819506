import DeltaSlice.Model.System
import DeltaSlice.Variable

/-!
Scopes: what the names of a written model stand for. A routine or a field of a class is named by the
class, a point and its own name; an event by its text.
-/

namespace DeltaSlice

/-- A system with the names that it does not hold itself: events without an owner, and the
parameters and local variables of every routine. -/
structure Scope where
  system : System
  freeEvents : List String
  locals : List (List Decl)

namespace Scope

/-- The parts of a qualified name, divided at its last point. -/
def splitName? (name : String) : Option (String × String) :=
  let back := name.toList.reverse
  match back.dropWhile (· ≠ '.') with
  | [] => none
  | _ :: rest =>
    some (String.ofList rest.reverse, String.ofList (back.takeWhile (· ≠ '.')).reverse)

def class? (sc : Scope) (name : String) : Option ClassDef :=
  sc.system.classes.find? fun c => c.name = name

def routine? (sc : Scope) (name : String) : Option Routine :=
  if name = Routine.wait.text then some .wait
  else if name = Routine.requestUpdate.text then some .requestUpdate
  else (splitName? name).bind fun (c, r) => (sc.class? c).bind (·.routine? r)

def fieldOf? (c : ClassDef) (name : String) : Option Decl :=
  (c.fields.find? fun f => f.decl.name = name).map (·.decl)

def global? (sc : Scope) (name : String) : Option Decl :=
  (sc.system.globals.find? fun g => g.decl.name = name).map (·.decl)

/-- A parameter or local variable of a routine. -/
def local? (sc : Scope) (r : Routine) (name : String) : Option Decl :=
  match r with
  | .member m => ((sc.locals[m.index]?).getD []).find? fun d => d.name = name
  | _ => none

/-- A field by class and name. -/
def qualifiedField? (sc : Scope) (name : String) : Option Decl :=
  (splitName? name).bind fun (c, f) => (sc.class? c).bind (fieldOf? · f)

/-- A field of the class that a routine belongs to. -/
def ownField? (sc : Scope) (r : Routine) (name : String) : Option Decl :=
  match r with
  | .member m => (sc.class? m.className).bind (fieldOf? · name)
  | _ => none

/-- The innermost variable of a name: one of the routine, else with a point a qualified field, without
one a field of the own class or a system variable. -/
def var? (sc : Scope) (r : Routine) (name : String) : Option Decl :=
  (sc.local? r name).or <|
    if (splitName? name).isSome then sc.qualifiedField? name else (sc.ownField? r name).or (sc.global? name)

/-- All events: those of the instances, then those without an owner. -/
def events (sc : Scope) : List Event :=
  (sc.system.instances.flatMap fun d =>
    (((sc.system.classOf? d.inst).map (·.events)).getD []).map fun n => ⟨some d.inst, n⟩)
    ++ sc.freeEvents.map fun n => ⟨none, n⟩

def event? (sc : Scope) (text : String) : Option Event :=
  sc.events.find? fun e => e.text = text

/-- A field of an instance, of the class of the instance. -/
def fieldOfInstance? (sc : Scope) (inst field : String) : Option Variable :=
  (sc.system.instance? inst).bind fun i => (sc.system.classOf? i).bind fun c =>
    (fieldOf? c field).map fun d => .ofOwner (.inst i) d

/-- A variable as a routine sees it: its own, or that of an instance. The empty name stands for an
unknown instance. -/
def seen? (sc : Scope) (r : Routine) (d : Decl) (inst : String) : Option Variable :=
  if !d.isGlobal then some (.ofFrame [r] (.decl d))
  else if inst = "" then some (.ofOwner .unknown d)
  else (sc.system.instance? inst).map fun i => .ofOwner (.inst i) d

end Scope

end DeltaSlice

import DeltaSlice.Pdg.Compose
import DeltaSlice.ReadWrite

/-!
What is learned about a transition: nothing, its read and write conditions, its dependence graph,
or two of these side by side. Informations of alternative ways to the same state are composed.
-/

namespace DeltaSlice

inductive Info where
  | none
  | readWrite (i : ReadWrite)
  | pdg (g : Pdg)
  | pair (first second : Info)

namespace Info

/-- Composition of alternatives of the same form. -/
def compose : Info → Info → Except Fault Info
  | none, _ => .ok none
  | readWrite a, readWrite b => .ok (readWrite (a.compose b))
  | pdg a, pdg b => (a.compose b).map pdg
  | pair a b, pair c d =>
    match a.compose c with
    | .ok x => (b.compose d).map (pair x)
    | .error f => .error f
  | _, _ => .error .undefined

def key : Info → String
  | none => ""
  | readWrite i => i.key
  | pdg g => g.key
  | pair a b => a.key ++ "\x00" ++ b.key

/-- The first part that is a dependence graph. -/
def pdg? : Info → Option Pdg
  | pdg g => some g
  | pair a b => a.pdg?.or b.pdg?
  | _ => Option.none

/-- The first part that holds read and write conditions. -/
def readWrite? : Info → Option ReadWrite
  | readWrite i => some i
  | pair a b => a.readWrite?.or b.readWrite?
  | _ => Option.none

end Info

/-- Which variables a transition reads and writes: never, always, or perhaps. -/
structure Accesses where
  read : Variable → Value
  written : Variable → Value
  vars : List Variable

namespace Accesses

def never : Accesses := ⟨fun _ => .bool false, fun _ => .bool false, []⟩

def ofPdg (g : Pdg) : Accesses := ⟨g.readOf, g.writtenOf, g.vars⟩

/-- The variables that may be written. -/
def possiblyWritten (a : Accesses) : List Variable :=
  a.vars.filter fun v => (a.written v).possibly

end Accesses

/-- The accesses that the first part with any knows of. -/
def Info.accesses? : Info → Option Accesses
  | readWrite i => some ⟨i.readOf, i.writtenOf, i.vars⟩
  | pdg g => some (.ofPdg g)
  | pair a b => a.accesses?.or b.accesses?
  | none => Option.none

end DeltaSlice

import DeltaSlice.Model.System

/-!
Evaluation points: a routine and the index path of an expression in its body. Location stacks list
the innermost point first; their texts list the outermost first.
-/

namespace DeltaSlice

structure Location where
  routine : Routine
  path : Path
deriving DecidableEq

namespace Location

/-- The body itself is its own parent. -/
def parent (l : Location) : Location := ⟨l.routine, l.path.tail⟩

def child (l : Location) (i : Int) : Location := ⟨l.routine, i :: l.path⟩

def text (l : Location) : String :=
  l.routine.text ++ "[" ++ ",".intercalate (l.path.reverse.map toString) ++ "]"

end Location

/-- A call stack of evaluation points, the innermost first. -/
abbrev Stack := List Location

def Stack.text (s : Stack) : String :=
  "/".intercalate (s.reverse.map Location.text)

def Stack.routines (s : Stack) : List Routine := s.map (·.routine)

/-- The expression at a location; the body itself is none. -/
def System.at? (sys : System) (l : Location) : Option Expr :=
  Path.resolve? (sys.body l.routine) l.path

end DeltaSlice

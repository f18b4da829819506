import DeltaSlice.Model.System

/-!
Structural queries about the bodies of a system, answered from tables that are built once.
-/

namespace DeltaSlice

/-- For every routine the nodes of its body with the nodes above them. -/
structure Index where
  tables : List (List (Nat × Expr))

namespace Index

def ofSystem (sys : System) : Index := ⟨sys.bodies.map (Expr.linksAll none)⟩

/-- The node above `e` in the body of `r`; a statement of the body itself has none. Of a node that
occurs twice this is the first place, where a map that is filled in this order keeps the last one. Only
empty expressions and stops share a node in practice: they have no fields to tell them apart. -/
def parent? (ix : Index) (r : Routine) (e : Expr) : Option Expr :=
  match r with
  | .member m =>
    (ix.tables[m.index]?).bind fun t => (t.find? fun l => l.1 = e.id).map (·.2)
  | _ => none

end Index

end DeltaSlice

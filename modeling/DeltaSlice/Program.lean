import DeltaSlice.Failure
import DeltaSlice.Location
import DeltaSlice.Model.Index

/-!
A system with its index, and the questions about the structure of its code that dependence graphs
depend on: which expressions have a node of their own, which are relevant for a graph, and which
control which.
-/

namespace DeltaSlice

structure Program where
  system : System
  index : Index

namespace Expr

def isCall : Expr → Bool
  | call .. => true
  | _ => false

/-- Statement lists and control structures. -/
def holdsStatements : Expr → Bool
  | switch .. | arm .. | branch .. | whileLoop .. | doLoop .. | forLoop .. | block .. => true
  | _ => false

/-- The index of the child that controls child `i`. Loop conditions control themselves. -/
def controllingIndex? (e : Expr) (i : Int) : Option Int :=
  match e with
  | branch .. | switch .. => if i = 0 then none else some 0
  | forLoop .. => if i = 0 then none else some 1
  | whileLoop .. | doLoop .. => some 0
  | arm _ (some _) _ => if i = 0 then none else some 0
  | _ => none

/-- Whether child `i` is the one that controls the others. -/
def isController (e : Expr) (i : Int) : Bool := e.controllingIndex? 1 = some i

mutual

/-- Whether control may pass the end of a statement that ends a case. -/
def mayPass : Expr → Bool
  | exit .. | ret .. | next .. => false
  | block _ es => lastMayPass es
  | _ => true

/-- The same for the last of several statements. -/
def lastMayPass : List Expr → Bool
  | [] => true
  | [e] => e.mayPass
  | _ :: es => lastMayPass es

end

/-- Whether the body of a case may run into the next case. -/
def mayFallThrough : Expr → Bool
  | arm _ _ body => lastMayPass body
  | _ => true

end Expr

namespace Program

def ofSystem (sys : System) : Program := ⟨sys, .ofSystem sys⟩

def at? (p : Program) (l : Location) : Option Expr := p.system.at? l

def parent? (p : Program) (r : Routine) (e : Expr) : Option Expr := p.index.parent? r e

/-- A statement of a list or a direct part of a control structure. -/
def isListed (p : Program) (r : Routine) (e : Expr) : Bool :=
  match p.parent? r e with
  | none => true
  | some q => q.holdsStatements

/-- The same, where a call may stand behind its receiver. -/
def isTopOfStatement (p : Program) (r : Routine) (e : Expr) : Bool :=
  match p.parent? r e with
  | some q@(.access _ _ m) => e.isCall && m.id = e.id && p.isListed r q
  | _ => p.isListed r e

/-- Whether an expression has a node of its own instead of being part of one above it. The body
has. -/
def formsOwnNode (p : Program) (r : Routine) : Option Expr → Bool
  | none => true
  | some e =>
    match e, p.parent? r e with
    | .call .., _ | .notify .., _ | _, some (.call ..) => true
    | _, some (.access _ x m) => (m.isCall && x.id = e.id) || p.isTopOfStatement r e
    | _, _ => p.isTopOfStatement r e

/-- The shortest way up to an expression with a node of its own. -/
def ownPath (p : Program) (r : Routine) : Path → Path
  | [] => []
  | i :: up => if p.formsOwnNode r (p.at? ⟨r, i :: up⟩) then i :: up else p.ownPath r up

/-- The stack with its innermost location moved up to a node of its own. -/
def trim (p : Program) : Stack → Stack
  | [] => []
  | l :: rest => ⟨l.routine, p.ownPath l.routine l.path⟩ :: rest

/-- The routine whose result is used when `e` is reached again from its child `i`. -/
def usedCall? (p : Program) (r : Routine) (e : Expr) (i : Int) : Option Routine :=
  match elementAt? e.children i with
  | some c@(.call _ f _) => if f.returns && !p.isTopOfStatement r c then some f else none
  | _ => none

/-- Whether a small step on `e`, child `i` of the expression above it, reached again from child
`comingFrom`, may change a dependence graph. -/
def isRelevant (p : Program) (r : Routine) (e : Expr) (i comingFrom : Int) : Bool :=
  let n : Int := e.children.length
  let finished := comingFrom = n - 1
  let parent := p.parent? r e
  let itself := match e with
    | .var .. => true
    | .binary _ .assign _ _ | .notify .. => finished
    | .call .. => finished || comingFrom = n
    | _ => false
  let controls := match parent with
    | some q => comingFrom = -1 && q.isController i
    | none => false
  let handedOver := match e, parent with
    | .ret .., _ => comingFrom = 0
    | _, some (.call ..) => finished
    | _, some (.access _ _ m) => m.isCall && i = 0 && finished
    | _, _ => false
  itself || (p.usedCall? r e comingFrom).isSome || controls || handedOver

/-- Looks for the case before `e`, child `i` of the expression above it, unless `e` is the first part of a
switch or its first case. A case has to stand in a switch, and the case before it has to be there. -/
def checkCase (p : Program) (r : Routine) (e : Expr) (i : Int) : Except Fault Unit :=
  match e with
  | .arm .. =>
    if i < 2 then .ok ()
    else match p.parent? r e with
      | some (.switch _ _ _ cases) => (required (elementAt? cases (i - 2))).map fun _ => ()
      | _ => .error .undefined
  | _ => .ok ()

/-- Checks the cases on the way up that `controllers` looks at. -/
def checkCases (p : Program) (r : Routine) : Path → Option Expr → Except Fault Unit
  | i :: up, some e => do
    p.checkCase r e i
    match (p.parent? r e).bind (·.controllingIndex? i) with
    | some c => if c = i then p.checkCases r up (p.parent? r e) else .ok ()
    | none => p.checkCases r up (p.parent? r e)
  | _, _ => .ok ()

/-- The stacks of the expressions that control `e` at a path under the callers `rest`; `none` is
the entry of the code. -/
def controllers (p : Program) (r : Routine) (rest : Stack) : Path → Option Expr → List (Option Stack)
  | i :: up, some e =>
    let parent := p.parent? r e
    let fallen := match e, parent with
      | .arm .., some (.switch _ _ _ cases) =>
        if 2 ≤ i && ((elementAt? cases (i - 2)).map Expr.mayFallThrough).getD false then
          [some (⟨r, (i - 1) :: up⟩ :: rest)]
        else []
      | _, _ => []
    fallen ++ match parent.bind (·.controllingIndex? i) with
      | none => p.controllers r rest up parent
      | some c =>
        if c = i then some (⟨r, i :: up⟩ :: rest) :: p.controllers r rest up parent
        else [some (⟨r, c :: up⟩ :: rest)]
  | _, _ => [if rest.isEmpty then none else some (p.trim rest)]

end Program

end DeltaSlice

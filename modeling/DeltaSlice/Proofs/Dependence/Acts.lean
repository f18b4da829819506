import DeltaSlice.Observer.Dependence
import DeltaSlice.Proofs.Pdg.Reaching
import DeltaSlice.Proofs.Worklist.Walk

/-!
What a small step means for a dependence graph, said without the graph: which nodes it asks for, which
variables it reads and writes on their behalf, and which it forgets, in this order. Arguments,
receivers and results are accesses to variables of the called frame.
-/

namespace DeltaSlice

namespace Dependence

/-- Which variables are forgotten at once. -/
inductive Forgetting where
  | locals
  /-- Those of frames of at least the given depth, up to the result of a call that is still used. -/
  | frames (depth : Nat) (kept : Option Variable)
  | only (v : Variable)
deriving DecidableEq

def Forgetting.drops : Forgetting → Variable → Bool
  | locals, v => v.isLocal
  | frames depth kept, v =>
    match v with
    | .frame _ d _ => depth ≤ d && kept ≠ some v
    | _ => false
  | only w, v => v = w

/-- Nodes are given by the keys of their statements. -/
inductive Act where
  | make (node : String)
  | read (v : Variable) (node : String)
  | write (v : Variable) (node : String)
  | forget (what : Forgetting)
deriving DecidableEq

def Act.isAccess : Act → Bool
  | make _ => false
  | _ => true

/-- The effect of an act on what a graph says. -/
def Act.apply (X : Set Pdg.Fact) : Act → Set Pdg.Fact
  | make a => X ∪ {.node (.statement a)}
  | read v a => X ∪ Pdg.readFacts X v (.statement a)
  | write v a => {f | (f ∈ X ∧ ¬ f.Tells v) ∨ f = .reaches v (some (.statement a))}
  | forget what => {f | (f ∈ X ∧ ∀ v, what.drops v = true → ¬ f.Tells v) ∨
      ∃ v, what.drops v = true ∧ f = .reaches v none}

namespace Site

/-- The parameter or receiver that a finished argument is bound to. -/
def bound (s : Site) : List Variable :=
  if s.finished then
    match s.parent with
    | some (.call _ r args) => [paramVariable s.routines r args s.index]
    | some (.access _ _ (.call _ r _)) =>
      if s.index = 0 then [.ofFrame (r :: s.routines) .receiver] else []
    | _ => []
  else []

/-- The variables that the step reads apart from those that the evaluation reports. -/
def passed (s : Site) : List Variable :=
  match s.expr with
  | .call _ (.member m) _ =>
    if s.finished then
      (if s.isMember then [] else [.ofFrame s.routines .receiver]) ++
        [.ofFrame (.member m :: s.routines) .receiver]
    else []
  | _ => []

def reads (p : Program) (s : Site) : List Variable :=
  (s.passed ++ (usedResult? p s).toList).foldl Transition.addVariable s.after.scratch.read

/-- A call hands over the receiver and drops what was reported; a return defines the result. -/
def writes (s : Site) : List Variable :=
  match s.expr with
  | .call _ (.member m) _ =>
    if s.finished then if s.isMember then [] else [.ofFrame (.member m :: s.routines) .receiver]
    else s.bound.foldl Transition.addVariable s.after.scratch.written
  | .ret .. =>
    (s.bound ++ if s.comingFrom = 0 then [Variable.ofFrame s.routines .result] else []).foldl
      Transition.addVariable s.after.scratch.written
  | _ => s.bound.foldl Transition.addVariable s.after.scratch.written

/-- What a call forgets when it returns. -/
def released (p : Program) (s : Site) : List Forgetting :=
  match s.expr with
  | .call _ r _ =>
    if s.comingFrom = s.arity then
      [.frames (s.routines.length + 1)
        (if r.returns && !p.isTopOfStatement s.here.routine s.expr
          then some (.ofFrame (r :: s.routines) .result) else none)]
    else []
  | _ => []

/-- Waits, update requests and notifications have a node whether or not they access anything. -/
def asksForNode (s : Site) : Bool :=
  match s.expr with
  | .call _ .wait _ | .call _ .requestUpdate _ | .notify .. => s.finished
  | _ => false

/-- An expression that controls others has a node from its start. -/
def controls (s : Site) : Bool :=
  match s.parent with
  | some q => s.comingFrom = -1 && q.isController s.index
  | none => false

/-- The node that the accesses belong to. -/
def owner (p : Program) (s : Site) : StatementId := .point s.after.origin (p.trim s.stack)

def accessActs (p : Program) (s : Site) : List Act :=
  let a := (s.owner p).key
  (if s.reads p = [] then [] else .make a :: (s.reads p).map (.read · a)) ++
    (usedResult? p s).toList.map (fun v => .forget (.only v)) ++
    (if s.writes = [] then [] else .make a :: s.writes.map (.write · a))

def acts (p : Program) (s : Site) : List Act :=
  (s.released p).map .forget ++ (if s.asksForNode then [.make s.statement.key] else []) ++
    s.accessActs p ++ (if s.controls && !s.asksForNode && s.reads p = [] && s.writes = []
      then [.make (s.owner p).key] else [])

/-- The node that the step belongs to, if it has one. -/
def node? (p : Program) (s : Site) : Option String :=
  if s.reads p ≠ [] ∨ s.writes ≠ [] then some (s.owner p).key
  else if s.asksForNode then some s.statement.key
  else if s.controls then some (s.owner p).key
  else none

end Site

end Dependence

open Dependence

/-- What a small step was about, if it is relevant for dependence graphs. -/
def Move.site? (p : Program) (m : Move) : Option Site :=
  match m.step.expr, m.result.scratch.announced with
  | some e, some (l :: callers) =>
    match l.path with
    | i :: _ => some ⟨m.result, e, m.step.comingFrom, i, p.parent? l.routine e, l, callers⟩
    | [] => none
  | _, _ => none

/-- The acts of a small step. At the end of the code all local variables are forgotten. -/
def Move.acts (p : Program) (m : Move) : List Act :=
  match m.step.expr with
  | none => if m.step.comingFrom = -2 then [.forget .locals] else []
  | some _ => ((m.site? p).map (Site.acts p)).getD []

/-- The reads, writes and forgets of a small step, in order. -/
def Move.accesses (p : Program) (m : Move) : List Act := (m.acts p).filter Act.isAccess

end DeltaSlice

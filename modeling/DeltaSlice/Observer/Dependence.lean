import DeltaSlice.Program
import DeltaSlice.Transition

/-!
How small steps build the dependence graph of a transition. Reads and writes of a step belong to the
nearest enclosing node; arguments, receivers and results pass through variables of the called frame.
With triggers, waits, notifications and update requests define trigger variables, which connect the
graphs of different transitions.
-/

namespace DeltaSlice.Dependence

/-- The variable an argument is bound to. Built-ins and calls with another number of arguments than
parameters bind by position. -/
def paramVariable (stack : List Routine) (f : Routine) (args : List Expr) (i : Int) : Variable :=
  let positional := Variable.ofFrame (f :: stack) (.arg i)
  if f.isBuiltin || f.params.length ≠ args.length then positional
  else
    match elementAt? f.params i with
    | some d => .ofFrame (f :: stack) (.decl d)
    | none => positional

/-- Code starts: its entry, controlled by the trigger of the point at which it starts. -/
def start (triggers : Bool) (t : Transition) (g : Pdg) : Except Halt Pdg :=
  match t.running?.bind (·.resumption?) with
  | none => .error (.broken .undefined)
  | some stack =>
    let (n, g) := g.enter (.point t.origin stack)
    if triggers then
      match t.origin with
      | none => .error (.broken .undefined)
      | some origin =>
        let (i, g) := g.inputNode (.ofResumption origin stack)
        (g.addEdge .control i n).mapError .broken
    else .ok g

/-- The event that a notification about to be performed concerns. -/
def announcedEvent (top : Frame) (e : Expr) : Except Halt (Option Event) :=
  match e with
  | .notify .. =>
    if top.comingFrom = e.children.length - 1 then
      match top.value 0 0 with
      | .unknown => .error (.failed (.imprecise top.location.text "notified event"))
      | v =>
        match v.asEvent? with
        | some ev => .ok (some ev)
        | none => .error (.failed (.notAnEvent top.location.text v.text))
    else .ok none
  | _ => .ok none

/-- Remembers the location stack of a relevant small step before it is made. -/
def announce (p : Program) (triggers : Bool) (t : Transition) (e : Expr) : Except Halt Scratch :=
  match t.running?, t.top? with
  | some ps, some top =>
    match top.index? with
    | none => .error (.broken .undefined)
    | some i =>
      if p.isRelevant top.location.routine e i top.comingFrom then
        let s := { t.scratch with announced := some ps.locations }
        if triggers then
          (announcedEvent top e).map fun
            | some ev => { s with event := some ev }
            | none => s
        else .ok s
      else .ok { t.scratch with announced := none }
  | _, _ => .error (.broken .undefined)

/-- The bookkeeping of one small step: the graph, the node the step is attributed to so far, and
the variables it reads and writes. -/
structure Focus where
  graph : Pdg
  node : Option Nat
  read : List Variable
  written : List Variable

namespace Focus

def addRead (f : Focus) (v : Variable) : Focus :=
  { f with read := Transition.addVariable f.read v }

def addWritten (f : Focus) (v : Variable) : Focus :=
  { f with written := Transition.addVariable f.written v }

/-- Attributes the step to the node of a statement, unless it has a node. -/
def ensureNode (f : Focus) (s : StatementId) : Focus :=
  match f.node with
  | some _ => f
  | none =>
    let (n, g) := f.graph.statementNode s
    { f with graph := g, node := some n }

end Focus

/-- What a small step is about: the transition after it, the expression with its index, the one
above it, the child it was reached from, and the stack announced before it. -/
structure Site where
  after : Transition
  expr : Expr
  comingFrom : Int
  index : Int
  parent : Option Expr
  here : Location
  callers : Stack

namespace Site

def stack (s : Site) : Stack := s.here :: s.callers

def routines (s : Site) : List Routine := s.stack.routines

def arity (s : Site) : Int := s.expr.children.length

/-- All children have been evaluated. -/
def finished (s : Site) : Bool := s.comingFrom = s.arity - 1

def statement (s : Site) : StatementId := .point s.after.origin s.stack

/-- The expression is called on the value of the one before it. -/
def isMember (s : Site) : Bool :=
  match s.parent with
  | some (.access _ _ m) => m.id = s.expr.id
  | _ => false

end Site

/-- Binds a finished argument to its parameter and a finished receiver to the called frame. -/
def bindArgument (s : Site) (f : Focus) : Focus :=
  if s.finished then
    match s.parent with
    | some (.call _ r args) => f.addWritten (paramVariable s.routines r args s.index)
    | some (.access _ _ (.call _ r _)) =>
      if s.index = 0 then f.addWritten (.ofFrame (r :: s.routines) .receiver) else f
    | _ => f
  else f

/-- An update request defines the trigger of the update routine. -/
def updateTrigger (p : Program) (s : Site) (f : Focus) : Except Halt Focus :=
  match s.after.top? with
  | none => .error (.broken .undefined)
  | some top =>
    let place := s.here.text
    match if s.isMember then top.value 0 0 else top.receiver with
    | .unknown => .error (.failed (.imprecise place "receiver of request_update"))
    | v =>
      match v.asInstance? with
      | none => .error (.failed (.notAnInstance place v.text))
      | some i =>
        match p.system.classOf? i with
        | none => .error (.broken .undefined)
        | some c =>
          match c.routine? "update" with
          | none => .error (.failed (.noUpdateRoutine place c.name))
          | some r => .ok (f.addWritten (.ofResumption i [⟨r, []⟩]))

/-- A wait defines the trigger of the location after it. -/
def waitTrigger (s : Site) (f : Focus) : Except Halt Focus :=
  match s.after.origin with
  | none => .error (.broken .undefined)
  | some origin =>
    .ok (f.addWritten (.ofResumption origin (s.here.parent.child (s.index + 1) :: s.callers)))

/-- The calls: built-ins have their own effect; other calls hand the receiver over, and forget the
variables of the called frame when they return. -/
def callEffect (p : Program) (triggers : Bool) (s : Site) (f : Focus) : Except Halt Focus :=
  match s.expr with
  | .call _ r _ =>
    if s.finished then
      match r with
      | .requestUpdate =>
        let f := f.ensureNode s.statement
        if triggers then updateTrigger p s f else .ok f
      | .wait =>
        let f := f.ensureNode s.statement
        if triggers then waitTrigger s f else .ok f
      | .member _ =>
        let receiver := Variable.ofFrame (r :: s.routines) .receiver
        let f := { f with written := [] }
        let f := if s.isMember then f
          else (f.addRead (.ofFrame s.routines .receiver)).addWritten receiver
        .ok (f.addRead receiver)
    else if s.comingFrom = s.arity then
      let depth := s.routines.length + 1
      let kept := Variable.ofFrame (r :: s.routines) .result
      let keeps := r.returns && !p.isTopOfStatement s.here.routine s.expr
      .ok { f with graph := f.graph.forget fun v =>
        match v with
        | .frame _ d _ => depth ≤ d && !(keeps && v = kept)
        | _ => false }
    else .ok f
  | _ => .ok f

/-- A return with a value defines the result of its frame. -/
def returnEffect (s : Site) (f : Focus) : Focus :=
  match s.expr with
  | .ret .. => if s.comingFrom = 0 then f.addWritten (.ofFrame s.routines .result) else f
  | _ => f

/-- The result variable of the call that was just evaluated as a part of the expression. -/
def usedResult? (p : Program) (s : Site) : Option Variable :=
  (p.usedCall? s.here.routine s.expr s.comingFrom).map fun r =>
    .ofFrame (r :: s.routines) .result

/-- Notifications: with triggers, a delayed one defines the trigger of its event, and an immediate
one is the node that was made when it woke a process. -/
def notifyEffect (triggers : Bool) (s : Site) (f : Focus) : Focus :=
  match s.expr with
  | .notify _ _ delays =>
    if s.finished then
      if triggers then
        if delays.isEmpty then
          match f.graph.find? (.statement s.statement.key) with
          | some n => { f with node := some n }
          | none => f
        else
          let f := f.ensureNode s.statement
          match s.after.scratch.event with
          | some ev => f.addWritten (.event ev)
          | none => f
      else f.ensureNode s.statement
    else f
  | _ => f

/-- The reads of the step, each from all definitions that reach it. -/
def applyReads (trimmed : StatementId) (f : Focus) : Except Fault Focus :=
  if f.read.isEmpty then .ok f
  else
    let (n, g) := f.graph.statementNode trimmed
    (f.read.foldlM (fun (g : Pdg) v => g.readBy v n) g).map fun g =>
      { f with graph := g, node := some n }

/-- The writes of the step, each the only definition from now on. -/
def applyWrites (trimmed : StatementId) (f : Focus) : Focus :=
  if f.written.isEmpty then f
  else
    let (n, g) := f.graph.statementNode trimmed
    { f with graph := f.written.foldl (fun (g : Pdg) v => g.define v n) g, node := some n }

/-- An expression that controls others has a node from its start. -/
def controllerNode (s : Site) (trimmed : StatementId) (f : Focus) : Focus :=
  match s.parent with
  | some q => if s.comingFrom = -1 && q.isController s.index then f.ensureNode trimmed else f
  | none => f

/-- The node of a controlling stack, or the entry while there is none. -/
def controlSource (g : Pdg) (origin : Option Instance) (stack : Option Stack) : Option Nat :=
  match stack with
  | none => g.entry
  | some s => (g.find? (.statement (StatementId.point origin s).key)).or g.entry

/-- Connects the node of the step: an argument with its call, any other node that has no control
dependence yet with the nodes that control it. -/
def connect (p : Program) (s : Site) (n : Nat) (g : Pdg) : Except Fault Pdg :=
  match s.parent, s.finished with
  | some (.call ..), true =>
    let (c, g) := g.statementNode (.point s.after.origin (s.here.parent :: s.callers))
    g.addEdge .member c n
  | _, _ =>
    match g.hasControl? n with
    | none => .error .undefined
    | some true => .ok g
    | some false => do
      p.checkCases s.here.routine s.here.path s.expr
      (p.controllers s.here.routine s.callers s.here.path s.expr).foldlM (fun (g : Pdg) c =>
        match controlSource g s.after.origin c with
        | some m => g.addEdge .control m n
        | none => .ok g) g

/-- The effect of one relevant small step on the graph. -/
def evaluatedAt (p : Program) (triggers : Bool) (s : Site) (g : Pdg) : Except Halt Pdg := do
  let f : Focus := ⟨g, none, s.after.scratch.read, s.after.scratch.written⟩
  let f ← callEffect p triggers s (bindArgument s f)
  let f := returnEffect s f
  let used := usedResult? p s
  let f := match used with
    | some v => f.addRead v
    | none => f
  let f := notifyEffect triggers s f
  let trimmed := StatementId.point s.after.origin (p.trim s.stack)
  let f ← (applyReads trimmed f).mapError .broken
  let f := match used with
    | some v => { f with graph := f.graph.forget (· = v) }
    | none => f
  let f := controllerNode s trimmed (applyWrites trimmed f)
  match f.node with
  | none => .ok f.graph
  | some n => (connect p s n f.graph).mapError .broken

/-- The effect of a small step. A step on a body has none, except at the end of the code, where all
local variables are forgotten. -/
def evaluated (p : Program) (triggers : Bool) (t : Transition) (e : Option Expr)
    (comingFrom : Int) (g : Pdg) : Except Halt Pdg :=
  match e with
  | none => .ok (if comingFrom = -2 then g.forget (·.isLocal) else g)
  | some e =>
    match t.scratch.announced with
    | none => .ok g
    | some [] => .error (.broken .undefined)
    | some (l :: callers) =>
      match l.path with
      | [] => .error (.broken .undefined)
      | i :: _ =>
        evaluatedAt p triggers ⟨t, e, comingFrom, i, p.parent? l.routine e, l, callers⟩ g

/-- A process is woken by events: by the notifying statement, or at the end of a cycle by a node of
its own that reads the triggers of the events. It adds to the definitions of the trigger of the
point at which the process resumes. -/
def woken (t : Transition) (p : Process) (events : List Event) (before : EventList) (g : Pdg) :
    Except Fault Pdg := do
  let (n, g) ← match t.scratch.event with
    | some _ => pure (g.statementNode (.point t.origin (t.scratch.announced.getD [])))
    | none =>
      let (n, g) := g.statementNode (.wakeup p)
      let g ← (events.filter before.contains).foldlM
        (fun (g : Pdg) e => g.readBy (.event e) n) g
      pure (n, g)
  match (t.state.procs[p.index]?).bind (·.resumption?) with
  | none => .error .undefined
  | some stack => .ok (g.addDefinition (.ofResumption p.inst stack) n)

end DeltaSlice.Dependence

import DeltaSlice.Simulator.Basic

/-!
Small steps: one piece of the expression at the top of the running stack is evaluated. Control flow
is kept in index paths: a step descends into a child, or leaves the current expression with a
result, and the expression above continues from the child that was left. Where a condition is
unknown, a step has two results.
-/

namespace DeltaSlice

/-- The outcome of a small step: the expression it was on (none for a body), the child it was
reached from, and the transitions it leads to. -/
structure SmallStep where
  expr : Option Expr
  comingFrom : Int
  results : List Transition
  /-- The code waits or has come to its end. -/
  ends : Bool
  /-- The results may be reached again within the same run. -/
  repeats : Bool

namespace SmallStep

def one (e : Option Expr) (comingFrom : Int) (t : Transition) : SmallStep :=
  ⟨e, comingFrom, [t], false, false⟩

/-- The outcome, unless something broke on the way to it. -/
def checked (st : SmallStep) : Except Fault SmallStep :=
  match st.results.findSome? (·.fault) with
  | none => .ok st
  | some f => .error f

end SmallStep

namespace Expr

/-- Whether the result of child `i` is used. Statement lists ignore results, except those of the
cases of a switch, which decide about falling through. -/
def usesChild (e : Expr) (i : Int) : Bool :=
  match e with
  | whileLoop .. | doLoop .. | branch .. => i = 0
  | forLoop .. => i = 1
  | arm _ v _ => i = 0 && v.isSome
  | block .. => false
  | _ => true

/-- Whether an unlabelled or suitably labelled exit or repetition below `e` may mean `e`. -/
def isTarget (e : Expr) (label : String) (exits : Bool) : Bool :=
  match e with
  | whileLoop _ l _ _ | doLoop _ l _ _ | forLoop _ l _ _ _ _ => label = "" || label = l
  | switch _ l _ _ => exits && (label = "" || label = l)
  | _ => false

end Expr

namespace System

/-- The expression above the one at a location. -/
def above? (sys : System) (l : Location) : Option Expr := sys.at? l.parent

/-- Whether the result of the expression at a location is used by the one above it. -/
def isUsed (sys : System) (l : Location) : Bool :=
  match l.path, sys.above? l with
  | i :: _, some e => e.usesChild i
  | _, _ => false

/-- Leaves the current expression with a result. -/
def finish (sys : System) (v : Value) (f : Frame) : Frame := f.leave v (sys.isUsed f.location)

def editFinish (sys : System) (v : Value) : Edit Frame Unit := do
  Frame.editLeave v (sys.isUsed (← get).location)

/-- Whether the variable at a location is assigned to, directly or as the member of an access. -/
def isAssigned (sys : System) (l : Location) : Bool :=
  match l.path, sys.above? l with
  | i :: _, some (.binary _ op _ _) => op = .assign && i = 0
  | i :: j :: _, some (.access ..) =>
    match sys.above? l.parent with
    | some (.binary _ op _ _) => i = 1 && op = .assign && j = 0
    | _ => false
  | _, _ => false

/-- Whether the expression at a location is qualified by the one before it. -/
def isQualified (sys : System) (l : Location) : Bool :=
  match l.path, sys.above? l with
  | i :: _, some (.access ..) => i = 1
  | _, _ => false

/-- How many levels up the target of an exit or repetition is, and the target, looking at the path
`up` from `n` levels up. -/
def target? (sys : System) (r : Routine) (label : String) (exits : Bool) :
    Nat → Path → Option (Nat × Expr)
  | _, [] => none
  | n, i :: up =>
    match sys.at? ⟨r, i :: up⟩ with
    | none => none
    | some e => if e.isTarget label exits then some (n, e) else sys.target? r label exits (n + 1) up

end System

namespace Transition

/-- Leaves the current expression with a result. -/
def finish (t : Transition) (sys : System) (v : Value) : Transition := t.editTop (sys.editFinish v)

end Transition

namespace Simulator

/-- The variable that a reference at the top of the stack names. -/
def referenced (s : Simulator) (ps : ProcessState) (top : Frame) (d : Decl) : Variable :=
  if d.isGlobal then
    let qualifier := if s.program.system.isQualified top.location then top.value 1 0 else top.receiver
    match qualifier.asInstance? with
    | some i => .ofOwner (.inst i) d
    | none => .ofOwner .unknown d
  else .ofFrame ps.routines (.decl d)

def load (t : Transition) (ps : ProcessState) (v : Variable) : Value :=
  ((if v.isLocal then ps.locals.get? v else t.state.global.values.get? v)).getD .unknown

/-- Reads a variable. The target of an assignment evaluates to the variable itself. -/
def readVariable (s : Simulator) (t : Transition) (ps : ProcessState) (top : Frame) (d : Decl) :
    Value × Transition :=
  let v := s.referenced ps top d
  if s.program.system.isAssigned top.location then
    (if v.isQualified then .known (.target v) else .unknown, t)
  else
    (if v.isQualified && s.setup.tracksVariable v then load t ps v else .unknown, t.addRead v)

def store (s : Simulator) (t : Transition) (v : Variable) (x : Value) : Transition :=
  if s.setup.tracksVariable v then
    if v.isLocal then t.mapRunning (·.setLocal v x) else t.mapGlobal (·.setValue v x)
  else t

/-- The event list of two operands: an event or a list of events, and an event. -/
def eventList? (choice : Bool) (l r : Value) : Option EventList :=
  match l, r.asEvent? with
  | .known (.literal (.event a)), some b => some (.of [a, b] choice none)
  | .known (.events _ a), some b => some (a.join choice [b])
  | _, _ => none

/-- The result of an expression whose children have been evaluated. -/
def aggregate (s : Simulator) (t : Transition) (top : Frame) (e : Expr) :
    Except Halt (Value × Transition) :=
  let x := top.value 0 0
  let y := top.value 0 1
  match e with
  | .unary _ op _ => .ok (.applyUnary op x, t)
  | .binary _ .assign _ _ =>
    match x with
    | .unknown => .error (.failed (.imprecise top.location.text ("target of " ++ e.text)))
    | .known (.target v) => .ok (y, s.store (t.addWritten v) v y)
    | .known _ => .error (.broken .undefined)
  | .binary _ op _ _ =>
    match if op = .both || op = .either then eventList? (op = .either) x y else none with
    | some l =>
      let n := t.state.nextList
      .ok (.known (.events n l), { t with state := { t.state with nextList := n + 1 } })
    | none => .ok (.apply op x y, t)
  | .access .. => .ok (y, t)
  | .bracket .. => .ok (x, t)
  | _ => .ok (.unknown, t)

/-- The end of the routine in which a transition started. A process with a sensitivity starts over
and waits for it; any other one terminates. -/
def endOfCode (t : Transition) : SmallStep :=
  let t := match t.proc with
    | none => t
    | some p =>
      if p.sensitivity.isEmpty then t.mapRunning (·.block (some .terminated))
      else t.mapRunning fun ps =>
        (ps.block (some (.events (.of p.sensitivity true none)))).push
          (.start p.routine (.lit (.inst p.inst)))
  { expr := none, comingFrom := -2, results := [t], ends := true, repeats := false }

/-- Drops the parameters of a frame that was just popped. -/
def dropParams (ps : ProcessState) (r : Routine) : ProcessState :=
  r.params.foldl (fun q d => q.dropLocal (.ofFrame (r :: ps.routines) (.decl d))) ps

/-- Returns to the caller, which gets the result behind its arguments. -/
def returnFrom (s : Simulator) (t : Transition) (e : Option Expr) (comingFrom : Int) (v : Value) :
    SmallStep :=
  let t := t.editRunning ProcessState.editPop
  match t.top? with
  | none => endOfCode t
  | some caller =>
    let t := t.editTop (Frame.editComeFrom (caller.comingFrom + 1) (some v))
    let t := t.mapConditions (·.leaveCall)
    let t := match s.program.at? caller.location with
      | some (.call _ r _) => t.mapRunning (dropParams · r)
      | _ => t
    .one e comingFrom t

/-- A step on a body: the next statement, or the end of the routine. -/
def bodyStep (s : Simulator) (t : Transition) (top : Frame) : SmallStep :=
  let i := top.comingFrom
  if i < (s.program.system.body top.location.routine).length - 1 then .one none i (t.enter (i + 1))
  else s.returnFrom t none i .unknown

def branchStep (s : Simulator) (t : Transition) (top : Frame) (e : Expr) (yes no : List Expr) :
    SmallStep :=
  let i := top.comingFrom
  let nYes : Int := yes.length
  let nNo : Int := no.length
  let leave := fun (t : Transition) => t.finish s.program.system .unknown
  let enterYes := fun (t : Transition) (c : Value) =>
    if yes.isEmpty then leave ((t.mapConditions (·.add e.id c)).mapConditions (·.dropThrough e.id))
    else (t.mapConditions (·.add e.id c)).enter 1
  let enterNo := fun (t : Transition) (c : Value) =>
    if no.isEmpty then leave t else (t.mapConditions (·.add e.id c.not)).enter (nYes + 1)
  if i = -1 then .one e i (t.enter 0)
  else if i = 0 then
    match (top.value 0 0).truth? with
    | none => { SmallStep.one e i t with results := [enterYes t .unknown, enterNo t .unknown] }
    | some true => .one e i (enterYes t (.bool true))
    | some false => .one e i (enterNo t (.bool false))
  else if i ≤ nYes then
    if i = nYes then .one e i (leave (t.mapConditions (·.dropThrough e.id)))
    else .one e i (t.enter (i + 1))
  else if nYes + nNo ≤ i then
    { SmallStep.one e i (leave (t.mapConditions (·.dropThrough e.id))) with repeats := true }
  else .one e i (t.enter (i + 1))

/-- Loops with the condition as first child. `testsFirst` says whether the condition is evaluated
before the body runs for the first time. -/
def loopStep (s : Simulator) (t : Transition) (top : Frame) (e : Expr) (body : List Expr)
    (testsFirst : Bool) : SmallStep :=
  let i := top.comingFrom
  let leave := fun (t : Transition) =>
    (t.mapConditions (·.dropThrough e.id)).finish s.program.system .unknown
  let first : Int := if body.isEmpty then 0 else 1
  if i = -1 then
    let t := t.mapConditions (·.add e.id (.bool true))
    if testsFirst || body.isEmpty then { SmallStep.one e i (t.enter 0) with repeats := true }
    else .one e i (t.enter 1)
  else if i = 0 then
    let c := top.value 0 0
    match c.truth? with
    | none =>
      { SmallStep.one e i t with
        results := [(t.mapConditions (·.add e.id c)).enter first, leave t]
        repeats := body.isEmpty }
    | some true => { SmallStep.one e i (t.enter first) with repeats := body.isEmpty }
    | some false => .one e i (leave t)
  else if body.length ≤ i then { SmallStep.one e i (t.enter 0) with repeats := true }
  else .one e i (t.enter (i + 1))

def forStep (s : Simulator) (t : Transition) (top : Frame) (e : Expr) (body : List Expr) :
    SmallStep :=
  let i := top.comingFrom
  let leave := fun (t : Transition) =>
    (t.mapConditions (·.dropThrough e.id)).finish s.program.system .unknown
  if i = -1 then .one e i ((t.mapConditions (·.add e.id (.bool true))).enter 0)
  else if i = 0 then { SmallStep.one e i (t.enter 1) with repeats := true }
  else if i = 1 then
    let c := top.value 0 1
    match c.truth? with
    | none =>
      { SmallStep.one e i t with
        results := [(t.mapConditions (·.add e.id c)).enter 2, leave t] }
    | some true => .one e i (t.enter 2)
    | some false => .one e i (leave t)
  else if i = body.length + 2 then { SmallStep.one e i (t.enter 1) with repeats := true }
  else .one e i (t.enter (i + 1))

def switchStep (s : Simulator) (t : Transition) (top : Frame) (e : Expr) (cases : List Expr) :
    SmallStep :=
  let i := top.comingFrom
  if i = -1 then .one e i ((t.mapConditions (·.add e.id (.bool true))).enter 0)
  else if i = cases.length then
    let t := (t.mapConditions (·.dropThrough e.id)).finish s.program.system .unknown
    { SmallStep.one e i t with repeats := true }
  else if i = 0 then .one e i (t.enter 1)
  else { SmallStep.one e i (t.enter (i + 1)) with repeats := true }

/-- A case evaluates to true if its body ran, so that the next case is fallen into. -/
def armStep (s : Simulator) (t : Transition) (top : Frame) (e : Expr) (value : Option Expr)
    (body : List Expr) : SmallStep :=
  let i := top.comingFrom
  let n : Int := e.children.length
  let leave := fun (t : Transition) (ran : Bool) => t.finish s.program.system (.bool ran)
  let enterBody := fun (t : Transition) =>
    if body.isEmpty then leave t true else t.enter (if value.isSome then 1 else 0)
  if i = -1 then
    let here := (top.index?).getD 0
    let fallen := decide (1 < here) && (top.value 1 (here - 1)).truth? = some true
    if fallen || value.isNone then .one e i (enterBody t) else .one e i (t.enter 0)
  else if i = 0 && value.isSome then
    let same := Value.apply .eq (top.value 1 0) (top.value 0 0)
    match same.truth? with
    | none =>
      { SmallStep.one e i t with
        results := [enterBody (t.mapConditions (·.add e.id same)),
          leave (t.mapConditions (·.add e.id same.not)) false] }
    | some true => .one e i (enterBody t)
    | some false => .one e i (leave t false)
  else if i = n - 1 then .one e i (leave t true)
  else .one e i (t.enter (i + 1))

/-- Leaves the target of an exit. -/
def exitStep (s : Simulator) (t : Transition) (top : Frame) (e : Expr) (label : String) :
    Except Halt SmallStep :=
  match s.program.system.target? top.location.routine label true 1 top.path.tail with
  | none => .error (.failed (.noTarget top.location.text label))
  | some (levels, target) =>
    match top.outermost? (levels + 1) with
    | none => .error (.broken .undefined)
    | some j =>
      let t := (t.mapConditions (·.dropThrough target.id)).mapTop (·.pop (levels + 1))
      .ok (.one e top.comingFrom (t.editTop (Frame.editComeFrom j none)))

/-- Goes on with the next round of a loop. -/
def nextStep (s : Simulator) (t : Transition) (top : Frame) (e : Expr) (label : String) :
    Except Halt SmallStep :=
  match s.program.system.target? top.location.routine label false 1 top.path.tail with
  | none => .error (.failed (.noTarget top.location.text label))
  | some (levels, target) =>
    match top.outermost? levels with
    | none => .error (.broken .undefined)
    | some _ =>
      let j : Int := match target with
        | .forLoop _ _ _ _ _ body => body.length + 1
        | _ => target.children.length - 1
      let t := t.mapConditions (·.dropAbove target.id)
      .ok (.one e top.comingFrom (t.mapTop fun f => { f.pop levels with comingFrom := j }))

/-- The delay of a notification: none, a delay or the zero unit, or amount and unit. -/
def delayOf (top : Frame) (e : Expr) (delays : List Expr) : Except Halt (Option Delay) :=
  let place := top.location.text
  match delays with
  | [] => .ok none
  | [d] =>
    match top.value 0 1 with
    | .unknown => .error (.failed (.imprecise place ("notification delay " ++ d.text)))
    | .known (.literal (.delay x)) => .ok (some x)
    | .known (.literal (.unit u)) =>
      if u = .zero then .ok (some .delta) else .error (.failed (.singleUnit place))
    | v => .error (.failed (.badDelay place v.text))
  | _ =>
    match (top.value 0 1).asInt?, (top.value 0 2).asUnit? with
    | some n, some u =>
      match Delay.ofAmount n u with
      | .ok d => .ok (some d)
      | .error reason => .error (.failed (.badTime place reason))
    | _, _ => .error (.failed (.imprecise place ("notification delay " ++ e.text)))

def notifyStep (s : Simulator) (t : Transition) (top : Frame) (e target : Expr)
    (delays : List Expr) : Step SmallStep :=
  let i := top.comingFrom
  if i < delays.length then pure (.one e i (t.enter (i + 1)))
  else match (top.value 0 0).asEvent? with
    | none => .fail (.imprecise top.location.text ("notified event " ++ target.text))
    | some ev => do
      let delay ← Run.of (delayOf top e delays)
      let t ← s.notify t ev delay
      pure (.one e i (t.finish s.program.system .unknown))

/-- What a single argument of a wait stands for. -/
def waitFor? : Payload → Option Blocker
  | .events _ l => some (.events l)
  | .literal (.event e) => some (.events (.of [e] true none))
  | .literal (.delay d) => some (.delay d)
  | .literal (.unit u) => if u = .zero then some (.delay .delta) else none
  | _ => none

/-- A wait for events with a timeout. -/
def waitWithin? (timeout : Delay) : Payload → Option Blocker
  | .events _ l => some (.events (l.withTimeout (some timeout)))
  | .literal (.event e) => some (.events (.of [e] true (some timeout)))
  | _ => none

/-- Amount and unit as a delay. -/
def amountOf? : Payload → Payload → Option Delay
  | .literal (.int n), .literal (.unit u) => (Delay.ofAmount n u).toOption
  | _, _ => none

/-- What the arguments of a wait stand for: the sensitivity of the process, an event, a list or a
delay, a delay by amount and unit, or one of these delays as a timeout and events. -/
def blocker? (p : Process) : List Payload → Option Blocker
  | [] => some (.events (.of p.sensitivity true none))
  | [x] => waitFor? x
  | [x, y] =>
    match amountOf? x y, x with
    | some d, _ => some (.delay d)
    | none, .literal (.delay d) => waitWithin? d y
    | none, _ => none
  | [x, y, z] => (amountOf? x y).bind fun d => waitWithin? d z
  | _ => none

/-- The payloads of the first `n` arguments, or the number of the first one that is unknown. -/
def argumentPayloads (top : Frame) : Nat → Nat → Except Nat (List Payload)
  | _, 0 => .ok []
  | i, n + 1 =>
    match top.value 0 i with
    | .unknown => .error i
    | .known p => (argumentPayloads top (i + 1) n).map (p :: ·)

def waitStep (s : Simulator) (t : Transition) (top : Frame) (e : Expr) (arity : Nat) :
    Except Halt SmallStep :=
  let place := top.location.text
  match t.proc with
  | none => .error (.failed (.noProcess place))
  | some p =>
    match argumentPayloads top 0 arity with
    | .error i => .error (.failed (.imprecise place ("argument " ++ toString i ++ " of " ++ e.text)))
    | .ok args =>
      match blocker? p args with
      | none => .error (.failed (.badWait place (args.map Payload.text)))
      | some b =>
        let t := (t.finish s.program.system .unknown).mapRunning (·.block (some b))
        .ok { SmallStep.one e top.comingFrom t with ends := true }

/-- Writes the parameters of the frame that was just pushed; a parameter without an argument gets
no value. -/
def bindParams (s : Simulator) (stack : List Routine) :
    Transition → List Decl → List Value → Transition
  | t, [], _ => t
  | t, d :: ds, [] => s.bindParams stack (t.addWritten (.ofFrame stack (.decl d))) ds []
  | t, d :: ds, x :: xs =>
    let v := Variable.ofFrame stack (.decl d)
    s.bindParams stack (s.store (t.addWritten v) v x) ds xs

/-- Calls: the arguments, the call itself, and the result when the routine has returned. -/
def callStep (s : Simulator) (t : Transition) (ps : ProcessState) (top : Frame) (e : Expr)
    (r : Routine) (arity : Nat) : Except Halt SmallStep :=
  let i := top.comingFrom
  let n : Int := arity
  if i < n - 1 then .ok (.one e i (t.enter (i + 1)))
  else if n ≤ i then .ok (.one e i (t.finish s.program.system (top.value 0 n)))
  else
    let receiver := if s.program.system.isQualified top.location then top.value 1 0 else top.receiver
    match r with
    | .wait => s.waitStep t top e arity
    | .requestUpdate =>
      match receiver.asInstance? with
      | none => .error (.failed (.imprecise top.location.text ("receiver of " ++ e.text)))
      | some inst =>
        .ok (.one e i ((t.mapGlobal (·.requestUpdate inst)).finish s.program.system .unknown))
    | .member _ =>
      let args := (List.range arity).map fun (k : Nat) => top.value 0 k
      let t := (t.mapRunning (·.push (.start r receiver))).mapConditions (·.enterCall)
      .ok (.one e i (s.bindParams (r :: ps.routines) t r.params args))

/-- Expressions that evaluate all children from left to right. -/
def aggregateStep (s : Simulator) (t : Transition) (top : Frame) (e : Expr) :
    Except Halt SmallStep :=
  let i := top.comingFrom
  if i < e.children.length - 1 then .ok (.one e i (t.enter (i + 1)))
  else (s.aggregate t top e).map fun (v, t) => .one e i (t.finish s.program.system v)

/-- A step on an expression. -/
def exprStep (s : Simulator) (t : Transition) (ps : ProcessState) (top : Frame) (e : Expr) :
    Step SmallStep :=
  let sys := s.program.system
  let i := top.comingFrom
  match e with
  | .const _ l =>
    if sys.isUsed top.location && !l.hasText then .fault .undefined
    else pure (.one e i (t.finish sys (.lit l)))
  | .event _ name =>
    let v : Value := match top.receiver.asInstance?.bind (sys.event? · name) with
      | some ev => .lit (.event ev)
      | none => .unknown
    pure (.one e i (t.finish sys v))
  | .var _ d =>
    let (v, t) := s.readVariable t ps top d
    pure (.one e i (t.finish sys v))
  | .unary .. | .binary .. | .access .. | .bracket .. | .block .. | .empty _ =>
    .of (s.aggregateStep t top e)
  | .branch _ _ yes no => pure (s.branchStep t top e yes no)
  | .whileLoop _ _ _ body => pure (s.loopStep t top e body true)
  | .doLoop _ _ _ body => pure (s.loopStep t top e body false)
  | .forLoop _ _ _ _ _ body => pure (s.forStep t top e body)
  | .switch _ _ _ cases => pure (s.switchStep t top e cases)
  | .arm _ value body => pure (s.armStep t top e value body)
  | .exit _ label => .of (s.exitStep t top e label)
  | .next _ label => .of (s.nextStep t top e label)
  | .ret _ value =>
    if i = -1 && value.isSome then pure (.one e i (t.enter 0))
    else pure (s.returnFrom t e i (if value.isSome then top.value 0 0 else .unknown))
  | .notify _ target delays => s.notifyStep t top e target delays
  | .stop _ => pure (.one e i (s.stop (t.finish sys .unknown)))
  | .call _ r args => .of (s.callStep t ps top e r args.length)

/-- Tells the observer of every result of a step. -/
def observeResults (s : Simulator) (e : Option Expr) (comingFrom : Int) :
    List Transition → Step (List Transition)
  | [] => pure []
  | t :: ts => do
    let info ← s.setup.observer.evaluated s.program t e comingFrom
    let rest ← s.observeResults e comingFrom ts
    pure ({ t with info, scratch := { t.scratch with event := none } } :: rest)

/-- The step at the top of the running stack, before it is told to the observer. -/
def advance (s : Simulator) (t : Transition) : Step SmallStep :=
  match t.running?, t.top? with
  | some ps, some top =>
    match top.path with
    | [] => pure (s.bodyStep t top)
    | _ :: _ =>
      match s.program.at? top.location with
      | none => .fail (.noExpression top.location.text)
      | some e => do
        let scratch ← s.setup.observer.announce s.program t e
        s.exprStep { t with scratch } ps top e
  | _, _ => .fault .undefined

/-- One small step. It changes the state, and ends where an edit of the running code breaks. -/
def smallStep (s : Simulator) (t : Transition) : Step SmallStep :=
  if t.frozen then .fault .frozen
  else do
    let st ← s.advance t.resetAccesses
    let st ← Run.ofFault st.checked
    let results ← s.observeResults st.expr st.comingFrom st.results
    pure { st with results }

end Simulator

end DeltaSlice

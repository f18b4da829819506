import DeltaSlice.Analysis
import DeltaSlice.Yaml.Reader

/-!
Options: the choices for an analysis as they are written in a file. Events and fields are named with
their instance, system variables by their plain name.
-/

namespace DeltaSlice

structure Options where
  advanced : Bool
  threads : Int64
  stopMode : String
  maxStates : Int64
  onImprecise : String
  /-- All events if absent. -/
  trackEvents : Option (List String)
  trackVariables : Option (List String)
deriving DecidableEq

namespace Options

def default : Options := ⟨false, 0, "", 0, "", none, none⟩

/-- Takes over the value of a key. A null leaves a single value as it is. -/
def set? (o : Options) (key : String) (n : Yaml.Node) : Option Options :=
  match key with
  | "advanced" => if n.isNull then some o else n.bool?.map fun b => { o with advanced := b }
  | "threads" => if n.isNull then some o else n.whole?.map fun x => { o with threads := x }
  | "stop_mode" => if n.isNull then some o else n.text?.map fun s => { o with stopMode := s }
  | "max_states" => if n.isNull then some o else n.whole?.map fun x => { o with maxStates := x }
  | "on_precision_error" =>
    if n.isNull then some o else n.text?.map fun s => { o with onImprecise := s }
  | "track_events" =>
    if n.isNull then some o else n.texts?.map fun l => { o with trackEvents := some l }
  | "track_variables" =>
    if n.isNull then some o else n.texts?.map fun l => { o with trackVariables := some l }
  | _ => none

def hasRepetition : List String → Bool
  | [] => false
  | k :: ks => ks.contains k || hasRepetition ks

/-- The options of a document: a mapping of known keys, each at most once, or nothing at all. -/
def ofNode? (n : Yaml.Node) : Option Options :=
  match n with
  | .mapping entries =>
    if hasRepetition (entries.map (·.1)) then none
    else entries.foldlM (fun o (k, v) => o.set? k v) default
  | n => if n.isNull then some default else none

def ofText? (text : String) : Option Options := (Yaml.read? text).bind ofNode?

def stopMode? (o : Options) : Except Failure StopMode :=
  match o.stopMode with
  | "" | "immediate" => .ok .immediate
  | "delta" => .ok .delta
  | s => .error (.unknownStopMode s)

def policy? (o : Options) : Except Failure PrecisionPolicy :=
  match o.onImprecise with
  | "" | "skip" => .ok .skip
  | "abort" => .ok .abort
  | s => .error (.unknownPolicy s)

/-- An instance with its class, which it needs. -/
def classOf (sys : System) (d : InstanceDef) : Except Halt ClassDef :=
  match sys.classOf? d.inst with
  | some c => .ok c
  | none => .error (.broken .undefined)

def eventsOf (d : InstanceDef) (c : ClassDef) : List Event := c.events.map fun n => ⟨some d.inst, n⟩

def fieldsOf (d : InstanceDef) (c : ClassDef) : List Variable :=
  c.fields.map fun f => .ofOwner (.inst d.inst) f.decl

/-- The event of an instance by its text. -/
def findEvent (sys : System) (name : String) : List InstanceDef → Except Halt Event
  | [] => .error (.failed (.unknownEvent name))
  | d :: ds =>
    match classOf sys d with
    | .error h => .error h
    | .ok c =>
      match (eventsOf d c).find? fun e => e.text = name with
      | some e => .ok e
      | none => findEvent sys name ds

/-- The events of all instances. -/
def events (sys : System) : Except Halt (List Event) :=
  (sys.instances.mapM fun d => (classOf sys d).map (eventsOf d)).map List.flatten

/-- The fields of all instances, and the system variables. -/
def vars (sys : System) : Except Halt (List Variable) :=
  (sys.instances.mapM fun d => (classOf sys d).map (fieldsOf d)).map fun fs =>
    fs.flatten ++ sys.globals.map fun g => .ofOwner .system g.decl

def eventFilter (o : Options) (sys : System) : Except Halt (Event → Bool) :=
  match o.trackEvents with
  | none => .ok fun _ => true
  | some names => (names.mapM fun n => findEvent sys n sys.instances).map fun es e => es.contains e

def isGlobal : Variable → Bool
  | .global .. => true
  | _ => false

def variableFilter (o : Options) (sys : System) : Except Halt (Variable → Bool) :=
  match o.trackVariables with
  | none | some [] => .ok fun _ => false
  | some names => do
    let known := (← vars sys).map Variable.text
    match names.find? fun n => !known.contains n with
    | some n => .error (.failed (.unknownVariable n))
    | none => .ok fun v => isGlobal v && names.contains v.text

/-- The analysis of a system under the options. -/
def task (o : Options) (sys : System) : Except Halt Task := do
  let stopMode ← o.stopMode?.mapError Halt.failed
  let policy ← o.policy?.mapError Halt.failed
  let tracksEvent ← o.eventFilter sys
  let tracksVariable ← o.variableFilter sys
  return {
    system := sys
    setup := ⟨.pdg o.advanced, stopMode, tracksEvent, tracksVariable⟩
    bounds := ⟨o.threads.toInt, o.maxStates.toInt, policy⟩
    canceled := false }

/-- The events and variables of a system that its task follows. Without a choice of events there is
none to list. -/
def tracked (o : Options) (t : Task) : Except Halt (List Event × List Variable) := do
  let es ← events t.system
  let vs ← vars t.system
  return (if o.trackEvents.isSome then es.filter t.setup.tracksEvent else [],
    vs.filter t.setup.tracksVariable)

end Options

end DeltaSlice

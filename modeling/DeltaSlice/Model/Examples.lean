import DeltaSlice.Model.Numbering

/-!
Small example systems. All but the last have a single class `Top`, instantiated as `top`, whose
routines are run as threads.
-/

namespace DeltaSlice.Examples

def const (l : Literal) : Expr := .const 0 l
def number (n : Int64) : Expr := const (.int n)
def ref (d : Decl) : Expr := .var 0 d
def assign (d : Decl) (e : Expr) : Expr := .binary 0 .assign (ref d) e
def call (r : Routine) (args : List Expr) : Expr := .call 0 r args
def wait (args : List Expr) : Expr := call .wait args

/-- A notification in the next delta cycle. -/
def notifyDelta (e : Expr) : Expr := .notify 0 e [const (.unit .zero)]

def top : Instance := ⟨0, "top"⟩

/-- A field of `Top` by position. -/
def field (index : Nat) (name : String) : Decl := ⟨index, name, .field⟩

/-- A thread of `top`: the name of its routine, its body, its sensitivity, and whether it waits for
it first. -/
structure Thread where
  name : String
  body : List Expr
  sensitivity : List Event := []
  lazy : Bool := false

/-- The system of a class with the given fields, events and threads. -/
def single (fields : List Decl) (events : List String) (threads : List Thread) : System :=
  let routines := threads.zipIdx.map fun (t, i) => Routine.member ⟨i, "Top", t.name, [], false⟩
  System.numbered {
    classes := [⟨"Top", fields.map fun d => ⟨d, none⟩, events, routines⟩]
    instances := [⟨top, some 0⟩]
    globals := []
    processes := (threads.zip routines).map fun (t, r) =>
      ⟨t.name, some top, some r, .thread, t.sensitivity, t.lazy⟩
    bodies := threads.map (·.body) }

/-- `x = 1; y = x;` -/
def sequential : System :=
  let x := field 0 "x"
  let y := field 1 "y"
  single [x, y] [] [⟨"run", [assign x (number 1), assign y (ref x)], [], false⟩]

/-- `if (c) x = 1; y = x;` where `c` is unknown. -/
def branch : System :=
  let c := field 0 "c"
  let x := field 1 "x"
  let y := field 2 "y"
  single [c, x, y] []
    [⟨"run", [.branch 0 (ref c) [assign x (number 1)] [], assign y (ref x)], [], false⟩]

/-- One thread waits for an event and writes, the other one notifies the event. -/
def notification : System :=
  let x := field 0 "x"
  single [x] ["e"]
    [⟨"waiter", [wait [.event 0 "e"], assign x (number 1)], [], false⟩,
     ⟨"notifier", [notifyDelta (.event 0 "e")], [], false⟩]

/-- One thread notifies an event that is unknown unless `u` is tracked. -/
def unknownEvent : System :=
  let u := field 0 "u"
  let x := field 1 "x"
  single [u, x] []
    [⟨"run", [notifyDelta (ref u)], [], false⟩, ⟨"other", [assign x (number 1)], [], false⟩]

/-- A write is handed to a reader that starts with the event that follows it. -/
def handoff : System :=
  let g := field 0 "g"
  let y := field 1 "y"
  single [g, y] ["ev"]
    [⟨"writer", [assign g (number 1), notifyDelta (.event 0 "ev")], [], false⟩,
     ⟨"reader", [assign y (ref g)], [⟨some top, "ev"⟩], true⟩]

/-- A producer and a consumer connected by a channel whose value changes in the update phase. -/
def producerConsumer : System :=
  let val := field 0 "val"
  let newVal := field 1 "newVal"
  let v : Decl := ⟨2, "v", .param⟩
  let count := field 3 "count"
  let write := Routine.member ⟨0, "Chan", "write", [v], false⟩
  let read := Routine.member ⟨1, "Chan", "read", [], true⟩
  let update := Routine.member ⟨2, "Chan", "update", [], false⟩
  let producer := Routine.member ⟨3, "Top", "producer", [], false⟩
  let consumer := Routine.member ⟨4, "Top", "consumer", [], false⟩
  let channel : Instance := ⟨0, "chan"⟩
  let top : Instance := ⟨1, "top"⟩
  let onChannel := fun (r : Routine) args => Expr.access 0 (const (.inst channel)) (call r args)
  System.numbered {
    classes :=
      [⟨"Chan", [⟨val, none⟩, ⟨newVal, none⟩], ["changed"], [write, read, update]⟩,
       ⟨"Top", [⟨count, none⟩], [], [producer, consumer]⟩]
    instances := [⟨channel, some 0⟩, ⟨top, some 1⟩]
    globals := []
    processes :=
      [⟨"producer", some top, some producer, .thread, [], false⟩,
       ⟨"consumer", some top, some consumer, .thread, [], false⟩]
    bodies :=
      [[assign newVal (ref v), call .requestUpdate []],
       [.ret 0 (some (ref val))],
       [.branch 0 (.binary 0 .ne (ref val) (ref newVal))
         [assign val (ref newVal), notifyDelta (.event 0 "changed")] []],
       [onChannel write [number 1], wait [number 1, const (.unit .ns)],
        onChannel write [number 2]],
       [.whileLoop 0 "" (const (.bool true))
         [wait [const (.event ⟨some channel, "changed"⟩)], assign count (onChannel read [])]]] }

/-- The examples by name. -/
def all : List (String × System) :=
  [("producer-consumer", producerConsumer), ("sequential", sequential), ("branch", branch),
   ("notification", notification), ("unknown-event", unknownEvent), ("handoff", handoff)]

def find? (name : String) : Option System := all.lookup name

end DeltaSlice.Examples

import DeltaSlice.Location

/-!
Storage locations. A local variable belongs to the frame with a certain call stack, a global one to
an instance or to the system. Triggers are variables too: one for every point at which an instance
may resume, one for every event.
-/

namespace DeltaSlice

/-- What a frame holds under a name of its own. -/
inductive LocalName where
  | decl (d : Decl)
  /-- The receiver of the call. -/
  | receiver
  /-- The value that the call gives. -/
  | result
  /-- An argument without a matching parameter. -/
  | arg (i : Int)
deriving DecidableEq

def LocalName.text : LocalName → String
  | decl d => d.name
  | receiver => "this"
  | result => "return"
  | arg i => "arg" ++ toString i

/-- Whose variable a global one is. -/
inductive Owner where
  | system
  | inst (i : Instance)
  /-- Of an instance that is not known. -/
  | unknown
deriving DecidableEq

inductive Variable where
  /-- Named by the text and the depth of the call stack of its frame. -/
  | frame (scope : String) (depth : Nat) (name : LocalName)
  | global (owner : Owner) (decl : Decl)
  /-- Written whenever the owner may resume at a location stack. -/
  | block (owner : Instance) (scope : String) (depth : Nat)
  /-- Written by delayed notifications. -/
  | event (e : Event)
deriving DecidableEq

namespace Variable

/-- The variable of the frame whose call stack is `stack`, innermost routine first. -/
def ofFrame (stack : List Routine) (name : LocalName) : Variable :=
  frame ("/".intercalate (stack.reverse.map Routine.text)) stack.length name

/-- A global variable. System variables have no other owner. -/
def ofOwner (owner : Owner) (d : Decl) : Variable :=
  global (if d.storage = .system then .system else owner) d

/-- The trigger of an instance for the location stack at which it resumes. -/
def ofResumption (i : Instance) (stack : Stack) : Variable :=
  block i stack.text stack.length

def isLocal : Variable → Bool
  | frame .. => true
  | _ => false

/-- All but a global variable of an unknown owner. -/
def isQualified : Variable → Bool
  | global .unknown _ => false
  | _ => true

def text : Variable → String
  | frame scope _ name => scope ++ ":" ++ name.text
  | global .system d => d.name
  | global (.inst i) d => i.name ++ "." ++ d.name
  | global .unknown d => "?." ++ d.name
  | block i scope _ => "block(" ++ i.name ++ "@" ++ scope ++ ")"
  | event e => "event(" ++ e.text ++ ")"

def kind : Variable → String
  | frame .. => "local"
  | global .. => "global"
  | block .. => "block"
  | event _ => "event"

end Variable

end DeltaSlice

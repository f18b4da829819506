import DeltaSlice.Model.Entity

/-!
What a process waits for: a delay, a list of events, or nothing ever again.
-/

namespace DeltaSlice

/-- Events waited for: any of them if `choice` is set, else all of them. A timeout ends the wait
early. -/
structure EventList where
  events : List Event
  choice : Bool
  timeout : Option Delay
deriving DecidableEq

/-- Drops an element that is equal to the one before it. -/
def dropRepeated {α : Type} [DecidableEq α] : List α → List α
  | a :: b :: l => if a = b then dropRepeated (b :: l) else a :: dropRepeated (b :: l)
  | l => l

/-- Puts an item before the first one whose text is not smaller. -/
def insertByText {α : Type} (x : String × α) : List (String × α) → List (String × α)
  | [] => [x]
  | y :: l => if y.1 < x.1 then y :: insertByText x l else x :: y :: l

/-- Sorts by text; items with equal texts keep their order. -/
def sortByText {α : Type} (text : α → String) (l : List α) : List α :=
  ((l.map fun a => (text a, a)).foldr insertByText []).map (·.2)

namespace EventList

/-- The list of the given events, sorted by text and without repetition. -/
def of (events : List Event) (choice : Bool) (timeout : Option Delay) : EventList :=
  ⟨dropRepeated (sortByText Event.text events), choice, timeout⟩

def contains (l : EventList) (e : Event) : Bool := l.events.contains e

/-- The same wait for other events. -/
def withEvents (l : EventList) (events : List Event) : EventList :=
  of events l.choice l.timeout

def withTimeout (l : EventList) (timeout : Option Delay) : EventList :=
  { l with timeout }

/-- The list extended by more events. -/
def join (l : EventList) (choice : Bool) (events : List Event) : EventList :=
  of (l.events ++ events) choice l.timeout

def text (l : EventList) : String :=
  "\x7b" ++ (if l.choice then " | " else " & ").intercalate (l.events.map Event.text) ++ "\x7d"
    ++ match l.timeout with
      | some d => " timeout " ++ d.text
      | none => ""

end EventList

inductive Blocker where
  | terminated
  | delay (d : Delay)
  | events (l : EventList)
deriving DecidableEq

namespace Blocker

def text : Blocker → String
  | terminated => "terminated"
  | delay d => d.text
  | events l => l.text

/-- A process without a blocker is ready. -/
def key : Option Blocker → String
  | none => "ready"
  | some b => b.text

end Blocker

end DeltaSlice

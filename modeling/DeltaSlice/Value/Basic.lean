import DeltaSlice.Variable
import DeltaSlice.Wait

/-!
Abstract values: a value is known, with its payload, or unknown. The order of information has the
unknown value on top; `join` is the least upper bound.
-/

namespace DeltaSlice

/-- What a known value is: a constant, the target of an assignment, or an event list, which is told
from other lists by the number it got when it was built. -/
inductive Payload where
  | literal (l : Literal)
  | target (v : Variable)
  | events (serial : Nat) (l : EventList)
deriving DecidableEq

namespace Payload

def text : Payload → String
  | literal l => l.render
  | target v => v.text
  | events _ l => l.text

def kind : Payload → String
  | literal l => l.kind
  | target _ => "explore.Variable"
  | events .. => "*explore.EventBlocker"

end Payload

inductive Value where
  | unknown
  | known (p : Payload)
deriving DecidableEq

namespace Value

def lit (l : Literal) : Value := known (.literal l)
def bool (b : Bool) : Value := lit (.bool b)
def int (n : Int64) : Value := lit (.int n)

def isKnown : Value → Bool
  | unknown => false
  | known _ => true

def join (x y : Value) : Value := if x = y then x else unknown

/-- The join of all values; the join of nothing is unknown. -/
def joinAll : List Value → Value
  | [] => unknown
  | x :: xs => xs.foldl join x

def text : Value → String
  | unknown => "?"
  | known p => p.text

/-- The text that tells values of different kinds apart. -/
def key : Value → String
  | unknown => "?"
  | known p => p.kind ++ "(" ++ p.text ++ ")"

/-- Whether the value has a key; a time unit without a name has none. -/
def hasKey : Value → Bool
  | known (.literal l) => l.hasText
  | _ => true

def asBool? : Value → Option Bool
  | known (.literal (.bool b)) => some b
  | _ => none

def asInt? : Value → Option Int64
  | known (.literal (.int n)) => some n
  | _ => none

def asInstance? : Value → Option Instance
  | known (.literal (.inst i)) => some i
  | _ => none

def asEvent? : Value → Option Event
  | known (.literal (.event e)) => some e
  | _ => none

def asUnit? : Value → Option TimeUnit
  | known (.literal (.unit u)) => some u
  | _ => none

/-- The value as a condition: a boolean, or a number that is not zero. -/
def truth? (x : Value) : Option Bool :=
  match x with
  | known (.literal (.bool b)) => some b
  | known (.literal (.int n)) => some (n ≠ 0)
  | _ => none

theorem join_self (x : Value) : x.join x = x := by simp [join]

theorem join_comm (x y : Value) : x.join y = y.join x := by
  unfold join
  by_cases h : x = y
  · simp [h]
  · simp [h, Ne.symm h]

end Value

end DeltaSlice

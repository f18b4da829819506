/-!
Simulated time: units, amounts and delays. A delay is the next delta cycle or a number of
femtoseconds, computed in 64-bit words.
-/

namespace DeltaSlice

/-- A time unit by its code; only the codes of the seven named units scale an amount. -/
structure TimeUnit where
  code : Int64
deriving DecidableEq

namespace TimeUnit

def zero : TimeUnit := ⟨0⟩
def fs : TimeUnit := ⟨1⟩
def ps : TimeUnit := ⟨2⟩
def ns : TimeUnit := ⟨3⟩
def us : TimeUnit := ⟨4⟩
def ms : TimeUnit := ⟨5⟩
def sec : TimeUnit := ⟨6⟩

/-- The names of the units, by code. -/
def names : List String :=
  ["SC_ZERO_TIME", "SC_FS", "SC_PS", "SC_NS", "SC_US", "SC_MS", "SC_SEC"]

def ofName? (s : String) : Option TimeUnit :=
  (names.idxOf? s).map fun i => ⟨Int64.ofNat i⟩

/-- A code below zero names nothing and has no text of its own. -/
def hasText (u : TimeUnit) : Bool := 0 ≤ u.code

/-- The name of a unit. A code past the names is written as a number; for one before them the report
of the failed look-up stands in. -/
def text (u : TimeUnit) : String :=
  let code := toString u.code.toInt
  if u.hasText then (names[u.code.toInt.toNat]?).getD ("TimeUnit(" ++ code ++ ")")
  else "%!v(PANIC=String method: runtime error: index out of range [" ++ code ++ "])"

/-- Femtoseconds per unit; the zero unit and unnamed codes have none. -/
def femtoseconds? (u : TimeUnit) : Option Int64 :=
  match u.code.toInt with
  | 1 => some 1
  | 2 => some 1000
  | 3 => some 1000000
  | 4 => some 1000000000
  | 5 => some 1000000000000
  | 6 => some 1000000000000000
  | _ => none

end TimeUnit

inductive Delay where
  | delta
  | time (fs : Int64)
deriving DecidableEq

namespace Delay

def text : Delay → String
  | delta => "delta"
  | time fs => toString fs.toInt ++ "fs"

/-- The delay of `amount` units. Zero amounts and the zero unit are one delta cycle; negative
amounts and units without a length are refused with the text of the amount. -/
def ofAmount (amount : Int64) (u : TimeUnit) : Except String Delay :=
  if u = .zero || amount = 0 then .ok .delta
  else if amount < 0 then .error (refusal amount u)
  else match u.femtoseconds? with
    | some f => .ok (.time (amount * f))
    | none => .error (refusal amount u)
where
  refusal (amount : Int64) (u : TimeUnit) : String :=
    "invalid time " ++ toString amount.toInt ++ " " ++ u.text

/-- The earlier of two delays: a delta cycle precedes every time, and no delay comes last. -/
def earlier : Option Delay → Option Delay → Option Delay
  | none, b => b
  | a, none => a
  | some delta, some _ => some delta
  | some (time _), some delta => some delta
  | some (time a), some (time b) => if b < a then some (time b) else some (time a)

end Delay

end DeltaSlice

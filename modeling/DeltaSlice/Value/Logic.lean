import DeltaSlice.Value.Basic

/-!
Three-valued logic and the operators on abstract values. Unknown or ill-typed operands give an
unknown result, except where one operand of a conjunction or disjunction decides it.
-/

namespace DeltaSlice.Value

def isTrue (x : Value) : Bool := x.asBool? = some true

def isFalse (x : Value) : Bool := x.asBool? = some false

/-- False dominates, then unknown. -/
def and (x y : Value) : Value :=
  if x.isFalse || y.isFalse then bool false
  else if x.isTrue && y.isTrue then bool true
  else unknown

/-- True dominates, then unknown. -/
def or (x y : Value) : Value :=
  if x.isTrue || y.isTrue then bool true
  else if x.isFalse && y.isFalse then bool false
  else unknown

def not (x : Value) : Value :=
  match x.asBool? with
  | some b => bool !b
  | none => unknown

/-- The value is true or unknown. -/
def possibly (x : Value) : Bool := !x.isKnown || x.isTrue

/-- The value is known to be true. -/
def definitely (x : Value) : Bool := x.isTrue

/-- Arithmetic in 64-bit words. Division goes toward zero, and there is none by zero. -/
def applyInt (op : BinaryOp) (a b : Int64) : Value :=
  match op with
  | .add => int (a + b)
  | .sub => int (a - b)
  | .mul => int (a * b)
  | .div => if b = 0 then unknown else int (a / b)
  | .mod => if b = 0 then unknown else int (a % b)
  | .lt => bool (a < b)
  | .le => bool (a ≤ b)
  | .gt => bool (b < a)
  | .ge => bool (b ≤ a)
  | _ => unknown

def apply (op : BinaryOp) (x y : Value) : Value :=
  match op with
  | .and => x.and y
  | .or => x.or y
  | .eq => if x.isKnown && y.isKnown then bool (x = y) else unknown
  | .ne => if x.isKnown && y.isKnown then bool (x ≠ y) else unknown
  | _ =>
    match x, y with
    | known (.literal (.int a)), known (.literal (.int b)) => applyInt op a b
    | known (.literal (.text a)), known (.literal (.text b)) =>
      if op = .add then lit (.text (a ++ b)) else unknown
    | _, _ => unknown

def applyUnary (op : UnaryOp) (x : Value) : Value :=
  match op with
  | .not => x.not
  | .neg =>
    match x.asInt? with
    | some n => int (-n)
    | none => unknown
  | .other _ => unknown

end DeltaSlice.Value

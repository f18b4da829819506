import DeltaSlice.Location
import DeltaSlice.State.Store

/-!
Structured evaluation: what code built from expressions, blocks, branches, loops and calls does, told
without index paths and without results kept on levels and stacks. Constants are numbers and truth
values. Expressions are evaluated from left to right, both operands of `&&` and `||` included. Exits
and repetitions mean the innermost loop that fits, and a repetition in a `for` goes on with its post
expression. Conditions have to be determined.
-/

namespace DeltaSlice

namespace Structured

/-- How a statement is left. -/
inductive Outcome where
  | normal
  | exit (label : String)
  | next (label : String)
  | ret (value : Value)

namespace Outcome

/-- What the outcome of its body is for a loop: nothing if the loop goes on, else how it is left. -/
def ofLoop (own : String) : Outcome → Option Outcome
  | normal => none
  | exit label => some (if label = "" || label = own then normal else exit label)
  | next label => if label = "" || label = own then none else some (next label)
  | ret v => some (ret v)

/-- The value of a call whose body is left like this. -/
def value? : Outcome → Option Value
  | normal => some .unknown
  | ret v => some v
  | exit _ | next _ => none

end Outcome

/-- Values of global variables and of the variables of the running call. -/
structure Memory where
  globals : Store
  locals : Table Decl Value

namespace Memory

/-- The value of a variable, seen from an instance. A global one without a value is unknown. -/
def get? (m : Memory) (this : Instance) (d : Decl) : Option Value :=
  if d.isGlobal then some ((m.globals.get? (.ofOwner (.inst this) d)).getD .unknown)
  else m.locals.get? d

def set (m : Memory) (this : Instance) (d : Decl) (v : Value) : Memory :=
  if d.isGlobal then { m with globals := m.globals.insert (.ofOwner (.inst this) d) v }
  else { m with locals := m.locals.insert d v }

/-- Gives parameters their arguments, as far as there are any. -/
def bind (t : Table Decl Value) : List Decl → List Value → Table Decl Value
  | d :: ds, v :: vs => bind (t.insert d v) ds vs
  | _, _ => t

/-- The memory of a call at its start. -/
def call (m : Memory) (r : Routine) (args : List Value) : Memory :=
  ⟨m.globals, bind .empty r.params args⟩

/-- The memory of the caller when a call has returned. -/
def back (m called : Memory) : Memory := ⟨called.globals, m.locals⟩

end Memory

/-- A piece of code with what becomes of it. -/
inductive Task where
  | term (e : Expr) (v : Value)
  | terms (es : List Expr) (vs : List Value)
  | stmt (e : Expr) (o : Outcome)
  | stmts (es : List Expr) (o : Outcome)
  /-- Once through the body of a loop and what follows it. -/
  | pass (label : String) (body posts : List Expr) (o : Option Outcome)
  /-- A loop from the test of its condition on. -/
  | rounds (label : String) (cond : Expr) (body posts : List Expr) (o : Outcome)

/-- `Runs sys this task m m'`: the code of `this` runs as the task says, and takes `m` to `m'`. -/
inductive Runs (sys : System) (this : Instance) : Task → Memory → Memory → Prop where
  | int {id n m} : Runs sys this (.term (.const id (.int n)) (.int n)) m m
  | bool {id b m} : Runs sys this (.term (.const id (.bool b)) (.bool b)) m m
  | var {id d v m} (value : m.get? this d = some v) : Runs sys this (.term (.var id d) v) m m
  | unary {id op x v m m'} (operand : Runs sys this (.term x v) m m') :
      Runs sys this (.term (.unary id op x) (.applyUnary op v)) m m'
  | bracket {id x v m m'} (inner : Runs sys this (.term x v) m m') :
      Runs sys this (.term (.bracket id x) v) m m'
  | binary {id op x y v w m m' m''} (operator : op ≠ .assign)
      (left : Runs sys this (.term x v) m m') (right : Runs sys this (.term y w) m' m'') :
      Runs sys this (.term (.binary id op x y) (.apply op v w)) m m''
  | assign {id i d y v m m'} (value : Runs sys this (.term y v) m m') :
      Runs sys this (.term (.binary id .assign (.var i d) y) v) m (m'.set this d v)
  | call {id r args vs o v m m' m''} (arguments : Runs sys this (.terms args vs) m m')
      (body : Runs sys this (.stmts (sys.body (.member r)) o) (m'.call (.member r) vs) m'')
      (result : o.value? = some v) :
      Runs sys this (.term (.call id (.member r) args) v) m (m'.back m'')
  | noTerms {m} : Runs sys this (.terms [] []) m m
  | moreTerms {e es v vs m m' m''} (first : Runs sys this (.term e v) m m')
      (others : Runs sys this (.terms es vs) m' m'') :
      Runs sys this (.terms (e :: es) (v :: vs)) m m''
  | expression {e v m m'} (value : Runs sys this (.term e v) m m') :
      Runs sys this (.stmt e .normal) m m'
  | block {id es o m m'} (list : Runs sys this (.stmts es o) m m') :
      Runs sys this (.stmt (.block id es) o) m m'
  | branch {id c yes no b v o m m' m''} (condition : Runs sys this (.term c v) m m')
      (determined : v.truth? = some b)
      (taken : Runs sys this (.stmts (if b then yes else no) o) m' m'') :
      Runs sys this (.stmt (.branch id c yes no) o) m m''
  | whileLoop {id label c body o m m'} (loop : Runs sys this (.rounds label c body [] o) m m') :
      Runs sys this (.stmt (.whileLoop id label c body) o) m m'
  | doLoop {id label c body o m m' m''} (first : Runs sys this (.pass label body [] none) m m')
      (loop : Runs sys this (.rounds label c body [] o) m' m'') :
      Runs sys this (.stmt (.doLoop id label c body) o) m m''
  | doOnce {id label c body o m m'} (first : Runs sys this (.pass label body [] (some o)) m m') :
      Runs sys this (.stmt (.doLoop id label c body) o) m m'
  | forLoop {id label init c post body v o m m' m''} (start : Runs sys this (.term init v) m m')
      (loop : Runs sys this (.rounds label c body [post] o) m' m'') :
      Runs sys this (.stmt (.forLoop id label init c post body) o) m m''
  | exit {id label m} : Runs sys this (.stmt (.exit id label) (.exit label)) m m
  | next {id label m} : Runs sys this (.stmt (.next id label) (.next label)) m m
  | ret {id m} : Runs sys this (.stmt (.ret id none) (.ret .unknown)) m m
  | retValue {id e v m m'} (value : Runs sys this (.term e v) m m') :
      Runs sys this (.stmt (.ret id (some e)) (.ret v)) m m'
  | noStmts {m} : Runs sys this (.stmts [] .normal) m m
  | moreStmts {e es o m m' m''} (first : Runs sys this (.stmt e .normal) m m')
      (others : Runs sys this (.stmts es o) m' m'') : Runs sys this (.stmts (e :: es) o) m m''
  | leave {e es o m m'} (first : Runs sys this (.stmt e o) m m') (left : o ≠ .normal) :
      Runs sys this (.stmts (e :: es) o) m m'
  | passed {label body posts o vs m m' m''} (inner : Runs sys this (.stmts body o) m m')
      (more : o.ofLoop label = none) (rest : Runs sys this (.terms posts vs) m' m'') :
      Runs sys this (.pass label body posts none) m m''
  | broken {label body posts o o' m m'} (inner : Runs sys this (.stmts body o) m m')
      (left : o.ofLoop label = some o') : Runs sys this (.pass label body posts (some o')) m m'
  | done {label c body posts v m m'} (condition : Runs sys this (.term c v) m m')
      (fails : v.truth? = some false) : Runs sys this (.rounds label c body posts .normal) m m'
  | again {label c body posts v o m m' m'' m'''} (condition : Runs sys this (.term c v) m m')
      (holds : v.truth? = some true) (round : Runs sys this (.pass label body posts none) m' m'')
      (loop : Runs sys this (.rounds label c body posts o) m'' m''') :
      Runs sys this (.rounds label c body posts o) m m'''
  | last {label c body posts v o m m' m''} (condition : Runs sys this (.term c v) m m')
      (holds : v.truth? = some true) (round : Runs sys this (.pass label body posts (some o)) m' m'') :
      Runs sys this (.rounds label c body posts o) m m''

end Structured

end DeltaSlice

import DeltaSlice.Failure

/-!
Runs: computations that may end early and that leave a record of what they reported on the way.
The record is kept also when the run ends early. `result` forgets it and commutes with every
combination, so statements about results need not mention records.
-/

namespace DeltaSlice

structure Run (κ α : Type) where
  reports : List κ
  result : Except Halt α

namespace Run

variable {κ α β : Type}

protected def pure (a : α) : Run κ α := ⟨[], .ok a⟩

protected def bind (x : Run κ α) (f : α → Run κ β) : Run κ β :=
  match x.result with
  | .ok a =>
    let y := f a
    ⟨x.reports ++ y.reports, y.result⟩
  | .error h => ⟨x.reports, .error h⟩

instance : Monad (Run κ) where
  pure := Run.pure
  bind := Run.bind

def report (r : κ) : Run κ Unit := ⟨[r], .ok ()⟩

def halt (h : Halt) : Run κ α := ⟨[], .error h⟩

def fail (f : Failure) : Run κ α := halt (.failed f)

def fault (f : Fault) : Run κ α := halt (.broken f)

/-- A part without a report of its own. -/
def of (x : Except Halt α) : Run κ α := ⟨[], x⟩

/-- A part that can only break. -/
def ofFault (x : Except Fault α) : Run κ α := ⟨[], x.mapError .broken⟩

@[simp] theorem result_pure (a : α) : (pure a : Run κ α).result = .ok a := rfl

@[simp] theorem result_bind (x : Run κ α) (f : α → Run κ β) :
    (x >>= f).result = x.result >>= fun a => (f a).result := by
  obtain ⟨r, x⟩ := x
  cases x <;> rfl

@[simp] theorem result_of (x : Except Halt α) : (of x : Run κ α).result = x := rfl

@[simp] theorem result_report (r : κ) : (report r).result = .ok () := rfl

end Run

end DeltaSlice

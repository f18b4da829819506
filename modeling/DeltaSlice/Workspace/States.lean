import DeltaSlice.State.Edit
import DeltaSlice.Workspace.Shelf

/-!
States under construction. A state is put together from parts on the shelves and goes on sharing them.
-/

namespace DeltaSlice

/-- The numbers of the parts of a state. -/
structure StateParts where
  global : Nat
  procs : List Nat
  update : Option Nat

structure StateShelf where
  procs : Shelf ProcessState
  globals : Shelf GlobalState
  states : Table String StateParts

namespace StateShelf

def empty : StateShelf := ⟨.empty, .empty, .empty⟩

/-- Edits a process; also gives its key. -/
def editProc? {β : Type} (s : StateShelf) (name : String) (e : Edit ProcessState β) :
    Option (Except Fault (β × String) × StateShelf) :=
  (s.procs.edit? name (Guarded.keyed ProcessState.key? e)).map fun (r, procs) => (r, { s with procs })

def freezeProc? (s : StateShelf) (name : String) : Option (Except Fault String × StateShelf) :=
  (s.procs.freeze? ProcessState.key? name).map fun (r, procs) => (r, { s with procs })

def copyProc? (s : StateShelf) (name as : String) : Option (Except Fault String × StateShelf) :=
  (s.procs.copy? ProcessState.key? name as).map fun (r, procs) => (r, { s with procs })

/-- Edits a global part; also gives its key. -/
def editGlobal? {β : Type} (s : StateShelf) (name : String) (e : Edit GlobalState β) :
    Option (Except Fault (β × String) × StateShelf) :=
  (s.globals.edit? name (Guarded.keyed GlobalState.key? e)).map fun (r, globals) =>
    (r, { s with globals })

def freezeGlobal? (s : StateShelf) (name : String) : Option (Except Fault String × StateShelf) :=
  (s.globals.freeze? GlobalState.key? name).map fun (r, globals) => (r, { s with globals })

def copyGlobal? (s : StateShelf) (name as : String) : Option (Except Fault String × StateShelf) :=
  (s.globals.copy? GlobalState.key? name as).map fun (r, globals) => (r, { s with globals })

/-- A state of named parts. -/
def assemble? (s : StateShelf) (name global : String) (procs : List String)
    (update : Option String) : Option StateShelf := do
  let parts : StateParts :=
    ⟨← s.globals.number? global, ← procs.mapM s.procs.number?, ← update.mapM s.procs.number?⟩
  return { s with states := s.states.insert name parts }

def procKey? (s : StateShelf) (n : Nat) : Except Fault String :=
  match s.procs.objects[n]? with
  | some g => g.value.key?
  | none => .error .undefined

def globalKey? (s : StateShelf) (n : Nat) : Except Fault String :=
  match s.globals.objects[n]? with
  | some g => g.value.key?
  | none => .error .undefined

/-- The state itself. -/
def state? (s : StateShelf) (p : StateParts) : Option State := do
  let proc := fun (n : Nat) => (s.procs.objects[n]?).map (·.value)
  let global ← s.globals.objects[p.global]?
  return ⟨global.value, ← p.procs.mapM proc, ← p.update.mapM proc, 0⟩

/-- The key of a state whose parts all have one. -/
def key? (s : StateShelf) (name : String) : Option (Except Fault String) := do
  let p ← s.states.get? name
  let st ← s.state? p
  let parts := do
    discard (s.globalKey? p.global)
    (p.procs ++ p.update.toList).forM fun n => discard (s.procKey? n)
  return parts.map fun _ => st.key

/-- Freezes parts in order, up to the first that has no key. -/
def freezeProcs (s : StateShelf) : List Nat → StateShelf
  | [] => s
  | n :: ns =>
    match s.procs.objects[n]? with
    | none => s
    | some g =>
      match g.freezeBy ProcessState.key? with
      | (.ok _, g) => freezeProcs { s with procs := s.procs.put n g } ns
      | (.error _, _) => s

/-- Freezes a state with all its parts. -/
def freeze? (s : StateShelf) (name : String) : Option StateShelf := do
  let p ← s.states.get? name
  let g ← s.globals.objects[p.global]?
  match g.freezeBy GlobalState.key? with
  | (.ok _, g) =>
    return { s with globals := s.globals.put p.global g }.freezeProcs (p.procs ++ p.update.toList)
  | (.error _, _) => return s

/-- Copies of parts, with their numbers. -/
def copyProcs (s : StateShelf) : List Nat → List Nat × StateShelf
  | [] => ([], s)
  | n :: ns =>
    match s.procs.objects[n]? with
    | none => copyProcs s ns
    | some g =>
      let (m, procs) := s.procs.push g.copy
      let (ms, s) := copyProcs { s with procs } ns
      (m :: ms, s)

/-- A copy of a state with copies of its parts, which may be changed. -/
def copy? (s : StateShelf) (name as : String) : Option StateShelf := do
  let p ← s.states.get? name
  let g ← s.globals.objects[p.global]?
  let (n, globals) := s.globals.push g.copy
  let (procs, s) := { s with globals }.copyProcs p.procs
  let (update, s) := s.copyProcs p.update.toList
  return { s with states := s.states.insert as ⟨n, procs, update.head?⟩ }

/-- Gives a name to a process of a state. -/
def nameProc? (s : StateShelf) (name : String) (i : Int) (as : String) :
    Option (Except Fault String × StateShelf) := do
  let p ← s.states.get? name
  match elementAt? p.procs i with
  | none => return (.error .undefined, s)
  | some n => return (s.procKey? n, { s with procs := s.procs.rename as n })

/-- Gives a name to the global part of a state. -/
def nameGlobal? (s : StateShelf) (name as : String) : Option (Except Fault String × StateShelf) := do
  let p ← s.states.get? name
  return (s.globalKey? p.global, { s with globals := s.globals.rename as p.global })

end StateShelf

end DeltaSlice

import DeltaSlice.Interleaving

/-!
Exploration: all states reachable from the initial one, up to a bound on the number of states that are
expanded, here one after the other and breadth first. Steps that are not precise enough are skipped and
listed, or end the exploration.
-/

namespace DeltaSlice

/-- What to do with a step that is not precise enough. -/
inductive PrecisionPolicy where
  | skip
  | abort
deriving DecidableEq

structure Bounds where
  /-- The number of workers; below two, states are expanded one by one. -/
  threads : Int
  /-- The number of states to expand; zero and less are no bound. -/
  maxStates : Int
  onImprecise : PrecisionPolicy

/-- What an exploration writes down. -/
inductive LogLine where
  | started
  | startedBy (workers : Int)
  | step (process : String)
  | endOfEvaluation
  | skipped (f : Failure)
  | expanded (transitions new : Nat)
  | done (states transitions skipped : Nat)

def LogLine.text : LogLine → String
  | started => "==== Starting exploration\n"
  | startedBy n => "==== Starting exploration (" ++ toString n ++ " workers)\n"
  | step p => "\tstep of " ++ p ++ "\n"
  | endOfEvaluation => "\tend of evaluation phase\n"
  | skipped f => "\tskipped step: " ++ f.text ++ "\n"
  | expanded n m =>
    "\tstate with " ++ toString n ++ " transitions, " ++ toString m ++ " new states\n"
  | done s t k =>
    "Exploration done: " ++ toString s ++ " states, " ++ toString t ++ " transitions, "
      ++ toString k ++ " skipped steps\n"

structure Exploration where
  record : Interleaving
  /-- The failures of the steps that were skipped. -/
  incomplete : List Failure
  /-- Whether the bound left a state unexpanded. -/
  truncated : Bool
  log : List LogLine

/-- An exploration under way: states to expand, how many were expanded, and the log, the last line
first. -/
structure Frontier where
  record : Interleaving
  incomplete : List Failure
  queue : List State
  expanded : Nat
  log : List LogLine

/-- Records the transitions that leave a state; also gives the states that are new. -/
def Interleaving.addAll (source : State) :
    Interleaving → List Transition → Except Fault (Interleaving × List State)
  | r, [] => .ok (r, [])
  | r, t :: ts =>
    match r.add source t with
    | .error f => .error f
    | .ok (_, new, r) =>
      (addAll source r ts).map fun (r, rest) => (r, if new then t.state :: rest else rest)

namespace Simulator

/-- The failure that ends the exploration, if any. -/
def fatal? (b : Bounds) (fs : List Failure) : Option Failure :=
  fs.find? fun f => !f.isImprecise || b.onImprecise = .abort

/-- What is logged for the steps from a state. -/
def stepLines (s : Simulator) (st : State) : List LogLine :=
  (if s.canEnd st then [.endOfEvaluation] else [])
    ++ (((s.ready st).toOption).getD []).map fun p => .step p.text

/-- Expands the first state of the queue, given the rest. -/
def expand (s : Simulator) (b : Bounds) (x : Frontier) (st : State) (rest : List State) :
    Step Frontier := do
  let found ← s.successors st
  match fatal? b found.failures with
  | some f => .fail f
  | none =>
    let (r, new) ← Run.ofFault (Interleaving.addAll st x.record found.transitions)
    let lines := s.stepLines st ++ found.failures.map LogLine.skipped
      ++ [.expanded found.transitions.length new.length]
    pure {
      record := r
      incomplete := x.incomplete ++ found.failures
      queue := rest ++ new
      expanded := x.expanded + 1
      log := lines.reverse ++ x.log }

/-- Whether another state may be expanded. -/
def mayExpand (b : Bounds) (x : Frontier) : Bool :=
  b.maxStates ≤ 0 || x.expanded < b.maxStates

def conclude (x : Frontier) (truncated : Bool) : Exploration :=
  let done := LogLine.done x.record.states.length (x.record.size - 1) x.incomplete.length
  ⟨x.record, x.incomplete, truncated, (done :: x.log).reverse⟩

/-- Expands states until none is left or the bound is reached. `reports` are those made so far, the
last one first. -/
def exploreFrom (s : Simulator) (b : Bounds) (canceled : Bool) :
    Nat → List Report → Frontier → Step Exploration
  | 0, reports, _ => ⟨reports.reverse, .error .exhausted⟩
  | fuel + 1, reports, x =>
    match x.queue with
    | [] => ⟨reports.reverse, .ok (conclude x false)⟩
    | st :: rest =>
      if canceled then ⟨reports.reverse, .error (.failed .canceled)⟩
      else if mayExpand b x then
        let step := s.expand b x st rest
        let reports := step.reports.reverse ++ reports
        match step.result with
        | .ok x => s.exploreFrom b canceled fuel reports x
        | .error h => ⟨reports.reverse, .error h⟩
      else ⟨reports.reverse, .ok (conclude x true)⟩

/-- Explores the states reachable from one, one after the other. -/
def exploreInOrder (s : Simulator) (b : Bounds) (canceled : Bool) (st : State) : Step Exploration :=
  s.exploreFrom b canceled s.fuel [] ⟨.start st, [], [st], 0, [.started]⟩

end Simulator

end DeltaSlice

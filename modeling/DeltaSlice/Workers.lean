import DeltaSlice.Exploration

/-!
Exploration by several workers with one record. A worker expands states that no other worker takes over
from it. Workers act independently of each other, and an action is one access to what they share: a
question whether another state may be expanded, the failures of one expansion, one transition that is
recorded, one state that is handed over. A run of workers is any sequence of such actions; here the
workers take turns.
-/

namespace DeltaSlice

/-- What a worker does next. -/
inductive Phase where
  /-- Take up a state, if it has one and the bound allows it. -/
  | claim
  | expand (st : State)
  /-- Record the transitions that are left of those `found` from a state; `new` are the states that were
  new so far. -/
  | record (st : State) (found : Nat) (left : List Transition) (new : List State)
  /-- Hand new states over to other workers. -/
  | share (new : List State)

structure Worker where
  phase : Phase
  /-- The states that were not handed over, the last one first. -/
  own : List State

/-- An exploration under way. -/
structure Pool where
  record : Interleaving
  incomplete : List Failure
  /-- How often it was asked whether another state may be expanded. -/
  claims : Nat
  truncated : Bool
  workers : List Worker
  /-- The last line first. -/
  log : List LogLine

namespace Pool

/-- One worker begins with the initial state. -/
def start (b : Bounds) (st : State) : Pool :=
  ⟨.start st, [], 0, false, [⟨.claim, [st]⟩], [.startedBy b.threads]⟩

/-- A worker goes on. -/
def goOn (p : Pool) (i : Nat) (phase : Phase) (own : List State) : Pool :=
  { p with workers := p.workers.set i ⟨phase, own⟩ }

/-- A worker ends; the states that it did not hand over are dropped. -/
def leave (p : Pool) (i : Nat) : Pool := { p with workers := p.workers.eraseIdx i }

/-- Another worker begins with a state. -/
def spawn (p : Pool) (st : State) : Pool := { p with workers := p.workers ++ [⟨.claim, [st]⟩] }

/-- A worker takes up a state, unless the bound is reached. Without a bound nothing is counted. -/
def claim (b : Bounds) (p : Pool) (i : Nat) (st : State) (own : List State) : Pool :=
  if b.maxStates ≤ 0 then p.goOn i (.expand st) own
  else
    let p := { p with claims := p.claims + 1 }
    if p.claims ≤ b.maxStates then p.goOn i (.expand st) own
    else { p with truncated := true }.leave i

/-- One action of the worker with a number. `free` says whether another worker may begin. -/
def act (s : Simulator) (b : Bounds) (canceled : Bool) (p : Pool) (i : Nat) (free : Bool) :
    Step Pool :=
  match p.workers[i]? with
  | none => pure p
  | some ⟨.claim, []⟩ => pure (p.leave i)
  | some ⟨.claim, st :: own⟩ => if canceled then .fail .canceled else pure (p.claim b i st own)
  | some ⟨.expand st, own⟩ => do
    let found ← s.successors st
    match Simulator.fatal? b found.failures with
    | some f => .fail f
    | none =>
      let lines := s.stepLines st ++ found.failures.map LogLine.skipped
      pure ({ p with
        incomplete := p.incomplete ++ found.failures
        log := lines.reverse ++ p.log }.goOn i
          (.record st found.transitions.length found.transitions []) own)
  | some ⟨.record st n (t :: ts) new, own⟩ => do
    let (_, isNew, r) ← Run.ofFault (p.record.add st t)
    pure ({ p with record := r }.goOn i
      (.record st n ts (if isNew then new ++ [t.state] else new)) own)
  | some ⟨.record _ n [] new, own⟩ =>
    pure ({ p with log := .expanded n new.length :: p.log }.goOn i (.share new) own)
  | some ⟨.share (st :: new), own⟩ =>
    pure (if free then (p.goOn i (.share new) own).spawn st else p.goOn i (.share new) (st :: own))
  | some ⟨.share [], own⟩ => pure (p.goOn i .claim own)

def conclude (p : Pool) : Exploration :=
  Simulator.conclude ⟨p.record, p.incomplete, [], 0, p.log⟩ p.truncated

/-- The workers act in turns until all have ended. Another one may begin as long as there are fewer than
the bound on their number. `reports` are those made so far, the last one first. -/
def run (s : Simulator) (b : Bounds) (canceled : Bool) :
    Nat → Nat → List Report → Pool → Step Exploration
  | 0, _, reports, _ => ⟨reports.reverse, .error .exhausted⟩
  | fuel + 1, turn, reports, p =>
    if p.workers.isEmpty then ⟨reports.reverse, .ok p.conclude⟩
    else
      let step := p.act s b canceled (turn % p.workers.length) (p.workers.length < b.threads)
      let reports := step.reports.reverse ++ reports
      match step.result with
      | .ok p => p.run s b canceled fuel (turn + 1) reports
      | .error h => ⟨reports.reverse, .error h⟩

end Pool

namespace Simulator

/-- Explores the states reachable from the initial one. -/
def explore (s : Simulator) (b : Bounds) (canceled : Bool) : Step Exploration :=
  match s.initial with
  | .error f => .fault f
  | .ok st =>
    if b.threads > 1 then (Pool.start b st).run s b canceled s.fuel 0 []
    else s.exploreInOrder b canceled st

end Simulator

end DeltaSlice

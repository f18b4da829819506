import DeltaSlice.Simulator.SmallStep

/-!
Runs of code: small steps are made until every branch has come to an end. Branches that reach the
same state are merged. Points that may be reached again are remembered with what was learned on the
way to them; a branch that comes back without anything new is dropped, so loops end.
-/

namespace DeltaSlice

/-- Transitions in order of arrival, at most one per state key. -/
structure Queue where
  entries : List (String × Transition)

namespace Queue

def empty : Queue := ⟨[]⟩

/-- Composes what was learned for the entry of a key. -/
def composeAt (key : String) (i : Info) :
    List (String × Transition) → Except Fault (List (String × Transition))
  | [] => .ok []
  | (k, t) :: rest =>
    if k = key then (t.info.compose i).map fun i => (k, { t with info := i }) :: rest
    else (composeAt key i rest).map ((k, t) :: ·)

/-- Adds a transition; if its state is there already, the informations are composed. -/
def add (q : Queue) (t : Transition) : Except Fault Queue :=
  let key := t.state.key
  if q.entries.any (·.1 = key) then (composeAt key t.info q.entries).map Queue.mk
  else .ok ⟨q.entries ++ [(key, t)]⟩

def transitions (q : Queue) : List Transition := q.entries.map (·.2)

end Queue

/-- The progress of a run of code: branches to go on with, branches that have ended, and what was
learned on the way to the points that may be reached again. -/
structure Worklist where
  pending : Queue
  ended : Queue
  seen : Table String Info

namespace Worklist

def start (t : Transition) : Except Fault Worklist :=
  (Queue.empty.add t).map fun q => ⟨q, .empty, .empty⟩

def addPending (w : Worklist) (t : Transition) : Except Fault Worklist :=
  (w.pending.add t).map fun q => { w with pending := q }

/-- A branch at a point that may be reached again: a copy of it goes on with all that was learned so
far, or nothing does if that is nothing new. -/
def revisit (w : Worklist) (t : Transition) : Except Fault Worklist :=
  let key := t.state.key
  match w.seen.get? key with
  | none => { w with seen := w.seen.insert key t.info }.addPending t.copy
  | some old =>
    match old.compose t.info with
    | .error f => .error f
    | .ok merged =>
      if merged.key = old.key then .ok w
      else { w with seen := w.seen.insert key merged }.addPending { t with info := merged }.copy

/-- Takes up one result of a small step. -/
def accept (ends repeats : Bool) (w : Worklist) (t : Transition) : Except Fault Worklist :=
  if ends then (w.ended.add t).map fun q => { w with ended := q }
  else if repeats then w.revisit t
  else w.addPending t

def acceptAll (ends repeats : Bool) : Worklist → List Transition → Except Fault Worklist
  | w, [] => .ok w
  | w, t :: ts =>
    match w.accept ends repeats t with
    | .ok w => acceptAll ends repeats w ts
    | .error f => .error f

end Worklist

namespace Simulator

/-- One small step on the first pending branch; `none` if no branch is pending. -/
def worklistStep? (s : Simulator) (w : Worklist) : Option (Step Worklist) :=
  match w.pending.entries with
  | [] => none
  | (_, t) :: rest =>
    some <|
      if s.aborted then .fail .aborted
      else do
        let st ← s.smallStep t
        Run.ofFault ({ w with pending := ⟨rest⟩ }.acceptAll st.ends st.repeats st.results)

/-- Steps until no branch is pending. `reports` are those made so far, the last one first. -/
def drain (s : Simulator) : Nat → List Report → Worklist → Step Worklist
  | 0, reports, _ => ⟨reports.reverse, .error .exhausted⟩
  | fuel + 1, reports, w =>
    match s.worklistStep? w with
    | none => ⟨reports.reverse, .ok w⟩
    | some step =>
      let reports := step.reports.reverse ++ reports
      match step.result with
      | .ok w => s.drain fuel reports w
      | .error h => ⟨reports.reverse, .error h⟩

/-- Runs code until every branch has ended; one transition per state that is reached. -/
def run (s : Simulator) (t : Transition) : Step (List Transition) := do
  let w ← Run.ofFault (Worklist.start t)
  let w ← s.drain s.fuel [] w
  pure w.ended.transitions

/-- Completes transitions. -/
def finalize (s : Simulator) : List Transition → Step (List Transition)
  | [] => pure []
  | t :: ts => do
    let info ← s.setup.observer.finalize t.info
    let rest ← s.finalize ts
    pure ({ t with info }.endStep :: rest)

end Simulator

end DeltaSlice

import DeltaSlice.Model.Examples
import DeltaSlice.Proofs.Keys.Reading
import DeltaSlice.Proofs.Pdg.Facts

/-!
Keys of statements. Where names hold neither a blank nor an opening bracket, the key of a statement
can be read back from the left: the name of the instance ends at the blank, the name of a routine at
the bracket, and its path at the bracket that closes it. So different points have different nodes in
every graph, and different resumptions different triggers.
-/

namespace DeltaSlice

/-- The named things that statements are made of. -/
structure Census where
  instances : Set Instance
  routines : Set Routine
  processes : Set Process

/-- Things of one kind have different texts, no text holds a blank or an opening bracket, and no
instance is named like a missing one. -/
structure Census.Clear (c : Census) : Prop where
  instances : Readable Instance.name [' ', '['] c.instances
  routines : Readable Routine.text [' ', '['] c.routines
  processes : Readable Process.text [' ', '['] c.processes
  named : ∀ i ∈ c.instances, i.name ≠ "-"

/-- All locations of the stack belong to routines of the census. -/
def Stack.Within (c : Census) (s : Stack) : Prop := ∀ l ∈ s, l.routine ∈ c.routines

namespace StatementId

def Within (c : Census) : StatementId → Prop
  | point origin stack => (∀ i, origin = some i → i ∈ c.instances) ∧ stack.Within c
  | wakeup p => p ∈ c.processes

/-- What stands for the instance in the key of a point. -/
def originName (origin : Option Instance) : String := (origin.map (·.name)).getD "-"

/-- The names that nodes of the statement may have. -/
def nodes (s : StatementId) : List NodeId := [.entry s.key, .statement s.key]

end StatementId

theorem Routine.text_nonempty (r : Routine) : r.text.toList ≠ [] := by
  cases r <;> simp [Routine.text]

theorem Stack.opening_mem (l : Location) (rest : Stack) : '[' ∈ (Stack.text (l :: rest)).toList := by
  rw [Stack.text_cons, Location.text]
  simp

namespace Census.Clear

variable {c : Census} (clear : c.Clear)

include clear

theorem stack_eq {s t : Stack} (hs : s.Within c) (ht : t.Within c) (h : s.text = t.text) : s = t := by
  have item : ∀ (l l' : Location) (u v : List Char), l.routine ∈ c.routines → l'.routine ∈ c.routines →
      True → True → l.text.toList ++ u = l'.text.toList ++ v → id l = id l' ∧ u = v :=
    fun l l' u v hl hl' _ _ heq => clear.routines.location (by simp) hl hl' heq
  -- No location starts with a blank, so a blank behind both texts marks their ends.
  have begins : ∀ l : Location, l.routine ∈ c.routines → ∃ x r, l.text.toList = x :: r ∧ x ≠ ' ' := by
    intro l hl
    obtain ⟨x, r, hx⟩ := List.exists_cons_of_ne_nil l.routine.text_nonempty
    refine ⟨x, _, by simp only [Location.text, String.toList_append, hx]; rfl, ?_⟩
    rintro rfl
    exact clear.routines.avoids _ hl ' ' (by simp [hx]) (by simp)
  have ended : ['/'].intercalate (s.reverse.map fun l => l.text.toList) ++ ' ' :: [] =
      ['/'].intercalate (t.reverse.map fun l => l.text.toList) ++ ' ' :: [] := by
    have same := congrArg String.toList h
    simp only [Stack.text, String.toList_intercalate, List.map_map] at same
    exact congrArg (· ++ [' ']) same
  obtain ⟨same, -⟩ := Reading.intercalate_eq (d := '/') (by decide) item begins
    (fun _ => trivial) (fun _ => trivial) (fun l hl => hs l (List.mem_reverse.1 hl))
    (fun l hl => ht l (List.mem_reverse.1 hl)) ended
  rwa [List.map_id, List.map_id, List.reverse_inj] at same

theorem origin_eq {o o' : Option Instance} (ho : ∀ i, o = some i → i ∈ c.instances)
    (ho' : ∀ i, o' = some i → i ∈ c.instances)
    (h : StatementId.originName o = StatementId.originName o') : o = o' := by
  cases o with
  | none =>
      cases o' with
      | none => rfl
      | some i => exact absurd h.symm (clear.named i (ho' i rfl))
  | some i =>
      cases o' with
      | none => exact absurd h (clear.named i (ho i rfl))
      | some j => exact congrArg some (clear.instances.inj (ho i rfl) (ho' j rfl) h)

theorem blank_notMem {o : Option Instance} (ho : ∀ i, o = some i → i ∈ c.instances) :
    ∀ x ∈ (StatementId.originName o).toList, x ≠ ' ' := by
  cases o with
  | none => simp [StatementId.originName]
  | some i =>
      rintro x hx rfl
      exact clear.instances.avoids i (ho i rfl) ' ' hx (by simp)

/-- The name of the instance ends at the first blank of a key. -/
theorem origin_split {o : Option Instance} (ho : ∀ i, o = some i → i ∈ c.instances) {name rest rest' : String}
    (blank : ∀ x ∈ name.toList, x ≠ ' ') (h : StatementId.originName o ++ " " ++ rest = name ++ " " ++ rest') :
    StatementId.originName o = name ∧ rest = rest' := by
  have chars := congrArg String.toList h
  simp only [String.toList_append, List.append_assoc] at chars
  obtain ⟨same, others⟩ := Reading.span_eq (clear.blank_notMem ho) blank (by simp) (by simp) chars
  exact ⟨String.toList_inj.1 same, String.toList_inj.1 (List.append_cancel_left others)⟩

/-- The text of a process is no stack: it is not empty, and it holds no bracket. -/
theorem process_ne_stack {p : Process} (hp : p ∈ c.processes) (s : Stack) : s.text ≠ p.text := by
  intro h
  cases s with
  | nil =>
      have : '.' ∈ p.text.toList := by simp [Process.text]
      rw [← h] at this
      exact absurd this (by decide)
  | cons l rest =>
      have opening := Stack.opening_mem l rest
      rw [h] at opening
      exact clear.processes.avoids p hp '[' opening (by simp)

theorem key_eq {a b : StatementId} (ha : a.Within c) (hb : b.Within c) (h : a.key = b.key) : a = b := by
  cases a with
  | point o s =>
      cases b with
      | point o' t =>
          obtain ⟨name, text⟩ := clear.origin_split ha.1 (clear.blank_notMem hb.1) h
          rw [clear.origin_eq ha.1 hb.1 name, clear.stack_eq ha.2 hb.2 text]
      | wakeup p =>
          have split : StatementId.originName o ++ " " ++ s.text = "process" ++ " " ++ p.text := h
          exact absurd (clear.origin_split ha.1 (by simp) split).2 (clear.process_ne_stack hb s)
  | wakeup p =>
      cases b with
      | point o t =>
          have split : StatementId.originName o ++ " " ++ t.text = "process" ++ " " ++ p.text := h.symm
          exact absurd (clear.origin_split hb.1 (by simp) split).2 (clear.process_ne_stack ha t)
      | wakeup q =>
          have chars := congrArg String.toList h
          simp only [StatementId.key, String.toList_append] at chars
          have same := String.toList_inj.1 (List.append_cancel_left chars)
          rw [clear.processes.inj ha hb same]

end Census.Clear

/-- Keys tell the statements of a clear census apart. So no graph has one node for two of them, and
resumptions at different stacks have different triggers. -/
theorem StatementId.key_unambiguous {c : Census} (clear : c.Clear) :
    (∀ a b : StatementId, a.Within c → b.Within c → a.key = b.key → a = b) ∧
      (∀ (g : Pdg) (n : Nat) (a b : StatementId), a.Within c → b.Within c →
        ∀ x ∈ a.nodes, ∀ y ∈ b.nodes, g.find? x = some n → g.find? y = some n → a = b ∧ x = y) ∧
      ∀ (i j : Instance) (s t : Stack), s.Within c → t.Within c →
        Variable.ofResumption i s = Variable.ofResumption j t → i = j ∧ s = t := by
  refine ⟨fun _ _ => clear.key_eq, fun g n a b ha hb x hx y hy found found' => ?_,
    fun i j s t hs ht same => ?_⟩
  · have same : x = y := by
      have first := Pdg.find?_idOf? found
      rw [Pdg.find?_idOf? found'] at first
      exact (Option.some.inj first).symm
    refine ⟨clear.key_eq ha hb ?_, same⟩
    subst same
    simp only [nodes, List.mem_cons, List.not_mem_nil, or_false] at hx hy
    rcases hx with rfl | rfl
    · simpa using hy
    · simpa using hy
  · obtain ⟨owner, text, -⟩ := Variable.block.inj same
    exact ⟨owner, clear.stack_eq hs ht text⟩

namespace Examples

def plainRoutine : Routine := .member ⟨0, "Top", "run", [], false⟩

/-- A routine with a name like the end of one location and the start of another. -/
def bracketed : Routine := .member ⟨1, "Top", "run0]/Top.run", [], false⟩

def bracketedCensus : Census where
  instances := {top}
  routines := {plainRoutine, bracketed}
  processes := {⟨0, "run", top, plainRoutine, [], false⟩}

theorem bracketedCensus_clear : bracketedCensus.Clear where
  instances := ⟨by simp [bracketedCensus], by simp [bracketedCensus, top]⟩
  routines := ⟨by
      rintro r (rfl | rfl) r' (rfl | rfl) <;> simp [plainRoutine, bracketed, Routine.text],
    by simp [bracketedCensus, plainRoutine, bracketed, Routine.text]⟩
  processes := ⟨by simp [bracketedCensus], by
    rintro p rfl c hc
    have : c = 't' ∨ c = 'o' ∨ c = 'p' ∨ c = '.' ∨ c = 'r' ∨ c = 'u' ∨ c = 'n' := by
      simpa [Process.text, top] using hc
    rcases this with rfl | rfl | rfl | rfl | rfl | rfl | rfl <;> simp⟩
  named := by simp [bracketedCensus, top]

/-- A call in the second statement, below the routine with the odd name. -/
def bracketedStack : Stack := [⟨plainRoutine, [0, 1]⟩, ⟨bracketed, [0]⟩]

theorem bracketedStack_within : bracketedStack.Within bracketedCensus := by
  simp [Stack.Within, bracketedStack, bracketedCensus]

end Examples

open Examples in
/-- The name of a routine may hold the separators of locations and indices. -/
theorem StatementId.key_unambiguous_bracketed : bracketedCensus.Clear ∧
    (StatementId.point (some top) bracketedStack).Within bracketedCensus ∧
    (StatementId.point (some top) bracketedStack).key ≠
      (StatementId.point (some top) bracketedStack.reverse).key ∧
    (StatementId.point none []).key ≠ (StatementId.wakeup ⟨0, "run", top, plainRoutine, [], false⟩).key ∧
    Variable.ofResumption top bracketedStack ≠ Variable.ofResumption top bracketedStack.reverse := by
  obtain ⟨keys, -, triggers⟩ := StatementId.key_unambiguous bracketedCensus_clear
  have within : ∀ s : Stack, s.Within bracketedCensus →
      (StatementId.point (some top) s).Within bracketedCensus :=
    fun s hs => ⟨fun i hi => (Option.some.inj hi).symm, hs⟩
  have reversed : Stack.Within bracketedCensus bracketedStack.reverse :=
    fun l hl => bracketedStack_within l (List.mem_reverse.1 hl)
  refine ⟨bracketedCensus_clear, within _ bracketedStack_within, fun h => ?_, fun h => ?_, fun h => ?_⟩
  · exact absurd (keys _ _ (within _ bracketedStack_within) (within _ reversed) h) (by decide)
  · exact absurd (keys (.point none []) (.wakeup _) ⟨by simp, by simp [Stack.Within]⟩ rfl h) (by decide)
  · exact absurd (triggers _ _ _ _ bracketedStack_within reversed h).2 (by decide)

end DeltaSlice

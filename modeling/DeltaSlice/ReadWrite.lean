import DeltaSlice.State.Store

/-!
Read and write conditions of a transition: for every variable the condition under which it is read
and written. Alternatives are joined by disjunction.
-/

namespace DeltaSlice

structure ReadWrite where
  read : Store
  written : Store

namespace ReadWrite

def empty : ReadWrite := ⟨.empty, .empty⟩

/-- A variable without an entry is never accessed. -/
def lookup (s : Store) (v : Variable) : Value := (s.get? v).getD (.bool false)

def readOf (i : ReadWrite) (v : Variable) : Value := lookup i.read v

def writtenOf (i : ReadWrite) (v : Variable) : Value := lookup i.written v

/-- Adds an alternative under which `v` is accessed. -/
def weaken (s : Store) (v : Variable) (c : Value) : Store := s.insert v ((lookup s v).or c)

def merge (s t : Store) : Store := t.entries.foldl (fun s e => weaken s e.1 e.2) s

def compose (a b : ReadWrite) : ReadWrite := ⟨merge a.read b.read, merge a.written b.written⟩

/-- The accessed variables, by text. -/
def vars (i : ReadWrite) : List Variable :=
  sortByText Variable.text
    (i.read.keys ++ i.written.keys.filter fun v => !i.read.contains v)

def key (i : ReadWrite) : String := i.read.key ++ " /" ++ i.written.key

end ReadWrite

end DeltaSlice

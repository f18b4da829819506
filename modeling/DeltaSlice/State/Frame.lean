import DeltaSlice.Value.Logic

/-!
Frames: one entry of an execution stack. A frame holds the location it has reached, the index of
the child from which evaluation comes back (`-1` on the way in), the receiver, and for every level
of the path the results of the children evaluated so far.
-/

namespace DeltaSlice

/-- The results of the children of one node; `none` where there is no result. -/
abbrev Level := List (Option Value)

/-- Sets the result at an index, filling the gap before it. -/
def Level.set (l : Level) (i : Nat) (r : Option Value) : Level :=
  List.set (l ++ List.replicate (i + 1 - l.length) none) i r

/-- Sets the result at an index; a negative one is no place for a result. -/
def Level.put (l : Level) (i : Int) (r : Option Value) : Level :=
  if i < 0 then l else l.set i.toNat r

structure Frame where
  location : Location
  comingFrom : Int
  /-- Innermost level first; the last one collects results of the body. -/
  levels : List Level
  receiver : Value
deriving DecidableEq

namespace Frame

def start (r : Routine) (receiver : Value) : Frame :=
  ⟨⟨r, []⟩, -1, [[]], receiver⟩

def path (f : Frame) : Path := f.location.path

/-- The index of the current expression in the one above it. -/
def index? (f : Frame) : Option Int := f.path.head?

/-- The result of child `i` of the expression `above` levels up, if there is one. -/
def slot? (f : Frame) (above : Int) (i : Int) : Option Value :=
  ((elementAt? f.levels above).bind (elementAt? · i)).join

/-- The result of a child; without a result it is unknown. -/
def value (f : Frame) (above : Int) (i : Int) : Value := (f.slot? above i).getD .unknown

/-- Descends into child `i`. -/
def enter (f : Frame) (i : Int) : Frame :=
  { f with location := f.location.child i, comingFrom := -1, levels := [] :: f.levels }

/-- Sets the result of child `i` of the current expression. -/
def put (f : Frame) (i : Int) (r : Option Value) : Frame :=
  match f.levels with
  | l :: ls => { f with levels := l.put i r :: ls }
  | [] => f

/-- The index of the outermost of the `n` levels that are popped next, if there are as many. -/
def outermost? (f : Frame) (n : Nat) : Option Int :=
  if f.levels.length < n then none
  else match n with
    | 0 => none
    | n + 1 => f.path[n]?

/-- Pops `n` levels. -/
def pop (f : Frame) (n : Nat) : Frame :=
  { f with location := ⟨f.location.routine, f.path.drop n⟩, levels := f.levels.drop n }

/-- Goes back to the expression above, leaving the result there if it is kept. -/
def leave (f : Frame) (v : Value) (keep : Bool) : Frame :=
  match f.path with
  | [] => f
  | i :: _ =>
    let g := { f.pop 1 with comingFrom := i }
    if keep then g.put i (some v) else g

def slotKey : Option Value → String
  | some v => v.key
  | none => "_"

def key (f : Frame) : String :=
  f.location.text ++ "@" ++ toString f.comingFrom ++ " this=" ++ f.receiver.key
    ++ String.join (f.levels.reverse.map fun l => " (" ++ ",".intercalate (l.map slotKey) ++ ")")

end Frame

end DeltaSlice

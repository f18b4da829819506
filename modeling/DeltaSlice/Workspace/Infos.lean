import DeltaSlice.Guarded
import DeltaSlice.Info
import DeltaSlice.State.Edit

/-!
Informations under construction: read and write conditions by number, and pairs that share them. A
composition changes its first operand, unless that is frozen.
-/

namespace DeltaSlice

inductive HeldInfo where
  | none
  | readWrite (n : Nat)
  | pair (x y : HeldInfo)

abbrev InfoShelf := List (Guarded ReadWrite)

namespace HeldInfo

/-- The information itself. -/
def info (s : InfoShelf) : HeldInfo → Info
  | none => .none
  | readWrite n => .readWrite (((s[n]?).map (·.value)).getD .empty)
  | pair x y => .pair (x.info s) (y.info s)

def isFrozen (s : InfoShelf) : HeldInfo → Bool
  | none => true
  | readWrite n => ((s[n]?).map (·.frozen)).getD true
  | pair x y => x.isFrozen s && y.isFrozen s

def hasKey (s : InfoShelf) : HeldInfo → Bool
  | none => true
  | readWrite n =>
    (s[n]?).all fun g => Store.hasKey g.value.read && Store.hasKey g.value.written
  | pair x y => x.hasKey s && y.hasKey s

def key? (s : InfoShelf) (h : HeldInfo) : Except Fault String :=
  if h.hasKey s then .ok (h.info s).key else .error .undefined

/-- Freezes the parts that have a key, up to the first that has none. -/
def freeze (s : InfoShelf) : HeldInfo → InfoShelf
  | none => s
  | readWrite n => if (readWrite n).hasKey s then s.modify n (·.freeze) else s
  | pair x y => if x.hasKey s then y.freeze (x.freeze s) else x.freeze s

/-- A copy that may be changed. -/
def copy (s : InfoShelf) : HeldInfo → HeldInfo × InfoShelf
  | none => (none, s)
  | readWrite n => (readWrite s.length, s ++ ((s[n]?).map (·.copy)).toList)
  | pair x y =>
    let (x, s) := x.copy s
    let (y, s) := y.copy s
    (pair x y, s)

/-- Composition of alternatives of the same form. -/
def compose (s : InfoShelf) : HeldInfo → HeldInfo → Except Fault HeldInfo × InfoShelf
  | none, _ => (.ok none, s)
  | readWrite n, readWrite m =>
    match s[n]?, s[m]? with
    | some g, some h =>
      let result := g.value.compose h.value
      if g.frozen then (.ok (readWrite s.length), s ++ [.fresh result])
      else (.ok (readWrite n), s.set n (g.takeOver result))
    | _, _ => (.error .undefined, s)
  | pair x y, pair z w =>
    match x.compose s z with
    | (.ok x, s) =>
      match y.compose s w with
      | (.ok y, s) => (.ok (pair x y), s)
      | e => e
    | e => e
  | _, _ => (.error .undefined, s)

end HeldInfo

end DeltaSlice

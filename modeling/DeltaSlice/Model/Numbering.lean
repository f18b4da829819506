import DeltaSlice.Model.System

/-!
Numbering: gives every node of a system a number of its own, in the order in which the nodes are
written.
-/

namespace DeltaSlice

/-- The next number. -/
def freshNumber : StateM Nat Nat := modifyGet fun n => (n, n + 1)

namespace Expr

mutual

def numbered : Expr → StateM Nat Expr
  | const _ v => return const (← freshNumber) v
  | var _ d => return var (← freshNumber) d
  | event _ n => return event (← freshNumber) n
  | unary _ op x => return unary (← freshNumber) op (← x.numbered)
  | binary _ op x y => return binary (← freshNumber) op (← x.numbered) (← y.numbered)
  | bracket _ x => return bracket (← freshNumber) (← x.numbered)
  | block _ l => return block (← freshNumber) (← allNumbered l)
  | branch _ c yes no =>
    return branch (← freshNumber) (← c.numbered) (← allNumbered yes) (← allNumbered no)
  | whileLoop _ l c body => return whileLoop (← freshNumber) l (← c.numbered) (← allNumbered body)
  | doLoop _ l c body => return doLoop (← freshNumber) l (← c.numbered) (← allNumbered body)
  | forLoop _ l i c p body =>
    return forLoop (← freshNumber) l (← i.numbered) (← c.numbered) (← p.numbered)
      (← allNumbered body)
  | switch _ l tag cases => return switch (← freshNumber) l (← tag.numbered) (← allNumbered cases)
  | arm _ none body => return arm (← freshNumber) none (← allNumbered body)
  | arm _ (some v) body => return arm (← freshNumber) (some (← v.numbered)) (← allNumbered body)
  | exit _ l => return exit (← freshNumber) l
  | next _ l => return next (← freshNumber) l
  | ret _ none => return ret (← freshNumber) none
  | ret _ (some v) => return ret (← freshNumber) (some (← v.numbered))
  | call _ r args => return call (← freshNumber) r (← allNumbered args)
  | access _ x m => return access (← freshNumber) (← x.numbered) (← m.numbered)
  | notify _ e ds => return notify (← freshNumber) (← e.numbered) (← allNumbered ds)
  | stop _ => return stop (← freshNumber)
  | empty _ => return empty (← freshNumber)

def allNumbered : List Expr → StateM Nat (List Expr)
  | [] => return []
  | e :: es => return (← e.numbered) :: (← allNumbered es)

end

end Expr

def bodiesNumbered : List (List Expr) → StateM Nat (List (List Expr))
  | [] => return []
  | b :: bs => return (← Expr.allNumbered b) :: (← bodiesNumbered bs)

/-- The same system with nodes numbered from zero. -/
def System.numbered (sys : System) : System :=
  { sys with bodies := ((bodiesNumbered sys.bodies).run 0).1 }

end DeltaSlice

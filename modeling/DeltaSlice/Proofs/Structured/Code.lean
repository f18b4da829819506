import DeltaSlice.Proofs.Keys.Values
import DeltaSlice.Proofs.Model.Parents

/-!
What code of this kind is made of, and what it speaks of: the call stacks that come up while a routine
runs, the nodes of the routines on them, and the variables that these nodes name.
-/

namespace DeltaSlice

namespace Expr

/-- One of the constructs of structured evaluation. Constants are numbers and truth values, and only
members of a class are called. -/
def isStructured : Expr → Bool
  | const _ (.int _) | const _ (.bool _) | call _ (.member _) _ => true
  | var .. | unary .. | binary .. | bracket .. | block .. | branch .. | whileLoop .. | doLoop ..
  | forLoop .. | exit .. | next .. | ret .. => true
  | _ => false

mutual

/-- Whether a test holds for a node and for every node below it. -/
def everywhere (p : Expr → Bool) (e : Expr) : Bool :=
  p e && match e with
  | unary _ _ x | bracket _ x => x.everywhere p
  | binary _ _ x y | access _ x y => x.everywhere p && y.everywhere p
  | block _ l => allEverywhere p l
  | branch _ c yes no => c.everywhere p && (allEverywhere p yes && allEverywhere p no)
  | whileLoop _ _ c body | doLoop _ _ c body => c.everywhere p && allEverywhere p body
  | forLoop _ _ init cond post body =>
    init.everywhere p && (cond.everywhere p && (allEverywhere p body && post.everywhere p))
  | switch _ _ tag cases => tag.everywhere p && allEverywhere p cases
  | arm _ none body => allEverywhere p body
  | arm _ (some v) body => v.everywhere p && allEverywhere p body
  | ret _ (some v) => v.everywhere p
  | call _ _ args => allEverywhere p args
  | notify _ target delays => target.everywhere p && allEverywhere p delays
  | const .. | var .. | event .. | exit .. | next .. | ret _ none | stop _ | empty _ => true

def allEverywhere (p : Expr → Bool) : List Expr → Bool
  | [] => true
  | e :: es => e.everywhere p && allEverywhere p es

end

variable {p : Expr → Bool}

theorem allEverywhere_iff {l : List Expr} :
    allEverywhere p l = true ↔ ∀ e ∈ l, e.everywhere p = true := by
  induction l with
  | nil => simp [allEverywhere]
  | cons e l ih => simp [allEverywhere, ih]

theorem everywhere_child {e c : Expr} (h : e.everywhere p = true) (hc : c ∈ e.children) :
    c.everywhere p = true := by
  unfold everywhere at h
  have below := (Bool.and_eq_true_iff.1 h).2
  cases e with
  | arm id value body | ret id value =>
      cases value <;>
        simp only [children, List.mem_cons, List.not_mem_nil, or_false, Bool.and_eq_true,
          allEverywhere_iff] at hc below <;> grind
  | const | var | event | exit | next | stop | empty => cases hc
  | _ =>
      simp only [children, List.mem_cons, List.mem_append, List.not_mem_nil, or_false] at hc
      simp only [Bool.and_eq_true, allEverywhere_iff] at below
      grind

end Expr

/-- What holds everywhere in the body of a routine holds for the expression at any path. -/
theorem System.test_at? {sys : System} {p : Expr → Bool} {r : Routine} {path : Path} {e : Expr}
    (h : Expr.allEverywhere p (sys.body r) = true) (he : sys.at? ⟨r, path⟩ = some e) : p e = true := by
  have all : e.everywhere p = true := by
    induction path generalizing e with
    | nil => cases he
    | cons i up ih =>
        rcases Path.resolve?_cases he with ⟨rfl, hmem⟩ | ⟨q, hq, hmem⟩
        · exact Expr.allEverywhere_iff.1 h e hmem
        · exact Expr.everywhere_child (ih hq) hmem
  unfold Expr.everywhere at all
  exact (Bool.and_eq_true_iff.1 all).1

/-- What holds everywhere in a system holds for the expression at any location. -/
theorem System.test_bodies {sys : System} {p : Expr → Bool} {l : Location} {e : Expr}
    (h : sys.bodies.all (Expr.allEverywhere p) = true) (he : sys.at? l = some e) : p e = true := by
  obtain ⟨m, body, hr, hbody, -⟩ := at?_eq_some he
  refine test_at? (r := l.routine) ?_ he
  simpa [hr, System.body, hbody] using List.all_eq_true.1 h body (List.mem_of_getElem? hbody)

namespace Structured

/-- The call stacks that may come up while a routine runs, innermost routine first. -/
inductive Called (sys : System) (main : Routine) : List Routine → Prop where
  | start : Called sys main [main]
  | call {r : Routine} {rest : List Routine} {path : Path} {id : Nat} {q : Routine}
      {args : List Expr} (caller : Called sys main (r :: rest))
      (site : sys.at? ⟨r, path⟩ = some (.call id q args)) : Called sys main (q :: r :: rest)

theorem Called.of_cons {sys : System} {main q r : Routine} {rest : List Routine}
    (h : Called sys main (q :: r :: rest)) : Called sys main (r :: rest) := by
  cases h with
  | call caller site => exact caller

/-- All code that may run, starting with a routine, is structured. -/
def Code (sys : System) (main : Routine) : Prop :=
  ∀ r rest path e, Called sys main (r :: rest) → sys.at? ⟨r, path⟩ = some e → e.isStructured = true

/-- The variable that a name means in a call with the given stack. -/
def variableOf (this : Instance) (stack : List Routine) (d : Decl) : Variable :=
  if d.isGlobal then .ofOwner (.inst this) d else .ofFrame stack (.decl d)

/-- What the code of a process speaks of belongs to the vocabulary. -/
structure Speaks (w : Vocabulary) (sys : System) (p : Process) : Prop where
  this : p.inst ∈ w.instances
  routines : ∀ r rest, Called sys p.routine (r :: rest) → r ∈ w.routines
  names : ∀ r rest path id d, Called sys p.routine (r :: rest) →
    sys.at? ⟨r, path⟩ = some (.var id d) →
    (Payload.target (variableOf p.inst (r :: rest) d)).Within w
  params : ∀ r rest d, Called sys p.routine (r :: rest) → d ∈ r.params →
    Variable.ofFrame (r :: rest) (.decl d) ∈ w.vars

end Structured

end DeltaSlice

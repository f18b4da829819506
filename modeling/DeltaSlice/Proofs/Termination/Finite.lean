import DeltaSlice.Proofs.Safety.Code
import Mathlib.Data.Set.Card
import Mathlib.Data.Set.Finite.Lattice
import Mathlib.Logic.Relation

/-!
What is finite about a system: its code, the places in it, and the ways along which calls may lead if no
routine calls itself. Heights count how far evaluation can still go down, through the calls and through the
code of one routine.
-/

namespace DeltaSlice

section Sets

variable {α : Type}

/-- Lists of bounded length over a finite set. -/
theorem finite_lists {S : Set α} (finite : S.Finite) (n : Nat) :
    {l : List α | l.length ≤ n ∧ ∀ a ∈ l, a ∈ S}.Finite := by
  induction n with
  | zero =>
      refine (Set.finite_singleton []).subset ?_
      rintro l ⟨short, -⟩
      exact List.length_eq_zero_iff.1 (Nat.le_zero.1 short)
  | succ n ih =>
      refine ((Set.finite_singleton []).union (finite.image2 List.cons ih)).subset ?_
      rintro l ⟨short, inside⟩
      cases l with
      | nil => exact .inl rfl
      | cons a l =>
          obtain ⟨ha, hl⟩ := List.forall_mem_cons.1 inside
          exact .inr ⟨a, ha, l, ⟨Nat.le_of_succ_le_succ short, hl⟩, rfl⟩

/-- Lists without duplicates over a finite set. -/
theorem nodup_lists {S : Set α} (finite : S.Finite) : {l : List α | l.Nodup ∧ ∀ a ∈ l, a ∈ S}.Finite := by
  classical
  refine (finite_lists finite S.ncard).subset ?_
  rintro l ⟨nodup, inside⟩
  refine ⟨?_, inside⟩
  rw [← List.toFinset_card_of_nodup nodup, Set.ncard_eq_toFinset_card S finite]
  exact Finset.card_le_card fun a ha => finite.mem_toFinset.2 (inside a (List.mem_toFinset.1 ha))

/-- How many elements of a set lie ahead of one in an order. -/
noncomputable def ahead (r : α → α → Prop) (S : Set α) (a : α) : Nat := {b ∈ S | r a b}.ncard

/-- Whoever goes ahead in a finite set has less ahead. -/
theorem ahead_lt {r : α → α → Prop} {S : Set α} {a b : α} (finite : S.Finite)
    (trans : ∀ {a b c}, r a b → r b c → r a c) (irrefl : ∀ a, ¬ r a a) (hb : b ∈ S) (h : r a b) :
    ahead r S b < ahead r S a := by
  refine Set.ncard_lt_ncard ⟨fun c hc => ⟨hc.1, trans h hc.2⟩, fun sub => ?_⟩
    (finite.subset (Set.sep_subset _ _))
  exact irrefl b (sub ⟨hb, h⟩).2

theorem ahead_le {r : α → α → Prop} {S : Set α} {a : α} (finite : S.Finite) : ahead r S a ≤ S.ncard :=
  Set.ncard_le_ncard (Set.sep_subset _ _) finite

end Sets

namespace Expr

variable {e : Expr} {es : List Expr} {i : Int}

theorem length_le_numbers (es : List Expr) : es.length ≤ (numbers es).length := by
  simpa using (ids_sublist_numbers es).length_le

/-- There are fewer nodes below a node than in the list in which it stands. -/
theorem numbers_children_lt (he : e ∈ es) : (numbers e.children).length < (numbers es).length := by
  induction es with
  | nil => cases he
  | cons e' es ih =>
      rw [numbers_cons, List.length_cons, List.length_append]
      rcases List.mem_cons.1 he with rfl | he
      · omega
      · have := ih he
        omega

end Expr

/-- A path goes no deeper and no farther to the side than there are nodes. -/
theorem Path.bounded {body es : List Expr} {p : Path} (h : scope? body p = some es) :
    p.length + (Expr.numbers es).length ≤ (Expr.numbers body).length ∧
      ∀ i ∈ p, i ∈ Set.Ico (0 : Int) (Expr.numbers body).length := by
  induction p generalizing es with
  | nil =>
      obtain rfl := Option.some.inj h
      simp
  | cons i p ih =>
      obtain ⟨e, he, rfl⟩ := Option.map_eq_some_iff.1 h
      obtain ⟨above, habove, he⟩ := Option.bind_eq_some_iff.1 he
      obtain ⟨deep, wide⟩ := ih habove
      have fewer := Expr.numbers_children_lt (mem_of_elementAt? he)
      obtain ⟨low, high⟩ := elementAt?_lt he
      have := Expr.length_le_numbers above
      refine ⟨?_, List.forall_mem_cons.2 ⟨⟨low, by omega⟩, wide⟩⟩
      rw [List.length_cons]
      omega

namespace System

variable {sys : System} {l : Location} {e : Expr} {es : List Expr} {r q : Routine} {i : Int}
  {up : Path}

/-- The number of nodes of all bodies. -/
def size (sys : System) : Nat := (sys.bodies.map fun b => (Expr.numbers b).length).sum

/-- The expressions of which the bodies are made. -/
def code (sys : System) : Set Expr := {e | ∃ l, sys.at? l = some e}

theorem numbers_body_le (sys : System) (r : Routine) : (Expr.numbers (sys.body r)).length ≤ sys.size := by
  have none : (Expr.numbers []).length ≤ sys.size := Nat.zero_le _
  unfold body
  split
  · rename_i m
    cases hbody : sys.bodies[m.index]? with
    | none => exact none
    | some b => exact List.single_le_sum (by simp) _ (List.mem_map_of_mem (List.mem_of_getElem? hbody))
  · exact none

theorem path_bounded (h : sys.scope? l = some es) : l.path.length + (Expr.numbers es).length ≤ sys.size ∧
    ∀ i ∈ l.path, i ∈ Set.Ico (0 : Int) sys.size := by
  obtain ⟨deep, wide⟩ := Path.bounded h
  have := sys.numbers_body_le l.routine
  refine ⟨deep.trans this, fun i hi => ?_⟩
  obtain ⟨low, high⟩ := wide i hi
  exact ⟨low, by omega⟩

/-- The paths that may lead somewhere, to the same depth and width as those that do. -/
def paths (sys : System) : Set Path := {p | p.length ≤ sys.size ∧ ∀ i ∈ p, i ∈ Set.Ico (0 : Int) sys.size}

theorem paths_finite (sys : System) : sys.paths.Finite := finite_lists (Set.finite_Ico _ _) _

theorem path_mem (h : sys.scope? l = some es) : l.path ∈ sys.paths := by
  obtain ⟨deep, wide⟩ := path_bounded h
  exact ⟨(Nat.le_add_right _ _).trans deep, wide⟩

theorem code_finite (sys : System) : sys.code.Finite := by
  have all : (Set.image2 Path.resolve? {b | b ∈ sys.bodies} sys.paths).Finite :=
    sys.bodies.finite_toSet.image2 _ sys.paths_finite
  refine (all.preimage (Option.some_injective Expr).injOn).subset ?_
  rintro e ⟨l, he⟩
  obtain ⟨m, body, -, hbody, hres⟩ := at?_eq_some he
  exact ⟨body, List.mem_of_getElem? hbody, l.path, path_mem (scope?_of_at? he), hres⟩

/-- The code of a routine calls another one. -/
def Calls (sys : System) (r q : Routine) : Prop := ∃ path id args, sys.at? ⟨r, path⟩ = some (.call id q args)

/-- No routine calls itself, be it by way of others. -/
def Acyclic (sys : System) : Prop := ∀ r, ¬ Relation.TransGen sys.Calls r r

/-- The routines that are called. -/
def called (sys : System) : Set Routine := {q | ∃ id args, .call id q args ∈ sys.code}

theorem called_finite (sys : System) : sys.called.Finite := by
  have injective : Function.Injective fun w : Nat × Routine × List Expr => Expr.call w.1 w.2.1 w.2.2 := by
    rintro ⟨id, q, args⟩ ⟨id', q', args'⟩ same
    simpa using same
  refine ((sys.code_finite.preimage injective.injOn).image fun w => w.2.1).subset ?_
  rintro q ⟨id, args, he⟩
  exact ⟨(id, q, args), he, rfl⟩

theorem Calls.mem (h : sys.Calls r q) : q ∈ sys.called := by
  obtain ⟨path, id, args, he⟩ := h
  exact ⟨id, args, _, he⟩

/-- How many routines calls may lead to. -/
noncomputable def depth (sys : System) (r : Routine) : Nat := ahead (Relation.TransGen sys.Calls) sys.called r

theorem depth_lt (acyclic : sys.Acyclic) (h : sys.Calls r q) : sys.depth q < sys.depth r :=
  ahead_lt sys.called_finite .trans acyclic h.mem (.single h)

theorem depth_le (sys : System) (r : Routine) : sys.depth r ≤ sys.called.ncard := ahead_le sys.called_finite

/-- How far evaluation can go down from a location: through calls, and through the code of one routine. -/
noncomputable def height (sys : System) (l : Location) : Nat :=
  sys.depth l.routine * (sys.size + 1) + (Expr.numbers ((sys.scope? l).getD [])).length

/-- An upper bound of all heights. -/
noncomputable def top (sys : System) : Nat := (sys.called.ncard + 1) * (sys.size + 1)

theorem numbers_scope_le (sys : System) (l : Location) :
    (Expr.numbers ((sys.scope? l).getD [])).length ≤ sys.size := by
  cases h : sys.scope? l with
  | none => exact Nat.zero_le _
  | some es => exact (Nat.le_add_left _ _).trans (path_bounded h).1

theorem height_lt_top (sys : System) (l : Location) : sys.height l < sys.top := by
  have below := sys.numbers_scope_le l
  have calls := Nat.mul_le_mul_right (sys.size + 1) (sys.depth_le l.routine)
  unfold height top
  rw [Nat.succ_mul]
  omega

/-- Children are lower. -/
theorem height_child_lt (hes : sys.scope? ⟨r, up⟩ = some es) (he : elementAt? es i = some e) :
    sys.height ⟨r, i :: up⟩ < sys.height ⟨r, up⟩ := by
  unfold height
  rw [(scope?_cons hes he).2, hes]
  exact Nat.add_lt_add_left (Expr.numbers_children_lt (mem_of_elementAt? he)) _

/-- What is called is lower. -/
theorem height_called_lt (acyclic : sys.Acyclic) {path path' : Path} (h : sys.Calls r q) :
    sys.height ⟨q, path⟩ < sys.height ⟨r, path'⟩ := by
  have below := sys.numbers_scope_le ⟨q, path⟩
  have calls := Nat.mul_le_mul_right (sys.size + 1) (depth_lt acyclic h)
  unfold height
  dsimp only
  rw [Nat.succ_mul] at calls
  omega

end System

end DeltaSlice

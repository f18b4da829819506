import DeltaSlice.Model.Examples
import DeltaSlice.Program
import Mathlib.Data.List.Nodup

/-!
The nodes above others. The index of a system knows nodes by their numbers, the evaluation of code by
their paths; where every node of a body has a number of its own, both agree about the node above
another one.
-/

namespace DeltaSlice

namespace Expr

theorem linksAll_append (parent : Option Expr) (l l' : List Expr) :
    linksAll parent (l ++ l') = linksAll parent l ++ linksAll parent l' := by
  induction l with
  | nil => simp [linksAll]
  | cons e l ih => simp [linksAll, ih]

/-- Below a node are its children with what is below them. -/
theorem links_eq (parent : Option Expr) (e : Expr) :
    e.links parent = parent.toList.map (e.id, ·) ++ linksAll (some e) e.children := by
  cases e with
  | arm id value body =>
      cases value with
      | none => simp [links, children]
      | some v => simp [links, linksAll, children]
  | ret id value =>
      cases value with
      | none => simp [links, linksAll, children]
      | some v => simp [links, linksAll, children]
  | _ => simp [links, linksAll, linksAll_append, children]

/-- The numbers of the nodes of a body. -/
def numbers (body : List Expr) : List Nat := (linksAll (some (.empty 0)) body).map (·.1)

theorem linksAll_numbers (p : Expr) (l : List Expr) :
    (linksAll (some p) l).map (·.1) = numbers l := by
  unfold numbers
  induction l with
  | nil => rfl
  | cons e l ih => simp [linksAll, links_eq, ih]

theorem numbers_cons (e : Expr) (l : List Expr) :
    numbers (e :: l) = e.id :: (numbers e.children ++ numbers l) := by
  rw [numbers, linksAll, links_eq, List.map_append, List.map_append, linksAll_numbers, ← numbers]
  rfl

/-- The links of a body lack those of its statements. -/
theorem linksAll_none_cons (e : Expr) (l : List Expr) :
    (linksAll none (e :: l)).map (·.1) = numbers e.children ++ (linksAll none l).map (·.1) := by
  rw [linksAll, links_eq, List.map_append, List.map_append, linksAll_numbers]
  rfl

theorem linksAll_none_sublist (l : List Expr) :
    ((linksAll none l).map (·.1)).Sublist (numbers l) := by
  induction l with
  | nil => exact .refl _
  | cons e l ih =>
      rw [linksAll_none_cons, numbers_cons]
      exact ((List.Sublist.refl _).append ih).cons _

theorem mem_numbers {e : Expr} {l : List Expr} (he : e ∈ l) : e.id ∈ numbers l := by
  induction l with
  | nil => cases he
  | cons e' l ih =>
      rw [numbers_cons]
      cases List.mem_cons.1 he with
      | inl he => simp [he]
      | inr he => simp [ih he]

theorem ids_sublist_numbers (l : List Expr) : (l.map id).Sublist (numbers l) := by
  induction l with
  | nil => exact .refl _
  | cons e l ih =>
      rw [List.map_cons, numbers_cons]
      exact (ih.trans (List.sublist_append_right _ _)).cons_cons e.id

/-- The numbers of the statements of a body do not come up below them. -/
theorem not_mem_linksAll_none {e : Expr} {l : List Expr} (distinct : (numbers l).Nodup)
    (he : e ∈ l) : e.id ∉ (linksAll none l).map (·.1) := by
  induction l with
  | nil => cases he
  | cons e' l ih =>
      rw [numbers_cons, List.nodup_cons, List.nodup_append] at distinct
      obtain ⟨hhead, -, hrest, hdisjoint⟩ := distinct
      rw [linksAll_none_cons, List.mem_append]
      intro h
      cases List.mem_cons.1 he with
      | inl he =>
          subst he
          refine hhead (List.mem_append.2 (h.imp_right fun h => ?_))
          exact (linksAll_none_sublist l).subset h
      | inr he =>
          cases h with
          | inl h => exact hdisjoint _ h _ (mem_numbers he) rfl
          | inr h => exact ih hrest he h

/-- The links below a node of a list are among those of the list. -/
theorem links_sublist (parent : Option Expr) {e : Expr} {l : List Expr} (he : e ∈ l) :
    (e.links parent).Sublist (linksAll parent l) := by
  induction l with
  | nil => cases he
  | cons e' l ih =>
      rw [linksAll]
      cases List.mem_cons.1 he with
      | inl he =>
          subst he
          exact List.sublist_append_left _ _
      | inr he => exact (ih he).trans (List.sublist_append_right _ _)

end Expr

theorem mem_of_elementAt? {α : Type} {l : List α} {i : Int} {a : α}
    (h : elementAt? l i = some a) : a ∈ l := by
  unfold elementAt? at h
  split at h
  · cases h
  · exact List.mem_of_getElem? h

/-- Where the elements of a list are told apart, an element has one index. -/
theorem eq_of_elementAt? {α β : Type} {f : α → β} {l : List α} (distinct : (l.map f).Nodup)
    {i j : Int} {a b : α} (ha : elementAt? l i = some a) (hb : elementAt? l j = some b)
    (same : f a = f b) : i = j := by
  unfold elementAt? at ha hb
  split at ha
  · cases ha
  · split at hb
    · cases hb
    · have hi : (l.map f)[i.toNat]? = some (f a) := by rw [List.getElem?_map, ha, Option.map_some]
      have hj : (l.map f)[j.toNat]? = some (f b) := by rw [List.getElem?_map, hb, Option.map_some]
      have inside := (List.getElem?_eq_some_iff.1 hi).1
      have := (List.getElem?_inj inside distinct).1 (hi.trans (same ▸ hj.symm))
      omega

namespace Path

variable {body : List Expr} {e q : Expr} {i : Int} {up : Path}

theorem resolve?_cons (hq : resolve? body up = some q) :
    resolve? body (i :: up) = elementAt? q.children i := by
  cases up with
  | nil => cases hq
  | cons j up =>
      rw [resolve?] at hq
      simp [resolve?, scope?, hq]

/-- What is above an expression. -/
theorem resolve?_cases (he : resolve? body (i :: up) = some e) :
    (up = [] ∧ e ∈ body) ∨ ∃ q, resolve? body up = some q ∧ e ∈ q.children := by
  cases up with
  | nil => exact .inl ⟨rfl, mem_of_elementAt? he⟩
  | cons j up =>
      obtain ⟨l, hl, he⟩ := Option.bind_eq_some_iff.1 he
      obtain ⟨q, hq, rfl⟩ := Option.map_eq_some_iff.1 hl
      exact .inr ⟨q, hq, mem_of_elementAt? he⟩

/-- Only a statement of the body has nothing above it. -/
theorem eq_nil_of_resolve? (he : resolve? body (i :: up) = some e) (hup : resolve? body up = none) :
    up = [] := by
  cases resolve?_cases he with
  | inl h => exact h.1
  | inr h =>
      obtain ⟨q, hq, -⟩ := h
      rw [hup] at hq
      cases hq

theorem resolve?_nil (path : Path) : resolve? [] path = none := by
  induction path with
  | nil => rfl
  | cons i up ih =>
      cases he : resolve? [] (i :: up) with
      | none => rfl
      | some e =>
          cases resolve?_cases he with
          | inl h => cases h.2
          | inr h =>
              obtain ⟨q, hq, -⟩ := h
              rw [ih] at hq
              cases hq

/-- The links below an expression are links of the body. -/
theorem children_sublist (he : resolve? body up = some e) :
    (Expr.linksAll (some e) e.children).Sublist (Expr.linksAll none body) := by
  induction up generalizing e with
  | nil => cases he
  | cons i up ih =>
      cases resolve?_cases he with
      | inl h =>
          have := Expr.links_sublist none h.2
          rw [Expr.links_eq] at this
          exact this
      | inr h =>
          obtain ⟨q, hq, hmem⟩ := h
          have := Expr.links_sublist (some q) hmem
          rw [Expr.links_eq] at this
          exact ((List.sublist_append_right _ _).trans this).trans (ih hq)

/-- The node above an expression, by the number of the expression. -/
theorem find?_links (distinct : (Expr.numbers body).Nodup)
    (he : resolve? body (i :: up) = some e) :
    ((Expr.linksAll none body).find? fun l => l.1 = e.id).map (·.2) = resolve? body up := by
  cases resolve?_cases he with
  | inl h =>
      obtain ⟨rfl, hmem⟩ := h
      have := Expr.not_mem_linksAll_none distinct hmem
      rw [resolve?, Option.map_eq_none_iff, List.find?_eq_none]
      intro l hl hid
      exact this (List.mem_map.2 ⟨l, hl, by simpa using hid⟩)
  | inr h =>
      obtain ⟨q, hq, hmem⟩ := h
      have hlink : (e.id, q) ∈ Expr.linksAll none body := by
        refine (children_sublist hq).subset ((Expr.links_sublist (some q) hmem).subset ?_)
        simp [Expr.links_eq]
      have hnodup := distinct.sublist (Expr.linksAll_none_sublist body)
      cases hfind : (Expr.linksAll none body).find? fun l => l.1 = e.id with
      | none => simpa using List.find?_eq_none.1 hfind _ hlink
      | some l =>
          have hid : l.1 = e.id := by simpa using List.find?_some hfind
          have := List.inj_on_of_nodup_map hnodup (List.mem_of_find?_eq_some hfind) hlink hid
          rw [hq, this]
          rfl

theorem numbers_children_nodup (distinct : (Expr.numbers body).Nodup)
    (he : resolve? body up = some e) : (Expr.numbers e.children).Nodup := by
  have below := (children_sublist he).map (·.1)
  rw [Expr.linksAll_numbers] at below
  exact (distinct.sublist (Expr.linksAll_none_sublist body)).sublist below

/-- A node has one path. -/
theorem eq_of_resolve? (distinct : (Expr.numbers body).Nodup) {path path' : Path} {e' : Expr}
    (he : resolve? body path = some e) (he' : resolve? body path' = some e') (same : e.id = e'.id) :
    path = path' := by
  induction path generalizing path' e e' with
  | nil => cases he
  | cons i up ih =>
      cases path' with
      | nil => cases he'
      | cons j up' =>
          -- The table is asked by numbers, so both nodes have the same node above them.
          have above : resolve? body up = resolve? body up' := by
            rw [← find?_links distinct he, ← find?_links distinct he', same]
          cases hq : resolve? body up with
          | none =>
              obtain rfl := eq_nil_of_resolve? he hq
              obtain rfl := eq_nil_of_resolve? he' (above ▸ hq)
              have := eq_of_elementAt? (distinct.sublist (Expr.ids_sublist_numbers body)) he he' same
              rw [this]
          | some q =>
              obtain rfl := ih hq (above ▸ hq) rfl
              rw [resolve?_cons hq] at he he'
              have := eq_of_elementAt?
                ((numbers_children_nodup distinct hq).sublist (Expr.ids_sublist_numbers _)) he he' same
              rw [this]

end Path

namespace System

/-- Every node of a body has a number of its own. -/
def Distinct (sys : System) : Prop := ∀ body ∈ sys.bodies, (Expr.numbers body).Nodup

instance (sys : System) : Decidable sys.Distinct :=
  inferInstanceAs (Decidable (∀ body ∈ sys.bodies, (Expr.numbers body).Nodup))

variable {sys : System} {r : Routine} {path : Path} {e : Expr}

theorem at?_eq_some (he : sys.at? ⟨r, path⟩ = some e) :
    ∃ m body, r = .member m ∧ sys.bodies[m.index]? = some body ∧
      Path.resolve? body path = some e := by
  cases r with
  | wait | requestUpdate => simp [at?, System.body, Path.resolve?_nil] at he
  | member m =>
      cases hbody : sys.bodies[m.index]? with
      | none => simp [at?, System.body, hbody, Path.resolve?_nil] at he
      | some body => exact ⟨m, body, rfl, hbody, by simpa [at?, System.body, hbody] using he⟩

theorem at?_cons {i : Int} {up : Path} {q : Expr} (hq : sys.at? ⟨r, up⟩ = some q) :
    sys.at? ⟨r, i :: up⟩ = elementAt? q.children i := Path.resolve?_cons hq

theorem Distinct.body (distinct : sys.Distinct) (he : sys.at? ⟨r, path⟩ = some e) :
    (Expr.numbers (sys.body r)).Nodup := by
  obtain ⟨m, body, rfl, hbody, -⟩ := at?_eq_some he
  simpa [System.body, hbody] using distinct body (List.mem_of_getElem? hbody)

/-- Receiver and member of an access are told apart. -/
theorem access_ids {id : Nat} {x m : Expr} (distinct : sys.Distinct)
    (hq : sys.at? ⟨r, path⟩ = some (.access id x m)) : x.id ≠ m.id := by
  have hnodup := Path.numbers_children_nodup (distinct.body hq) hq
  simp only [Expr.children, Expr.numbers_cons, List.nodup_cons] at hnodup
  intro h
  exact hnodup.1 (by simp [h])

end System

namespace Index

variable {sys : System} {r : Routine} {e : Expr} {i : Int} {up : Path}

/-- The node above an expression is the one at the path above. -/
theorem parent?_eq (distinct : (Expr.numbers (sys.body r)).Nodup)
    (he : sys.at? ⟨r, i :: up⟩ = some e) : (ofSystem sys).parent? r e = sys.at? ⟨r, up⟩ := by
  obtain ⟨m, body, rfl, hbody, he⟩ := System.at?_eq_some he
  have inBody : (Expr.numbers body).Nodup := by simpa [System.body, hbody] using distinct
  have := Path.find?_links inBody he
  simpa [ofSystem, parent?, System.at?, System.body, hbody] using this

/-- Where no node of a body comes up twice, the index and the paths tell the same: a statement of the
body has nothing above it, everything else is the child, at the last index of its path, of what is at
the path without that index, and no node has two paths. -/
theorem parent?_exact (distinct : (Expr.numbers (sys.body r)).Nodup) :
    (∀ i e, sys.at? ⟨r, [i]⟩ = some e → (ofSystem sys).parent? r e = none) ∧
      (∀ i j up e, sys.at? ⟨r, i :: j :: up⟩ = some e →
        ∃ q, sys.at? ⟨r, j :: up⟩ = some q ∧ (ofSystem sys).parent? r e = some q ∧
          elementAt? q.children i = some e) ∧
      ∀ path path' e e', sys.at? ⟨r, path⟩ = some e → sys.at? ⟨r, path'⟩ = some e' →
        path ≠ path' → e.id ≠ e'.id := by
  refine ⟨fun i e he => parent?_eq distinct he, fun i j up e he => ?_, ?_⟩
  · have above := parent?_eq distinct he
    cases hq : sys.at? ⟨r, j :: up⟩ with
    | none => cases Path.eq_nil_of_resolve? he hq
    | some q =>
        rw [System.at?_cons hq] at he
        exact ⟨q, rfl, above.trans hq, he⟩
  · intro path path' e e' he he' apart same
    exact apart (Path.eq_of_resolve? distinct he he' same)

end Index

namespace Examples

/-- `for (x = 0; x < 3; x = x + 1) { switch (x) { default: break; case 1: return; } }` -/
def caseLoop : System :=
  let x := field 0 "x"
  single [x] [] [⟨"run",
    [.forLoop 0 "" (assign x (number 0)) (.binary 0 .lt (ref x) (number 3))
      (assign x (.binary 0 .add (ref x) (number 1)))
      [.switch 0 "" (ref x) [.arm 0 none [.exit 0 ""], .arm 0 (some (number 1)) [.ret 0 none]]]],
    [], false⟩]

def caseLoopRun : Routine := .member ⟨0, "Top", "run", [], false⟩

end Examples

open Examples in
/-- The step of the loop comes after its body, the default case has no value before its statements,
and an empty return has no children. -/
theorem parent?_exact_caseLoop : (Expr.numbers (caseLoop.body caseLoopRun)).Nodup ∧
    (∃ loop, caseLoop.at? ⟨caseLoopRun, [0]⟩ = some loop ∧
      (Index.ofSystem caseLoop).parent? caseLoopRun loop = none) ∧
    (∃ sum step, caseLoop.at? ⟨caseLoopRun, [1, 3, 0]⟩ = some sum ∧
      caseLoop.at? ⟨caseLoopRun, [3, 0]⟩ = some step ∧
      (Index.ofSystem caseLoop).parent? caseLoopRun sum = some step ∧
      elementAt? step.children 1 = some sum) ∧
    (∃ leave arm, caseLoop.at? ⟨caseLoopRun, [0, 1, 2, 0]⟩ = some leave ∧
      caseLoop.at? ⟨caseLoopRun, [1, 2, 0]⟩ = some arm ∧
      (Index.ofSystem caseLoop).parent? caseLoopRun leave = some arm ∧
      elementAt? arm.children 0 = some leave) ∧
    ∃ leave back, caseLoop.at? ⟨caseLoopRun, [0, 1, 2, 0]⟩ = some leave ∧
      caseLoop.at? ⟨caseLoopRun, [1, 2, 2, 0]⟩ = some back ∧ leave.id ≠ back.id := by
  have distinct : (Expr.numbers (caseLoop.body caseLoopRun)).Nodup := by decide
  obtain ⟨top, below, apart⟩ := Index.parent?_exact distinct
  obtain ⟨loop, hloop⟩ : ∃ e, caseLoop.at? ⟨caseLoopRun, [0]⟩ = some e := ⟨_, rfl⟩
  obtain ⟨sum, hsum⟩ : ∃ e, caseLoop.at? ⟨caseLoopRun, [1, 3, 0]⟩ = some e := ⟨_, rfl⟩
  obtain ⟨leave, hleave⟩ : ∃ e, caseLoop.at? ⟨caseLoopRun, [0, 1, 2, 0]⟩ = some e := ⟨_, rfl⟩
  obtain ⟨back, hback⟩ : ∃ e, caseLoop.at? ⟨caseLoopRun, [1, 2, 2, 0]⟩ = some e := ⟨_, rfl⟩
  obtain ⟨step, hstep⟩ := below _ _ _ sum hsum
  obtain ⟨arm, harm⟩ := below _ _ _ leave hleave
  exact ⟨distinct, ⟨loop, hloop, top _ loop hloop⟩, ⟨sum, step, hsum, hstep⟩,
    ⟨leave, arm, hleave, harm⟩, leave, back, hleave, hback,
    apart _ _ leave back hleave hback (by decide)⟩

namespace Program

/-- The index is that of the system, and it tells all nodes apart. -/
structure WellIndexed (p : Program) : Prop where
  index : p.index = .ofSystem p.system
  distinct : p.system.Distinct

variable {p : Program} {r : Routine} {e : Expr} {i : Int} {up : Path}

/-- The node above an expression is the one at the path above. -/
theorem WellIndexed.parent?_eq (h : p.WellIndexed) (he : p.at? ⟨r, i :: up⟩ = some e) :
    p.parent? r e = p.at? ⟨r, up⟩ := by
  rw [parent?, h.index]
  exact Index.parent?_eq (h.distinct.body he) he

end Program

end DeltaSlice

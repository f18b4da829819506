import DeltaSlice.Model.Numbering
import DeltaSlice.Proofs.Model.Parents
import DeltaSlice.Simulator.Basic
import Mathlib.Data.List.Perm.Basic
import Mathlib.Data.List.Range

/-!
The simulator of a checked system. Every process of the system has a routine and an instance, so the
number of a process is its place among the processes.
-/

namespace DeltaSlice

namespace System

variable {seen : List String} {p : ProcessDef} {ps : List ProcessDef}

/-- A process without problems can run. -/
theorem check?_isSome (sound : processProblems seen (p :: ps) = []) (k : Nat) :
    ∃ q, p.check? k = some q ∧ q.index = k := by
  unfold processProblems at sound
  unfold ProcessDef.text? at sound
  unfold ProcessDef.check?
  cases hi : p.inst with
  | none => simp [hi] at sound
  | some i =>
      cases hr : p.routine with
      | none => simp [hi, hr] at sound
      | some r => exact ⟨_, rfl, rfl⟩

theorem processProblems_tail (sound : processProblems seen (p :: ps) = []) :
    ∃ seen', processProblems seen' ps = [] := by
  unfold processProblems at sound
  split at sound
  · cases sound
  · exact ⟨_, (List.append_eq_nil_iff.1 sound).2⟩

/-- The processes without problems are numbered one after the other. -/
theorem index_of_check? (sound : processProblems seen ps = []) {k i : Nat} {q : Process}
    (h : ((ps.zipIdx k).filterMap fun x => x.1.check? x.2)[i]? = some q) : q.index = k + i := by
  induction ps generalizing seen k i with
  | nil => simp at h
  | cons p ps ih =>
      obtain ⟨first, hfirst, index⟩ := check?_isSome sound k
      obtain ⟨seen', rest⟩ := processProblems_tail sound
      rw [List.zipIdx_cons, List.filterMap_cons_some (by exact hfirst)] at h
      cases i with
      | zero =>
          obtain rfl := Option.some.inj h
          exact index
      | succ i =>
          have := ih rest h
          omega

end System

namespace Simulator

variable {sys : System} {setup : Setup} {s : Simulator}

/-- The number of a process is its place. -/
def Placed (s : Simulator) : Prop := ∀ i (p : Process), s.procs[i]? = some p → p.index = i

/-- The processes have different places. -/
def Apart (s : Simulator) : Prop := (s.procs.map (·.index)).Nodup

theorem make_cases (h : make sys setup = .ok s) : sys.problems = [] ∧
    s = { program := .ofSystem sys, setup
          procs := sys.processes.zipIdx.filterMap fun x => x.1.check? x.2
          aborted := false, fuel := unlimited } := by
  unfold make at h
  split at h
  · rename_i sound
    exact ⟨sound, (Except.ok.inj h).symm⟩
  · cases h

theorem placed_of_make (h : make sys setup = .ok s) : s.Placed := by
  obtain ⟨sound, rfl⟩ := make_cases h
  unfold System.problems at sound
  rw [List.append_eq_nil_iff, List.append_eq_nil_iff] at sound
  intro i p hp
  exact (System.index_of_check? sound.1.2 hp).trans (Nat.zero_add i)

theorem Placed.apart (placed : s.Placed) : s.Apart := by
  have numbered : s.procs.map (·.index) = List.range s.procs.length := by
    refine List.ext_getElem? fun i => ?_
    rw [List.getElem?_map]
    by_cases inside : i < s.procs.length
    · rw [List.getElem?_eq_getElem inside, List.getElem?_range inside, Option.map_some,
        placed i _ (List.getElem?_eq_getElem inside)]
    · rw [List.getElem?_eq_none (by omega), List.getElem?_eq_none (by simpa using inside)]
      rfl
  rw [Apart, numbered]
  exact List.nodup_range

end Simulator

end DeltaSlice

/-!
Numbered systems. Numbering uses up the numbers from where it begins to where it ends, so every node
has a number of its own, and the index of a numbered system tells all nodes apart.
-/

namespace DeltaSlice

namespace Expr

theorem numbers_append (l l' : List Expr) : numbers (l ++ l') = numbers l ++ numbers l' := by
  simp [numbers, linksAll_append]

/-- The nodes of a list have the numbers from `n` up to `m`, each of them once. -/
def Covers (l : List Expr) (n m : Nat) : Prop :=
  n ≤ m ∧ (numbers l).Perm (List.range' n (m - n))

namespace Covers

variable {l l' : List Expr} {e : Expr} {n m k : Nat}

theorem nil : Covers [] n n := by
  simp [Covers, numbers, linksAll]

theorem append (h : Covers l n m) (h' : Covers l' m k) : Covers (l ++ l') n k := by
  obtain ⟨hle, hperm⟩ := h
  obtain ⟨hle', hperm'⟩ := h'
  refine ⟨Nat.le_trans hle hle', ?_⟩
  have hsplit : List.range' n (k - n) = List.range' n (m - n) ++ List.range' m (k - m) := by
    have := List.range'_append_1 (s := n) (m := m - n) (n := k - m)
    rw [show n + (m - n) = m by omega, show m - n + (k - m) = k - n by omega] at this
    exact this.symm
  rw [numbers_append, hsplit]
  exact hperm.append hperm'

theorem node (hid : e.id = n) (h : Covers e.children (n + 1) m) : Covers [e] n m := by
  obtain ⟨hle, hperm⟩ := h
  refine ⟨by omega, ?_⟩
  rw [show m - n = (m - (n + 1)) + 1 by omega, List.range'_succ, numbers_cons, hid]
  simpa [numbers, linksAll] using hperm

theorem swap (h : Covers (l ++ l') n m) : Covers (l' ++ l) n m := by
  obtain ⟨hle, hperm⟩ := h
  rw [numbers_append] at hperm
  refine ⟨hle, ?_⟩
  rw [numbers_append]
  exact List.perm_append_comm.trans hperm

end Covers

mutual

theorem numbered_covers (e : Expr) (n : Nat) :
    Covers [(e.numbered.run n).1] n (e.numbered.run n).2 := by
  cases e with
  | const | var | event | exit | next | stop | empty => exact .node rfl .nil
  | unary _ _ x | bracket _ x => exact .node rfl (numbered_covers x _)
  | binary _ _ x y | access _ x y =>
      exact .node rfl ((numbered_covers x _).append (numbered_covers y _))
  | block _ l | call _ _ l => exact .node rfl (allNumbered_covers l _)
  | branch _ c yes no =>
      refine .node rfl ((numbered_covers c _).append ?_)
      exact (allNumbered_covers yes _).append (allNumbered_covers no _)
  | whileLoop _ _ c l | doLoop _ _ c l | switch _ _ c l | notify _ c l =>
      exact .node rfl ((numbered_covers c _).append (allNumbered_covers l _))
  | forLoop _ _ i c p body =>
      refine .node rfl ((numbered_covers i _).append ((numbered_covers c _).append ?_))
      -- The step of the loop is written before the body and has its index after it.
      exact ((numbered_covers p _).append (allNumbered_covers body _)).swap
  | arm _ value body =>
      cases value with
      | none => exact .node rfl (allNumbered_covers body _)
      | some v => exact .node rfl ((numbered_covers v _).append (allNumbered_covers body _))
  | ret _ value =>
      cases value with
      | none => exact .node rfl .nil
      | some v => exact .node rfl (numbered_covers v _)

theorem allNumbered_covers (l : List Expr) (n : Nat) :
    Covers ((allNumbered l).run n).1 n ((allNumbered l).run n).2 := by
  cases l with
  | nil => exact .nil
  | cons e l => exact (numbered_covers e n).append (allNumbered_covers l _)

end

end Expr

theorem bodiesNumbered_nodup (bodies : List (List Expr)) (n : Nat) :
    ∀ body ∈ ((bodiesNumbered bodies).run n).1, (Expr.numbers body).Nodup := by
  induction bodies generalizing n with
  | nil =>
      intro body h
      cases h
  | cons b bs ih =>
      intro body h
      cases List.mem_cons.1 h with
      | inl h =>
          rw [h]
          exact (Expr.allNumbered_covers b n).2.nodup_iff.2 List.nodup_range'
      | inr h => exact ih _ body h

theorem System.numbered_distinct (sys : System) : sys.numbered.Distinct :=
  bodiesNumbered_nodup sys.bodies 0

theorem Program.wellIndexed_numbered (sys : System) :
    (Program.ofSystem sys.numbered).WellIndexed := ⟨rfl, sys.numbered_distinct⟩

/-- Simulators of numbered systems know their code by its index. -/
theorem Simulator.wellIndexed_of_make {sys : System} {setup : Setup} {s : Simulator}
    (h : Simulator.make sys.numbered setup = .ok s) : s.program.WellIndexed := by
  unfold make at h
  split at h
  · obtain rfl := Except.ok.inj h
    exact Program.wellIndexed_numbered sys
  · cases h

end DeltaSlice

import DeltaSlice.Proofs.Structured.Drains
import DeltaSlice.Proofs.Termination.Occurrences
import Mathlib.Logic.Hydra

/-!
Runs of code come to an end. Single small steps succeed, fail or break; only a whole run can exhaust its bound. A
branch goes on with later and later positions, of which there are finitely many, until it ends or is dropped; it is
taken up again only if something new was learned, and there is an end to that, too. So every small step leaves less to
learn, or replaces a pending position by later ones.
-/

namespace DeltaSlice

/-- A result other than that a bound was exhausted. -/
def Definite {α : Type} (x : Except Halt α) : Prop := x ≠ .error .exhausted

namespace Definite

variable {α β : Type}

theorem ok (a : α) : Definite (.ok a : Except Halt α) := nofun

theorem failed (f : Failure) : Definite (.error (.failed f) : Except Halt α) := nofun

theorem broken (f : Fault) : Definite (.error (.broken f) : Except Halt α) := nofun

theorem mapError (x : Except Fault α) : Definite (x.mapError .broken) := by
  cases x <;> nofun

theorem bind {x : Except Halt α} {f : α → Except Halt β} (hx : Definite x) (hf : ∀ a, Definite (f a)) :
    Definite (x >>= f) := by
  cases x with
  | ok a => exact hf a
  | error h => exact fun same => hx (congrArg Except.error (Except.error.inj same))

theorem map {x : Except Halt α} (hx : Definite x) (f : α → β) : Definite (x.map f) := by
  cases x with
  | ok a => nofun
  | error h => exact fun same => hx (congrArg Except.error (Except.error.inj same))

theorem run_bind {κ : Type} {x : Run κ α} {f : α → Run κ β} (hx : Definite x.result) (hf : ∀ a, Definite (f a).result) :
    Definite (x >>= f).result := by
  rw [Run.result_bind]
  exact hx.bind hf

end Definite

namespace Dependence

variable {p : Program} {triggers : Bool} {s : Site} {f : Focus} {t : Transition} {g : Pdg}

theorem announcedEvent_definite (top : Frame) (e : Expr) : Definite (announcedEvent top e) := by
  unfold announcedEvent
  repeat' split
  all_goals nofun

theorem announce_definite (e : Expr) : Definite (announce p triggers t e) := by
  unfold announce
  repeat' split
  any_goals (intro same; cases same)
  exact (announcedEvent_definite _ e).map _

theorem callEffect_definite : Definite (callEffect p triggers s f) := by
  have update : ∀ f, Definite (updateTrigger p s f) := by
    intro f
    unfold updateTrigger
    repeat' split
    all_goals nofun
  have wait : ∀ f, Definite (waitTrigger s f) := by
    intro f
    unfold waitTrigger
    split <;> nofun
  unfold callEffect
  repeat' split
  any_goals (intro same; cases same)
  · exact update _
  · exact wait _

theorem evaluated_definite (e : Option Expr) (i : Int) : Definite (evaluated p triggers t e i g) := by
  have site : ∀ s : Site, Definite (evaluatedAt p triggers s g) := by
    intro s
    unfold evaluatedAt
    refine callEffect_definite.bind fun f => (Definite.mapError _).bind fun f => ?_
    dsimp only
    split
    · nofun
    · exact .mapError _
  unfold evaluated
  repeat' split
  any_goals (intro same; cases same)
  exact site _

end Dependence

namespace Observer

variable {p : Program} {o : Observer} {t : Transition}

theorem announce_definite (e : Expr) : Definite (o.announce p t e).result := by
  induction o generalizing t with
  | none | readWrite _ => nofun
  | pdg triggers => exact Dependence.announce_definite e
  | pair a b iha ihb => exact iha.run_bind fun _ => ihb
  | recording o ih => exact (Definite.ok ()).run_bind fun _ => ih

theorem evaluated_definite (e : Option Expr) (i : Int) : Definite (o.evaluated p t e i).result := by
  induction o generalizing t with
  | none => nofun
  | readWrite track => unfold evaluated; split <;> nofun
  | pdg triggers =>
      unfold evaluated
      split
      · exact (Dependence.evaluated_definite e i).map _
      · nofun
  | pair a b iha ihb =>
      unfold evaluated
      split
      · exact iha.run_bind fun _ => ihb.run_bind fun _ => .ok _
      · nofun
  | recording o ih =>
      have told : ∀ i : Info, Definite (pure i : Step Info).result := fun i => .ok i
      exact (Definite.ok ()).run_bind fun _ => ih.run_bind fun i => (Definite.ok ()).run_bind fun _ => told i

theorem waitedForEvents_definite (q : Process) (events : List Event) (before : EventList) :
    Definite (o.waitedForEvents t q events before).result := by
  induction o generalizing t with
  | none | readWrite _ => nofun
  | pdg triggers =>
      unfold waitedForEvents
      split
      · nofun
      · exact .mapError _
      · nofun
  | pair a b iha ihb =>
      unfold waitedForEvents
      split
      · exact iha.run_bind fun _ => ihb.run_bind fun _ => .ok _
      · nofun
  | recording o ih => exact (Definite.ok ()).run_bind fun _ => ih

end Observer

namespace Simulator

variable {s : Simulator} {t : Transition} {ps : ProcessState} {top : Frame} {e : Expr}

theorem notifyProcess_definite (p : Process) (notified : List Event) :
    Definite (s.notifyProcess t p notified).result := by
  unfold notifyProcess
  repeat' split
  any_goals (intro same; cases same)
  dsimp only
  split
  · nofun
  · exact (Observer.waitedForEvents_definite _ _ _).run_bind fun _ => .ok _

theorem notify_definite (ev : Event) (delay : Option Delay) : Definite (s.notify t ev delay).result := by
  have all : ∀ (ps : List Process) t, Definite (s.notifyProcesses t [ev] ps).result := by
    intro ps
    induction ps with
    | nil => exact fun t => .ok t
    | cons p ps ih => exact fun t => (notifyProcess_definite p [ev]).run_bind ih
  unfold notify
  repeat' split
  any_goals (intro same; cases same)
  exact all _ _

theorem delayOf_definite (delays : List Expr) : Definite (delayOf top e delays) := by
  unfold delayOf
  dsimp only
  repeat' split
  all_goals nofun

theorem notifyStep_definite (target : Expr) (delays : List Expr) :
    Definite (s.notifyStep t top e target delays).result := by
  unfold notifyStep
  dsimp only
  repeat' split
  any_goals (intro same; cases same)
  exact (delayOf_definite delays).run_bind (x := .of _) fun _ => (notify_definite _ _).run_bind fun _ => .ok _

theorem aggregateStep_definite : Definite (s.aggregateStep t top e) := by
  unfold aggregateStep
  dsimp only
  split
  · nofun
  · refine Definite.map ?_ _
    unfold aggregate
    dsimp only
    repeat' split
    all_goals nofun

theorem callStep_definite (r : Routine) (arity : Nat) : Definite (s.callStep t ps top e r arity) := by
  unfold callStep
  dsimp only
  repeat' split
  any_goals (intro same; cases same)
  all_goals
    unfold waitStep
    dsimp only
    repeat' split
    all_goals nofun

theorem exprStep_definite : Definite (s.exprStep t ps top e).result := by
  cases e with
  | const id l => unfold exprStep; dsimp only; split <;> nofun
  | unary | binary | access | bracket | block | empty => exact aggregateStep_definite
  | exit id label =>
      unfold exprStep
      dsimp only [Run.result_of]
      unfold exitStep
      repeat' split
      all_goals nofun
  | next id label =>
      unfold exprStep
      dsimp only [Run.result_of]
      unfold nextStep
      repeat' split
      all_goals nofun
  | ret id value => unfold exprStep; dsimp only; split <;> nofun
  | notify id target delays => exact notifyStep_definite target delays
  | call id r args => exact callStep_definite r args.length
  | _ => exact .ok _

/-- A small step succeeds, fails or breaks. -/
theorem smallStep_definite : Definite (s.smallStep t).result := by
  have observed : ∀ (e : Option Expr) (i : Int) (ts : List Transition), Definite (s.observeResults e i ts).result := by
    intro e i ts
    induction ts with
    | nil => exact .ok _
    | cons t ts ih => exact (Observer.evaluated_definite e i).run_bind fun _ => ih.run_bind fun _ => .ok _
  unfold smallStep
  split
  · nofun
  refine Definite.run_bind ?_ fun st =>
    (Definite.mapError _).run_bind fun _ => (observed _ _ _).run_bind fun _ => .ok _
  unfold advance
  repeat' split
  any_goals (intro same; cases same)
  exact (Observer.announce_definite _).run_bind fun _ => exprStep_definite

theorem worklistStep?_definite {w : Worklist} {step : Step Worklist} (h : s.worklistStep? w = some step) :
    Definite step.result := by
  unfold worklistStep? at h
  split at h
  · cases h
  · obtain rfl := Option.some.inj h
    split
    · nofun
    · exact smallStep_definite.run_bind fun _ => .mapError _

end Simulator

namespace Simulator

/-- How much an information tells: up to a bound, and more whenever a composition changes its key. -/
structure Graded (s : Simulator) (start : Transition) (grade : Info → Nat) (bound : Nat) : Prop where
  bounded {t : Transition} : s.Occurs start false t → grade t.info ≤ bound
  grows {t u : Transition} {i : Info} : s.Occurs start false t → s.Occurs start false u →
    t.state.key = u.state.key → t.info.compose u.info = .ok i → i.key ≠ t.info.key → grade t.info < grade i

/-- What is pending, and what was learned, occurs in the run. -/
structure Underway (s : Simulator) (start : Transition) (w : Worklist) : Prop where
  pending : s.QueueOccurs start false w.pending
  seen : ∀ k i, w.seen.get? k = some i → ∃ t, s.Occurs start false t ∧ t.state.key = k ∧ t.info = i

/-- How much may still be learned at a point. -/
def left (grade : Info → Nat) (bound : Nat) : Option Info → Nat
  | none => bound + 1
  | some i => bound - grade i

/-- How much may still be learned at the points with the given keys. -/
def room (grade : Info → Nat) (bound : Nat) (keys : Finset String) (w : Worklist) : Nat :=
  ∑ k ∈ keys, left grade bound (w.seen.get? k)

/-- The ranks of the pending branches. -/
def ranks (rank : Transition → Nat) (w : Worklist) : Multiset Nat := ↑(w.pending.entries.map fun e => rank e.2)

/-- What a worklist has to do after some results were taken up: less is left to learn, or as much, and branches of
the ranks of `news` were added. -/
def Advanced (grade : Info → Nat) (bound : Nat) (keys : Finset String) (rank : Transition → Nat) (w w' : Worklist)
    (news : Multiset Nat) : Prop :=
  room grade bound keys w' < room grade bound keys w ∨
    room grade bound keys w' = room grade bound keys w ∧ ranks rank w' = ranks rank w + news

section Worklist

variable {s : Simulator} {start t : Transition} {grade : Info → Nat} {bound : Nat} {keys : Finset String}
  {rank : Transition → Nat} {w w' w'' : Worklist} {news more : Multiset Nat} {k : String} {i : Info}

theorem room_insert_lt (hk : k ∈ keys) (less : left grade bound (some i) < left grade bound (w.seen.get? k)) :
    room grade bound keys { w with seen := w.seen.insert k i } < room grade bound keys w := by
  refine Finset.sum_lt_sum (fun j _ => ?_) ⟨k, hk, ?_⟩
  · dsimp only
    rw [Table.get?_insert]
    split
    · rename_i same
      exact same ▸ less.le
    · exact Nat.le_refl _
  · dsimp only
    rwa [Table.get?_insert_self]

theorem Advanced.trans (h : Advanced grade bound keys rank w w' news)
    (h' : Advanced grade bound keys rank w' w'' more) : Advanced grade bound keys rank w w'' (news + more) := by
  rcases h with less | ⟨same, first⟩
  · rcases h' with less' | ⟨same', -⟩
    · exact .inl (less'.trans less)
    · exact .inl (same' ▸ less)
  · rcases h' with less' | ⟨same', next⟩
    · exact .inl (same ▸ less')
    · exact .inr ⟨same'.trans same, by rw [next, first, add_assoc]⟩

section Accept

variable (rank_info : ∀ (t : Transition) i, rank { t with info := i } = rank t)

include rank_info

/-- A branch is added to those that are pending, or merged with one of them. -/
theorem Underway.addPending (h : s.Underway start w) (ht : s.Occurs start false t) (hadd : w.addPending t = .ok w') :
    s.Underway start w' ∧ w'.seen = w.seen ∧
      ∃ news, ranks rank w' = ranks rank w + news ∧ ∀ a ∈ news, a = rank t := by
  obtain ⟨q, hq, rfl⟩ := Worklist.addPending_cases hadd
  refine ⟨⟨h.pending.add ht hq, h.seen⟩, rfl, ?_⟩
  obtain ⟨-, entries⟩ | ⟨pre, e, post, i, before, -, -, entries⟩ := Queue.add_cases hq
  · refine ⟨{rank t}, ?_, fun a ha => Multiset.mem_singleton.1 ha⟩
    simp [ranks, entries, ← Multiset.coe_add]
  · refine ⟨0, ?_, fun a ha => absurd ha (Multiset.notMem_zero a)⟩
    simp [ranks, entries, before, rank_info]

/-- What is noted down at a point leaves less to learn there. -/
theorem Underway.note (h : s.Underway start w) (ht : s.Occurs start false t) (hk : t.state.key ∈ keys)
    (less : left grade bound (some t.info) < left grade bound (w.seen.get? t.state.key))
    (hadd : Worklist.addPending { w with seen := w.seen.insert t.state.key t.info } t = .ok w') :
    s.Underway start w' ∧ room grade bound keys w' < room grade bound keys w := by
  have noted : s.Underway start { w with seen := w.seen.insert t.state.key t.info } := by
    refine ⟨h.pending, fun k i hk => ?_⟩
    rw [Table.get?_insert] at hk
    split at hk
    · rename_i same
      exact ⟨t, ht, same.symm, Option.some.inj hk⟩
    · exact h.seen k i hk
  obtain ⟨underway, seen, -⟩ := noted.addPending rank_info ht hadd
  have less := room_insert_lt (w := w) hk less
  unfold room at less ⊢
  rw [seen]
  exact ⟨underway, less⟩

variable (graded : s.Graded start grade bound) (known : ∀ {t}, s.Occurs start false t → t.state.key ∈ keys)

include graded known

/-- A branch at a point that may be reached again adds nothing, unless there is less to learn then. -/
theorem Underway.revisit (h : s.Underway start w) (ht : s.Occurs start false t) (unfrozen : t.frozen = false)
    (hrev : w.revisit t = .ok w') :
    s.Underway start w' ∧ (room grade bound keys w' < room grade bound keys w ∨ w' = w) := by
  unfold Worklist.revisit at hrev
  dsimp only at hrev
  rw [Transition.copy_eq unfrozen] at hrev
  split at hrev
  · rename_i unseen
    refine (h.note rank_info ht (known ht) ?_ hrev).imp_right .inl
    rw [unseen]
    exact Nat.lt_succ_of_le (Nat.sub_le _ _)
  · rename_i old hold
    obtain ⟨u, hu, key, rfl⟩ := h.seen _ _ hold
    split at hrev
    · cases hrev
    · rename_i merged hmerged
      split at hrev
      · exact ⟨(Except.ok.inj hrev) ▸ h, .inr (Except.ok.inj hrev).symm⟩
      · rename_i changed
        have both : s.Occurs start false { t with info := merged } := hu.merge ht key hmerged (.inr rfl)
        have grows := graded.grows hu ht key hmerged changed
        have bounded := graded.bounded both
        rw [Transition.copy_eq (t := { t with info := merged }) unfrozen] at hrev
        refine (h.note rank_info both (known both) ?_ hrev).imp_right .inl
        dsimp only at bounded ⊢
        rw [hold]
        unfold left
        dsimp only
        omega

/-- One result of a small step is taken up. -/
theorem Underway.accept {ends repeats : Bool} (h : s.Underway start w) (ht : s.Occurs start ends t)
    (unfrozen : t.frozen = false) (hacc : w.accept ends repeats t = .ok w') : s.Underway start w' ∧
      ∃ news, Advanced grade bound keys rank w w' news ∧
        ∀ a ∈ news, a = rank t ∧ ends = false ∧ repeats = false := by
  have none : ∀ {w'}, Advanced grade bound keys rank w w' 0 → ∃ news, Advanced grade bound keys rank w w' news ∧
      ∀ a ∈ news, a = rank t ∧ ends = false ∧ repeats = false :=
    fun advanced => ⟨0, advanced, fun a ha => absurd ha (Multiset.notMem_zero a)⟩
  unfold Worklist.accept at hacc
  cases ends with
  | true =>
      obtain ⟨q, hq, rfl⟩ := Success.map_iff.1 hacc
      exact ⟨⟨h.pending, h.seen⟩, none (.inr ⟨rfl, (add_zero _).symm⟩)⟩
  | false =>
      simp only [Bool.false_eq_true, if_false] at hacc
      cases repeats with
      | true =>
          obtain ⟨underway, less | rfl⟩ := h.revisit rank_info graded known ht unfrozen hacc
          · exact ⟨underway, none (.inl less)⟩
          · exact ⟨underway, none (.inr ⟨rfl, (add_zero _).symm⟩)⟩
      | false =>
          obtain ⟨underway, seen, news, ranks, fresh⟩ := h.addPending rank_info ht hacc
          refine ⟨underway, news, .inr ⟨?_, ranks⟩, fun a ha => ⟨fresh a ha, rfl, rfl⟩⟩
          unfold room
          rw [seen]

theorem Underway.acceptAll {ends repeats : Bool} {ts : List Transition} (h : s.Underway start w)
    (hts : ∀ t ∈ ts, s.Occurs start ends t) (unfrozen : ∀ t ∈ ts, t.frozen = false)
    (hacc : w.acceptAll ends repeats ts = .ok w') : s.Underway start w' ∧
      ∃ news, Advanced grade bound keys rank w w' news ∧
        ∀ a ∈ news, ∃ t ∈ ts, a = rank t ∧ ends = false ∧ repeats = false := by
  induction ts generalizing w with
  | nil =>
      obtain rfl := Except.ok.inj hacc
      exact ⟨h, 0, .inr ⟨rfl, (add_zero _).symm⟩, fun a ha => absurd ha (Multiset.notMem_zero a)⟩
  | cons t ts ih =>
      unfold Worklist.acceptAll at hacc
      split at hacc
      · rename_i v hv
        obtain ⟨first, news, advanced, fresh⟩ := h.accept rank_info graded known (hts t List.mem_cons_self)
          (unfrozen t List.mem_cons_self) hv
        obtain ⟨rest, more, advanced', fresh'⟩ := ih first (fun u hu => hts u (List.mem_cons_of_mem t hu))
          (fun u hu => unfrozen u (List.mem_cons_of_mem t hu)) hacc
        refine ⟨rest, news + more, advanced.trans advanced', fun a ha => ?_⟩
        rcases Multiset.mem_add.1 ha with ha | ha
        · exact ⟨t, List.mem_cons_self, fresh a ha⟩
        · obtain ⟨u, hu, same⟩ := fresh' a ha
          exact ⟨u, List.mem_cons_of_mem t hu, same⟩
      · cases hacc

/-- A small step leaves less to learn, or it replaces a pending branch by branches of lower ranks. -/
theorem Underway.step (h : s.Underway start w) {step : Step Worklist} (hstep : s.worklistStep? w = some step)
    (hres : step.result = .ok w')
    (lower : ∀ {t r st}, s.Occurs start false t → (s.smallStep t).result = .ok st → r ∈ st.results →
      st.ends = false → st.repeats = false → rank r < rank t) :
    s.Underway start w' ∧ Prod.Lex (· < ·) (Relation.CutExpand (· < ·))
      (room grade bound keys w', ranks rank w') (room grade bound keys w, ranks rank w) := by
  unfold worklistStep? at hstep
  split at hstep
  · cases hstep
  · rename_i k t rest entries
    obtain rfl := Option.some.inj hstep
    split at hres
    · cases hres
    · obtain ⟨st, hst, hres⟩ := Run.bind_result_iff.1 hres
      have hacc := Run.ofFault_result_iff.1 hres
      obtain ⟨-, occurs⟩ := h.pending (k, t) (by simp [entries])
      have popped : s.Underway start { w with pending := ⟨rest⟩ } :=
        ⟨fun e he => h.pending e (by simp [entries, he]), h.seen⟩
      obtain ⟨underway, news, advanced, fresh⟩ :=
        popped.acceptAll rank_info graded known (fun r hr => occurs.step hst hr)
          (fun r hr => ((smallStep_unfrozen hst).2 r hr).1) hacc
      refine ⟨underway, ?_⟩
      rcases advanced with less | ⟨same, after⟩
      · exact .left _ _ less
      · have same : room grade bound keys w' = room grade bound keys w := same
        rw [same]
        refine .right _ ⟨news, rank t, fun a ha => ?_, ?_⟩
        · obtain ⟨r, hr, rfl, goes, once⟩ := fresh a ha
          exact lower occurs hst hr goes once
        · rw [after]
          simp only [ranks, entries, List.map_cons, ← Multiset.cons_coe, ← Multiset.singleton_add]
          abel

end Accept

end Worklist

section Drains

variable {s : Simulator} {start : Transition} {w : Worklist}

theorem drain_bounded (s : Simulator) (m n : Nat) (reports : List Report) (w : Worklist) :
    (s.bounded m).drain n reports w = s.drain n reports w := by
  induction n generalizing reports w with
  | zero => rfl
  | succ n ih =>
      have step : (s.bounded m).worklistStep? w = s.worklistStep? w := by
        unfold worklistStep?
        simp only [smallStep_bounded]
        rfl
      unfold drain
      rw [step]
      simp only [ih]

/-- With a bound that is large enough, no pending branch is left, or one could not go on. -/
def Drains (s : Simulator) (w : Worklist) : Prop :=
  ∃ n, ∀ m, n ≤ m → ∀ reports, s.drain m reports w = s.drain n reports w ∧ Definite (s.drain m reports w).result

/-- If all that small steps lead to can be drained, then the worklist can. -/
theorem Drains.of_step (next : ∀ step w', s.worklistStep? w = some step → step.result = .ok w' → s.Drains w') :
    s.Drains w := by
  have larger : ∀ {n m}, n + 1 ≤ m → ∃ k, m = k + 1 ∧ n ≤ k :=
    fun le => ⟨_, (Nat.sub_add_cancel (by omega)).symm, by omega⟩
  cases hstep : s.worklistStep? w with
  | none =>
      refine ⟨1, fun m le reports => ?_⟩
      obtain ⟨k, rfl, -⟩ := larger le
      simp only [drain, hstep]
      exact ⟨trivial, .ok _⟩
  | some step =>
      cases hres : step.result with
      | error halt =>
          refine ⟨1, fun m le reports => ?_⟩
          obtain ⟨k, rfl, -⟩ := larger le
          simp only [drain, hstep, hres]
          have definite := worklistStep?_definite hstep
          rw [hres] at definite
          exact ⟨trivial, fun same => definite (congrArg _ (Except.error.inj same))⟩
      | ok w' =>
          obtain ⟨n, enough⟩ := next step w' hstep hres
          refine ⟨n + 1, fun m le reports => ?_⟩
          obtain ⟨k, rfl, enoughLeft⟩ := larger le
          simp only [drain, hstep, hres]
          exact enough k enoughLeft _

theorem Underway.drains {grade : Info → Nat} {bound : Nat} {keys : Finset String} {rank : Transition → Nat}
    (rank_info : ∀ (t : Transition) i, rank { t with info := i } = rank t) (graded : s.Graded start grade bound)
    (known : ∀ {t}, s.Occurs start false t → t.state.key ∈ keys)
    (lower : ∀ {t r st}, s.Occurs start false t → (s.smallStep t).result = .ok st → r ∈ st.results →
      st.ends = false → st.repeats = false → rank r < rank t) (h : s.Underway start w) : s.Drains w := by
  have founded : WellFounded (Prod.Lex (· < · : Nat → Nat → Prop) (Relation.CutExpand (· < · : Nat → Nat → Prop))) :=
    .prod_lex Nat.lt_wfRel.wf Nat.lt_wfRel.wf.cutExpand
  induction hm : (room grade bound keys w, ranks rank w) using founded.induction generalizing w with
  | _ x ih =>
      subst hm
      refine Drains.of_step fun step w' hstep hres => ?_
      obtain ⟨underway, less⟩ := h.step rank_info graded known hstep hres lower
      exact ih _ less underway rfl

/-- How many of the positions that occur are still ahead of the code. -/
noncomputable def toGo (s : Simulator) (start t : Transition) : Nat :=
  ahead (· < ·) {w | ∃ t, s.Occurs start false t ∧ position t.frames = w} (position t.frames)

theorem Contained.toGo_lt {first : State} (h : s.Contained first start) (apart : ¬ s.program.system.RepeatsInPost)
    {t r : Transition} {st : SmallStep} (occurs : s.Occurs start false t) (hst : (s.smallStep t).result = .ok st)
    (hr : r ∈ st.results) (goes : st.ends = false) (once : st.repeats = false) :
    s.toGo start r < s.toGo start t := by
  have next : s.Occurs start false r := goes ▸ occurs.step hst hr
  exact ahead_lt h.positions_finite List.lt_trans List.lt_irrefl ⟨r, next, rfl⟩
    (smallStep_position_lt hst hr goes once (h.seated occurs) apart)

theorem run_bounded {q : Queue} (hq : Queue.empty.add start = .ok q) (m : Nat) : (s.bounded m).run start =
    (s.drain m [] ⟨q, .empty, .empty⟩ >>= fun w => pure w.ended.transitions) := by
  have started : Worklist.start start = .ok ⟨q, .empty, .empty⟩ := by
    unfold Worklist.start
    rw [hq]
    rfl
  unfold Simulator.run
  rw [started]
  simp only [drain_bounded]
  rfl

/-- Code that begins in a state that can be reached comes to an end, if repetitions stand apart from the expressions
that end the rounds of their loops, and there is an end to what can be learned. -/
theorem Contained.run_finishes {first : State} (h : s.Contained first start)
    (apart : ¬ s.program.system.RepeatsInPost) {grade : Info → Nat} {bound : Nat}
    (graded : s.Graded start grade bound) : ∃ n, ∀ m, n ≤ m → (s.bounded m).run start = (s.bounded n).run start ∧
      Definite ((s.bounded m).run start).result := by
  obtain ⟨q, hq⟩ : ∃ q, Queue.empty.add start = .ok q := ⟨_, rfl⟩
  have begun : s.Underway start ⟨q, .empty, .empty⟩ :=
    ⟨QueueOccurs.add (fun e he => by simp [Queue.empty] at he) .start hq, fun k i hk => by simp at hk⟩
  have rank_info : ∀ (t : Transition) i, s.toGo start { t with info := i } = s.toGo start t := fun _ _ => rfl
  have known : ∀ {t}, s.Occurs start false t → t.state.key ∈ h.keys_finite.toFinset :=
    fun occurs => h.keys_finite.mem_toFinset.2 ⟨_, occurs, rfl⟩
  obtain ⟨n, enough⟩ := begun.drains rank_info graded known (h.toGo_lt apart)
  refine ⟨n, fun m le => ?_⟩
  obtain ⟨same, definite⟩ := enough m le []
  rw [run_bounded hq, run_bounded hq, same]
  exact ⟨rfl, (same ▸ definite).run_bind fun _ => .ok _⟩

end Drains

end Simulator

end DeltaSlice
